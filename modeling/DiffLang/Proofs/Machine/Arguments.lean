import DiffLang.Proofs.Machine.Heights

/-!
# Calls with another number of arguments

A frame starts with the arguments of its call on the stack, however many there are, and nothing ever
compares them with the parameters. What a wrong number does to a call is up to the code. A `dup`
that finds nothing at its place fails, so a call that ends has been balanced above the arguments it
was given. Missing arguments go unnoticed where the places they would have taken are filled by
operands, and surplus arguments always do: code that is balanced above its parameters is balanced
above more.

The failure that marks the end of a frame ends it too if an instruction fails with it, and what the
code would have done after that does not matter. `unstopped` leaves that out.

Main statement: `balanced_of_call_ends`.
-/

variable {op : Instruction} {base operands n : Nat}

namespace DiffLang

/-! ## Heights above other numbers of arguments -/

/-- What an instruction does to the height does not depend on the number of arguments. -/
theorem Instruction.exists_leaves (h : op.Fits base (base + operands)) :
    ∃ operands', ∀ n, op.leaves (n + operands) = n + operands' := by
  cases op with
  | push | fetch | dup => exact ⟨operands + 1, fun _ => rfl⟩
  | reduce k =>
    refine ⟨operands - k.toNat, fun n => ?_⟩
    have := h.2
    simp only [Instruction.leaves]
    omega
  | closure | store | reduceOnly | assemble | other => exact h.elim

/-- Whether an instruction copies nothing but the first so many values. -/
def Instruction.CopiesBelow (n : Nat) : Instruction → Prop
  | .dup i => i < n
  | _ => True

instance (n : Nat) : (op : Instruction) → Decidable (op.CopiesBelow n)
  | .dup i => inferInstanceAs (Decidable (i < n))
  | .push _ | .fetch _ | .reduce _ | .closure | .store _ | .reduceOnly _ | .assemble _ | .other .. =>
    .isTrue trivial

theorem Instruction.CopiesBelow.mono {m : Nat} (h : op.CopiesBelow n)
    (hle : n ≤ m) : op.CopiesBelow m := by
  cases op with
  | dup i => exact Int.lt_of_lt_of_le h (Int.ofNat_le.mpr hle)
  | _ => trivial

theorem Instruction.Fits.copiesBelow {height : Nat}
    (h : op.Fits base height) : op.CopiesBelow height := by
  cases op with
  | dup i => exact h.2
  | _ => trivial

/-- Only copying depends on the number of arguments. -/
theorem Instruction.Fits.above
    (h : op.Fits base (base + operands)) (hcopies : op.CopiesBelow (n + operands)) :
    op.Fits n (n + operands) := by
  cases op with
  | push | fetch => trivial
  | dup i => exact ⟨h.1, hcopies⟩
  | reduce k =>
    refine ⟨h.1, ?_⟩
    have := h.2
    omega
  | closure | store | reduceOnly | assemble | other => exact h.elim

theorem Code.Fits.mono {code : List Step}
    (h : Code.Fits base (base + operands) code) (hle : base ≤ n) :
    Code.Fits n (n + operands) code := by
  induction code generalizing operands with
  | nil => trivial
  | cons step code ih =>
    obtain ⟨operands', hleaves⟩ := Instruction.exists_leaves h.1
    refine ⟨h.1.above (h.1.copiesBelow.mono (Nat.add_le_add_right hle _)), ?_⟩
    have hrest := h.2
    rw [hleaves] at hrest ⊢
    exact ih hrest

theorem Code.Balanced.mono {code : Array Step} (h : Code.Balanced base code)
    (hle : base ≤ n) : Code.Balanced n code :=
  Code.Fits.mono (show Code.Fits base (base + 0) code.toList from h) hle

end DiffLang

namespace DiffLang.Machine

open Run

/-- Whether no instruction fails with the failure that marks the end of a frame, for so many steps
of a machine. -/
def unstopped (host : Host) (o : Option Origin) : Nat → State → Session → Bool
  | 0, _, _ => true
  | fuel + 1, st, s =>
    (match advance host st.frame o s with
      | (.ok (_, .error e), _) => e.kind ≠ .stop || st.frame.done
      | _ => true) &&
    match step host st o s with
      | (.ok (.running st'), s') => unstopped host o fuel st' s'
      | _ => true

variable {host : Host} {o : Option Origin} {code : Array Step} {home : Option Home}
variable {lambda : Option TermId} {pc fuel : Nat} {st : List Value} {s s' : Session}
variable {waiting : List Frame} {v : Value}

theorem unstopped_step {st st' : State} (h : unstopped host o (fuel + 1) st s = true)
    (hstep : Returns (step host st) o s (.running st') s') :
    unstopped host o fuel st' s' = true := by
  rw [unstopped, Bool.and_eq_true, show step host st o s = _ from hstep] at h
  exact h.2

variable {f : Frame}

theorem done_of_unstopped {st : State} {e : Failure} (h : unstopped host o (fuel + 1) st s = true)
    (hadvance : Returns (advance host st.frame) o s (f, .error e) s') (he : e.kind = .stop) :
    st.frame.done = true := by
  rw [unstopped, Bool.and_eq_true, show advance host st.frame o s = _ from hadvance] at h
  simpa [he] using h.1

theorem step_cases {p : Progress} (h : Returns (step host ⟨f, waiting⟩) o s p s') :
    ∃ r, Returns (advance host f) o s r s' ∧ p = progress waiting r := by
  simp only [step_eq, returns_bind, returns_pure] at h
  obtain ⟨r, s1, hr, rfl, rfl⟩ := h
  exact ⟨r, hr, rfl⟩

theorem EndsIn.resumes {g : Frame} {before rest : List Frame}
    (hstop : unstopped host o fuel ⟨g, before ++ f :: rest⟩ s = true)
    (hends : EndsIn host o fuel ⟨g, before ++ f :: rest⟩ s v) :
    ∃ fuel' w s', fuel' < fuel ∧ unstopped host o fuel' ⟨f.push [w], rest⟩ s' = true ∧
      EndsIn host o fuel' ⟨f.push [w], rest⟩ s' v := by
  induction fuel generalizing g before s with
  | zero => exact (endsIn_zero hends).elim
  | succ fuel ih =>
    obtain ⟨p, s1, hstep, hthen⟩ := endsIn_succ.mp hends
    have hlater : ∀ new before', p = .running ⟨new, before' ++ f :: rest⟩ →
        ∃ fuel' w s', fuel' < fuel + 1 ∧ unstopped host o fuel' ⟨f.push [w], rest⟩ s' = true ∧
          EndsIn host o fuel' ⟨f.push [w], rest⟩ s' v := by
      rintro new before' rfl
      obtain ⟨fuel', w, s', hlt, h⟩ := ih (unstopped_step hstop hstep) hthen
      exact ⟨fuel', w, s', Nat.lt_succ_of_lt hlt, h⟩
    obtain ⟨⟨g', e | _ | new⟩, _, hp⟩ := step_cases hstep
    case error =>
      dsimp only [progress, finish] at hp
      split at hp
      · cases htop : g'.top with
        | error e =>
          rw [hp, htop] at hthen
          exact hthen.elim
        | ok w =>
          rw [htop] at hp
          cases before with
          | nil =>
            subst hp
            exact ⟨fuel, w, s1, Nat.lt_succ_self fuel, unstopped_step hstop hstep, hthen⟩
          | cons next before => exact hlater (next.push [w]) before hp
      · subst hp
        exact hthen.elim
    case ok.none => exact hlater g' before hp
    case ok.some =>
      dsimp only [progress] at hp
      split at hp
      · exact hlater new before hp
      · exact hlater new (g' :: before) hp

theorem EndsIn.copiesBelow {height : Nat} {focus : Focus}
    (hends : EndsIn host o fuel ⟨plain code home lambda pc st, waiting⟩ s v)
    (hfits : op.Fits base height) (hop : code[pc]? = some ⟨op, focus⟩) :
    op.CopiesBelow st.length := by
  cases op with
  | dup i =>
    refine Decidable.byContradiction fun hlt => ?_
    change ¬ i < (st.length : Int) at hlt
    have hplace : Value.place (plain code home lambda (pc + 1) st).stack.size i =
        .error .outOfRange := by
      unfold Value.place
      rw [plain_stack_size, if_pos hfits.1, if_neg hlt]
    have hexecute : execute host (plain code home lambda (pc + 1) st) (.dup i) =
        pure (plain code home lambda (pc + 1) st, .error .outOfRange) := by
      have hbindings : (plain code home lambda (pc + 1) st).bindings = none := rfl
      simp only [execute, hbindings, hplace, Except.map, Frame.given]
    cases fuel with
    | zero => exact endsIn_zero hends
    | succ fuel =>
      obtain ⟨r, s1, hr, hafter⟩ := (endsIn_instruction hop).mp hends
      rw [hexecute] at hr
      obtain ⟨rfl, rfl⟩ := returns_pure.mp hr
      exact absurd hafter.stop (by decide)
  | _ => trivial

/-- Code that a machine runs to its end finds what it needs above the arguments there are, if it
does above some. -/
theorem fits_of_endsIn (hfits : Code.Fits base (base + operands) (code.toList.drop pc))
    (hlen : st.length = n + operands)
    (hstop : unstopped host o fuel ⟨plain code home lambda pc st, waiting⟩ s = true)
    (hends : EndsIn host o fuel ⟨plain code home lambda pc st, waiting⟩ s v) :
    Code.Fits n (n + operands) (code.toList.drop pc) := by
  induction fuel using Nat.strongRecOn generalizing pc st operands s waiting with
  | ind fuel ih =>
  cases hop : code[pc]? with
  | none =>
    rw [List.drop_eq_nil_of_le (by simpa using hop)]
    trivial
  | some instruction =>
    obtain ⟨op, focus⟩ := instruction
    obtain ⟨hlt, hget⟩ := List.getElem?_eq_some_iff.mp (Array.getElem?_toList.trans hop)
    rw [List.drop_eq_getElem_cons hlt, hget] at hfits ⊢
    obtain ⟨hop_fits, hrest⟩ := hfits
    have hfits : op.Fits n (n + operands) := hop_fits.above (hlen ▸ hends.copiesBelow hop_fits hop)
    refine ⟨hfits, ?_⟩
    obtain ⟨operands', hleaves⟩ := Instruction.exists_leaves hop_fits
    rw [hleaves] at hrest ⊢
    cases fuel with
    | zero => exact (endsIn_zero hends).elim
    | succ fuel =>
      obtain ⟨p, s1, hstep, hthen⟩ := endsIn_succ.mp hends
      obtain ⟨_, hadvance, hp⟩ := step_cases hstep
      have hadvance' := hadvance
      rw [advance_instruction (f := plain code home lambda pc st) hop] at hadvance'
      simp only [plain_next, returns_bind, returns_pure] at hadvance'
      obtain ⟨r, _, hexecute, rfl, rfl⟩ := hadvance'
      cases effect_execute hop (hlen ▸ hfits) hexecute with
      | value hst' _ =>
        subst hp
        exact ih fuel (Nat.lt_succ_self fuel) hrest (by rw [hst', hlen, hleaves])
          (unstopped_step hstop hstep) hthen
      | @call st' args fn hst' _ =>
        by_cases hdone : code.size ≤ pc + 1
        · rw [List.drop_eq_nil_of_le (by simpa using hdone)]
          trivial
        · -- the frame has an instruction left, so it waits for the one it calls
          have hwaits : p = .running ⟨plain fn.code home fn.lambda 0 args,
              [] ++ plain code home lambda (pc + 1) st' :: waiting⟩ := by
            rw [hp]
            simp [progress, settled, hdone]
          subst hwaits
          obtain ⟨fuel', w, s2, hlt, hstop', hends'⟩ :=
            EndsIn.resumes (unstopped_step hstop hstep) hthen
          rw [plain_push] at hstop' hends'
          refine ih fuel' (Nat.lt_succ_of_lt hlt) hrest ?_ hstop' hends'
          rw [List.length_append, List.length_singleton, hst', hlen, hleaves]
      | @failure f e _ =>
        dsimp only [progress, settled] at hp
        split at hp
        next he =>
          have hdone := done_of_unstopped hstop hadvance he
          rw [plain_done, decide_eq_true_eq] at hdone
          rw [Array.getElem?_eq_none hdone] at hop
          cases hop
        · subst hp
          exact hthen.elim

/-- A call that ends with a value, whether it comes from outside or from another frame, is balanced
above the arguments it was given; and every function is above more arguments than parameters. -/
theorem balanced_of_call_ends {fn : MachineFunction} {args : List Value}
    (hstop : unstopped host o fuel ⟨plain fn.code home fn.lambda 0 args, waiting⟩ s = true) :
    (EndsIn host o fuel ⟨plain fn.code home fn.lambda 0 args, waiting⟩ s v →
      Code.Balanced args.length fn.code) ∧
    (fn.params.length ≤ args.length → Code.Balanced args.length fn.code) :=
  ⟨fits_of_endsIn (show Code.Fits _ (fn.params.length + 0) (fn.code.toList.drop 0) from
    fn.balanced) rfl hstop, fn.balanced.mono⟩

def loopCall (id : Nat) (args : List Value) : Frame :=
  let fn := loopSession.machineFunctions.getD id default
  plain fn.code (some (.stage 0)) fn.lambda 0 args

theorem balanced_of_call_ends_loop :
    unstopped loopHost none 30 ⟨loopCall 0 [.int 2, .int 7], []⟩ loopSession = true ∧
    (∃ v, EndsIn loopHost none 30 ⟨loopCall 0 [.int 2, .int 7], []⟩ loopSession v) ∧
    Code.Balanced 2 (loopCall 0 []).code := by
  have hstop : unstopped loopHost none 30 ⟨loopCall 0 [.int 2, .int 7], []⟩ loopSession = true := by
    decide +kernel
  obtain ⟨v, hends⟩ : ∃ v, EndsIn loopHost none 30 ⟨loopCall 0 [.int 2, .int 7], []⟩ loopSession v :=
    exists_returns _ _ _ (by decide +kernel)
  exact ⟨hstop, ⟨v, hends⟩, (balanced_of_call_ends hstop).1 hends⟩

/-- The end of the loop has one parameter, and does not notice a second argument. -/
theorem endsIn_surplus_argument :
    (loopSession.machineFunctions.getD 1 default).params.length = 1 ∧
    EndsIn loopHost none 2 ⟨loopCall 1 [.int 5, .int 6], []⟩ loopSession (.int 5) :=
  ⟨rfl, loopSession, rfl⟩

end DiffLang.Machine
