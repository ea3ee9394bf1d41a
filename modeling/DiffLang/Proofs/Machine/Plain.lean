import DiffLang.Machine
import DiffLang.Proofs.Returns

/-!
# Runs of plain frames

A plain frame has no variables: a position in its code and a stack are all that changes. Each
instruction that the code of a graph is made of gets one equivalence here, which says when a machine
whose next instruction it is ends with a value; what comes after need not look into the machine any
more.

The end of a frame's code is signalled by a failure of its own kind, and a lookup or a primitive
that fails with that kind ends the frame too. The equivalences for these two therefore ask that they
do not.
-/

namespace DiffLang.Machine

open Run

/-- The machine ends with a value after less than so many steps. -/
def EndsIn (host : Host) (o : Option Origin) (n : Nat) (st : State) (s : Session) (v : Value) :
    Prop :=
  ∃ s', Returns (run host n st) o s v s'

/-- A computation does not fail with the failure that marks the end of a frame. -/
def NeverStops {α : Type} (act : Run α) (o : Option Origin) (s : Session) : Prop :=
  ∀ e s', act o s = (Except.error e, s') → e.kind ≠ .stop

def plain (code : Array Step) (home : Option Home) (lambda : Option TermId) (pc : Nat)
    (st : List Value) : Frame :=
  { code, pc, stack := st.toArray, home, lambda }

section Frames

variable (code : Array Step) (home : Option Home) (lambda : Option TermId) (pc : Nat)
variable (st vs : List Value)

@[simp] theorem plain_push :
    (plain code home lambda pc st).push vs = plain code home lambda pc (st ++ vs) := by
  simp [plain, Frame.push]

@[simp] theorem plain_next :
    (plain code home lambda pc st).next = plain code home lambda (pc + 1) st := rfl

@[simp] theorem plain_done : (plain code home lambda pc st).done = decide (code.size ≤ pc) := rfl

@[simp] theorem plain_stack_size : (plain code home lambda pc st).stack.size = st.length := by
  simp [plain]

theorem Frame.take_append {f : Frame} {st vs : List Value} (h : f.stack = (st ++ vs).toArray) :
    f.take vs.length = (vs, { f with stack := st.toArray }) := by
  have hk : f.topFrom vs.length = st.length := by
    simp [Frame.topFrom, h]
  unfold Frame.take
  rw [hk]
  split
  next hn =>
    obtain rfl : vs = [] := by simpa using hn
    obtain ⟨code, pc, stack⟩ := f
    simp_all
  · simp [h]

theorem plain_take (fn : Value) :
    (plain code home lambda pc (st ++ fn :: vs)).take ((vs.length : Int) + 1) =
      (fn :: vs, plain code home lambda pc st) := by
  have hlen : (vs.length : Int) + 1 = ((fn :: vs).length : Int) := by simp
  rw [hlen]
  exact Frame.take_append rfl

end Frames

/-! ## Application -/

def apply (host : Host) (f : Frame) (fn : Value) (args : List Value) : Run (Frame × Outcome) := do
  match ← Run.attempt (invoke host f fn args) with
  | .ok (.inl v) => pure (f.push [v], .ok none)
  | .ok (.inr new) => pure (f, .ok (some new))
  | .error e => pure (f, .error e)

variable {host : Host} {o : Option Origin} {code : Array Step} {home : Option Home}
variable {lambda : Option TermId} {pc : Nat} {st : List Value} {s : Session}

theorem receive_of_plain (f : Frame) (h : f.bindings = none) (v : Value) :
    receive host f v = pure v := by
  unfold receive
  rw [h]

theorem mapM_receive (f : Frame) (h : f.bindings = none) (vs : List Value) :
    vs.mapM (receive host f) = (pure vs : Run (List Value)) := by
  induction vs with
  | nil => rfl
  | cons v vs ih => rw [List.mapM_cons, receive_of_plain f h, ih, pure_bind, pure_bind]

theorem invoke_closure (f : Frame) (h : f.bindings = none) (g : Value) (xs args : List Value) :
    invoke host f (.closure g xs) args = invoke host f g (xs ++ args) := by
  rw [invoke, receive_of_plain f h, mapM_receive f h, pure_bind, pure_bind]
  cases g with
  | _ => rfl

theorem attempt_bind_apply {α β : Type} (act : Run α) (k : Except Failure α → Run β)
    (o : Option Origin) (s : Session) :
    (Run.attempt act >>= k) o s = k (act o s).1 o (act o s).2 := rfl

theorem apply_closure (f : Frame) (h : f.bindings = none) (g : Value) (xs args : List Value) :
    apply host f (.closure g xs) args = apply host f g (xs ++ args) := by
  unfold apply
  rw [invoke_closure f h]

/-- A function on the stack is applied. -/
theorem reduce_plain (fn : Value) (args : List Value) :
    reduce host (plain code home lambda pc (st ++ fn :: args)) args.length =
      apply host (plain code home lambda pc st) fn args := by
  unfold reduce
  rw [plain_take]
  rfl

/-! ## Steps -/

def Then (host : Host) (o : Option Origin) (n : Nat) (s : Session) (v : Value) : Progress → Prop
  | .running st => EndsIn host o n st s v
  | .finished _ w => w = v
  | .failed _ _ => False

variable {n : Nat} {v : Value} {waiting : List Frame}

theorem endsIn_zero {st : State} : ¬ EndsIn host o 0 st s v := by
  rintro ⟨s', h⟩
  exact returns_throw.mp h

theorem endsIn_succ {st : State} :
    EndsIn host o (n + 1) st s v ↔
      ∃ p s1, Returns (step host st) o s p s1 ∧ Then host o n s1 v p := by
  unfold EndsIn
  rw [run]
  simp only [returns_bind]
  constructor
  · rintro ⟨s', p, s1, hp, h⟩
    refine ⟨p, s1, hp, ?_⟩
    cases p with
    | running st' => exact ⟨s', h⟩
    | finished st' w => exact (returns_pure.mp h).1
    | failed st' e => exact (returns_throw.mp h).elim
  · rintro ⟨p, s1, hp, h⟩
    cases p with
    | running st' =>
      obtain ⟨s', h⟩ := h
      exact ⟨s', _, s1, hp, h⟩
    | finished st' w => exact ⟨s1, _, s1, hp, returns_pure.mpr ⟨h, rfl⟩⟩
    | failed st' e => exact h.elim

/-- A failed instruction is the next one again. -/
def settled : Frame × Outcome → Frame × Outcome
  | (f, .ok r) => (f, .ok r)
  | (f, .error e) => (f.back, .error e)

def progress (waiting : List Frame) : Frame × Outcome → Progress
  | (f, .ok none) => .running ⟨f, waiting⟩
  | (f, .ok (some new)) => .running ⟨new, if f.done then waiting else f :: waiting⟩
  | (f, .error e) => if e.kind = .stop then finish ⟨f, waiting⟩ else .failed ⟨f, waiting⟩ e

def After (host : Host) (o : Option Origin) (n : Nat) (waiting : List Frame) (s : Session)
    (v : Value) (r : Frame × Outcome) : Prop :=
  Then host o n s v (progress waiting (settled r))

variable {focus : Focus} {w fn : Value} {args : List Value} {op : Instruction} {f : Frame}

theorem advance_instruction (hop : f.code[f.pc]? = some ⟨op, focus⟩) :
    advance host f = execute host f.next op >>= fun r => pure (settled r) := by
  unfold advance
  rw [hop]
  refine bind_congr fun r => ?_
  obtain ⟨f, r⟩ := r
  cases r with
  | ok | error => rfl

theorem step_eq : step host ⟨f, waiting⟩ = advance host f >>= fun r => pure (progress waiting r) := by
  unfold step
  refine bind_congr fun r => ?_
  obtain ⟨f, e | _ | new⟩ := r
  · rw [progress, apply_ite pure]
  · rfl
  · rfl

theorem step_instruction (hop : code[pc]? = some ⟨op, focus⟩) :
    step host ⟨plain code home lambda pc st, waiting⟩ =
      execute host (plain code home lambda (pc + 1) st) op >>= fun r =>
        pure (progress waiting (settled r)) := by
  rw [step_eq, advance_instruction hop, bind_assoc, plain_next]
  simp only [pure_bind]

theorem endsIn_instruction (hop : code[pc]? = some ⟨op, focus⟩) :
    EndsIn host o (n + 1) ⟨plain code home lambda pc st, waiting⟩ s v ↔
      ∃ r s1, Returns (execute host (plain code home lambda (pc + 1) st) op) o s r s1 ∧
        After host o n waiting s1 v r := by
  rw [endsIn_succ, step_instruction hop]
  simp only [returns_bind, returns_pure]
  constructor
  · rintro ⟨_, s1, ⟨r, _, hex, rfl, rfl⟩, hthen⟩
    exact ⟨r, _, hex, hthen⟩
  · rintro ⟨r, s1, hex, hafter⟩
    exact ⟨_, s1, ⟨r, s1, hex, rfl, rfl⟩, hafter⟩

theorem After.stop {e : Failure} (h : After host o n waiting s v (f, .error e)) : e.kind = .stop := by
  refine Decidable.byContradiction fun hne => ?_
  simp only [After, settled, progress, if_neg hne] at h
  exact h

/-- The outcome of a caught computation, unless it fails with the end of a frame. -/
theorem attempt_cases {act : Run Value} (hstop : NeverStops act o s) :
    (∃ r s1, Returns (do pure (f.given (← Run.attempt act))) o s r s1 ∧
        After host o n waiting s1 v r) ↔
      ∃ w s1, Returns act o s w s1 ∧ EndsIn host o n ⟨f.push [w], waiting⟩ s1 v := by
  rcases hact : act o s with ⟨r, s'⟩
  have hattempt : Returns (Run.attempt act) o s r s' := returns_attempt.mpr hact
  simp only [returns_bind, returns_pure]
  constructor
  · rintro ⟨_, s1, ⟨r', _, hr, rfl, rfl⟩, hafter⟩
    obtain ⟨rfl, rfl⟩ := hattempt.unique hr
    cases r with
    | error e => exact (hstop e _ hact hafter.stop).elim
    | ok w => exact ⟨w, _, hact, hafter⟩
  · rintro ⟨w, s1, hw, hends⟩
    obtain ⟨rfl, rfl⟩ := Prod.mk.inj (hact.symm.trans hw)
    exact ⟨_, s', ⟨_, s', hattempt, rfl, rfl⟩, hends⟩

theorem endsIn_push (hop : code[pc]? = some ⟨.push w, focus⟩) :
    EndsIn host o (n + 1) ⟨plain code home lambda pc st, waiting⟩ s v ↔
      EndsIn host o n ⟨plain code home lambda (pc + 1) (st ++ [w]), waiting⟩ s v := by
  have hstop : NeverStops (pure w) o s := fun e s' h => by cases h
  rw [endsIn_instruction hop, ← plain_push]
  refine (attempt_cases hstop).trans ?_
  simp only [returns_pure]
  constructor
  · rintro ⟨_, _, ⟨rfl, rfl⟩, h⟩
    exact h
  · intro h
    exact ⟨w, s, ⟨rfl, rfl⟩, h⟩

theorem endsIn_dup {k : Nat} (hop : code[pc]? = some ⟨.dup k, focus⟩) (hk : st[k]? = some w) :
    EndsIn host o (n + 1) ⟨plain code home lambda pc st, waiting⟩ s v ↔
      EndsIn host o n ⟨plain code home lambda (pc + 1) (st ++ [w]), waiting⟩ s v := by
  obtain ⟨hlt, hw⟩ := List.getElem?_eq_some_iff.mp hk
  have hplace : Value.place (plain code home lambda (pc + 1) st).stack.size (k : Int) = .ok k := by
    unfold Value.place
    rw [plain_stack_size, if_pos (Int.natCast_nonneg k), if_pos (Int.ofNat_lt.mpr hlt)]
    rfl
  have hget : (plain code home lambda (pc + 1) st).stack.getD k .none = w := by
    simp [plain, hk]
  have hexec : execute host (plain code home lambda (pc + 1) st) (.dup k) =
      pure (plain code home lambda (pc + 1) (st ++ [w]), .ok none) := by
    have hbindings : (plain code home lambda (pc + 1) st).bindings = none := rfl
    simp only [execute, hbindings, hplace, Except.map, Frame.given, hget, plain_push]
  rw [endsIn_instruction hop, hexec]
  simp only [returns_pure]
  constructor
  · rintro ⟨_, _, ⟨rfl, rfl⟩, h⟩
    exact h
  · intro h
    exact ⟨_, s, ⟨rfl, rfl⟩, h⟩

theorem endsIn_fetch {h : Home} {key : Value}
    (hop : code[pc]? = some ⟨.fetch key, focus⟩) (hstop : NeverStops (host.get h key) o s) :
    EndsIn host o (n + 1) ⟨plain code (some h) lambda pc st, waiting⟩ s v ↔
      ∃ w s1, Returns (host.get h key) o s w s1 ∧
        EndsIn host o n ⟨plain code (some h) lambda (pc + 1) (st ++ [w]), waiting⟩ s1 v := by
  rw [endsIn_instruction hop]
  simp only [← plain_push]
  exact attempt_cases hstop

theorem endsIn_reduce (hop : code[pc]? = some ⟨.reduce args.length, focus⟩) :
    EndsIn host o (n + 1) ⟨plain code home lambda pc (st ++ fn :: args), waiting⟩ s v ↔
      ∃ r s1, Returns (apply host (plain code home lambda (pc + 1) st) fn args) o s r s1 ∧
        After host o n waiting s1 v r := by
  rw [endsIn_instruction hop]
  rw [show execute host (plain code home lambda (pc + 1) (st ++ fn :: args))
      (.reduce args.length) = _ from reduce_plain fn args]

/-! ## Calls -/

def Returned (host : Host) (o : Option Origin) (n : Nat) (s : Session) (v w : Value) :
    List Frame → Prop
  | [] => w = v
  | f :: rest => EndsIn host o n ⟨f.push [w], rest⟩ s v

theorem endsIn_done (h : code.size ≤ pc) :
    EndsIn host o (n + 1) ⟨plain code home lambda pc (st ++ [w]), waiting⟩ s v ↔
      Returned host o n s v w waiting := by
  have hget : (plain code home lambda pc (st ++ [w])).code[(plain code home lambda pc
      (st ++ [w])).pc]? = none := by
    simpa [plain] using h
  have htop : (plain code home lambda pc (st ++ [w])).top = .ok w := by
    simp [Frame.top, plain]
  have hstep : step host ⟨plain code home lambda pc (st ++ [w]), waiting⟩ =
      pure (finish ⟨plain code home lambda pc (st ++ [w]), waiting⟩) := by
    unfold step advance
    rw [hget]
    rfl
  rw [endsIn_succ, hstep]
  unfold finish
  rw [htop]
  cases waiting with
  | nil | cons =>
    constructor
    · rintro ⟨p, s1, hp, hthen⟩
      obtain ⟨rfl, rfl⟩ := returns_pure.mp hp
      exact hthen
    · intro h
      exact ⟨_, s, returns_pure_self, h⟩

/-- A frame that has come to its end is not kept while another is run for it. Whether or not it is,
it goes on with the value of the other. -/
theorem EndsIn.returned (h : EndsIn host o n ⟨plain code home lambda pc (st ++ [w]), waiting⟩ s v) :
    ∃ m, Returned host o m s v w
      (if code.size ≤ pc then waiting else plain code home lambda pc st :: waiting) := by
  split
  next hdone =>
    cases n with
    | zero => exact (endsIn_zero h).elim
    | succ n => exact ⟨n, (endsIn_done hdone).mp h⟩
  · rw [← plain_push] at h
    exact ⟨n, h⟩

theorem Returned.endsIn
    (h : Returned host o n s v w
      (if code.size ≤ pc then waiting else plain code home lambda pc st :: waiting)) :
    ∃ m, m ≤ n + 1 ∧ EndsIn host o m ⟨plain code home lambda pc (st ++ [w]), waiting⟩ s v := by
  split at h
  next hdone => exact ⟨n + 1, le_rfl, (endsIn_done hdone).mpr h⟩
  · refine ⟨n, Nat.le_succ n, ?_⟩
    rw [← plain_push]
    exact h

theorem returns_apply_machine {id graph : Nat} {tag : Symbol} :
    Returns (apply host (plain code home lambda pc st) (.machine id graph tag) args) o s
      (plain code home lambda pc st, (s.machineFunctions[id]?).elim (.error .broken) fun fn =>
        .ok (some (plain fn.code home fn.lambda 0 args))) s := by
  have hframe : frameOf s (plain code home lambda pc st) id args =
      (s.machineFunctions[id]?).map fun fn => plain fn.code home fn.lambda 0 args := rfl
  have hget : ∀ {α : Type} (k : Session → Run α), (get >>= k) o s = k s o s := fun k => rfl
  unfold Returns apply
  rw [invoke, call, attempt_bind_apply, hget, hframe]
  · cases s.machineFunctions[id]? with
    | none | some => rfl
  · simp

/-- A compiled function is run before the frame goes on. -/
theorem apply_machine {id graph : Nat} {tag : Symbol} :
    (∃ r s1, Returns (apply host (plain code home lambda pc st) (.machine id graph tag) args) o s
        r s1 ∧ After host o n waiting s1 v r) ↔
      ∃ fn, s.machineFunctions[id]? = some fn ∧
        EndsIn host o n ⟨plain fn.code home fn.lambda 0 args,
          if code.size ≤ pc then waiting else plain code home lambda pc st :: waiting⟩ s v := by
  have happly := @returns_apply_machine host o code home lambda pc st s args id graph tag
  cases hfn : s.machineFunctions[id]? with
  | none =>
    rw [hfn] at happly
    refine ⟨?_, fun ⟨fn, hsome, _⟩ => by cases hsome⟩
    rintro ⟨r, s1, hr, hafter⟩
    obtain ⟨rfl, rfl⟩ := happly.unique hr
    exact absurd hafter.stop (by decide)
  | some fn =>
    rw [hfn] at happly
    have hafter : After host o n waiting s v (plain code home lambda pc st,
        .ok (some (plain fn.code home fn.lambda 0 args))) ↔
        EndsIn host o n ⟨plain fn.code home fn.lambda 0 args,
          if code.size ≤ pc then waiting else plain code home lambda pc st :: waiting⟩ s v := by
      simp [After, settled, progress, Then]
    constructor
    · rintro ⟨r, s1, hr, h⟩
      obtain ⟨rfl, rfl⟩ := happly.unique hr
      exact ⟨fn, rfl, hafter.mp h⟩
    · rintro ⟨fn', hsome, hends⟩
      injection hsome with hsome
      subst hsome
      exact ⟨_, s, happly, hafter.mpr hends⟩

def isDirect : Value → Bool
  | .closure .. | .machine .. => false
  | fn => isCallable fn

theorem isCallable_of_isDirect (hc : ∀ g xs, fn ≠ .closure g xs) :
    isCallable fn = isDirect fn := by
  cases fn with
  | closure g xs => exact absurd rfl (hc g xs)
  | _ => rfl

theorem apply_call (hc : ∀ g xs, fn ≠ .closure g xs)
    (hm : ∀ id graph tag, fn ≠ .machine id graph tag) :
    apply host (plain code home lambda pc st) fn args =
      if isCallable fn then do
        pure ((plain code home lambda pc st).given (← Run.attempt (host.call fn args)))
      else
        pure (plain code home lambda pc st,
          .error (.because .exception s!"Cannot reduce with function: {fn.text}")) := by
  unfold apply
  rw [invoke, call]
  split
  · funext o s
    rw [attempt_bind_apply, attempt_bind_apply, bind_apply]
    rcases host.call fn args o s with ⟨e | v, s1⟩
    · rfl
    · rfl
  · rfl
  · exact hm
  · exact hc

theorem apply_of_isDirect (hfn : isDirect fn = true) :
    apply host (plain code home lambda pc st) fn args = (do
      pure ((plain code home lambda pc st).given (← Run.attempt (host.call fn args)))) := by
  have hc : ∀ g xs, fn ≠ .closure g xs := by
    rintro g xs rfl
    cases hfn
  have hm : ∀ id graph tag, fn ≠ .machine id graph tag := by
    rintro id graph tag rfl
    cases hfn
  rw [apply_call hc hm, if_pos (by rw [isCallable_of_isDirect hc, hfn])]

theorem apply_direct (hfn : isDirect fn = true) (hstop : NeverStops (host.call fn args) o s) :
    (∃ r s1, Returns (apply host (plain code home lambda pc st) fn args) o s r s1 ∧
        After host o n waiting s1 v r) ↔
      ∃ w s1, Returns (host.call fn args) o s w s1 ∧
        EndsIn host o n ⟨plain code home lambda pc (st ++ [w]), waiting⟩ s1 v := by
  rw [apply_of_isDirect hfn]
  simp only [← plain_push]
  exact attempt_cases hstop

theorem apply_other (hfn : isDirect fn = false)
    (hc : ∀ g xs, fn ≠ .closure g xs) (hm : ∀ id graph tag, fn ≠ .machine id graph tag) :
    ¬ ∃ r s1, Returns (apply host (plain code home lambda pc st) fn args) o s r s1 ∧
      After host o n waiting s1 v r := by
  rintro ⟨r, s1, hr, hafter⟩
  rw [apply_call hc hm, if_neg (by rw [isCallable_of_isDirect hc, hfn]; simp)] at hr
  obtain ⟨rfl, rfl⟩ := returns_pure.mp hr
  exact absurd hafter.stop (by simp [Failure.because])

end DiffLang.Machine
