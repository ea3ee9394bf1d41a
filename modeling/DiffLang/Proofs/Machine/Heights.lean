import DiffLang.Proofs.Machine.Plain
import DiffLang.Stage

/-!
# Stack heights along runs

Heights are counted when code is made and never looked at again when it runs. They are right all the
same: in every state that a machine of plain frames reaches, the running frame has the height that
was counted for its position, and each waiting frame has one value less, which it is waiting for. The
one thing this rests on is that functions are called with as many arguments as they have parameters;
`called?` says what the next instruction of a frame calls, and `Reaches` goes through the states.

A frame is kept only if it has an instruction left. So the number of waiting frames is the number of
calls made from instructions that are not the last of their code, less the number of those that have
come back: calls from last instructions do not count, however many there are.

Main statement: `level_of_reaches`.
-/

namespace DiffLang.Machine

open Run List

/-! ## Calls of compiled functions -/

/-- A function with its arguments, partial applications unfolded. -/
def unfolded : Value → List Value → Value × List Value
  | .closure g xs, args => unfolded g (xs ++ args)
  | fn, args => (fn, args)

def compiled? (s : Session) : Value × List Value → Option (MachineFunction × List Value)
  | (.machine id _ _, args) => (s.machineFunctions[id]?).map (·, args)
  | _ => none

def called? (s : Session) (f : Frame) : Option (MachineFunction × List Value) :=
  match f.code[f.pc]? with
  | some ⟨.reduce n, _⟩ =>
    match (f.take (n + 1)).1 with
    | fn :: args => compiled? s (unfolded fn args)
    | [] => none
  | _ => none

/-- Whether the next instruction of a frame makes a call after which the frame goes on. -/
def keeps (s : Session) (f : Frame) : Bool :=
  (called? s f).isSome && f.pc + 1 < f.code.size

/-- The states that a machine goes through, with the number of calls after which a frame goes on and
the number of returns so far. -/
inductive Reaches (host : Host) (o : Option Origin) (st0 : State) (s₀ : Session) :
    Nat → Nat → State → Session → Prop
  | start : Reaches host o st0 s₀ 0 0 st0 s₀
  | step {kept returned : Nat} {st st' : State} {s s' : Session}
    (h : Reaches host o st0 s₀ kept returned st s)
    (hstep : Returns (step host st) o s (.running st') s') :
    Reaches host o st0 s₀ (kept + (keeps s st.frame).toNat)
      (returned + (decide (st'.waiting.length < st.waiting.length)).toNat) st' s'

/-- A plain frame runs a function, at the height counted for its position but for some values. -/
structure RunsAt (fn : MachineFunction) (missing : Nat) (f : Frame) : Prop where
  code : f.code = fn.code
  bindings : f.bindings = none
  height : f.stack.size + missing = Code.heightAt fn.params.length fn.code f.pc

variable {host : Host} {o : Option Origin} {code : Array Step} {home : Option Home}
variable {lambda : Option TermId} {pc : Nat} {st : List Value} {s s' : Session}

/-! ## One instruction -/

/-- What an instruction of a plain frame leads to. -/
inductive Effect (s : Session) (code : Array Step) (home : Option Home) (lambda : Option TermId)
    (pc : Nat) (st : List Value) (op : Instruction) : Frame × Outcome → Prop
  | value {st' : List Value} (hlen : st'.length = op.leaves st.length)
    (hcall : called? s (plain code home lambda pc st) = none) :
    Effect s code home lambda pc st op (plain code home lambda (pc + 1) st', .ok none)
  | call {st' args : List Value} {fn : MachineFunction} (hlen : st'.length + 1 = op.leaves st.length)
    (hcall : called? s (plain code home lambda pc st) = some (fn, args)) :
    Effect s code home lambda pc st op
      (plain code home lambda (pc + 1) st', .ok (some (plain fn.code home fn.lambda 0 args)))
  | failure {f : Frame} {e : Failure}
    (h : e.kind = .stop → called? s (plain code home lambda pc st) = none) :
    Effect s code home lambda pc st op (f, .error e)

variable {op : Instruction} {r : Frame × Outcome} {args : List Value} {focus : Focus}
variable {st' st0 : State} {fn : MachineFunction} {f : Frame} {s₀ : Session}

/-- A caught computation puts its value on the stack, or fails. -/
theorem effect_attempt {act : Run Value} {st' : List Value} (hlen : st'.length + 1 = op.leaves st.length)
    (hcall : called? s (plain code home lambda pc st) = none)
    (h : Returns (do pure ((plain code home lambda (pc + 1) st').given (← Run.attempt act))) o s
      r s') :
    Effect s code home lambda pc st op r := by
  simp only [returns_bind, returns_pure] at h
  obtain ⟨x, s1, hx, rfl, rfl⟩ := h
  cases x with
  | error e => exact .failure fun _ => hcall
  | ok v =>
    rw [Frame.given, plain_push]
    exact .value (by rw [length_append]; exact hlen) hcall

theorem called?_reduce {fn : Value} (hop : code[pc]? = some ⟨.reduce args.length, focus⟩) :
    called? s (plain code home lambda pc (st ++ fn :: args)) = compiled? s (unfolded fn args) := by
  unfold called?
  rw [show (plain code home lambda pc (st ++ fn :: args)).code[(plain code home lambda pc
    (st ++ fn :: args)).pc]? = _ from hop]
  dsimp only
  rw [plain_take]

theorem called?_eq_none (hop : code[pc]? = some ⟨op, focus⟩)
    (h : ∀ n, op ≠ .reduce n) : called? s (plain code home lambda pc st) = none := by
  unfold called?
  rw [show (plain code home lambda pc st).code[(plain code home lambda pc st).pc]? = _ from hop]
  cases op with
  | reduce n => exact absurd rfl (h n)
  | _ => rfl

theorem compiled?_eq_none {fn : Value}
    (hm : ∀ id graph tag, fn ≠ .machine id graph tag) : compiled? s (fn, args) = none := by
  unfold compiled?
  split
  next id graph tag _ hfn => exact absurd (congrArg Prod.fst hfn) (hm id graph tag)
  · rfl

/-- What applying a function leads to. The frame that applies it has the height for its next
instruction but for one value. -/
theorem effect_apply {st' : List Value} {fn : Value} (hlen : st'.length + 1 = op.leaves st.length)
    (hcall : called? s (plain code home lambda pc st) = compiled? s (unfolded fn args))
    (h : Returns (apply host (plain code home lambda (pc + 1) st') fn args) o s r s') :
    Effect s code home lambda pc st op r := by
  induction fn, args using unfolded.induct with
  | case1 g xs args ih =>
    rw [apply_closure _ rfl] at h
    rw [unfolded] at hcall
    exact ih hcall h
  | case2 fn args hc =>
    rw [unfolded] at hcall
    case case2.x_2 => exact hc
    by_cases hm : ∃ id graph tag, fn = .machine id graph tag
    · obtain ⟨id, graph, tag, rfl⟩ := hm
      obtain ⟨rfl, rfl⟩ := returns_apply_machine.unique h
      rw [compiled?] at hcall
      cases hfn : s.machineFunctions[id]? with
      | none =>
        rw [hfn] at hcall
        exact .failure fun _ => hcall
      | some fn =>
        rw [hfn] at hcall
        exact .call hlen hcall
    · have hm : ∀ id graph tag, fn ≠ .machine id graph tag :=
        fun id graph tag hfn => hm ⟨id, graph, tag, hfn⟩
      rw [compiled?_eq_none hm] at hcall
      rw [apply_call hc hm] at h
      split at h
      · exact effect_attempt hlen hcall h
      · obtain ⟨rfl, rfl⟩ := returns_pure.mp h
        exact .failure fun _ => hcall

theorem exists_operands {n : Nat} (h : n + 1 ≤ st.length) :
    ∃ st' fn args, st = st' ++ fn :: args ∧ args.length = n := by
  have hlen : (st.drop (st.length - (n + 1))).length = n + 1 := by
    rw [length_drop]
    omega
  obtain ⟨fn, args, hdrop⟩ := exists_cons_of_length_eq_add_one hlen
  rw [hdrop, length_cons] at hlen
  exact ⟨st.take (st.length - (n + 1)), fn, args, by rw [← hdrop, take_append_drop],
    Nat.succ.inj hlen⟩

theorem effect_execute {base : Nat}
    (hop : code[pc]? = some ⟨op, focus⟩) (hfits : op.Fits base st.length)
    (h : Returns (execute host (plain code home lambda (pc + 1) st) op) o s r s') :
    Effect s code home lambda pc st op r := by
  cases op with
  | push | fetch => exact effect_attempt rfl (called?_eq_none hop (by simp)) h
  | dup i =>
    have hplace : Value.place (plain code home lambda (pc + 1) st).stack.size i = .ok i.toNat := by
      unfold Value.place
      rw [plain_stack_size, if_pos hfits.1, if_pos hfits.2]
    have hbindings : (plain code home lambda (pc + 1) st).bindings = none := rfl
    simp only [execute, hbindings, hplace, Except.map, Frame.given, plain_push] at h
    obtain ⟨rfl, rfl⟩ := returns_pure.mp h
    exact .value (by simp [Instruction.leaves]) (called?_eq_none hop (by simp))
  | reduce n =>
    obtain ⟨hn, hbase⟩ := hfits
    obtain ⟨n, rfl⟩ := Int.eq_ofNat_of_zero_le hn
    -- the stack ends with the function and its arguments
    obtain ⟨st', fn, args, rfl, rfl⟩ := exists_operands (show n + 1 ≤ st.length by omega)
    rw [show execute host (plain code home lambda (pc + 1) (st' ++ fn :: args))
      (.reduce args.length) = _ from reduce_plain fn args] at h
    refine effect_apply ?_ (called?_reduce hop) h
    simp only [Instruction.leaves, length_append, length_cons, Int.toNat_natCast]
    omega
  | closure | store | reduceOnly | assemble | other => exact hfits.elim

/-! ## One step -/

/-- What a step of a machine leads to whose running frame is level. -/
inductive Moved (s : Session) (fn : MachineFunction) (st st' : State) : Prop
  | value (hframe : RunsAt fn 0 st'.frame) (hwaiting : st'.waiting = st.waiting)
    (hcall : called? s st.frame = none)
  | call {fn' : MachineFunction} {args : List Value} {f : Frame}
    (hcall : called? s st.frame = some (fn', args))
    (hframe : st'.frame = plain fn'.code st.frame.home fn'.lambda 0 args) (hf : RunsAt fn 1 f)
    (hpc : f.pc = st.frame.pc + 1)
    (hwaiting : st'.waiting =
      if st.frame.pc + 1 < st.frame.code.size then f :: st.waiting else st.waiting)
  | back {f : Frame} {v : Value} (hwaiting : st.waiting = f :: st'.waiting)
    (hframe : st'.frame = f.push [v]) (hcall : called? s st.frame = none)

theorem returns_finish {st : State} (h : finish st = .running st') :
    ∃ f v, st.waiting = f :: st'.waiting ∧ st'.frame = f.push [v] := by
  unfold finish at h
  split at h
  · cases h
  next v _ =>
    split at h
    · cases h
    next f rest hwaiting =>
      cases h
      exact ⟨f, v, hwaiting, rfl⟩

theorem returns_step {waiting : List Frame} (hop : code[pc]? = some ⟨op, focus⟩)
    (h : Returns (step host ⟨plain code home lambda pc st, waiting⟩) o s (.running st') s') :
    ∃ r, Returns (execute host (plain code home lambda (pc + 1) st) op) o s r s' ∧
      progress waiting (settled r) = .running st' := by
  simp only [step_instruction hop, returns_bind, returns_pure] at h
  obtain ⟨r, s1, hr, hp, rfl⟩ := h
  exact ⟨r, hr, hp⟩

theorem returns_step_end {waiting : List Frame} (hop : code[pc]? = none)
    (h : Returns (step host ⟨plain code home lambda pc st, waiting⟩) o s (.running st') s') :
    finish ⟨plain code home lambda pc st, waiting⟩ = .running st' := by
  unfold step advance at h
  rw [show (plain code home lambda pc st).code[(plain code home lambda pc st).pc]? = none
    from hop] at h
  exact (returns_pure.mp h).1

theorem moved_of_step {st : State} (hlevel : RunsAt fn 0 st.frame)
    (h : Returns (step host st) o s (.running st') s') : Moved s fn st st' := by
  obtain ⟨f, waiting⟩ := st
  obtain ⟨hcode, hbindings, hheight⟩ := hlevel
  obtain ⟨code, pc, st, bindings, home, lambda⟩ := f
  cases hbindings
  cases hcode
  change Returns (step host ⟨plain fn.code home lambda pc st.toList, waiting⟩) o s _ s' at h
  change st.size + 0 = Code.heightAt fn.params.length fn.code pc at hheight
  rw [Nat.add_zero] at hheight
  cases hop : fn.code[pc]? with
  | none =>
    obtain ⟨f, v, hwaiting, hframe⟩ := returns_finish (returns_step_end hop h)
    refine .back hwaiting hframe ?_
    unfold called?
    rw [show (fn.code : Array Step)[pc]? = none from hop]
  | some instruction =>
    obtain ⟨op, focus⟩ := instruction
    have hfits : op.Fits fn.params.length st.toList.length := by
      have := fn.balanced.fits hop
      rwa [← hheight] at this
    have hnext : ∀ {st' : List Value} {missing : Nat},
        st'.length + missing = op.leaves st.toList.length →
        RunsAt fn missing (plain fn.code home lambda (pc + 1) st') := by
      intro st' missing hlen
      refine ⟨rfl, rfl, ?_⟩
      change _ = Code.heightAt fn.params.length fn.code (pc + 1)
      rw [plain_stack_size, hlen, Code.heightAt_succ hop, ← hheight, Array.length_toList]
    obtain ⟨r, hex, hr⟩ := returns_step hop h
    cases effect_execute hop hfits hex with
    | value hlen hcall =>
      cases hr
      exact .value (hnext hlen) rfl hcall
    | call hlen hcall =>
      cases hr
      refine .call hcall rfl (hnext hlen) rfl ?_
      rw [plain_done]
      by_cases hdone : fn.code.size ≤ pc + 1
      · simp [hdone]
      · simp [hdone]
    | failure hstop =>
      rw [settled, progress] at hr
      split at hr
      next hkind =>
        obtain ⟨f, v, hwaiting, hframe⟩ := returns_finish hr
        exact .back hwaiting hframe (hstop hkind)
      · cases hr

/-! ## Runs -/

/-- All frames of a machine are level, and run functions that are known. -/
structure Level (known : MachineFunction → Prop) (st : State) : Prop where
  frame : ∃ fn, known fn ∧ RunsAt fn 0 st.frame
  waiting : ∀ f ∈ st.waiting, f.pc < f.code.size ∧ ∃ fn, known fn ∧ RunsAt fn 1 f

theorem RunsAt.push (h : RunsAt fn 1 f) (v : Value) :
    RunsAt fn 0 (f.push [v]) where
  code := h.code
  bindings := h.bindings
  height := by
    rw [show (f.push [v]).pc = f.pc from rfl, ← h.height]
    simp [Frame.push]

theorem RunsAt.fits (h : RunsAt fn 0 f) (hop : f.code[f.pc]? = some ⟨op, focus⟩) :
    op.Fits fn.params.length f.stack.size := by
  rw [h.code] at hop
  have := fn.balanced.fits hop
  rwa [← h.height] at this

theorem mem_of_called? (h : called? s f = some (fn, args)) : fn ∈ s.machineFunctions := by
  unfold called? at h
  split at h
  · split at h
    · unfold compiled? at h
      split at h
      · obtain ⟨fn', hfn, hpair⟩ := Option.map_eq_some_iff.mp h
        cases hpair
        exact Array.mem_of_getElem? hfn
      · cases h
    · cases h
  · cases h

theorem Level.step {known : MachineFunction → Prop} {st : State} (hlevel : Level known st)
    (hknown : ∀ fn ∈ s.machineFunctions, known fn)
    (hcall : ∀ fn args, called? s st.frame = some (fn, args) → args.length = fn.params.length)
    (h : Returns (step host st) o s (.running st') s') : Level known st' := by
  obtain ⟨fn, hfn, hframe⟩ := hlevel.frame
  cases moved_of_step hframe h with
  | value hframe' hwaiting => exact ⟨⟨fn, hfn, hframe'⟩, hwaiting ▸ hlevel.waiting⟩
  | @call fn' args f hcalled hframe' hf hpc hwaiting =>
    refine ⟨⟨fn', hknown fn' (mem_of_called? hcalled), ?_⟩, ?_⟩
    · rw [hframe']
      refine ⟨rfl, rfl, ?_⟩
      rw [plain_stack_size, hcall fn' args hcalled]
      rfl
    · rw [hwaiting]
      split
      next hmore =>
        intro g hg
        rcases mem_cons.mp hg with rfl | hg
        · refine ⟨?_, fn, hfn, hf⟩
          rw [hpc, hf.code, ← hframe.code]
          exact hmore
        · exact hlevel.waiting g hg
      · exact hlevel.waiting
  | @back f v hwaiting hframe' =>
    obtain ⟨_, fn', hfn', hf⟩ := hlevel.waiting f (hwaiting ▸ mem_cons_self)
    refine ⟨⟨fn', hfn', hframe' ▸ hf.push v⟩, fun g hg => hlevel.waiting g ?_⟩
    exact hwaiting ▸ mem_cons_of_mem f hg

theorem waiting_length_of_step {st : State} (hlevel : RunsAt fn 0 st.frame)
    (h : Returns (Machine.step host st) o s (.running st') s') :
    st'.waiting.length + (decide (st'.waiting.length < st.waiting.length)).toNat =
      st.waiting.length + (keeps s st.frame).toNat := by
  cases moved_of_step hlevel h with
  | value _ hwaiting hcall => simp [keeps, hcall, hwaiting]
  | call hcall _ _ _ hwaiting =>
    by_cases hmore : st.frame.pc + 1 < st.frame.code.size
    · simp [keeps, hcall, hwaiting, hmore]
    · simp [keeps, hcall, hwaiting, hmore]
  | back hwaiting _ hcall => simp [keeps, hcall, hwaiting]

def Known (host : Host) (o : Option Origin) (st0 : State) (s₀ : Session) (fn : MachineFunction) :
    Prop :=
  ∃ kept returned st s, Reaches host o st0 s₀ kept returned st s ∧ fn ∈ s.machineFunctions

/-- Every call that a machine makes has as many arguments as the function has parameters. -/
def CallsFit (host : Host) (o : Option Origin) (st0 : State) (s₀ : Session) : Prop :=
  ∀ kept returned st s, Reaches host o st0 s₀ kept returned st s →
    ∀ fn args, called? s st.frame = some (fn, args) → args.length = fn.params.length

variable {kept returned : Nat}

theorem Reaches.level {st : State} (h : Reaches host o st0 s₀ kept returned st s)
    (hstart : Level (Known host o st0 s₀) st0) (hcalls : CallsFit host o st0 s₀) :
    Level (Known host o st0 s₀) st := by
  induction h with
  | start => exact hstart
  | step h hstep ih =>
    exact ih.step (fun fn hfn => ⟨_, _, _, _, h, hfn⟩) (hcalls _ _ _ _ h) hstep

theorem Reaches.waiting_length {st : State} (h : Reaches host o st0 s₀ kept returned st s)
    (hstart : Level (Known host o st0 s₀) st0) (hcalls : CallsFit host o st0 s₀) :
    st.waiting.length + returned = st0.waiting.length + kept := by
  induction h with
  | start => rfl
  | step h hstep ih =>
    obtain ⟨fn, _, hframe⟩ := (h.level hstart hcalls).frame
    have := waiting_length_of_step hframe hstep
    omega

theorem runsAt_start {stage : StageId} {id : Nat}
    (h : Returns (Stage.start host stage id args) o s f s₀) (hplain : f.bindings = none)
    (hargs : ∀ fn, s₀.machineFunctions[id]? = some fn → args.length = fn.params.length) :
    ∃ fn ∈ s₀.machineFunctions, RunsAt fn 0 f := by
  unfold Stage.start at h
  simp only [returns_bind, returns_get] at h
  obtain ⟨vs, s1, hvs, _, _, ⟨rfl, rfl⟩, h⟩ := h
  split at h
  · exact (returns_throw.mp h).elim
  next fn hfn =>
    rw [returns_get_bind] at h
    have hlen : s₀ = s1 → vs.toArray.size + 0 = fn.params.length := by
      rintro rfl
      rw [size_toArray, Nat.add_zero, returns_mapM_length hvs, hargs fn hfn]
    -- a frame with variables is not plain, whichever way the stage is found
    split at h <;> split at h <;> obtain ⟨rfl, rfl⟩ := returns_pure.mp h
    case isTrue | isTrue => cases hplain
    all_goals exact ⟨fn, Array.mem_of_getElem? hfn, rfl, rfl, hlen rfl⟩

/-- In every state that a compiled function reaches whose calls have the right numbers of arguments,
each frame has the height that was counted for its position, and each waiting frame has an
instruction left. -/
theorem level_of_reaches {stage : StageId} {id : Nat} {args : List Value} {f : Frame} {s₀ : Session}
    (hstart : Returns (Stage.start host stage id args) o s f s₀) (hplain : f.bindings = none)
    (hargs : ∀ fn, s₀.machineFunctions[id]? = some fn → args.length = fn.params.length)
    (hcalls : CallsFit host o ⟨f, []⟩ s₀) {st : State}
    (h : Reaches host o ⟨f, []⟩ s₀ kept returned st s') :
    (∃ fn, Known host o ⟨f, []⟩ s₀ fn ∧ RunsAt fn 0 st.frame ∧
      (∀ i focus, st.frame.code[st.frame.pc]? = some ⟨.dup i, focus⟩ →
        0 ≤ i ∧ i < st.frame.stack.size) ∧
      ∀ n focus, st.frame.code[st.frame.pc]? = some ⟨.reduce n, focus⟩ →
        0 ≤ n ∧ fn.params.length + (n.toNat + 1) ≤ st.frame.stack.size) ∧
    (∀ g ∈ st.waiting, g.pc < g.code.size ∧
      ∃ fn, Known host o ⟨f, []⟩ s₀ fn ∧ RunsAt fn 1 g) ∧
    st.waiting.length + returned = kept ∧
    ∀ st' s'', Returns (step host st) o s' (.running st') s'' → (called? s' st.frame).isSome →
      st.frame.pc + 1 = st.frame.code.size → st'.waiting = st.waiting := by
  have hlevel₀ : Level (Known host o ⟨f, []⟩ s₀) ⟨f, []⟩ := by
    obtain ⟨fn, hfn, hf⟩ := runsAt_start hstart hplain hargs
    exact ⟨⟨fn, ⟨0, 0, _, _, .start, hfn⟩, hf⟩, fun g hg => absurd hg not_mem_nil⟩
  have hlevel := h.level hlevel₀ hcalls
  obtain ⟨fn, hknown, hframe⟩ := hlevel.frame
  refine ⟨⟨fn, hknown, hframe, fun i focus hop => hframe.fits hop,
    fun n focus hop => hframe.fits hop⟩, hlevel.waiting, ?_, ?_⟩
  · simpa using h.waiting_length hlevel₀ hcalls
  · intro st' s'' hstep hcall hlast
    cases moved_of_step hframe hstep with
    | value _ hwaiting => exact hwaiting
    | call _ _ _ _ hwaiting => rw [hwaiting, if_neg (by omega)]
    | back _ _ hnone => simp [hnone] at hcall

/-! ## A run

Whether all calls of a run fit can be found out by making it, where it ends. -/

/-- Whether the next instruction of a frame calls a function with the right number of arguments, if
it calls one. -/
def callFits (s : Session) (f : Frame) : Bool :=
  (called? s f).all fun (fn, args) => args.length == fn.params.length

/-- Runs a machine for at most so many steps to see whether all its calls fit. -/
def allCallsFit (host : Host) (o : Option Origin) : Nat → State → Session → Bool
  | 0, _, _ => false
  | fuel + 1, st, s =>
    callFits s st.frame &&
      match step host st o s with
      | (.ok (.running st'), s') => allCallsFit host o fuel st' s'
      | _ => true

theorem callsFit_of_allCallsFit (fuel : Nat)
    (h : allCallsFit host o fuel st0 s₀ = true) : CallsFit host o st0 s₀ := by
  intro kept returned st s hreach
  have hrest : ∃ fuel, allCallsFit host o fuel st s = true := by
    induction hreach with
    | start => exact ⟨fuel, h⟩
    | @step _ _ st st' s s' _ hstep ih =>
      obtain ⟨fuel, hfuel⟩ := ih
      cases fuel with
      | zero => cases hfuel
      | succ fuel =>
        rw [allCallsFit, Bool.and_eq_true] at hfuel
        exact ⟨fuel, by simpa only [show step host st o s = _ from hstep] using hfuel.2⟩
  obtain ⟨fuel, hfuel⟩ := hrest
  cases fuel with
  | zero => cases hfuel
  | succ fuel =>
    rw [allCallsFit, Bool.and_eq_true] at hfuel
    intro fn args hcall
    simpa [callFits, hcall] using hfuel.1

/-- The state after so many steps, or where the machine ends before. -/
def after (host : Host) (o : Option Origin) (st0 : State) (s₀ : Session) : Nat → State × Session
  | 0 => (st0, s₀)
  | n + 1 =>
    let (st, s) := after host o st0 s₀ n
    match step host st o s with
    | (.ok (.running st'), s') => (st', s')
    | _ => (st, s)

theorem exists_reaches_after (host : Host) (o : Option Origin) (st0 : State) (s₀ : Session)
    (n : Nat) : ∃ kept returned, Reaches host o st0 s₀ kept returned
      (after host o st0 s₀ n).1 (after host o st0 s₀ n).2 := by
  induction n with
  | zero => exact ⟨0, 0, .start⟩
  | succ n ih =>
    obtain ⟨kept, returned, h⟩ := ih
    rw [after]
    dsimp only
    split
    next hstep => exact ⟨_, _, .step h hstep⟩
    · exact ⟨_, _, h⟩

/-- A primitive that takes a number to a loop with the number before it, or at zero to the end of
the loop. -/
def loopHost : Host where
  call _ vs :=
    match vs with
    | [.int (.ofNat (n + 1))] => pure (.closure (.machine 0 0 (.builtin "loop")) [.int n])
    | _ => pure (.closure (.machine 1 0 (.builtin "end")) vs)
  get _ key := pure key
  display _ _ := pure ()

/-- A loop that calls itself from its last instruction, the function it ends with, and a function
that runs the loop and calls once more with its result. -/
def loopSession : Session :=
  let fn (params : List Symbol) (ops : List Instruction)
      (h : Code.Balanced params.length (ops.map fun op => ⟨op, .nothing⟩).toArray) :
      MachineFunction :=
    { graph := 0, stage := 0, lambda := none, primal := none, params
      code := (ops.map fun op => ⟨op, .nothing⟩).toArray, balanced := h }
  { Session.initial with
    machineFunctions := #[
      fn [.builtin "n"] [.fetch (.foreign "next"), .dup 0, .reduce 1, .reduce 0] (by decide +kernel),
      fn [.builtin "r"] [.dup 0] (by decide +kernel),
      fn [.builtin "n"] [.fetch (.machine 0 0 (.builtin "loop")), .dup 0, .reduce 1,
        .fetch (.machine 1 0 (.builtin "end")), .dup 1, .reduce 1] (by decide +kernel)] }

/-- The frame that starts the loop with two rounds to go. -/
def loopFrame : Frame :=
  { code := (loopSession.machineFunctions.getD 2 default).code, stack := #[.int 2]
    home := some (.stage 0) }

theorem level_of_reaches_loop :
    Returns (Stage.start loopHost 0 2 [.int 2]) none loopSession loopFrame loopSession ∧
    ∃ kept returned,
      Reaches loopHost none ⟨loopFrame, []⟩ loopSession kept returned
        (after loopHost none ⟨loopFrame, []⟩ loopSession 12).1
        (after loopHost none ⟨loopFrame, []⟩ loopSession 12).2 ∧
      (after loopHost none ⟨loopFrame, []⟩ loopSession 12).1.waiting.length = 1 ∧
      1 + returned = kept ∧
      ∀ g ∈ (after loopHost none ⟨loopFrame, []⟩ loopSession 12).1.waiting, g.pc < g.code.size := by
  have hstart : Returns (Stage.start loopHost 0 2 [.int 2]) none loopSession loopFrame loopSession :=
    rfl
  have hcalls : CallsFit loopHost none ⟨loopFrame, []⟩ loopSession :=
    callsFit_of_allCallsFit 30 (by decide +kernel)
  have hlength : (after loopHost none ⟨loopFrame, []⟩ loopSession 12).1.waiting.length = 1 := by
    decide +kernel
  obtain ⟨kept, returned, h⟩ := exists_reaches_after loopHost none ⟨loopFrame, []⟩ loopSession 12
  obtain ⟨_, hwaiting, hcount, _⟩ := level_of_reaches hstart rfl (by decide +kernel) hcalls h
  exact ⟨hstart, kept, returned, h, hlength, hlength ▸ hcount, fun g hg => (hwaiting g hg).1⟩

end DiffLang.Machine
