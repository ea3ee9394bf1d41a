import DiffLang.Abstract.Machine
import DiffLang.Proofs.Steps

/-!
# Alternatives of the abstract machine

Where the abstract machine takes values that may be several off its stack, it goes on with the first
and leaves the others behind as a checkpoint; when its path ends, it goes on from the latest
checkpoint. This module accounts for the alternatives that are left and those that are taken up.

What a computation can do to the checkpoints is said once: it leaves them as they are (`Still`), or puts
new ones on top (`Leaves`). Going on takes the latest one away, and a run is a sequence of both (`Ran`).
A checkpoint is meant to hold several alternatives, but those after the first cannot be gone on with,
so a run accounts for all alternatives (`Ran.account`) as long as each checkpoint holds one, and else
does not come to an end (`Ran.not_explore`).

Main statement: `each_alternative_once`.
-/

namespace DiffLang.Abstract.Machine

open Run List

variable {α β : Type} {c : Setting} {o : Option Origin} {s s' : State} {σ σ' : Session}

abbrev Alternative := Moment × List Value

def Checkpoint.alternatives : Checkpoint → List Alternative
  | .choices moment paths _ => paths.map fun p => (moment, p)
  | .leftover => []

def pending (cs : List Checkpoint) : List Alternative := cs.flatMap Checkpoint.alternatives

/-! ## What is left -/

/-- A computation leaves the checkpoints as they are. -/
def Still (act : Exec α) : Prop :=
  ∀ ⦃o s σ a s' σ'⦄, Steps act o s σ a s' σ' → s'.checkpoints = s.checkpoints

theorem still_pure (a : α) : Still (pure a) :=
  fun _ _ _ _ _ _ h => by rw [(steps_pure.mp h).2.1]

theorem still_throw (e : Failure) : Still (throw e : Exec α) :=
  fun _ _ _ _ _ _ h => (steps_throw.mp h).elim

theorem still_get : Still (get : Exec State) :=
  fun _ _ _ _ _ _ h => by rw [(steps_get.mp h).2.1]

theorem still_modify {f : State → State} (hf : ∀ s, (f s).checkpoints = s.checkpoints) :
    Still (modify f : Exec PUnit) :=
  fun _ _ _ _ _ _ h => by rw [← (steps_modify.mp h).1, hf]

theorem still_inSession (act : Run α) : Still (inSession act) :=
  fun _ _ _ _ _ _ h => by rw [(steps_lift.mp h).2]

theorem Still.bind {x : Exec α} {f : α → Exec β} (hx : Still x) (hf : ∀ a, Still (f a)) :
    Still (x >>= f) := by
  intro o s σ b s' σ' h
  obtain ⟨a, s1, σ1, h1, h2⟩ := steps_bind.mp h
  rw [hf a h2, hx h1]

variable {b : Bool} {vs found others : List Value} {item : Item} {fuel : Nat} {v : Value}
  {rest act : Exec α}

theorem still_guard {e : Failure} (h : Still rest) :
    Still (if b = true then throw e >>= fun _ : PUnit => rest else rest) := by
  split
  · exact (still_throw e).bind fun _ => h
  · exact h

theorem still_frame : Still frame := still_get.bind fun _ => still_pure _

theorem still_changeFrame (g : Frame → Frame) : Still (changeFrame g) := still_modify fun _ => rfl

/-- A computation leaves checkpoints behind, none of them empty, and touches no earlier ones. -/
def Leaves (act : Exec α) : Prop :=
  ∀ ⦃o s σ a s' σ'⦄, Steps act o s σ a s' σ' →
    ∃ new, s'.checkpoints = new ++ s.checkpoints ∧ ∀ k ∈ new, k.alternatives ≠ []

theorem Still.leaves (h : Still act) : Leaves act :=
  fun _ _ _ _ _ _ hact => ⟨[], h hact, fun _ hk => absurd hk not_mem_nil⟩

theorem leaves_pure (a : α) : Leaves (pure a) := (still_pure a).leaves

theorem leaves_throw (e : Failure) : Leaves (throw e : Exec α) := (still_throw e).leaves

theorem leaves_changeFrame (g : Frame → Frame) : Leaves (changeFrame g) := (still_changeFrame g).leaves

theorem Leaves.bind {x : Exec α} {f : α → Exec β} (hx : Leaves x) (hf : ∀ a, Leaves (f a)) :
    Leaves (x >>= f) := by
  intro o s σ b s' σ' h
  obtain ⟨a, s1, σ1, h1, h2⟩ := steps_bind.mp h
  obtain ⟨new1, heq1, hnew1⟩ := hx h1
  obtain ⟨new2, heq2, hnew2⟩ := hf a h2
  refine ⟨new2 ++ new1, by rw [heq2, heq1, append_assoc], fun k hk => ?_⟩
  rcases mem_append.mp hk with hk | hk
  · exact hnew2 k hk
  · exact hnew1 k hk

/-! ## Taking values off the stack -/

def operands (s : State) (n : Nat) : List Item :=
  s.now.frame.stack.toList.drop (s.now.frame.stack.size - n)

/-- A moment before the instruction that takes so many values off the stack, without these values. -/
def Moment.before (m : Moment) (n : Nat) : Moment :=
  { m with frame := { m.frame with
      stack := m.frame.stack.take (m.frame.stack.size - n)
      pc := m.frame.pc - 1 } }

/-- The state after values are taken, with the other alternatives left behind. -/
def taken (s : State) (n : Nat) (others : List (List Value)) : State :=
  { s with
    now := { s.now with frame := { s.now.frame with
      stack := s.now.frame.stack.take (s.now.frame.stack.size - n) } }
    checkpoints := if others.isEmpty then s.checkpoints
      else .choices (s.now.before n) others false :: s.checkpoints }

theorem steps_checkpoint {paths : List (List Value)} {back : Nat} {u : Unit} :
    Steps (checkpoint paths back) o s σ u s' σ' ↔
      { s with checkpoints := .choices { s.now with frame := { s.now.frame with
          pc := s.now.frame.pc - back } } paths false :: s.checkpoints } = s' ∧ σ = σ' :=
  steps_modify

/-- Taking values goes on with the first alternative, and leaves the others at a checkpoint before
the instruction that takes them. -/
theorem steps_take {n : Nat} :
    Steps (take n) o s σ vs s' σ' ↔
      ∃ others, combinations ((operands s n).map (expand s)) = vs :: others ∧
        taken s n others = s' ∧ σ = σ' := by
  unfold take changeFrame operands
  rw [steps_get_bind, steps_modify_bind]
  cases hc : combinations ((s.now.frame.stack.toList.drop (s.now.frame.stack.size - n)).map (expand s))
  with
  | nil => simp
  | cons first others =>
    simp only [List.cons.injEq]
    constructor
    · intro h
      cases others with
      | nil =>
        obtain ⟨rfl, rfl, rfl⟩ := steps_pure.mp h
        exact ⟨[], ⟨rfl, rfl⟩, rfl, rfl⟩
      | cons p others =>
        replace h := steps_modify_bind.mp h
        obtain ⟨rfl, rfl, rfl⟩ := steps_pure.mp h
        exact ⟨p :: others, ⟨rfl, rfl⟩, rfl, rfl⟩
    · rintro ⟨_, ⟨rfl, rfl⟩, rfl, rfl⟩
      cases others with
      | nil => exact steps_pure_self
      | cons p others => exact steps_modify_bind.mpr steps_pure_self

theorem checkpoints_taken (s : State) (n : Nat) (others : List (List Value)) :
    ∃ new, (taken s n others).checkpoints = new ++ s.checkpoints ∧
      pending new = others.map (fun p => (s.now.before n, p)) ∧ ∀ k ∈ new, k.alternatives ≠ [] := by
  cases others with
  | nil => exact ⟨[], rfl, rfl, fun _ hk => absurd hk not_mem_nil⟩
  | cons p others =>
    refine ⟨[.choices (s.now.before n) (p :: others) false], rfl, append_nil _, fun k hk => ?_⟩
    rw [mem_singleton.mp hk]
    exact cons_ne_nil _ _

theorem pending_of_take {n : Nat} (h : Steps (take n) o s σ vs s' σ') :
    ∃ new, s'.checkpoints = new ++ s.checkpoints ∧
      vs :: (pending new).map Prod.snd = combinations ((operands s n).map (expand s)) ∧
      ∀ a ∈ pending new, a.1 = s.now.before n := by
  obtain ⟨others, hcomb, rfl, -⟩ := steps_take.mp h
  obtain ⟨new, hnew, hpending, -⟩ := checkpoints_taken s n others
  refine ⟨new, hnew, ?_, fun a ha => ?_⟩
  · rw [hpending, map_map, hcomb]
    exact congrArg (vs :: ·) (map_id _)
  · rw [hpending] at ha
    obtain ⟨q, -, rfl⟩ := mem_map.mp ha
    rfl

theorem leaves_take (n : Nat) : Leaves (take n) := by
  intro o s σ vs s' σ' h
  obtain ⟨others, -, rfl, -⟩ := steps_take.mp h
  obtain ⟨new, heq, -, hnew⟩ := checkpoints_taken s n others
  exact ⟨new, heq, hnew⟩

/-! ## Instructions -/

theorem still_receive (v : Value) : Still (receive c v) := by
  unfold receive
  split
  · refine still_frame.bind fun f => ?_
    split
    · exact still_inSession _
    · exact still_throw _
  · exact still_pure _

theorem still_pushQuietly (v : Value) : Still (pushQuietly c v) :=
  (still_receive v).bind fun _ => still_changeFrame _

theorem still_push (v : Value) : Still (push c v) := by
  refine (still_pushQuietly v).bind fun _ => ?_
  extract_lets paths
  split
  · exact still_throw _
  · exact still_pure _

theorem still_pushResults (m : Nat) : Still (pushResults m) := by
  refine still_get.bind fun s => (still_changeFrame _).bind fun _ => ?_
  split
  · exact still_throw _
  · exact still_pure _

theorem still_putAll (noted : Bool) : ∀ vs : List Value, Still (putAll c noted vs)
  | [] => still_pure _
  | v :: vs => by
    rw [putAll]
    cases noted with
    | true => exact (still_push v).bind fun _ => still_putAll true vs
    | false => exact (still_pushQuietly v).bind fun _ => still_putAll false vs

theorem still_callFunction (fn : Value) (id : Nat) (args : List Value) :
    Still (callFunction fn id args) := by
  refine still_guard (still_get.bind fun s => ?_)
  extract_lets same
  split
  · refine (still_inSession _).bind fun session => ?_
    split
    · exact still_throw _
    · refine (still_inSession _).bind fun l => ?_
      exact .bind (still_modify fun _ => rfl) fun _ => still_pure _
  · refine .bind (still_modify fun _ => rfl) fun _ => ?_
    split
    · exact still_pure _
    · exact (still_pushResults _).bind fun _ => still_pure _

theorem still_callOperation (node : Focus) (fn : Value) (args : List Value) (all : Bool) :
    Still (callOperation c node fn args all) := by
  unfold callOperation
  split
  · exact (still_push _).bind fun _ => still_pure _
  · extract_lets keys
    split
    · refine (still_inSession _).bind fun r => ?_
      extract_lets
      split
      · exact (still_push _).bind fun _ => still_pure _
      · split
        · exact (still_push _).bind fun _ => still_pure _
        · exact (still_throw _).bind fun _ => still_pure _
    · refine (still_inSession _).bind fun session => still_frame.bind fun f => ?_
      exact (still_inSession _).bind fun f => still_pure _

theorem leaves_reduce (node : Focus) :
    ∀ (fuel count : Nat) (all : Bool), Leaves (reduce c node fuel count all)
  | 0, _, _ => leaves_throw _
  | fuel + 1, count, all => by
    rw [reduce]
    refine (leaves_take _).bind fun vs => ?_
    split
    · exact leaves_throw _
    · split
      · exact (still_callFunction _ _ _).leaves
      · exact (still_putAll false _).leaves.bind fun _ => leaves_reduce node fuel _ true
      · exact (still_callOperation _ _ _ _).leaves
      · exact ((still_push _).bind fun _ => still_pure _).leaves
      · exact leaves_throw _

theorem leaves_execute (i : Step) : Leaves (execute c i) := by
  unfold execute
  split
  · exact ((still_push _).bind fun _ => still_pure _).leaves
  · refine (still_frame.bind fun f => (still_inSession _).bind fun v => ?_).leaves
    exact (still_push _).bind fun _ => still_pure _
  · refine (leaves_take _).bind fun vs => ?_
    split
    · refine ((still_inSession _).bind fun xs => ?_).leaves
      exact (still_changeFrame _).bind fun _ => still_pure _
    · exact leaves_throw _
  · refine (leaves_take _).bind fun vs => ?_
    split
    · refine (still_frame.bind fun f => (still_inSession _).bind fun vars => ?_).leaves
      exact (still_changeFrame _).bind fun _ => still_pure _
    · exact leaves_throw _
  · refine (leaves_take _).bind fun vs => ((still_inSession _).bind fun v => ?_).leaves
    exact (still_push _).bind fun _ => still_pure _
  · exact leaves_reduce _ _ _ _
  · exact leaves_reduce _ _ _ _
  · exact leaves_throw _

theorem leaves_guard {e : Failure} (h : Leaves rest) :
    Leaves (if b = true then throw e >>= fun _ : PUnit => rest else rest) := by
  split
  · exact (leaves_throw e).bind fun _ => h
  · exact h

theorem leaves_remember (m : Nat) (v : Value) : Leaves (remember m v) := by
  refine leaves_guard fun o s σ a s' σ' h => ?_
  rw [steps_get_bind] at h
  split at h
  · exact leaves_pure _ h
  · split at h
    · exact leaves_pure _ h
    · obtain ⟨rfl, rfl⟩ := steps_set.mp h
      refine ⟨_, rfl, fun k hk => ?_⟩
      obtain ⟨w, -, rfl⟩ := mem_map.mp hk
      exact cons_ne_nil _ _

/-! ## The end of a frame -/

theorem operands_one (h : s.now.frame.stack.back? = some item) :
    operands s 1 = [item] := by
  obtain ⟨below, hstack⟩ := Array.back?_eq_some_iff.mp h
  rw [operands, hstack, Array.size_push, Nat.add_sub_cancel, Array.toList_push]
  exact drop_left

theorem combinations_singleton (vs : List Value) : combinations [vs] = vs.map fun v => [v] := by
  rw [combinations, combinations]
  induction vs with
  | nil => rfl
  | cons v vs ih => rw [flatMap_cons, ih]; rfl

/-- The state after a frame has ended with an item that may be several values: each of them is left, at
the end of the frame. If they are several indeed, then those after the first are also left before the
last instruction of the frame. -/
def split (s : State) (v : Value) (others : List Value) : State :=
  { taken s 1 (others.map fun v => [v]) with
    checkpoints := .choices (taken s 1 []).now ((v :: others).map fun v => [v]) false ::
      (taken s 1 (others.map fun v => [v])).checkpoints }

theorem steps_finishFork {p : Progress} (hitem : s.now.frame.stack.back? = some item) :
    Steps (finishFork item) o s σ p s' σ' ↔
      ∃ v others, expand s item = v :: others ∧ p = .ended ∧ σ = σ' ∧ s' = split s v others := by
  have hcomb : combinations ((operands s 1).map (expand s)) = (expand s item).map fun v => [v] := by
    rw [operands_one hitem]
    exact combinations_singleton _
  rw [finishFork, steps_get_bind]
  simp only [steps_bind, steps_take, steps_checkpoint, steps_pure]
  constructor
  · rintro ⟨_, _, _, ⟨rest, hc, rfl, rfl⟩, _, _, _, ⟨rfl, rfl⟩, rfl, rfl, rfl⟩
    rw [hcomb] at hc
    obtain ⟨v, others, heq, rfl, rfl⟩ := map_eq_cons_iff.mp hc
    refine ⟨v, others, heq, rfl, rfl, ?_⟩
    rw [heq]
    rfl
  · rintro ⟨v, others, heq, rfl, rfl, rfl⟩
    refine ⟨[v], _, _, ⟨others.map fun v => [v], ?_, rfl, rfl⟩, (), _, _, ⟨rfl, rfl⟩, rfl, ?_, rfl⟩
    · rw [hcomb, heq]
      rfl
    · rw [heq]
      rfl

theorem leaves_finishValue (v : Value) : Leaves (finishValue c v) := by
  refine still_get.leaves.bind fun s => ?_
  extract_lets rest
  have hrest : ∀ u, Leaves (rest u) := by
    intro u
    dsimp only [rest]
    split
    · exact leaves_pure _
    · refine Still.leaves (.bind (still_modify fun _ => rfl) fun _ => ?_)
      exact (still_push v).bind fun _ => still_pure _
  split
  · exact (leaves_remember _ v).bind hrest
  · exact hrest ()

theorem leaves_finish : Leaves (finish c) := by
  intro o s σ p s' σ' h
  rw [finish, steps_get_bind] at h
  split at h
  · exact leaves_throw _ h
  next item hitem =>
    split at h
    · obtain ⟨v, others, -, -, -, rfl⟩ := (steps_finishFork hitem).mp h
      obtain ⟨new, heq, -, hnew⟩ := checkpoints_taken s 1 (others.map fun v => [v])
      refine ⟨_ :: new, congrArg (_ :: ·) heq, fun k hk => ?_⟩
      rcases mem_cons.mp hk with rfl | hk
      · exact cons_ne_nil _ _
      · exact hnew k hk
    · exact leaves_finishValue _ h

theorem leaves_step : Leaves (step c) := by
  refine still_frame.leaves.bind fun f => ?_
  split
  · exact leaves_finish
  · refine (leaves_changeFrame _).bind fun _ => (leaves_execute _).bind fun next => ?_
    split
    · exact leaves_pure _
    · exact leaves_pure _
    · exact Still.leaves (.bind (still_modify fun _ => rfl) fun _ => still_pure _)

/-! ## Going on -/

/-- Going on from a checkpoint puts the values of its first alternative on the stack there, and nothing
else. The place of further alternatives is taken by something that cannot be gone on from. -/
theorem steps_resume :
    Steps (resume c) o s σ b s' σ' ↔
      (s.checkpoints = [] ∧ b = false ∧ s = s' ∧ σ = σ') ∨
      ∃ m p more noted rest s1, s.checkpoints = .choices m (p :: more) noted :: rest ∧ b = true ∧
        Steps (putAll c noted p) o { s with now := m, checkpoints := rest } σ () s1 σ' ∧
        s' = if more.isEmpty then s1 else { s1 with checkpoints := .leftover :: s1.checkpoints } := by
  rw [resume, steps_get_bind]
  constructor
  · intro h
    split at h
    next hnone =>
      obtain ⟨rfl, rfl, rfl⟩ := steps_pure.mp h
      exact .inl ⟨hnone, rfl, rfl, rfl⟩
    · exact (steps_throw.mp h).elim
    next m paths noted rest hsome =>
      split at h
      · exact (steps_throw.mp h).elim
      next p more =>
        obtain ⟨_, s1, σ1, hput, h⟩ := steps_bind.mp (steps_set_bind.mp h)
        refine .inr ⟨m, p, more, noted, rest, s1, hsome, ?_⟩
        cases more with
        | nil =>
          obtain ⟨rfl, rfl, rfl⟩ := steps_pure.mp h
          exact ⟨rfl, hput, rfl⟩
        | cons q more =>
          replace h := steps_modify_bind.mp h
          obtain ⟨rfl, rfl, rfl⟩ := steps_pure.mp h
          exact ⟨rfl, hput, rfl⟩
  · rintro (⟨hnone, rfl, rfl, rfl⟩ | ⟨m, p, more, noted, rest, s1, hsome, rfl, hput, rfl⟩)
    · rw [hnone]
      exact steps_pure_self
    · rw [hsome]
      refine steps_set_bind.mpr (steps_bind.mpr ⟨(), s1, σ', hput, ?_⟩)
      cases more with
      | nil => exact steps_pure_self
      | cons q more => exact steps_modify_bind.mpr steps_pure_self

/-! ## Runs -/

/-- A stretch of a run, from a state and a session: the checkpoints that were left on the way and the
alternatives that were taken up, the latest first, and how the last step went. -/
inductive Ran (c : Setting) (o : Option Origin) (s₀ : State) (σ₀ : Session) :
    List Checkpoint → List Alternative → Progress → State → Session → Prop where
  | start : Ran c o s₀ σ₀ [] [] .running s₀ σ₀
  | step {left : List Checkpoint} {up : List Alternative} {p : Progress} {s s' : State}
      {σ σ' : Session} {new : List Checkpoint} (h : Ran c o s₀ σ₀ left up .running s σ)
      (hstep : Steps (step c) o s σ p s' σ') (hnew : s'.checkpoints = new ++ s.checkpoints) :
      Ran c o s₀ σ₀ (new ++ left) up p s' σ'
  | resume {left : List Checkpoint} {up : List Alternative} {p : Progress} {s s' : State}
      {σ σ' : Session} {m : Moment} {vs : List Value} {more : List (List Value)} {noted : Bool}
      {rest : List Checkpoint} (h : Ran c o s₀ σ₀ left up p s σ) (hp : p ≠ .running)
      (htop : s.checkpoints = .choices m (vs :: more) noted :: rest)
      (hresume : Steps (resume c) o s σ true s' σ') :
      Ran c o s₀ σ₀ left ((m, vs) :: up) .running s' σ'

variable {s₀ : State} {σ₀ : Session} {left : List Checkpoint} {up : List Alternative} {p : Progress}
  {k : Checkpoint}

def Checkpoint.Single (k : Checkpoint) : Prop := k.alternatives.length = 1

theorem Checkpoint.Single.exists_eq (h : k.Single) : ∃ m p noted, k = .choices m [p] noted := by
  cases k with
  | leftover => cases h
  | choices m paths noted =>
    rw [Single, alternatives, length_map] at h
    obtain ⟨p, rfl⟩ := length_eq_one_iff.mp h
    exact ⟨m, p, noted, rfl⟩

theorem pending_append (ks ls : List Checkpoint) : pending (ks ++ ls) = pending ks ++ pending ls :=
  flatMap_append

theorem checkpoints_of_resume {m : Moment} {more : List (List Value)} {noted : Bool}
    {rest : List Checkpoint} (h : Steps (resume c) o s σ true s' σ')
    (htop : s.checkpoints = .choices m (vs :: more) noted :: rest) :
    s'.checkpoints = if more.isEmpty then rest else .leftover :: rest := by
  obtain ⟨-, hb, -⟩ | ⟨m', p, more', noted', rest', s1, heq, -, hput, rfl⟩ := steps_resume.mp h
  · cases hb
  · rw [htop] at heq
    cases heq
    have hstill := still_putAll noted _ hput
    split
    · exact hstill
    · exact congrArg (.leftover :: ·) hstill

/-- No checkpoint that is left is empty, so one that does not hold several alternatives holds one. -/
theorem Ran.single (h : Ran c o s₀ σ₀ left up p s σ) (hleft : ∀ k ∈ left, k.alternatives.length ≤ 1) :
    ∀ k ∈ left, k.Single := by
  induction h with
  | start => exact fun _ hk => absurd hk not_mem_nil
  | step _ hstep hnew ih =>
    obtain ⟨new', hnew', hfull⟩ := leaves_step hstep
    cases append_cancel_right (hnew.symm.trans hnew')
    intro k hk
    rcases mem_append.mp hk with hnew | hleft'
    · exact Nat.le_antisymm (hleft k hk) (length_pos_iff.mpr (hfull k hnew))
    · exact ih (fun k hk => hleft k (mem_append_right _ hk)) k hleft'
  | resume _ _ _ _ ih => exact ih hleft

/-- While every checkpoint holds one alternative, each alternative that was left is either pending
or was taken up, and this once. -/
theorem Ran.account (h : Ran c o s₀ σ₀ left up p s σ) (hs : s₀.checkpoints = [])
    (hleft : ∀ k ∈ left, k.Single) :
    (up ++ pending s.checkpoints).Perm (pending left) ∧ ∀ k ∈ s.checkpoints, k ∈ left := by
  induction h with
  | start =>
    rw [hs]
    exact ⟨.rfl, fun _ hk => hk⟩
  | @step left up p s s' σ σ' new _ hstep hnew ih =>
    obtain ⟨hperm, hsub⟩ := ih fun k hk => hleft k (mem_append_right _ hk)
    rw [hnew, pending_append, pending_append]
    constructor
    · have hswap : (up ++ (pending new ++ pending s.checkpoints)).Perm
          (pending new ++ (up ++ pending s.checkpoints)) := by
        rw [← append_assoc, ← append_assoc]
        exact perm_append_comm.append_right _
      exact hswap.trans (hperm.append_left _)
    · intro k hk
      rcases mem_append.mp hk with hk | hk
      · exact mem_append_left _ hk
      · exact mem_append_right _ (hsub k hk)
  | @resume left up p s s' σ σ' m vs more noted rest _ hp htop hresume ih =>
    obtain ⟨hperm, hsub⟩ := ih hleft
    rw [htop] at hperm hsub
    obtain ⟨hmem, hrest⟩ := forall_mem_cons.mp hsub
    obtain ⟨_, _, _, heq⟩ := (hleft _ hmem).exists_eq
    cases heq
    rw [checkpoints_of_resume hresume htop]
    exact ⟨perm_middle.symm.trans hperm, hrest⟩

theorem Ran.resume_iff (h : Ran c o s₀ σ₀ left up p s σ) (hs : s₀.checkpoints = [])
    (hleft : ∀ k ∈ left, k.Single) {ks : List Checkpoint} (htop : s.checkpoints = k :: ks) :
    ∃ a noted, k.alternatives = [a] ∧ ∀ s' σ', Steps (Machine.resume c) o s σ true s' σ' ↔
      Steps (putAll c noted a.2) o { s with now := a.1, checkpoints := ks } σ () s' σ' := by
  have hmem : k ∈ s.checkpoints := htop ▸ mem_cons_self
  obtain ⟨m, q, noted, rfl⟩ := (hleft k ((h.account hs hleft).2 k hmem)).exists_eq
  refine ⟨(m, q), noted, rfl, fun s' σ' => ?_⟩
  rw [steps_resume, htop]
  constructor
  · rintro (⟨hnone, -⟩ | ⟨_, _, _, _, _, s1, heq, -, hput, rfl⟩)
    · cases hnone
    · cases heq
      exact hput
  · intro hput
    exact .inr ⟨m, q, [], noted, ks, s', rfl, rfl, hput, rfl⟩

/-- A state in which some checkpoint does not hold just one alternative. -/
def Stuck (s : State) : Prop := ∃ k ∈ s.checkpoints, ¬ k.Single

theorem Stuck.step (h : Stuck s) (hstep : Steps (step c) o s σ p s' σ') : Stuck s' := by
  obtain ⟨k, hk, hsingle⟩ := h
  obtain ⟨new, hnew, -⟩ := leaves_step hstep
  exact ⟨k, hnew ▸ mem_append_right _ hk, hsingle⟩

/-- Going on from a checkpoint with several alternatives leaves something that cannot be gone on
from. -/
theorem Stuck.resume (h : Stuck s) (hresume : Steps (resume c) o s σ b s' σ') :
    b = true ∧ Stuck s' := by
  obtain ⟨k, hk, hsingle⟩ := h
  obtain ⟨hnone, -⟩ | ⟨m, vs, more, noted, rest, -, htop, rfl, -⟩ := steps_resume.mp hresume
  · rw [hnone] at hk
    exact absurd hk not_mem_nil
  · have hafter := checkpoints_of_resume hresume htop
    refine ⟨rfl, ?_⟩
    cases more with
    | nil =>
      rw [htop] at hk
      rcases mem_cons.mp hk with rfl | hk
      · exact absurd rfl hsingle
      · exact ⟨k, hafter ▸ hk, hsingle⟩
    | cons q more =>
      exact ⟨.leftover, hafter ▸ mem_cons_self, fun h => by cases h⟩

/-- Once a checkpoint with several alternatives was left, the machine is stuck. -/
theorem Ran.stuck (h : Ran c o s₀ σ₀ left up p s σ) (hleft : ∃ k ∈ left, ¬ k.Single) : Stuck s := by
  induction h with
  | start => exact absurd hleft (by simp)
  | step h hstep hnew ih =>
    obtain ⟨k, hk, hsingle⟩ := hleft
    rcases mem_append.mp hk with hk | hk
    · exact ⟨k, hnew ▸ mem_append_left _ hk, hsingle⟩
    · exact (ih ⟨k, hk, hsingle⟩).step hstep
  | resume h hp htop hresume ih => exact ((ih hleft).resume hresume).2

/-! ## Whole runs -/

/-- What the machine does when a path has ended. -/
def goOn (c : Setting) (fuel : Nat) (found : List Value) : Exec (List Value) := do
  if ← resume c then explore c fuel found else pure found

theorem steps_explore :
    Steps (explore c (fuel + 1) found) o s σ vs s' σ' ↔
      ∃ p s1 σ1, Steps (step c) o s σ p s1 σ1 ∧
        ((p = .running ∧ Steps (explore c fuel found) o s1 σ1 vs s' σ') ∨
          p ≠ .running ∧ Steps (goOn c fuel (p.addTo found)) o s1 σ1 vs s' σ') := by
  rw [explore, steps_bind]
  refine exists_congr fun p => exists_congr fun s1 => exists_congr fun σ1 => and_congr_right fun _ => ?_
  cases p <;> simp [goOn]

theorem steps_goOn :
    Steps (goOn c fuel found) o s σ vs s' σ' ↔
      (s.checkpoints = [] ∧ found = vs ∧ s = s' ∧ σ = σ') ∨
        ∃ s1 σ1, Steps (resume c) o s σ true s1 σ1 ∧ Steps (explore c fuel found) o s1 σ1 vs s' σ' := by
  rw [goOn, steps_bind]
  constructor
  · rintro ⟨b, s1, σ1, hresume, h⟩
    cases b with
    | true => exact .inr ⟨s1, σ1, hresume, h⟩
    | false =>
      obtain ⟨hnone, -, rfl, rfl⟩ | ⟨_, _, _, _, _, _, _, hb, _⟩ := steps_resume.mp hresume
      · exact .inl ⟨hnone, steps_pure.mp h⟩
      · cases hb
  · rintro (⟨hnone, rfl, rfl, rfl⟩ | ⟨s1, σ1, hresume, h⟩)
    · exact ⟨false, s, σ, steps_resume.mpr (.inl ⟨hnone, rfl, rfl, rfl⟩), steps_pure_self⟩
    · exact ⟨true, s1, σ1, hresume, h⟩

/-- A machine that is stuck does not come to an end. -/
theorem Stuck.not_explore : ∀ (fuel : Nat) {found : List Value} {s : State}
    {σ : Session}, Stuck s → ¬ Steps (explore c fuel found) o s σ vs s' σ'
  | 0, _, _, _, _, h => (steps_throw.mp h).elim
  | fuel + 1, found, s, σ, hs, h => by
    obtain ⟨p, s1, σ1, hstep, ⟨-, h⟩ | ⟨-, h⟩⟩ := steps_explore.mp h
    · exact not_explore fuel (hs.step hstep) h
    · obtain ⟨hnone, -⟩ | ⟨s2, σ2, hresume, h⟩ := steps_goOn.mp h
      · obtain ⟨k, hk, -⟩ := hs.step hstep
        rw [hnone] at hk
        exact absurd hk not_mem_nil
      · exact not_explore fuel ((hs.step hstep).resume hresume).2 h

theorem steps_unique {a b : α} {s1 s2 : State} {σ1 σ2 : Session} (h1 : Steps act o s σ a s1 σ1)
    (h2 : Steps act o s σ b s2 σ2) : a = b ∧ s1 = s2 ∧ σ1 = σ2 := by
  obtain ⟨heq, hσ⟩ := Returns.unique h1 h2
  exact ⟨congrArg Prod.fst heq, congrArg Prod.snd heq, hσ⟩

theorem Ran.exists_rest (h : Ran c o s₀ σ₀ left up p s σ)
    (hrun : Steps (explore c fuel found) o s₀ σ₀ vs s' σ') :
    ∃ fuel' found', (p = .running → Steps (explore c fuel' found') o s σ vs s' σ') ∧
      (p ≠ .running → Steps (goOn c fuel' found') o s σ vs s' σ') := by
  induction h with
  | start => exact ⟨fuel, found, fun _ => hrun, fun h => absurd rfl h⟩
  | step h hstep hnew ih =>
    obtain ⟨fuel', found', hexplore, -⟩ := ih
    cases fuel' with
    | zero => exact (steps_throw.mp (hexplore rfl)).elim
    | succ fuel' =>
      obtain ⟨p', s1, σ1, hstep', hnext⟩ := steps_explore.mp (hexplore rfl)
      obtain ⟨rfl, rfl, rfl⟩ := steps_unique hstep hstep'
      obtain ⟨rfl, hnext⟩ | ⟨hp, hnext⟩ := hnext
      · exact ⟨fuel', found', fun _ => hnext, fun h => absurd rfl h⟩
      · exact ⟨fuel', _, fun h => absurd h hp, fun _ => hnext⟩
  | resume h hp htop hresume ih =>
    obtain ⟨fuel', found', -, hgoOn⟩ := ih
    obtain ⟨hnone, -⟩ | ⟨s1, σ1, hresume', hnext⟩ := steps_goOn.mp (hgoOn hp)
    · rw [htop] at hnone
      cases hnone
    · obtain ⟨-, rfl, rfl⟩ := steps_unique hresume hresume'
      exact ⟨fuel', found', fun _ => hnext, fun h => absurd rfl h⟩

/-- A run that comes to an end is a stretch of steps at whose end nothing is pending. -/
theorem exists_ran : ∀ (fuel : Nat) {found : List Value} {left : List Checkpoint}
    {up : List Alternative} {s : State} {σ : Session}, Ran c o s₀ σ₀ left up .running s σ →
    Steps (explore c fuel found) o s σ vs s' σ' →
    ∃ left' up' p, Ran c o s₀ σ₀ left' up' p s' σ' ∧ s'.checkpoints = []
  | 0, _, _, _, _, _, _, h => (steps_throw.mp h).elim
  | fuel + 1, found, left, up, s, σ, hran, h => by
    obtain ⟨p, s1, σ1, hstep, hnext⟩ := steps_explore.mp h
    obtain ⟨new, hnew, -⟩ := leaves_step hstep
    have hran1 := hran.step hstep hnew
    obtain ⟨rfl, h⟩ | ⟨hp, h⟩ := hnext
    · exact exists_ran fuel hran1 h
    · obtain ⟨hnone, -, rfl, rfl⟩ | ⟨s2, σ2, hresume, h⟩ := steps_goOn.mp h
      · exact ⟨_, _, p, hran1, hnone⟩
      · obtain ⟨-, hb, -⟩ | ⟨m, vs', more, noted, rest, -, htop, -⟩ := steps_resume.mp hresume
        · cases hb
        · exact exists_ran fuel (hran1.resume hp htop hresume) h

/-- Once a checkpoint with several alternatives was left, the run does not come to an end. -/
theorem Ran.not_explore (h : Ran c o s₀ σ₀ left up p s σ) (hleft : ∃ k ∈ left, ¬ k.Single) :
    ¬ Steps (explore c fuel found) o s₀ σ₀ vs s' σ' := by
  intro hrun
  have hstuck := h.stuck hleft
  obtain ⟨fuel', found', hexplore, hgoOn⟩ := h.exists_rest hrun
  by_cases hp : p = .running
  · exact hstuck.not_explore fuel' (hexplore hp)
  · obtain ⟨hnone, -⟩ | ⟨s1, σ1, hresume, hnext⟩ := steps_goOn.mp (hgoOn hp)
    · obtain ⟨k, hk, -⟩ := hstuck
      rw [hnone] at hk
      exact absurd hk not_mem_nil
    · exact (hstuck.resume hresume).2.not_explore fuel' hnext

/-- A run that comes to an end has taken each alternative up once. -/
theorem account_of_explore (hs : s₀.checkpoints = [])
    (h : Steps (explore c fuel []) o s₀ σ₀ vs s' σ') :
    ∃ left up p, Ran c o s₀ σ₀ left up p s' σ' ∧ up.Perm (pending left) := by
  obtain ⟨left, up, p, hran, hnone⟩ := exists_ran fuel .start h
  have hleft : ∀ k ∈ left, k.Single := fun k hk =>
    Classical.byContradiction fun hsingle => hran.not_explore ⟨k, hk, hsingle⟩ h
  have hperm := (hran.account hs hleft).1
  rw [hnone] at hperm
  refine ⟨left, up, p, hran, ?_⟩
  rw [← append_nil up]
  exact hperm

/-! ## Functions that give several values -/

/-- A value that is put on a stack as it is: one value, and no function that is still to be compiled. -/
def Plain : Value → Prop
  | .none | .fork _ | .lambda _ => False
  | _ => True

/-- The machine has run all instructions of its only frame, and the result may be one of some values. -/
structure Gives (s : State) (vs : List Value) : Prop where
  done : s.now.frame.code[s.now.frame.pc]? = none
  top : s.now.frame.stack.back? = some (.value (.fork vs))
  alone : s.now.waiting = []
  unnamed : s.now.frame.memo = none
  clear : s.checkpoints = []

theorem steps_step_of_done (h : s.now.frame.code[s.now.frame.pc]? = none) :
    Steps (step c) o s σ p s' σ' ↔ Steps (finish c) o s σ p s' σ' := by
  rw [step, frame, bind_assoc, steps_get_bind, pure_bind, h]

theorem steps_finish (h : s.now.frame.stack.back? = some item) :
    Steps (finish c) o s σ p s' σ' ↔
      Steps (if item.isFork then finishFork item else finishValue c ((expand s item).headD .none))
        o s σ p s' σ' := by
  rw [finish, steps_get_bind, h]

theorem Gives.step (h : Gives s (v :: others)) :
    Steps (step c) o s σ .ended (split s v others) σ := by
  rw [steps_step_of_done h.done, steps_finish h.top]
  exact (steps_finishFork h.top).mpr ⟨v, others, rfl, rfl, rfl, rfl⟩

/-- A function whose result may be one of several values does not come to an end. -/
theorem Gives.not_explore {w : Value} (h : Gives s (v :: w :: others)) :
    ¬ Steps (explore c fuel []) o s σ vs s' σ' := by
  have hstep : Steps (Machine.step c) o s σ .ended (split s v (w :: others)) σ := h.step
  obtain ⟨new, hnew, -⟩ := leaves_step hstep
  have hmem : .choices (taken s 1 []).now ((v :: w :: others).map fun v => [v]) false ∈ new := by
    have htop : .choices (taken s 1 []).now ((v :: w :: others).map fun v => [v]) false ∈
        (split s v (w :: others)).checkpoints := mem_cons_self
    rw [hnew, h.clear, append_nil] at htop
    exact htop
  refine (Ran.start.step hstep hnew).not_explore ⟨_, mem_append_left _ hmem, fun hsingle => ?_⟩
  obtain ⟨_, _, _, heq⟩ := hsingle.exists_eq
  cases heq

theorem steps_pushQuietly_of_plain (hv : Plain v) :
    Steps (pushQuietly c v) o s σ ()
      { s with now := { s.now with frame := { s.now.frame with
        stack := s.now.frame.stack.push (.value v) } } } σ := by
  have hreceive : receive c v = pure v := by
    cases v <;> first | rfl | exact hv.elim
  rw [pushQuietly, hreceive]
  exact steps_bind.mpr ⟨v, s, σ, steps_pure_self, steps_modify.mpr ⟨rfl, rfl⟩⟩

theorem Gives.explore (h : Gives s [v]) (hv : Plain v) :
    ∃ s', Steps (explore c 2 []) o s σ [v] s' σ := by
  let s1 : State := { taken s 1 [] with
    now := { (taken s 1 []).now with frame := { (taken s 1 []).now.frame with
      stack := (taken s 1 []).now.frame.stack.push (.value v) } } }
  have hresume : Steps (resume c) o (split s v []) σ true s1 σ := by
    refine steps_resume.mpr (.inr ⟨_, _, _, _, _, s1, rfl, rfl, ?_, rfl⟩)
    exact steps_bind.mpr ⟨(), _, _, steps_pushQuietly_of_plain hv, steps_pure_self⟩
  have htop : s1.now.frame.stack.back? = some (.value v) := Array.back?_push
  have hvalue : expand s1 (.value v) = [v] ∧ (Item.value v).isFork = false := by
    cases v <;> first | exact ⟨rfl, rfl⟩ | exact hv.elim
  have hfinish : Steps (Machine.step c) o s1 σ (.finished v) s1 σ := by
    have hdone : s1.now.frame.code[s1.now.frame.pc]? = none := h.done
    rw [steps_step_of_done hdone, steps_finish htop, hvalue.1, hvalue.2]
    refine steps_get_bind.mpr ?_
    have hmemo : s1.now.frame.memo = none := h.unnamed
    have hwaiting : s1.now.waiting = [] := h.alone
    rw [hmemo, hwaiting]
    exact steps_pure_self
  have hadd : Progress.addTo [] (.finished v) = [v] := by
    cases v <;> first | rfl | exact hv.elim
  refine ⟨s1, steps_explore.mpr ⟨.ended, _, σ, h.step, .inr ⟨by simp, steps_goOn.mpr (.inr
    ⟨s1, σ, hresume, steps_explore.mpr ⟨.finished v, s1, σ, hfinish, .inr ⟨by simp, ?_⟩⟩⟩)⟩⟩⟩
  exact steps_goOn.mpr (.inl ⟨h.clear, hadd, rfl, rfl⟩)

theorem Gives.explore_iff (h : Gives s (v :: others)) (hv : Plain v) :
    (∃ fuel s' σ', Steps (Machine.explore c fuel []) o s σ (v :: others) s' σ') ↔ others = [] := by
  constructor
  · rintro ⟨fuel, s', σ', hrun⟩
    cases others with
    | nil => rfl
    | cons w others => exact (h.not_explore hrun).elim
  · rintro rfl
    obtain ⟨s', hrun⟩ := h.explore hv
    exact ⟨2, s', σ, hrun⟩

/-! ## Each alternative once -/

/-- Where values are taken that may be several, the machine goes on with one combination of them and
leaves the others, each once, at the moment before. A run takes each alternative that was left up
once, by putting its values on the stack there and nothing else, as long as no checkpoint holds several
alternatives; and it comes to an end only if that is so throughout. In particular, a function whose
result may be one of some values gives each of them exactly if there is just one. -/
theorem each_alternative_once (c : Setting) (o : Option Origin) :
    (∀ n s σ vs s' σ', Steps (take n) o s σ vs s' σ' →
      ∃ new, s'.checkpoints = new ++ s.checkpoints ∧
        vs :: (pending new).map Prod.snd = combinations ((operands s n).map (expand s)) ∧
        ∀ a ∈ pending new, a.1 = s.now.before n) ∧
    (∀ s₀ σ₀, s₀.checkpoints = [] →
      (∀ left up p s σ, Ran c o s₀ σ₀ left up p s σ → (∀ k ∈ left, k.alternatives.length ≤ 1) →
        (up ++ pending s.checkpoints).Perm (pending left) ∧
        ∀ k ks, s.checkpoints = k :: ks → ∃ a noted, k.alternatives = [a] ∧
          ∀ s' σ', Steps (resume c) o s σ true s' σ' ↔
            Steps (putAll c noted a.2) o { s with now := a.1, checkpoints := ks } σ () s' σ') ∧
      (∀ fuel vs s' σ', Steps (explore c fuel []) o s₀ σ₀ vs s' σ' →
        ∃ left up p, Ran c o s₀ σ₀ left up p s' σ' ∧ up.Perm (pending left)) ∧
      (∀ left up p s σ, Ran c o s₀ σ₀ left up p s σ → (∃ k ∈ left, 1 < k.alternatives.length) →
        ∀ fuel vs s' σ', ¬ Steps (explore c fuel []) o s₀ σ₀ vs s' σ')) ∧
    (∀ v others s σ, Gives s (v :: others) → Plain v →
      ((∃ fuel s' σ', Steps (explore c fuel []) o s σ (v :: others) s' σ') ↔ others = [])) := by
  refine ⟨fun n s σ vs s' σ' => pending_of_take, fun s₀ σ₀ hs => ⟨?_, ?_, ?_⟩,
    fun v others s σ => Gives.explore_iff⟩
  · intro left up p s σ h hleft
    exact ⟨(h.account hs (h.single hleft)).1, fun k ks htop => h.resume_iff hs (h.single hleft) htop⟩
  · exact fun fuel vs s' σ' => account_of_explore hs
  · rintro left up p s σ h ⟨k, hk, hmany⟩ fuel vs s' σ'
    exact h.not_explore ⟨k, hk, fun hsingle => absurd hsingle (Nat.ne_of_gt hmany)⟩

def isolated : Setting where
  host := {
    call := fun _ _ => throw .missingKey
    get := fun _ _ => throw .missingKey
    display := fun _ _ => throw .missingKey }
  needs := fun _ => []

/-- A function that has run, and whose result may be one of some values. -/
def giving (vs : List Value) : State where
  now := { frame := { code := #[], stack := #[.value (.fork vs)], bindings := [], home := none } }

theorem gives_giving (vs : List Value) : Gives (giving vs) vs := ⟨rfl, rfl, rfl, rfl, rfl⟩

/-- A function that stores what may be one of some values, and fetches it again. -/
def storing (vs : List Value) : State where
  now := { frame := {
    code := #[{ op := .store (.ident ⟨0, .plain "x" (.named "text") 1⟩) },
      { op := .fetch (.symbol (.plain "x" (.named "text") 1)) }]
    stack := #[.value (.fork vs)], bindings := [], home := none } }

theorem each_alternative_once_pair :
    (∃ s' σ' left up p,
      Steps (explore isolated 7 []) none (storing [.int 1, .int 2]) {} [.int 1, .int 2] s' σ' ∧
      Ran isolated none (storing [.int 1, .int 2]) {} left up p s' σ' ∧ up.Perm (pending left)) ∧
    ∃ fuel s' σ', Steps (explore isolated fuel []) none (giving [.int 1]) {} [.int 1] s' σ' := by
  obtain ⟨-, hrun, hgives⟩ := each_alternative_once isolated none
  refine ⟨?_, (hgives (.int 1) [] (giving [.int 1]) {} (gives_giving _) trivial).mpr rfl⟩
  obtain ⟨s', σ', h⟩ : ∃ s' σ', Steps (explore isolated 7 []) none (storing [.int 1, .int 2]) {}
      [.int 1, .int 2] s' σ' := ⟨_, _, rfl⟩
  obtain ⟨left, up, p, hran, hperm⟩ := (hrun (storing [.int 1, .int 2]) {} rfl).2.1 7 _ s' σ' h
  exact ⟨s', σ', left, up, p, h, hran, hperm⟩

/-- A function whose result may be one of two values gives neither: going on with the second fails. -/
theorem explore_giving_two :
    (explore isolated 3 [] (giving [.int 1, .int 2]) none {}).1 = .error .badValue ∧
      ¬ ∃ fuel vs s' σ',
        Steps (explore isolated fuel []) none (giving [.int 1, .int 2]) {} vs s' σ' := by
  refine ⟨rfl, ?_⟩
  rintro ⟨fuel, vs, s', σ', hrun⟩
  exact (gives_giving _).not_explore hrun

end DiffLang.Abstract.Machine
