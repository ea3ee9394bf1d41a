import DiffLang.Term.Scoping
import Mathlib.Logic.Basic

/-!
# What terms mean

The value of a term in an environment: bindings take effect one after the other, a call computes
its function and then its arguments from left to right, a sequence computes its steps in order and
gives the value of the last. What calling a function does is left open, and so is the monad in
which it happens, so that the same definition serves for values with failures, for computations in
a session, and for whatever else a call may do.

Main statements: the value depends only on the variables that are in scope (`eval_agree`), and
bindings change only the variables they set (`evalBindings_congr`).
-/

namespace DiffLang.Meaning

open Scoping

abbrev Env := Symbol → Option Value

def Env.set (ρ : Env) (x : Symbol) (v : Value) : Env := fun y => if y = x then some v else ρ y

def tupleItems? : Value → Option (List Value)
  | .tuple vs => some vs
  | _ => none

mutual

def store (ρ : Env) : Term → Value → Fallible Env
  | .ident x, v => .ok (ρ.set x.sym v)
  | .tuple _ targets, v =>
    match tupleItems? v with
    | some vs =>
      if targets.length = vs.length then storeAll ρ targets vs else .error .broken
    | none => .error .broken
  | _, _ => .error .typeMismatch

def storeAll (ρ : Env) : List Term → List Value → Fallible Env
  | t :: ts, v :: vs =>
    match store ρ t v with
    | .ok ρ' => storeAll ρ' ts vs
    | .error e => .error e
  | _, _ => .ok ρ

end

section Evaluation

variable {m : Type → Type} [Monad m] [MonadExceptOf Failure m]
variable (call : Value → List Value → m Value)

def lift {α : Type} : Fallible α → m α
  | .ok a => pure a
  | .error e => throw e

mutual

/-- The value of a term. A function, a bare binding or a bare list of nodes has none. -/
def eval (ρ : Env) : Term → m Value
  | .ident x =>
    match ρ x.sym with
    | some v => pure v
    | none => throw (.plain .name)
  | .literal _ v => pure v
  | .bind _ bindings body => do
    let ρ' ← evalBindings ρ bindings
    eval ρ' body
  | .apply _ fn args => do
    let f ← eval ρ fn
    let vs ← evalAll ρ args
    call f vs
  | .closure _ fn args => do
    let f ← eval ρ fn
    let vs ← evalAll ρ args
    pure (.closure f vs)
  | .tuple _ items => do
    let vs ← evalAll ρ items
    pure (.tuple vs)
  | .sequence _ steps => evalSteps ρ steps
  | .lambda .. | .assign .. | .group .. => throw .missingAttribute

def evalAll (ρ : Env) : List Term → m (List Value)
  | [] => pure []
  | t :: ts => do
    let v ← eval ρ t
    let vs ← evalAll ρ ts
    pure (v :: vs)

def evalSteps (ρ : Env) : List Term → m Value
  | [] => throw .outOfRange
  | [t] => eval ρ t
  | t :: rest => do
    let _ ← eval ρ t
    evalSteps ρ rest

def evalBindings (ρ : Env) : List (Term × Term) → m Env
  | [] => pure ρ
  | (k, v) :: rest => do
    let w ← eval ρ v
    let ρ' ← lift (store ρ k w)
    evalBindings ρ' rest

end

end Evaluation

/-! ## Scopes -/

/-- The variables of a set together with those of a list. -/
def also (A : Symbol → Prop) (xs : List Symbol) : Symbol → Prop := fun x => x ∈ xs ∨ A x

def targets (bindings : List (Term × Term)) : List Symbol :=
  bindings.flatMap fun b => patternSymbols b.1

mutual

/-- Every variable of a term is in a set or bound before it is used. What is inside a function is
not looked at. -/
def Scoped (A : Symbol → Prop) : Term → Prop
  | .ident x => A x.sym
  | .bind _ bindings body => ScopedBindings A bindings ∧ Scoped (also A (targets bindings)) body
  | .apply _ fn args => Scoped A fn ∧ ScopedAll A args
  | .closure _ fn args => Scoped A fn ∧ ScopedAll A args
  | .tuple _ items => ScopedAll A items
  | .sequence _ steps => ScopedAll A steps
  | .literal .. | .lambda .. | .assign .. | .group .. => True

def ScopedAll (A : Symbol → Prop) : List Term → Prop
  | [] => True
  | t :: ts => Scoped A t ∧ ScopedAll A ts

def ScopedBindings (A : Symbol → Prop) : List (Term × Term) → Prop
  | [] => True
  | (k, v) :: rest => Scoped A v ∧ ScopedBindings (also A (patternSymbols k)) rest

end

mutual

/-- The variables that are bound somewhere in a term, in the order in which they are set. -/
def binders : Term → List Symbol
  | .bind _ bindings body => bindersOf bindings ++ binders body
  | .apply _ fn args => binders fn ++ bindersAll args
  | .closure _ fn args => binders fn ++ bindersAll args
  | .tuple _ items => bindersAll items
  | .sequence _ steps => bindersAll steps
  | .ident _ | .literal .. | .lambda .. | .assign .. | .group .. => []

def bindersAll : List Term → List Symbol
  | [] => []
  | t :: ts => binders t ++ bindersAll ts

def bindersOf : List (Term × Term) → List Symbol
  | [] => []
  | (k, v) :: rest => binders v ++ patternSymbols k ++ bindersOf rest

end

/-- Two environments give the same values to the variables of a set. -/
def Agree (A : Symbol → Prop) (ρ σ : Env) : Prop := ∀ x, A x → ρ x = σ x

/-- An environment gives values to the variables of a set. -/
def Defined (A : Symbol → Prop) (ρ : Env) : Prop := ∀ x, A x → ∃ v, ρ x = some v

variable {A : Symbol → Prop} {ρ : Env}

theorem Agree.refl : Agree A ρ ρ := fun _ _ => rfl

theorem Agree.symm {σ : Env} (h : Agree A ρ σ) : Agree A σ ρ :=
  fun x hx => (h x hx).symm

theorem Agree.defined {σ : Env} (h : Agree A ρ σ) (hd : Defined A ρ) :
    Defined A σ := by
  intro x hx
  rw [← h x hx]
  exact hd x hx

@[simp] theorem also_nil (A : Symbol → Prop) : also A [] = A := by
  funext x
  simp [also]

@[simp] theorem also_append (A : Symbol → Prop) (xs ys : List Symbol) :
    also A (xs ++ ys) = also (also A xs) ys := by
  funext x
  grind [also]

@[simp] theorem targets_nil : targets [] = [] := rfl

@[simp] theorem targets_cons (k v : Term) (rest : List (Term × Term)) :
    targets ((k, v) :: rest) = patternSymbols k ++ targets rest := rfl

@[simp] theorem targets_append (bs cs : List (Term × Term)) :
    targets (bs ++ cs) = targets bs ++ targets cs :=
  List.flatMap_append

theorem also_mono {B : Symbol → Prop} (h : ∀ x, A x → B x) (xs : List Symbol) :
    ∀ x, also A xs x → also B xs x :=
  fun x hx => hx.imp_right (h x)

mutual

theorem Scoped.mono {A B : Symbol → Prop} {t : Term} (h : Scoped A t) (hAB : ∀ x, A x → B x) :
    Scoped B t := by
  cases t with
  | ident x =>
    rw [Scoped] at h ⊢
    exact hAB _ h
  | bind _ bs body =>
    rw [Scoped] at h ⊢
    exact ⟨ScopedBindings.mono h.1 hAB, Scoped.mono h.2 (also_mono hAB _)⟩
  | apply _ fn args | closure _ fn args =>
    rw [Scoped] at h ⊢
    exact ⟨Scoped.mono h.1 hAB, ScopedAll.mono h.2 hAB⟩
  | tuple _ ts | sequence _ ts =>
    rw [Scoped] at h ⊢
    exact ScopedAll.mono h hAB
  | _ => simp only [Scoped]

theorem ScopedAll.mono {A B : Symbol → Prop} {ts : List Term} (h : ScopedAll A ts)
    (hAB : ∀ x, A x → B x) : ScopedAll B ts := by
  cases ts with
  | nil => simp only [ScopedAll]
  | cons t ts =>
    rw [ScopedAll] at h ⊢
    exact ⟨Scoped.mono h.1 hAB, ScopedAll.mono h.2 hAB⟩

theorem ScopedBindings.mono {A B : Symbol → Prop} {bs : List (Term × Term)}
    (h : ScopedBindings A bs) (hAB : ∀ x, A x → B x) : ScopedBindings B bs := by
  match bs with
  | [] => simp only [ScopedBindings]
  | (k, v) :: rest =>
    rw [ScopedBindings] at h ⊢
    exact ⟨Scoped.mono h.1 hAB, ScopedBindings.mono h.2 (also_mono hAB _)⟩

end

theorem scopedBindings_append (A : Symbol → Prop) (bs cs : List (Term × Term)) :
    ScopedBindings A (bs ++ cs) ↔
      ScopedBindings A bs ∧ ScopedBindings (also A (targets bs)) cs := by
  induction bs generalizing A with
  | nil => simp [ScopedBindings]
  | cons b rest ih =>
    obtain ⟨k, v⟩ := b
    simp only [List.cons_append, ScopedBindings, targets_cons, also_append, ih, and_assoc]

/-! ## Patterns -/

@[simp] theorem set_self (ρ : Env) (x : Symbol) (v : Value) : ρ.set x v x = some v := by
  simp [Env.set]

theorem set_of_ne (ρ : Env) {x y : Symbol} (v : Value) (h : y ≠ x) : ρ.set x v y = ρ y := by
  simp [Env.set, h]

@[simp] theorem patternSymbols_ident (x : Ident) : patternSymbols (.ident x) = [x.sym] := by
  simp [patternSymbols]

@[simp] theorem patternSymbols_tuple (id : TermId) (ts : List Term) :
    patternSymbols (.tuple id ts) = patternSymbols.go ts := by
  simp [patternSymbols]

/-- What two runs of a pattern on one value have to do with each other: both fail alike, or the
environments they lead to agree on one more set of variables. -/
def SameStore (A : Symbol → Prop) (r r' : Fallible Env) : Prop :=
  (∃ e, r = .error e ∧ r' = .error e) ∨
    ∃ σ σ', r = .ok σ ∧ r' = .ok σ' ∧ Agree A σ σ'

mutual

theorem store_agree {A : Symbol → Prop} {ρ ρ' : Env} (h : Agree A ρ ρ') :
    ∀ (t : Term) (v : Value), SameStore (also A (patternSymbols t)) (store ρ t v) (store ρ' t v)
  | .ident x, v => by
    refine .inr ⟨_, _, by rw [store], by rw [store], ?_⟩
    intro y hy
    by_cases hyx : y = x.sym
    · subst hyx
      simp
    · rw [set_of_ne _ _ hyx, set_of_ne _ _ hyx]
      refine h y ?_
      simpa [also, hyx] using hy
  | .tuple id ts, v => by
    rw [patternSymbols_tuple, store, store]
    cases tupleItems? v with
    | some vs =>
      simp only
      split
      next hlen => exact storeAll_agree h ts vs hlen
      · exact .inl ⟨_, rfl, rfl⟩
    | none => exact .inl ⟨_, rfl, rfl⟩
  | .literal .., v | .bind .., v | .lambda .., v | .apply .., v | .sequence .., v
  | .closure .., v | .assign .., v | .group .., v => by
    refine .inl ⟨.typeMismatch, ?_, ?_⟩ <;> simp [store]

theorem storeAll_agree {A : Symbol → Prop} {ρ ρ' : Env} (h : Agree A ρ ρ') :
    ∀ (ts : List Term) (vs : List Value), ts.length = vs.length →
      SameStore (also A (patternSymbols.go ts)) (storeAll ρ ts vs) (storeAll ρ' ts vs)
  | [], [], _ => by
    refine .inr ⟨ρ, ρ', by rw [storeAll]; simp, by rw [storeAll]; simp, ?_⟩
    simpa [patternSymbols.go] using h
  | t :: ts, v :: vs, hlen => by
    rw [storeAll, storeAll, patternSymbols.go, also_append]
    rcases store_agree h t v with ⟨e, h1, h2⟩ | ⟨σ, σ', h1, h2, hσ⟩
    · rw [h1, h2]
      exact .inl ⟨e, rfl, rfl⟩
    · rw [h1, h2]
      exact storeAll_agree hσ ts vs (by simpa using hlen)

end

/-- An environment comes from another by giving values to some variables. -/
structure Extends (ρ σ : Env) (xs : List Symbol) : Prop where
  other : ∀ x, x ∉ xs → σ x = ρ x
  defined : ∀ x ∈ xs, ∃ v, σ x = some v

theorem Extends.append {ρ σ τ : Env} {xs ys : List Symbol} (h : Extends ρ σ xs)
    (h' : Extends σ τ ys) : Extends ρ τ (xs ++ ys) where
  other x hx := by
    rw [List.mem_append, not_or] at hx
    rw [h'.other x hx.2, h.other x hx.1]
  defined x hx := by
    by_cases hy : x ∈ ys
    · exact h'.defined x hy
    · rw [h'.other x hy]
      exact h.defined x ((List.mem_append.mp hx).resolve_right hy)

mutual

theorem store_extends {ρ σ : Env} (t : Term) (v : Value) (h : store ρ t v = .ok σ) :
    Extends ρ σ (patternSymbols t) := by
  cases t with
  | ident y =>
    rw [store] at h
    injection h with h
    subst h
    rw [patternSymbols_ident]
    refine ⟨fun x hx => set_of_ne _ _ (by simpa using hx), fun x hx => ⟨v, ?_⟩⟩
    rw [List.mem_singleton.mp hx, set_self]
  | tuple id ts =>
    rw [patternSymbols_tuple]
    rw [store] at h
    split at h
    next vs _ =>
      split at h
      next hlen => exact storeAll_extends ts vs hlen h
      · cases h
    · cases h
  | _ => simp [store] at h

theorem storeAll_extends {ρ σ : Env} (ts : List Term) (vs : List Value)
    (hlen : ts.length = vs.length) (h : storeAll ρ ts vs = .ok σ) :
    Extends ρ σ (patternSymbols.go ts) := by
  match ts, vs with
  | [], _ =>
    simp [storeAll] at h
    rw [h, patternSymbols.go]
    exact ⟨fun _ _ => rfl, by simp⟩
  | t :: ts, v :: vs =>
    rw [storeAll] at h
    rw [patternSymbols.go]
    split at h
    next ρ' hρ' => exact (store_extends t v hρ').append (storeAll_extends ts vs (by simpa using hlen) h)
    · cases h

end

/-! ## Values depend on what is in scope -/

/-- A monad in which nothing happens after a failure. -/
class FailsAtOnce (m : Type → Type) [Monad m] [MonadExceptOf Failure m] : Prop where
  throw_bind {α β : Type} (e : Failure) (f : α → m β) : (throw e : m α) >>= f = throw e

instance : FailsAtOnce Fallible := ⟨fun _ _ => rfl⟩

instance : FailsAtOnce Run := ⟨fun _ _ => rfl⟩

variable {m : Type → Type} [Monad m] [LawfulMonad m] [MonadExceptOf Failure m] [FailsAtOnce m]
variable {call : Value → List Value → m Value}

theorem SameStore.lift_bind {β : Type} {r r' : Fallible Env}
    (h : SameStore A r r') {f f' : Env → m β} (hf : ∀ σ σ', Agree A σ σ' → f σ = f' σ') :
    (lift r >>= f) = (lift r' >>= f') := by
  rcases h with ⟨e, rfl, rfl⟩ | ⟨σ, σ', rfl, rfl, hσ⟩
  · simp only [lift, FailsAtOnce.throw_bind]
  · simp only [lift, pure_bind]
    exact hf σ σ' hσ

omit [LawfulMonad m] [FailsAtOnce m] in
theorem evalSteps_cons_cons (ρ : Env) (t u : Term) (ts : List Term) :
    evalSteps call ρ (t :: u :: ts) = eval call ρ t >>= fun _ => evalSteps call ρ (u :: ts) := by
  rw [evalSteps]
  simp

omit [LawfulMonad m] [FailsAtOnce m] in
mutual

/-- The value of a term depends only on the variables in scope. -/
theorem eval_agree [LawfulMonad m] [FailsAtOnce m] {A : Symbol → Prop} {ρ σ : Env} (t : Term) (h : Scoped A t)
    (ha : Agree A ρ σ) : eval call ρ t = eval call σ t := by
  cases t with
  | ident x =>
    rw [Scoped] at h
    simp only [eval, ha _ h]
  | bind _ bs body =>
    rw [Scoped] at h
    rw [eval, eval]
    exact evalBindings_agree bs h.1 ha fun σ σ' hσ => eval_agree body h.2 hσ
  | apply _ fn args | closure _ fn args =>
    rw [Scoped] at h
    rw [eval, eval, eval_agree fn h.1 ha, evalAll_agree args h.2 ha]
  | tuple _ items =>
    rw [Scoped] at h
    rw [eval, eval, evalAll_agree items h ha]
  | sequence _ steps =>
    rw [Scoped] at h
    rw [eval, eval, evalSteps_agree steps h ha]
  | _ => simp only [eval]

/-- The values of terms depend only on the variables in scope. -/
theorem evalAll_agree [LawfulMonad m] [FailsAtOnce m] {A : Symbol → Prop} {ρ σ : Env} (ts : List Term) (h : ScopedAll A ts)
    (ha : Agree A ρ σ) : evalAll call ρ ts = evalAll call σ ts := by
  cases ts with
  | nil => simp only [evalAll]
  | cons t ts =>
    rw [ScopedAll] at h
    rw [evalAll, evalAll, eval_agree t h.1 ha, evalAll_agree ts h.2 ha]

/-- The value of the last of some steps depends only on the variables in scope. -/
theorem evalSteps_agree [LawfulMonad m] [FailsAtOnce m] {A : Symbol → Prop} {ρ σ : Env} (ts : List Term) (h : ScopedAll A ts)
    (ha : Agree A ρ σ) : evalSteps call ρ ts = evalSteps call σ ts := by
  match ts with
  | [] => simp only [evalSteps]
  | [t] =>
    rw [ScopedAll] at h
    rw [evalSteps, evalSteps, eval_agree t h.1 ha]
  | t :: u :: ts =>
    rw [ScopedAll] at h
    rw [evalSteps_cons_cons, evalSteps_cons_cons, eval_agree t h.1 ha,
      evalSteps_agree (u :: ts) h.2 ha]

/-- After bindings, what goes on alike in environments that agree on what is then in scope, goes on
alike. -/
theorem evalBindings_agree [LawfulMonad m] [FailsAtOnce m] :
    ∀ {β : Type} {A : Symbol → Prop} {ρ σ : Env} (bs : List (Term × Term)),
      ScopedBindings A bs → Agree A ρ σ → ∀ {f f' : Env → m β},
        (∀ τ τ', Agree (also A (targets bs)) τ τ' → f τ = f' τ') →
        (evalBindings call ρ bs >>= f) = (evalBindings call σ bs >>= f')
  | _, A, ρ, σ, [], _, ha, f, f', hf => by
    simp only [evalBindings, pure_bind]
    exact hf ρ σ (by simpa using ha)
  | _, A, ρ, σ, (k, v) :: rest, h, ha, f, f', hf => by
    rw [ScopedBindings] at h
    rw [evalBindings, evalBindings, eval_agree v h.1 ha]
    simp only [bind_assoc]
    congr 1
    funext w
    refine SameStore.lift_bind (store_agree ha k w) fun τ τ' hτ => ?_
    refine evalBindings_agree rest h.2 hτ fun τ τ' hτ' => ?_
    exact hf τ τ' (by rwa [targets_cons, also_append])

end

theorem evalBindings_congr :
    ∀ {β : Type} {ρ : Env} (bs : List (Term × Term)) {f f' : Env → m β},
      (∀ σ, (∀ x, x ∉ targets bs → σ x = ρ x) → (∀ x ∈ targets bs, ∃ v, σ x = some v) →
        f σ = f' σ) →
      (evalBindings call ρ bs >>= f) = (evalBindings call ρ bs >>= f')
  | _, ρ, [], f, f', hf => by
    simp only [evalBindings, pure_bind]
    exact hf ρ (fun _ _ => rfl) (by simp)
  | _, ρ, (k, v) :: rest, f, f', hf => by
    rw [evalBindings]
    simp only [bind_assoc]
    congr 1
    funext w
    rcases hs : store ρ k w with e | σ
    · simp only [lift, FailsAtOnce.throw_bind]
    · simp only [lift, pure_bind]
      refine evalBindings_congr rest fun τ hτ hd => ?_
      have hext := (store_extends k w hs).append ⟨hτ, hd⟩
      exact hf τ hext.other hext.defined

omit [FailsAtOnce m] in
theorem evalBindings_append (ρ : Env) (bs cs : List (Term × Term)) :
    evalBindings call ρ (bs ++ cs) =
      evalBindings call ρ bs >>= fun σ => evalBindings call σ cs := by
  induction bs generalizing ρ with
  | nil => simp only [List.nil_append, evalBindings, pure_bind]
  | cons b rest ih =>
    obtain ⟨k, v⟩ := b
    simp only [List.cons_append, evalBindings, bind_assoc, ih]

end DiffLang.Meaning
