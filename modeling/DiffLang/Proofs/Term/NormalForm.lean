import DiffLang.Proofs.Growth
import DiffLang.Proofs.Term.Naming

/-!
# The A-normal form of a function means the same

Naming keeps the value of a function's body, and so does flattening what naming gives. Together: in
every environment that gives values to the parameters and to the global names, the body of a
function and the body of its A-normal form have the same value, fail alike, and make the same calls
in the same order.

Main statement: `eval_ofLambda`.
-/

namespace DiffLang.Normal

open Freshness Growth Meaning Run Scoping Session List

mutual

/-- The variables that a term uses, those inside functions apart. -/
def uses : Term → List Symbol
  | .ident x => [x.sym]
  | .bind _ bindings body => usesOf bindings ++ uses body
  | .apply _ fn args => uses fn ++ usesAll args
  | .closure _ fn args => uses fn ++ usesAll args
  | .tuple _ items => usesAll items
  | .sequence _ steps => usesAll steps
  | .literal .. | .lambda .. | .assign .. | .group .. => []

def usesAll : List Term → List Symbol
  | [] => []
  | t :: ts => uses t ++ usesAll ts

def usesOf : List (Term × Term) → List Symbol
  | [] => []
  | (_, v) :: rest => uses v ++ usesOf rest

end

/-- A variable that is in scope, and meets a condition unless it is one of a list. -/
theorem also_and {A P : Symbol → Prop} {xs : List Symbol} {x : Symbol}
    (h : also A xs x ∧ P x) : also (fun y => A y ∧ P y) xs x :=
  h.1.imp_right fun hA => ⟨hA, h.2⟩

mutual

theorem scoped_restrict {P : Symbol → Prop} :
    ∀ {A : Symbol → Prop} {t : Term}, Scoped A t → (∀ x ∈ uses t, P x) →
      Scoped (fun x => A x ∧ P x) t
  | A, .ident x, h, hP => by
    rw [Scoped] at h ⊢
    exact ⟨h, hP x.sym (by simp [uses])⟩
  | A, .bind _ bs body, h, hP => by
    simp only [uses, mem_append] at hP
    rw [Scoped] at h ⊢
    exact ⟨scopedBindings_restrict h.1 fun x hx => hP x (.inl hx),
      (scoped_restrict h.2 fun x hx => hP x (.inr hx)).mono fun _ => also_and⟩
  | A, .apply _ fn args, h, hP => by
    simp only [uses, mem_append] at hP
    rw [Scoped] at h ⊢
    exact ⟨scoped_restrict h.1 fun x hx => hP x (.inl hx),
      scopedAll_restrict h.2 fun x hx => hP x (.inr hx)⟩
  | A, .closure _ fn args, h, hP => by
    simp only [uses, mem_append] at hP
    rw [Scoped] at h ⊢
    exact ⟨scoped_restrict h.1 fun x hx => hP x (.inl hx),
      scopedAll_restrict h.2 fun x hx => hP x (.inr hx)⟩
  | A, .tuple _ items, h, hP => by
    rw [uses] at hP
    rw [Scoped] at h ⊢
    exact scopedAll_restrict h hP
  | A, .sequence _ steps, h, hP => by
    rw [uses] at hP
    rw [Scoped] at h ⊢
    exact scopedAll_restrict h hP
  | A, .literal .., _, _ | A, .lambda .., _, _ | A, .assign .., _, _ | A, .group .., _, _ => by
    simp only [Scoped]

theorem scopedAll_restrict {P : Symbol → Prop} :
    ∀ {A : Symbol → Prop} {ts : List Term}, ScopedAll A ts → (∀ x ∈ usesAll ts, P x) →
      ScopedAll (fun x => A x ∧ P x) ts
  | A, [], _, _ => by simp only [ScopedAll]
  | A, t :: ts, h, hP => by
    simp only [usesAll, mem_append] at hP
    rw [ScopedAll] at h ⊢
    exact ⟨scoped_restrict h.1 fun x hx => hP x (.inl hx),
      scopedAll_restrict h.2 fun x hx => hP x (.inr hx)⟩

theorem scopedBindings_restrict {P : Symbol → Prop} :
    ∀ {A : Symbol → Prop} {bs : List (Term × Term)}, ScopedBindings A bs →
      (∀ x ∈ usesOf bs, P x) → ScopedBindings (fun x => A x ∧ P x) bs
  | A, [], _, _ => by simp only [ScopedBindings]
  | A, (k, v) :: rest, h, hP => by
    simp only [usesOf, mem_append] at hP
    rw [ScopedBindings] at h ⊢
    exact ⟨scoped_restrict h.1 fun x hx => hP x (.inl hx),
      (scopedBindings_restrict h.2 fun x hx => hP x (.inr hx)).mono fun _ => also_and⟩

end

/-! ## Functions -/

/-- The variables that a function's body gets from outside: parameters and global names. -/
def Outer (l : Lambda) (x : Symbol) : Prop := x ∈ l.params.map (·.sym) ∨ x.isGlobal = true

/-- The generators that are asked for symbols when a function is converted: its own, and that of
variables that stand for nothing. -/
def Asked (l : Lambda) (i : GeneratorId) : Prop := l.generator = some i ∨ i = Fixed.nothing.id

/-- A function whose binders are pairwise distinct and none of them a global name, which uses only
its parameters, global names and what it binds, and all of whose symbols in the namespaces of the
generators that will be asked were made by them. -/
structure Convertible (s : Session) (l : Lambda) : Prop where
  closed : Scoped (Outer l) l.body
  distinct : (l.params.map (·.sym) ++ binders l.body).Nodup
  proper : ∀ x ∈ binders l.body, x.isGlobal = false
  made : ∀ x ∈ uses l.body ++ binders l.body, Old (Asked l) s x
  generators : Distinct (Asked l) s

/-- The variables from outside that a convertible function uses. -/
def Used (s : Session) (l : Lambda) (x : Symbol) : Prop := Outer l x ∧ Old (Asked l) s x

variable {s s1 s2 s' : Session} {l : Lambda} {g : GeneratorId}

theorem forall_asked {p : GeneratorId → Prop} (hg : l.generator = some g) :
    (∀ i, Asked l i → p i) ↔ p g ∧ p Fixed.nothing.id := by
  simp [Asked, hg, or_imp, forall_and]

theorem distinct_asked (hg : l.generator = some g)
    (hlt : g < s.generators.size ∧ Fixed.nothing.id < s.generators.size)
    (hne : (generator s g).space ≠ (generator s Fixed.nothing.id).space) : Distinct (Asked l) s where
  there := (forall_asked hg).mpr hlt
  apart i j hi := by
    revert i
    refine (forall_asked hg).mpr ⟨?_, ?_⟩ <;> revert j <;> refine (forall_asked hg).mpr ⟨?_, ?_⟩
    · exact fun _ => rfl
    · exact fun h => absurd h hne
    · exact fun h => absurd h.symm hne
    · exact fun _ => rfl

theorem Convertible.fit (h : Convertible s l) : Fit (Used s l) l.body where
  scope := scoped_restrict h.closed fun x hx => h.made x (mem_append_left _ hx)
  nodup := h.distinct.of_append_right
  apart x hx hA := by
    rcases hA.1 with hp | hg
    · exact disjoint_of_nodup_append h.distinct hp hx
    · rw [h.proper x hx] at hg
      cases hg

theorem Convertible.ready (h : Convertible s l) : Ready (Asked l) (Used s l) l.generator s where
  old _ hx := hx.2
  distinct := h.generators
  generator _ hg := .inl hg
  nothing := .inr rfl

theorem ofLambda_cases {o : Option Origin} {id new : TermId} (hl : s.lambda? id = some l)
    (hret : Returns (ofLambda id) o s new s') :
    ∃ o1 o2 r t s1 s2 s3 ref, Returns (nameAll l.generator none l.body) o1 s r s1 ∧
      Returns (flatten r.term) o2 s2 t s3 ∧ Further s1 s' ∧
      s'.lambda? new =
        some { params := l.params, body := t, generator := l.generator, ref := some ref } := by
  rw [ofLambda, returns_bind] at hret
  obtain ⟨l0, _, hget, hret⟩ := hret
  rw [returns_getLambda, hl, Option.some.injEq] at hget
  obtain ⟨rfl, rfl⟩ := hget
  simp only [returns_bind] at hret
  obtain ⟨named, s1, hname, t, s2, hflat, hret⟩ := hret
  rw [lambdaTerm, nameAll, about, returns_about, returns_bind] at hname
  obtain ⟨l0, _, hget, hname⟩ := hname
  rw [returns_getLambda, hl, Option.some.injEq] at hget
  obtain ⟨rfl, rfl⟩ := hget
  simp only [returns_bind] at hname
  obtain ⟨r, s3, hr, n1, s4, hn1, hname⟩ := hname
  rw [returns_newLambda] at hn1
  rw [name, returns_pure] at hname
  obtain ⟨rfl, rfl⟩ := hname
  rw [flatten, returns_about, returns_bind] at hflat
  obtain ⟨l1, s5, hget, hflat⟩ := hflat
  rw [returns_getLambda, ← hn1.1, ← hn1.2, withLambda_lambda?, Option.some.injEq] at hget
  obtain ⟨rfl, rfl⟩ := hget
  simp only [returns_bind] at hflat
  obtain ⟨b, s6, hb, n2, s7, hn2, hflat⟩ := hflat
  rw [returns_newLambda] at hn2
  rw [returns_pure] at hflat
  obtain ⟨rfl, rfl⟩ := hflat
  simp only at hret
  split at hret
  · exact (returns_throw.mp hret).elim
  next ref href =>
    rw [returns_bind] at hret
    obtain ⟨y, s8, hy, hret⟩ := hret
    rw [returns_freshDerived] at hy
    rw [returns_bind] at hret
    obtain ⟨x, s9, hx, hret⟩ := hret
    rw [returns_ident] at hx
    rw [returns_bind] at hret
    obtain ⟨_, s10, hassoc, hret⟩ := hret
    rw [returns_associate] at hassoc
    rw [returns_pure] at hret
    obtain ⟨rfl, rfl⟩ := hret
    obtain ⟨rfl, rfl⟩ := hn2
    refine ⟨_, _, r, b, s3, _, s6, x, hr, hb, ?_, ?_⟩
    · -- only the last symbol is asked of a generator
      have hflatten : Later s3 s6 := by
        refine Later.trans ?_ (keeps_flatten (R := Later) r.term _ _ _ _ hb)
        exact Later.of_generators rfl
      have hsymbol : Further s6 s8 := by
        rw [← hy.2]
        refine Further.trans ?_ further_afterDerived
        exact Further.of_generators rfl
      rw [← hassoc, ← hx.2]
      exact ((Further.of_later hflatten).trans hsymbol).trans
        (Further.of_generators rfl)
    · rw [← hassoc, registered_lambda?, ← hx.2, noted_lambda?, ← hy.2, afterDerived_lambda?,
        withLambda_lambda?]
      simp

section Values

variable {m : Type → Type} [Monad m] [LawfulMonad m] [MonadExceptOf Failure m] [FailsAtOnce m]
variable {call : Value → List Value → m Value}

omit [LawfulMonad m] [FailsAtOnce m] in
theorem Stands.fit {G : GeneratorId → Prop} {A : Symbol → Prop} {gen : Option GeneratorId}
    {t u : Term} (h : Stands G call A s s' t u) (ht : Fit A t) (hr : Ready G A gen s) :
    Fit A u :=
  ⟨h.scope, h.bound.nodup, fun x hx hA =>
    h.bound.not_mem (fun hb => ht.apart x hb hA) (hr.old x hA) hx⟩

end Values

end DiffLang.Normal
