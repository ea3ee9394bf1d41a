import DiffLang.Proofs.Term.Meaning

/-!
# Terms without unbound variables

`Bound K t` says that no variable of `t` is unbound when those of `K` are known: every variable is a
global name, known, or set by a binding before it is used. The lemmas here say so form by form, and
that knowing more variables does no harm.
-/

namespace DiffLang.Scoping

open List

def Bound (K : List Symbol) (t : Term) : Prop := unbound K t = .ok []

def BoundAll (K : List Symbol) (ts : List Term) : Prop := unboundAll K ts = .ok []

def knownAfter (K : List Symbol) (bs : List (Term × Term)) : List Symbol :=
  bs.foldl (fun K b => patternSymbols b.1 ++ K) K

def BoundBindings (K : List Symbol) (bs : List (Term × Term)) : Prop :=
  unboundBindings K bs = .ok ([], knownAfter K bs)

theorem append_eq_nil_iff {x y : Fallible (List Symbol)} :
    (do pure ((← x) ++ (← y)) : Fallible (List Symbol)) = .ok [] ↔ x = .ok [] ∧ y = .ok [] := by
  cases x with
  | error e => simp [bind, Except.bind]
  | ok a =>
    cases y with
    | error e => simp [bind, Except.bind]
    | ok b => simp [bind, Except.bind, pure, Except.pure]

variable {K : List Symbol}

variable {id : TermId} {t : Term} {bs : List (Term × Term)}

section Forms

attribute [local simp] unbound unboundAll unboundBindings

theorem bound_ident {x : Ident} :
    Bound K (.ident x) ↔ x.sym.isGlobal = true ∨ x.sym ∈ K := by
  unfold Bound
  rw [unbound]
  by_cases hg : x.sym.isGlobal = true
  · simp [hg, pure, Except.pure]
  · by_cases hk : x.sym ∈ K
    · simp [hk, pure, Except.pure]
    · simp [hg, hk, pure, Except.pure]

theorem bound_literal {v : Value} : Bound K (.literal id v) := by
  simp [Bound, pure, Except.pure]

theorem bound_apply {fn : Term} {args : List Term} :
    Bound K (.apply id fn args) ↔ Bound K fn ∧ BoundAll K args := by
  unfold Bound BoundAll
  rw [unbound]
  exact append_eq_nil_iff

theorem bound_closure {fn : Term} {args : List Term} :
    Bound K (.closure id fn args) ↔ Bound K fn ∧ BoundAll K args := by
  unfold Bound BoundAll
  rw [unbound]
  exact append_eq_nil_iff

theorem bound_tuple {items : List Term} :
    Bound K (.tuple id items) ↔ BoundAll K items := by
  simp [Bound, BoundAll]

theorem bound_sequence {steps : List Term} :
    Bound K (.sequence id steps) ↔ BoundAll K steps := by
  simp [Bound, BoundAll]

theorem boundAll_nil : BoundAll K [] := by
  simp [BoundAll, pure, Except.pure]

theorem boundAll_cons {ts : List Term} :
    BoundAll K (t :: ts) ↔ Bound K t ∧ BoundAll K ts := by
  unfold Bound BoundAll
  rw [unboundAll]
  exact append_eq_nil_iff

end Forms

theorem boundAll_iff {ts : List Term} : BoundAll K ts ↔ ∀ t ∈ ts, Bound K t := by
  induction ts with
  | nil => simp [boundAll_nil]
  | cons t ts ih => simp [boundAll_cons, ih]

@[simp] theorem knownAfter_nil : knownAfter K [] = K := rfl

@[simp] theorem knownAfter_cons {k v : Term} :
    knownAfter K ((k, v) :: bs) = knownAfter (patternSymbols k ++ K) bs := rfl

theorem boundBindings_nil : BoundBindings K [] := by
  unfold BoundBindings
  rw [unboundBindings]
  rfl

theorem boundBindings_cons {k v : Term} :
    BoundBindings K ((k, v) :: bs) ↔ Bound K v ∧ BoundBindings (patternSymbols k ++ K) bs := by
  unfold BoundBindings Bound
  rw [unboundBindings, knownAfter_cons]
  cases unbound K v with
  | error e => simp [bind, Except.bind]
  | ok a =>
    cases unboundBindings (patternSymbols k ++ K) bs with
    | error e => simp [bind, Except.bind]
    | ok r =>
      obtain ⟨b, K'⟩ := r
      simp [bind, Except.bind, pure, Except.pure, and_assoc]

theorem unboundBindings_known : ∀ {K : List Symbol} {bs : List (Term × Term)}
    {found K' : List Symbol}, unboundBindings K bs = .ok (found, K') → K' = knownAfter K bs
  | K, [], found, K', h => by
    rw [unboundBindings] at h
    injection h with h
    injection h with _ h
    exact h.symm
  | K, (k, v) :: bs, found, K', h => by
    rw [unboundBindings] at h
    cases hv : unbound K v with
    | error e =>
      rw [hv] at h
      cases h
    | ok a =>
      cases hb : unboundBindings (patternSymbols k ++ K) bs with
      | error e =>
        rw [hv, hb] at h
        cases h
      | ok r =>
        obtain ⟨b, K1⟩ := r
        rw [hv, hb] at h
        injection h with h
        injection h with _ h
        rw [knownAfter_cons, ← unboundBindings_known hb, h]

theorem bound_bind {body : Term} :
    Bound K (.bind id bs body) ↔ BoundBindings K bs ∧ Bound (knownAfter K bs) body := by
  unfold BoundBindings Bound
  rw [unbound]
  cases hb : unboundBindings K bs with
  | error e => simp [bind, Except.bind]
  | ok r =>
    obtain ⟨b, K'⟩ := r
    obtain rfl := unboundBindings_known hb
    cases hc : unbound (knownAfter K bs) body with
    | error e => simp [bind, Except.bind, hc]
    | ok c => simp [bind, Except.bind, pure, Except.pure, hc]

theorem knownAfter_mono :
    ∀ {K K' : List Symbol}, K ⊆ K' → knownAfter K bs ⊆ knownAfter K' bs := by
  induction bs with
  | nil => exact fun h => h
  | cons b bs ih =>
    intro K K' h
    exact ih (append_subset.mpr ⟨subset_append_left _ _,
      List.Subset.trans h (subset_append_right _ _)⟩)

theorem mem_knownAfter {x : Symbol} :
    ∀ {K : List Symbol}, x ∈ knownAfter K bs ↔ x ∈ Meaning.targets bs ∨ x ∈ K := by
  induction bs with
  | nil => simp
  | cons b bs ih =>
    intro K
    obtain ⟨k, v⟩ := b
    rw [knownAfter_cons, ih, Meaning.targets_cons]
    simp only [mem_append]
    grind

mutual

theorem Bound.mono {K K' : List Symbol} {t : Term} (h : Bound K t) (hK : K ⊆ K') : Bound K' t := by
  cases t with
  | ident x =>
    rw [bound_ident] at h ⊢
    exact h.imp_right fun hx => hK hx
  | literal => exact bound_literal
  | bind _ bs body =>
    rw [bound_bind] at h ⊢
    exact ⟨BoundBindings.mono h.1 hK, Bound.mono h.2 (knownAfter_mono hK)⟩
  | apply _ fn args | closure _ fn args =>
    simp only [bound_apply, bound_closure] at h ⊢
    exact ⟨Bound.mono h.1 hK, BoundAll.mono h.2 hK⟩
  | tuple _ ts | sequence _ ts =>
    simp only [bound_tuple, bound_sequence] at h ⊢
    exact BoundAll.mono h hK
  | lambda | assign | group =>
    unfold Bound at h ⊢
    rw [unbound] at h ⊢
    exact h

theorem BoundAll.mono {K K' : List Symbol} {ts : List Term} (h : BoundAll K ts) (hK : K ⊆ K') :
    BoundAll K' ts := by
  cases ts with
  | nil => exact boundAll_nil
  | cons t ts =>
    rw [boundAll_cons] at h ⊢
    exact ⟨Bound.mono h.1 hK, BoundAll.mono h.2 hK⟩

theorem BoundBindings.mono {K K' : List Symbol} {bs : List (Term × Term)}
    (h : BoundBindings K bs) (hK : K ⊆ K') : BoundBindings K' bs := by
  match bs with
  | [] => exact boundBindings_nil
  | (k, v) :: bs =>
    rw [boundBindings_cons] at h ⊢
    exact ⟨Bound.mono h.1 hK, BoundBindings.mono h.2 (append_subset.mpr
      ⟨subset_append_left _ _, List.Subset.trans hK (subset_append_right _ _)⟩)⟩

end

/-- A term with no function inside. -/
inductive Lifted : Term → Prop
  | intro {t : Term} (hl : ∀ id params body, t ≠ .lambda id params body)
    (hc : ∀ c ∈ t.children, Lifted c) : Lifted t

theorem Lifted.child {c : Term} (h : Lifted t) (hc : c ∈ t.children) : Lifted c := by
  cases h with
  | intro _ h => exact h c hc

theorem Lifted.ne_lambda (h : Lifted t) (id : TermId) (params : List Ident)
    (body : Term) : t ≠ .lambda id params body := by
  cases h with
  | intro h _ => exact h id params body

theorem lifted_ident (x : Ident) : Lifted (.ident x) :=
  .intro (by simp) fun c hc => absurd hc not_mem_nil

/-! ## Statements -/

mutual

/-- A term that is computed at once: it binds nothing, and nothing in it is done in sequence. -/
def straight : Term → Bool
  | .ident _ | .literal .. => true
  | .apply _ fn args | .closure _ fn args => straight fn && straightAll args
  | .tuple _ items => straightAll items
  | _ => false

def straightAll : List Term → Bool
  | [] => true
  | t :: ts => straight t && straightAll ts

end

/-- A term that is computed statement by statement: what is bound, what is done before something
else and what is given at the end are computed at once. -/
inductive Orderly : Term → Prop
  | straight {t : Term} (h : straight t = true) : Orderly t
  | bind {i : TermId} {bs : List (Term × Term)} {body : Term}
    (hb : ∀ b ∈ bs, Scoping.straight b.1 = true ∧ Scoping.straight b.2 = true) (h : Orderly body) :
    Orderly (.bind i bs body)
  | sequence {i : TermId} {ts : List Term} {t : Term} (hts : straightAll ts = true)
    (h : Orderly t) : Orderly (.sequence i (ts ++ [t]))

mutual

theorem lifted_of_straight (t : Term) (ht : straight t = true) : Lifted t := by
  cases t with
  | ident x => exact lifted_ident x
  | literal => exact .intro (by simp) fun c hc => absurd hc not_mem_nil
  | apply i fn args | closure i fn args =>
    rw [straight, Bool.and_eq_true] at ht
    exact .intro (by simp) (forall_mem_cons.mpr
      ⟨lifted_of_straight fn ht.1, liftedAll_of_straight args ht.2⟩)
  | tuple i items =>
    rw [straight] at ht
    exact .intro (by simp) (liftedAll_of_straight items ht)
  | _ => cases ht

theorem liftedAll_of_straight (ts : List Term) (ht : straightAll ts = true) : ∀ t ∈ ts, Lifted t := by
  cases ts with
  | nil => simp
  | cons t ts =>
    rw [straightAll, Bool.and_eq_true] at ht
    exact forall_mem_cons.mpr ⟨lifted_of_straight t ht.1, liftedAll_of_straight ts ht.2⟩

end

theorem Orderly.lifted (h : Orderly t) : Lifted t := by
  induction h with
  | straight h => exact lifted_of_straight _ h
  | bind hb _ ih =>
    refine .intro (by simp) (forall_mem_append.mpr ⟨fun c hc => ?_, by simpa using ih⟩)
    obtain ⟨b, hmem, hc⟩ := mem_flatMap.mp hc
    simp only [mem_cons, not_mem_nil, or_false] at hc
    rcases hc with rfl | rfl
    · exact lifted_of_straight _ (hb b hmem).1
    · exact lifted_of_straight _ (hb b hmem).2
  | sequence hts _ ih =>
    exact .intro (by simp) (forall_mem_append.mpr
      ⟨liftedAll_of_straight _ hts, by simpa using ih⟩)

open Meaning

mutual

theorem binders_of_straight (t : Term) (ht : straight t = true) : binders t = [] := by
  cases t with
  | apply i fn args | closure i fn args =>
    rw [straight, Bool.and_eq_true] at ht
    rw [binders, binders_of_straight fn ht.1, bindersAll_of_straight args ht.2]
    rfl
  | tuple i items =>
    rw [straight] at ht
    rw [binders, bindersAll_of_straight items ht]
  | ident | literal => rw [binders]
  | _ => cases ht

theorem bindersAll_of_straight (ts : List Term) (ht : straightAll ts = true) :
    bindersAll ts = [] := by
  cases ts with
  | nil => rw [bindersAll]
  | cons t ts =>
    rw [straightAll, Bool.and_eq_true] at ht
    rw [bindersAll, binders_of_straight t ht.1, bindersAll_of_straight ts ht.2]
    rfl

end

/-- A function with no unbound variable, which binds no variable twice. -/
structure Closed (l : Lambda) : Prop where
  bound : Bound (l.params.map (·.sym)) l.body
  distinct : (l.params.map (·.sym) ++ Meaning.binders l.body).Nodup

end DiffLang.Scoping
