import DiffLang.Proofs.Term.Flattening
import DiffLang.Proofs.Term.Freshness

/-!
# Naming keeps the meaning

Naming the subterms of a term moves their computation in front of it. The new variables are fresh,
the order of the computations stays the same, and what is left in place, variables and literals,
has no effect; so the value stays the same, and so does a failure.

Main statement: `nameAll_outcome`.
-/

namespace DiffLang.Normal

open Freshness Meaning Run Scoping Session List

/-! ## Sessions go on -/

section Keeps

variable {R : Session → Session → Prop} [Making R]

theorem keeps_fresh (gen : Option GeneratorId) (label : String) :
    Keeps R (fresh gen label) := by
  cases gen with
  | none => exact keeps_throw _
  | some g =>
    exact keeps_freshPlain.bind fun x =>
      (keeps_numbered fun i => (⟨i, x⟩ : Ident)).bind fun _ => keeps_pure _

theorem keeps_name (gen : Option GeneratorId) (place : Option Place) (t : Term)
    (suggested : String) : Keeps R (name gen place t suggested) := by
  cases place with
  | none => exact keeps_pure _
  | some p =>
    cases p with
    | target k => exact keeps_pure _
    | label l => exact (keeps_fresh gen l).bind fun _ => keeps_pure _
    | «open» => exact (keeps_fresh gen suggested).bind fun _ => keeps_pure _

theorem keeps_bindTerm (bs : List (Term × Term)) (t : Term) :
    Keeps R (Session.bind bs t) :=
  keeps_numbered fun i => Term.bind i bs t

theorem keeps_finish (gen : Option GeneratorId) (place : Option Place) (base : String)
    (bs : List (Term × Term)) (t : Term) : Keeps R (finish gen place base bs t) := by
  cases place with
  | none =>
    exact (keeps_name _ _ _ _).bind fun _ => (keeps_bindTerm _ _).bind fun _ =>
      keeps_pure _
  | some p =>
    unfold finish
    dsimp only
    split
    · exact (keeps_pure _).bind fun _ => keeps_name _ _ _ _
    · exact (keeps_bindTerm _ _).bind fun _ => keeps_name _ _ _ _

omit [Making R] in
mutual

theorem keeps_nameAll [Making R] (gen : Option GeneratorId) (place : Option Place) (t : Term) :
    Keeps R (nameAll gen place t) := by
  cases t with
  | ident | literal =>
    rw [nameAll]
    exact keeps_pure _
  | lambda id params body =>
    rw [nameAll]
    exact keeps_about <| (keeps_getLambda id).bind fun l =>
      (keeps_nameAll _ _ body).bind fun _ =>
        (keeps_newLambda _ _ _).bind fun _ => keeps_name _ _ _ _
  | bind id bs body =>
    rw [nameAll]
    exact keeps_about <| (keeps_nameBindings gen bs).bind fun _ =>
      (keeps_nameAll _ _ body).bind fun _ =>
        (keeps_bindTerm _ _).bind fun _ => keeps_name _ _ _ _
  | apply id fn args =>
    rw [nameAll]
    refine keeps_about <| (keeps_nameAll _ _ fn).bind fun f => ?_
    split
    next x =>
      exact (keeps_nameParts gen _ 1 args).bind fun _ =>
        (keeps_numbered fun i => Term.apply i _ _).bind fun _ => keeps_finish _ _ _ _ _
    · exact keeps_throw _
  | tuple id items =>
    rw [nameAll]
    exact keeps_about <| (keeps_nameParts gen _ 1 items).bind fun _ =>
      (keeps_numbered fun i => Term.tuple i _).bind fun _ => keeps_finish _ _ _ _ _
  | closure id fn args =>
    rw [nameAll]
    exact keeps_about <| (keeps_nameAll _ _ fn).bind fun _ =>
      (keeps_nameParts gen _ 2 args).bind fun _ =>
        (keeps_numbered fun i => Term.closure i _ _).bind fun _ => keeps_finish _ _ _ _ _
  | sequence id steps =>
    rw [nameAll]
    refine keeps_about ?_
    split
    · exact keeps_throw _
    · exact keeps_nameLast gen place steps
    · refine (keeps_mapM (fun _ => keeps_freshNothing) _).bind fun xs =>
        (keeps_nameSteps gen xs steps).bind fun _ => ?_
      split
      · exact (keeps_bindTerm _ _).bind fun _ => keeps_name _ _ _ _
      · exact keeps_throw _
  | assign | group =>
    rw [nameAll]
    · exact keeps_throw _
    all_goals simp

theorem keeps_nameParts [Making R] (gen : Option GeneratorId) (base : String) (n : Nat) (ts : List Term) :
    Keeps R (nameParts gen base n ts) := by
  cases ts with
  | nil =>
    rw [nameParts]
    exact keeps_pure _
  | cons t ts =>
    rw [nameParts]
    exact (keeps_nameAll _ _ t).bind fun _ =>
      (keeps_nameParts gen base (n + 1) ts).bind fun _ => keeps_pure _

theorem keeps_nameBindings [Making R] (gen : Option GeneratorId) (bs : List (Term × Term)) :
    Keeps R (nameBindings gen bs) := by
  match bs with
  | [] =>
    rw [nameBindings]
    exact keeps_pure _
  | (k, v) :: rest =>
    rw [nameBindings]
    exact (keeps_nameAll _ _ v).bind fun _ =>
      (keeps_nameBindings gen rest).bind fun _ => keeps_pure _

theorem keeps_nameLast [Making R] (gen : Option GeneratorId) (place : Option Place) (ts : List Term) :
    Keeps R (nameLast gen place ts) := by
  match ts with
  | [] =>
    rw [nameLast]
    exact keeps_throw _
  | [t] =>
    rw [nameLast]
    exact keeps_nameAll gen place t
  | t :: u :: ts =>
    rw [nameLast]
    · exact keeps_nameLast gen place (u :: ts)
    all_goals simp

theorem keeps_nameSteps [Making R] (gen : Option GeneratorId) (xs : List Ident) (ts : List Term) :
    Keeps R (nameSteps gen xs ts) := by
  match xs, ts with
  | [], _ | _ :: _, [] =>
    rw [nameSteps]
    · exact keeps_pure _
    all_goals simp
  | x :: xs, [t] =>
    rw [nameSteps]
    exact (keeps_nameAll _ _ t).bind fun _ =>
      (keeps_nameSteps gen xs []).bind fun _ => keeps_pure _
  | x :: xs, t :: u :: ts =>
    rw [nameSteps]
    · split
      · exact keeps_nameSteps gen (x :: xs) (u :: ts)
      · exact (keeps_nameAll _ _ t).bind fun _ =>
          (keeps_nameSteps gen xs (u :: ts)).bind fun _ => keeps_pure _
    all_goals simp

end

end Keeps

/-! ## What stands for a term -/

section Outcomes

variable {m : Type → Type} [Monad m] [LawfulMonad m] [MonadExceptOf Failure m]
variable (G : GeneratorId → Prop) (call : Value → List Value → m Value)

/-- Symbols in the place of others: distinct, and each is one of those or was made meanwhile. -/
structure Replaces (s s' : Session) (xs ys : List Symbol) : Prop where
  nodup : ys.Nodup
  origin : ∀ y ∈ ys, y ∈ xs ∨ Made G s s' y

/-- One term stands for another: it has the same value, and besides the other's variables binds
only such as were made meanwhile. -/
structure Stands (A : Symbol → Prop) (s s' : Session) (t u : Term) : Prop where
  scope : Scoped A u
  bound : Replaces G s s' (binders t) (binders u)
  value : ∀ ρ, Defined A ρ → eval call ρ u = eval call ρ t

/-- The outcome of naming a term in a place: a term that stands for it; or a leaf that does; or the
place's variable, bound to one that does. -/
inductive Outcome (A : Symbol → Prop) (s s' : Session) (t : Term) : Option Place → Named → Prop
  | whole {u : Term} (h : Stands G call A s s' t u) : Outcome A s s' t none ⟨u, none⟩
  | leaf {p : Place} {u : Term} (hu : isLeaf u = true) (h : Stands G call A s s' t u) :
      Outcome A s s' t (some p) ⟨u, none⟩
  | target {k u : Term} (h : Stands G call A s s' t u) :
      Outcome A s s' t (some (.target k)) ⟨k, some (k, u)⟩
  | fresh {p : Place} {x : Ident} {u : Term} (hp : ∀ k, p ≠ .target k)
      (h : Stands G call A s s' t u) (hx : Made G s s' x.sym) (hxu : x.sym ∉ binders u) :
      Outcome A s s' t (some p) ⟨.ident x, some (.ident x, u)⟩

/-- A session in which terms over the variables `A` can be named, with the generators `G`. -/
structure Ready (A : Symbol → Prop) (gen : Option GeneratorId) (s : Session) : Prop where
  old : ∀ x, A x → Old G s x
  distinct : Distinct G s
  generator : ∀ g, gen = some g → G g
  nothing : G Fixed.nothing.id

/-- Terms that stand for those of a list, and the bindings that they need. -/
structure Parts (A : Symbol → Prop) (s s' : Session) (args ts : List Term)
    (bs : List (Term × Term)) : Prop where
  leaves : ∀ t ∈ ts, isLeaf t = true
  scope : ScopedBindings A bs
  scopes : ScopedAll (also A (targets bs)) ts
  bound : Replaces G s s' (bindersAll args) (bindersOf bs)
  value : ∀ {β : Type} (ρ : Env), Defined A ρ →
    ∀ (k : Env → List Value → m β) (k' : List Value → m β),
      (∀ σ vs, (∀ x, x ∉ targets bs → σ x = ρ x) → k σ vs = k' vs) →
      (evalBindings call ρ bs >>= fun σ => evalAll call σ ts >>= k σ) =
        (evalAll call ρ args >>= k')

variable {G} {call} {A : Symbol → Prop} {gen : Option GeneratorId} {o : Option Origin}
variable {s s1 s' : Session}

section Replaces

variable {x : Symbol} {xs ys xs' ys' : List Symbol}

theorem Replaces.refl (h : xs.Nodup) : Replaces G s s' xs xs :=
  ⟨h, fun _ hx => .inl hx⟩

theorem Replaces.mono (h : Replaces G s s' xs ys) (hx : xs ⊆ xs') : Replaces G s s' xs' ys :=
  ⟨h.nodup, fun y hy => (h.origin y hy).imp_left fun hy => hx hy⟩

theorem Replaces.of_later {s2 : Session} (h : Replaces G s1 s2 xs ys) (hl : Later s s1)
    (hl' : Later s2 s') : Replaces G s s' xs ys :=
  ⟨h.nodup, fun y hy => (h.origin y hy).imp_right fun hm => hm.of_later hl hl'⟩

theorem Replaces.not_mem (h : Replaces G s s' xs ys) (hx : x ∉ xs) (ho : Old G s x) : x ∉ ys :=
  fun hy => (h.origin x hy).elim hx fun hm => hm.1 ho

theorem Replaces.old (h : Replaces G s s' xs ys) (hold : ∀ x ∈ xs, Old G s x) (hl : Later s s') :
    ∀ y ∈ ys, Old G s' y :=
  fun y hy => (h.origin y hy).elim (fun hy => hl.old (hold y hy)) fun hm => hm.2

theorem Replaces.snoc (h : Replaces G s s' xs ys)
    (hx : Made G s s' x) (hxs : x ∉ ys) : Replaces G s s' xs (ys ++ [x]) where
  nodup := h.nodup.append (nodup_singleton x) (disjoint_singleton.mpr hxs)
  origin y hy := by
    rcases mem_append.mp hy with hy | hy
    · exact h.origin y hy
    · exact .inr (mem_singleton.mp hy ▸ hx)

/-- What replaces the first of the symbols is made before what replaces the others, so the two have
nothing in common. -/
theorem Replaces.append (h : Replaces G s s1 xs ys)
    (h' : Replaces G s1 s' xs' ys') (hn : (xs ++ xs').Nodup) (hold : ∀ x ∈ xs ++ xs', Old G s x)
    (hl : Later s s1) (hl' : Later s1 s') : Replaces G s s' (xs ++ xs') (ys ++ ys') where
  nodup := by
    refine nodup_append.mpr ⟨h.nodup, h'.nodup, fun y hy z hz => ?_⟩
    rintro rfl
    rcases h.origin y hy with hx | hm <;> rcases h'.origin y hz with hx' | hm'
    · exact disjoint_of_nodup_append hn hx hx'
    · exact hm'.1 (hl.old (hold y (mem_append_left _ hx)))
    · exact hm.1 (hold y (mem_append_right _ hx'))
    · exact hm'.1 hm.2
  origin y hy := by
    rw [mem_append] at hy ⊢
    rcases hy with hy | hy
    · exact (h.origin y hy).imp .inl fun hm => hm.of_later (Later.refl s) hl'
    · exact (h'.origin y hy).imp .inr fun hm => hm.of_later hl (Later.refl s')

theorem Replaces.append_same (h : Replaces G s s' xs ys) (hn : (xs ++ xs').Nodup)
    (hold : ∀ x ∈ xs ++ xs', Old G s x) (hl : Later s s') :
    Replaces G s s' (xs ++ xs') (ys ++ xs') :=
  h.append (.refl hn.of_append_right) hn hold hl (Later.refl s')

end Replaces

theorem Ready.later (h : Ready G A gen s) (hl : Later s s') : Ready G A gen s' :=
  ⟨fun x hx => hl.old (h.old x hx), hl.distinct h.distinct, h.generator, h.nothing⟩

theorem Ready.also (h : Ready G A gen s) {xs : List Symbol} (hx : ∀ x ∈ xs, Old G s x) :
    Ready G (also A xs) gen s :=
  ⟨fun x hA => hA.elim (hx x) (h.old x), h.distinct, h.generator, h.nothing⟩

variable {t u k : Term} {ρ : Env} {place : Option Place} {r : Named} {bs : List (Term × Term)}
variable {ts args steps : List Term} {x : Ident} {id : TermId} {xs : List Ident}

omit [LawfulMonad m] in
theorem Stands.later (h : Stands G call A s s1 t u) (hl : Later s1 s') :
    Stands G call A s s' t u :=
  ⟨h.scope, h.bound.of_later (Later.refl s) hl, h.value⟩

omit [LawfulMonad m] in
theorem Stands.refl (h : Fit A t) : Stands G call A s s' t t :=
  ⟨h.scope, .refl h.nodup, fun _ _ => rfl⟩

omit [LawfulMonad m] in
variable (call) in
theorem eval_leaf (ht : isLeaf t = true) (hs : Scoped A t)
    (hd : Defined A ρ) : ∃ v, ∀ σ, Agree A ρ σ → eval call σ t = pure v := by
  cases t with
  | ident x =>
    rw [Scoped] at hs
    obtain ⟨v, hv⟩ := hd _ hs
    refine ⟨v, fun σ hσ => ?_⟩
    rw [eval, ← hσ _ hs, hv]
  | literal id v => exact ⟨v, fun σ _ => by rw [eval]⟩
  | _ => simp [isLeaf] at ht

theorem binders_leaf (ht : isLeaf t = true) : binders t = [] := by
  cases t with
  | ident | literal => simp only [binders]
  | _ => simp [isLeaf] at ht

theorem bindersAll_leaves : ∀ {ts : List Term}, (∀ t ∈ ts, isLeaf t = true) → bindersAll ts = []
  | [], _ => by rw [bindersAll]
  | t :: ts, h => by
    rw [bindersAll, binders_leaf (h t (mem_cons_self ..)),
      bindersAll_leaves fun u hu => h u (mem_cons_of_mem _ hu)]
    rfl

theorem returns_fresh {label : String} (hr : Ready G A gen s)
    (h : Returns (fresh gen label) o s t s') :
    ∃ x : Ident, t = .ident x ∧ Made G s s' x.sym := by
  cases hgen : gen with
  | none =>
    rw [hgen, fresh] at h
    exact (returns_throw.mp h).elim
  | some g =>
    rw [hgen, fresh, returns_bind] at h
    obtain ⟨x, s2, hx, ht⟩ := h
    rw [returns_freshPlain] at hx
    rw [returns_symbolTerm] at ht
    obtain ⟨rfl, rfl⟩ := hx
    obtain ⟨rfl, rfl⟩ := ht
    exact ⟨_, rfl, (made_afterPlain (hr.generator g hgen) hr.distinct).of_later (Later.refl s)
      (Later.of_generators rfl)⟩

omit [LawfulMonad m] in
theorem name_outcome {suggested : String}
    (hu : Stands G call A s s1 t u) (ht : ∀ x ∈ binders t, Old G s x) (hr : Ready G A gen s)
    (hl : Later s s1) (h : Returns (name gen place u suggested) o s1 r s') :
    Outcome G call A s s' t place r := by
  have hl' : Later s1 s' := keeps_name _ _ _ _ _ _ _ _ h
  -- a new variable is none of those that are already bound
  have hnew : ∀ {label : String} {x : Term}, Returns (fresh gen label) o s1 x s' →
      ∃ y : Ident, x = .ident y ∧ Made G s s' y.sym ∧ y.sym ∉ binders u := by
    intro label x hx
    obtain ⟨y, rfl, hy⟩ := returns_fresh (hr.later hl) hx
    refine ⟨y, rfl, hy.of_later hl (Later.refl s'), fun hyu => ?_⟩
    exact hy.1 (hu.bound.old ht hl _ hyu)
  cases place with
  | none =>
    rw [name, returns_pure] at h
    rw [← h.1]
    exact .whole (hu.later hl')
  | some p =>
    cases p with
    | target k =>
      rw [name, returns_pure] at h
      rw [← h.1]
      exact .target (hu.later hl')
    | label | «open» =>
      simp only [name, returns_bind, returns_pure] at h
      obtain ⟨x, s2, hx, rfl, rfl⟩ := h
      obtain ⟨y, rfl, hy, hyu⟩ := hnew hx
      exact .fresh (by simp) (hu.later hl') hy hyu

/-! ### Parts -/

omit [LawfulMonad m] in
theorem Parts.later
    (h : Parts G call A s s1 args ts bs) (hl : Later s1 s') : Parts G call A s s' args ts bs :=
  ⟨h.leaves, h.scope, h.scopes, h.bound.of_later (Later.refl s) hl, h.value⟩

theorem parts_nil : Parts G call A s s' [] [] [] where
  leaves _ h := by simp at h
  scope := by simp only [ScopedBindings]
  scopes := by simp only [ScopedAll]
  bound := by simpa only [bindersOf] using .refl nodup_nil
  value ρ _ k k' hk := by
    simp only [evalBindings, evalAll, pure_bind]
    exact hk ρ [] fun _ _ => rfl

/-- A leaf in front of parts is computed after their bindings, which makes no difference. -/
theorem Parts.cons_leaf [FailsAtOnce m] (hu : isLeaf u = true) (hs : Stands G call A s s1 t u)
    (h : Parts G call A s1 s' args ts bs) (hfit : FitAll A (t :: args)) (hr : Ready G A gen s)
    (hl : Later s s1) : Parts G call A s s' (t :: args) (u :: ts) bs where
  leaves x hx := by
    rcases mem_cons.mp hx with rfl | hx
    · exact hu
    · exact h.leaves x hx
  scope := h.scope
  scopes := by
    rw [ScopedAll]
    exact ⟨hs.scope.mono fun _ hx => .inr hx, h.scopes⟩
  bound := by
    rw [bindersAll]
    exact (h.bound.of_later hl (Later.refl s')).mono (subset_append_right ..)
  value {β} ρ hd k k' hk := by
    obtain ⟨v, hv⟩ := eval_leaf call hu hs.scope hd
    have hρ : eval call ρ t = pure v := by
      rw [← hs.value ρ hd]
      exact hv ρ Agree.refl
    -- the bindings set no variable of the leaf
    have hA : ∀ x, A x → x ∉ targets bs := fun x hx hb =>
      h.bound.not_mem (fun hxa => hfit.tail.apart x hxa hx) (hl.old (hr.old x hx))
        (mem_bindersOf_of_mem_targets hb)
    have hleaf : (evalBindings call ρ bs >>= fun σ => evalAll call σ (u :: ts) >>= k σ) =
        evalBindings call ρ bs >>= fun σ => evalAll call σ ts >>= fun vs => k σ (v :: vs) := by
      refine evalBindings_congr bs fun σ hσ _ => ?_
      rw [evalAll, hv σ fun x hx => (hσ x (hA x hx)).symm]
      simp only [pure_bind, bind_assoc]
    rw [hleaf, evalAll, hρ]
    simp only [pure_bind, bind_assoc]
    exact h.value ρ hd _ _ fun σ vs hσ => hk σ (v :: vs) hσ

theorem Parts.cons_fresh [FailsAtOnce m] (hs : Stands G call A s s1 t u) (hx : Made G s s1 x.sym)
    (hxu : x.sym ∉ binders u) (h : Parts G call A s1 s' args ts bs)
    (hfit : FitAll A (t :: args)) (hold : ∀ y ∈ bindersAll (t :: args), Old G s y)
    (hr : Ready G A gen s) (hl : Later s s1) (hl' : Later s1 s') :
    Parts G call A s s' (t :: args) (.ident x :: ts) ((.ident x, u) :: bs) := by
  have hnodup := hfit.nodup
  rw [bindersAll] at hold hnodup
  have hxbs : x.sym ∉ bindersOf bs :=
    h.bound.not_mem (fun hxa => hx.1 (hold _ (mem_append_right _ hxa))) hx.2
  have hbinders : Replaces G s s' (bindersAll (t :: args)) (bindersOf ((.ident x, u) :: bs)) := by
    rw [bindersAll, bindersOf, patternSymbols_ident]
    exact (hs.bound.snoc hx hxu).append h.bound hnodup hold hl hl'
  have hxA : ∀ y, A y → y ≠ x.sym := fun y hy hyx => hx.1 (hyx ▸ hr.old y hy)
  refine ⟨?_, ?_, ?_, hbinders, ?_⟩
  · intro y hy
    rcases mem_cons.mp hy with rfl | hy
    · rfl
    · exact h.leaves y hy
  · rw [ScopedBindings]
    exact ⟨hs.scope, h.scope.mono fun _ hy => .inr hy⟩
  · rw [ScopedAll, targets_cons, also_append]
    exact ⟨by simp [Scoped, also], h.scopes.mono (also_mono (fun _ hy => .inr hy) _)⟩
  · intro β ρ hd k k' hk
    rw [evalBindings, evalAll, hs.value ρ hd]
    simp only [bind_assoc, pure_bind, Meaning.store, Meaning.lift]
    congr 1
    funext w
    have hagree : Agree A (ρ.set x.sym w) ρ := fun y hy => set_of_ne _ _ (hxA y hy)
    -- the variable keeps its value through the bindings of the other parts
    have hvar : (evalBindings call (ρ.set x.sym w) bs >>= fun σ =>
          evalAll call σ (.ident x :: ts) >>= k σ) =
        evalBindings call (ρ.set x.sym w) bs >>= fun σ =>
          evalAll call σ ts >>= fun vs => k σ (w :: vs) := by
      refine evalBindings_congr bs fun σ hσ _ => ?_
      have hσx : σ x.sym = some w := by
        rw [hσ _ fun hb => hxbs (mem_bindersOf_of_mem_targets hb), set_self]
      rw [evalAll, eval, hσx]
      simp only [pure_bind, bind_assoc]
    rw [hvar, ← evalAll_agree args hfit.tail.scope hagree]
    refine h.value _ (hagree.symm.defined hd) _ _ fun σ vs hσ => hk σ (w :: vs) fun y hy => ?_
    rw [targets_cons, patternSymbols_ident, mem_append, mem_singleton, not_or] at hy
    rw [hσ y hy.2, set_of_ne _ _ hy.1]

/-- A term in front of parts, whatever became of it. -/
theorem Parts.cons [FailsAtOnce m] {p : Place} (hp : ∀ k, p ≠ .target k)
    (hout : Outcome G call A s s1 t (some p) r) (h : Parts G call A s1 s' args ts bs)
    (hfit : FitAll A (t :: args)) (hold : ∀ y ∈ bindersAll (t :: args), Old G s y)
    (hr : Ready G A gen s) (hl : Later s s1) (hl' : Later s1 s') :
    Parts G call A s s' (t :: args) (r.term :: ts) (r.binding.toList ++ bs) := by
  cases hout with
  | leaf hu hs => exact h.cons_leaf hu hs hfit hr hl
  | target hs => exact absurd rfl (hp _)
  | fresh _ hs hx hxu => exact h.cons_fresh hs hx hxu hfit hold hr hl hl'

/-! ### Terms made of parts -/

variable (call) in
structure Composite (F : List Value → m Value) (t : Term) (parts : List Term) : Prop where
  value : ∀ ρ, eval call ρ t = evalAll call ρ parts >>= F
  binders_eq : binders t = bindersAll parts
  scoped_iff : ∀ B, Scoped B t ↔ ScopedAll B parts

def split {α : Type} (use : Value → List Value → m α) : List Value → m α
  | f :: vs => use f vs
  | [] => throw .broken

variable (call) in
theorem composite_apply (id : TermId) (fn : Term) (args : List Term) :
    Composite call (split call) (.apply id fn args) (fn :: args) where
  value ρ := by simp only [eval, evalAll, bind_assoc, pure_bind, split]
  binders_eq := by rw [binders, bindersAll]
  scoped_iff B := by rw [Scoped, ScopedAll]

variable (call) in
theorem composite_closure (id : TermId) (fn : Term) (args : List Term) :
    Composite call (split fun f vs => pure (.closure f vs)) (.closure id fn args)
      (fn :: args) where
  value ρ := by simp only [eval, evalAll, bind_assoc, pure_bind, split]
  binders_eq := by rw [binders, bindersAll]
  scoped_iff B := by rw [Scoped, ScopedAll]

omit [LawfulMonad m] in
variable (call) in
theorem composite_tuple (id : TermId) (items : List Term) :
    Composite call (fun vs => pure (.tuple vs)) (.tuple id items) items where
  value ρ := by simp only [eval]
  binders_eq := by rw [binders]
  scoped_iff B := by rw [Scoped]

variable {F : List Value → m Value}

omit [LawfulMonad m] in
theorem Fit.parts (h : Fit A t) (ht : Composite call F t ts) : FitAll A ts := by
  obtain ⟨hs, hn, ha⟩ := h
  rw [ht.binders_eq] at hn ha
  exact ⟨(ht.scoped_iff A).mp hs, hn, ha⟩

omit [LawfulMonad m] in
theorem Parts.stands (h : Parts G call A s s' args ts bs)
    (ht : Composite call F t args) (hu : Composite call F u ts) (id : TermId) :
    Stands G call A s s' t (.bind id bs u) where
  scope := by
    rw [Scoped]
    exact ⟨h.scope, (hu.scoped_iff _).mpr h.scopes⟩
  bound := by
    rw [binders, hu.binders_eq, bindersAll_leaves h.leaves, append_nil, ht.binders_eq]
    exact h.bound
  value ρ hd := by
    rw [eval, ht.value]
    simp only [hu.value]
    exact h.value ρ hd (fun _ => F) F fun _ _ _ => rfl

theorem Stands.of_bind_nil
    (h : Stands G call A s s' t (.bind id [] u)) : Stands G call A s s' t u where
  scope := by simpa [Scoped, ScopedBindings] using h.scope
  bound := by simpa [binders, bindersOf] using h.bound
  value ρ hd := by simpa [eval, evalBindings] using h.value ρ hd

theorem Parts.stands_named (h : Parts G call A s s' args ts bs)
    (ht : Composite call F t args) (hu : Composite call F u ts) (hx : Made G s s' x.sym)
    (hxbs : x.sym ∉ bindersOf bs) (id : TermId) :
    Stands G call A s s' t (.bind id (bs ++ [(.ident x, u)]) (.ident x)) := by
  have hub : binders u = [] := by rw [hu.binders_eq, bindersAll_leaves h.leaves]
  have hbinders : Replaces G s s' (binders t)
      (binders (.bind id (bs ++ [(.ident x, u)]) (.ident x))) := by
    rw [ht.binders_eq, show binders (.bind id (bs ++ [(.ident x, u)]) (.ident x)) =
      bindersOf bs ++ [x.sym] by simp [binders, bindersOf, hub]]
    exact h.bound.snoc hx hxbs
  refine ⟨?_, hbinders, ?_⟩
  · rw [Scoped, scopedBindings_append, ScopedBindings]
    refine ⟨⟨h.scope, (hu.scoped_iff _).mpr h.scopes, by simp only [ScopedBindings]⟩, ?_⟩
    simp [Scoped, also]
  · intro ρ hd
    rw [← (h.stands ht hu id).value ρ hd, eval, eval, evalBindings_append]
    simp only [bind_assoc, evalBindings, Meaning.store, Meaning.lift, pure_bind, eval, set_self,
      bind_pure]

theorem finish_outcome {base : String}
    (h : Parts G call A s s1 args ts bs) (ht : Composite call F t args)
    (hu : Composite call F u ts) (hold : ∀ x ∈ binders t, Old G s x) (hr : Ready G A gen s)
    (hl : Later s s1) (hret : Returns (finish gen place base bs u) o s1 r s') :
    Outcome G call A s s' t place r := by
  have hbs : ∀ x ∈ bindersOf bs, Old G s1 x := h.bound.old (ht.binders_eq ▸ hold) hl
  cases place with
  | none =>
    rw [finish, returns_bind] at hret
    obtain ⟨r', s2, hname, hret⟩ := hret
    rw [name, returns_bind] at hname
    obtain ⟨x, s3, hx, hname⟩ := hname
    obtain ⟨y, rfl, hy⟩ := returns_fresh (hr.later hl) hx
    rw [returns_pure] at hname
    obtain ⟨rfl, rfl⟩ := hname
    rw [returns_bind] at hret
    obtain ⟨body, s4, hbody, hret⟩ := hret
    rw [returns_binding] at hbody
    rw [returns_pure] at hret
    obtain ⟨rfl, rfl⟩ := hret
    have hl3 : Later s1 s3 := keeps_fresh _ _ _ _ _ _ hx
    rw [← hbody.1]
    refine .whole (((h.later hl3).stands_named ht hu (hy.of_later hl (Later.refl s3))
      (fun hyb => hy.1 (hbs _ hyb)) _).later ?_)
    rw [← hbody.2]
    exact Later.of_generators rfl
  | some p =>
    rw [finish] at hret
    split at hret
    next hempty =>
      obtain rfl : bs = [] := by simpa using hempty
      simp only [returns_bind, returns_pure] at hret
      obtain ⟨u', s2, ⟨rfl, rfl⟩, hname⟩ := hret
      exact name_outcome (h.stands ht hu 0).of_bind_nil hold hr hl hname
    · simp only [returns_bind, returns_binding] at hret
      obtain ⟨u', s2, ⟨rfl, rfl⟩, hname⟩ := hret
      exact name_outcome ((h.stands ht hu _).later (later_noted s1 o)) hold hr
        (hl.trans (later_noted s1 o)) hname

/-! ### Bindings and sequences -/

variable (G call) {cs : List (Term × Term)} {id' : TermId} in
/-- Bindings stand for others: they set the same variables to the same values. -/
structure StandsBindings (A : Symbol → Prop) (s s' : Session) (bs cs : List (Term × Term)) :
    Prop where
  scope : ScopedBindings A cs
  bound : Replaces G s s' (bindersOf bs) (bindersOf cs)
  targets_eq : targets cs = targets bs
  value : ∀ ρ, Defined A ρ → evalBindings call ρ cs = evalBindings call ρ bs

theorem defined_store {v : Value} {σ : Env} (hd : Defined A ρ)
    (h : Meaning.store ρ k v = .ok σ) : Defined (also A (patternSymbols k)) σ := by
  intro x hx
  by_cases hk : x ∈ patternSymbols k
  · exact (store_extends k v h).defined x hk
  · rw [(store_extends k v h).other x hk]
    exact hd x (hx.resolve_left hk)

omit [LawfulMonad m] in
theorem Outcome.stands_of_target {v : Term} (h : Outcome G call A s s' v (some (.target k)) r) :
    ∃ u, r.binding.getD (k, r.term) = (k, u) ∧ Stands G call A s s' v u := by
  cases h with
  | leaf hu hs => exact ⟨_, rfl, hs⟩
  | target hs => exact ⟨_, rfl, hs⟩
  | fresh hp => exact absurd rfl (hp k)

omit [LawfulMonad m] in
theorem standsBindings_nil : StandsBindings G call A s s' [] [] where
  scope := by simp only [ScopedBindings]
  bound := by simpa only [bindersOf] using .refl nodup_nil
  targets_eq := rfl
  value _ _ := rfl

theorem StandsBindings.cons [FailsAtOnce m] {v : Term} {rest : List (Term × Term)} (hs : Stands G call A s s1 v u)
    (h : StandsBindings G call (also A (patternSymbols k)) s1 s' rest cs)
    (hfit : FitBindings A ((k, v) :: rest)) (hold : ∀ x ∈ bindersOf ((k, v) :: rest), Old G s x)
    (hl : Later s s1) (hl' : Later s1 s') :
    StandsBindings G call A s s' ((k, v) :: rest) ((k, u) :: cs) := by
  have hn := hfit.nodup
  rw [bindersOf] at hn hold
  have hbinders : Replaces G s s' (bindersOf ((k, v) :: rest)) (bindersOf ((k, u) :: cs)) := by
    rw [bindersOf, bindersOf]
    refine Replaces.append ?_ h.bound hn hold hl hl'
    exact hs.bound.append_same hn.of_append_left (fun x hx => hold x (mem_append_left _ hx)) hl
  refine ⟨?_, hbinders, ?_, ?_⟩
  · rw [ScopedBindings]
    exact ⟨hs.scope, h.scope⟩
  · rw [targets_cons, targets_cons, h.targets_eq]
  · intro ρ hd
    rw [evalBindings, evalBindings, hs.value ρ hd]
    congr 1
    funext w
    rcases hst : Meaning.store ρ k w with e | σ
    · simp only [Meaning.lift, FailsAtOnce.throw_bind]
    · simp only [Meaning.lift, pure_bind]
      exact h.value σ (defined_store hd hst)

theorem StandsBindings.bind [FailsAtOnce m] {body : Term} (h : StandsBindings G call A s s1 bs cs)
    (hu : Stands G call (also A (targets bs)) s1 s' body u) (hfit : Fit A (.bind id bs body))
    (hold : ∀ x ∈ binders (.bind id bs body), Old G s x) (hl : Later s s1) (hl' : Later s1 s') :
    Stands G call A s s' (.bind id bs body) (.bind id' cs u) := by
  have hn := hfit.nodup
  rw [binders] at hn hold
  have hbinders : Replaces G s s' (binders (.bind id bs body)) (binders (.bind id' cs u)) := by
    rw [binders, binders]
    exact h.bound.append hu.bound hn hold hl hl'
  refine ⟨?_, hbinders, ?_⟩
  · rw [Scoped, h.targets_eq]
    exact ⟨h.scope, hu.scope⟩
  · intro ρ hd
    rw [eval, eval, h.value ρ hd]
    refine evalBindings_congr bs fun σ hσ hset => hu.value σ fun x hx => ?_
    by_cases hx' : x ∈ targets bs
    · exact hset x hx'
    · rw [hσ x hx']
      exact hd x (hx.resolve_left hx')

omit [LawfulMonad m] in
/-- What stands for a term stands for another that means the same. -/
theorem Outcome.congr {t' : Term} (h : Outcome G call A s s' t place r)
    (hb : binders t ⊆ binders t') (hv : ∀ ρ, Defined A ρ → eval call ρ t = eval call ρ t') :
    Outcome G call A s s' t' place r := by
  have hstands : ∀ {u : Term}, Stands G call A s s' t u → Stands G call A s s' t' u := fun hs =>
    ⟨hs.scope, hs.bound.mono hb, fun ρ hd => (hs.value ρ hd).trans (hv ρ hd)⟩
  cases h with
  | whole hs => exact .whole (hstands hs)
  | leaf hu hs => exact .leaf hu (hstands hs)
  | target hs => exact .target (hstands hs)
  | fresh hp hs hx hxu => exact .fresh hp (hstands hs) hx hxu

/-- A sequence with one step that matters is its last step. -/
theorem evalSteps_leaf (ht : isLeaf t = true) (hs : Scoped A t) (hd : Defined A ρ) :
    evalSteps call ρ (t :: u :: ts) = evalSteps call ρ (u :: ts) := by
  obtain ⟨v, hv⟩ := eval_leaf call ht hs hd
  rw [evalSteps_cons_cons, hv ρ Agree.refl, pure_bind]

theorem countSteps_pos (t : Term) (ts : List Term) : 0 < countSteps (t :: ts) := by
  induction ts generalizing t with
  | nil => simp [countSteps]
  | cons u ts ih =>
    rw [countSteps]
    · have := ih u
      omega
    · simp

theorem countSteps_cons_cons (t u : Term) (ts : List Term) :
    countSteps (t :: u :: ts) = (if isLeaf t then 0 else 1) + countSteps (u :: ts) := by
  rw [countSteps]
  simp

variable (G call) {rest : List Term} in
/-- Bindings of variables that stand for nothing compute the steps of a sequence. -/
structure StandsSteps (A : Symbol → Prop) (s s' : Session) (xs : List Ident) (steps : List Term)
    (bs : List (Term × Term)) : Prop where
  scope : ScopedBindings A bs
  bound : Replaces G s s' (bindersAll steps ++ xs.map (·.sym)) (bindersOf bs)
  targets_eq : targets bs = xs.map (·.sym)
  value : ∀ ρ, Defined A ρ → ∀ x, xs.getLast? = some x →
    (evalBindings call ρ bs >>= fun σ => eval call σ (.ident x)) = evalSteps call ρ steps

/-- Variables that are new where some steps are named. -/
structure NewTo (A : Symbol → Prop) (s : Session) (xs : List Ident) (steps : List Term) :
    Prop where
  nodup : (bindersAll steps ++ xs.map (·.sym)).Nodup
  old : ∀ x ∈ bindersAll steps ++ xs.map (·.sym), Old G s x
  apart : ∀ x ∈ xs.map (·.sym), ¬ A x

theorem NewTo.first (h : NewTo (G := G) A s xs (t :: steps)) : ∀ y ∈ binders t, Old G s y :=
  fun y hy => h.old y (mem_append_left _ (by
    rw [bindersAll]
    exact mem_append_left _ hy))

theorem NewTo.tail (h : NewTo (G := G) A s xs (t :: steps)) : NewTo (G := G) A s xs steps := by
  obtain ⟨hn, ho, ha⟩ := h
  rw [bindersAll, append_assoc] at hn ho
  exact ⟨hn.of_append_right, fun x hx => ho x (mem_append_right _ hx), ha⟩

/-- Variables for the other steps, once there is one for the first. -/
theorem NewTo.rest (h : NewTo (G := G) A s (x :: xs) (t :: steps)) (hl : Later s s1) :
    NewTo (G := G) A s1 xs steps := by
  obtain ⟨hn, ho, ha⟩ := h.tail
  rw [map_cons] at hn ho ha
  have hsub : bindersAll steps ++ xs.map (·.sym) <+ bindersAll steps ++ x.sym :: xs.map (·.sym) :=
    (sublist_cons_self ..).append_left _
  exact ⟨hn.sublist hsub, fun y hy => hl.old (ho y (hsub.subset hy)),
    fun y hy => ha y (mem_cons_of_mem _ hy)⟩

omit [LawfulMonad m] in
theorem standsSteps_nil : StandsSteps G call A s s' [] [] [] where
  scope := by simp only [ScopedBindings]
  bound := by simpa only [bindersOf] using .refl nodup_nil
  targets_eq := rfl
  value _ _ _ h := by simp at h

theorem standsSteps_last (hs : Stands G call A s s' t u) (hnew : NewTo (G := G) A s [x] [t])
    (hl : Later s s') : StandsSteps G call A s s' [x] [t] [(.ident x, u)] := by
  obtain ⟨hn, ho, _⟩ := hnew
  simp only [bindersAll, append_nil, map_cons, map_nil] at hn ho
  refine ⟨?_, ?_, ?_, ?_⟩
  · simp only [ScopedBindings]
    exact ⟨hs.scope, trivial⟩
  · simpa [bindersAll, bindersOf] using hs.bound.append_same hn ho hl
  · simp
  · intro ρ hd y hy
    obtain rfl : x = y := by simpa using hy
    simp only [evalBindings, bind_assoc, Meaning.store, Meaning.lift, pure_bind, eval, set_self,
      bind_pure, evalSteps]
    exact hs.value ρ hd

theorem StandsSteps.cons_leaf (h : StandsSteps G call A s s' xs (u :: rest) bs)
    (ht : isLeaf t = true) (hfit : FitAll A (t :: u :: rest)) :
    StandsSteps G call A s s' xs (t :: u :: rest) bs where
  scope := h.scope
  bound := by
    rw [bindersAll, binders_leaf ht, nil_append]
    exact h.bound
  targets_eq := h.targets_eq
  value ρ hd x hx := by
    rw [evalSteps_leaf ht hfit.head.scope hd]
    exact h.value ρ hd x hx

omit [LawfulMonad m] in
theorem StandsSteps.stands (h : StandsSteps G call A s1 s' xs steps bs)
    (hmade : ∀ y ∈ xs.map (·.sym), Made G s s1 y) (hlast : xs.getLast? = some x) (hl : Later s s1)
    (hl' : Later s1 s') : Stands G call A s s' (.sequence id steps) (.bind id' bs (.ident x)) := by
  have hx : x.sym ∈ xs.map (·.sym) := mem_map_of_mem (mem_of_getLast? hlast)
  refine ⟨?_, ⟨?_, ?_⟩, ?_⟩
  · rw [Scoped, Scoped, h.targets_eq]
    exact ⟨h.scope, .inl hx⟩
  · simpa [binders] using h.bound.nodup
  · intro y hy
    simp only [binders, append_nil] at hy ⊢
    rcases h.bound.origin y hy with hy | hy
    · exact (mem_append.mp hy).imp_right fun hy => (hmade y hy).of_later (Later.refl s) hl'
    · exact .inr (hy.of_later hl (Later.refl s'))
  · intro ρ hd
    rw [eval, h.value ρ hd x hlast, eval]

theorem StandsSteps.cons [FailsAtOnce m] {t' : Term} (hs : Stands G call A s s1 t u)
    (h : StandsSteps G call A s1 s' xs (t' :: rest) bs) (hxs : xs ≠ [])
    (hnew : NewTo (G := G) A s (x :: xs) (t :: t' :: rest)) (hfit : FitAll A (t :: t' :: rest))
    (hl : Later s s1) (hl' : Later s1 s') :
    StandsSteps G call A s s' (x :: xs) (t :: t' :: rest) ((.ident x, u) :: bs) := by
  -- the variable of the first step is bound before those of the others
  have hperm : bindersAll (t :: t' :: rest) ++ (x :: xs).map (·.sym) ~
      (binders t ++ [x.sym]) ++ (bindersAll (t' :: rest) ++ xs.map (·.sym)) := by
    rw [bindersAll, append_assoc, append_assoc, map_cons]
    exact perm_middle.append_left _
  have hn := hperm.nodup_iff.mp hnew.nodup
  have hold y hy := hnew.old y (hperm.mem_iff.mpr hy)
  have hbinders := (hs.bound.append_same hn.of_append_left
    (fun y hy => hold y (mem_append_left _ hy)) hl).append h.bound hn hold hl hl'
  refine ⟨?_, ?_, ?_, ?_⟩
  · rw [ScopedBindings]
    exact ⟨hs.scope, h.scope.mono fun _ hy => .inr hy⟩
  · rw [bindersOf, patternSymbols_ident]
    exact hbinders.mono hperm.symm.subset
  · rw [targets_cons, h.targets_eq]
    simp
  · intro ρ hd y hy
    have hlast : xs.getLast? = some y := by
      rwa [getLast?_cons_of_ne_nil hxs] at hy
    rw [evalBindings, evalSteps_cons_cons, hs.value ρ hd]
    simp only [bind_assoc, Meaning.store, Meaning.lift, pure_bind]
    congr 1
    funext w
    have hagree : Agree A (ρ.set x.sym w) ρ := fun z hz =>
      set_of_ne _ _ fun hzx => hnew.apart x.sym (mem_cons_self ..) (hzx ▸ hz)
    rw [h.value _ (hagree.symm.defined hd) y hlast]
    exact evalSteps_agree _ hfit.tail.scope hagree

theorem returns_freshNothings :
    ∀ {n : Nat} {s s' : Session} {xs : List Ident}, Distinct G s → G Fixed.nothing.id →
      Returns ((List.replicate n ()).mapM fun _ => freshNothing) o s xs s' →
      xs.length = n ∧ (xs.map (·.sym)).Nodup ∧ ∀ x ∈ xs.map (·.sym), Made G s s' x
  | 0, s, s', xs, _, _, h => by
    rw [replicate_zero, mapM_nil, returns_pure] at h
    rw [← h.1]
    simp
  | n + 1, s, s', xs, hd, hG, h => by
    have hl : Later s s' := keeps_mapM (fun _ => keeps_freshNothing) _ _ _ _ _ h
    simp only [replicate_succ, mapM_cons, returns_bind, returns_pure] at h
    obtain ⟨x, s1, hx, ys, s2, hys, rfl, rfl⟩ := h
    have hl1 : Later s s1 := keeps_freshNothing _ _ _ _ hx
    have hl2 : Later s1 s2 := keeps_mapM (fun _ => keeps_freshNothing) _ _ _ _ _ hys
    obtain ⟨hlen, hnd, hmade⟩ := returns_freshNothings (hl1.distinct hd) hG hys
    have hxm : Made G s s1 x.sym := by
      rw [freshNothing, returns_bind] at hx
      obtain ⟨y, s3, hy, hx⟩ := hx
      rw [returns_freshPlain] at hy
      rw [returns_ident] at hx
      obtain ⟨rfl, rfl⟩ := hy
      obtain ⟨rfl, rfl⟩ := hx
      exact (made_afterPlain hG hd).of_later (Later.refl s) (Later.of_generators rfl)
    refine ⟨by simp [hlen], ?_, ?_⟩
    · rw [map_cons, nodup_cons]
      exact ⟨fun hmem => (hmade _ hmem).1 hxm.2, hnd⟩
    · intro y hy
      rw [map_cons, mem_cons] at hy
      rcases hy with rfl | hy
      · exact hxm.of_later (Later.refl s) hl2
      · exact (hmade y hy).of_later hl1 (Later.refl s2)

/-! ### All terms -/

mutual

theorem nameAll_outcome [FailsAtOnce m] {A : Symbol → Prop} {place : Option Place}
    {o : Option Origin} {s s' : Session} {r : Named} (t : Term) (hfit : Fit A t)
    (hold : ∀ x ∈ binders t, Old G s x) (hr : Ready G A gen s)
    (h : Returns (nameAll gen place t) o s r s') : Outcome G call A s s' t place r := by
  cases t with
  | ident | literal =>
    rw [nameAll, returns_pure] at h
    rw [← h.1]
    cases place with
    | none => exact .whole (Stands.refl hfit)
    | some p => exact .leaf rfl (Stands.refl hfit)
  | lambda id params body =>
    simp only [nameAll, about, returns_about, returns_bind] at h
    obtain ⟨l, s1, hlam, b, s2, hb, new, s3, hnew, h⟩ := h
    have hl : Later s s3 := ((keeps_getLambda (R := Later) id _ _ _ _ hlam).trans
      (keeps_nameAll _ _ _ _ _ _ _ hb)).trans (keeps_newLambda _ _ _ _ _ _ _ hnew)
    have hs : Stands G call A s s3 (.lambda id params body) (.lambda new params b.term) := by
      refine ⟨by simp only [Scoped], ?_, fun ρ _ => by rw [eval, eval]⟩
      simpa only [binders] using .refl nodup_nil
    exact name_outcome hs hold hr hl h
  | bind id bs body =>
    simp only [nameAll, about, returns_about, returns_bind] at h
    obtain ⟨cs, s1, hcs, b, s2, hb, u, s3, hu, h⟩ := h
    have hl1 : Later s s1 := keeps_nameBindings _ _ _ _ _ _ hcs
    have hl2 : Later s1 s2 := keeps_nameAll _ _ _ _ _ _ _ hb
    have hold' := hold
    simp only [binders, mem_append] at hold'
    have hbs := nameBindings_outcome bs hfit.bindings (fun x hx => hold' x (.inl hx)) hr hcs
    have hr1 : Ready G (also A (targets bs)) gen s1 := (hr.later hl1).also fun x hx =>
      hl1.old (hold' x (.inl (mem_bindersOf_of_mem_targets hx)))
    have hbody : Outcome G call (also A (targets bs)) s1 s2 body none b :=
      nameAll_outcome body hfit.body (fun x hx => hl1.old (hold' x (.inr hx))) hr1 hb
    cases hbody with
    | whole hbody =>
      rw [returns_binding] at hu
      obtain ⟨rfl, rfl⟩ := hu
      exact name_outcome ((hbs.bind hbody hfit hold hl1 hl2).later (later_noted s2 _)) hold hr
        ((hl1.trans hl2).trans (later_noted s2 _)) h
  | apply id fn args =>
    rw [nameAll, about, returns_about, returns_bind] at h
    obtain ⟨f, s1, hf, h⟩ := h
    have hold' := hold
    simp only [binders, mem_append] at hold'
    have hl1 : Later s s1 := keeps_nameAll _ _ _ _ _ _ _ hf
    have hfn := nameAll_outcome fn hfit.apply.1 (fun x hx => hold' x (.inl hx)) hr hf
    split at h
    next x hfx =>
      rw [returns_bind] at h
      obtain ⟨⟨ts, bs⟩, s2, hparts, h⟩ := h
      have hl2 : Later s1 s2 := keeps_nameParts _ _ _ _ _ _ _ _ hparts
      have hps := nameParts_outcome args hfit.apply.2 (fun x hx => hl1.old (hold' x (.inr hx)))
        (hr.later hl1) hparts
      simp only [returns_bind, returns_apply] at h
      obtain ⟨u, s3, ⟨rfl, rfl⟩, h⟩ := h
      have hc := composite_apply call id fn args
      have hall := hps.cons (by simp) hfn (hfit.parts hc) (hc.binders_eq ▸ hold) hr hl1 hl2
      exact finish_outcome (hall.later (later_noted s2 _)) hc (composite_apply call _ _ _) hold hr
        ((hl1.trans hl2).trans (later_noted s2 _)) h
    · exact (returns_throw.mp h).elim
  | tuple id items =>
    rw [nameAll, about, returns_about, returns_bind] at h
    obtain ⟨⟨ts, bs⟩, s1, hparts, h⟩ := h
    have hl1 : Later s s1 := keeps_nameParts _ _ _ _ _ _ _ _ hparts
    have hps := nameParts_outcome items hfit.tuple (by rwa [binders] at hold) hr hparts
    simp only [returns_bind, returns_tuple] at h
    obtain ⟨u, s2, ⟨rfl, rfl⟩, h⟩ := h
    exact finish_outcome (hps.later (later_noted s1 _)) (composite_tuple call id items)
      (composite_tuple call _ _) hold hr (hl1.trans (later_noted s1 _)) h
  | closure id fn args =>
    rw [nameAll, about, returns_about, returns_bind] at h
    obtain ⟨f, s1, hf, h⟩ := h
    have hold' := hold
    simp only [binders, mem_append] at hold'
    have hl1 : Later s s1 := keeps_nameAll _ _ _ _ _ _ _ hf
    have hfn := nameAll_outcome fn hfit.closure.1 (fun x hx => hold' x (.inl hx)) hr hf
    rw [returns_bind] at h
    obtain ⟨⟨ts, bs⟩, s2, hparts, h⟩ := h
    have hl2 : Later s1 s2 := keeps_nameParts _ _ _ _ _ _ _ _ hparts
    have hps := nameParts_outcome args hfit.closure.2 (fun x hx => hl1.old (hold' x (.inr hx)))
      (hr.later hl1) hparts
    simp only [returns_bind, returns_closure] at h
    obtain ⟨u, s3, ⟨rfl, rfl⟩, h⟩ := h
    have hc := composite_closure call id fn args
    have hall := hps.cons (by simp) hfn (hfit.parts hc) (hc.binders_eq ▸ hold) hr hl1 hl2
    exact finish_outcome (hall.later (later_noted s2 _)) hc (composite_closure call _ _ _) hold hr
      ((hl1.trans hl2).trans (later_noted s2 _)) h
  | sequence id steps =>
    rw [nameAll, about, returns_about] at h
    have hold' : ∀ x ∈ bindersAll steps, Old G s x := by rwa [binders] at hold
    split at h
    · exact (returns_throw.mp h).elim
    next hcount => exact nameLast_outcome steps hfit.sequence hold' hr hcount h
    next n h0 h1 =>
      simp only [returns_bind] at h
      obtain ⟨xs, s1, hxs, bs, s2, hbs, h⟩ := h
      obtain ⟨hlen, hnd, hmade⟩ := returns_freshNothings hr.distinct hr.nothing hxs
      have hl1 : Later s s1 := keeps_mapM (fun _ => keeps_freshNothing) _ _ _ _ _ hxs
      have hl2 : Later s1 s2 := keeps_nameSteps _ _ _ _ _ _ _ hbs
      have hnew : NewTo (G := G) A s1 xs steps := by
        refine ⟨nodup_append'.mpr ⟨hfit.sequence.nodup, hnd, fun x hb hx => ?_⟩, fun x hx => ?_,
          fun x hx hA => (hmade x hx).1 (hr.old x hA)⟩
        · exact (hmade x hx).1 (hold' x hb)
        · exact (mem_append.mp hx).elim (fun hx => hl1.old (hold' x hx)) fun hx => (hmade x hx).2
      have hsteps := nameSteps_outcome steps hfit.sequence (hr.later hl1) hnew hlen hbs
      split at h
      next x hlast =>
        simp only [returns_bind, returns_binding] at h
        obtain ⟨u, s3, ⟨rfl, rfl⟩, h⟩ := h
        exact name_outcome ((hsteps.stands hmade hlast hl1 hl2).later (later_noted s2 _)) hold hr
          ((hl1.trans hl2).trans (later_noted s2 _)) h
      · exact (returns_throw.mp h).elim
  | assign | group =>
    rw [nameAll] at h
    · exact (returns_throw.mp h).elim
    all_goals simp
termination_by structural t

theorem nameLast_outcome [FailsAtOnce m] {A : Symbol → Prop} {place : Option Place}
    {o : Option Origin} {s s' : Session} {r : Named} {id : TermId} (steps : List Term)
    (hfit : FitAll A steps) (hold : ∀ x ∈ bindersAll steps, Old G s x) (hr : Ready G A gen s)
    (hcount : countSteps steps = 1) (h : Returns (nameLast gen place steps) o s r s') :
    Outcome G call A s s' (.sequence id steps) place r := by
  match steps with
  | [] => simp [countSteps] at hcount
  | [t] =>
    rw [nameLast] at h
    have hold' : ∀ x ∈ binders t, Old G s x := by simpa [bindersAll] using hold
    refine (nameAll_outcome t hfit.head hold' hr h).congr ?_ fun ρ _ => ?_
    · simp [binders, bindersAll]
    · rw [eval, evalSteps]
  | t :: u :: rest =>
    rw [countSteps_cons_cons] at hcount
    have hpos := countSteps_pos u rest
    have ht : isLeaf t = true := by
      by_contra hne
      rw [if_neg hne] at hcount
      omega
    rw [if_pos ht, Nat.zero_add] at hcount
    rw [nameLast] at h
    · have hold' : ∀ x ∈ bindersAll (u :: rest), Old G s x := fun x hx => hold x (by
        rw [bindersAll]
        exact mem_append_right _ hx)
      have hlast : Outcome G call A s s' (.sequence id (u :: rest)) place r :=
        nameLast_outcome (u :: rest) hfit.tail hold' hr hcount h
      refine hlast.congr ?_ ?_
      · intro x hx
        rw [binders] at hx ⊢
        rw [bindersAll]
        exact mem_append_right _ hx
      · intro ρ hd
        rw [eval, eval, evalSteps_leaf ht hfit.head.scope hd]
    · simp
termination_by structural steps

theorem nameSteps_outcome [FailsAtOnce m] {A : Symbol → Prop} {o : Option Origin}
    {s s' : Session} {xs : List Ident} {bs : List (Term × Term)} (steps : List Term)
    (hfit : FitAll A steps) (hr : Ready G A gen s)
    (hnew : NewTo (G := G) A s xs steps) (hlen : xs.length = countSteps steps)
    (h : Returns (nameSteps gen xs steps) o s bs s') : StandsSteps G call A s s' xs steps bs := by
  match steps with
  | [] =>
    obtain rfl : xs = [] := length_eq_zero_iff.mp hlen
    rw [nameSteps, returns_pure] at h
    · rw [← h.1]
      exact standsSteps_nil
    all_goals simp
  | [t] =>
    obtain ⟨x, rfl⟩ := length_eq_one_iff.mp hlen
    rw [nameSteps, returns_bind] at h
    obtain ⟨r, s1, ht, h⟩ := h
    rw [returns_bind] at h
    obtain ⟨cs, s2, hcs, h⟩ := h
    rw [nameSteps, returns_pure] at hcs
    · rw [returns_pure] at h
      obtain ⟨rfl, rfl⟩ := h
      obtain ⟨rfl, rfl⟩ := hcs
      obtain ⟨u, hu, hs⟩ := (nameAll_outcome t hfit.head hnew.first hr ht).stands_of_target
      rw [hu]
      exact standsSteps_last hs hnew (keeps_nameAll _ _ _ _ _ _ _ ht)
    all_goals simp
  | t :: u :: rest =>
    rw [countSteps_cons_cons] at hlen
    have hpos := countSteps_pos u rest
    obtain ⟨x, xs, rfl⟩ : ∃ x ys, xs = x :: ys := exists_cons_of_length_pos (by omega)
    rw [nameSteps] at h
    · split at h
      next ht =>
        rw [if_pos ht, Nat.zero_add] at hlen
        exact (nameSteps_outcome (u :: rest) hfit.tail hr hnew.tail hlen h).cons_leaf ht hfit
      next ht =>
        rw [if_neg ht, length_cons] at hlen
        simp only [returns_bind, returns_pure] at h
        obtain ⟨r, s1, hr1, cs, s2, hcs, rfl, rfl⟩ := h
        have hl1 : Later s s1 := keeps_nameAll _ _ _ _ _ _ _ hr1
        have hl2 : Later s1 s2 := keeps_nameSteps _ _ _ _ _ _ _ hcs
        obtain ⟨v, hv, hs⟩ := (nameAll_outcome t hfit.head hnew.first hr hr1).stands_of_target
        have hrest := nameSteps_outcome (u :: rest) hfit.tail (hr.later hl1) (hnew.rest hl1)
          (by omega) hcs
        have hne : xs ≠ [] := by
          rintro rfl
          simp at hlen
          omega
        rw [hv]
        exact hrest.cons hs hne hnew hfit hl1 hl2
    · simp
termination_by structural steps

theorem nameParts_outcome [FailsAtOnce m] {A : Symbol → Prop} {base : String} {n : Nat}
    {o : Option Origin} {s s' : Session} {ts : List Term} {bs : List (Term × Term)}
    (args : List Term) (hfit : FitAll A args) (hold : ∀ x ∈ bindersAll args, Old G s x)
    (hr : Ready G A gen s) (h : Returns (nameParts gen base n args) o s (ts, bs) s') :
    Parts G call A s s' args ts bs := by
  cases args with
  | nil =>
    rw [nameParts, returns_pure] at h
    obtain ⟨h, rfl⟩ := h
    injection h with h1 h2
    subst h1 h2
    exact parts_nil
  | cons t args =>
    simp only [nameParts, returns_bind, returns_pure] at h
    obtain ⟨r, s1, ht, ⟨us, cs⟩, s2, hargs, h, rfl⟩ := h
    injection h with h1 h2
    subst h1 h2
    have hold' := hold
    simp only [bindersAll, mem_append] at hold'
    have hl1 : Later s s1 := keeps_nameAll _ _ _ _ _ _ _ ht
    have hl2 : Later s1 s2 := keeps_nameParts _ _ _ _ _ _ _ _ hargs
    have ht' := nameAll_outcome t hfit.head (fun x hx => hold' x (.inl hx)) hr ht
    have hargs' := nameParts_outcome args hfit.tail (fun x hx => hl1.old (hold' x (.inr hx)))
      (hr.later hl1) hargs
    exact hargs'.cons (by simp) ht' hfit hold hr hl1 hl2
termination_by structural args

theorem nameBindings_outcome [FailsAtOnce m] {A : Symbol → Prop} {o : Option Origin}
    {s s' : Session} {cs : List (Term × Term)} (bs : List (Term × Term)) (hfit : FitBindings A bs)
    (hold : ∀ x ∈ bindersOf bs, Old G s x) (hr : Ready G A gen s)
    (h : Returns (nameBindings gen bs) o s cs s') : StandsBindings G call A s s' bs cs := by
  match bs with
  | [] =>
    rw [nameBindings, returns_pure] at h
    rw [← h.1]
    exact standsBindings_nil
  | (k, v) :: rest =>
    simp only [nameBindings, returns_bind, returns_pure] at h
    obtain ⟨r, s1, hv, ds, s2, hrest, rfl, rfl⟩ := h
    have hold' := hold
    simp only [bindersOf, mem_append] at hold'
    have hl1 : Later s s1 := keeps_nameAll _ _ _ _ _ _ _ hv
    have hl2 : Later s1 s2 := keeps_nameBindings _ _ _ _ _ _ hrest
    have hr1 : Ready G (also A (patternSymbols k)) gen s1 := (hr.later hl1).also fun x hx =>
      hl1.old (hold' x (.inl (.inr hx)))
    have hrest' := nameBindings_outcome rest hfit.rest (fun x hx => hl1.old (hold' x (.inr hx)))
      hr1 hrest
    obtain ⟨u, hu, hs⟩ := (nameAll_outcome v hfit.value
      (fun x hx => hold' x (.inl (.inl hx))) hr hv).stands_of_target
    rw [hu]
    exact hrest'.cons hs hfit hold hl1 hl2
termination_by structural bs

end

end Outcomes

end DiffLang.Normal
