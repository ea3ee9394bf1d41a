import DiffLang.Proofs.Term.NormalForm

/-!
# The shape of A-normal form

Naming leaves bindings inside bindings, but what is bound is a call, a tuple or a partial application
of variables and literals, or one of these alone (`Nested`); a body that is not named ends in a
variable or a literal (`Ends`). Flattening then leaves a single list of bindings (`Flat`). Functions
inside a function stay what they are, and count as one value.

No literal comes in on the way, and the variables in scope stay in scope.

Main statement: `normal_ofLambda`.
-/

namespace DiffLang.Normal

open Freshness Growth Meaning Run Scoping Session List

mutual

def literals : Term → List (TermId × Value)
  | .literal id v => [(id, v)]
  | .bind _ bindings body => literalsOf bindings ++ literals body
  | .apply _ fn args => literals fn ++ literalsAll args
  | .closure _ fn args => literals fn ++ literalsAll args
  | .tuple _ items => literalsAll items
  | .sequence _ steps => literalsAll steps
  | .ident _ | .lambda .. | .assign .. | .group .. => []

def literalsAll : List Term → List (TermId × Value)
  | [] => []
  | t :: ts => literals t ++ literalsAll ts

def literalsOf : List (Term × Term) → List (TermId × Value)
  | [] => []
  | (_, v) :: rest => literals v ++ literalsOf rest

end

def Leaf (L : List (TermId × Value)) : Term → Prop
  | .ident _ => True
  | .literal id v => (id, v) ∈ L
  | _ => False

/-- A leaf, a composite of leaves, or a function. -/
inductive Simple (L : List (TermId × Value)) : Term → Prop
  | leaf {t : Term} (h : Leaf L t) : Simple L t
  | apply {id : TermId} {fn : Term} {args : List Term} (hfn : Leaf L fn)
      (hargs : ∀ t ∈ args, Leaf L t) : Simple L (.apply id fn args)
  | closure {id : TermId} {fn : Term} {args : List Term} (hfn : Leaf L fn)
      (hargs : ∀ t ∈ args, Leaf L t) : Simple L (.closure id fn args)
  | tuple {id : TermId} {items : List Term} (h : ∀ t ∈ items, Leaf L t) :
      Simple L (.tuple id items)
  | function {id : TermId} {params : List Ident} {body : Term} : Simple L (.lambda id params body)

/-- A simple term after bindings, to values of this kind. -/
inductive Nested (L : List (TermId × Value)) : Term → Prop
  | simple {t : Term} (h : Simple L t) : Nested L t
  | bind {id : TermId} {bs : List (Term × Term)} {body : Term} (hbs : ∀ b ∈ bs, Nested L b.2)
      (hbody : Nested L body) : Nested L (.bind id bs body)

/-- What comes after all bindings is a leaf or a function. -/
inductive Ends (L : List (TermId × Value)) : Term → Prop
  | leaf {t : Term} (h : Leaf L t) : Ends L t
  | function {id : TermId} {params : List Ident} {body : Term} : Ends L (.lambda id params body)
  | bind {id : TermId} {bs : List (Term × Term)} {body : Term} (h : Ends L body) :
      Ends L (.bind id bs body)

/-- Bindings of simple terms, and a simple term. -/
def Flat (L : List (TermId × Value)) (t : Term) : Prop :=
  (∀ b ∈ (open? t).1, Simple L b.2) ∧ Simple L (open? t).2

variable {L : List (TermId × Value)}

theorem leaf_ident (x : Ident) : Leaf L (.ident x) := trivial

/-! ## Naming -/

variable {t : Term}

section Naming

variable {gen : Option GeneratorId} {o : Option Origin} {s s' : Session}

inductive Shaped (L : List (TermId × Value)) : Option Place → Named → Prop
  | whole {u : Term} (h : Nested L u) (he : Ends L u) : Shaped L none ⟨u, none⟩
  | leaf {p : Place} {u : Term} (h : Leaf L u) : Shaped L (some p) ⟨u, none⟩
  | target {k u : Term} (h : Nested L u) : Shaped L (some (.target k)) ⟨k, some (k, u)⟩
  | fresh {p : Place} {x : Ident} {u : Term} (hp : ∀ k, p ≠ .target k) (h : Nested L u) :
      Shaped L (some p) ⟨.ident x, some (.ident x, u)⟩

variable {place : Option Place} {r : Named}

theorem Shaped.of_leaf (h : Leaf L t) : Shaped L place ⟨t, none⟩ := by
  cases place with
  | none => exact .whole (.simple (.leaf h)) (.leaf h)
  | some p => exact .leaf h

theorem Shaped.term {p : Place} (h : Shaped L (some p) r) (hp : ∀ k, p ≠ .target k) :
    Leaf L r.term ∧ ∀ b ∈ r.binding.toList, Nested L b.2 := by
  cases h with
  | leaf h => exact ⟨h, by simp⟩
  | target h => exact (hp _ rfl).elim
  | fresh _ h => exact ⟨leaf_ident _, by simpa using h⟩

theorem Shaped.binding {k : Term} (h : Shaped L (some (.target k)) r) :
    Nested L (r.binding.getD (k, r.term)).2 := by
  cases h with
  | leaf h => exact .simple (.leaf h)
  | target h => exact h
  | fresh hp => exact (hp k rfl).elim

theorem fresh_ident {label : String} (h : Returns (fresh gen label) o s t s') :
    ∃ x : Ident, t = .ident x := by
  cases gen with
  | none => exact (returns_throw.mp h).elim
  | some g =>
    simp only [fresh, returns_bind, returns_symbolTerm] at h
    obtain ⟨x, s1, -, rfl, -⟩ := h
    exact ⟨_, rfl⟩

theorem name_shape {u : Term} {suggested : String} (hu : Nested L u) (he : place = none → Ends L u)
    (h : Returns (name gen place u suggested) o s r s') : Shaped L place r := by
  cases place with
  | none =>
    rw [name, returns_pure] at h
    rw [← h.1]
    exact .whole hu (he rfl)
  | some p =>
    cases p with
    | target k =>
      rw [name, returns_pure] at h
      rw [← h.1]
      exact .target hu
    | label | «open» =>
      simp only [name, returns_bind, returns_pure] at h
      obtain ⟨t, s1, ht, rfl, -⟩ := h
      obtain ⟨x, rfl⟩ := fresh_ident ht
      exact .fresh (by simp) hu

theorem finish_shape {base : String} {bs : List (Term × Term)} (hbs : ∀ b ∈ bs, Nested L b.2)
    (ht : Simple L t) (h : Returns (finish gen place base bs t) o s r s') : Shaped L place r := by
  cases place with
  | none =>
    rw [finish, returns_bind] at h
    obtain ⟨q, s1, hq, h⟩ := h
    obtain ⟨hterm, hbinding⟩ := (name_shape (.simple ht) (by simp) hq).term (by simp)
    simp only [returns_bind, returns_binding, returns_pure] at h
    obtain ⟨_, _, ⟨rfl, -⟩, rfl, -⟩ := h
    refine .whole (.bind (fun b hb => ?_) (.simple (.leaf hterm))) (.bind (.leaf hterm))
    exact (mem_append.mp hb).elim (hbs b) (hbinding b)
  | some p =>
    unfold finish at h
    dsimp only at h
    split at h
    · simp only [returns_bind, returns_pure] at h
      obtain ⟨_, s1, ⟨rfl, -⟩, h⟩ := h
      exact name_shape (.simple ht) (by simp) h
    · simp only [returns_bind, returns_binding] at h
      obtain ⟨_, s1, ⟨rfl, -⟩, h⟩ := h
      exact name_shape (.bind hbs (.simple ht)) (by simp) h

mutual

theorem nameAll_shape (t : Term) {place : Option Place}
    {o : Option Origin} {s s' : Session} {r : Named} (hL : ∀ c ∈ literals t, c ∈ L)
    (h : Returns (nameAll gen place t) o s r s') : Shaped L place r := by
  cases t with
  | ident x =>
    rw [nameAll, returns_pure] at h
    rw [← h.1]
    exact .of_leaf (leaf_ident x)
  | literal id v =>
    rw [nameAll, returns_pure] at h
    rw [← h.1]
    exact .of_leaf (hL (id, v) (by simp [literals]))
  | lambda id params body =>
    simp only [nameAll, about, returns_about, returns_bind] at h
    obtain ⟨l, s1, -, b, s2, -, new, s3, -, h⟩ := h
    exact name_shape (.simple .function) (fun _ => .function) h
  | bind id bs body =>
    rw [literals, forall_mem_append] at hL
    simp only [nameAll, about, returns_about, returns_bind, returns_binding] at h
    obtain ⟨cs, s1, hcs, b, s2, hb, _, s3, ⟨rfl, -⟩, h⟩ := h
    have hcs' := nameBindings_shape bs hL.1 hcs
    cases nameAll_shape body hL.2 hb with
    | whole hbody hend => exact name_shape (.bind hcs' hbody) (fun _ => .bind hend) h
  | apply id fn args =>
    rw [literals, forall_mem_append] at hL
    rw [nameAll, about, returns_about, returns_bind] at h
    obtain ⟨f, s1, hf, h⟩ := h
    obtain ⟨hfn, hfb⟩ := (nameAll_shape fn hL.1 hf).term (by simp)
    split at h
    next x hx =>
      simp only [returns_bind, returns_apply] at h
      obtain ⟨⟨ts, bs⟩, s2, hparts, _, s3, ⟨rfl, -⟩, h⟩ := h
      obtain ⟨hts, hbs⟩ := nameParts_shape args hL.2 hparts
      exact finish_shape (fun b hb => (mem_append.mp hb).elim (hfb b) (hbs b)) (.apply hfn hts) h
    · exact (returns_throw.mp h).elim
  | tuple id items =>
    rw [literals] at hL
    simp only [nameAll, about, returns_about, returns_bind, returns_tuple] at h
    obtain ⟨⟨ts, bs⟩, s1, hparts, _, s2, ⟨rfl, -⟩, h⟩ := h
    obtain ⟨hts, hbs⟩ := nameParts_shape items hL hparts
    exact finish_shape hbs (.tuple hts) h
  | closure id fn args =>
    rw [literals, forall_mem_append] at hL
    simp only [nameAll, about, returns_about, returns_bind, returns_closure] at h
    obtain ⟨f, s1, hf, ⟨ts, bs⟩, s2, hparts, _, s3, ⟨rfl, -⟩, h⟩ := h
    obtain ⟨hfn, hfb⟩ := (nameAll_shape fn hL.1 hf).term (by simp)
    obtain ⟨hts, hbs⟩ := nameParts_shape args hL.2 hparts
    exact finish_shape (fun b hb => (mem_append.mp hb).elim (hfb b) (hbs b)) (.closure hfn hts) h
  | sequence id steps =>
    rw [literals] at hL
    rw [nameAll, about, returns_about] at h
    split at h
    · exact (returns_throw.mp h).elim
    · exact nameLast_shape steps hL h
    · simp only [returns_bind] at h
      obtain ⟨xs, s1, -, bs, s2, hbs, h⟩ := h
      have hbs' := nameSteps_shape steps hL hbs
      split at h
      next x _ =>
        simp only [returns_bind, returns_binding] at h
        obtain ⟨_, s3, ⟨rfl, -⟩, h⟩ := h
        exact name_shape (.bind hbs' (.simple (.leaf (leaf_ident x))))
          (fun _ => .bind (.leaf (leaf_ident x))) h
      · exact (returns_throw.mp h).elim
  | _ => exact (returns_throw.mp h).elim

theorem nameParts_shape (ts : List Term) {base : String} {n : Nat}
    {o : Option Origin} {s s' : Session} {r : List Term × List (Term × Term)}
    (hL : ∀ c ∈ literalsAll ts, c ∈ L) (h : Returns (nameParts gen base n ts) o s r s') :
    (∀ t ∈ r.1, Leaf L t) ∧ ∀ b ∈ r.2, Nested L b.2 := by
  cases ts with
  | nil =>
    rw [nameParts, returns_pure] at h
    rw [← h.1]
    simp
  | cons t ts =>
    rw [literalsAll, forall_mem_append] at hL
    simp only [nameParts, returns_bind, returns_pure] at h
    obtain ⟨q, s1, hq, ⟨us, bs⟩, s2, hus, h⟩ := h
    rw [← h.1]
    obtain ⟨hterm, hbinding⟩ := (nameAll_shape t hL.1 hq).term (by simp)
    obtain ⟨hall, hbs⟩ := nameParts_shape ts hL.2 hus
    exact ⟨forall_mem_cons.mpr ⟨hterm, hall⟩,
      fun b hb => (mem_append.mp hb).elim (hbinding b) (hbs b)⟩

theorem nameBindings_shape (bs : List (Term × Term))
    {o : Option Origin} {s s' : Session} {cs : List (Term × Term)}
    (hL : ∀ c ∈ literalsOf bs, c ∈ L) (h : Returns (nameBindings gen bs) o s cs s') :
    ∀ b ∈ cs, Nested L b.2 := by
  cases bs with
  | nil =>
    rw [nameBindings, returns_pure] at h
    rw [← h.1]
    simp
  | cons b rest =>
    obtain ⟨k, v⟩ := b
    rw [literalsOf, forall_mem_append] at hL
    simp only [nameBindings, returns_bind, returns_pure] at h
    obtain ⟨q, s1, hq, cs', s2, hcs, h⟩ := h
    rw [← h.1]
    exact forall_mem_cons.mpr
      ⟨(nameAll_shape v hL.1 hq).binding, nameBindings_shape rest hL.2 hcs⟩

theorem nameLast_shape (ts : List Term) {place : Option Place}
    {o : Option Origin} {s s' : Session} {r : Named} (hL : ∀ c ∈ literalsAll ts, c ∈ L)
    (h : Returns (nameLast gen place ts) o s r s') : Shaped L place r := by
  cases ts with
  | nil => exact (returns_throw.mp h).elim
  | cons t ts =>
    rw [literalsAll, forall_mem_append] at hL
    cases ts with
    | nil => exact nameAll_shape t hL.1 h
    | cons u ts => exact nameLast_shape (u :: ts) hL.2 h

theorem nameSteps_shape (ts : List Term) {xs : List Ident}
    {o : Option Origin} {s s' : Session} {bs : List (Term × Term)}
    (hL : ∀ c ∈ literalsAll ts, c ∈ L) (h : Returns (nameSteps gen xs ts) o s bs s') :
    ∀ b ∈ bs, Nested L b.2 := by
  match xs, ts with
  | [], _ | _ :: _, [] =>
    rw [nameSteps, returns_pure] at h
    · rw [← h.1]
      simp
    all_goals simp
  | x :: xs, [t] =>
    rw [nameSteps] at h
    simp only [returns_bind, returns_pure] at h
    obtain ⟨q, s1, hq, cs, s2, hcs, rfl, -⟩ := h
    rw [literalsAll, forall_mem_append] at hL
    exact forall_mem_cons.mpr
      ⟨(nameAll_shape t hL.1 hq).binding, nameSteps_shape [] hL.2 hcs⟩
  | x :: xs, t :: u :: ts =>
    rw [literalsAll, forall_mem_append] at hL
    rw [nameSteps] at h
    · split at h
      · exact nameSteps_shape (u :: ts) hL.2 h
      · simp only [returns_bind, returns_pure] at h
        obtain ⟨q, s1, hq, cs, s2, hcs, rfl, -⟩ := h
        exact forall_mem_cons.mpr
          ⟨(nameAll_shape t hL.1 hq).binding, nameSteps_shape (u :: ts) hL.2 hcs⟩
    all_goals simp

end

end Naming

/-! ## Flattening -/

section Flattening

variable {o : Option Origin} {s s' : Session}

theorem isLeaf_of_leaf (h : Leaf L t) : isLeaf t = true := by
  cases t with
  | ident | literal => rfl
  | _ => exact h.elim

variable {ts : List Term}

theorem all_isLeaf (h : ∀ t ∈ ts, Leaf L t) : ts.all isLeaf = true :=
  all_eq_true.mpr fun t ht => isLeaf_of_leaf (h t ht)

theorem flatten_of_isLeaf (h : isLeaf t = true) : flatten t = pure t := by
  cases t with
  | ident | literal => rw [flatten]
  | _ => cases h

theorem flattenAll_of_isLeaf (h : ts.all isLeaf = true) : flattenAll ts = pure ts := by
  induction ts with
  | nil => rw [flattenAll]
  | cons t ts ih =>
    rw [all_cons, Bool.and_eq_true] at h
    rw [flattenAll, flatten_of_isLeaf h.1, pure_bind, ih h.2, pure_bind]

theorem open?_of_isLeaf (h : isLeaf t = true) : open? t = ([], t) := by
  cases t with
  | bind => cases h
  | _ => rfl

/-- A simple term is flat already, and stays simple. -/
theorem Simple.flatten {t' : Term} (ht : Simple L t) (h : Returns (flatten t) o s t' s') :
    Simple L t' ∧ open? t' = ([], t') ∧ (Ends L t → Ends L t') := by
  cases ht with
  | leaf ht =>
    have hleaf := isLeaf_of_leaf ht
    rw [flatten_of_isLeaf hleaf, returns_pure] at h
    rw [← h.1]
    exact ⟨.leaf ht, open?_of_isLeaf hleaf, id⟩
  | apply hfn hargs =>
    simp only [Normal.flatten, flatten_of_isLeaf (isLeaf_of_leaf hfn),
      flattenAll_of_isLeaf (all_isLeaf hargs), pure_bind, returns_about, returns_apply] at h
    rw [← h.1]
    refine ⟨.apply hfn hargs, rfl, fun he => ?_⟩
    cases he with
    | leaf hleaf => exact hleaf.elim
  | closure hfn hargs =>
    rw [Normal.flatten, returns_pure] at h
    obtain ⟨rfl, -⟩ := h
    exact ⟨.closure hfn hargs, rfl, id⟩
  | tuple hitems =>
    simp only [Normal.flatten, flattenAll_of_isLeaf (all_isLeaf hitems), pure_bind, returns_about,
      returns_tuple] at h
    rw [← h.1]
    refine ⟨.tuple hitems, rfl, fun he => ?_⟩
    cases he with
    | leaf hleaf => exact hleaf.elim
  | function =>
    simp only [Normal.flatten, returns_about, returns_bind, returns_pure] at h
    obtain ⟨l, s1, -, b, s2, -, new, s3, -, rfl, -⟩ := h
    exact ⟨.function, rfl, fun _ => .function⟩

theorem flattenBindings_shape {bs cs : List (Term × Term)}
    (hbs : ∀ b ∈ bs, ∀ {o s t' s'}, Returns (flatten b.2) o s t' s' → Flat L t')
    (h : Returns (flattenBindings bs) o s cs s') : ∀ c ∈ cs, Simple L c.2 := by
  induction bs generalizing s s' cs with
  | nil =>
    rw [flattenBindings, returns_pure] at h
    rw [← h.1]
    simp
  | cons b bs ih =>
    rw [forall_mem_cons] at hbs
    simp only [flattenBindings, returns_bind, returns_pure] at h
    obtain ⟨u, s1, hu, cs', s2, hcs, rfl, -⟩ := h
    obtain ⟨hbindings, hbody⟩ := hbs.1 hu
    intro c hc
    rw [mem_append, mem_cons] at hc
    rcases hc with hc | rfl | hc
    · exact hbindings c hc
    · exact hbody
    · exact ih hbs.2 hcs c hc

theorem Nested.flatten (ht : Nested L t) :
    ∀ {o s t' s'}, Returns (flatten t) o s t' s' → Flat L t' ∧ (Ends L t → Ends L (open? t').2) := by
  induction ht with
  | simple ht =>
    intro o s t' s' h
    obtain ⟨hsimple, hopen, hend⟩ := ht.flatten h
    rw [Flat, hopen]
    exact ⟨⟨by simp, hsimple⟩, hend⟩
  | bind _ _ ihbs ihbody =>
    intro o s t' s' h
    simp only [Normal.flatten, returns_about, returns_bind, returns_binding] at h
    obtain ⟨cs, s1, hcs, u, s2, hu, rfl, -⟩ := h
    obtain ⟨⟨hmore, hbody⟩, hend⟩ := ihbody hu
    have hsimple := flattenBindings_shape (fun b hb {_ _ _ _} hr => (ihbs b hb hr).1) hcs
    refine ⟨⟨fun b hb => ?_, hbody⟩, fun he => hend ?_⟩
    · exact (mem_append.mp hb).elim (hsimple b) (hmore b)
    · cases he with
      | leaf hleaf => exact hleaf.elim
      | bind he => exact he

theorem targets_open?_sublist (t : Term) : (targets (open? t).1).Sublist (binders t) := by
  cases t with
  | bind id bs body =>
    rw [open?, binders]
    exact (targets_sublist bs).trans (sublist_append_left _ _)
  | _ => exact nil_sublist _

theorem scoped_open? {A : Symbol → Prop} :
    Scoped A t ↔ ScopedBindings A (open? t).1 ∧ Scoped (also A (targets (open? t).1)) (open? t).2 := by
  cases t with
  | bind id bs body => rw [open?, Scoped]
  | _ => simp [open?, ScopedBindings]

mutual

theorem scoped_flatten (t : Term) {A : Symbol → Prop} {o : Option Origin} {s s' : Session} {t' : Term}
    (hs : Scoped A t) (h : Returns (flatten t) o s t' s') : Scoped A t' := by
  cases t with
  | ident | literal | closure =>
    rw [flatten, returns_pure] at h
    rw [← h.1]
    exact hs
  | bind id bs body =>
    simp only [flatten, returns_about, returns_bind, returns_binding] at h
    obtain ⟨cs, s1, hcs, u, s2, hu, rfl, -⟩ := h
    rw [Scoped] at hs
    obtain ⟨hbs, hmore⟩ := scopedBindings_flatten bs hs.1 hcs
    have hbody := scoped_open?.mp ((scoped_flatten body hs.2 hu).mono hmore)
    rw [Scoped, scopedBindings_append, targets_append, also_append]
    exact ⟨⟨hbs, hbody.1⟩, hbody.2⟩
  | lambda id params body =>
    simp only [flatten, returns_about, returns_bind, returns_pure] at h
    obtain ⟨l, s1, -, b, s2, -, new, s3, -, h⟩ := h
    rw [← h.1, Scoped]
    trivial
  | apply id fn args =>
    simp only [flatten, returns_about, returns_bind, returns_apply] at h
    obtain ⟨f, s1, hf, ts, s2, hts, rfl, -⟩ := h
    rw [Scoped] at hs ⊢
    exact ⟨scoped_flatten fn hs.1 hf, scopedAll_flatten args hs.2 hts⟩
  | tuple id items =>
    simp only [flatten, returns_about, returns_bind, returns_tuple] at h
    obtain ⟨ts, s1, hts, rfl, -⟩ := h
    rw [Scoped] at hs ⊢
    exact scopedAll_flatten items hs hts
  | _ => exact (returns_throw.mp h).elim

theorem scopedAll_flatten (ts : List Term) {A : Symbol → Prop} {o : Option Origin} {s s' : Session}
    {ts' : List Term} (hs : ScopedAll A ts) (h : Returns (flattenAll ts) o s ts' s') :
    ScopedAll A ts' := by
  cases ts with
  | nil =>
    rw [flattenAll, returns_pure] at h
    rw [← h.1]
    exact hs
  | cons t ts =>
    simp only [flattenAll, returns_bind, returns_pure] at h
    obtain ⟨u, s1, hu, us, s2, hus, h⟩ := h
    rw [ScopedAll] at hs
    rw [← h.1, ScopedAll]
    exact ⟨scoped_flatten t hs.1 hu, scopedAll_flatten ts hs.2 hus⟩

theorem scopedBindings_flatten (bs : List (Term × Term)) {A : Symbol → Prop} {o : Option Origin}
    {s s' : Session} {cs : List (Term × Term)} (hs : ScopedBindings A bs)
    (h : Returns (flattenBindings bs) o s cs s') :
    ScopedBindings A cs ∧ ∀ x, also A (targets bs) x → also A (targets cs) x := by
  cases bs with
  | nil =>
    rw [flattenBindings, returns_pure] at h
    rw [← h.1]
    exact ⟨hs, fun _ hx => hx⟩
  | cons b bs =>
    obtain ⟨k, v⟩ := b
    simp only [flattenBindings, returns_bind, returns_pure] at h
    obtain ⟨u, s1, hu, cs', s2, hcs, rfl, -⟩ := h
    rw [ScopedBindings] at hs
    obtain ⟨hinner, hvalue⟩ := scoped_open?.mp (scoped_flatten v hs.1 hu)
    obtain ⟨hrest, hmore⟩ := scopedBindings_flatten bs hs.2 hcs
    -- what follows is in the scope of the inner bindings too
    have hwider : ∀ x, also A (patternSymbols k) x →
        also (also A (targets (open? u).1)) (patternSymbols k) x :=
      also_mono (fun x hx => .inr hx) _
    rw [scopedBindings_append, ScopedBindings, targets_append, targets_cons, targets_cons]
    refine ⟨⟨hinner, hvalue, hrest.mono hwider⟩, fun x hx => ?_⟩
    rw [also_append] at hx
    rw [also_append, also_append]
    exact also_mono hwider _ x (hmore x hx)

end

end Flattening

/-! ## Functions -/

theorem exists_of_not_old {G : GeneratorId → Prop} {s : Session} {x : Symbol} (h : ¬ Old G s x) :
    ∃ i, G i ∧ (generator s i).space = x.space := by
  by_contra hnone
  exact h fun i hi hspace => (hnone ⟨i, hi, hspace⟩).elim

variable {s s' : Session} {l : Lambda}

/-- The A-normal form of a function: bindings of calls, tuples and partial applications of leaves, and
then a leaf. Its literals are the function's, it binds no variable twice and uses none that it does not
bind, and what it binds was made for it, or bound by the function. -/
structure IsNormal (s s' : Session) (l l' : Lambda) : Prop where
  params : l'.params = l.params
  generator : l'.generator = l.generator
  fit : Fit (Used s l) l'.body
  flat : Flat (literals l.body) l'.body
  ends : Ends (literals l.body) (open? l'.body).2
  origin : ∀ x ∈ binders l'.body, x ∈ binders l.body ∨ ¬ Old (Asked l) s x
  made : ∀ x ∈ binders l'.body, Old (Asked l) s' x

theorem normal_ofLambda {o : Option Origin} {id new : TermId} (hl : s.lambda? id = some l)
    (h : Convertible s l) (hret : Returns (ofLambda id) o s new s') :
    Further s s' ∧ ∃ l', s'.lambda? new = some l' ∧ IsNormal s s' l l' := by
  obtain ⟨_, _, r, t, s1, _, _, ref, hname, hflat, hs', hnew⟩ := ofLambda_cases hl hret
  -- what calls do does not matter here
  have hout : Outcome (Asked l) (fun _ _ => (throw .broken : Fallible Value)) (Used s l) s s1 l.body
      none r :=
    nameAll_outcome l.body h.fit (fun x hx => h.made x (mem_append_right _ hx)) h.ready hname
  have hlater : Later s s1 := keeps_nameAll _ _ _ _ _ _ _ hname
  refine ⟨(Further.of_later hlater).trans hs', _, hnew, ?_⟩
  have hshape := nameAll_shape (L := literals l.body) l.body (fun _ hc => hc) hname
  cases hout with
  | whole hstands =>
  cases hshape with
  | whole hnested hends =>
    have hfit := hstands.fit h.fit h.ready
    have hbinders := (@eval_flatten Fallible _ _ (fun _ _ => throw .broken) _ _ _ _ _ _ _ _ hfit hflat).1
    obtain ⟨hflat', hends'⟩ := hnested.flatten hflat
    have hold := hstands.bound.old (fun x hx => h.made x (mem_append_right _ hx)) hlater
    exact
      { params := rfl
        generator := rfl
        fit := ⟨scoped_flatten _ hfit.scope hflat, hbinders ▸ hfit.nodup, hbinders ▸ hfit.apart⟩
        flat := hflat'
        ends := hends' hends
        origin := fun x hx => (hstands.bound.origin x (hbinders ▸ hx)).imp_right And.left
        made := fun x hx => hs'.old (hlater.distinct h.generators) (hold x (hbinders ▸ hx)) }

/-- If the generators that are asked make no global names, the A-normal form binds none. -/
theorem IsNormal.proper {l' : Lambda} (hn : IsNormal s s' l l') (h : Convertible s l)
    (hown : ∀ i, Asked l i → (Freshness.generator s i).space.isGlobal = false) :
    ∀ x ∈ binders l'.body, x.isGlobal = false := by
  intro x hx
  rcases hn.origin x hx with hx | hx
  · exact h.proper x hx
  · obtain ⟨i, hi, hspace⟩ := exists_of_not_old hx
    have := hown i hi
    rw [hspace] at this
    exact this

end DiffLang.Normal
