import DiffLang.Proofs.Term.Conversion
import DiffLang.Proofs.Term.Shape

/-!
# A-normal form is fixed

The A-normal form of a function that the reader made is a leaf, or a single list of bindings that ends
in a leaf. Converting it again changes nothing but the numbers of nodes, and makes no variable.

Main statement: `ofLambda_canonical`.
-/

namespace DiffLang.Normal

open Run Session Growth Freshness Reading Places Meaning Scoping List

/-- A leaf, or a call of a variable, a tuple or a partial application of leaves. -/
def isSimple : Term → Bool
  | .apply _ (.ident _) args => args.all isLeaf
  | .tuple _ items => items.all isLeaf
  | .closure _ fn args => isLeaf fn && args.all isLeaf
  | t => isLeaf t

/-- A leaf, perhaps after bindings of patterns to simple terms. -/
inductive Canonical : Term → Prop
  | leaf {t : Term} (h : isLeaf t = true) : Canonical t
  | bind {id : TermId} {bs : List (Term × Term)} {body : Term}
      (hbs : ∀ b ∈ bs, (∃ p : Pattern, b.1 = p.term) ∧ isSimple b.2 = true)
      (hbody : isLeaf body = true) : Canonical (.bind id bs body)

mutual

/-- A term without the numbers of its nodes. -/
def unnumbered : Term → Term
  | .ident x => .ident ⟨0, x.sym⟩
  | .literal _ v => .literal 0 v
  | .bind _ bs body => .bind 0 (unnumberedOf bs) (unnumbered body)
  | .lambda _ params body => .lambda 0 (params.map fun p => ⟨0, p.sym⟩) (unnumbered body)
  | .apply _ fn args => .apply 0 (unnumbered fn) (unnumberedAll args)
  | .sequence _ steps => .sequence 0 (unnumberedAll steps)
  | .tuple _ items => .tuple 0 (unnumberedAll items)
  | .closure _ fn args => .closure 0 (unnumbered fn) (unnumberedAll args)
  | .assign _ k v => .assign 0 (unnumbered k) (unnumbered v)
  | .group _ items => .group 0 (unnumberedAll items)

/-- Terms without the numbers of their nodes. -/
def unnumberedAll : List Term → List Term
  | [] => []
  | t :: ts => unnumbered t :: unnumberedAll ts

/-- Bindings without the numbers of their nodes. -/
def unnumberedOf : List (Term × Term) → List (Term × Term)
  | [] => []
  | (k, v) :: rest => (unnumbered k, unnumbered v) :: unnumberedOf rest

end

variable {L : List (TermId × Value)} {s s' : Session} {t : Term} {l : Lambda} {m : Nat}

/-! ## The form -/

theorem isSimple_of_isLeaf (h : isLeaf t = true) : isSimple t = true := by
  cases t with
  | ident | literal => rfl
  | _ => cases h

variable {ts : List Term} {gen : Option GeneratorId} {v k : Term} {bs : List (Term × Term)}
variable {id : TermId}

theorem Simple.isSimple (h : Simple L t) (ht : Tidy s t) : isSimple t = true := by
  cases h with
  | leaf h => exact isSimple_of_isLeaf (isLeaf_of_leaf h)
  | apply hfn hargs =>
    obtain ⟨x, rfl⟩ := ht.here
    exact all_isLeaf hargs
  | closure hfn hargs => simp [Normal.isSimple, isLeaf_of_leaf hfn, all_isLeaf hargs]
  | tuple h => exact all_isLeaf h
  | function => exact ht.here.elim

theorem Ends.isLeaf (h : Ends L t) (hs : Simple L t) (ht : Tidy s t) : isLeaf t = true := by
  cases h with
  | leaf h => exact isLeaf_of_leaf h
  | function => exact ht.here.elim
  | bind =>
    cases hs with
    | leaf h => exact h.elim

theorem canonical_of_flat (hf : Flat L t) (he : Ends L (open? t).2) (ht : Tidy s t) : Canonical t := by
  obtain ⟨hbs, hbody⟩ := tidy_open? ht
  have hleaf := he.isLeaf hf.2 hbody
  cases t with
  | bind id bs body =>
    exact .bind (fun b hb => ⟨ht.here b hb, (hf.1 b hb).isSimple (hbs b hb).2.2⟩) hleaf
  | _ => exact .leaf hleaf

/-! ## Converting again -/

section Again

variable {α β : Type}

/-- A computation returns what is said, and asks no generator. -/
def Does (act : Run α) (Q : α → Prop) : Prop :=
  ∀ o s, ∃ a s', Returns act o s a s' ∧ s'.generators = s.generators ∧ Q a

variable {Q : α → Prop}

theorem does_pure {a : α} (h : Q a) : Does (pure a) Q :=
  fun _ s => ⟨a, s, returns_pure_self, rfl, h⟩

theorem Does.bind {x : Run α} {f : α → Run β} {R : β → Prop} (hx : Does x Q)
    (hf : ∀ a, Q a → Does (f a) R) : Does (x >>= f) R := by
  intro o s
  obtain ⟨a, s1, h1, hg1, ha⟩ := hx o s
  obtain ⟨b, s2, h2, hg2, hb⟩ := hf a ha o s1
  exact ⟨b, s2, returns_bind.mpr ⟨a, s1, h1, h2⟩, hg2.trans hg1, hb⟩

theorem Does.about {subject : Subject} {transform : String} {act : Run α}
    (h : Does act Q) : Does (Run.about subject transform act) Q :=
  fun _ s => h _ s

theorem does_numbered (f : TermId → α) : Does (do pure (f (← newId))) fun a => ∃ i, a = f i :=
  fun _ _ => ⟨_, _, (returns_numbered f).mpr ⟨rfl, rfl⟩, rfl, _, rfl⟩

end Again

theorem nameAll_leaf {place : Option Place} (h : isLeaf t = true) :
    nameAll gen place t = pure ⟨t, none⟩ := by
  cases t with
  | ident | literal => rw [nameAll]
  | _ => cases h

theorem nameParts_leaves {base : String} {n : Nat}
    (h : ts.all isLeaf = true) : nameParts gen base n ts = pure (ts, []) := by
  induction ts generalizing n with
  | nil => rw [nameParts]
  | cons t ts ih =>
    rw [all_cons, Bool.and_eq_true] at h
    rw [nameParts, nameAll_leaf h.1, pure_bind, ih h.2, pure_bind]
    rfl

/-- A term that is simple, and the same as another but for numbers. -/
def Like (v u : Term) : Prop := isSimple u = true ∧ unnumbered u = unnumbered v

theorem does_finish {base : String} (f : TermId → Term) (hf : ∀ i, Like v (f i)) :
    Does ((do pure (f (← newId))) >>= finish gen (some (.target k)) base []) fun r =>
      ∃ u, r.binding.getD (k, r.term) = (k, u) ∧ Like v u :=
  (does_numbered f).bind fun u hu => by
    obtain ⟨i, rfl⟩ := hu
    exact does_pure ⟨f i, rfl, hf i⟩

theorem does_nameAll (hv : isSimple v = true) :
    Does (nameAll gen (some (.target k)) v) fun r =>
      ∃ u, r.binding.getD (k, r.term) = (k, u) ∧ Like v u := by
  cases v with
  | ident | literal =>
    rw [nameAll]
    exact does_pure ⟨_, rfl, rfl, rfl⟩
  | apply id fn args =>
    cases fn with
    | ident x =>
      rw [nameAll, nameAll_leaf rfl, pure_bind]
      refine Does.about ?_
      simp only [nameParts_leaves hv, pure_bind]
      exact does_finish (Term.apply · (.ident x) args) fun _ => ⟨hv, by simp only [unnumbered]⟩
    | _ => cases hv
  | tuple id items =>
    rw [nameAll, nameParts_leaves hv, pure_bind]
    exact (does_finish (Term.tuple · items) fun _ => ⟨hv, by simp only [unnumbered]⟩).about
  | closure id fn args =>
    obtain ⟨hfn, hargs⟩ := Bool.and_eq_true_iff.mp hv
    rw [nameAll, nameAll_leaf hfn, pure_bind, nameParts_leaves hargs, pure_bind]
    exact (does_finish (Term.closure · fn args) fun _ => ⟨hv, by simp only [unnumbered]⟩).about
  | _ => cases hv

def LikeBindings (bs cs : List (Term × Term)) : Prop :=
  (∀ c ∈ cs, isSimple c.2 = true) ∧ unnumberedOf cs = unnumberedOf bs

theorem LikeBindings.cons {u : Term} {cs : List (Term × Term)} (h : Like v u)
    (hcs : LikeBindings bs cs) : LikeBindings ((k, v) :: bs) ((k, u) :: cs) :=
  ⟨forall_mem_cons.mpr ⟨h.1, hcs.1⟩, by rw [unnumberedOf, unnumberedOf, h.2, hcs.2]⟩

theorem does_nameBindings
    (h : ∀ b ∈ bs, isSimple b.2 = true) : Does (nameBindings gen bs) (LikeBindings bs) := by
  induction bs with
  | nil =>
    rw [nameBindings]
    exact does_pure ⟨by simp, rfl⟩
  | cons b bs ih =>
    obtain ⟨k, v⟩ := b
    obtain ⟨hv, hbs⟩ := forall_mem_cons.mp h
    rw [nameBindings]
    refine (does_nameAll hv).bind fun r hr => (ih hbs).bind fun cs hcs => does_pure ?_
    obtain ⟨u, hu, hlike⟩ := hr
    exact hu ▸ hcs.cons hlike

theorem does_flatten (hv : isSimple v = true) :
    Does (flatten v) fun u => Like v u ∧ open? u = ([], u) := by
  have hnode : ∀ f : TermId → Term, (∀ i, Like v (f i) ∧ open? (f i) = ([], f i)) →
      Does (do pure (f (← newId))) fun u => Like v u ∧ open? u = ([], u) := fun f hf o s => by
    obtain ⟨_, s', h, hg, i, rfl⟩ := does_numbered f o s
    exact ⟨_, s', h, hg, hf i⟩
  cases v with
  | ident | literal =>
    rw [flatten]
    exact does_pure ⟨⟨rfl, rfl⟩, rfl⟩
  | apply id fn args =>
    cases fn with
    | ident x =>
      rw [flatten, flatten_of_isLeaf rfl, pure_bind, flattenAll_of_isLeaf hv, pure_bind]
      exact (hnode (Term.apply · (.ident x) args) fun _ => ⟨⟨hv, by simp only [unnumbered]⟩, rfl⟩).about
    | _ => cases hv
  | tuple id items =>
    rw [flatten, flattenAll_of_isLeaf hv, pure_bind]
    exact (hnode (Term.tuple · items) fun _ => ⟨⟨hv, by simp only [unnumbered]⟩, rfl⟩).about
  | closure id fn args =>
    rw [flatten]
    exact does_pure ⟨⟨hv, rfl⟩, rfl⟩
  | _ => cases hv

theorem does_flattenBindings (h : ∀ b ∈ bs, isSimple b.2 = true) :
    Does (flattenBindings bs) (LikeBindings bs) := by
  induction bs with
  | nil =>
    rw [flattenBindings]
    exact does_pure ⟨by simp, rfl⟩
  | cons b bs ih =>
    obtain ⟨k, v⟩ := b
    obtain ⟨hv, hbs⟩ := forall_mem_cons.mp h
    rw [flattenBindings]
    refine (does_flatten hv).bind fun u hu => ?_
    rw [hu.2]
    exact (ih hbs).bind fun cs hcs => does_pure (hcs.cons hu.1)

theorem does_again (gen : Option GeneratorId) (h : Canonical t) :
    Does (nameAll gen none t) fun r => Does (flatten r.term) fun u => unnumbered u = unnumbered t := by
  cases h with
  | leaf h =>
    rw [nameAll_leaf h]
    refine does_pure ?_
    rw [flatten_of_isLeaf h]
    exact does_pure rfl
  | @bind id bs body hbs hbody =>
    rw [nameAll]
    refine Does.about ((does_nameBindings fun b hb => (hbs b hb).2).bind fun cs hcs => ?_)
    rw [nameAll_leaf hbody, pure_bind]
    refine (does_numbered (Term.bind · cs body)).bind fun u hu => ?_
    obtain ⟨i, rfl⟩ := hu
    refine does_pure ?_
    rw [flatten]
    refine Does.about ((does_flattenBindings hcs.1).bind fun ds hds => ?_)
    rw [flatten_of_isLeaf hbody, pure_bind, open?_of_isLeaf hbody]
    intro o s
    obtain ⟨_, s', h, hg, j, rfl⟩ := does_numbered (Term.bind · (ds ++ []) body) o s
    refine ⟨_, s', h, hg, ?_⟩
    simp only [unnumbered, append_nil, hds.2, hcs.2]

/-- A function in A-normal form can be converted again. Only the generator of the names of A-normal
forms is asked. -/
theorem ofLambda_again {ref : Ident} (hl : s.lambda? id = some l)
    (href : l.ref = some ref) (hc : Canonical l.body) (o : Option Origin) :
    ∃ new s' l', Returns (ofLambda id) o s new s' ∧ s'.lambda? new = some l' ∧
      l'.params = l.params ∧ unnumbered l'.body = unnumbered l.body ∧
      ∀ g ≠ Fixed.normal.id, generator s' g = generator s g := by
  obtain ⟨r, s1, hname, hg1, hflat⟩ := does_again l.generator hc
    (some ⟨.term (lambdaTerm id l), "a-normal"⟩) s
  obtain ⟨t, s2, hflat, hg2, ht⟩ := hflat
    (some ⟨.term (.lambda s1.origins.size l.params r.term), "collapse-let"⟩)
    (withLambda (noted s1 _) s1.origins.size { params := l.params, body := r.term, generator := l.generator })
  obtain ⟨x, hx⟩ := renewed_lambda? s2
    (some ⟨.term (.lambda s1.origins.size l.params r.term), "collapse-let"⟩) o l t ref.sym
  refine ⟨_, _, _, (returns_ofLambda hl).mpr ⟨_, _, r, t, s1, s2, ref, rfl, hname, rfl, hflat, href, rfl,
    rfl⟩, hx, rfl, ht, fun g hg => ?_⟩
  have hg2 : s2.generators = s.generators := hg2.trans hg1
  simp [generator, renewed, registered, changed, noted, afterDerived, withLambda, hg2,
    Array.getD_eq_getD_getElem?, Ne.symm hg]

/-! ## Functions of the reader -/

variable {V P : Symbol → Prop}

mutual

/-- A closed term is scoped. If what its binders meet is enough for its variables, all of them do. -/
theorem neat_scoped (hV : ∀ x, V x → P x) {t : Term} {A : Symbol → Prop} {K : List Symbol} (h : Neat V s t)
    (hb : Bound K t) (hA : ∀ x, x.isGlobal = true ∨ x ∈ K → A x ∧ P x) :
    Scoped A t ∧ (∀ x ∈ uses t, P x) ∧ ∀ x ∈ binders t, V x := by
  cases t with
  | ident x =>
    obtain ⟨hA, hP⟩ := hA x.sym (bound_ident.mp hb)
    simp [Scoped, uses, binders, hA, hP]
  | literal => simp [Scoped, uses, binders]
  | bind _ bs body =>
    obtain ⟨hbs, hbody⟩ := bound_bind.mp hb
    have h1 := neatBindings_scoped hV (fun b hb => ⟨h.here b hb, h.bindings.1 b hb⟩) hbs hA
    have h2 := neat_scoped (A := also A (targets bs)) hV h.bindings.2 hbody fun x hx => by
      rw [mem_knownAfter, or_left_comm] at hx
      rcases hx with hx | hx
      · exact ⟨.inl hx, hV x (h1.2.2 x (mem_bindersOf_of_mem_targets hx))⟩
      · exact (hA x hx).imp_left .inr
    rw [Scoped, uses, binders, forall_mem_append, forall_mem_append]
    exact ⟨⟨h1.1, h2.1⟩, ⟨h1.2.1, h2.2.1⟩, h1.2.2, h2.2.2⟩
  | apply _ fn args | closure _ fn args =>
    obtain ⟨hfn, hargs⟩ := forall_mem_cons.mp h.child
    simp only [bound_apply, bound_closure] at hb
    have h1 := neat_scoped hV hfn hb.1 hA
    have h2 := neatAll_scoped hV hargs hb.2 hA
    rw [Scoped, uses, binders, forall_mem_append, forall_mem_append]
    exact ⟨⟨h1.1, h2.1⟩, ⟨h1.2.1, h2.2.1⟩, h1.2.2, h2.2.2⟩
  | sequence _ ts | tuple _ ts =>
    simp only [bound_sequence, bound_tuple] at hb
    rw [Scoped, uses, binders]
    exact neatAll_scoped hV h.child hb hA
  | lambda | assign | group => exact h.here.elim

theorem neatAll_scoped (hV : ∀ x, V x → P x) {ts : List Term} {A : Symbol → Prop} {K : List Symbol}
    (h : ∀ t ∈ ts, Neat V s t) (hb : BoundAll K ts)
    (hA : ∀ x, x.isGlobal = true ∨ x ∈ K → A x ∧ P x) :
    ScopedAll A ts ∧ (∀ x ∈ usesAll ts, P x) ∧ ∀ x ∈ bindersAll ts, V x := by
  cases ts with
  | nil => simp [ScopedAll, usesAll, bindersAll]
  | cons t ts =>
    obtain ⟨ht, hts⟩ := forall_mem_cons.mp h
    obtain ⟨hb, hbs⟩ := boundAll_cons.mp hb
    have h1 := neat_scoped hV ht hb hA
    have h2 := neatAll_scoped hV hts hbs hA
    rw [ScopedAll, usesAll, bindersAll, forall_mem_append, forall_mem_append]
    exact ⟨⟨h1.1, h2.1⟩, ⟨h1.2.1, h2.2.1⟩, h1.2.2, h2.2.2⟩

theorem neatBindings_scoped (hV : ∀ x, V x → P x) {bs : List (Term × Term)} {A : Symbol → Prop} {K : List Symbol}
    (h : ∀ b ∈ bs, NeatBinding V s b) (hb : BoundBindings K bs)
    (hA : ∀ x, x.isGlobal = true ∨ x ∈ K → A x ∧ P x) :
    ScopedBindings A bs ∧ (∀ x ∈ usesOf bs, P x) ∧ ∀ x ∈ bindersOf bs, V x := by
  match bs with
  | [] => simp [ScopedBindings, usesOf, bindersOf]
  | (k, v) :: rest =>
    obtain ⟨⟨hk, -, hv⟩, hrest⟩ := forall_mem_cons.mp h
    obtain ⟨hb, hbs⟩ := boundBindings_cons.mp hb
    have h1 := neat_scoped hV hv hb hA
    have h2 := neatBindings_scoped (A := also A (patternSymbols k)) hV hrest hbs fun x hx => by
      rw [mem_append, or_left_comm] at hx
      rcases hx with hx | hx
      · exact ⟨.inl hx, hV x (hk.2 x hx)⟩
      · exact (hA x hx).imp_left .inr
    rw [ScopedBindings, usesOf, bindersOf, forall_mem_append, forall_mem_append,
      forall_mem_append]
    exact ⟨⟨h1.1, h2.1⟩, ⟨h1.2.1, h2.2.1⟩, ⟨h1.2.2, hk.2⟩, h2.2.2⟩

end

theorem isGlobal_of_own {x : Symbol} (h : Own m x) : x.isGlobal = false := by
  rw [Symbol.isGlobal, h]
  rfl

/-- The generators that are asked to convert a function of the reader make neither its variables nor
global names. -/
theorem old_written (hs : Sound s) (hw : Written s id l m) {x : Symbol}
    (hx : x.isGlobal = true ∨ Own m x) : Old (Asked l) s x := by
  obtain ⟨g, r, hg, -, hspace, hne⟩ := hw.generator
  intro i hi hx'
  rcases hi with hi | rfl
  · rw [hg, Option.some.injEq] at hi
    rw [← hi, hspace] at hx'
    rcases hx with hx | hx
    · rw [isGlobal_of_own hx'.symm] at hx
      cases hx
    · rw [Own, ← hx'] at hx
      exact (hne (Namespace.hidden.inj hx)).elim
  · rw [show (generator s Fixed.nothing.id).space = .null from (hs.fixed 0 .null rfl).2] at hx'
    rcases hx with hx | hx
    · rw [Symbol.isGlobal, ← hx'] at hx
      cases hx
    · rw [Own, ← hx'] at hx
      cases hx

theorem convertible_written (hs : Sound s) (hm : Made l) (hw : Written s id l m) :
    Convertible s l := by
  have hold := @old_written s l m id hs hw
  obtain ⟨hclosed, huses, hbinders⟩ := neat_scoped (A := Outer l) (fun x hx => hold (.inr hx)) hw.body
    hm.bound fun x hx => ⟨hx.symm, hold (hx.imp_right fun hx => by
      obtain ⟨p, hp, rfl⟩ := mem_map.mp hx
      exact (hw.params p hp).2)⟩
  obtain ⟨g, r, hg, hlt, hspace, -⟩ := hw.generator
  obtain ⟨hlt', hspace'⟩ := hs.fixed 0 .null rfl
  refine ⟨hclosed, hm.distinct, fun x hx => isGlobal_of_own (hbinders x hx), ?_,
    distinct_asked hg ⟨hlt, hlt'⟩ ?_⟩
  · exact forall_mem_append.mpr ⟨huses, fun x hx => hold (.inr (hbinders x hx))⟩
  · rw [hspace, show (generator s Fixed.nothing.id).space = _ from hspace']
    intro h
    cases h

/-- The A-normal form of a function that was made while a text was read: its body is a leaf, perhaps
after bindings of patterns to simple terms, and binds no variable twice. Converted again, it has the same
parameters and the same body but for the numbers of nodes, and its generator is not asked. -/
theorem ofLambda_canonical {url : String} {firstLine : Nat} {stmts : List Source.Stmt}
    {grouping : Option Nat} {v : Value} {o o₁ : Option Origin} {id new : TermId} {s₁ s₂ : Session}
    (hs : Sound s) (h : Returns (Program.readText url firstLine stmts grouping) o s v s')
    (hnew : s.lambda? id = none) (hl : s'.lambda? id = some l) (hc : Converted s' s₁)
    (hret : Returns (ofLambda id) o₁ s₁ new s₂) :
    ∃ l', s₂.lambda? new = some l' ∧ Canonical l'.body ∧
      (l'.params.map (·.sym) ++ binders l'.body).Nodup ∧
      ∀ o₂, ∃ n s₃ l'', Returns (ofLambda new) o₂ s₂ n s₃ ∧ s₃.lambda? n = some l'' ∧
        l''.params = l'.params ∧ unnumbered l''.body = unnumbered l'.body ∧
        ∀ g, l'.generator = some g → generator s₃ g = generator s₂ g := by
  obtain ⟨hs', hm, m, hw⟩ := made_readText hs h hnew hl
  obtain ⟨hg, hk⟩ := converted_later hs' hc
  obtain ⟨l₁, hl₁, hcore, hw₁⟩ := written_later hw hl hg hk
  have hs₁ := hg.sound hs'
  have hm₁ := made_of_core hcore hm
  obtain ⟨-, l', hl', hn⟩ := normal_ofLambda hl₁ (convertible_written hs₁ hm₁ hw₁) hret
  obtain ⟨l₂, hl₂, hparams, ⟨x, hx⟩, -, htidy⟩ := tidy_ofLambda hw₁ hl₁ hret
  obtain rfl : l₂ = l' := Option.some.inj (hl₂.symm.trans hl')
  have hcanonical := canonical_of_flat hn.flat hn.ends htidy
  refine ⟨l₂, hl₂, hcanonical, ?_, fun o₂ => ?_⟩
  · -- the parameters are not among the variables that were made
    refine nodup_append.mpr ⟨hparams ▸ hm₁.distinct.of_append_left, hn.fit.nodup, ?_⟩
    rintro y hy _ hz rfl
    rw [hparams] at hy
    obtain ⟨p, hp, rfl⟩ := mem_map.mp hy
    exact hn.fit.apart _ hz ⟨.inl hy, old_written hs₁ hw₁ (.inr (hw₁.params p hp).2)⟩
  · obtain ⟨n, s₃, l'', hagain, hl'', hp, hbody, hgen⟩ := ofLambda_again hl₂ hx hcanonical o₂
    refine ⟨n, s₃, l'', hagain, hl'', hp, hbody, fun g hg' => hgen g ?_⟩
    rintro rfl
    obtain ⟨g, r, hg₁, -, hspace, -⟩ := hw₁.generator
    rw [hn.generator, hg₁, Option.some.injEq] at hg'
    rw [hg'] at hspace
    cases (hs₁.fixed 1 (.named "global::a_normal") rfl).2.symm.trans hspace

theorem ofLambda_canonical_nested :
    ∃ v s' id new s₂ l', Returns (Program.readText "text" 1 [nestedText] none) none initial v s' ∧
      Returns (ofLambda id) none s' new s₂ ∧ s₂.lambda? new = some l' ∧ Canonical l'.body ∧
      (l'.params.map (·.sym) ++ binders l'.body).Nodup ∧
      ∀ o₂, ∃ n s₃ l'', Returns (ofLambda new) o₂ s₂ n s₃ ∧ s₃.lambda? n = some l'' ∧
        l''.params = l'.params ∧ unnumbered l''.body = unnumbered l'.body ∧
        ∀ g, l'.generator = some g → generator s₃ g = generator s₂ g := by
  obtain ⟨new, s₂, h⟩ := exists_returns
    (Program.readText "text" 1 [nestedText] none >>= ofValue) none initial (by decide +kernel)
  obtain ⟨v, s', h, hret⟩ := returns_bind.mp h
  cases v with
  | lambda id =>
    obtain ⟨l, s₁, hget, -⟩ := returns_bind.mp hret
    have hl := (returns_getLambda.mp hget).1
    obtain ⟨l', hl', hform⟩ := ofLambda_canonical sound_initial h rfl hl .refl hret
    exact ⟨_, s', id, new, s₂, l', h, hret, hl', hform⟩
  | _ => cases hret

end DiffLang.Normal
