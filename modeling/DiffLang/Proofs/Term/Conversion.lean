import DiffLang.Proofs.Gradient.Growth
import DiffLang.Proofs.Reading.Origins
import Mathlib.Logic.Relation

/-!
# Conversion to A-normal form keeps places

The nodes that naming and flattening make are about terms that have places, so they have places
themselves.
-/

namespace DiffLang.Normal

open Run Session Growth Freshness Reading Places

/-- A node that naming leaves: variables are bound by patterns, what is called is a variable, and there
is no function or sequence. -/
def Usual : Term → Prop
  | .bind _ bs _ => ∀ b ∈ bs, ∃ p : Pattern, b.1 = p.term
  | .apply _ fn _ => ∃ x, fn = .ident x
  | .lambda .. | .sequence .. | .assign .. | .group .. => False
  | _ => True

/-- Every node of a term has a place, and is one that naming leaves. -/
abbrev Tidy : Session → Term → Prop := Throughout Usual

def TidyBinding (s : Session) (b : Term × Term) : Prop :=
  (∃ p : Pattern, b.1 = p.term) ∧ Tidy s b.1 ∧ Tidy s b.2

/-- What is left of a term, and the binding that it needs. -/
def Tidied (s : Session) (r : Named) : Prop :=
  Tidy s r.term ∧ ∀ b ∈ r.binding.toList, TidyBinding s b

/-- If a variable is there to be set, it is a pattern that has a place. -/
def Fitting (s : Session) (place : Option Place) : Prop :=
  ∀ k, place = some (.target k) → (∃ p : Pattern, k = p.term) ∧ Tidy s k

end DiffLang.Normal

variable {bs : List (Term × Term)}

namespace DiffLang.Places

open Normal

variable {s s' : Session}

theorem Kept.tidyBinding (h : Kept s s') {b : Term × Term} (hb : TidyBinding s b) : TidyBinding s' b :=
  ⟨hb.1, h.term hb.2.1, h.term hb.2.2⟩

theorem Kept.tidyBindings (h : Kept s s') (hbs : ∀ b ∈ bs, TidyBinding s b) :
    ∀ b ∈ bs, TidyBinding s' b :=
  fun b hb => h.tidyBinding (hbs b hb)

theorem Kept.fitting (h : Kept s s') {place : Option Place} (hp : Fitting s place) : Fitting s' place :=
  fun k hk => (hp k hk).imp_right h.term

end DiffLang.Places

namespace DiffLang.Normal

open Run Session Growth Freshness Reading Places List

variable {V : Symbol → Prop} {s s0 s' : Session} {gen : Option GeneratorId} {place : Option Place}

theorem fitting_none : Fitting s none := fun _ hk => by cases hk

theorem fitting_label (l : String) : Fitting s (some (.label l)) := fun _ hk => by cases hk

theorem fitting_open : Fitting s (some .open) := fun _ hk => by cases hk

theorem fitting_target {k : Term} (hp : ∃ p : Pattern, k = p.term) (hk : Tidy s k) :
    Fitting s (some (.target k)) := by
  intro _ h
  cases h
  exact ⟨hp, hk⟩

theorem tidy_ident {x : Ident} (h : Placed s x.id) : Tidy s (.ident x) :=
  .intro h trivial fun _ hc => absurd hc not_mem_nil

variable {t : Term}

theorem tidied_leaf (ht : isLeaf t = true) (h : Placed s t.id) : Tidied s ⟨t, none⟩ := by
  refine ⟨?_, by simp⟩
  cases t with
  | ident x => exact tidy_ident h
  | literal id v => exact .intro h trivial fun _ hc => absurd hc not_mem_nil
  | _ => cases ht

theorem Tidied.getD {r : Named} {k : Term} (h : Tidied s r) (hp : ∃ p : Pattern, k = p.term)
    (hk : Tidy s k) : TidyBinding s (r.binding.getD (k, r.term)) := by
  obtain ⟨t, b⟩ := r
  cases b with
  | none => exact ⟨hp, hk, h.1⟩
  | some b => exact h.2 b (by simp)

mutual

theorem tidy_pattern : ∀ p : Pattern, Neat V s p.term → Tidy s p.term
  | .name _, h => tidy_ident h.placed
  | .tuple _ ks, h => .intro h.placed trivial (tidy_patterns ks h.child)

theorem tidy_patterns : ∀ ks : List Pattern, (∀ c ∈ Pattern.term.terms ks, Neat V s c) →
    ∀ c ∈ Pattern.term.terms ks, Tidy s c
  | [], _ => by simp [Pattern.term.terms]
  | k :: ks, h => by
    rw [Pattern.term.terms, forall_mem_cons] at h ⊢
    exact ⟨tidy_pattern k h.1, tidy_patterns ks h.2⟩

end

/-! ## Naming -/

theorem makes_tidyLet {body : Term} (hbs : ∀ b ∈ bs, TidyBinding s0 b)
    (hbody : Tidy s0 body) : Makes s0 (Session.bind bs body) Tidy :=
  makes_let (fun _ b hb => (hbs b hb).1) (fun b hb => (hbs b hb).2) hbody

theorem makes_fresh (label : String) :
    Makes s0 (fresh gen label) fun s t => ∃ x : Ident, t = .ident x ∧ Placed s x.id := by
  cases gen with
  | none => exact fun _ _ _ _ hr => (returns_throw.mp hr).elim
  | some g =>
    exact (makes_freshPlain g label none).bind fun _ x _ _ => (makes_ident x).bind fun _ y _ hy =>
      makes_pure fun _ hs => ⟨y, rfl, hs.placed hy.1⟩

theorem makes_name (hp : Fitting s0 place) (ht : Tidy s0 t) (suggested : String) :
    Makes s0 (name gen place t suggested) Tidied := by
  have hfresh : ∀ label, Makes s0 (do
      let x ← fresh gen label
      pure { term := x, binding := some (x, t) }) Tidied := fun label =>
    (makes_fresh label).bind fun s1 x h1 hx => makes_pure fun s hs => by
      obtain ⟨y, rfl, hy⟩ := hx
      have hy := tidy_ident (hs.placed hy)
      exact ⟨hy, by simpa using ⟨⟨.name y, rfl⟩, hy, (h1.trans hs).term ht⟩⟩
  cases place with
  | none => exact makes_pure fun s hs => ⟨hs.term ht, by simp⟩
  | some p =>
    cases p with
    | target k =>
      obtain ⟨hp, hk⟩ := hp k rfl
      exact makes_pure fun s hs => ⟨hs.term hk, by simpa using ⟨hp, hs.term hk, hs.term ht⟩⟩
    | label l => exact hfresh l
    | «open» => exact hfresh suggested

theorem makes_composite (hp : Fitting s0 place) {base : String}
    (hbs : ∀ b ∈ bs, TidyBinding s0 b) (ht : Tidy s0 t) :
    Makes s0 (finish gen place base bs t) Tidied := by
  cases place with
  | none =>
    refine (makes_name fitting_open ht _).bind fun s1 r h1 hr => ?_
    exact (makes_tidyLet (forall_mem_append.mpr ⟨h1.tidyBindings hbs, hr.2⟩) hr.1).bind
      fun s2 u h2 hu => makes_pure fun s hs => ⟨hs.term hu, by simp⟩
  | some p =>
    unfold finish
    dsimp only
    split
    · exact (makes_pure fun s hs => hs.term ht).bind fun s1 u h1 hu =>
        makes_name (h1.fitting hp) hu _
    · exact (makes_tidyLet hbs ht).bind fun s1 u h1 hu => makes_name (h1.fitting hp) hu _

mutual

theorem makes_nameAll (t : Term) {place : Option Place} {s0 : Session}
    (ht : Neat V s0 t) (hp : Fitting s0 place) : Makes s0 (nameAll gen place t) Tidied := by
  cases t with
  | ident | literal =>
    rw [nameAll]
    exact makes_pure fun s hs => tidied_leaf rfl (hs.placed ht.placed)
  | bind id bs body =>
    obtain ⟨hbs, hbody⟩ := ht.bindings
    rw [nameAll]
    refine Makes.about (ht.placed _ rfl) ((makes_nameBindings bs fun b hb =>
      ⟨ht.here b hb, hbs b hb⟩).bind fun s1 cs h1 hcs => ?_)
    refine (makes_nameAll body (h1.term hbody) fitting_none).bind fun s2 r h2 hr => ?_
    refine (makes_tidyLet (h2.tidyBindings hcs) hr.1).bind
      fun s3 u h3 hu => ?_
    exact makes_name (((h1.trans h2).trans h3).fitting hp) hu _
  | apply id fn args =>
    obtain ⟨hfn, hargs⟩ := forall_mem_cons.mp ht.child
    rw [nameAll]
    refine Makes.about (ht.placed _ rfl) ((makes_nameAll fn hfn fitting_open).bind
      fun s1 f h1 hf => ?_)
    split
    next x hx =>
      refine (makes_nameParts args (h1.terms hargs)).bind fun s2 r h2 hr => ?_
      refine (makes_node (Term.apply · f.term r.1) (fun _ => rfl) (fun _ => ⟨x, hx⟩) fun _ =>
        forall_mem_cons.mpr ⟨h2.term hf.1, hr.1⟩).bind fun s3 u h3 hu => ?_
      exact makes_composite (((h1.trans h2).trans h3).fitting hp)
        (forall_mem_append.mpr ⟨(h2.trans h3).tidyBindings hf.2, h3.tidyBindings hr.2⟩) hu
    · exact fun _ _ _ _ hr => (returns_throw.mp hr).elim
  | tuple id items =>
    rw [nameAll]
    refine Makes.about (ht.placed _ rfl) ((makes_nameParts items ht.child).bind fun s1 r h1 hr => ?_)
    refine (makes_node (Term.tuple · r.1) (fun _ => rfl) (fun _ => trivial) fun _ => hr.1).bind
      fun s2 u h2 hu => ?_
    exact makes_composite ((h1.trans h2).fitting hp)
      (h2.tidyBindings hr.2) hu
  | closure id fn args =>
    obtain ⟨hfn, hargs⟩ := forall_mem_cons.mp ht.child
    rw [nameAll]
    refine Makes.about (ht.placed _ rfl) ((makes_nameAll fn hfn (fitting_label _)).bind
      fun s1 f h1 hf => ?_)
    refine (makes_nameParts args (h1.terms hargs)).bind fun s2 r h2 hr => ?_
    refine (makes_node (Term.closure · f.term r.1) (fun _ => rfl) (fun _ => trivial) fun _ =>
      forall_mem_cons.mpr ⟨h2.term hf.1, hr.1⟩).bind fun s3 u h3 hu => ?_
    exact makes_composite (((h1.trans h2).trans h3).fitting hp)
      (forall_mem_append.mpr ⟨(h2.trans h3).tidyBindings hf.2, h3.tidyBindings hr.2⟩) hu
  | sequence id steps =>
    rw [nameAll]
    refine Makes.about (ht.placed _ rfl) ?_
    split
    · exact fun _ _ _ _ hr => (returns_throw.mp hr).elim
    · exact makes_nameLast steps ht.child hp
    · have hnothing : ∀ s1, Makes s1 freshNothing fun s x => Placed s x.id := fun _ =>
        (makes_freshPlain _ _ _).bind fun _ x _ _ => (makes_ident x).mono fun _ _ _ h => h.1
      refine (makes_mapM (fun s1 _ _ => hnothing s1) (fun h => h.placed) _).bind fun s1 xs h1 hxs => ?_
      refine (makes_nameSteps steps (h1.terms ht.child) hxs).bind
        fun s2 bs h2 hbs => ?_
      split
      next x hx =>
        refine (makes_tidyLet hbs (tidy_ident (h2.placed (hxs x (mem_of_getLast? hx))))).bind
          fun s3 u h3 hu => ?_
        exact makes_name (((h1.trans h2).trans h3).fitting hp) hu _
      · exact fun _ _ _ _ hr => (returns_throw.mp hr).elim
  | lambda | assign | group => exact ht.here.elim

theorem makes_nameParts (ts : List Term) {base : String} {n : Nat}
    {s0 : Session} (hts : ∀ t ∈ ts, Neat V s0 t) : Makes s0 (nameParts gen base n ts) fun s r =>
      (∀ t ∈ r.1, Tidy s t) ∧ ∀ b ∈ r.2, TidyBinding s b := by
  cases ts with
  | nil =>
    rw [nameParts]
    exact makes_pure fun _ _ => by simp
  | cons t ts =>
    obtain ⟨ht, hts⟩ := forall_mem_cons.mp hts
    rw [nameParts]
    refine (makes_nameAll t ht (fitting_label _)).bind fun s1 r h1 hr => ?_
    refine (makes_nameParts ts (h1.terms hts)).bind fun s2 q h2 hq => ?_
    exact makes_pure fun s hs => ⟨forall_mem_cons.mpr ⟨(h2.trans hs).term hr.1, hs.terms hq.1⟩,
      forall_mem_append.mpr ⟨(h2.trans hs).tidyBindings hr.2, hs.tidyBindings hq.2⟩⟩

theorem makes_nameBindings (bs : List (Term × Term)) {s0 : Session}
    (hbs : ∀ b ∈ bs, NeatBinding V s0 b) :
    Makes s0 (nameBindings gen bs) fun s cs => ∀ b ∈ cs, TidyBinding s b := by
  cases bs with
  | nil =>
    rw [nameBindings]
    exact makes_pure fun _ _ => by simp
  | cons b rest =>
    obtain ⟨k, v⟩ := b
    obtain ⟨⟨⟨hp, -⟩, hk, hv⟩, hrest⟩ := forall_mem_cons.mp hbs
    have hk : Tidy s0 k := by
      obtain ⟨p, rfl⟩ := hp
      exact tidy_pattern p hk
    rw [nameBindings]
    refine (makes_nameAll v hv (fitting_target hp hk)).bind fun s1 r h1 hr => ?_
    refine (makes_nameBindings rest fun b hb => ⟨(hrest b hb).1, h1.term (hrest b hb).2.1,
      h1.term (hrest b hb).2.2⟩).bind fun s2 cs h2 hcs => makes_pure fun s hs => ?_
    exact forall_mem_cons.mpr ⟨(h2.trans hs).tidyBinding (hr.getD hp (h1.term hk)),
      hs.tidyBindings hcs⟩

theorem makes_nameLast (ts : List Term) {place : Option Place}
    {s0 : Session} (hts : ∀ t ∈ ts, Neat V s0 t) (hp : Fitting s0 place) :
    Makes s0 (nameLast gen place ts) Tidied := by
  cases ts with
  | nil => exact fun _ _ _ _ hr => (returns_throw.mp hr).elim
  | cons t ts =>
    obtain ⟨ht, hts⟩ := forall_mem_cons.mp hts
    cases ts with
    | nil => exact makes_nameAll t ht hp
    | cons u ts => exact makes_nameLast (u :: ts) hts hp

theorem makes_nameSteps (ts : List Term) {xs : List Ident} {s0 : Session}
    (hts : ∀ t ∈ ts, Neat V s0 t) (hxs : ∀ x ∈ xs, Placed s0 x.id) :
    Makes s0 (nameSteps gen xs ts) fun s bs => ∀ b ∈ bs, TidyBinding s b := by
  match xs, ts with
  | [], _ | _ :: _, [] =>
    rw [nameSteps]
    · exact makes_pure fun _ _ => by simp
    all_goals simp
  | x :: xs, t :: ts =>
    obtain ⟨ht, hts⟩ := forall_mem_cons.mp hts
    obtain ⟨hx, hxs⟩ := forall_mem_cons.mp hxs
    have hx := tidy_ident hx
    have hstep : Makes s0 (do
        let r ← nameAll gen (some (.target (.ident x))) t
        let bs ← nameSteps gen xs ts
        pure (r.binding.getD (.ident x, r.term) :: bs)) fun s bs => ∀ b ∈ bs, TidyBinding s b := by
      refine (makes_nameAll t ht (fitting_target ⟨.name x, rfl⟩ hx)).bind fun s1 r h1 hr =>
        (makes_nameSteps ts (h1.terms hts) (h1.idents hxs)).bind fun s2 bs h2 hbs =>
          makes_pure fun s hs => ?_
      exact forall_mem_cons.mpr ⟨(h2.trans hs).tidyBinding (hr.getD ⟨.name x, rfl⟩
        (h1.term hx)), hs.tidyBindings hbs⟩
    cases ts with
    | nil =>
      rw [nameSteps]
      exact hstep
    | cons u ts =>
      rw [nameSteps]
      · split
        · exact makes_nameSteps (u :: ts) hts (forall_mem_cons.mpr ⟨hx.placed, hxs⟩)
        · exact hstep
      all_goals simp

end

/-! ## Flattening -/

theorem tidy_open? (h : Tidy s t) :
    (∀ b ∈ (open? t).1, TidyBinding s b) ∧ Tidy s (open? t).2 := by
  cases t with
  | bind id bs body => exact ⟨fun b hb => ⟨h.here b hb, h.bindings.1 b hb⟩, h.bindings.2⟩
  | _ => exact ⟨by simp [open?], h⟩

mutual

theorem makes_flatten (t : Term) {s0 : Session} (ht : Tidy s0 t) : Makes s0 (flatten t) Tidy := by
  cases t with
  | ident | literal | closure =>
    rw [flatten]
    exact makes_pure fun s hs => hs.term ht
  | bind id bs body =>
    obtain ⟨hbs, hbody⟩ := tidy_open? ht
    rw [flatten]
    refine Makes.about (ht.placed _ rfl) ((makes_flattenBindings bs hbs).bind fun s1 cs h1 hcs => ?_)
    refine (makes_flatten body (h1.term hbody)).bind fun s2 u h2 hu => ?_
    obtain ⟨hmore, hu⟩ := tidy_open? hu
    exact makes_tidyLet (forall_mem_append.mpr ⟨h2.tidyBindings hcs, hmore⟩) hu
  | apply id fn args =>
    obtain ⟨x, rfl⟩ := ht.here
    obtain ⟨hfn, hargs⟩ := forall_mem_cons.mp ht.child
    rw [flatten, flatten, pure_bind]
    exact Makes.about (ht.placed _ rfl) ((makes_flattenAll args hargs).bind fun s1 ts h1 hts =>
      makes_node (Term.apply · (.ident x) ts) (fun _ => rfl) (fun _ => ⟨x, rfl⟩) fun _ =>
        forall_mem_cons.mpr ⟨h1.term hfn, hts⟩)
  | tuple id items =>
    rw [flatten]
    exact Makes.about (ht.placed _ rfl) ((makes_flattenAll items ht.child).bind fun s1 ts h1 hts =>
      makes_node (Term.tuple · ts) (fun _ => rfl) (fun _ => trivial) fun _ => hts)
  | lambda | sequence | assign | group => exact ht.here.elim

theorem makes_flattenAll (ts : List Term) {s0 : Session} (hts : ∀ t ∈ ts, Tidy s0 t) :
    Makes s0 (flattenAll ts) fun s us => ∀ u ∈ us, Tidy s u := by
  cases ts with
  | nil =>
    rw [flattenAll]
    exact makes_pure fun _ _ => by simp
  | cons t ts =>
    obtain ⟨ht, hts⟩ := forall_mem_cons.mp hts
    rw [flattenAll]
    refine (makes_flatten t ht).bind fun s1 u h1 hu => (makes_flattenAll ts (h1.terms hts)).bind
      fun s2 us h2 hus => makes_pure fun s hs => ?_
    exact forall_mem_cons.mpr ⟨(h2.trans hs).term hu, hs.terms hus⟩

theorem makes_flattenBindings (bs : List (Term × Term)) {s0 : Session}
    (hbs : ∀ b ∈ bs, TidyBinding s0 b) :
    Makes s0 (flattenBindings bs) fun s cs => ∀ b ∈ cs, TidyBinding s b := by
  cases bs with
  | nil =>
    rw [flattenBindings]
    exact makes_pure fun _ _ => by simp
  | cons b rest =>
    obtain ⟨k, v⟩ := b
    obtain ⟨⟨hp, hk, hv⟩, hrest⟩ := forall_mem_cons.mp hbs
    rw [flattenBindings]
    refine (makes_flatten v hv).bind fun s1 u h1 hu => ?_
    refine (makes_flattenBindings rest (h1.tidyBindings hrest)).bind
      fun s2 cs h2 hcs => makes_pure fun s hs => ?_
    obtain ⟨hinner, hu⟩ := tidy_open? hu
    exact forall_mem_append.mpr ⟨(h2.trans hs).tidyBindings hinner, forall_mem_cons.mpr
      ⟨⟨hp, ((h1.trans h2).trans hs).term hk, (h2.trans hs).term hu⟩, hs.tidyBindings hcs⟩⟩

end

/-! ## Functions -/

variable {l : Lambda} {o : Option Origin} {id new : TermId}

/-- The session after a function with a new body has been made, and registered. -/
def renewed (s : Session) (o o' : Option Origin) (l : Lambda) (body : Term) (ref : Symbol) : Session :=
  let s1 := withLambda (noted s o) s.origins.size { params := l.params, body, generator := l.generator }
  let s2 := afterDerived s1 Fixed.normal.id ref Relation.normal none
  registered (noted s2 o')
    ⟨s2.origins.size, ((s1.generators.getD Fixed.normal.id default).derive ref Relation.normal none).1⟩
    s.origins.size

theorem returns_flatten_lambda {n : TermId} {params : List Ident} {body u : Term}
    (hl : s.lambda? n = some l) :
    Returns (flatten (.lambda n params body)) o s u s' ↔ ∃ o1 t s1,
      some ⟨.term (.lambda n params body), "collapse-let"⟩ = o1 ∧ Returns (flatten body) o1 s t s1 ∧
      .lambda s1.origins.size params t = u ∧ withLambda (noted s1 o1) s1.origins.size
        { params, body := t, generator := l.generator } = s' := by
  simp only [flatten, returns_about, returns_bind, returns_getLambda, hl, Option.some.injEq, and_assoc,
    exists_and_left, exists_eq_left', returns_newLambda, returns_pure]

theorem returns_ofLambda (hl : s.lambda? id = some l) :
    Returns (ofLambda id) o s new s' ↔ ∃ o1 o2 r t s1 s2 ref,
      o1 = some ⟨.term (lambdaTerm id l), "a-normal"⟩ ∧
      Returns (nameAll l.generator none l.body) o1 s r s1 ∧
      o2 = some ⟨.term (.lambda s1.origins.size l.params r.term), "collapse-let"⟩ ∧
      Returns (flatten r.term) o2 (withLambda (noted s1 o1) s1.origins.size
        { params := l.params, body := r.term, generator := l.generator }) t s2 ∧
      l.ref = some ref ∧ s2.origins.size = new ∧ renewed s2 o2 o l t ref.sym = s' := by
  unfold ofLambda lambdaTerm
  simp only [returns_bind, returns_getLambda, hl, Option.some.injEq, and_assoc, exists_and_left,
    exists_eq_left', nameAll, about, returns_about, returns_newLambda, name, returns_pure]
  constructor
  · rintro ⟨_, _, ⟨r, s1, hname, rfl, rfl⟩, u, s2, hflat, hret⟩
    obtain ⟨_, t, s3, rfl, hbody, rfl, rfl⟩ := (returns_flatten_lambda (withLambda_lambda? _ _)).mp hflat
    dsimp only at hret
    split at hret
    · exact (returns_throw.mp hret).elim
    next ref href =>
      simp only [returns_bind, returns_freshDerived, returns_ident, returns_associate,
        returns_pure] at hret
      obtain ⟨_, _, ⟨rfl, rfl⟩, _, _, ⟨rfl, rfl⟩, _, _, rfl, rfl, rfl⟩ := hret
      exact ⟨_, rfl, _, r, t, s1, hname, rfl, s3, hbody, ref, href, rfl, rfl⟩
  · rintro ⟨_, rfl, _, r, t, s1, hname, rfl, s2, hflat, ref, href, rfl, rfl⟩
    refine ⟨_, _, ⟨r, s1, hname, rfl, rfl⟩, _, _, (returns_flatten_lambda
      (withLambda_lambda? _ _)).mpr ⟨_, t, s2, rfl, hflat, rfl, rfl⟩, ?_⟩
    simp only [href, returns_bind, returns_freshDerived, returns_ident, returns_associate, returns_pure]
    exact ⟨_, _, ⟨rfl, rfl⟩, _, _, ⟨rfl, rfl⟩, (), _, rfl, trivial, rfl⟩

theorem kept_of_origins (ho : s'.origins = s.origins) (hf : Further s s') (hh : s.hidden ≤ s'.hidden) :
    Kept s s' :=
  ⟨fun _ => sited_of_origins ho, hf, hh⟩

theorem kept_noted (s : Session) (o : Option Origin) : Kept s (noted s o) := (onward_noted s o).toKept

theorem kept_withLambda (s : Session) (i : TermId) (l : Lambda) : Kept s (withLambda s i l) :=
  kept_of_origins rfl (.of_generators rfl) le_rfl

theorem kept_renewed (s : Session) (o o' : Option Origin) (l : Lambda) (t : Term) (ref : Symbol) :
    Kept (noted s o) (renewed s o o' l t ref) := by
  unfold renewed
  extract_lets s1 s2
  have h2 : Kept s1 s2 := kept_of_origins rfl further_afterDerived le_rfl
  refine (kept_withLambda _ _ _).trans (h2.trans ((kept_noted s2 o').trans ?_))
  exact kept_of_origins rfl (.of_generators rfl) le_rfl

theorem renewed_lambda? (s : Session) (o o' : Option Origin) (l : Lambda) (t : Term) (ref : Symbol) :
    ∃ x, (renewed s o o' l t ref).lambda? s.origins.size =
      some { params := l.params, body := t, generator := l.generator, ref := some x } :=
  ⟨_, (registered_lambda? _ _ _).trans (by
    rw [noted_lambda?, afterDerived_lambda?, withLambda_lambda?, Option.map_some, if_pos rfl])⟩

theorem tidy_ofLambda {m : Nat} (hw : Written s id l m) (hl : s.lambda? id = some l)
    (h : Returns (ofLambda id) o s new s') :
    ∃ l', s'.lambda? new = some l' ∧ l'.params = l.params ∧ (∃ x, l'.ref = some x) ∧ Placed s' new ∧
      Tidy s' l'.body := by
  obtain ⟨_, _, r, t, s1, s2, ref, rfl, hname, rfl, hflat, -, rfl, rfl⟩ := (returns_ofLambda hl).mp h
  have ho : About s (some ⟨.term (lambdaTerm id l), "a-normal"⟩) := ⟨_, rfl, hw.placed _ rfl⟩
  obtain ⟨h1, hr⟩ := makes_nameAll l.body hw.body fitting_none hname (.refl s) ho
  -- the function with the named body, which what flattening makes is about
  have hlambda := kept_withLambda (noted s1 (some ⟨.term (lambdaTerm id l), "a-normal"⟩))
    s1.origins.size { params := l.params, body := r.term, generator := l.generator }
  have hnew := hlambda.placed (placed_noted (h1.about ho))
  have h12 := (kept_noted s1 _).trans hlambda
  have ho' : About _ (some ⟨.term (.lambda s1.origins.size l.params r.term), "collapse-let"⟩) :=
    ⟨_, rfl, hnew _ rfl⟩
  obtain ⟨h2, ht⟩ := makes_flatten r.term (h12.term hr.1) hflat (.refl _) ho'
  have h3 := kept_renewed s2 (some ⟨.term (.lambda s1.origins.size l.params r.term), "collapse-let"⟩) o l
    t ref.sym
  obtain ⟨x, hx⟩ := renewed_lambda? s2
    (some ⟨.term (.lambda s1.origins.size l.params r.term), "collapse-let"⟩) o l t ref.sym
  exact ⟨_, hx, rfl, ⟨x, rfl⟩, h3.placed (placed_noted (h2.about ho')),
    h3.term ((kept_noted _ _).term ht)⟩

/-! ## Sessions -/

instance : Making Kept where
  refl s := (Onward.refl s).toKept
  trans _ _ _ := Kept.trans
  noted := kept_noted
  plain _ _ _ := kept_of_origins rfl further_afterPlain le_rfl
  function s o _ _ := (kept_noted s o).trans (kept_withLambda _ _ _)

theorem kept_ofLambda (h : Returns (ofLambda id) o s new s') : Kept s s' := by
  obtain ⟨l, _, hl, -⟩ := returns_bind.mp h
  obtain ⟨_, _, r, t, s1, s2, ref, -, hname, -, hflat, -, -, rfl⟩ :=
    (returns_ofLambda (returns_getLambda.mp hl).1).mp h
  have h1 : Kept s s1 := keeps_nameAll _ _ _ _ _ _ _ hname
  have h2 : Kept _ s2 := keeps_flatten _ _ _ _ _ hflat
  exact (h1.trans ((kept_noted _ _).trans (kept_withLambda _ _ _))).trans
    (h2.trans ((kept_noted _ _).trans (kept_renewed _ _ _ _ _ _)))

abbrev Converted : Session → Session → Prop :=
  Relation.ReflTransGen fun s s' => ∃ o id new, Returns (ofLambda id) o s new s'

theorem converted_later (hs : Sound s) (h : Converted s s') : Grows s s' ∧ Kept s s' := by
  induction h with
  | refl => exact ⟨.refl s, (Onward.refl s).toKept⟩
  | tail _ h ih =>
    obtain ⟨o, id, new, h⟩ := h
    exact ⟨ih.1.trans (Gradient.keeps_ofLambda id _ _ _ _ h (ih.1.sound hs)), ih.2.trans (kept_ofLambda h)⟩

theorem lt_of_placed {i : TermId} (h : Placed s i) : i < s.origins.size := by
  have h := h (.group i []) rfl
  rw [Sited] at h
  cases hk : s.origins.size with
  | zero =>
    rw [hk] at h
    cases h
  | succ k =>
    rw [hk, placeOf] at h
    split at h
    next r hr => exact hk ▸ lt_of_origin hr
    · cases h

theorem written_later {m : Nat} (hw : Written s id l m) (hl : s.lambda? id = some l) (hg : Grows s s')
    (hk : Kept s s') : ∃ l', s'.lambda? id = some l' ∧ core l' = core l ∧ Written s' id l' m := by
  obtain ⟨l', hl', hcore⟩ := hg.lambda? (lt_of_placed hw.placed) hl
  exact ⟨l', hl', hcore, written_of_core hcore (hk.written hw)⟩

theorem made_readText {url : String} {firstLine : Nat} {stmts : List Source.Stmt}
    {grouping : Option Nat} {v : Value} (hs : Sound s)
    (h : Returns (Program.readText url firstLine stmts grouping) o s v s')
    (hnew : s.lambda? id = none) (hl : s'.lambda? id = some l) :
    Sound s' ∧ Made l ∧ ∃ m, Written s' id l m := by
  obtain ⟨-, x, s1, hreg, -, -, hresolve⟩ := registers_readText hs h
  have hold : ∀ l', s.lambda? id ≠ some l' := fun l' hl' => by simp [hnew] at hl'
  have hsound := hreg.grows.sound hs
  refine ⟨?_, ?_, ((onward_readText h).functions id l hl).resolve_left fun ⟨l', hl', _⟩ => hold l' hl'⟩
  · rcases Program.returns_resolve hresolve with ⟨-, rfl⟩ | ⟨-, rfl⟩
    · exact hsound
    · exact ⟨hsound.fixed, hsound.globals, hsound.refs⟩
  · have hl : s1.lambda? id = some l := by
      rcases Program.returns_resolve hresolve with ⟨-, rfl⟩ | ⟨-, rfl⟩ <;> exact hl
    exact (hreg.made id l hl).resolve_left fun ⟨l', hl', _⟩ => hold l' hl'

/-! ## Nodes without a place -/

open Scoping

theorem placeless_nil (h : Placed s t.id) : placeless s t = [] := by
  rw [placeless, if_neg]
  simpa using Option.isSome_iff_ne_none.mp (h t rfl)

mutual

theorem missing_nil : ∀ {t : Term}, Neat V s t → missing s t = .ok []
  | .ident _, h | .literal .., h => by
    rw [missing, placeless_nil h.placed]
    rfl
  | .bind _ bs body, h => by
    obtain ⟨hbs, hbody⟩ := h.bindings
    rw [missing, placeless_nil h.placed, missingBindings_nil hbs, missing_nil hbody]
    rfl
  | .apply _ fn args, h | .closure _ fn args, h => by
    obtain ⟨hfn, hargs⟩ := forall_mem_cons.mp h.child
    rw [missing, placeless_nil h.placed, missing_nil hfn, missingAll_nil hargs]
    rfl
  | .sequence _ ts, h | .tuple _ ts, h => by
    have hts : ∀ t ∈ ts, Neat V s t := h.child
    rw [missing, placeless_nil h.placed, missingAll_nil hts]
    rfl
  | .lambda .., h | .assign .., h | .group .., h => h.here.elim

theorem missingAll_nil : ∀ {ts : List Term}, (∀ t ∈ ts, Neat V s t) → missingAll s ts = .ok []
  | [], _ => by
    rw [missingAll]
    rfl
  | t :: ts, h => by
    obtain ⟨ht, hts⟩ := forall_mem_cons.mp h
    rw [missingAll, missing_nil ht, missingAll_nil hts]
    rfl

theorem missingBindings_nil : ∀ {bs : List (Term × Term)},
    (∀ b ∈ bs, Neat V s b.1 ∧ Neat V s b.2) → missingBindings s bs = .ok []
  | [], _ => by
    rw [missingBindings]
    rfl
  | (k, v) :: rest, h => by
    obtain ⟨⟨hk, hv⟩, hrest⟩ := forall_mem_cons.mp h
    rw [missingBindings, missing_nil hk, missing_nil hv, missingBindings_nil hrest]
    rfl

end

theorem missing_lambda (hid : Placed s id) (hparams : ∀ p ∈ l.params, Placed s p.id)
    (hbody : Neat V s l.body) : missing s (lambdaTerm id l) = .ok [] := by
  have hnil : (l.params.flatMap fun p => placeless s (.ident p)) = [] :=
    flatMap_eq_nil_iff.mpr fun p hp => placeless_nil (hparams p hp)
  rw [lambdaTerm, missing, placeless_nil hid, hnil, missing_nil hbody]
  rfl

theorem Tidy.neat (h : Tidy s t) : Neat (fun _ => True) s t := by
  induction h with
  | @intro t hp hd _ ih =>
    refine .intro hp ?_ ih
    cases t with
    | bind id bs body => exact fun b hb => ⟨hd b hb, fun _ _ => trivial⟩
    | lambda => exact hd
    | assign => exact hd
    | group => exact hd
    | _ => trivial

/-- Every node of a function that is made while a text is read has a place, and so has every node of its
A-normal form, whatever is converted before. -/
theorem readText_located {url : String} {firstLine : Nat} {stmts : List Source.Stmt}
    {grouping : Option Nat} {v : Value} (hs : Sound s)
    (h : Returns (Program.readText url firstLine stmts grouping) o s v s')
    (hnew : s.lambda? id = none) (hl : s'.lambda? id = some l) :
    missing s' (lambdaTerm id l) = .ok [] ∧
      ∀ {s₁ s₂ : Session} {o₁ : Option Origin} {n : TermId}, Converted s' s₁ →
        Returns (ofLambda id) o₁ s₁ n s₂ →
        ∃ l', s₂.lambda? n = some l' ∧ missing s₂ (lambdaTerm n l') = .ok [] := by
  obtain ⟨hs', -, m, hw⟩ := made_readText hs h hnew hl
  refine ⟨missing_lambda hw.placed (fun p hp => (hw.params p hp).1) hw.body, fun hc hret => ?_⟩
  obtain ⟨hg, hk⟩ := converted_later hs' hc
  obtain ⟨l₁, hl₁, -, hw₁⟩ := written_later hw hl hg hk
  obtain ⟨l', hl', hparams, -, hplaced, htidy⟩ := tidy_ofLambda hw₁ hl₁ hret
  refine ⟨l', hl', missing_lambda hplaced (fun p hp => ?_) htidy.neat⟩
  exact (kept_ofLambda hret).placed (hw₁.params p (hparams ▸ hp)).1

theorem readText_located_nested :
    ∃ v s', Returns (Program.readText "text" 1 [nestedText] none) none initial v s' ∧
      s'.lambdas.length = 4 ∧ ∀ id l, s'.lambda? id = some l →
        missing s' (lambdaTerm id l) = .ok [] ∧ ∀ o n s₂, Returns (ofLambda id) o s' n s₂ →
          ∃ l', s₂.lambda? n = some l' ∧ missing s₂ (lambdaTerm n l') = .ok [] := by
  obtain ⟨v, s', h, -, hlength⟩ := exists_readText_nested
  refine ⟨v, s', h, hlength, fun id l hl => ?_⟩
  obtain ⟨hread, hlater⟩ := readText_located sound_initial h rfl hl
  exact ⟨hread, fun o n s₂ hret => hlater .refl hret⟩

end DiffLang.Normal
