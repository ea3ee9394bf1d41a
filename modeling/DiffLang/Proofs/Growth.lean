import DiffLang.Proofs.Reading.Quiet
import DiffLang.Proofs.Term.Freshness

/-!
# Sessions that grow

Whatever the compiler does, the session afterwards knows at least as much: numbers are not given
back, generators only count on, and a function stays what it is, except for the name that it is
known by. `Grows` says this of two sessions. It holds across every step that makes a symbol, a node,
a generator or a function, so it holds across whole runs, and a variable made in one part of a run
differs from those made in another (`New.ne`).

A session is `Sound` if the generators of global names make global names, and if the functions are
known by such names only.
-/

namespace DiffLang.Growth

open Run Session Freshness List

/-! ## Generators -/

/-- The generators of one session are those of another, further on, and perhaps more. -/
structure Further (s s' : Session) : Prop where
  size : s.generators.size ≤ s'.generators.size
  space : ∀ i < s.generators.size, (generator s' i).space = (generator s i).space
  count : ∀ i < s.generators.size, ∀ key, (generator s i).count key ≤ (generator s' i).count key

variable {s s1 s2 s3 s' : Session} {o : Option Origin}

theorem Further.refl (s : Session) : Further s s :=
  ⟨le_rfl, fun _ _ => rfl, fun _ _ _ => le_rfl⟩

theorem Further.trans (h : Further s1 s2) (h' : Further s2 s3) : Further s1 s3 := by
  refine ⟨h.size.trans h'.size, fun i hi => ?_, fun i hi key => ?_⟩
  · rw [h'.space i (hi.trans_le h.size), h.space i hi]
  · exact Nat.le_trans (h.count i hi key) (h'.count i (hi.trans_le h.size) key)

theorem Further.of_later (h : Later s s') : Further s s' :=
  ⟨h.size.symm.le, fun i _ => h.space i, fun i _ key => h.count i key⟩

theorem Further.of_generators (h : s'.generators = s.generators) : Further s s' :=
  .of_later (Later.of_generators h)

theorem Further.of_push {g : Generator} (h : s'.generators = s.generators.push g) :
    Further s s' := by
  have hgen : ∀ i < s.generators.size, generator s' i = generator s i := by
    intro i hi
    simp [generator, h, Array.getD_eq_getD_getElem?, Array.getElem?_push, hi.ne]
  refine ⟨by rw [h, Array.size_push]; exact Nat.le_succ _, fun i hi => ?_, fun i hi key => ?_⟩
  · rw [hgen i hi]
  · exact Nat.le_of_eq (by rw [hgen i hi])

variable {g : GeneratorId} {version : Option Nat} {label relation : String} {base x : Symbol}
  {space : Namespace} {xs ys : List Symbol}

theorem further_afterPlain : Further s (afterPlain s g label version) := .of_later later_afterPlain

theorem further_afterDerived : Further s (afterDerived s g base relation version) :=
  .of_later later_afterDerived

theorem Further.keeps_space (h : Further s s')
    (hg : g < s.generators.size ∧ (generator s g).space = space) :
    g < s'.generators.size ∧ (generator s' g).space = space :=
  ⟨hg.1.trans_le h.size, by rw [h.space g hg.1, hg.2]⟩

/-! ## New symbols -/

/-- A generator can make a symbol of its space at first, and can not any more later. -/
def New (g : GeneratorId) (s s' : Session) (x : Symbol) : Prop :=
  ¬ Covers (generator s g) x ∧ Covers (generator s' g) x ∧ x.space = (generator s' g).space

theorem Further.covers (h : Further s s') (hg : g < s.generators.size)
    (hx : Covers (generator s g) x) : Covers (generator s' g) x := by
  cases x with
  | plain | derived => exact hx.trans (h.count g hg _)

theorem New.of_further (h : New g s1 s2 x) (hg : g < s.generators.size) (h1 : Further s s1)
    (h2 : Further s2 s3) (h12 : Further s1 s2) : New g s s3 x :=
  have hg2 := hg.trans_le (h1.size.trans h12.size)
  ⟨fun hx => h.1 (h1.covers hg hx), h2.covers hg2 h.2.1, h.2.2.trans (h2.space g hg2).symm⟩

theorem New.ne {y : Symbol} (hx : New g s s1 x) (hy : New g s1 s' y) :
    x ≠ y := by
  rintro rfl
  exact hy.1 hx.2.1

/-- Different symbols, all made between two sessions. -/
structure Fresh (g : GeneratorId) (s s' : Session) (xs : List Symbol) : Prop where
  nodup : xs.Nodup
  new : ∀ x ∈ xs, New g s s' x

theorem Fresh.nil : Fresh g s s' [] := ⟨nodup_nil, by simp⟩

theorem Fresh.append (hx : Fresh g s s1 xs) (hy : Fresh g s1 s' ys) (hg : g < s.generators.size)
    (h : Further s s1) (h' : Further s1 s') : Fresh g s s' (xs ++ ys) := by
  refine ⟨nodup_append.mpr ⟨hx.nodup, hy.nodup, fun x hx' y hy' => ?_⟩, fun x hmem => ?_⟩
  · exact (hx.new x hx').ne (hy.new y hy')
  · rcases mem_append.mp hmem with hmem | hmem
    · exact (hx.new x hmem).of_further hg (Further.refl s) h' h
    · exact (hy.new x hmem).of_further hg h (Further.refl s') h'

theorem Fresh.perm (h : Fresh g s s' xs) (hp : xs.Perm ys) : Fresh g s s' ys :=
  ⟨hp.nodup_iff.mp h.nodup, fun x hx => h.new x (hp.mem_iff.mpr hx)⟩

theorem new_afterPlain (hg : g < s.generators.size) :
    New g s (afterPlain s g label none) ((generator s g).plain label none).1 := by
  have hgen : generator (afterPlain s g label none) g = ((generator s g).plain label none).2 :=
    (generator_of_set rfl g).trans (if_pos ⟨rfl, hg⟩)
  refine ⟨(Request.plain label).not_covers _, ?_, ?_⟩
  · rw [hgen]
    exact (Request.plain label).covers _
  · rw [hgen]
    rfl

/-! ## Several generators -/

variable {G : GeneratorId → Prop} {ref : Ident}

theorem Further.distinct (h : Further s s') (hd : Distinct G s) : Distinct G s' := by
  refine ⟨fun i hi => Nat.lt_of_lt_of_le (hd.there i hi) h.size, fun i j hi hj hij => ?_⟩
  rw [h.space i (hd.there i hi), h.space j (hd.there j hj)] at hij
  exact hd.apart i j hi hj hij

theorem Further.old (h : Further s s') (hd : Distinct G s) (hx : Old G s x) :
    Old G s' x := by
  intro i hi hsp
  rw [h.space i (hd.there i hi)] at hsp
  exact h.covers (hd.there i hi) (hx i hi hsp)

/-! ## Sessions -/

/-- The generators of global names make global names, and functions are known by such names. -/
structure Sound (s : Session) : Prop where
  fixed : ∀ i space, fixedSpaces[i]? = some space →
    i < s.generators.size ∧ (generator s i).space = space
  globals : ∀ url g, s.globalGenerators.lookup url = some g →
    g < s.generators.size ∧ (generator s g).space = .named ("global:" ++ url)
  refs : ∀ id l r, s.lambda? id = some l → l.ref = some r → r.sym.isGlobal = true

theorem sound_initial : Sound initial := by
  refine ⟨fun i space hi => ?_, fun url g hg => ?_, fun id l r hl => ?_⟩
  · have hi' : i < fixedSpaces.length := by
      obtain ⟨h, -⟩ := List.getElem?_eq_some_iff.mp hi
      exact h
    refine ⟨by simpa [initial] using hi', ?_⟩
    simp [initial, generator, Array.getD_eq_getD_getElem?, hi]
  · cases hg
  · cases hl

def core (l : Lambda) : Lambda := { l with ref := none, primal := none }

@[simp] theorem core_params (l : Lambda) : (core l).params = l.params := rfl
@[simp] theorem core_body (l : Lambda) : (core l).body = l.body := rfl

/-- One session knows everything that another does. -/
structure Grows (s s' : Session) : Prop where
  nodes : s.origins.size ≤ s'.origins.size
  further : Further s s'
  old : ∀ id < s.origins.size, (s'.lambda? id).map core = (s.lambda? id).map core
  sound : Sound s → Sound s'

theorem Grows.refl (s : Session) : Grows s s :=
  ⟨le_rfl, Further.refl s, fun _ _ => rfl, id⟩

theorem Grows.trans (h : Grows s1 s2) (h' : Grows s2 s3) : Grows s1 s3 := by
  refine ⟨h.nodes.trans h'.nodes, h.further.trans h'.further, fun id hid => ?_,
    fun hs => h'.sound (h.sound hs)⟩
  rw [h'.old id (hid.trans_le h.nodes), h.old id hid]

instance : IsPreorder Session Grows where
  refl := Grows.refl
  trans _ _ _ := Grows.trans

theorem Grows.lambda? (h : Grows s s') {id : TermId} {l : Lambda} (hid : id < s.origins.size)
    (hl : s.lambda? id = some l) : ∃ l', s'.lambda? id = some l' ∧ core l' = core l := by
  have hold := h.old id hid
  rw [hl] at hold
  exact Option.map_eq_some_iff.mp hold

theorem Grows.of_still (hnodes : s.origins.size ≤ s'.origins.size) (hfurther : Further s s')
    (hlambdas : s'.lambdas = s.lambdas)
    (hglobals : s'.globalGenerators = s.globalGenerators) : Grows s s' := by
  have hl : ∀ id, s'.lambda? id = s.lambda? id := fun id => by
    unfold Session.lambda?
    rw [hlambdas]
  refine ⟨hnodes, hfurther, fun id _ => by rw [hl], fun hs =>
    ⟨fun i space hi => hfurther.keeps_space (hs.fixed i space hi), ?_, ?_⟩⟩
  · intro url g hg
    rw [hglobals] at hg
    exact hfurther.keeps_space (hs.globals url g hg)
  · intro id l r hid hr
    rw [hl] at hid
    exact hs.refs id l r hid hr

theorem Grows.of_quiet (h : Reading.Quiet s s') : Grows s s' := by
  refine Grows.of_still h.size ?_ (by rw [h.rest]) (by rw [h.rest])
  exact Further.of_generators (by rw [h.rest])

theorem grows_noted (s : Session) (o : Option Origin) : Grows s (noted s o) :=
  Grows.of_quiet (Reading.Quiet.noted s o)

theorem grows_afterPlain :
    Grows s (afterPlain s g label version) :=
  Grows.of_still le_rfl further_afterPlain rfl rfl

theorem grows_afterDerived : Grows s (afterDerived s g base relation version) :=
  Grows.of_still le_rfl further_afterDerived rfl rfl

/-! ## New generators -/

theorem returns_privateGenerator (h : Returns privateGenerator o s g s') :
    g < s'.generators.size ∧ (generator s' g).space.isGlobal = false ∧
      (s'.registry = s.registry ∧ s'.lambdas = s.lambdas) ∧ Grows s s' := by
  unfold privateGenerator at h
  rw [returns_modifyGet] at h
  injection h with hg hs
  subst hg hs
  refine ⟨by simp, ?_, ⟨rfl, rfl⟩, Grows.of_still le_rfl (Further.of_push rfl) rfl rfl⟩
  simp [generator, Array.getD_eq_getD_getElem?, Namespace.isGlobal]

theorem isGlobal_global (url : String) :
    (Namespace.named ("global:" ++ url)).isGlobal = true := by
  unfold Namespace.isGlobal
  rw [String.startsWith_string_iff, String.toList_append]
  exact prefix_append _ _

theorem returns_globalGenerator {url : String} (hs : Sound s)
    (h : Returns (globalGenerator url) o s g s') :
    g < s'.generators.size ∧ (generator s' g).space.isGlobal = true ∧
      (s'.registry = s.registry ∧ s'.lambdas = s.lambdas) ∧ Grows s s' := by
  unfold globalGenerator at h
  rw [returns_get_bind] at h
  split at h
  next g' hg' =>
    rw [returns_pure] at h
    obtain ⟨rfl, rfl⟩ := h
    obtain ⟨hlt, hspace⟩ := hs.globals url g' hg'
    exact ⟨hlt, by rw [hspace]; exact isGlobal_global url, ⟨rfl, rfl⟩, Grows.refl s⟩
  next hnone =>
    simp only [newGenerator, returns_bind, returns_modifyGet, returns_modify, returns_pure,
      Prod.mk.injEq] at h
    obtain ⟨_, _, ⟨rfl, rfl⟩, _, _, rfl, rfl, rfl⟩ := h
    have hspace : ∀ l, generator
        { s with
          generators := s.generators.push { space := .named ("global:" ++ url) }
          globalGenerators := l } s.generators.size =
        { space := .named ("global:" ++ url) } := by
      intro l
      simp [generator, Array.getD_eq_getD_getElem?]
    have hfurther : Further s
        { s with
          generators := s.generators.push { space := .named ("global:" ++ url) }
          globalGenerators := s.globalGenerators ++ [(url, s.generators.size)] } :=
      Further.of_push rfl
    refine ⟨by simp, by rw [hspace]; exact isGlobal_global url, ⟨rfl, rfl⟩, le_rfl,
      hfurther, fun _ _ => rfl, fun hs => ⟨fun i space hi => hfurther.keeps_space (hs.fixed i space hi),
        fun url' g hg => ?_, hs.refs⟩⟩
    rw [lookup_append] at hg
    cases hold : s.globalGenerators.lookup url' with
    | some g' =>
      rw [hold] at hg
      injection hg with hg
      subst hg
      exact hfurther.keeps_space (hs.globals url' g' hold)
    | none =>
      rw [hold, Option.none_or, lookup_cons] at hg
      by_cases hurl : url' = url
      · subst hurl
        simp only [beq_self_eq_true, Option.some.injEq] at hg
        subst hg
        exact ⟨by simp, by rw [hspace]⟩
      · have hne : (url' == url) = false := by simpa using hurl
        rw [hne] at hg
        cases hg

/-! ## New functions -/

theorem grows_newLambda (s : Session) (o : Option Origin) (l : Lambda) (hl : l.ref = none) :
    Grows s (withLambda (noted s o) s.origins.size l) := by
  refine ⟨by simp [withLambda], Further.of_generators rfl, fun id hid => ?_,
    fun hs => ⟨hs.fixed, hs.globals, fun id l' r hl' hr => ?_⟩⟩
  · have hne : (id == s.origins.size) = false := by
      simpa using hid.ne
    simp [withLambda, Session.lambda?, noted, lookup_cons, hne]
  · by_cases hid : id = s.origins.size
    · rw [hid, withLambda_lambda?] at hl'
      injection hl' with hl'
      rw [← hl', hl] at hr
      cases hr
    · have hne : (id == s.origins.size) = false := by simpa using hid
      refine hs.refs id l' r ?_ hr
      simpa [withLambda, Session.lambda?, noted, lookup_cons, hne] using hl'

/-- Changing only the names that a function is known by. -/
theorem grows_changed (s : Session) (id : TermId) (f : Lambda → Lambda)
    (hcore : ∀ l, core (f l) = core l)
    (href : ∀ l r, (f l).ref = some r → l.ref = some r ∨ r.sym.isGlobal = true) :
    Grows s (changed s id f) := by
  refine ⟨le_rfl, Further.of_generators rfl, fun i _ => ?_,
    fun hs => ⟨hs.fixed, hs.globals, fun i l r hl hr => ?_⟩⟩
  · rw [changed_lambda?, Option.map_map]
    congr 1
    funext l
    simp only [Function.comp_apply]
    split
    · exact hcore l
    · rfl
  · rw [changed_lambda?, Option.map_eq_some_iff] at hl
    obtain ⟨l0, hl0, rfl⟩ := hl
    split at hr
    · rcases href l0 r hr with h | h
      · exact hs.refs i l0 r hl0 h
      · exact h
    · exact hs.refs i l0 r hl0 hr

theorem grows_registered (href : ref.sym.isGlobal = true) (s : Session) (id : TermId) :
    Grows s (registered s ref id) := by
  have h := grows_changed s id (fun l => { l with ref := some ref }) (fun _ => rfl) fun l r hr => by
    injection hr with hr
    subst hr
    exact .inr href
  exact ⟨h.nodes, ⟨h.further.size, h.further.space, h.further.count⟩, h.old,
    fun hs => ⟨(h.sound hs).fixed, (h.sound hs).globals, (h.sound hs).refs⟩⟩

/-! ## Sound sessions -/

def Sure (s s' : Session) : Prop := Sound s → Grows s s'

instance : Deriving Sure where
  refl s _ := Grows.refl s
  trans _ _ _ h h' hs := (h hs).trans (h' ((h hs).sound hs))
  noted s o _ := grows_noted s o
  plain _ _ _ _ := grows_afterPlain
  function s o l hl _ := grows_newLambda s o l hl
  derived _ _ _ _ _ := grows_afterDerived

theorem derive_isGlobal {g : Generator}
    (h : g.space.isGlobal = true) : (g.derive base relation version).1.isGlobal = true := by
  unfold Generator.derive Symbol.isGlobal Symbol.space
  simp only
  rw [choose_space]
  exact h

theorem returns_fixed {f : Fixed} (hf : fixedSpaces[f.id]? = some space)
    (hg : space.isGlobal = true) (hs : Sound s)
    (h : Returns (freshDerived f.id base relation) o s x s') : x.isGlobal = true := by
  rw [returns_freshDerived] at h
  rw [← h.1]
  refine derive_isGlobal ?_
  have hspace := (hs.fixed f.id space hf).2
  unfold generator at hspace
  rw [hspace]
  exact hg

theorem keeps_named {α : Type} (fixed : Fixed) (hf : fixedSpaces[fixed.id]? = some space)
    (hg : space.isGlobal = true) {f : Ident → Run α}
    (h : ∀ ref : Ident, ref.sym.isGlobal = true → Keeps Sure (f ref)) :
    Keeps Sure (freshDerived fixed.id base relation >>= fun x => ident x >>= f) := by
  intro o s a s' hr hs
  simp only [returns_bind] at hr
  obtain ⟨x, s1, hx, ref, s2, href, hr⟩ := hr
  have hglobal := returns_fixed hf hg hs hx
  have h1 := keeps_freshDerived (R := Sure) _ _ _ _ hx hs
  rw [returns_ident] at href
  obtain ⟨rfl, rfl⟩ := href
  have h2 := h1.trans (grows_noted _ o)
  exact h2.trans (h _ hglobal o _ _ _ hr (h2.sound hs))

theorem keeps_createLambda (href : ref.sym.isGlobal = true) (params : List Ident) (body : Term)
    (g : Option GeneratorId) : Keeps Sure (createLambda ref params body g) := by
  refine (keeps_newLambda params body g).bind fun id => .bind ?_ fun _ => keeps_pure _
  intro o s a s' h _
  rw [returns_associate] at h
  rw [← h]
  exact grows_registered href s id

end DiffLang.Growth
