import DiffLang.Gradient
import DiffLang.Proofs.Growth
import DiffLang.Proofs.Reading.Bound
import Mathlib.Data.List.Forall2

/-!
# Variables of the transformation

The transformation of a function makes variables of several kinds: augmented ones, sensitivities,
backpropagators, temporaries. `Tidy` is what holds of its state at any time, given the variables
`E` that are set by the code made so far: all variables made are different, what the backpropagator
needs comes from the forward part, a latest sensitivity is one that starts at zero or is set in the
code made so far, and the values that sensitivities start at are made of what is needed only.

`Goes E E'` says that a step keeps this, when it makes code that sets the variables that `E'` has more
than `E`, and that it takes nothing back.
-/

namespace DiffLang.Gradient

open Run Session Growth Freshness Scoping Meaning List

variable {G : GeneratorId → Prop} {P : Place → Prop} {E E' : List Symbol}
  {s s1 s2 s' : Session} {st st1 st2 st' : State} {o : Option Origin}

variable {t r : Term} {K xs : List Symbol} {x y : Ident} {id i : TermId} {ts : List Term}
variable {bs : List (Term × Term)} {ys : List Symbol} {new : Ident} {rs : List Term}

@[simp] theorem steps_about {α : Type} {transform : String} {act : Grad α} {a : α} :
    Steps (about t transform act) o st s a st' s' ↔
      Steps act (some ⟨.term t, transform⟩) st s a st' s' :=
  Iff.rfl

/-! ## Terms -/

/-- A term that uses only known variables and binds none. -/
def Simple (K : List Symbol) (t : Term) : Prop := Bound K t ∧ binders t = []

theorem Simple.mono {K' : List Symbol} (h : Simple K t) (hK : K ⊆ K') : Simple K' t :=
  ⟨h.1.mono hK, h.2⟩

theorem simple_ident :
    Simple K (.ident x) ↔ x.sym.isGlobal = true ∨ x.sym ∈ K := by
  unfold Simple
  rw [bound_ident, binders]
  simp

theorem simple_literal {v : Value} : Simple K (.literal id v) :=
  ⟨bound_literal, by simp [binders]⟩

def SimpleAll (K : List Symbol) (ts : List Term) : Prop := ∀ t ∈ ts, Simple K t

theorem SimpleAll.singleton (h : Simple K t) : SimpleAll K [t] := by
  intro u hu
  rw [mem_singleton.mp hu]
  exact h

theorem SimpleAll.cons (h : Simple K t) (hs : SimpleAll K ts) : SimpleAll K (t :: ts) := by
  intro u hu
  rcases mem_cons.mp hu with rfl | hu
  · exact h
  · exact hs u hu

theorem SimpleAll.bound (h : SimpleAll K ts) :
    BoundAll K ts ∧ bindersAll ts = [] := by
  refine ⟨boundAll_iff.mpr fun t ht => (h t ht).1, ?_⟩
  induction ts with
  | nil => simp [bindersAll]
  | cons t ts ih =>
    rw [bindersAll, (h t (by simp)).2, ih fun t ht => h t (mem_cons_of_mem _ ht)]
    rfl

theorem simple_tuple (h : SimpleAll K ts) :
    Simple K (.tuple id ts) :=
  ⟨bound_tuple.mpr h.bound.1, by rw [binders, h.bound.2]⟩

theorem simple_apply {f : Term}
    (hf : Simple K f) (h : SimpleAll K ts) : Simple K (.apply id f ts) :=
  ⟨bound_apply.mpr ⟨hf.1, h.bound.1⟩, by rw [binders, hf.2, h.bound.2]; rfl⟩

theorem simple_closure {f : Term}
    (hf : Simple K f) (h : SimpleAll K ts) : Simple K (.closure id f ts) :=
  ⟨bound_closure.mpr ⟨hf.1, h.bound.1⟩, by rw [binders, hf.2, h.bound.2]; rfl⟩

theorem simple_builtin {name : String} :
    Simple K (.ident ⟨i, .builtin name⟩) := by
  refine simple_ident.mpr (.inl ?_)
  show Namespace.isGlobal (.named "global::builtin") = true
  decide +kernel

/-- Bindings, each of which uses only what is known and set before, and binds nothing inside. -/
def SimpleBindings (K : List Symbol) : List (Term × Term) → Prop
  | [] => True
  | (k, v) :: rest => Simple K v ∧ SimpleBindings (patternSymbols k ++ K) rest

theorem SimpleBindings.mono :
    ∀ {K K' : List Symbol}, SimpleBindings K bs → K ⊆ K' → SimpleBindings K' bs := by
  induction bs with
  | nil => exact fun _ _ => trivial
  | cons b bs ih =>
    intro K K' h hK
    exact ⟨h.1.mono hK, ih h.2 (append_subset.mpr ⟨subset_append_left _ _,
      List.Subset.trans hK (subset_append_right _ _)⟩)⟩

theorem simpleBindings_append {cs : List (Term × Term)} : ∀ {K : List Symbol},
    SimpleBindings K (bs ++ cs) ↔ SimpleBindings K bs ∧ SimpleBindings (targets bs ++ K) cs := by
  induction bs with
  | nil => simp [SimpleBindings]
  | cons b bs ih =>
    intro K
    obtain ⟨k, v⟩ := b
    simp only [cons_append, SimpleBindings, ih, targets_cons, and_assoc]
    refine and_congr_right fun _ => and_congr_right fun _ => ⟨fun h => h.mono ?_, fun h => h.mono ?_⟩
    · intro x hx
      simp only [mem_append] at hx ⊢
      grind
    · intro x hx
      simp only [mem_append] at hx ⊢
      grind

theorem SimpleBindings.bound :
    ∀ {K : List Symbol}, SimpleBindings K bs → BoundBindings K bs ∧ bindersOf bs = targets bs := by
  induction bs with
  | nil => exact fun _ => ⟨boundBindings_nil, by simp [bindersOf]⟩
  | cons b bs ih =>
    intro K h
    obtain ⟨k, v⟩ := b
    obtain ⟨h1, h2⟩ := ih h.2
    exact ⟨boundBindings_cons.mpr ⟨h.1.1, h1⟩, by rw [bindersOf, h.1.2, h2]; rfl⟩

/-! ## The ledger -/

/-- Different symbols, none of which can be made again. -/
structure Ledger (G : GeneratorId → Prop) (s : Session) (xs : List Symbol) : Prop where
  nodup : xs.Nodup
  old : ∀ x ∈ xs, Old G s x

theorem Ledger.grows (h : Ledger G s xs) (hd : Distinct G s) (hg : Grows s s') : Ledger G s' xs :=
  ⟨h.nodup, fun x hx => hg.further.old hd (h.old x hx)⟩

theorem Ledger.perm (h : Ledger G s xs) (hp : xs.Perm ys) : Ledger G s ys :=
  ⟨hp.nodup_iff.mp h.nodup, fun x hx => h.old x (hp.mem_iff.mpr hx)⟩

theorem Ledger.enter {x : Symbol} (h : Ledger G s xs) (hd : Distinct G s)
    (hg : Grows s s') (hx : Made G s s' x) : Ledger G s' (xs ++ [x]) := by
  refine ⟨nodup_append.mpr ⟨h.nodup, by simp, fun y hy z hz => ?_⟩, fun y hy => ?_⟩
  · rintro rfl
    rw [mem_singleton.mp hz] at hy
    exact hx.1 (h.old x hy)
  · rcases mem_append.mp hy with hy | hy
    · exact (h.grows hd hg).old y hy
    · rw [mem_singleton.mp hy]
      exact hx.2

def symbolsOf {κ : Type} (l : List (κ × Ident)) : List Symbol := l.map (·.2.sym)

/-- The variables that the state knows by a key, and the sensitivities that start at zero. -/
def owned (st : State) : List Symbol :=
  symbolsOf st.tagged ++ symbolsOf st.backpropagators ++ symbolsOf st.patternBackpropagators ++
    targets st.zeros

/-- The variables of the forward part, by what they belong to: the augmented form of a variable, the
backpropagator of a variable, or that of a pattern. -/
inductive Place where
  | augmented (x : Symbol)
  | back (x : Symbol)
  | patternBack (id : TermId)

def State.var? (st : State) : Place → Option Ident
  | .augmented x => st.tagged.lookup x
  | .back x => st.backpropagators.lookup x
  | .patternBack id => st.patternBackpropagators.lookup id

def backPlace : Term → Option Place
  | .ident x => some (.back x.sym)
  | .tuple id _ => some (.patternBack id)
  | _ => none

def Ahead (P : Place → Prop) (st : State) (y : Symbol) : Prop :=
  ∃ p z, P p ∧ st.var? p = some z ∧ z.sym = y

/-- What holds while a function is transformed whose forward part sets the variables at the places
`P`, when the code made so far sets `E`. -/
structure Tidy (G : GeneratorId → Prop) (P : Place → Prop) (E : List Symbol)
    (st : State) (s : Session) : Prop where
  sound : Sound s
  distinct : Distinct G s
  asked : ∀ g, st.generator = some g → G g
  nothing : G Fixed.nothing.id
  ledger : Ledger G s (owned st ++ E)
  different : (st.needed.map (·.sym)).Nodup
  needed : ∀ y ∈ st.needed, Ahead P st y.sym
  latest : ∀ x y, st.sensitivities.lookup x = some y → y.sym ∈ targets st.zeros ++ E
  zeros : ∀ b ∈ st.zeros, Simple (st.needed.map (·.sym)) b.2

theorem Tidy.grows (h : Tidy G P E st s) (hg : Grows s s') : Tidy G P E st s' :=
  { h with
    sound := hg.sound h.sound
    distinct := hg.further.distinct h.distinct
    ledger := h.ledger.grows h.distinct hg }

theorem Tidy.perm (h : Tidy G P E st s) (hp : E.Perm E') : Tidy G P E' st s :=
  { h with
    ledger := h.ledger.perm (hp.append_left _)
    latest := fun x y hy => (hp.append_left _).subset (h.latest x y hy) }

theorem Tidy.enter {x : Symbol} (h : Tidy G P E st s) (hg : Grows s s') (hx : Made G s s' x) :
    Tidy G P (E ++ [x]) st s' :=
  { h.grows hg with
    ledger := by
      rw [← append_assoc]
      exact h.ledger.enter h.distinct hg hx
    latest := fun x y hy => by
      rw [← append_assoc]
      exact mem_append_left _ (h.latest x y hy) }

/-- One state knows everything that another does. -/
structure Extends (st st' : State) : Prop where
  generator : st'.generator = st.generator
  tagged : st.tagged <+: st'.tagged
  backpropagators : st.backpropagators <+: st'.backpropagators
  patterns : st.patternBackpropagators <+: st'.patternBackpropagators
  zeros : st.zeros <+: st'.zeros
  needed : st.needed <+: st'.needed

theorem Extends.refl (st : State) : Extends st st :=
  ⟨rfl, prefix_rfl, prefix_rfl, prefix_rfl, prefix_rfl, prefix_rfl⟩

theorem Extends.trans (h : Extends st st1) (h' : Extends st1 st') : Extends st st' :=
  ⟨h'.generator.trans h.generator, h.tagged.trans h'.tagged,
    h.backpropagators.trans h'.backpropagators, h.patterns.trans h'.patterns,
    h.zeros.trans h'.zeros, h.needed.trans h'.needed⟩

theorem lookup_extend {κ : Type} [BEq κ] {l l' : List (κ × Ident)} (h : l <+: l') {k : κ}
    (hy : l.lookup k = some y) : l'.lookup k = some y := by
  obtain ⟨m, rfl⟩ := h
  rw [lookup_append, hy]
  rfl

theorem Extends.var? (h : Extends st st') {p : Place} (hy : st.var? p = some y) :
    st'.var? p = some y := by
  cases p with
  | augmented x => exact lookup_extend h.tagged hy
  | back x => exact lookup_extend h.backpropagators hy
  | patternBack id => exact lookup_extend h.patterns hy

theorem Extends.ahead (h : Extends st st') {y : Symbol} (hy : Ahead P st y) : Ahead P st' y := by
  obtain ⟨p, z, hp, hz, hsym⟩ := hy
  exact ⟨p, z, hp, h.var? hz, hsym⟩

theorem Extends.targets (h : Extends st st') : targets st.zeros ⊆ targets st'.zeros := by
  obtain ⟨m, hm⟩ := h.zeros
  rw [← hm, targets_append]
  exact subset_append_left _ _

/-- A step of the transformation. -/
structure Goes (G : GeneratorId → Prop) (P : Place → Prop)
    (E E' : List Symbol) (st : State) (s : Session) (st' : State) (s' : Session) : Prop where
  tidy : Tidy G P E' st' s'
  extends_ : Extends st st'
  grows : Grows s s'

theorem Goes.refl (h : Tidy G P E st s) : Goes G P E E st s st s :=
  ⟨h, Extends.refl st, Grows.refl s⟩

theorem Goes.trans {E1 : List Symbol} (h : Goes G P E E1 st s st1 s1)
    (h' : Goes G P E1 E' st1 s1 st' s') : Goes G P E E' st s st' s' :=
  ⟨h'.tidy, h.extends_.trans h'.extends_, h.grows.trans h'.grows⟩

theorem Tidy.goes (h : Tidy G P E st s) (hg : Grows s s') : Goes G P E E st s st s' :=
  ⟨h.grows hg, Extends.refl st, hg⟩

theorem Goes.of_quiet (h : Tidy G P E st s) (hq : Reading.Quiet s s') :
    Goes G P E E st s st s' :=
  h.goes (Grows.of_quiet hq)

/-! ## Making variables -/

theorem steps_made {make : GeneratorId → Run Symbol}
    (hmake : ∀ {g o s x s'}, Returns (make g) o s x s' → G g → Distinct G s →
      Grows s s' ∧ Made G s s' x)
    (h : Steps (do
      match (← get).generator with
      | some g => do ident (← make g)
      | none => throw .typeMismatch : Grad Ident) o st s y st' s') (ht : Tidy G P E st s) :
    st = st' ∧ Grows s s' ∧ Made G s s' y.sym := by
  rw [steps_get_bind] at h
  split at h
  next g hg =>
    simp only [steps_bind, steps_lift, returns_ident] at h
    obtain ⟨x, _, _, ⟨hx, rfl⟩, ⟨rfl, rfl⟩, rfl⟩ := h
    obtain ⟨hgrows, hmade⟩ := hmake hx (ht.asked g hg) ht.distinct
    exact ⟨rfl, hgrows.trans (grows_noted _ _), hmade.of_later (Later.refl s) (later_noted _ o)⟩
  · exact (steps_throw.mp h).elim

theorem steps_derive {base : Symbol} {relation : String}
    (h : Steps (derive base relation) o st s y st' s') (ht : Tidy G P E st s) :
    st = st' ∧ Grows s s' ∧ Made G s s' y.sym := by
  refine steps_made (fun {g o s x s'} hx hg hd => ?_) h ht
  obtain ⟨rfl, rfl⟩ := returns_freshDerived.mp hx
  exact ⟨grows_afterDerived, made_afterDerived hg hd⟩

theorem steps_plain {label : String} (h : Steps (plain label) o st s y st' s')
    (ht : Tidy G P E st s) : st = st' ∧ Grows s s' ∧ Made G s s' y.sym := by
  refine steps_made (fun {g o s x s'} hx hg hd => ?_) h ht
  obtain ⟨rfl, rfl⟩ := returns_freshPlain.mp hx
  exact ⟨grows_afterPlain, made_afterPlain hg hd⟩

theorem goes_newSensitivity (h : Steps (newSensitivity (.ident x)) o st s y st' s')
    (ht : Tidy G P E st s) :
    Goes G P E (E ++ [y.sym]) st s st' s' ∧
      st' = { st with sensitivities := put (· == ·) x.sym y st.sensitivities } := by
  unfold newSensitivity at h
  rw [steps_about] at h
  obtain ⟨y', st1, s1, hy, h⟩ := steps_bind.mp h
  obtain ⟨rfl, hgrows, hmade⟩ := steps_derive hy ht
  simp only [steps_bind, steps_modify, steps_pure] at h
  obtain ⟨_, _, _, ⟨rfl, rfl⟩, rfl, rfl, rfl⟩ := h
  have htidy := ht.enter hgrows hmade
  refine ⟨⟨{ htidy with latest := fun z w hw => ?_ }, ?_, hgrows⟩, rfl⟩
  · rw [lookup_put] at hw
    split at hw
    · injection hw with hw
      subst hw
      exact mem_append_right _ (mem_append_right _ (mem_singleton_self _))
    · exact htidy.latest z w hw
  · exact ⟨rfl, prefix_rfl, prefix_rfl, prefix_rfl, prefix_rfl, prefix_rfl⟩

/-- A variable entered at a place. -/
def State.enter (st : State) (y : Ident) : Place → State
  | .augmented x => { st with tagged := st.tagged ++ [(x, y)] }
  | .back x => { st with backpropagators := st.backpropagators ++ [(x, y)] }
  | .patternBack id => { st with patternBackpropagators := st.patternBackpropagators ++ [(id, y)] }

theorem goes_enter (p : Place) (ht : Tidy G P E st s) (hgrows : Grows s s')
    (hmade : Made G s s' y.sym) : Goes G P E E st s (st.enter y p) s' := by
  have hext : Extends st (st.enter y p) := by
    cases p <;> constructor <;> simp [State.enter]
  have hperm : (owned st ++ (E ++ [y.sym])).Perm (owned (st.enter y p) ++ E) := by
    refine perm_iff_count.mpr fun z => ?_
    cases p <;> simp only [owned, State.enter, symbolsOf, map_append, map_cons,
      map_nil, count_append] <;> omega
  have hledger := (ht.enter hgrows hmade).ledger.perm hperm
  have hneeded := fun z hz => hext.ahead (ht.needed z hz)
  cases p <;>
    exact ⟨{ ht.grows hgrows with ledger := hledger, needed := hneeded }, hext, hgrows⟩

/-- A variable is entered at a place where none is known. -/
theorem goes_known {p : Place} (ht : Tidy G P E st s) (hgrows : Grows s s1)
    (hmade : Made G s s1 new.sym) (h : Steps (do
      let st ← get
      match st.var? p with
      | some z => pure z
      | none =>
        set (st.enter new p)
        pure new : Grad Ident) o st s1 y st' s') :
    Goes G P E E st s st' s' ∧ st'.var? p = some y := by
  rw [steps_get_bind] at h
  split at h
  next z hz =>
    obtain ⟨rfl, rfl, rfl⟩ := steps_pure.mp h
    exact ⟨ht.goes hgrows, hz⟩
  next hz =>
    simp only [steps_bind, steps_set, steps_pure] at h
    obtain ⟨_, _, _, ⟨rfl, rfl⟩, rfl, rfl, rfl⟩ := h
    refine ⟨goes_enter p ht hgrows hmade, ?_⟩
    cases p <;> (rw [State.var?] at hz; simp [State.enter, State.var?, lookup_append, hz])

theorem goes_taggedSymbol (h : Steps (taggedSymbol x) o st s y st' s') (ht : Tidy G P E st s) :
    Goes G P E E st s st' s' ∧ x.sym.isGlobal = false ∧ st'.tagged.lookup x.sym = some y := by
  unfold taggedSymbol at h
  rw [steps_about] at h
  cases hglobal : x.sym.isGlobal with
  | true =>
    rw [hglobal] at h
    simp at h
  | false =>
    simp only [hglobal, Bool.false_eq_true, if_false] at h
    obtain ⟨new, st1, s1, hnew, h⟩ := steps_bind.mp h
    obtain ⟨rfl, hgrows, hmade⟩ := steps_derive hnew ht
    obtain ⟨hgoes, hy⟩ := goes_known (p := .augmented x.sym) ht hgrows hmade h
    exact ⟨hgoes, rfl, hy⟩

theorem goes_backpropagator (h : Steps (backpropagator t) o st s y st' s') (ht : Tidy G P E st s) :
    Goes G P E E st s st' s' ∧ ∃ p, backPlace t = some p ∧ st'.var? p = some y := by
  unfold backpropagator at h
  rw [steps_about] at h
  split at h
  next x =>
    obtain ⟨new, st1, s1, hnew, h⟩ := steps_bind.mp h
    obtain ⟨rfl, hgrows, hmade⟩ := steps_derive hnew ht
    obtain ⟨hgoes, hy⟩ := goes_known (p := .back x.sym) ht hgrows hmade h
    exact ⟨hgoes, _, rfl, hy⟩
  next id items =>
    obtain ⟨base, st1, s1, hbase, h⟩ := steps_bind.mp h
    obtain ⟨rfl, hgrows1, -⟩ := steps_plain hbase ht
    obtain ⟨new, st1, s2, hnew, h⟩ := steps_bind.mp h
    obtain ⟨rfl, hgrows2, hmade⟩ := steps_derive hnew (ht.grows hgrows1)
    obtain ⟨hgoes, hy⟩ := goes_known (p := .patternBack id) (ht.grows hgrows1) hgrows2 hmade h
    exact ⟨(ht.goes hgrows1).trans hgoes, _, rfl, hy⟩
  · exact (steps_throw.mp h).elim

/-! ## Patterns -/

/-- What is known of a function on the variables of patterns: `R` holds of a variable and its image, is
never lost, and carries over to tuples. -/
structure Traces (G : GeneratorId → Prop) (P : Place → Prop) (E : List Symbol) (f : Term → Grad Term)
    (R : State → Term → Term → Prop) (Q : Symbol → Prop) : Prop where
  leaf : ∀ ⦃t r st st' s s' o⦄, Steps (f t) o st s r st' s' → Tidy G P E st s →
    (∀ x ∈ patternSymbols t, Q x) → Goes G P E E st s st' s' ∧ R st' t r
  mono : ∀ ⦃st st' t r⦄, R st t r → Extends st st' → R st' t r
  tuple : ∀ ⦃st ts rs i j⦄, List.Forall₂ (R st) ts rs → R st (.tuple i ts) (.tuple j rs)

section Pattern

variable {f : Term → Grad Term} {R : State → Term → Term → Prop} {Q : Symbol → Prop}

mutual

theorem goes_mapPattern (hf : Traces G P E f R Q) (t : Term) ⦃r : Term⦄ ⦃st st' : State⦄ ⦃s s' : Session⦄
    ⦃o : Option Origin⦄ (h : Steps (mapPattern f t) o st s r st' s') (ht : Tidy G P E st s)
    (hQ : ∀ x ∈ patternSymbols t, Q x) : Goes G P E E st s st' s' ∧ R st' t r := by
  cases t with
  | tuple i items =>
    rw [mapPattern] at h
    obtain ⟨rs, st1, s1, hrs, h⟩ := steps_bind.mp h
    rw [steps_lift, returns_tuple] at h
    obtain ⟨⟨rfl, rfl⟩, rfl⟩ := h
    obtain ⟨hgoes, hall⟩ := goes_mapPatterns hf items hrs ht hQ
    exact ⟨hgoes.trans (hgoes.tidy.goes (grows_noted _ _)), hf.tuple hall⟩
  | _ => exact hf.leaf h ht hQ

theorem goes_mapPatterns (hf : Traces G P E f R Q) : ∀ (ts : List Term) ⦃rs : List Term⦄ ⦃st st' : State⦄
    ⦃s s' : Session⦄ ⦃o : Option Origin⦄, Steps (mapPattern.go f ts) o st s rs st' s' → Tidy G P E st s →
      (∀ x ∈ patternSymbols.go ts, Q x) →
      Goes G P E E st s st' s' ∧ List.Forall₂ (R st') ts rs
  | [], rs, st, st', s, s', o, h, ht, hQ => by
    rw [mapPattern.go, steps_pure] at h
    obtain ⟨rfl, rfl, rfl⟩ := h
    exact ⟨Goes.refl ht, .nil⟩
  | t :: ts, rs, st, st', s, s', o, h, ht, hQ => by
    rw [mapPattern.go] at h
    simp only [steps_bind, steps_pure] at h
    obtain ⟨r, st1, s1, hr, rs', st2, s2, hrs, rfl, rfl, rfl⟩ := h
    obtain ⟨h1, hR⟩ := goes_mapPattern hf t hr ht fun x hx => hQ x (mem_append_left _ hx)
    obtain ⟨h2, hall⟩ := goes_mapPatterns hf ts hrs h1.tidy fun x hx =>
      hQ x (mem_append_right _ hx)
    exact ⟨h1.trans h2, .cons (hf.mono hR h2.extends_) hall⟩

end

end Pattern

def Holds (st : State) (ps : List Place) (ys : List Symbol) : Prop :=
  List.Forall₂ (fun p y => ∃ z, st.var? p = some z ∧ z.sym = y) ps ys

theorem Holds.extend {ps : List Place} (h : Holds st ps ys) (he : Extends st st') :
    Holds st' ps ys :=
  h.imp fun _ _ ⟨z, hz, hy⟩ => ⟨z, he.var? hz, hy⟩

def Tags (st : State) (t r : Term) : Prop :=
  Holds st ((patternSymbols t).map .augmented) (patternSymbols r)

theorem tags_tuple {j : TermId} (h : List.Forall₂ (Tags st) ts rs) :
    Tags st (.tuple i ts) (.tuple j rs) := by
  unfold Tags patternSymbols
  induction h with
  | nil => exact .nil
  | cons ht _ ih =>
    rw [patternSymbols.go, patternSymbols.go, map_append]
    exact rel_append ht ih

theorem goes_taggedVariable (h : Steps (taggedVariable t) o st s r st' s')
    (ht : Tidy G P E st s) : Goes G P E E st s st' s' ∧ Tags st' t r := by
  have hleaf : ∀ ⦃t r : Term⦄ ⦃st st' : State⦄ ⦃s s' : Session⦄ ⦃o : Option Origin⦄,
      Steps (taggedLeaf t) o st s r st' s' → Tidy G P E st s →
        (∀ x ∈ patternSymbols t, True) → Goes G P E E st s st' s' ∧ Tags st' t r := by
    intro t r st st' s s' o h ht _
    unfold taggedLeaf at h
    split at h
    next x =>
      simp only [steps_bind, steps_pure] at h
      obtain ⟨y, st1, s1, hy, rfl, rfl, rfl⟩ := h
      obtain ⟨hgoes, -, hlook⟩ := goes_taggedSymbol hy ht
      exact ⟨hgoes, .cons ⟨y, hlook, rfl⟩ .nil⟩
    · rw [steps_about] at h
      exact (steps_throw.mp h).elim
  unfold taggedVariable at h
  split at h
  next i items =>
    rw [steps_about] at h
    exact goes_mapPattern ⟨hleaf, fun _ _ _ _ h he => Holds.extend h he, fun _ _ _ _ _ h => tags_tuple h⟩
      (.tuple i items) h ht fun _ _ => trivial
  · exact hleaf h ht fun _ _ => trivial

/-- The augmented variables of known variables are known. -/
def Carries (st : State) (known K : List Symbol) : Prop :=
  ∀ x ∈ known, ∀ z, st.tagged.lookup x = some z → z.sym ∈ K

theorem Carries.before {known : List Symbol} (h : Carries st' known K) (he : Extends st st') :
    Carries st known K :=
  fun x hx z hz => h x hx z (lookup_extend he.tagged hz)

theorem goes_taggedExpr (h : Steps (taggedExpr t) o st s r st' s') (ht : Tidy G P E st s) :
    Goes G P E E st s st' s' ∧
      ∀ known K, Bound known t → Carries st' known K → Simple K r := by
  unfold taggedExpr at h
  rw [steps_about] at h
  split at h
  · rw [steps_pure] at h
    obtain ⟨rfl, rfl, rfl⟩ := h
    exact ⟨Goes.refl ht, fun _ _ _ _ => simple_literal⟩
  next x =>
    split at h
    next hglobal =>
      simp only [steps_bind, steps_lift, Reading.returns_builtin, returns_apply] at h
      obtain ⟨_, _, _, ⟨⟨rfl, rfl⟩, rfl⟩, ⟨rfl, rfl⟩, rfl⟩ := h
      refine ⟨ht.goes ((grows_noted _ _).trans (grows_noted _ _)), fun _ K _ _ => ?_⟩
      refine simple_apply simple_builtin fun t ht => ?_
      rw [mem_singleton.mp ht]
      exact simple_ident.mpr (.inl hglobal)
    next hlocal =>
      simp only [steps_bind, steps_pure] at h
      obtain ⟨y, st1, s1, hy, rfl, rfl, rfl⟩ := h
      obtain ⟨hgoes, -, hlook⟩ := goes_taggedSymbol hy ht
      refine ⟨hgoes, fun known K hb hc => simple_ident.mpr (.inr ?_)⟩
      exact hc x.sym ((bound_ident.mp hb).resolve_left hlocal) y hlook
  · exact (steps_throw.mp h).elim

theorem goes_taggedExprs (h : Steps (ts.mapM taggedExpr) o st s rs st' s') (ht : Tidy G P E st s) :
    Goes G P E E st s st' s' ∧
      ∀ known K, BoundAll known ts → Carries st' known K → SimpleAll K rs := by
  induction ts generalizing rs st s with
  | nil =>
    obtain ⟨rfl, rfl, rfl⟩ := steps_mapM_nil.mp h
    exact ⟨Goes.refl ht, fun _ _ _ _ t ht => by cases ht⟩
  | cons t ts ih =>
    obtain ⟨r, st1, s1, hr, rs', hrs, rfl⟩ := steps_mapM_cons.mp h
    obtain ⟨h1, hsimple⟩ := goes_taggedExpr hr ht
    obtain ⟨h2, hall⟩ := ih hrs h1.tidy
    refine ⟨h1.trans h2, fun known K hb hc => ?_⟩
    rw [boundAll_cons] at hb
    exact SimpleAll.cons (hsimple known K hb.1 (hc.before h2.extends_)) (hall known K hb.2 hc)

/-! ## Latest sensitivities -/

/-- A term made of sensitivities that start at zero or are set so far. -/
def Latest (E : List Symbol) (st : State) (t : Term) : Prop := Simple (targets st.zeros ++ E) t

theorem Latest.extend (h : Latest E st t) (he : Extends st st') : Latest E st' t :=
  Simple.mono h (append_subset.mpr
    ⟨List.Subset.trans he.targets (subset_append_left _ _), subset_append_right _ _⟩)

theorem latest_tuple (h : List.Forall₂ (fun _ r => Latest E st r) ts rs) :
    Latest E st (.tuple i rs) := by
  refine simple_tuple ?_
  induction h with
  | nil => exact fun _ h => by cases h
  | cons h _ ih => exact SimpleAll.cons h ih

theorem steps_sensitivityLeaf (h : Steps (sensitivityLeaf t) o st s r st' s') :
    st = st' ∧ Reading.Quiet s s' ∧ ∃ x, t = .ident x ∧
      ((∃ y, st.sensitivities.lookup x.sym = some y ∧ r = .ident y) ∨
        (st.sensitivities.lookup x.sym = none ∧ isZero r = true)) := by
  unfold sensitivityLeaf at h
  rw [steps_about] at h
  split at h
  next x =>
    rw [steps_get_bind] at h
    split at h
    next y hy =>
      rw [steps_pure] at h
      obtain ⟨rfl, rfl, rfl⟩ := h
      exact ⟨rfl, Reading.Quiet.refl s, x, rfl, .inl ⟨y, hy, rfl⟩⟩
    next hnone =>
      rw [steps_lift, zero, Reading.returns_literal] at h
      obtain ⟨⟨rfl, rfl⟩, rfl⟩ := h
      exact ⟨rfl, Reading.Quiet.noted s _, x, rfl, .inr ⟨hnone, rfl⟩⟩
  · exact (steps_throw.mp h).elim

theorem extends_need (st : State) (y : Ident) : Extends st (st.need y) := by
  refine ⟨rfl, prefix_rfl, prefix_rfl, prefix_rfl, prefix_rfl, ?_⟩
  unfold State.need
  split
  · exact prefix_rfl
  · exact prefix_append _ _

theorem mem_need (st : State) (y : Ident) : y.sym ∈ (st.need y).needed.map (·.sym) := by
  unfold State.need
  split
  next h =>
    simp only [any_eq_true, beq_iff_eq] at h
    obtain ⟨z, hz, hsym⟩ := h
    exact mem_map.mpr ⟨z, hz, hsym⟩
  · simp

theorem Tidy.need (h : Tidy G P E st s) (hy : Ahead P st y.sym) :
    Tidy G P E (st.need y) s := by
  have hsub : st.needed.map (·.sym) ⊆ (st.need y).needed.map (·.sym) :=
    map_subset _ (extends_need st y).needed.subset
  refine { h with
    different := ?_
    needed := fun z hz => ?_
    zeros := fun b hb => (h.zeros b hb).mono hsub }
  · unfold State.need
    split
    · exact h.different
    next hnew =>
      rw [map_append]
      refine nodup_append.mpr ⟨h.different, by simp, fun a ha b hb => ?_⟩
      rintro rfl
      refine hnew ?_
      simp only [map_cons, map_nil, mem_singleton] at hb
      obtain ⟨z, hz, hsym⟩ := mem_map.mp ha
      exact any_eq_true.mpr ⟨z, hz, by simp [hsym, hb]⟩
  · unfold State.need at hz
    split at hz
    · exact h.needed z hz
    · rcases mem_append.mp hz with hz | hz
      · exact h.needed z hz
      · rw [mem_singleton.mp hz]
        exact hy

theorem Tidy.start {v : Term} (h : Tidy G P (E ++ [new.sym]) st s)
    (hv : Simple (st.needed.map (·.sym)) v) :
    Tidy G P E { st with zeros := st.zeros ++ [(.ident new, v)] } s := by
  have hperm : (targets st.zeros ++ (E ++ [new.sym])).Perm
      (targets (st.zeros ++ [(.ident new, v)]) ++ E) := by
    refine perm_iff_count.mpr fun z => ?_
    simp only [targets_append, targets_cons, patternSymbols, targets_nil, append_nil,
      count_append]
    omega
  refine { h with
    ledger := h.ledger.perm ?_
    latest := fun x y hy => hperm.subset (h.latest x y hy)
    zeros := fun b hb => ?_ }
  · simp only [owned, append_assoc]
    exact List.Perm.append_left _ (List.Perm.append_left _ (List.Perm.append_left _ hperm))
  · rcases mem_append.mp hb with hb | hb
    · exact h.zeros b hb
    · rw [mem_singleton.mp hb]
      exact hv

theorem goes_startAtZero (h : Steps (startAtZero (.ident x)) o st s y st' s')
    (ht : Tidy G P E st s) (hP : P (.augmented x.sym)) :
    Goes G P E E st s st' s' ∧ y.sym ∈ targets st'.zeros := by
  unfold startAtZero at h
  rw [steps_about] at h
  generalize (some _ : Option Origin) = o at h
  obtain ⟨new, st1, s1, hnew, h⟩ := steps_bind.mp h
  obtain ⟨h1, -⟩ := goes_newSensitivity hnew ht
  obtain ⟨r, st2, s2, hr, h⟩ := steps_bind.mp h
  obtain ⟨h2, htags⟩ := goes_taggedVariable hr h1.tidy
  split at h
  next z =>
    simp only [steps_bind, steps_lift, Reading.returns_builtin, returns_apply, steps_modify,
      steps_pure] at h
    obtain ⟨_, _, _, ⟨⟨rfl, rfl⟩, rfl⟩, _, _, _, ⟨⟨rfl, rfl⟩, rfl⟩, _, _, _, ⟨⟨rfl, rfl⟩, rfl⟩,
      _, _, _, ⟨⟨rfl, rfl⟩, rfl⟩, _, _, _, ⟨rfl, rfl⟩, rfl, rfl, rfl⟩ := h
    cases htags with
    | cons htag hrest =>
      obtain ⟨w, hw, hsym⟩ := htag
      have hahead : Ahead P st2 z.sym := ⟨.augmented x.sym, w, hP, hw, hsym⟩
      have hgrows := (grows_noted s2 o).trans ((grows_noted _ o).trans ((grows_noted _ o).trans
        (grows_noted _ o)))
      have hz : Simple ((st2.need z).needed.map (·.sym)) (.ident z) :=
        simple_ident.mpr (.inr (mem_need st2 z))
      have hext : ∀ v, Extends st2 { st2.need z with zeros := st2.zeros ++ [(.ident new, v)] } :=
        fun _ => ⟨rfl, prefix_rfl, prefix_rfl, prefix_rfl, prefix_append _ _,
          (extends_need st2 z).needed⟩
      refine ⟨⟨((h2.tidy.grows hgrows).need hahead).start ?_, h1.extends_.trans
        (h2.extends_.trans (hext _)), h1.grows.trans (h2.grows.trans hgrows)⟩, ?_⟩
      · exact simple_apply simple_builtin (SimpleAll.singleton
          (simple_apply simple_builtin (SimpleAll.singleton hz)))
      · simp [patternSymbols]
  · exact (steps_throw.mp h).elim

theorem goes_shapedLeaf (h : Steps (shapedLeaf t) o st s r st' s')
    (ht : Tidy G P E st s) (hP : ∀ x ∈ patternSymbols t, P (.augmented x)) :
    Goes G P E E st s st' s' ∧ Latest E st' r := by
  unfold shapedLeaf at h
  rw [steps_about] at h
  split at h
  next x =>
    rw [steps_get_bind] at h
    split at h
    next y hy =>
      rw [steps_pure] at h
      obtain ⟨rfl, rfl, rfl⟩ := h
      exact ⟨Goes.refl ht, simple_ident.mpr (.inr (ht.latest _ _ hy))⟩
    · simp only [steps_bind, steps_pure] at h
      obtain ⟨y, st1, s1, hy, rfl, rfl, rfl⟩ := h
      obtain ⟨hgoes, hmem⟩ := goes_startAtZero hy ht (hP x.sym (by simp [patternSymbols]))
      exact ⟨hgoes, simple_ident.mpr (.inr (mem_append_left _ hmem))⟩
  · exact (steps_throw.mp h).elim

theorem goes_shapedSensitivity (h : Steps (shapedSensitivity t) o st s r st' s')
    (ht : Tidy G P E st s) (hP : ∀ x ∈ patternSymbols t, P (.augmented x)) :
    Goes G P E E st s st' s' ∧ Latest E st' r := by
  unfold shapedSensitivity at h
  split at h
  next i items =>
    rw [steps_about] at h
    exact goes_mapPattern (R := fun st _ r => Latest E st r)
      ⟨fun _ _ _ _ _ _ _ h ht hP => goes_shapedLeaf h ht hP, fun _ _ _ _ h he => Latest.extend h he,
        fun _ _ _ _ _ h => latest_tuple h⟩ (.tuple i items) h ht hP
  · exact goes_shapedLeaf h ht hP

/-- The latest sensitivity of a pattern is only looked at. -/
theorem goes_sensitivity (h : Steps (sensitivity t) o st s r st' s')
    (ht : Tidy G P E st s) : Goes G P E E st s st' s' := by
  have hleaf : ∀ ⦃t r : Term⦄ ⦃st st' : State⦄ ⦃s s' : Session⦄ ⦃o : Option Origin⦄,
      Steps (sensitivityLeaf t) o st s r st' s' → Tidy G P E st s →
        (∀ x ∈ patternSymbols t, True) → Goes G P E E st s st' s' ∧ True := by
    intro t r st st' s s' o h ht _
    obtain ⟨rfl, hquiet, -⟩ := steps_sensitivityLeaf h
    exact ⟨Goes.of_quiet ht hquiet, trivial⟩
  unfold sensitivity at h
  split at h
  next i items =>
    rw [steps_about] at h
    obtain ⟨u, st1, s1, hu, h⟩ := steps_bind.mp h
    obtain ⟨h1, -⟩ := goes_mapPattern (R := fun _ _ _ => True)
      ⟨hleaf, fun _ _ _ _ _ _ => trivial, fun _ _ _ _ _ _ => trivial⟩ (.tuple i items) hu ht fun _ _ => trivial
    split at h
    · split at h
      · rw [steps_lift, zero, Reading.returns_literal] at h
        obtain ⟨⟨rfl, rfl⟩, rfl⟩ := h
        exact h1.trans (h1.tidy.goes (grows_noted _ _))
      · rw [steps_pure] at h
        obtain ⟨-, rfl, rfl⟩ := h
        exact h1
    · rw [steps_pure] at h
      obtain ⟨-, rfl, rfl⟩ := h
      exact h1
  · exact (hleaf h ht fun _ _ => trivial).1

end DiffLang.Gradient
