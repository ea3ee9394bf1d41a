import DiffLang.Proofs.Gradient.Backward
import DiffLang.Proofs.Gradient.Forward
import DiffLang.Proofs.Gradient.Growth

/-!
# Closed functions from the transformation

The transformation of a closed function registers two closed functions: the augmented function and
its backpropagator. The variables at different places are different (`var?_injective`), so the
forward part sets none twice (`closed_augmented`). The backpropagator has what it needs as parameters
(`closed_backpropagator`), and what it needs is what the augmented function stores in the closure.
-/

namespace DiffLang.Gradient

open Run Session Growth Freshness Scoping Meaning List Place

variable {G : GeneratorId → Prop} {P : Place → Prop} {E : List Symbol}
  {s s₁ s2 s' : Session} {st st1 st' : State} {o : Option Origin}

/-! ## Places -/

def fore (st : State) : List Symbol :=
  symbolsOf st.tagged ++ symbolsOf st.backpropagators ++ symbolsOf st.patternBackpropagators

variable {κ : Type} {y ref : Ident} {ys : List Symbol} {bindings : List (Term × Term)}
variable {params : List Ident} {g : Option GeneratorId} {i id : TermId} {l : Lambda} {z : Ident}

theorem mem_of_lookup [BEq κ] [LawfulBEq κ] {l : List (κ × Ident)} {k : κ}
    (h : l.lookup k = some y) : (k, y) ∈ l := by
  obtain ⟨l1, l2, rfl, -⟩ := lookup_eq_some_iff.mp h
  simp

/-- The variables of the forward part, with their places. -/
def entries (st : State) : List (Place × Ident) :=
  st.tagged.map (fun e => (augmented e.1, e.2)) ++
    st.backpropagators.map (fun e => (back e.1, e.2)) ++
    st.patternBackpropagators.map fun e => (patternBack e.1, e.2)

theorem fore_eq : fore st = symbolsOf (entries st) := by
  simp [fore, entries, symbolsOf, Function.comp_def]

theorem mem_entries {p : Place} (h : st.var? p = some z) : (p, z) ∈ entries st := by
  cases p <;> simp [entries, mem_of_lookup h]

theorem var?_mem {p : Place} (h : st.var? p = some z) : z.sym ∈ fore st :=
  fore_eq ▸ mem_map.mpr ⟨(p, z), mem_entries h, rfl⟩

theorem var?_injective {p q : Place} {w : Ident} (hn : (fore st).Nodup) (hp : st.var? p = some z)
    (hq : st.var? q = some w) (h : z.sym = w.sym) : p = q := by
  rw [fore_eq] at hn
  exact congrArg Prod.fst (inj_on_of_nodup_map hn (mem_entries hp) (mem_entries hq) h)

variable {ps : List Place} {params' : List Ident} {body : Term}

theorem Holds.subset (h : Holds st ps ys) : ys ⊆ fore st := by
  induction h with
  | nil => exact nil_subset _
  | cons hy _ ih =>
    obtain ⟨z, hz, rfl⟩ := hy
    exact cons_subset.mpr ⟨var?_mem hz, ih⟩

theorem Holds.exists_place (h : Holds st ps ys) {y : Symbol}
    (hy : y ∈ ys) : ∃ p ∈ ps, ∃ z, st.var? p = some z ∧ z.sym = y := by
  induction h with
  | nil => cases hy
  | cons hp _ ih =>
    rcases mem_cons.mp hy with rfl | hy
    · exact ⟨_, mem_cons_self, hp⟩
    · obtain ⟨p, hmem, hz⟩ := ih hy
      exact ⟨p, mem_cons_of_mem _ hmem, hz⟩

theorem Holds.nodup (h : Holds st ps ys) (hn : (fore st).Nodup) (hps : ps.Nodup) : ys.Nodup := by
  induction h with
  | nil => exact nodup_nil
  | cons hp hrest ih =>
    obtain ⟨hnot, hps⟩ := nodup_cons.mp hps
    refine nodup_cons.mpr ⟨fun hmem => hnot ?_, ih hps⟩
    obtain ⟨q, hq, w, hw, hsym⟩ := Holds.exists_place hrest hmem
    obtain ⟨z, hz, hsym'⟩ := hp
    rwa [var?_injective hn hz hw (hsym'.trans hsym.symm)]

/-! ## The places of a function -/

def patternIds (bindings : List (Term × Term)) : List TermId :=
  bindings.flatMap fun b => match b.1 with
    | .tuple id _ => [id]
    | _ => []

def places (params : List Ident) (bindings : List (Term × Term)) : List Place :=
  params.map (fun x => .augmented x.sym) ++ bindings.flatMap placesOf

def Place.augmented? : Place → Option Symbol
  | .augmented x => some x
  | _ => none

def Place.back? : Place → Option Symbol
  | .back x => some x
  | _ => none

def Place.pattern? : Place → Option TermId
  | .patternBack id => some id
  | _ => none

theorem nodup_places_of (h1 : (ps.filterMap augmented?).Nodup)
    (h2 : (ps.filterMap back?).Nodup) (h3 : (ps.filterMap pattern?).Nodup) :
    ps.Nodup := by
  induction ps with
  | nil => exact nodup_nil
  | cons p ps ih =>
    have hsub : ∀ {α : Type} (f : Place → Option α),
        (ps.filterMap f).Sublist ((p :: ps).filterMap f) :=
      fun f => (sublist_cons_self p ps).filterMap f
    refine nodup_cons.mpr ⟨fun hmem => ?_, ih ((hsub _).nodup h1) ((hsub _).nodup h2)
      ((hsub _).nodup h3)⟩
    cases p with
    | augmented x =>
      exact (nodup_cons.mp h1).1 (mem_filterMap.mpr ⟨_, hmem, rfl⟩)
    | back x => exact (nodup_cons.mp h2).1 (mem_filterMap.mpr ⟨_, hmem, rfl⟩)
    | patternBack i => exact (nodup_cons.mp h3).1 (mem_filterMap.mpr ⟨_, hmem, rfl⟩)

theorem filterMap_augmented (xs : List Symbol) :
    (xs.map augmented).filterMap augmented? = xs := by
  rw [filterMap_map]
  exact filterMap_some

theorem filterMap_augmented_of {α : Type} {f : Place → Option α} (hf : ∀ x, f (.augmented x) = none)
    (xs : List Symbol) : (xs.map augmented).filterMap f = [] := by
  simp [hf]

theorem augmented?_placesOf (b : Term × Term) :
    (placesOf b).filterMap augmented? = patternSymbols b.1 := by
  obtain ⟨k, v⟩ := b
  cases v with
  | apply i fn args =>
    rw [placesOf, filterMap_append, filterMap_augmented]
    cases k with
    | _ => simp [backPlace, augmented?]
  | _ => exact filterMap_augmented _

/-- Places that are not augmented variables are those of the backpropagator. -/
theorem placesOf_sublist {α : Type} {f : Place → Option α} (hf : ∀ x, f (.augmented x) = none)
    {ys : List α} {b : Term × Term} (h : ((backPlace b.1).toList.filterMap f).Sublist ys) :
    ((placesOf b).filterMap f).Sublist ys := by
  obtain ⟨k, v⟩ := b
  cases v with
  | apply i fn args =>
    rw [placesOf, filterMap_append, filterMap_augmented_of hf]
    exact h
  | _ =>
    show (((patternSymbols k).map augmented).filterMap f).Sublist _
    rw [filterMap_augmented_of hf]
    exact nil_sublist _

theorem back?_placesOf (b : Term × Term) :
    ((placesOf b).filterMap back?).Sublist (patternSymbols b.1) := by
  refine placesOf_sublist (fun _ => rfl) ?_
  cases b.1 with
  | ident x => exact List.Sublist.refl _
  | _ => exact nil_sublist _

theorem pattern?_placesOf (b : Term × Term) :
    ((placesOf b).filterMap pattern?).Sublist (patternIds [b]) := by
  refine placesOf_sublist (fun _ => rfl) ?_
  obtain ⟨k, v⟩ := b
  cases k with
  | tuple j items => exact List.Sublist.refl _
  | _ => exact nil_sublist _

theorem flatMap_sublist {α β : Type} {f g : α → List β} (h : ∀ a, (f a).Sublist (g a)) (l : List α) :
    (l.flatMap f).Sublist (l.flatMap g) := by
  induction l with
  | nil => exact List.Sublist.refl _
  | cons a l ih => exact (h a).append ih

theorem nodup_places
    (hn : (params.map (·.sym) ++ targets bindings).Nodup) (hids : (patternIds bindings).Nodup) :
    (places params bindings).Nodup := by
  have hparams : params.map (fun x => augmented x.sym) =
      (params.map (·.sym)).map .augmented := by
    rw [map_map]
    rfl
  unfold places
  rw [hparams]
  refine nodup_places_of ?_ ?_ ?_
  · rw [filterMap_append, filterMap_augmented, filterMap_flatMap]
    simp only [augmented?_placesOf]
    exact hn
  · rw [filterMap_append, filterMap_augmented_of fun _ => rfl, filterMap_flatMap]
    exact (flatMap_sublist back?_placesOf bindings).nodup (nodup_append.mp hn).2.1
  · rw [filterMap_append, filterMap_augmented_of fun _ => rfl, filterMap_flatMap]
    refine (flatMap_sublist pattern?_placesOf bindings).nodup ?_
    simpa [patternIds] using hids

/-! ## The two functions -/

theorem closed_of_simple {bs : List (Term × Term)} {ret : Term}
    (hbs : SimpleBindings (params.map (·.sym)) bs)
    (hret : Simple (targets bs ++ params.map (·.sym)) ret)
    (hn : (params.map (·.sym) ++ targets bs).Nodup) :
    Closed { params, body := .bind i bs ret, generator := g } := by
  obtain ⟨hbound, hbinders⟩ := hbs.bound
  constructor
  · refine bound_bind.mpr ⟨hbound, hret.1.mono fun x hx => ?_⟩
    exact mem_knownAfter.mpr (mem_append.mp hx)
  · show (_ ++ binders (.bind i bs ret)).Nodup
    rw [binders, hbinders, hret.2, append_nil]
    exact hn

theorem simpleBindings_of_forall {K : List Symbol} : ∀ {bs : List (Term × Term)},
    (∀ b ∈ bs, Simple K b.2) → SimpleBindings K bs
  | [], _ => trivial
  | (k, v) :: bs, h => by
    refine ⟨h (k, v) mem_cons_self, ?_⟩
    exact (simpleBindings_of_forall fun b hb => h b (mem_cons_of_mem _ hb)).mono
      (subset_append_right _ _)

theorem Tidy.fore_nodup (h : Tidy G P E st s) : (fore st).Nodup :=
  (nodup_append.mp (nodup_append.mp h.ledger.nodup).1).1

theorem ahead_mem {y : Symbol} (h : Ahead P st y) : y ∈ fore st := by
  obtain ⟨p, z, -, hz, rfl⟩ := h
  exact var?_mem hz

theorem closed_backpropagator {out : Ident} {back : List (Term × Term)} {ret : Term}
    (ht : Tidy G P ([out.sym] ++ targets back) st s)
    (hback : SimpleBindings (within [out.sym] st) back)
    (hret : Latest ([out.sym] ++ targets back) st ret) :
    Closed { params := st.needed ++ [out], body := .bind i (st.zeros ++ back) ret, generator := g } := by
  refine closed_of_simple ?_ (Simple.mono hret ?_) ?_
  · refine simpleBindings_append.mpr ⟨simpleBindings_of_forall fun b hb => ?_, hback.mono ?_⟩
    · exact (ht.zeros b hb).mono (by simp)
    · unfold within
      intro x hx
      simp only [map_append, map_cons, map_nil, mem_append] at hx ⊢
      grind
  · intro x hx
    simp only [targets_append, map_append, map_cons, map_nil, mem_append] at hx ⊢
    grind
  · have hledger : (fore st ++ (targets st.zeros ++ ([out.sym] ++ targets back))).Nodup := by
      rw [← append_assoc]
      exact ht.ledger.nodup
    obtain ⟨-, hset, hapart⟩ := nodup_append.mp hledger
    have hall : (st.needed.map (·.sym) ++ (targets st.zeros ++ ([out.sym] ++ targets back))).Nodup := by
      refine nodup_append.mpr ⟨ht.different, hset, fun a ha b hb => hapart a ?_ b hb⟩
      obtain ⟨y, hy, rfl⟩ := mem_map.mp ha
      exact ahead_mem (ht.needed y hy)
    refine (List.Perm.nodup_iff (perm_iff_count.mpr fun z => ?_)).mp hall
    simp only [targets_append, map_append, map_cons, map_nil, count_append]
    omega

theorem closed_augmented {needed : List Ident} {ahead : List (Term × Term)} {made : Ident}
    {value : Term} {j k : TermId} (ht : Tidy G P (E ++ [made.sym]) st s)
    (hparams : Holds st (params.map fun x => .augmented x.sym) (params'.map (·.sym)))
    (hahead : Holds st (bindings.flatMap placesOf) (targets ahead))
    (hplaces : (places params bindings).Nodup)
    (hneeded : ∀ y ∈ needed, Ahead (· ∈ places params bindings) st y.sym)
    (hsimple : SimpleBindings (params'.map (·.sym)) ahead)
    (hvalue : Simple (targets ahead ++ params'.map (·.sym)) value) (href : ref.sym.isGlobal = true)
    :
    Closed
      { params := params'
        body := .bind i (ahead ++ [(.ident made, .closure j (.ident ref) (needed.map .ident))])
          (.tuple k [value, .ident made])
        generator := g } := by
  have hall : Holds st (places params bindings) (params'.map (·.sym) ++ targets ahead) :=
    rel_append hparams hahead
  refine closed_of_simple (simpleBindings_append.mpr ⟨hsimple, ?_, trivial⟩) ?_ ?_
  · refine simple_closure (simple_ident.mpr (.inl href)) fun t ht => ?_
    obtain ⟨y, hy, rfl⟩ := mem_map.mp ht
    obtain ⟨p, z, hp, hz, hsym⟩ := hneeded y hy
    refine simple_ident.mpr (.inr ?_)
    rw [← hsym]
    exact mem_append.mpr (mem_append.mp (hall.mem hp hz)).symm
  · refine simple_tuple (SimpleAll.cons (hvalue.mono ?_) (SimpleAll.singleton
      (simple_ident.mpr (.inr ?_))))
    · intro x hx
      simp only [targets_append, mem_append] at hx ⊢
      grind
    · simp [patternSymbols]
  · rw [targets_append, ← append_assoc]
    refine nodup_append.mpr ⟨hall.nodup ht.fore_nodup hplaces, by simp [patternSymbols],
      fun a ha b hb => ?_⟩
    have hledger := (nodup_append.mp ht.ledger.nodup).2.2
    refine hledger a (mem_append_left _ (hall.subset ha)) b (mem_append_right _ ?_)
    simpa [patternSymbols] using hb

/-! ## Steps of the transformation -/

/-- The bindings of a closed function. -/
structure Parts (params : List Ident) (bindings : List (Term × Term)) (result : Ident) : Prop where
  distinct : (params.map (·.sym) ++ targets bindings).Nodup
  patterns : (patternIds bindings).Nodup
  bound : BoundBindings (params.map (·.sym)) bindings
  result : Bound (targets bindings ++ params.map (·.sym)) (.ident result)

def bodyPatterns : Term → List TermId
  | .bind _ bindings _ => patternIds bindings
  | _ => []

/-- A closed function whose variables were made by its generator, and whose patterns are different
nodes. -/
structure Transformable (s : Session) (l : Lambda) : Prop where
  closed : Closed l
  patterns : (bodyPatterns l.body).Nodup
  made : ∀ x ∈ l.params, Old (Normal.Asked l) s x.sym
  generators : Distinct (Normal.Asked l) s

theorem Transformable.grows (h : Transformable s l) (hg : Grows s s') :
    Transformable s' l :=
  { h with
    made := fun x hx => hg.further.old h.generators (h.made x hx)
    generators := hg.further.distinct h.generators }

theorem steps_bodyParts {result : Ident}
    (h : Steps (bodyParts l.body) o st s (bindings, result) st' s') (hl : Transformable s l)
    (ht : Tidy (Normal.Asked l) P [] st s) :
    st = st' ∧ Grows s s' ∧ Parts l.params bindings result := by
  obtain ⟨hbound, hdistinct⟩ := hl.closed
  have hpatterns := hl.patterns
  unfold bodyParts at h
  split at h
  next x hbody =>
    rw [hbody] at hbound hdistinct
    obtain ⟨y, st1, s₁, hy, h⟩ := steps_bind.mp h
    obtain ⟨rfl, hgrows, hmade⟩ := steps_plain hy ht
    rw [steps_pure] at h
    obtain ⟨hpair, rfl, rfl⟩ := h
    injection hpair with hbindings hresult
    subst hbindings hresult
    have hnew : y.sym ∉ l.params.map (·.sym) := by
      intro hmem
      obtain ⟨z, hz, hsym⟩ := mem_map.mp hmem
      exact hmade.1 (hsym ▸ hl.made z hz)
    refine ⟨rfl, hgrows, ?_, nodup_nil, boundBindings_cons.mpr ⟨hbound, boundBindings_nil⟩,
      bound_ident.mpr (.inr (mem_append_left _ ?_))⟩
    · refine nodup_append.mpr ⟨(nodup_append.mp hdistinct).1, by simp [patternSymbols],
        fun a ha b hb => ?_⟩
      rintro rfl
      rw [mem_singleton.mp hb] at ha
      exact hnew ha
    · simp [patternSymbols]
  next i bs x hbody =>
    rw [steps_pure] at h
    obtain ⟨hpair, rfl, rfl⟩ := h
    injection hpair with hbindings hresult
    subst hbindings hresult
    rw [hbody] at hbound hdistinct hpatterns
    obtain ⟨hbs, hx⟩ := bound_bind.mp hbound
    rw [binders] at hdistinct
    refine ⟨rfl, Grows.refl s, ?_, hpatterns, hbs, hx.mono fun z hz =>
      mem_append.mpr (mem_knownAfter.mp hz)⟩
    exact ((List.Sublist.refl _).append ((Normal.targets_sublist bs).trans
      (sublist_append_left _ _))).nodup hdistinct
  · exact (steps_throw.mp h).elim

theorem tidy_start (relevant : List Symbol) (hs : Sound s) (hd : Distinct (Normal.Asked l) s) :
    Tidy (Normal.Asked l) P [] { generator := l.generator, relevant } s where
  sound := hs
  distinct := hd
  asked _ hg := .inl hg
  nothing := .inr rfl
  ledger := ⟨nodup_nil, fun _ h => absurd h not_mem_nil⟩
  different := nodup_nil
  needed _ h := absurd h not_mem_nil
  latest _ _ h := by cases h
  zeros _ h := absurd h not_mem_nil

theorem goes_ends {ends : List Term}
    (h : Steps (params.mapM fun p => shapedSensitivity (.ident p)) o st s ends st' s')
    (ht : Tidy G P E st s) (hP : ∀ p ∈ params, P (.augmented p.sym)) :
    Goes G P E E st s st' s' ∧ ∀ t ∈ ends, Latest E st' t := by
  induction params generalizing ends st s with
  | nil =>
    obtain ⟨rfl, rfl, rfl⟩ := steps_mapM_nil.mp h
    exact ⟨Goes.refl ht, fun _ h => absurd h not_mem_nil⟩
  | cons p params ih =>
    obtain ⟨r, st1, s₁, hr, rs, hrs, rfl⟩ := steps_mapM_cons.mp h
    rw [forall_mem_cons] at hP
    obtain ⟨h1, hlatest⟩ := goes_shapedSensitivity hr ht (forall_mem_singleton.mpr hP.1)
    obtain ⟨h2, hall⟩ := ih hrs h1.tidy hP.2
    exact ⟨h1.trans h2, forall_mem_cons.mpr ⟨hlatest.extend h2.extends_, hall⟩⟩

theorem goes_params (h : Steps (params.mapM taggedSymbol) o st s params' st' s')
    (ht : Tidy G P E st s) :
    Goes G P E E st s st' s' ∧
      Holds st' (params.map fun x => .augmented x.sym) (params'.map (·.sym)) := by
  induction params generalizing params' st s with
  | nil =>
    obtain ⟨rfl, rfl, rfl⟩ := steps_mapM_nil.mp h
    exact ⟨Goes.refl ht, .nil⟩
  | cons x params ih =>
    obtain ⟨y, st1, s₁, hy, ys, hys, rfl⟩ := steps_mapM_cons.mp h
    obtain ⟨h1, -, hlook⟩ := goes_taggedSymbol hy ht
    obtain ⟨h2, hholds⟩ := ih hys h1.tidy
    exact ⟨h1.trans h2, .cons ⟨y, h2.extends_.var? (p := .augmented x.sym) hlook, rfl⟩ hholds⟩

theorem params_places :
    ∀ p ∈ params, .augmented p.sym ∈ places params bindings :=
  fun _ hp => mem_append_left _ (mem_map_of_mem hp)

theorem params_augmented : ∀ x ∈ params.map (·.sym),
    .augmented x ∈ params.map fun x => augmented x.sym := by
  intro x hx
  obtain ⟨y, hy, rfl⟩ := mem_map.mp hx
  exact mem_map_of_mem hy

theorem targets_augmented : ∀ x ∈ targets bindings,
    .augmented x ∈ bindings.flatMap placesOf := by
  intro x hx
  obtain ⟨b, hb, hmem⟩ := mem_flatMap.mp hx
  exact mem_flatMap.mpr ⟨b, hb, augmented_mem_placesOf hmem⟩

theorem bindings_places :
    ∀ b ∈ bindings.reverse,
      (∀ x ∈ patternSymbols b.1, .augmented x ∈ places params bindings) ∧
        ∀ i fn args, b.2 = .apply i fn args → ∀ p, backPlace b.1 = some p →
          p ∈ places params bindings := by
  rintro ⟨k, v⟩ hb
  have hmem : ∀ p ∈ placesOf (k, v), p ∈ places params bindings := fun p hp =>
    mem_append_right _ (mem_flatMap.mpr ⟨_, mem_reverse.mp hb, hp⟩)
  refine ⟨fun x hx => hmem _ (augmented_mem_placesOf hx), fun i fn args hv p hp => hmem p ?_⟩
  obtain rfl : v = .apply i fn args := hv
  rw [placesOf]
  exact mem_append_right _ (Option.mem_toList.mpr hp)

/-! ## The transformation -/

/-- What names stand for does not change. -/
def SameRegistry (s s' : Session) : Prop := s'.registry = s.registry

instance : Deriving SameRegistry where
  refl _ := rfl
  trans _ _ _ h h' := Eq.trans h' h
  noted _ _ := rfl
  plain _ _ _ := rfl
  function _ _ _ _ := rfl
  derived _ _ _ _ := rfl

/-- A function was registered under a name. -/
structure Registered (s : Session) (x : Symbol) (id : TermId) (l : Lambda) : Prop where
  means : Program.Means s x (.lambda id)
  there : ∃ l', s.lambda? id = some l' ∧ core l' = core l

theorem registered_createLambda (h : Returns (createLambda ref params body g) o s id s') :
    id < s'.origins.size ∧ Registered s' ref.sym id { params, body, generator := g } := by
  unfold createLambda at h
  simp only [returns_bind, returns_newLambda, returns_associate, returns_pure] at h
  obtain ⟨_, _, ⟨rfl, rfl⟩, _, _, rfl, rfl, rfl⟩ := h
  refine ⟨by simp [registered, changed, withLambda], Program.means_registered _ _ _,
    { params, body, generator := g, ref := some ref }, ?_, rfl⟩
  simp

theorem Registered.grows {x : Symbol} (h : Registered s x id l)
    (hid : id < s.origins.size) (hg : Grows s s') (hm : Program.Means s' x (.lambda id)) :
    Registered s' x id l := by
  obtain ⟨l1, hl1, hcore1⟩ := h.there
  obtain ⟨l2, hl2, hcore2⟩ := hg.lambda? hid hl1
  exact ⟨hm, l2, hl2, hcore2.trans hcore1⟩

theorem means_createLambda {x : Symbol} {v : Value}
    (h : Returns (createLambda ref params body g) o s id s') (hm : Program.Means s x v)
    (hne : ref.sym ≠ x) : Program.Means s' x v := by
  unfold createLambda at h
  simp only [returns_bind, returns_newLambda, returns_associate, returns_pure] at h
  obtain ⟨_, _, ⟨rfl, rfl⟩, _, _, rfl, rfl, rfl⟩ := h
  exact Program.Means.registered (s := withLambda (noted s o) s.origins.size _) hm hne _

/-- What the transformation leaves for a function: an augmented function, and a backpropagator whose
parameters, but for the sensitivity of the result, are what the augmented function stores in the
closure over it. -/
structure Transformed (s : Session) (id : TermId) (x ref : Symbol) (back : TermId)
    (augmented backpropagator : Lambda) : Prop where
  registered : Registered s x id augmented
  closed : Closed augmented
  registeredBack : Registered s ref back backpropagator
  closedBack : Closed backpropagator
  stores : ∃ i j k n ahead made needed value out,
    augmented.body = .bind i (ahead ++ [(made, .closure j (.ident ⟨n, ref⟩) (needed.map .ident))])
      (.tuple k [value, made]) ∧ backpropagator.params = needed ++ [out]

theorem transform_closed {find : Symbol → Nat → Run Ident} {name : Symbol}
    {grouped : Nat} (hfind : FindsGlobals find) (hs : Sound s)
    (hl : Transformable s l) (h : Returns (transform find name l grouped) o s id s') :
    ∃ x ref back augmented backpropagator,
      Transformed s' id x ref back augmented backpropagator := by
  unfold transform at h
  simp only [returns_bind] at h
  obtain ⟨x, s₁, hx, augmentedRef, s2, haug, h⟩ := h
  have hxGlobal := returns_fixed (f := .gradient) rfl global_gradient hs hx
  rw [returns_freshDerived] at hx
  rw [returns_ident] at haug
  have hgrows0 : Grows s s2 := by
    rw [← haug.2, ← hx.2]
    exact grows_afterDerived.trans (grows_noted _ _)
  have hs2 := hgrows0.sound hs
  have hl2 : Transformable s2 l := hl.grows hgrows0
  obtain ⟨st', h⟩ := returns_run'.mp h
  -- the code of the function, and what is set in it
  obtain ⟨⟨bindings, result⟩, st1, s3, hparts, h⟩ := steps_bind.mp h
  obtain ⟨rfl, hgrows1, hparts⟩ := steps_bodyParts (P := fun _ => True) hparts hl2
    (tidy_start [] hs2 hl2.generators)
  have hplaces := nodup_places hparts.distinct hparts.patterns
  simp only [steps_bind, steps_modify, steps_lift, steps_get, steps_pure, returns_tuple, returns_ident,
    returns_binding, returns_closure] at h
  obtain ⟨_, _, _, ⟨rfl, rfl⟩, h⟩ := h
  obtain ⟨out, st3, s5, hout, ahead, st4, s6, hahead, back, st5, s7, hback, ends, st6, s8, hends, _, _, _,
    ⟨⟨rfl, rfl⟩, rfl⟩, h⟩ := h
  obtain ⟨_, _, _, ⟨⟨rfl, rfl⟩, rfl⟩, _, _, _, ⟨rfl, rfl, rfl⟩, y, _, s9, ⟨hy, rfl⟩, h⟩ := h
  obtain ⟨_, _, _, ⟨⟨rfl, rfl⟩, rfl⟩, _, _, _, ⟨⟨rfl, rfl⟩, rfl⟩, backId, _, s10, ⟨hcreate, rfl⟩, h⟩ := h
  obtain ⟨_, _, _, ⟨⟨rfl, rfl⟩, rfl⟩, madeName, st7, s11, hmadeName, value, st8, s12, hvalue, _, _, _,
    ⟨⟨rfl, rfl⟩, rfl⟩, h⟩ := h
  obtain ⟨_, _, _, ⟨⟨rfl, rfl⟩, rfl⟩, params, st9, s13, hparams, _, _, s14, ⟨hcreateAug, rfl⟩, _, _, s15,
    ⟨hprimal, rfl⟩, rfl, rfl, rfl⟩ := h
  obtain ⟨h1, -⟩ := goes_newSensitivity (P := (· ∈ places l.params bindings)) hout
    (tidy_start _ (hgrows1.sound hs2) (hgrows1.further.distinct hl2.generators))
  obtain ⟨h2, hholds, hsimple⟩ := goes_gather_forward hfind hahead h1.tidy
  obtain ⟨h3, hbackSimple⟩ := goes_gather_backward hback h2.tidy bindings_places
  obtain ⟨h4, hlatest⟩ := goes_ends hends h3.tidy params_places
  have h5 : Goes _ _ _ _ st6 s8 st6 (noted (noted s8 o) o) :=
    h4.tidy.goes ((grows_noted _ _).trans (grows_noted _ _))
  -- the backpropagator
  have hyGlobal := returns_fixed (f := .gradient) rfl global_gradient h5.tidy.sound hy
  have h6 := h5.tidy.goes (keeps_freshDerived (R := Sure) _ _ _ _ hy h5.tidy.sound)
  have h7 := h6.tidy.goes ((grows_noted s9 o).trans (grows_noted _ o))
  obtain ⟨hbackId, hregistered⟩ := registered_createLambda hcreate
  have h8 := h7.tidy.goes (keeps_createLambda hyGlobal _ _ _ _ _ _ _ hcreate h7.tidy.sound)
  -- the augmented function
  obtain ⟨rfl, hgrows2, hnew⟩ := steps_derive hmadeName (h8.tidy.grows (grows_noted _ _))
  have h9 := (h8.tidy.grows (grows_noted _ o)).enter hgrows2 hnew
  obtain ⟨h10, hvalueSimple⟩ := goes_taggedExpr hvalue h9
  obtain ⟨h11, hparamsHold⟩ := goes_params hparams
    (h10.tidy.grows ((grows_noted _ _).trans (grows_noted _ _)))
  obtain ⟨hid, hregisteredAug⟩ := registered_createLambda hcreateAug
  -- what was registered stays so
  have haugGlobal : augmentedRef.sym.isGlobal = true := by
    rw [← haug.1]
    exact hxGlobal
  have hgrows3 := keeps_createLambda haugGlobal _ _ _ _ _ _ _ hcreateAug h11.tidy.sound
  have hgrows4 := keeps_primal _ _ _ _ _ _ hprimal (hgrows3.sound h11.tidy.sound)
  have hsame4 : s15.registry = s14.registry := by
    rw [modifyLambda, returns_modify] at hprimal
    rw [← hprimal]
  have hsame3 : s13.registry = s10.registry := by
    have h1 : SameRegistry _ _ := keepsIn_derive _ _ hmadeName
    have h2 : SameRegistry _ _ := keepsIn_taggedExpr _ hvalue
    have h3 : SameRegistry _ _ := keepsIn_mapM keepsIn_taggedSymbol _ hparams
    exact h3.trans (h2.trans h1)
  have hne : augmentedRef.sym ≠ y := by
    rw [returns_freshDerived] at hy
    rw [← haug.1, ← hx.1, ← hy.1]
    simp [Generator.derive, Relation.augmented, Relation.backprop]
  have hmeans14 := means_createLambda hcreateAug (hregistered.means.same hsame3) hne
  have hgrows : Grows s10 s15 := (grows_noted _ o).trans <| hgrows2.trans <| h10.grows.trans <|
    (grows_noted _ o).trans <| (grows_noted _ o).trans <| h11.grows.trans <| hgrows3.trans hgrows4
  refine ⟨_, _, _, _, _, hregisteredAug.grows hid hgrows4 (hregisteredAug.means.same hsame4), ?_,
    hregistered.grows hbackId hgrows (hmeans14.same hsame4), ?_,
    ⟨_, _, _, _, ahead, .ident madeName, st6.needed, value, out, rfl, rfl⟩⟩
  · -- all augmented variables are those that the last state has
    have hextends : Extends st4 st9 := h3.extends_.trans (h4.extends_.trans
      (h10.extends_.trans h11.extends_))
    have hextends6 : Extends st6 st9 := h10.extends_.trans h11.extends_
    have haheadHold := hholds.extend hextends
    have hcarries : Carries st9 (l.params.map (·.sym)) (params.map (·.sym)) :=
      hparamsHold.carries params_augmented
    refine closed_augmented h11.tidy hparamsHold haheadHold hplaces
      (fun y hy => hextends6.ahead (h4.tidy.needed y hy))
      (hsimple _ _ hparts.bound (hcarries.before hextends)) ?_ hyGlobal
    exact hvalueSimple _ _ hparts.result
      (((haheadHold.carries targets_augmented).append hcarries).before h11.extends_)
  · refine closed_backpropagator h4.tidy (hbackSimple.mono h4.extends_.within) ?_
    refine simple_tuple (SimpleAll.cons (simple_tuple fun t ht => ?_) fun t ht => ?_)
    · exact hlatest t (mem_of_mem_take ht)
    · exact hlatest t (mem_of_mem_drop ht)

/-- The transformation of a closed function registers two functions, the augmented one and its
backpropagator. Neither has an unbound variable or binds one twice, and the closure over the
backpropagator stores its parameters, but for the sensitivity of the result. -/
theorem ofNormal_closed {name : Symbol} {normal id : TermId} {grouped : Nat} {l : Lambda}
    (hs : Sound s) (hl : s.lambda? normal = some l) (ht : Transformable s l)
    (h : Returns (ofNormal name normal grouped) o s id s') :
    ∃ x ref back augmented backpropagator,
      Program.Means s' x (.lambda id) ∧ s'.lambda? id = some augmented ∧
      unbound [] (lambdaTerm id augmented) = .ok [] ∧
      (augmented.params.map (·.sym) ++ binders augmented.body).Nodup ∧
      Program.Means s' ref (.lambda back) ∧ s'.lambda? back = some backpropagator ∧
      unbound [] (lambdaTerm back backpropagator) = .ok [] ∧
      (backpropagator.params.map (·.sym) ++ binders backpropagator.body).Nodup ∧
      ∃ i j k n ahead made stored value needed out,
        augmented.body = .bind i (ahead ++ [(made, .closure j (.ident ⟨n, ref⟩) stored)])
          (.tuple k [value, made]) ∧
        backpropagator.params = needed ++ [out] ∧ stored = needed.map .ident := by
  unfold ofNormal at h
  obtain ⟨l₀, s₁, hget, h⟩ := returns_bind.mp h
  rw [returns_getLambda, hl, Option.some.injEq] at hget
  obtain ⟨rfl, rfl⟩ := hget
  obtain ⟨x, ref, back, a, b, htransformed⟩ :=
    transform_closed (fun _ _ _ _ _ _ hs h => find_global hs h) hs ht h
  obtain ⟨a', ha', hcore⟩ := htransformed.registered.there
  obtain ⟨b', hb', hcoreBack⟩ := htransformed.registeredBack.there
  have hclosed := Reading.closed_of_core hcore htransformed.closed
  have hclosedBack := Reading.closed_of_core hcoreBack htransformed.closedBack
  obtain ⟨i, j, k, n, ahead, made, needed, value, out, hbody, hparams⟩ := htransformed.stores
  refine ⟨x, ref, back, a', b', htransformed.registered.means, ha', hclosed.bound, hclosed.distinct,
    htransformed.registeredBack.means, hb', hclosedBack.bound, hclosedBack.distinct, i, j, k, n,
    ahead, made, _, value, needed, out, ?_, ?_, rfl⟩
  · rw [← core_body a', hcore, core_body, hbody]
  · rw [← core_params b', hcoreBack, core_params, hparams]

/-- A function of `x` and `y` in A-normal form. It squares `x`, splits the value of a call with the
square and `y` into two parts, and returns the second part together with the square. -/
def splitting : Lambda :=
  let v (i : TermId) (name : String) : Ident := ⟨i, .plain name (.hidden 0) 1⟩
  { params := [v 1 "x", v 2 "y"]
    body := .bind 3
      [(.ident (v 4 "t"),
        .apply 5 (.ident ⟨6, .builtin "multiply"⟩) [.ident (v 7 "x"), .ident (v 8 "x")]),
       (.tuple 9 [.ident (v 10 "p"), .ident (v 11 "q")],
        .apply 12 (.ident ⟨13, .plain "g" (.named "global:m") 1⟩)
          [.ident (v 14 "t"), .ident (v 15 "y")]),
       (.ident (v 16 "r"), .tuple 17 [.ident (v 18 "q"), .ident (v 19 "t")])]
      (.ident (v 20 "r"))
    generator := some 6 }

/-- A session that knows the function as number 22. -/
def splittingSession : Session :=
  let s : Session :=
    { Session.initial with
      origins := Array.replicate 22 none
      generators := Session.initial.generators.push
        { space := .hidden 0
          counts := [("x", 1), ("y", 1), ("t", 1), ("p", 1), ("q", 1), ("r", 1)] } }
  withLambda (noted s none) s.origins.size splitting

theorem sound_splitting : Sound splittingSession := by
  refine (grows_newLambda _ none splitting rfl).sound (Grows.sound ?_ sound_initial)
  exact Grows.of_still (by decide) (Further.of_push rfl) rfl rfl

theorem transformable_splitting : Transformable splittingSession splitting where
  closed := by
    refine ⟨?_, by decide +kernel⟩
    simp only [splitting, bound_bind, boundBindings_cons, boundBindings_nil, bound_apply, bound_tuple,
      boundAll_cons, boundAll_nil, bound_ident, and_true]
    decide +kernel
  patterns := by decide +kernel
  made := by
    have h : ∀ x ∈ splitting.params, ∀ i ∈ [6, 0],
        (generator splittingSession i).space = x.sym.space →
          Covers (generator splittingSession i) x.sym := by
      decide +kernel
    exact fun x hx => (Normal.forall_asked rfl).mpr ⟨h x hx 6 (by simp), h x hx 0 (by simp)⟩
  generators := Normal.distinct_asked rfl (by decide +kernel) (by decide +kernel)

theorem ofNormal_closed_splitting :
    ∃ id s', Returns (ofNormal (.plain "f" (.named "global:m") 1) 22 1) none splittingSession id s' ∧
      ∃ x ref back augmented backpropagator,
        Program.Means s' x (.lambda id) ∧ s'.lambda? id = some augmented ∧
        unbound [] (lambdaTerm id augmented) = .ok [] ∧
        (augmented.params.map (·.sym) ++ binders augmented.body).Nodup ∧
        Program.Means s' ref (.lambda back) ∧ s'.lambda? back = some backpropagator ∧
        unbound [] (lambdaTerm back backpropagator) = .ok [] ∧
        (backpropagator.params.map (·.sym) ++ binders backpropagator.body).Nodup ∧
        ∃ i j k n ahead made stored value needed out,
          augmented.body = .bind i (ahead ++ [(made, .closure j (.ident ⟨n, ref⟩) stored)])
            (.tuple k [value, made]) ∧
          backpropagator.params = needed ++ [out] ∧ stored = needed.map .ident := by
  obtain ⟨id, s', h⟩ := exists_returns (ofNormal (.plain "f" (.named "global:m") 1) 22 1) none
    splittingSession (by decide +kernel)
  exact ⟨id, s', h, ofNormal_closed sound_splitting (l := splitting) rfl transformable_splitting h⟩

end DiffLang.Gradient
