import DiffLang.Proofs.Growth
import DiffLang.Proofs.Reading.Bound
import DiffLang.Proofs.Reading.Names
import Mathlib.Data.List.Forall2

/-!
# What reading does to a scope

`Read R B D fs ds sc s sc' s'` describes one step of the reader: it looks up the names `R`, makes
variables for the names `B`, leaves `D` noted about the function, reads the functions `fs`, and
computes and sets variables in the order `ds`. From this it follows which names have variables afterwards and which are noted as free
(`has`, `free`), that every function registered on the way is closed (`registers`), and that what is
computed uses only variables that are set before (`tidy`). The last holds outside of trials only,
and only if no variable of an enclosing function has to be reached: either such variables become
parameters, or all the names that are looked up have variables already.

Steps that follow each other are put together by `Read.append`. So what a statement does is the sum
of what its parts do, and each part is looked at once.
-/

namespace DiffLang.Reading

open Run Session Growth Freshness Scoping Meaning List

/-! ## Names -/

/-- A name has a variable of the function being read. -/
def Has (sc : Scope) (n : String) : Prop := (sc.bindings.lookup n).isSome = true

/-- A name has a variable of an enclosing function. -/
def Visible (sc : Scope) (n : String) : Prop :=
  (sc.outer.findSome? (List.lookup n)).isSome = true

def Free (sc : Scope) (n : String) : Prop := n ∈ sc.free.map Prod.fst

instance (sc : Scope) (n : String) : Decidable (Has sc n) := inferInstanceAs (Decidable (_ = true))

variable {β : Type} {ts : List Term} {t : Term} {l : Lambda}

theorem mem_map_fst_put {k n : String} {b : β} :
    ∀ {l : List (String × β)}, n ∈ (put (· == ·) k b l).map Prod.fst ↔ n = k ∨ n ∈ l.map Prod.fst
  | [] => by simp [put]
  | (k', c) :: l => by
    rw [put]
    split
    next h =>
      obtain rfl := eq_of_beq h
      simp
    next h =>
      simp only [map_cons, mem_cons, mem_map_fst_put]
      grind

/-- A new key is put last. -/
theorem put_of_not_mem {k : String} {b : β} :
    ∀ {l : List (String × β)}, k ∉ l.map Prod.fst → put (· == ·) k b l = l ++ [(k, b)]
  | [], _ => rfl
  | (k', c) :: l, h => by
    simp only [map_cons, mem_cons, not_or] at h
    have hne : (k' == k) = false := by simpa using Ne.symm h.1
    rw [put, hne, if_neg (by simp), put_of_not_mem h.2, cons_append]

def symbols (F : Bindings) : List Symbol := F.map fun b => b.2.sym

@[simp] theorem symbols_nil : symbols [] = [] := rfl
@[simp] theorem symbols_append (F G : Bindings) : symbols (F ++ G) = symbols F ++ symbols G :=
  map_append

/-! ## Terms -/

variable {K : List Symbol}

theorem boundAll_idents {xs : List Ident} :
    BoundAll K (xs.map .ident) ↔ ∀ x ∈ xs, x.sym.isGlobal = true ∨ x.sym ∈ K := by
  simp [boundAll_iff, bound_ident]

theorem Pattern.terms_eq_map (ks : List Pattern) : Pattern.term.terms ks = ks.map Pattern.term := by
  induction ks with
  | nil => rfl
  | cons k ks ih => rw [Pattern.term.terms, ih, map_cons]

mutual

theorem Pattern.straight : ∀ k : Pattern, straight k.term = true
  | .name _ => rfl
  | .tuple _ items => Pattern.straightAll items

theorem Pattern.straightAll : ∀ ks : List Pattern, straightAll (Pattern.term.terms ks) = true
  | [] => rfl
  | k :: ks => Bool.and_eq_true_iff.mpr ⟨Pattern.straight k, Pattern.straightAll ks⟩

end

/-! ## Scopes -/

/-- Only the variables of a scope have changed, and what is noted about the function. -/
structure Same (sc sc' : Scope) : Prop where
  rest : sc' = { sc with
    bindings := sc'.bindings
    free := sc'.free
    assigned := sc'.assigned
    returns := sc'.returns }

variable {sc sc1 sc' : Scope} {s s1 s' : Session} {o : Option Origin} {g : GeneratorId}
  {l' : Lambda} {es : List Deed}

theorem Same.refl (sc : Scope) : Same sc sc := ⟨rfl⟩

theorem Same.trans (h : Same sc sc1) (h' : Same sc1 sc') : Same sc sc' := by
  constructor
  rw [h'.rest, h.rest]

theorem Same.trial (h : Same sc sc') : sc'.trial = sc.trial := by rw [h.rest]
theorem Same.pull (h : Same sc sc') : sc'.pull = sc.pull := by rw [h.rest]
theorem Same.outer (h : Same sc sc') : sc'.outer = sc.outer := by rw [h.rest]
theorem Same.generator (h : Same sc sc') : sc'.generator = sc.generator := by rw [h.rest]
theorem Same.grouping (h : Same sc sc') : sc'.grouping = sc.grouping := by rw [h.rest]
theorem Same.dest (h : Same sc sc') : sc'.dest = sc.dest := by rw [h.rest]
theorem Same.returnError (h : Same sc sc') : sc'.returnError = sc.returnError := by rw [h.rest]

theorem Same.visible (h : Same sc sc') {n : String} : Visible sc' n ↔ Visible sc n := by
  unfold Visible
  rw [h.outer]

def Private (s : Session) (g : GeneratorId) : Prop :=
  g < s.generators.size ∧ (Freshness.generator s g).space.isGlobal = false

/-- A variable is one for a name. -/
def For (name : String) (x : Ident) : Prop := ∃ space version, x.sym = .plain name space version

/-- The generators of a scope are there, its variables are local and its global names global, and
variables that were pulled from enclosing functions are its own, under their names. -/
structure Ready (sc : Scope) (s : Session) : Prop where
  sound : Sound s
  generator : Private s sc.generator
  globals : sc.trial = false → sc.globals < s.generators.size ∧
    (Freshness.generator s sc.globals).space.isGlobal = true
  pulled : sc.pull = true → ∀ n, Free sc n → Has sc n
  labelled : sc.pull = true → ∀ b ∈ sc.free, For b.1 b.2

theorem Private.grows (h : Private s g) (hg : Grows s s') : Private s' g :=
  ⟨h.1.trans_le hg.further.size, by rw [hg.further.space g h.1]; exact h.2⟩

theorem Private.isGlobal {xs : List Symbol} (hg : Private s' g) (h : Fresh g s s' xs) {x : Symbol}
    (hx : x ∈ xs) : x.isGlobal = false := by
  rw [Symbol.isGlobal, (h.new x hx).2.2]
  exact hg.2

theorem Ready.grows (h : Ready sc s) (hg : Grows s s') : Ready sc s' := by
  refine ⟨hg.sound h.sound, h.generator.grows hg, fun ht => ?_, h.pulled, h.labelled⟩
  obtain ⟨hlt, hspace⟩ := h.globals ht
  exact ⟨hlt.trans_le hg.further.size, by rw [hg.further.space _ hlt]; exact hspace⟩

/-- The variables of a scope are global names or among those that are known. -/
def Knows (sc : Scope) (K : List Symbol) : Prop :=
  ∀ n x, sc.bindings.lookup n = some x → x.sym.isGlobal = true ∨ x.sym ∈ K

theorem Knows.mono {K' : List Symbol} (h : Knows sc K) (hK : K ⊆ K') : Knows sc K' :=
  fun n x hx => (h n x hx).imp_right fun hmem => hK hmem

/-- The variables that a scope has for some names are global names or among those that are known. -/
def KnowsOn (R : List String) (sc : Scope) (K : List Symbol) : Prop :=
  ∀ n ∈ R, ∀ x, sc.bindings.lookup n = some x → x.sym.isGlobal = true ∨ x.sym ∈ K

theorem Knows.on (h : Knows sc K) (R : List String) : KnowsOn R sc K :=
  fun n _ x hx => h n x hx

/-- No name of a list has to be looked up in an enclosing function. -/
def Settled (R : List String) (sc : Scope) : Prop :=
  sc.pull = true ∨ ∀ n ∈ R, Visible sc n → Has sc n

/-! ## Functions that are registered -/

/-- A function as the reader makes it: it is closed, has parameters of its own, and is computed
statement by statement, so it has no function inside. -/
structure Made (l : Lambda) : Prop extends Closed l where
  locals : ∀ x ∈ l.params.map (·.sym), x.isGlobal = false
  orderly : Orderly l.body

theorem Made.isGlobal (h : Made l) : ∀ p ∈ l.params, p.sym.isGlobal = false :=
  fun p hp => h.locals p.sym (mem_map.mpr ⟨p, hp, rfl⟩)

theorem closed_of_core (h : core l' = core l) (hl : Closed l) : Closed l' := by
  have hp : l'.params = l.params := by rw [← core_params l', h, core_params]
  have hb : l'.body = l.body := by rw [← core_body l', h, core_body]
  constructor
  · rw [hp, hb]
    exact hl.bound
  · rw [hp, hb]
    exact hl.distinct

theorem made_of_core (h : core l' = core l) (hl : Made l) : Made l' := by
  refine ⟨closed_of_core h hl.toClosed, ?_, ?_⟩
  · rw [← core_params l', h, core_params]
    exact hl.locals
  · rw [← core_body l', h, core_body]
    exact hl.orderly

/-- A session grows, and the functions that are made and registered meanwhile are as the reader
makes them. -/
structure Registers (s s' : Session) : Prop where
  grows : Grows s s'
  registry : ∀ k id, (k, Value.lambda id) ∈ s'.registry → (k, Value.lambda id) ∈ s.registry ∨
    (id < s'.origins.size ∧ ∃ l, s'.lambda? id = some l ∧ Made l)
  made : ∀ id l, s'.lambda? id = some l →
    (∃ l', s.lambda? id = some l' ∧ core l = core l') ∨ Made l
  old : ∀ id < s.origins.size, s'.lambda? id = s.lambda? id

theorem Registers.of_grows (h : Grows s s')
    (hs : s'.registry = s.registry ∧ s'.lambdas = s.lambdas) : Registers s s' :=
  ⟨h, fun k id hk => .inl (by rw [← hs.1]; exact hk), fun id l hl => .inl ⟨l, by
    rwa [lambda?, hs.2] at hl, rfl⟩, fun id _ => by rw [lambda?, lambda?, hs.2]⟩

theorem Registers.refl (s : Session) : Registers s s :=
  Registers.of_grows (Grows.refl s) ⟨rfl, rfl⟩

theorem Registers.trans (h : Registers s s1) (h' : Registers s1 s') : Registers s s' := by
  refine ⟨h.grows.trans h'.grows, fun k id hk => ?_, fun id l hl => ?_, fun id hid => ?_⟩
  · rcases h'.registry k id hk with hk | hk
    · rcases h.registry k id hk with hk | ⟨hid, l, hl, hc⟩
      · exact .inl hk
      · obtain ⟨l', hl', hcore⟩ := h'.grows.lambda? hid hl
        exact .inr ⟨hid.trans_le h'.grows.nodes, l', hl', made_of_core hcore hc⟩
    · exact .inr hk
  · rcases h'.made id l hl with ⟨l1, hl1, hcore1⟩ | hm
    · rcases h.made id l1 hl1 with ⟨l0, hl0, hcore⟩ | hm
      · exact .inl ⟨l0, hl0, hcore1.trans hcore⟩
      · exact .inr (made_of_core hcore1 hm)
    · exact .inr hm
  · rw [h'.old id (hid.trans_le h.grows.nodes), h.old id hid]

theorem Registers.closed (h : Registers s s') (k : Value) (id : TermId)
    (hk : (k, Value.lambda id) ∈ s'.registry) : (k, Value.lambda id) ∈ s.registry ∨
      (id < s'.origins.size ∧ ∃ l, s'.lambda? id = some l ∧ Closed l) :=
  (h.registry k id hk).imp_right fun ⟨hid, l, hl, hm⟩ => ⟨hid, l, hl, hm.toClosed⟩

theorem Quiet.registers (h : Quiet s s') : Registers s s' :=
  Registers.of_grows (Grows.of_quiet h) ⟨by rw [h.rest], by rw [h.rest]⟩

theorem registers_registered {ref : Ident} (href : ref.sym.isGlobal = true)
    (hl : Made l) (hnone : l.ref = none) (s : Session) (o : Option Origin) :
    Registers s (registered (withLambda (noted s o) s.origins.size l) ref s.origins.size) := by
  have hmade : Made { l with ref := some ref } :=
    ⟨⟨hl.bound, hl.distinct⟩, hl.locals, hl.orderly⟩
  refine ⟨(grows_newLambda s o l hnone).trans (grows_registered href _ _), fun k id hk => ?_,
    fun id l' hl' => ?_, fun id hid => ?_⟩
  · rcases mem_put hk with hid | hold
    · injection hid with hid
      subst hid
      refine .inr ⟨by simp [registered, changed, withLambda], _, ?_, hmade⟩
      simp
    · exact .inl hold
  · rw [registered_lambda?] at hl'
    by_cases hid : id = s.origins.size
    · rw [hid, withLambda_lambda?] at hl'
      simp only [Option.map_some, if_true, Option.some.injEq] at hl'
      exact .inr (hl' ▸ hmade)
    · refine .inl ⟨l', ?_, rfl⟩
      simpa [hid, withLambda, lambda?, noted, lookup_cons, beq_eq_false_iff_ne.mpr hid] using hl'
  · rw [registered_lambda?]
    simp [hid.ne, withLambda, lambda?, noted, lookup_cons, beq_eq_false_iff_ne.mpr hid.ne]

/-- Parameters as a text gives them: first variables that are taken from around the function, then
its own in order. -/
structure Header.Fits (f : Header) (captured own : List Ident) : Prop where
  captured : ∀ x ∈ captured, ∃ n ∈ f.outside, For n x
  own : Forall₂ For f.params.names own

/-- A function of the session has the parameters that a text gives it. -/
structure Entry (s : Session) (f : Header) (id : TermId) : Prop where
  there : id < s.origins.size
  made : ∃ l ref captured own, s.lambda? id = some l ∧ l.ref = some ref ∧
    l.params = captured ++ own ∧ f.Fits captured own

/-- Each of the functions `fs` has got a function of its own. -/
def Entered (fs : List Header) (s s' : Session) : Prop :=
  ∃ ids : List TermId, ids.Nodup ∧ (∀ id ∈ ids, s.origins.size ≤ id) ∧ Forall₂ (Entry s') fs ids

variable {fs gs : List Header}

theorem Registers.entry {f : Header} {id : TermId} (h : Registers s s') (he : Entry s f id) :
    Entry s' f id :=
  ⟨he.there.trans_le h.grows.nodes, by rw [h.old id he.there]; exact he.made⟩

theorem Entered.nil : Entered [] s s' := ⟨[], nodup_nil, by simp, .nil⟩

theorem lt_of_entries {ids : List TermId} (h : Forall₂ (Entry s) fs ids) :
    ∀ id ∈ ids, id < s.origins.size := by
  induction h with
  | nil => simp
  | cons he _ ih => exact forall_mem_cons.mpr ⟨he.there, ih⟩

theorem Registers.entered (h : Registers s s1) (h' : Entered fs s1 s') : Entered fs s s' := by
  obtain ⟨ids, hnodup, hle, hall⟩ := h'
  exact ⟨ids, hnodup, fun id hid => h.grows.nodes.trans (hle id hid), hall⟩

theorem Entered.before (h : Entered fs s s1) (h' : Registers s1 s') : Entered fs s s' := by
  obtain ⟨ids, hnodup, hle, hall⟩ := h
  exact ⟨ids, hnodup, hle, hall.imp fun _ _ he => h'.entry he⟩

theorem Entered.append (h : Entered fs s s1) (h' : Entered gs s1 s') (hreg : Registers s s1)
    (hreg' : Registers s1 s') : Entered (fs ++ gs) s s' := by
  obtain ⟨ids, hnodup, hle, hall⟩ := h
  obtain ⟨ids', hnodup', hle', hall'⟩ := h'
  refine ⟨ids ++ ids', nodup_append.mpr ⟨hnodup, hnodup', fun id hid id' hid' => ?_⟩, ?_,
    rel_append (hall.imp fun _ _ he => hreg'.entry he) hall'⟩
  · exact ((lt_of_entries hall id hid).trans_le (hle' id' hid')).ne
  · exact forall_mem_append.mpr ⟨hle, fun id hid => hreg.grows.nodes.trans (hle' id hid)⟩

/-! ## What is computed and set -/

/-- A step of a body: a term is computed, or variables are set. -/
inductive Deed where
  | compute (t : Term)
  | set (xs : List Symbol)

def sets : List Deed → List Symbol
  | [] => []
  | .compute _ :: ds => sets ds
  | .set xs :: ds => xs ++ sets ds

/-- Every term uses only what is known or set before, and binds nothing itself. -/
def Covered (K : List Symbol) : List Deed → Prop
  | [] => True
  | .compute t :: ds => (Bound K t ∧ straight t = true) ∧ Covered K ds
  | .set xs :: ds => Covered (xs ++ K) ds

@[simp] theorem sets_append (ds es : List Deed) : sets (ds ++ es) = sets ds ++ sets es := by
  induction ds with
  | nil => rfl
  | cons d ds ih =>
    cases d with
    | compute t => exact ih
    | set xs => simp [sets, ih]

theorem Covered.mono {ds : List Deed} :
    ∀ {K K' : List Symbol}, Covered K ds → K ⊆ K' → Covered K' ds := by
  induction ds with
  | nil => exact fun _ _ => trivial
  | cons d ds ih =>
    intro K K' h hK
    cases d with
    | compute t => exact ⟨⟨h.1.1.mono hK, h.1.2⟩, ih h.2 hK⟩
    | set xs =>
      exact ih h (append_subset.mpr
        ⟨subset_append_left _ _, List.Subset.trans hK (subset_append_right _ _)⟩)

theorem covered_append {ds : List Deed} :
    ∀ {K : List Symbol}, Covered K (ds ++ es) ↔ Covered K ds ∧ Covered (sets ds ++ K) es := by
  induction ds with
  | nil => simp [Covered, sets]
  | cons d ds ih =>
    intro K
    cases d with
    | compute t => simp only [cons_append, Covered, sets, ih, and_assoc]
    | set xs =>
      simp only [cons_append, Covered, sets, ih]
      refine and_congr_right fun _ => ⟨fun h => h.mono ?_, fun h => h.mono ?_⟩
      · intro x hx
        simp only [mem_append] at hx ⊢
        grind
      · intro x hx
        simp only [mem_append] at hx ⊢
        grind

def computes (ts : List Term) : List Deed := ts.map .compute

@[simp] theorem sets_computes (ts : List Term) : sets (computes ts) = [] := by
  induction ts with
  | nil => rfl
  | cons t ts ih => exact ih

theorem covered_computes :
    Covered K (computes ts) ↔ BoundAll K ts ∧ straightAll ts = true := by
  induction ts with
  | nil => simp [computes, Covered, boundAll_nil, straightAll]
  | cons t ts ih =>
    have hcons : Covered K (computes (t :: ts)) ↔
        (Bound K t ∧ straight t = true) ∧ Covered K (computes ts) := Iff.rfl
    rw [hcons, ih, boundAll_cons, straightAll, Bool.and_eq_true]
    grind

/-- What is computed and set in a part of a function's body that looks up `R` and makes variables
for `B`, if nothing is reached in enclosing functions: `F` are the variables that become parameters
meanwhile. -/
structure Tidy (R B : List String) (F : Bindings) (ds : List Deed) (sc : Scope) (s : Session)
    (sc' : Scope) (s' : Session) : Prop where
  free : sc'.free = sc.free ++ F
  unpulled : sc.pull = false → F = []
  fresh : Fresh sc.generator s s' (symbols F ++ sets ds)
  covered : ∀ K, KnowsOn R sc K → symbols F ⊆ K → Covered K ds
  bindings : ∀ n x, sc'.bindings.lookup n = some x →
    (n ∉ B ∧ sc.bindings.lookup n = some x) ∨ x.sym ∈ symbols F ++ sets ds

variable {R B R1 B1 R2 B2 : List String} {D D1 D2 : List Note} {ds ds1 ds2 : List Deed} {F G : Bindings}

theorem Tidy.knows (h : Tidy R B F ds sc s sc' s') (hK : Knows sc K)
    (hF : symbols F ⊆ K) : Knows sc' (sets ds ++ K) := by
  intro n x hx
  rcases h.bindings n x hx with ⟨-, hold⟩ | hnew
  · exact (hK n x hold).imp_right fun hmem => mem_append.mpr (.inr hmem)
  · rcases mem_append.mp hnew with hmem | hmem
    · exact .inr (mem_append.mpr (.inr (hF hmem)))
    · exact .inr (mem_append.mpr (.inl hmem))

theorem Tidy.knowsOn (h : Tidy R1 B1 F ds sc s sc1 s1)
    (hK : KnowsOn (R1 ++ without R2 B1) sc K) (hF : symbols F ⊆ K) :
    KnowsOn R2 sc1 (sets ds ++ K) := by
  intro n hn x hx
  rcases h.bindings n x hx with ⟨hnot, hold⟩ | hnew
  · refine (hK n ?_ x hold).imp_right fun hmem => mem_append.mpr (.inr hmem)
    exact mem_append.mpr (.inr (mem_without.mpr ⟨hn, hnot⟩))
  · rcases mem_append.mp hnew with hmem | hmem
    · exact .inr (mem_append.mpr (.inr (hF hmem)))
    · exact .inr (mem_append.mpr (.inl hmem))

theorem Tidy.append (h : Tidy R1 B1 F ds sc s sc1 s1) (h' : Tidy R2 B2 G es sc1 s1 sc' s')
    (hsame : Same sc sc1) (hg : sc.generator < s.generators.size) (hf : Further s s1)
    (hf' : Further s1 s') :
    Tidy (R1 ++ without R2 B1) (B1 ++ B2) (F ++ G) (ds ++ es) sc s sc' s' := by
  refine ⟨?_, fun hp => ?_, ?_, fun K hK hF => ?_, fun n x hx => ?_⟩
  · rw [h'.free, h.free, append_assoc]
  · rw [h.unpulled hp, h'.unpulled (by rw [hsame.pull]; exact hp), append_nil]
  · have hfresh := h.fresh.append (hsame.generator ▸ h'.fresh) hg hf hf'
    refine hfresh.perm ?_
    rw [symbols_append, sets_append, append_assoc, append_assoc]
    refine List.Perm.append_left _ ?_
    rw [← append_assoc, ← append_assoc]
    exact perm_append_comm.append_right _
  · rw [symbols_append, append_subset] at hF
    have h1 : KnowsOn R1 sc K := fun n hn => hK n (mem_append.mpr (.inl hn))
    refine covered_append.mpr ⟨h.covered K h1 hF.1, h'.covered _ (h.knowsOn hK hF.1) ?_⟩
    exact List.Subset.trans hF.2 (subset_append_right _ _)
  · rw [symbols_append, sets_append]
    simp only [mem_append]
    rcases h'.bindings n x hx with ⟨hnot', hx'⟩ | hnew
    · rcases h.bindings n x hx' with ⟨hnot, hold⟩ | hnew
      · exact .inl ⟨by grind, hold⟩
      · rw [mem_append] at hnew
        grind
    · rw [mem_append] at hnew
      grind

/-! ## Steps -/

/-- A step of the reader: it looks up `R`, makes variables for `B`, notes `D`, reads the functions
`fs`, and does `ds`. -/
structure Read (R B : List String) (D : List Note) (fs : List Header) (ds : List Deed) (sc : Scope)
    (s : Session) (sc' : Scope) (s' : Session) : Prop where
  same : Same sc sc'
  has : ∀ n, Has sc' n ↔ Has sc n ∨ n ∈ B ∨ (sc.pull = true ∧ n ∈ R ∧ Visible sc n)
  free : ∀ n, Free sc' n ↔ Free sc n ∨ (n ∈ R ∧ ¬ Has sc n ∧ Visible sc n)
  assigned : ∀ n, n ∈ sc'.assigned ↔ n ∈ sc.assigned ∨ .sets n ∈ D
  returns : sc'.returns = true ↔ sc.returns = true ∨ .returns ∈ D
  registers : Registers s s'
  ready : Ready sc' s'
  entered : sc.trial = false → Entered fs s s'
  tidy : sc.trial = false → Settled R sc → ∃ F, Tidy R B F ds sc s sc' s'

theorem Read.private (h : Read R B D fs ds sc s sc' s') : Private s' sc.generator :=
  h.same.generator ▸ h.ready.generator

theorem Read.append (h1 : Read R1 B1 D1 fs ds1 sc s sc1 s1)
    (h2 : Read R2 B2 D2 gs ds2 sc1 s1 sc' s') (hr : Ready sc s) :
    Read (R1 ++ without R2 B1) (B1 ++ B2) (D1 ++ D2) (fs ++ gs) (ds1 ++ ds2) sc s sc' s' := by
  refine ⟨h1.same.trans h2.same, fun n => ?_, fun n => ?_, fun n => ?_, ?_,
    h1.registers.trans h2.registers, h2.ready, fun ht => ?_, fun ht hset => ?_⟩
  · rw [h2.has, h1.has, h1.same.visible, h1.same.pull, mem_append, mem_append,
      mem_without]
    grind
  · rw [h2.free, h1.free, h1.has, h1.same.visible, mem_append, mem_without]
    grind
  · rw [h2.assigned, h1.assigned, mem_append, or_assoc]
  · rw [h2.returns, h1.returns, mem_append, or_assoc]
  · exact (h1.entered ht).append (h2.entered (h1.same.trial.trans ht)) h1.registers h2.registers
  · -- the names that the second step looks up have variables, or get them in the first step
    have hset1 : Settled R1 sc := hset.imp_right fun h n hn =>
      h n (mem_append.mpr (.inl hn))
    have hset2 : Settled R2 sc1 := by
      rcases hset with hp | hset
      · exact .inl (by rw [h1.same.pull]; exact hp)
      · refine .inr fun n hn hv => ?_
        rw [h1.same.visible] at hv
        rw [h1.has]
        by_cases hb : n ∈ B1
        · exact .inr (.inl hb)
        · exact .inl (hset n (by simp [hn, hb]) hv)
    obtain ⟨F, hF⟩ := h1.tidy ht hset1
    obtain ⟨G, hG⟩ := h2.tidy (by rw [h1.same.trial]; exact ht) hset2
    exact ⟨F ++ G, hF.append hG h1.same hr.generator.1 h1.registers.grows.further
      h2.registers.grows.further⟩

/-- A step described by other lists of the same names. Names that are not found anywhere may be
left out. -/
theorem Read.congr (h : Read R1 B1 D1 fs ds sc s sc' s') (hsub : R1 ⊆ R2)
    (hR : ∀ n ∈ R2, Visible sc n → n ∈ R1) (hB : ∀ n, n ∈ B1 ↔ n ∈ B2)
    (hD : ∀ n, n ∈ D1 ↔ n ∈ D2) : Read R2 B2 D2 fs ds sc s sc' s' := by
  refine ⟨h.same, fun n => ?_, fun n => ?_, fun n => ?_, ?_, h.registers, h.ready, h.entered,
    fun ht hset => ?_⟩
  · rw [h.has, hB]
    have := hR n
    grind
  · rw [h.free]
    have := hR n
    grind
  · rw [h.assigned, hD]
  · rw [h.returns, hD]
  · obtain ⟨F, hF⟩ := h.tidy ht (hset.imp_right fun hs n hn hv => hs n (hsub hn) hv)
    refine ⟨F, hF.free, hF.unpulled, hF.fresh,
      fun K hK => hF.covered K fun n hn => hK n (hsub hn), fun n x hx => ?_⟩
    rw [← hB]
    exact hF.bindings n x hx

theorem Read.rename (h : Read R1 B1 D1 fs ds sc s sc' s') (hR : ∀ n, n ∈ R1 ↔ n ∈ R2)
    (hB : ∀ n, n ∈ B1 ↔ n ∈ B2) (hD : ∀ n, n ∈ D1 ↔ n ∈ D2) : Read R2 B2 D2 fs ds sc s sc' s' :=
  h.congr (fun n => (hR n).mp) (fun n hn _ => (hR n).mpr hn) hB hD

theorem Read.reading (h : Read R B D fs ds sc s sc' s') (hf : fs = gs) : Read R B D gs ds sc s sc' s' :=
  hf ▸ h

theorem Read.reshape (h : Read R B D fs ds1 sc s sc' s') (hsets : (sets ds1).Perm (sets ds2))
    (hcov : sc.trial = false → ∀ K, Covered K ds1 → Covered K ds2) :
    Read R B D fs ds2 sc s sc' s' := by
  refine { h with tidy := fun ht hset => ?_ }
  obtain ⟨F, hF⟩ := h.tidy ht hset
  refine ⟨F, hF.free, hF.unpulled, hF.fresh.perm (hsets.append_left _),
    fun K hK hsub => hcov ht K (hF.covered K hK hsub), fun n x hx => ?_⟩
  refine (hF.bindings n x hx).imp_right fun hmem => ?_
  exact (hsets.append_left _).subset hmem

theorem tidy_still (h : sc'.bindings = sc.bindings) (hfree : sc'.free = sc.free) :
    Tidy R [] [] [] sc s sc' s' := by
  refine ⟨by rw [hfree, append_nil], fun _ => rfl, Fresh.nil, fun K _ _ => trivial,
    fun n x hx => ?_⟩
  rw [h] at hx
  exact .inl ⟨by simp, hx⟩

theorem Read.still (h : Registers s s') (hr : Ready sc s) : Read [] [] [] [] [] sc s sc s' := by
  refine ⟨Same.refl sc, fun n => ?_, fun n => ?_, fun n => ?_, ?_, h, hr.grows h.grows,
    fun _ => Entered.nil, fun _ _ => ⟨[], tidy_still rfl rfl⟩⟩ <;> simp

/-- A step before which something was done that leaves the scope as it is. -/
theorem Read.entering (hr : Ready sc s) (h : Registers s s1) (he : sc.trial = false → Entered fs s s1)
    (h' : Read R B D gs ds sc s1 sc' s') : Read R B D (fs ++ gs) ds sc s sc' s' := by
  have := Read.append { Read.still h hr with entered := he } h' hr
  simpa [without_nil] using this

theorem Read.after (hr : Ready sc s) (h : Registers s s1) (h' : Read R B D fs ds sc s1 sc' s') :
    Read R B D fs ds sc s sc' s' :=
  h'.entering hr h fun _ => .nil

theorem Read.before (hr : Ready sc s) (h : Read R B D fs ds sc s sc' s1) (h' : Registers s1 s') :
    Read R B D fs ds sc s sc' s' := by
  have := h.append (Read.still h' h.ready) hr
  simpa [without] using this

/-- A step that computes something built from nothing but global names. -/
theorem Read.compute (h : Registers s s') (hr : Ready sc s)
    (ht : ∀ K, Bound K t ∧ straight t = true) : Read [] [] [] [] [.compute t] sc s sc s' := by
  refine { Read.still h hr with tidy := fun _ _ => ⟨[], ?_⟩ }
  exact ⟨(append_nil _).symm, fun _ => rfl, Fresh.nil, fun K _ _ => ⟨ht K, trivial⟩,
    fun n x hx => .inl ⟨by simp, hx⟩⟩

end DiffLang.Reading
