import DiffLang.Proofs.Graph.Making
import DiffLang.Proofs.Term.Shape

/-!
# The graph that is built
-/

namespace DiffLang.Graph

open Freshness Meaning Normal Run Scoping Session List Store Graph.Source

def Source.value? : Source → Option Value
  | .symbol x => if x.isGlobal then some (.symbol x) else none
  | .literal _ v => some v
  | .position i => some (.nat i)

def Found (T : List (Source × NodeId)) (source : Source) (n : NodeId) : Prop :=
  ∃ k, (k, n) ∈ T ∧ k.same source = .ok true

variable {T : List (Source × NodeId)} {n : NodeId} {o : Option Origin} {b b' : Building}
  {s s' : Session}

variable {x : Symbol}

@[simp] theorem found_symbol : Found T (.symbol x) n ↔ (.symbol x, n) ∈ T := by
  refine ⟨fun ⟨k, hk, hsame⟩ => ?_, fun h => ⟨_, h, by simp [same]⟩⟩
  cases k <;> simp_all [same]

@[simp] theorem found_position {i : Nat} : Found T (.position i) n ↔ (.position i, n) ∈ T := by
  refine ⟨fun ⟨k, hk, hsame⟩ => ?_, fun h => ⟨_, h, by simp [same]⟩⟩
  cases k <;> simp_all [same]

variable {source : Source}

theorem Found.mono {T' : List (Source × NodeId)} (h : Found T source n)
    (hT : ∀ e ∈ T, e ∈ T') : Found T' source n := by
  obtain ⟨k, hk, hsame⟩ := h
  exact ⟨k, hT _ hk, hsame⟩

theorem known_cases {r : Option NodeId} (h : known source T = .ok r) :
    (∃ n, r = some n ∧ Found T source n) ∨ (r = none ∧ ∀ n, ¬ Found T source n) := by
  induction T with
  | nil =>
    cases h
    exact .inr ⟨rfl, fun n ⟨_, hk, _⟩ => absurd hk not_mem_nil⟩
  | cons e rest ih =>
    obtain ⟨k, m⟩ := e
    rw [known] at h
    cases hsame : same k source with
    | error f =>
      rw [hsame] at h
      cases h
    | ok same =>
      rw [hsame] at h
      cases same with
      | true =>
        cases h
        exact .inl ⟨m, rfl, k, mem_cons_self, hsame⟩
      | false =>
        rcases ih h with ⟨n, hr, hn⟩ | ⟨hr, hnone⟩
        · exact .inl ⟨n, hr, hn.mono fun _ => mem_cons_of_mem _⟩
        · refine .inr ⟨hr, fun n hn => ?_⟩
          obtain ⟨k', hk', hs⟩ := hn
          rcases mem_cons.mp hk' with heq | hk'
          · cases heq
            rw [hsame] at hs
            cases hs
          · exact hnone n ⟨k', hk', hs⟩

structure NewNode (source : Source) (b : Building) (s : Session) (n : NodeId) (b' : Building)
    (s' : Session) (x : Node) : Prop where
  table : b' = { b with nodes := b.nodes ++ [(source, n)] }
  number : n = s.store.nodes.size
  later : Later s s'
  store : s'.store = (s.store.addNode x).2
  value : x.value = source.value?
  fn : x.fn = none
  inputs : x.inputs = []

/-- A computation makes a node that is not computed, and has this value if it is known at once. -/
def MakesNode (make : Run NodeId) (v : Option Value) : Prop :=
  ∀ o s n s', Returns make o s n s' → n = s.store.nodes.size ∧ Later s s' ∧
    ∃ x : Node, s'.store = (s.store.addNode x).2 ∧ x.value = v ∧ x.fn = none ∧ x.inputs = []

theorem makesNode_newNode (home : Option GraphId) (tag : Symbol) (value : Option Value) :
    MakesNode (newNode { home, tag, value }) value := by
  intro o s n s' h
  obtain ⟨rfl, rfl⟩ := returns_newNode.mp h
  exact ⟨rfl, Later.of_generators rfl, _, rfl, rfl, rfl, rfl⟩

theorem makesNode_newConstant (v : Value) : MakesNode (newConstant v) (some v) := by
  intro o s n s' h
  unfold newConstant at h
  simp only [returns_bind, returns_freshPlain, returns_newNode] at h
  obtain ⟨tag, _, ⟨rfl, rfl⟩, rfl, rfl⟩ := h
  exact ⟨rfl, later_afterPlain.trans (Later.of_generators rfl), _, rfl, rfl, rfl, rfl⟩

theorem MakesNode.steps {make : Run NodeId} (hmake : MakesNode make source.value?)
    (h : Steps (do
      let n ← liftM make
      modify fun (b : Building) => { b with nodes := b.nodes ++ [(source, n)] }
      pure n) o b s n b' s') : ∃ x, NewNode source b s n b' s' x := by
  simp only [steps_bind, steps_lift, steps_modify, steps_pure] at h
  obtain ⟨m, _, s1, ⟨hm, rfl⟩, _, _, _, ⟨rfl, rfl⟩, rfl, rfl, rfl⟩ := h
  obtain ⟨hn, hlater, x, hstore, hvalue, hfn, hin⟩ := hmake _ _ _ _ hm
  exact ⟨x, rfl, hn, hlater, hstore, hvalue, hfn, hin⟩

theorem lookup_cases {make : Build NodeId}
    (hmake : Steps make o b s n b' s' → ∃ x, NewNode source b s n b' s' x)
    (h : Steps (do
      match ← Run.lift (known source (← get).nodes) with
      | some n => pure n
      | none => make) o b s n b' s') :
    (Found b.nodes source n ∧ b' = b ∧ s' = s) ∨
      ((∀ m, ¬ Found b.nodes source m) ∧ ∃ x, NewNode source b s n b' s' x) := by
  rw [steps_get_bind] at h
  simp only [steps_bind, steps_lift, returns_lift] at h
  obtain ⟨r, _, _, ⟨⟨hknown, rfl⟩, rfl⟩, h⟩ := h
  rcases known_cases hknown with ⟨m, rfl, hfound⟩ | ⟨rfl, hnone⟩
  · obtain ⟨rfl, rfl, rfl⟩ := steps_pure.mp h
    exact .inl ⟨hfound, rfl, rfl⟩
  · exact .inr ⟨hnone, hmake h⟩

theorem fetch_cases (h : Steps (fetch source) o b s n b' s') :
    (Found b.nodes source n ∧ b' = b ∧ s' = s) ∨
      ((∀ m, ¬ Found b.nodes source m) ∧ ∃ x, NewNode source b s n b' s' x) := by
  unfold fetch at h
  cases source with
  | symbol x =>
    refine lookup_cases (fun h => ?_) h
    dsimp only at h
    split at h
    next hx =>
      have hvalue : (symbol x).value? = some (.symbol x) := if_pos hx
      exact MakesNode.steps (hvalue ▸ makesNode_newNode _ _ _) h
    next hx =>
      have hvalue : (symbol x).value? = none := if_neg hx
      rw [steps_get_bind] at h
      exact MakesNode.steps (hvalue ▸ makesNode_newNode _ _ _) h
  | literal i v =>
    dsimp only at h
    split at h
    · simp [steps_bind] at h
    · exact lookup_cases (makesNode_newConstant v).steps h
  | position i => exact lookup_cases (makesNode_newConstant (.nat i)).steps h

/-! ## What holds all the time -/

section Invariant

variable (G : GeneratorId → Prop) (L : List (TermId × Value))

/-- A source that may be met: a literal of a list, or a symbol that the generators `G` do not make any
more. -/
def Admitted (s : Session) : Source → Prop
  | .symbol x => Old G s x
  | .literal i v => (i, v) ∈ L
  | .position _ => True

/-- Every source that was met has one node, and no two symbols share one. What is known at once is not
computed, and what is not computed has no inputs. -/
structure Consistent (b : Building) (s : Session) : Prop where
  there : ∀ e ∈ b.nodes, e.2 < s.store.nodes.size
  value : ∀ e ∈ b.nodes, (s.store.node e.2).value = e.1.value?
  bare : ∀ e ∈ b.nodes, (s.store.node e.2).fn = none → (s.store.node e.2).inputs = []
  constant : ∀ e ∈ b.nodes, e.1.value?.isSome = true → (s.store.node e.2).fn = none
  nodup : (b.nodes.map Prod.snd).Nodup
  unique : ∀ {x m n}, (.symbol x, m) ∈ b.nodes → (.symbol x, n) ∈ b.nodes → m = n
  admitted : ∀ e ∈ b.nodes, Admitted G L s e.1
  asked : ∀ i, b.generator = some i → G i
  distinct : Distinct G s
  own : ∀ i, G i → (generator s i).space.isGlobal = false

/-- The node of a variable, if it has one, is not computed yet. -/
def Unassigned (b : Building) (s : Session) (x : Symbol) : Prop :=
  ∀ n, (.symbol x, n) ∈ b.nodes → (s.store.node n).fn = none

/-- One state comes after another, and of the variables that were there only those of a list may have
been assigned. -/
structure Extends (xs : List Symbol) (b : Building) (s : Session) (b' : Building) (s' : Session) :
    Prop where
  later : Later s s'
  graph : b'.graph = b.graph
  nodes : ∀ e ∈ b.nodes, e ∈ b'.nodes
  graphs : s'.store.graphs = s.store.graphs
  computed : ∀ n f, (s.store.node n).fn = some f →
    (s'.store.node n).fn = some f ∧ (s'.store.node n).inputs = (s.store.node n).inputs
  others : ∀ y, y ∉ xs → Old G s y → Unassigned b s y → Unassigned b' s' y

variable {G L}

theorem Admitted.later (h : Admitted G L s source) (hl : Later s s') :
    Admitted G L s' source := by
  cases source with
  | symbol x => exact hl.old h
  | literal | position => exact h

theorem Extends.refl (b : Building) (s : Session) : Extends G [] b s b s :=
  ⟨Later.refl s, rfl, fun _ h => h, rfl, fun _ _ h => ⟨h, rfl⟩, fun _ _ _ h => h⟩

variable {xs : List Symbol} {b1 : Building} {s1 : Session} {u : Unit} {A : Symbol → Prop}

theorem Extends.trans {ys : List Symbol}
    (h : Extends G xs b s b1 s1) (h' : Extends G ys b1 s1 b' s') : Extends G (xs ++ ys) b s b' s' where
  later := h.later.trans h'.later
  graph := h'.graph.trans h.graph
  nodes e he := h'.nodes e (h.nodes e he)
  graphs := h'.graphs.trans h.graphs
  computed n f hf := by
    obtain ⟨hf1, hin1⟩ := h.computed n f hf
    obtain ⟨hf', hin'⟩ := h'.computed n f hf1
    exact ⟨hf', hin'.trans hin1⟩
  others y hy hold hun := by
    rw [mem_append, not_or] at hy
    exact h'.others y hy.2 (h.later.old hold) (h.others y hy.1 hold hun)

theorem Extends.graph_eq (h : Extends G xs b s b' s') (g : GraphId) :
    s'.store.graph g = s.store.graph g := by
  unfold Store.graph
  rw [h.graphs]

theorem Extends.without (hx : ¬ Old G s x)
    (h : Extends G (x :: xs) b s b' s') : Extends G xs b s b' s' :=
  { h with
    others := fun y hy hold hun => h.others y
      (fun hmem => (mem_cons.mp hmem).elim (fun hyx => hx (hyx ▸ hold)) hy) hold hun }

theorem Consistent.eq_of_mem (h : Consistent G L b s) {k k' : Source} (hk : (k, n) ∈ b.nodes)
    (hk' : (k', n) ∈ b.nodes) : k = k' :=
  congrArg Prod.fst (inj_on_of_nodup_map h.nodup hk hk' rfl)

theorem Source.same_self (source : Source) : source.same source = .ok true := by
  cases source <;> simp [same]

theorem NewNode.consistent {x : Node} (hc : Consistent G L b s)
    (ha : Admitted G L s source) (hnone : ∀ m, ¬ Found b.nodes source m)
    (h : NewNode source b s n b' s' x) : Consistent G L b' s' := by
  have hmem : ∀ e, e ∈ b'.nodes ↔ e ∈ b.nodes ∨ e = (source, n) := by
    intro e
    rw [h.table, mem_append, mem_singleton]
  have hnode : ∀ P : Source → Node → Prop, (∀ e ∈ b.nodes, P e.1 (s.store.node e.2)) → P source x →
      ∀ e ∈ b'.nodes, P e.1 (s'.store.node e.2) := by
    intro P hP hx e he
    rcases (hmem e).mp he with he | rfl
    · rw [h.store, node_addNode, if_neg (Nat.ne_of_lt (hc.there e he))]
      exact hP e he
    · rw [h.store, node_addNode, if_pos h.number]
      exact hx
  refine
    { there := fun e he => ?_
      value := hnode (fun k y => y.value = k.value?) hc.value h.value
      bare := hnode (fun _ y => y.fn = none → y.inputs = []) hc.bare fun _ => h.inputs
      constant := hnode (fun k y => k.value?.isSome = true → y.fn = none) hc.constant fun _ => h.fn
      nodup := ?_
      unique := fun {y m m'} hm hm' => ?_
      admitted := fun e he => ?_
      asked := fun i hi => hc.asked i (by rw [h.table] at hi; exact hi)
      distinct := h.later.distinct hc.distinct
      own := fun i hi => (congrArg Namespace.isGlobal (h.later.space i)).trans (hc.own i hi) }
  · rw [h.store, size_addNode]
    rcases (hmem e).mp he with he | rfl
    · exact Nat.lt_succ_of_lt (hc.there e he)
    · rw [h.number]
      exact Nat.lt_succ_self _
  · rw [h.table, map_append, map_singleton, nodup_append]
    refine ⟨hc.nodup, nodup_singleton _, fun m hm m' hm' => ?_⟩
    obtain ⟨e, he, rfl⟩ := mem_map.mp hm
    rw [mem_singleton.mp hm', h.number]
    exact Nat.ne_of_lt (hc.there e he)
  · rcases (hmem _).mp hm with hm | hm <;> rcases (hmem _).mp hm' with hm' | hm'
    · exact hc.unique hm hm'
    · cases hm'
      exact (hnone m (found_symbol.mpr hm)).elim
    · cases hm
      exact (hnone m' (found_symbol.mpr hm')).elim
    · cases hm
      cases hm'
      rfl
  · rcases (hmem e).mp he with he | rfl
    · exact (hc.admitted e he).later h.later
    · exact ha.later h.later

theorem NewNode.extends {x : Node} (hc : Consistent G L b s)
    (h : NewNode source b s n b' s' x) : Extends G [] b s b' s' := by
  have hnode : ∀ m, m ≠ n → s'.store.node m = s.store.node m := by
    intro m hm
    rw [h.store, node_addNode, if_neg (h.number ▸ hm)]
  refine
    { later := h.later
      graph := by rw [h.table]
      nodes := fun e he => by rw [h.table]; exact mem_append_left _ he
      graphs := by rw [h.store]; rfl
      computed := fun m f hf => ?_
      others := fun y _ _ hun m hm => ?_ }
  · have hm : m ≠ n := by
      rintro rfl
      rw [node_of_size_le h.number.symm.le] at hf
      cases hf
    rw [hnode m hm]
    exact ⟨hf, rfl⟩
  · rw [h.table, mem_append, mem_singleton] at hm
    rcases hm with hm | hm
    · rw [hnode m (h.number ▸ Nat.ne_of_lt (hc.there _ hm))]
      exact hun m hm
    · cases hm
      rw [h.store, node_addNode, if_pos h.number]
      exact h.fn

/-- Of the nodes that were there, at most the users have changed. -/
structure Undisturbed (s s' : Session) : Prop where
  later : Later s s'
  size : s.store.nodes.size ≤ s'.store.nodes.size
  value : ∀ n < s.store.nodes.size, (s'.store.node n).value = (s.store.node n).value
  fn : ∀ n < s.store.nodes.size, (s'.store.node n).fn = (s.store.node n).fn
  inputs : ∀ n < s.store.nodes.size, (s'.store.node n).inputs = (s.store.node n).inputs

theorem Undisturbed.of_nodes (hl : Later s s') (h : s'.store.nodes = s.store.nodes) :
    Undisturbed s s' := by
  have hnode : ∀ n, s'.store.node n = s.store.node n := by
    intro n
    unfold Store.node
    rw [h]
  exact ⟨hl, by rw [h], fun n _ => by rw [hnode n], fun n _ => by rw [hnode n],
    fun n _ => by rw [hnode n]⟩

theorem Undisturbed.unassigned (h : Undisturbed s s') (hc : Consistent G L b s)
    (hx : Unassigned b s x) : Unassigned b s' x := fun n hn =>
  (h.fn n (hc.there _ hn)).trans (hx n hn)

theorem Undisturbed.consistent (h : Undisturbed s s') (hc : Consistent G L b s) :
    Consistent G L b s' :=
  { hc with
    there := fun e he => Nat.lt_of_lt_of_le (hc.there e he) h.size
    value := fun e he => (h.value e.2 (hc.there e he)).trans (hc.value e he)
    bare := fun e he hfn => (h.inputs e.2 (hc.there e he)).trans
      (hc.bare e he ((h.fn e.2 (hc.there e he)).symm.trans hfn))
    constant := fun e he hv => (h.fn e.2 (hc.there e he)).trans (hc.constant e he hv)
    admitted := fun e he => (hc.admitted e he).later h.later
    distinct := h.later.distinct hc.distinct
    own := fun i hi => (congrArg Namespace.isGlobal (h.later.space i)).trans (hc.own i hi) }

theorem fetch_spec (hc : Consistent G L b s) (ha : Admitted G L s source)
    (h : Steps (fetch source) o b s n b' s') :
    Consistent G L b' s' ∧ Extends G [] b s b' s' ∧ Found b'.nodes source n := by
  rcases fetch_cases h with ⟨hfound, rfl, rfl⟩ | ⟨hnone, x, hnew⟩
  · exact ⟨hc, Extends.refl b' s', hfound⟩
  · refine ⟨hnew.consistent hc ha hnone, hnew.extends hc, source, ?_, source.same_self⟩
    rw [hnew.table]
    exact mem_append_right _ (mem_singleton.mpr rfl)

/-! ## Assigning variables -/

def Source.ofTerm : Term → Source
  | .ident x => .symbol x.sym
  | .literal id v => .literal id v
  | .lambda id _ _ => .literal id (.lambda id)
  | .apply id fn args => .literal id (.term "ApplyNode" (Term.apply id fn args).text)
  | t => .literal t.id (.term t.sortName t.text)

theorem fetchTerm_eq (t : Term) : fetchTerm t = fetch (.ofTerm t) := by
  cases t <;> rfl

def Source.operation (name : String) : Source := .symbol (.builtin name)

def operands : Term → Option (List Source)
  | .apply _ fn args => some (.ofTerm fn :: args.map .ofTerm)
  | .ident x => some [.operation "identity", .ofTerm (.ident x)]
  | .literal id v => some [.operation "identity", .ofTerm (.literal id v)]
  | .closure _ fn args => some (.operation "partial" :: (fn :: args).map .ofTerm)
  | .tuple _ items => some (.operation "mktuple" :: items.map .ofTerm)
  | _ => none

/-- The node of a variable applies the node of the first of some sources to those of the others. -/
def Assigned (T : List (Source × NodeId)) (S : Store) (x : Symbol) (sources : List Source) : Prop :=
  ∃ n ns, (.symbol x, n) ∈ T ∧ List.Forall₂ (Found T) sources ns ∧
    (S.node n).application? = some (ns.map some)

/-- A variable is computed as a term says. -/
def AssignedTerm (T : List (Source × NodeId)) (S : Store) (x : Symbol) (v : Term) : Prop :=
  ∃ sources ∈ operands v, Assigned T S x sources

variable (G L) in
/-- What a term is computed from may be met. -/
def Operable (s : Session) (v : Term) : Prop :=
  ∀ sources ∈ operands v, ∀ source ∈ sources, Admitted G L s source

theorem Operable.later {v : Term} (h : Operable G L s v) (hl : Later s s') : Operable G L s' v :=
  fun sources hs source hsource => (h sources hs source hsource).later hl

theorem Extends.application (h : Extends G xs b s b' s')
    {parts : List (Option NodeId)} (hn : (s.store.node n).application? = some parts) :
    (s'.store.node n).application? = some parts := by
  unfold Node.application? at hn ⊢
  rw [Option.map_eq_some_iff] at hn ⊢
  obtain ⟨f, hf, rfl⟩ := hn
  obtain ⟨hf', hin⟩ := h.computed n f hf
  exact ⟨f, hf', by rw [hin]⟩

theorem Assigned.extends {sources : List Source}
    (h : Assigned b.nodes s.store x sources) (he : Extends G xs b s b' s') :
    Assigned b'.nodes s'.store x sources := by
  obtain ⟨n, ns, hn, hns, happ⟩ := h
  exact ⟨n, ns, he.nodes _ hn, hns.imp fun _ _ hf => hf.mono he.nodes, he.application happ⟩

theorem AssignedTerm.extends {v : Term} (h : AssignedTerm b.nodes s.store x v)
    (he : Extends G xs b s b' s') : AssignedTerm b'.nodes s'.store x v := by
  obtain ⟨sources, hs, hassigned⟩ := h
  exact ⟨sources, hs, hassigned.extends he⟩

/-- A variable that is to be assigned. -/
structure Assignable (G : GeneratorId → Prop) (b : Building) (s : Session) (x : Symbol) : Prop where
  old : Old G s x
  proper : x.isGlobal = false
  unassigned : Unassigned b s x

theorem Assignable.extends (h : Assignable G b s x)
    (he : Extends G xs b s b' s') (hx : x ∉ xs) : Assignable G b' s' x :=
  ⟨he.later.old h.old, h.proper, he.others x hx h.old h.unassigned⟩

theorem Assignable.beside {y : Symbol} (h : Assignable G b s y) (hx : ¬ Old G s x)
    (he : Extends G [x] b s b' s') : Assignable G b' s' y :=
  h.extends he fun hmem => hx (mem_singleton.mp hmem ▸ h.old)

/-- A variable becomes the application of nodes that have been looked for after its own. -/
theorem become_spec {sources : List Source} {f : NodeId} {ps : List NodeId}
    (he : Extends G [] b1 s1 b s) (hc : Consistent G L b s) (hassign : Assignable G b1 s1 x)
    (hx : (.symbol x, n) ∈ b1.nodes)
    (hfound : List.Forall₂ (Found b.nodes) (source :: sources) (f :: ps))
    (h : Steps (become n f ps) o b s u b' s') :
    Consistent G L b' s' ∧ Extends G [x] b1 s1 b' s' ∧
      Assigned b'.nodes s'.store x (source :: sources) := by
  replace hassign := hassign.extends he not_mem_nil
  replace hx := he.nodes _ hx
  obtain ⟨hret, rfl⟩ := steps_lift.mp h
  obtain ⟨store, hstore, rfl⟩ := returns_update.mp hret
  have hfn := hassign.unassigned n hx
  obtain ⟨store', hok, hw⟩ :=
    setApplication_of_free (hc.there _ hx) hfn (hc.bare _ hx hfn) f ps
  rw [hok, Except.ok.injEq] at hstore
  subst hstore
  have hself : (store'.node n).fn = some f ∧ (store'.node n).inputs = ps.map some := by
    rw [hw.self]
    exact ⟨rfl, rfl⟩
  have hother : ∀ m, m ≠ n → (store'.node m).fn = (s.store.node m).fn ∧
      (store'.node m).inputs = (s.store.node m).inputs := by
    intro m hm
    rw [hw.other m hm]
    exact ⟨rfl, rfl⟩
  have hlater : Later s { s with store := store' } := Later.of_generators rfl
  refine ⟨{ nodup := hc.nodup
            unique := hc.unique
            asked := hc.asked
            own := hc.own
            distinct := hlater.distinct hc.distinct
            admitted := fun e he => (hc.admitted e he).later hlater
            there := fun e he => hw.nodes.symm ▸ hc.there e he
            value := fun e he => (hw.value e.2).trans (hc.value e he)
            bare := fun e he hnone => ?_
            constant := fun e he hvalue => ?_ }, he.trans ?_, n, f :: ps, hx, hfound, ?_⟩
  · have hne : e.2 ≠ n := by
      rintro heq
      rw [heq, hself.1] at hnone
      cases hnone
    rw [(hother _ hne).1] at hnone
    rw [(hother _ hne).2]
    exact hc.bare e he hnone
  · have hne : e.2 ≠ n := by
      rintro rfl
      rw [hc.eq_of_mem he hx, value?, hassign.proper] at hvalue
      cases hvalue
    rw [(hother _ hne).1]
    exact hc.constant e he hvalue
  · refine ⟨hlater, rfl, fun _ he => he, hw.graphs, fun m g hm => ?_,
      fun y hy _ huny m hm => ?_⟩
    · have hne : m ≠ n := by
        rintro rfl
        rw [hfn] at hm
        cases hm
      rw [(hother m hne).1, (hother m hne).2]
      exact ⟨hm, rfl⟩
    · have hne : m ≠ n := by
        rintro rfl
        cases hc.eq_of_mem hm hx
        exact hy mem_cons_self
      rw [(hother m hne).1]
      exact huny m hm
  · unfold Node.application?
    rw [hself.1, hself.2]
    rfl

theorem fetchAll_spec {α : Type} {f : α → Build NodeId} (source : α → Source)
    (hf : ∀ x, f x = fetch (source x)) (xs : List α) {ns : List NodeId} (hc : Consistent G L b s)
    (ha : ∀ x ∈ xs, Admitted G L s (source x)) (h : Steps (xs.mapM f) o b s ns b' s') :
    Consistent G L b' s' ∧ Extends G [] b s b' s' ∧
      List.Forall₂ (Found b'.nodes) (xs.map source) ns := by
  induction xs generalizing b s ns with
  | nil =>
    obtain ⟨rfl, rfl, rfl⟩ := steps_mapM_nil.mp h
    exact ⟨hc, Extends.refl b s, .nil⟩
  | cons x xs ih =>
    rw [forall_mem_cons] at ha
    obtain ⟨n, b1, s1, hn, ns', hns, rfl⟩ := steps_mapM_cons.mp h
    rw [hf] at hn
    obtain ⟨hc1, he1, hfound⟩ := fetch_spec hc ha.1 hn
    obtain ⟨hc2, he2, hall⟩ := ih hc1 (fun x hx => (ha.2 x hx).later he1.later) hns
    exact ⟨hc2, he1.trans he2, .cons (hfound.mono he2.nodes) hall⟩

theorem Consistent.admitted_operation (hc : Consistent G L b s) (op : String) :
    Admitted G L s (.operation op) := by
  intro i hi hspace
  have hown := hc.own i hi
  rw [hspace] at hown
  cases hown.symm.trans (isGlobal_builtin op)

theorem become_operation {op : String} {ts : List Term}
    (hc : Consistent G L b s) (hassign : Assignable G b s x) (hx : (.symbol x, n) ∈ b.nodes)
    (ha : ∀ t ∈ ts, Admitted G L s (.ofTerm t))
    (h : Steps (do
      let ns ← ts.mapM fetchTerm
      become n (← fetchOperation op) ns) o b s u b' s') :
    Consistent G L b' s' ∧ Extends G [x] b s b' s' ∧
      Assigned b'.nodes s'.store x (.operation op :: ts.map .ofTerm) := by
  simp only [steps_bind] at h
  obtain ⟨ns, b1, s1, hns, f, b2, s2, hf, h⟩ := h
  obtain ⟨hc1, he1, hall⟩ := fetchAll_spec ofTerm fetchTerm_eq ts hc ha hns
  obtain ⟨hc2, he2, hfn⟩ := fetch_spec hc1 (hc1.admitted_operation op) hf
  exact become_spec (he1.trans he2) hc2 hassign hx
    (.cons hfn (hall.imp fun _ _ h => h.mono he2.nodes)) h

theorem assignVariable_spec {v : Term} (hc : Consistent G L b s) (hx : Assignable G b s x)
    (hv : Operable G L s v) (h : Steps (assignVariable x v) o b s u b' s') :
    Consistent G L b' s' ∧ Extends G [x] b s b' s' ∧ AssignedTerm b'.nodes s'.store x v := by
  unfold assignVariable at h
  rw [steps_bind] at h
  obtain ⟨n, b1, s1, hn, h⟩ := h
  obtain ⟨hc1, he1, hfound⟩ := fetch_spec hc (show Admitted G L s (.symbol x) from hx.old) hn
  rw [found_symbol] at hfound
  have hx1 := hx.extends he1 not_mem_nil
  -- the parts are looked for after the variable
  have hv1 := hv.later he1.later
  suffices hrest : Consistent G L b' s' ∧ Extends G [x] b1 s1 b' s' ∧
      AssignedTerm b'.nodes s'.store x v from
    ⟨hrest.1, he1.trans hrest.2.1, hrest.2.2⟩
  have hleaf : ∀ {t : Term}, operands t = some [.operation "identity", .ofTerm t] →
      (∀ source ∈ [.operation "identity", .ofTerm t], Admitted G L s1 source) →
      Steps (do
        let f ← fetchOperation "identity"
        become n f [← fetchTerm t]) o b1 s1 u b' s' →
      Consistent G L b' s' ∧ Extends G [x] b1 s1 b' s' ∧ AssignedTerm b'.nodes s'.store x t := by
    intro t ht ha h
    simp only [steps_bind] at h
    obtain ⟨f, b2, s2, hf, p, b3, s3, hp, h⟩ := h
    obtain ⟨hc2, he2, hfn⟩ := fetch_spec hc1 (hc1.admitted_operation _) hf
    rw [fetchTerm_eq] at hp
    obtain ⟨hc3, he3, hpart⟩ := fetch_spec hc2 ((ha _ (by simp)).later he2.later) hp
    obtain ⟨hc', he', hassigned⟩ := become_spec (he2.trans he3) hc3 hx1 hfound
      (.cons (hfn.mono he3.nodes) (.cons hpart .nil)) h
    exact ⟨hc', he', _, ht, hassigned⟩
  cases v with
  | apply id fn args =>
    have ha := hv1 _ rfl
    rw [forall_mem_cons, forall_mem_map] at ha
    simp only [steps_bind] at h
    obtain ⟨ns, b2, s2, hns, f, b3, s3, hf, h⟩ := h
    obtain ⟨hc2, he2, hall⟩ := fetchAll_spec ofTerm fetchTerm_eq args hc1 ha.2 hns
    rw [fetchTerm_eq] at hf
    obtain ⟨hc3, he3, hfn⟩ := fetch_spec hc2 (ha.1.later he2.later) hf
    obtain ⟨hc', he', hassigned⟩ := become_spec (he2.trans he3) hc3 hx1 hfound
      (.cons hfn (hall.imp fun _ _ h => h.mono he3.nodes)) h
    exact ⟨hc', he', _, rfl, hassigned⟩
  | ident | literal => exact hleaf rfl (hv1 _ rfl) h
  | closure | tuple =>
    have ha := hv1 _ rfl
    rw [forall_mem_cons, forall_mem_map] at ha
    obtain ⟨hc', he', hassigned⟩ := become_operation hc1 hx1 hfound ha.2 h
    exact ⟨hc', he', _, rfl, hassigned⟩
  | _ => exact (steps_throw.mp h).elim

/-! ## Taking patterns apart -/

def partOf (whole : Symbol) (i : Nat) : List Source :=
  [.operation "index", .symbol whole, .position i]

theorem assignPart_spec {whole : Symbol} {i : Nat} (hc : Consistent G L b s)
    (hx : Assignable G b s x) (hwhole : Old G s whole)
    (h : Steps (assignPart x whole i) o b s u b' s') :
    Consistent G L b' s' ∧ Extends G [x] b s b' s' ∧
      Assigned b'.nodes s'.store x (partOf whole i) := by
  unfold assignPart at h
  simp only [steps_bind] at h
  obtain ⟨n, b1, s1, hn, f, b2, s2, hf, w, b3, s3, hw, p, b4, s4, hp, h⟩ := h
  obtain ⟨hc1, he1, hfound⟩ := fetch_spec hc (show Admitted G L s (.symbol x) from hx.old) hn
  obtain ⟨hc2, he2, hfn⟩ := fetch_spec hc1 (hc1.admitted_operation _) hf
  have hold : Admitted G L s2 (.symbol whole) := (he1.trans he2).later.old hwhole
  obtain ⟨hc3, he3, hwn⟩ := fetch_spec hc2 hold hw
  obtain ⟨hc4, he4, hpn⟩ := fetch_spec hc3 (show Admitted G L s3 (.position i) from trivial) hp
  have he24 := he3.trans he4
  obtain ⟨hc', he', hassigned⟩ := become_spec (he2.trans he24) hc4 (hx.extends he1 not_mem_nil)
    (found_symbol.mp hfound)
    (.cons (hfn.mono he24.nodes) (.cons (hwn.mono he4.nodes) (.cons hpn .nil))) h
  exact ⟨hc', he1.trans he', hassigned⟩

theorem temporary_spec (hc : Consistent G L b s) (h : Steps temporary o b s x b' s') :
    Consistent G L b' s' ∧ Extends G [] b s b' s' ∧ ¬ Old G s x ∧ Assignable G b' s' x := by
  unfold temporary at h
  rw [steps_get_bind] at h
  cases hg : b.generator with
  | none =>
    rw [hg] at h
    exact (steps_throw.mp h).elim
  | some g =>
    rw [hg] at h
    obtain ⟨hret, rfl⟩ := steps_lift.mp h
    obtain ⟨rfl, rfl⟩ := returns_freshPlain.mp hret
    have hG := hc.asked g hg
    have hmade : Made G s (afterPlain s g Relation.temporary none) _ := made_afterPlain hG hc.distinct
    have hsame : Undisturbed s (afterPlain s g Relation.temporary none) :=
      .of_nodes later_afterPlain rfl
    exact ⟨hsame.consistent hc,
      ⟨hsame.later, rfl, fun _ he => he, rfl, fun n f hf => ⟨hf, rfl⟩, fun y _ _ hun => hun⟩,
      hmade.1, hmade.2, hc.own g hG, fun n hn => (hmade.1 (hc.admitted _ hn)).elim⟩

mutual

/-- The variables of a pattern are parts of a variable. A pattern inside has a variable of its own. -/
def Part (T : List (Source × NodeId)) (S : Store) (whole : Symbol) (i : Nat) : Term → Prop
  | .ident x => Assigned T S x.sym (partOf whole i)
  | .tuple _ items => ∃ part, Assigned T S part (partOf whole i) ∧ Parts T S part 0 items
  | _ => False

def Parts (T : List (Source × NodeId)) (S : Store) (whole : Symbol) : Nat → List Term → Prop
  | _, [] => True
  | i, t :: ts => Part T S whole i t ∧ Parts T S whole (i + 1) ts

end

mutual

theorem Part.extends (t : Term) {xs : List Symbol} {whole : Symbol} {i : Nat}
    (h : Part b.nodes s.store whole i t) (he : Extends G xs b s b' s') :
    Part b'.nodes s'.store whole i t := by
  cases t with
  | ident x =>
    rw [Part] at h ⊢
    exact Assigned.extends h he
  | tuple id items =>
    rw [Part] at h ⊢
    obtain ⟨part, hpart, hitems⟩ := h
    exact ⟨part, hpart.extends he, Parts.extends items hitems he⟩
  | _ => simp [Part] at h

theorem Parts.extends (ts : List Term) {xs : List Symbol} {whole : Symbol} {i : Nat}
    (h : Parts b.nodes s.store whole i ts) (he : Extends G xs b s b' s') :
    Parts b'.nodes s'.store whole i ts := by
  cases ts with
  | nil => simp [Parts]
  | cons t ts =>
    rw [Parts] at h ⊢
    exact ⟨Part.extends t h.1 he, Parts.extends ts h.2 he⟩

end

mutual

theorem assignPattern_spec (t : Term) {b b' : Building} {s s' : Session} {whole : Symbol} {i : Nat}
    {u : Unit} (hc : Consistent G L b s) (hwhole : Old G s whole) (hnd : (patternSymbols t).Nodup)
    (ht : ∀ x ∈ patternSymbols t, Assignable G b s x)
    (h : Steps (assignPattern whole i t) o b s u b' s') :
    Consistent G L b' s' ∧ Extends G (patternSymbols t) b s b' s' ∧
      Part b'.nodes s'.store whole i t := by
  cases t with
  | ident x =>
    rw [patternSymbols_ident] at ht ⊢
    rw [assignPattern] at h
    rw [Part]
    exact assignPart_spec hc (ht x.sym mem_cons_self) hwhole h
  | tuple id items =>
    rw [patternSymbols_tuple] at ht hnd ⊢
    rw [assignPattern] at h
    simp only [steps_bind] at h
    obtain ⟨part, b1, s1, hpart, _, b2, s2, hassign, h⟩ := h
    obtain ⟨hc1, he1, hnew, hx⟩ := temporary_spec hc hpart
    obtain ⟨hc2, he2, hassigned⟩ := assignPart_spec hc1 hx (he1.later.old hwhole) hassign
    have he := he1.trans he2
    -- the new variable is none of the pattern's
    obtain ⟨hc', he', hparts⟩ := assignParts_spec items hc2 (he2.later.old hx.old) hnd
      (fun y hy => (ht y hy).beside hnew he) h
    rw [Part]
    exact ⟨hc', (he.trans he').without hnew, part, hassigned.extends he', hparts⟩
  | _ =>
    simp only [assignPattern, steps_bind, steps_throw] at h
    obtain ⟨_, _, _, _, hfalse⟩ := h
    exact hfalse.elim

theorem assignParts_spec (ts : List Term) {b b' : Building} {s s' : Session} {whole : Symbol} {i : Nat}
    {u : Unit} (hc : Consistent G L b s) (hwhole : Old G s whole)
    (hnd : (patternSymbols.go ts).Nodup) (ht : ∀ x ∈ patternSymbols.go ts, Assignable G b s x)
    (h : Steps (assignParts whole i ts) o b s u b' s') :
    Consistent G L b' s' ∧ Extends G (patternSymbols.go ts) b s b' s' ∧
      Parts b'.nodes s'.store whole i ts := by
  cases ts with
  | nil =>
    rw [assignParts, steps_pure] at h
    obtain ⟨-, rfl, rfl⟩ := h
    rw [patternSymbols.go, Parts]
    exact ⟨hc, Extends.refl b s, trivial⟩
  | cons t ts =>
    rw [patternSymbols.go] at hnd ht ⊢
    rw [assignParts, steps_bind] at h
    obtain ⟨_, b1, s1, hfirst, h⟩ := h
    obtain ⟨hc1, he1, hpart⟩ := assignPattern_spec t hc hwhole hnd.of_append_left
      (fun x hx => ht x (mem_append_left _ hx)) hfirst
    have hrest : ∀ x ∈ patternSymbols.go ts, Assignable G b1 s1 x := fun x hx =>
      (ht x (mem_append_right _ hx)).extends he1 fun hmem =>
        disjoint_of_nodup_append hnd hmem hx
    obtain ⟨hc', he', hparts⟩ := assignParts_spec ts hc1 (he1.later.old hwhole) hnd.of_append_right
      hrest h
    rw [Parts]
    exact ⟨hc', he1.trans he', Part.extends t hpart he', hparts⟩

end

/-! ## Bindings -/

/-- The variables of a binding are computed as it says. -/
def Bound (T : List (Source × NodeId)) (S : Store) (target value : Term) : Prop :=
  match target with
  | .ident x => AssignedTerm T S x.sym value
  | .tuple _ items => ∃ whole, AssignedTerm T S whole value ∧ Parts T S whole 0 items
  | _ => False

theorem Bound.extends {target value : Term}
    (h : Bound b.nodes s.store target value) (he : Extends G xs b s b' s') :
    Bound b'.nodes s'.store target value := by
  cases target with
  | ident x => exact AssignedTerm.extends h he
  | tuple id items =>
    obtain ⟨whole, hwhole, hparts⟩ := h
    exact ⟨whole, hwhole.extends he, Parts.extends items hparts he⟩
  | _ => exact h.elim

theorem addBinding_spec {target value : Term} (hc : Consistent G L b s)
    (hnd : (patternSymbols target).Nodup) (ht : ∀ x ∈ patternSymbols target, Assignable G b s x)
    (hv : Operable G L s value) (h : Steps (addBinding target value) o b s u b' s') :
    Consistent G L b' s' ∧ Extends G (patternSymbols target) b s b' s' ∧
      Bound b'.nodes s'.store target value := by
  cases target with
  | ident x =>
    rw [patternSymbols_ident] at ht ⊢
    exact assignVariable_spec hc (ht x.sym mem_cons_self) hv h
  | tuple id items =>
    rw [patternSymbols_tuple] at ht hnd ⊢
    simp only [addBinding, steps_bind] at h
    obtain ⟨whole, b1, s1, hwhole, _, b2, s2, hassign, h⟩ := h
    obtain ⟨hc1, he1, hnew, hx⟩ := temporary_spec hc hwhole
    obtain ⟨hc2, he2, hcomputed⟩ := assignVariable_spec hc1 hx (hv.later he1.later) hassign
    have he := he1.trans he2
    obtain ⟨hc', he', hparts⟩ := assignParts_spec items hc2 (he2.later.old hx.old) hnd
      (fun y hy => (ht y hy).beside hnew he) h
    exact ⟨hc', (he.trans he').without hnew, whole, hcomputed.extends he', hparts⟩
  | _ => exact (steps_throw.mp h).elim

theorem addBindings_spec (bs : List (Term × Term)) : ∀ {b b' : Building} {s s' : Session} {u : PUnit},
    Consistent G L b s → (targets bs).Nodup → (∀ x ∈ targets bs, Assignable G b s x) →
    (∀ e ∈ bs, Operable G L s e.2) →
    Steps (forIn bs PUnit.unit fun e _ => do
      addBinding e.1 e.2
      pure (ForInStep.yield PUnit.unit)) o b s u b' s' →
    Consistent G L b' s' ∧ Extends G (targets bs) b s b' s' ∧
      ∀ e ∈ bs, Bound b'.nodes s'.store e.1 e.2 := by
  induction bs with
  | nil =>
    intro b b' s s' u hc _ _ _ h
    rw [forIn_nil, steps_pure] at h
    obtain ⟨-, rfl, rfl⟩ := h
    exact ⟨hc, Extends.refl b s, by simp⟩
  | cons e bs ih =>
    obtain ⟨k, v⟩ := e
    intro b b' s s' u hc hnd ht hv h
    rw [targets_cons] at hnd ht ⊢
    rw [forall_mem_cons] at hv
    rw [forIn_cons] at h
    simp only [steps_bind, steps_pure] at h
    obtain ⟨_, _, _, ⟨_, b1, s1, hfirst, rfl, rfl, rfl⟩, h⟩ := h
    obtain ⟨hc1, he1, hbound⟩ := addBinding_spec hc hnd.of_append_left
      (fun x hx => ht x (mem_append_left _ hx)) hv.1 hfirst
    have hrest : ∀ x ∈ targets bs, Assignable G b1 s1 x := fun x hx =>
      (ht x (mem_append_right _ hx)).extends he1 fun hmem =>
        disjoint_of_nodup_append hnd hmem hx
    obtain ⟨hc', he', hall⟩ := ih hc1 hnd.of_append_right hrest
      (fun e he => (hv.2 e he).later he1.later) h
    exact ⟨hc', he1.trans he', forall_mem_cons.mpr ⟨hbound.extends he', hall⟩⟩

/-! ## Functions -/

theorem admitted_of_leaf {t : Term} (hA : ∀ x, A x → Old G s x) (ht : Normal.Leaf L t)
    (hs : Scoped A t) : Admitted G L s (.ofTerm t) := by
  cases t with
  | ident x =>
    rw [Scoped] at hs
    exact hA _ hs
  | literal id v => exact ht
  | _ => exact ht.elim

theorem admitted_of_leaves {ts : List Term} (hA : ∀ x, A x → Old G s x)
    (ht : ∀ t ∈ ts, Normal.Leaf L t) (hs : ScopedAll A ts) :
    ∀ source ∈ ts.map ofTerm, Admitted G L s source := by
  induction ts with
  | nil => simp
  | cons t ts ih =>
    rw [forall_mem_cons] at ht
    rw [ScopedAll] at hs
    rw [map_cons, forall_mem_cons]
    exact ⟨admitted_of_leaf hA ht.1 hs.1, ih ht.2 hs.2⟩

theorem Consistent.operable_of_simple {t : Term} (hc : Consistent G L b s)
    (hA : ∀ x, A x → Old G s x) (ht : Simple L t) (hs : Scoped A t) : Operable G L s t := by
  intro sources hsources
  cases ht with
  | leaf h =>
    cases t with
    | ident | literal =>
      obtain rfl := Option.some.inj hsources
      simp [hc.admitted_operation, admitted_of_leaf hA h hs]
    | _ => exact h.elim
  | apply hfn hargs =>
    obtain rfl := Option.some.inj hsources
    rw [Scoped] at hs
    exact forall_mem_cons.mpr ⟨admitted_of_leaf hA hfn hs.1, admitted_of_leaves hA hargs hs.2⟩
  | closure hfn hargs =>
    obtain rfl := Option.some.inj hsources
    rw [Scoped] at hs
    exact forall_mem_cons.mpr ⟨hc.admitted_operation _, forall_mem_cons.mpr
      ⟨admitted_of_leaf hA hfn hs.1, admitted_of_leaves hA hargs hs.2⟩⟩
  | tuple h =>
    obtain rfl := Option.some.inj hsources
    rw [Scoped] at hs
    exact forall_mem_cons.mpr ⟨hc.admitted_operation _, admitted_of_leaves hA h hs⟩
  | function => cases hsources

theorem Consistent.operable_bindings (hc : Consistent G L b s) (bs : List (Term × Term)) :
    ∀ {A : Symbol → Prop}, (∀ x, also A (targets bs) x → Old G s x) → (∀ e ∈ bs, Simple L e.2) →
      ScopedBindings A bs → ∀ e ∈ bs, Operable G L s e.2 := by
  induction bs with
  | nil => simp
  | cons e bs ih =>
    obtain ⟨k, v⟩ := e
    intro A hA hbs hs
    rw [forall_mem_cons] at hbs
    rw [ScopedBindings] at hs
    rw [targets_cons, also_append] at hA
    exact forall_mem_cons.mpr
      ⟨hc.operable_of_simple (fun x hx => hA x (.inr (.inr hx))) hbs.1 hs.1, ih hA hbs.2 hs.2⟩

/-- The graph of a function is there: a node for each parameter, which is not computed, the variables
of all bindings computed as they say, and the result for its output. -/
structure Built (G : GeneratorId → Prop) (L : List (TermId × Value)) (params : List Symbol)
    (bindings : List (Term × Term)) (result : Term) (b : Building) (s : Session) : Prop where
  consistent : Consistent G L b s
  inputs : List.Forall₂ (fun x n => (.symbol x, n) ∈ b.nodes) params (s.store.graph b.graph).inputs
  free : ∀ x ∈ params, Unassigned b s x
  output : ∃ out, (s.store.graph b.graph).output = some out ∧ Found b.nodes (.ofTerm result) out
  bound : ∀ e ∈ bindings, Bound b.nodes s.store e.1 e.2

/-- Making the inputs of a graph, which come first, and then a constant for the graph. -/
theorem addInputs_spec {params : List Ident} {ns : List NodeId} {s2 s3 : Session}
    {x : Node} {m : NodeId} (hc : Consistent G L b s) (hempty : b.nodes = [])
    (hg : b.graph < s.store.graphs.size) (ha : ∀ p ∈ params, Old G s p.sym)
    (hfetch : Steps (params.mapM fun p => fetch (.symbol p.sym)) o b s ns b1 s1)
    (hset : Returns (update fun S => .ok (S.setInputs b.graph ns)) o s1 u s2)
    (hnode : Returns (newNode x) o s2 m s3) :
    Consistent G L b1 s3 ∧ Later s s3 ∧ b1.graph = b.graph ∧
      s3.store.graphs.size = s.store.graphs.size ∧
      s3.store.graph b.graph = { s.store.graph b.graph with inputs := ns, sealed := true } ∧
      List.Forall₂ (fun x n => (.symbol x, n) ∈ b1.nodes) (params.map (·.sym)) ns ∧
      ∀ x, Old G s x → Unassigned b1 s3 x := by
  obtain ⟨hc1, he1, hall⟩ :=
    fetchAll_spec (fun p : Ident => .symbol p.sym) (fun _ => rfl) params hc ha hfetch
  obtain ⟨_, hstore, rfl⟩ := returns_update.mp hset
  cases hstore
  obtain ⟨rfl, rfl⟩ := returns_newNode.mp hnode
  have hkept : ∀ n < s1.store.nodes.size,
      ((s1.store.setInputs b.graph ns).addNode x).2.node n = s1.store.node n := by
    intro n hn
    rw [node_addNode]
    exact if_neg hn.ne
  have hsame : Undisturbed s1 { s1 with store := ((s1.store.setInputs b.graph ns).addNode x).2 } :=
    { later := Later.of_generators rfl
      size := by
        rw [size_addNode]
        exact Nat.le_succ _
      value := fun n hn => congrArg Node.value (hkept n hn)
      fn := fun n hn => congrArg Node.fn (hkept n hn)
      inputs := fun n hn => congrArg Node.inputs (hkept n hn) }
  refine ⟨hsame.consistent hc1, he1.later.trans hsame.later, he1.graph, ?_, ?_, ?_, fun y hy => ?_⟩
  · show (s1.store.modifyGraph _ _).graphs.size = _
    rw [size_modifyGraph, he1.graphs]
  · show (s1.store.modifyGraph _ _).graph _ = _
    rw [graph_modifyGraph, if_pos ⟨rfl, he1.graphs.symm ▸ hg⟩, he1.graph_eq]
  · rw [forall₂_map_left_iff] at hall ⊢
    exact hall.imp fun _ _ => found_symbol.mp
  · refine hsame.unassigned hc1 (he1.others y not_mem_nil hy fun n hn => ?_)
    rw [hempty] at hn
    cases hn

theorem addBody_spec {params : List Symbol} {bindings : List (Term × Term)} {result : Term}
    {out : NodeId} {s2 : Session} {r : PUnit} (hc : Consistent G L b s)
    (hg : b.graph < s.store.graphs.size) (hnone : (s.store.graph b.graph).output = none)
    (hin : List.Forall₂ (fun x n => (.symbol x, n) ∈ b.nodes) params (s.store.graph b.graph).inputs)
    (hold : ∀ x ∈ params, Old G s x) (hfree : ∀ x ∈ params, Unassigned b s x)
    (hapart : ∀ x ∈ params, x ∉ targets bindings) (hnd : (targets bindings).Nodup)
    (ht : ∀ x ∈ targets bindings, Assignable G b s x)
    (hv : ∀ e ∈ bindings, Operable G L s e.2)
    (hresult : Admitted G L s (.ofTerm result)) (hfetch : Steps (fetchTerm result) o b s out b1 s1)
    (hset : Returns (update fun S => S.setOutput b.graph out) o s1 u s2)
    (hadd : Steps (forIn bindings PUnit.unit fun e _ => do
      addBinding e.1 e.2
      pure (ForInStep.yield PUnit.unit)) o b1 s2 r b' s') :
    b'.graph = b.graph ∧ Built G L params bindings result b' s' := by
  rw [fetchTerm_eq] at hfetch
  obtain ⟨hc1, he1, hfound⟩ := fetch_spec hc hresult hfetch
  obtain ⟨store, hstore, rfl⟩ := returns_update.mp hset
  obtain ⟨store', hok, hsize, hnode, hgraph⟩ := setOutput_of_free (s := s1.store) (g := b.graph)
    (he1.graphs.symm ▸ hg) (by rw [he1.graph_eq, hnone]) out
  rw [hok, Except.ok.injEq] at hstore
  subst hstore
  have hsame : Undisturbed s1 { s1 with store := store' } :=
    ⟨Later.of_generators rfl, hsize.symm.le, fun n _ => by rw [hnode n],
      fun n _ => by rw [hnode n], fun n _ => by rw [hnode n]⟩
  have hlater := he1.later.trans hsame.later
  have hfree2 : ∀ y, Old G s y → Unassigned b s y → Unassigned b1 { s1 with store := store' } y :=
    fun y hy hun => hsame.unassigned hc1 (he1.others y not_mem_nil hy hun)
  obtain ⟨hc', he', hbound⟩ := addBindings_spec bindings (hsame.consistent hc1) hnd
    (fun x hx => ⟨hlater.old (ht x hx).old, (ht x hx).proper,
      hfree2 x (ht x hx).old (ht x hx).unassigned⟩)
    (fun e he => (hv e he).later hlater) hadd
  have hgraph' : s'.store.graph b'.graph = { s.store.graph b.graph with output := some out } := by
    rw [he'.graph, he1.graph, he'.graph_eq]
    show store'.graph b.graph = _
    rw [hgraph, if_pos rfl, he1.graph_eq]
  exact ⟨he'.graph.trans he1.graph,
    { consistent := hc'
      inputs := by
        rw [hgraph']
        exact hin.imp fun _ _ hn => he'.nodes _ (he1.nodes _ hn)
      free := fun x hx => he'.others x (hapart x hx) (hlater.old (hold x hx))
        (hfree2 x (hold x hx) (hfree x hx))
      output := by
        rw [hgraph']
        exact ⟨out, rfl, hfound.mono he'.nodes⟩
      bound := hbound }⟩

end Invariant

/-- A convertible function all of whose symbols are its generators', and whose parameters and
generators have nothing to do with global names. -/
structure Buildable (s : Session) (l : Lambda) : Prop extends Convertible s l where
  params : ∀ p ∈ l.params, Old (Asked l) s p.sym ∧ p.sym.isGlobal = false
  own : ∀ i, Asked l i → (generator s i).space.isGlobal = false

theorem built_ofLambda {id : TermId} {l : Lambda} {g : GraphId} (hl : s.lambda? id = some l)
    (h : Buildable s l) (hret : Returns (ofLambda id) o s g s') :
    ∃ new s1 l', Returns (Normal.ofLambda id) o s new s1 ∧ s1.lambda? new = some l' ∧
      IsNormal s s1 l l' ∧ (Normal.Leaf (literals l.body) (open? l'.body).2 →
        ∃ b, b.graph = g ∧ Built (Asked l) (literals l.body) (l'.params.map (·.sym))
          (open? l'.body).1 (open? l'.body).2 b s') := by
  unfold ofLambda at hret
  simp only [returns_bind, returns_getLambda] at hret
  obtain ⟨new, s1, hnormal, l', _, ⟨hl', rfl⟩, l2, _, ⟨-, rfl⟩, hret⟩ := hret
  obtain ⟨hfurther, l'', hl'', hn⟩ := normal_ofLambda hl h.toConvertible hnormal
  rw [hl', Option.some.injEq] at hl''
  subst hl''
  refine ⟨new, s1, l', hnormal, hl', hn, fun hleaf => ?_⟩
  cases hr : l2.ref with
  | none =>
    rw [hr] at hret
    simp only [returns_bind, returns_throw, false_and, exists_false] at hret
  | some r =>
  rw [hr] at hret
  simp only [returns_bind, returns_newGraph, returns_run', returns_pure] at hret
  obtain ⟨tag, _, ⟨rfl, rfl⟩, g2, s2, ⟨hg2, hs2⟩, _, s3, ⟨b', hwork⟩, rfl, rfl⟩ := hret
  simp only [steps_bind, steps_lift] at hwork
  obtain ⟨ns, b1, s4, hparams, _, _, s5, ⟨hinputs, rfl⟩, m, _, s6, ⟨hconst, rfl⟩, hwork⟩ := hwork
  -- the graph is there, without nodes
  have hd1 := hfurther.distinct h.generators
  have hl2 : Later s1 s2 := hs2 ▸ Later.of_generators rfl
  have hold2 : ∀ x, Old (Asked l) s x → Old (Asked l) s2 x := fun x hx =>
    hl2.old (hfurther.old h.generators hx)
  have hgraph2 : s2.store.graphs.size = g2 + 1 := by
    rw [← hs2, ← hg2]
    exact Array.size_push ..
  have hc2 : Consistent (Asked l) (literals l.body) { graph := g2, generator := l'.generator } s2 :=
    { there := by simp
      value := by simp
      bare := by simp
      constant := by simp
      nodup := by simp
      unique := by simp
      admitted := by simp
      asked := fun i hi => .inl (hn.generator ▸ hi)
      distinct := hl2.distinct hd1
      own := fun i hi => by
        rw [hl2.space i, hfurther.space i (h.generators.there i hi)]
        exact h.own i hi }
  obtain ⟨hc3, hl3, hg3, hsize3, hgraph3, hin3, hfree3⟩ := addInputs_spec hc2 rfl
    (by rw [hgraph2]; exact Nat.lt_succ_self _)
    (fun p hp => hold2 _ (h.params p (hn.params ▸ hp)).1) hparams hinputs hconst
  replace hg3 : b1.graph = g2 := hg3
  subst hg3
  -- a body without bindings is one with no bindings
  obtain ⟨out, b4, s7, _, s8, _, hfetch, hset, hadd⟩ : ∃ out b4 s7 u s8 last,
      Steps (fetchTerm (open? l'.body).2) o b1 s6 out b4 s7 ∧
      Returns (update fun S => S.setOutput b1.graph out) o s7 u s8 ∧
      Steps (forIn (open? l'.body).1 PUnit.unit fun e _ => do
        addBinding e.1 e.2
        pure (ForInStep.yield PUnit.unit)) o b4 s8 last b' s3 := by
    cases hb : l'.body with
    | bind id bs body =>
      rw [hb] at hwork
      simp only [steps_bind, steps_lift, steps_pure] at hwork
      obtain ⟨out, b4, s7, hfetch, _, _, s8, ⟨hset, rfl⟩, _, _, _, hadd, -, rfl, rfl⟩ := hwork
      exact ⟨out, b4, s7, _, s8, _, hfetch, hset, hadd⟩
    | _ =>
      rw [hb] at hwork
      simp only [steps_bind, steps_lift] at hwork
      obtain ⟨out, b4, s7, hfetch, _, _, s8, ⟨hset, rfl⟩, hleaf⟩ := hwork
      split at hleaf
      · exact (steps_throw.mp hleaf).elim
      · obtain ⟨-, rfl, rfl⟩ := steps_pure.mp hleaf
        exact ⟨out, b4, s7, _, s8, PUnit.unit, hfetch, hset, steps_pure_self⟩
  have htargets := targets_open?_sublist l'.body
  obtain ⟨hscope, hlast⟩ := scoped_open?.mp hn.fit.scope
  have hbound : ∀ x ∈ targets (open? l'.body).1, Old (Asked l) s2 x := fun x hx =>
    hl2.old (hn.made x (htargets.subset hx))
  have hA : ∀ x, also (Used s l) (targets (open? l'.body).1) x → Old (Asked l) s6 x := fun x hx =>
    hl3.old (hx.elim (hbound x) fun hused => hold2 x hused.2)
  have hparam : ∀ x ∈ l'.params.map (·.sym), Used s l x := by
    intro x hx
    rw [hn.params] at hx
    obtain ⟨p, hp, rfl⟩ := mem_map.mp hx
    exact ⟨.inl hx, (h.params p hp).1⟩
  have hempty : s2.store.graph b1.graph =
      { parent := none, tag := r.sym, generator := l'.generator.getD 0, lambda := some id } := by
    rw [← hs2]
    exact (graph_addGraph _ _ _).trans (if_pos hg2.symm)
  exact ⟨b', addBody_spec hc3 (by rw [hsize3, hgraph2]; exact Nat.lt_succ_self _)
    (by rw [hgraph3, hempty]) (by rw [hgraph3]; exact hin3)
    (fun x hx => hA x (.inr (hparam x hx)))
    (fun x hx => hfree3 x (hold2 x (hparam x hx).2))
    (fun x hx hmem => hn.fit.apart x (htargets.subset hmem) (hparam x hx))
    (hn.fit.nodup.sublist htargets)
    (fun x hx => ⟨hl3.old (hbound x hx), hn.proper h.toConvertible h.own x (htargets.subset hx),
      hfree3 x (hbound x hx)⟩)
    (hc3.operable_bindings _ hA hn.flat.1 hscope) (admitted_of_leaf hA hleaf hlast) hfetch
    hset hadd⟩

end DiffLang.Graph
