import DiffLang.Graph.OfTerm
import DiffLang.Proofs.Graph.Redirect
import DiffLang.Proofs.Returns

/-!
# Making nodes and applications

New nodes and graphs come after those that are there. A node that is not computed yet can be made the
application of a node to nodes, which changes no other node except for its users (`Rewired`).
-/

namespace DiffLang.Graph

open Run List Store

variable {s s' : Store} {m n : NodeId} {g : GraphId} {o : Option Origin} {σ σ' : Session}

theorem isGlobal_builtin (op : String) : (Symbol.builtin op).isGlobal = true := by
  show Namespace.builtin.isGlobal = true
  decide +kernel

/-! ## In a session -/

@[simp] theorem returns_update {f : Store → Fallible Store} {u : Unit} :
    Returns (update f) o σ u σ' ↔ ∃ store, f σ.store = .ok store ∧ σ' = { σ with store } := by
  unfold update
  simp only [returns_bind, returns_get, returns_lift, returns_set]
  constructor
  · rintro ⟨_, _, ⟨rfl, rfl⟩, store, _, ⟨h, rfl⟩, rfl⟩
    exact ⟨store, h, rfl⟩
  · rintro ⟨store, h, rfl⟩
    exact ⟨σ, σ, ⟨rfl, rfl⟩, store, σ, ⟨h, rfl⟩, rfl⟩

@[simp] theorem returns_newNode {x : Node} :
    Returns (newNode x) o σ n σ' ↔
      σ.store.nodes.size = n ∧ { σ with store := (σ.store.addNode x).2 } = σ' := by
  unfold newNode
  rw [returns_modifyGet]
  exact Prod.mk_inj

@[simp] theorem returns_newGraph {x : Graph} :
    Returns (newGraph x) o σ g σ' ↔
      σ.store.graphs.size = g ∧ { σ with store := (σ.store.addGraph x).2 } = σ' := by
  unfold newGraph
  rw [returns_modifyGet]
  exact Prod.mk_inj

namespace Store

theorem node_addNode (s : Store) (x : Node) (m : NodeId) :
    (s.addNode x).2.node m = if m = s.nodes.size then x else s.node m := by
  unfold addNode node
  rw [Array.getD_eq_getD_getElem?, Array.getD_eq_getD_getElem?, Array.getElem?_push]
  split <;> rfl

@[simp] theorem size_addNode (s : Store) (x : Node) :
    (s.addNode x).2.nodes.size = s.nodes.size + 1 :=
  Array.size_push ..

@[simp] theorem node_addGraph (s : Store) (x : Graph) (m : NodeId) :
    (s.addGraph x).2.node m = s.node m := rfl

theorem graph_addGraph (s : Store) (x : Graph) (g : GraphId) :
    (s.addGraph x).2.graph g = if g = s.graphs.size then x else s.graph g := by
  unfold addGraph graph
  rw [Array.getD_eq_getD_getElem?, Array.getD_eq_getD_getElem?, Array.getElem?_push]
  split <;> rfl

end Store

/-- A new node without edges. -/
theorem inRole_addNode {x : Node} (hfn : x.fn = none) (hin : x.inputs = []) (w : Owner) (r : Role) :
    (s.addNode x).2.inRole w r = s.inRole w r := by
  cases w with
  | graph g => rfl
  | node m =>
    rw [inRole_node, inRole_node, node_addNode]
    split
    next hm =>
      rw [hm, node_of_size_le le_rfl]
      cases r with
      | fn => exact hfn
      | input i => rw [Node.inRole, Node.inRole, hin]; rfl
      | output | other => rfl
    · rfl

/-! ## Applications -/

/-- Two stores that differ only in the function and the inputs of one node, which has these in the
second, and in the users that nodes list. -/
structure Rewired (s s' : Store) (n : NodeId) (fn : Option NodeId) (inputs : List (Option NodeId)) :
    Prop where
  nodes : s'.nodes.size = s.nodes.size
  graphs : s'.graphs = s.graphs
  self : s'.node n = { s.node n with fn, inputs, users := (s'.node n).users }
  other : ∀ m, m ≠ n → s'.node m = { s.node m with users := (s'.node m).users }
  kept : ∀ {r x}, (s.node n).inRole r = some x → (s'.node n).inRole r = some x
  users : ∀ x u, u ∈ (s'.node x).users ↔ u ∈ (s.node x).users ∨ (x < s.nodes.size ∧
    ∃ r, u = (r, .node n) ∧ (s'.node n).inRole r = some x ∧ (s.node n).inRole r = none)
  nodup : ∀ x, (s.node x).users.Nodup → (s'.node x).users.Nodup

theorem Rewired.refl (s : Store) (n : NodeId) : Rewired s s n (s.node n).fn (s.node n).inputs where
  nodes := rfl
  graphs := rfl
  self := rfl
  other _ _ := rfl
  kept := id
  users x u := by
    refine ⟨.inl, fun h => h.elim id ?_⟩
    rintro ⟨-, r, -, hx, hnone⟩
    rw [hnone] at hx
    cases hx
  nodup _ := id

variable {inputs : List (Option NodeId)} {fn : Option NodeId}

theorem Rewired.trans {s1 : Store} {fn' : Option NodeId} {inputs' : List (Option NodeId)}
    (h : Rewired s s1 n fn inputs) (h' : Rewired s1 s' n fn' inputs') :
    Rewired s s' n fn' inputs' where
  nodes := h'.nodes.trans h.nodes
  graphs := h'.graphs.trans h.graphs
  self := by rw [h'.self, h.self]
  other m hm := by rw [h'.other m hm, h.other m hm]
  kept hx := h'.kept (h.kept hx)
  users x u := by
    rw [h'.users, h.users, h.nodes]
    constructor
    · rintro ((hu | ⟨hx, r, rfl, hr, hnone⟩) | ⟨hx, r, rfl, hr, hnone⟩)
      · exact .inl hu
      · exact .inr ⟨hx, r, rfl, h'.kept hr, hnone⟩
      · refine .inr ⟨hx, r, rfl, hr, ?_⟩
        refine Option.eq_none_iff_forall_ne_some.mpr fun y hy => ?_
        rw [h.kept hy] at hnone
        cases hnone
    · rintro (hu | ⟨hx, r, rfl, hr, hnone⟩)
      · exact .inl (.inl hu)
      · cases h1 : (s1.node n).inRole r with
        | none => exact .inr ⟨hx, r, rfl, hr, h1⟩
        | some y =>
          have hy := h'.kept h1
          rw [hr, Option.some.injEq] at hy
          exact .inl (.inr ⟨hx, r, rfl, hy ▸ h1, hnone⟩)
  nodup x hx := h'.nodup x (h.nodup x hx)

theorem Rewired.value
    (h : Rewired s s' n fn inputs) (m : NodeId) : (s'.node m).value = (s.node m).value := by
  by_cases hm : m = n
  · rw [hm, h.self]
  · rw [h.other m hm]

theorem rewired_modifyNode (hn : n < s.nodes.size) {F : Node → Node}
    (hF : F (s.node n) = { s.node n with fn, inputs }) (p : NodeId) {r : Role}
    (hfree : (s.node n).inRole r = none)
    (hrole : ∀ r', Node.inRole { s.node n with fn, inputs } r' =
      if r' = r then some p else (s.node n).inRole r') :
    Rewired s ((s.modifyNode n F).addUser p (r, .node n)) n fn inputs := by
  have hself : (s.modifyNode n F).node n = { s.node n with fn, inputs } := by
    rw [node_modifyNode, if_pos ⟨rfl, hn⟩, hF]
  have hother : ∀ m, m ≠ n → (s.modifyNode n F).node m = s.node m := by
    intro m hm
    rw [node_modifyNode, if_neg fun h => hm h.1.symm]
  have husers : ∀ m, ((s.modifyNode n F).node m).users = (s.node m).users := by
    intro m
    by_cases hm : m = n
    · rw [hm, hself]
    · rw [hother m hm]
  have h : SameEdges (s.modifyNode n F) ((s.modifyNode n F).addUser p (r, .node n)) := by
    rw [addUser_eq]
    exact sameEdges_modifyNode p _
  have hnew : ∀ r', (((s.modifyNode n F).addUser p (r, .node n)).node n).inRole r' =
      if r' = r then some p else (s.node n).inRole r' := by
    intro r'
    rw [h.node n, hself, ← hrole]
    cases r' <;> rfl
  refine ⟨by rw [h.nodes, size_modifyNode], by rw [h.graphs, graphs_modifyNode], ?_,
    fun m hm => ?_, fun {r' x} hx => ?_, fun x u => ?_, fun x hx => ?_⟩
  · rw [h.node n, hself]
  · rw [h.node m, hother m hm]
  · rw [hnew, if_neg, hx]
    rintro rfl
    rw [hfree] at hx
    cases hx
  · by_cases hp : p < s.nodes.size
    · rw [mem_users_addUser (by rwa [size_modifyNode]), husers]
      refine or_congr_right ⟨?_, ?_⟩
      · rintro ⟨rfl, rfl⟩
        exact ⟨hp, r, rfl, by rw [hnew, if_pos rfl], hfree⟩
      · rintro ⟨-, r', rfl, hx, hnone⟩
        rw [hnew] at hx
        split at hx
        next hr => exact ⟨(Option.some.inj hx).symm, by rw [hr]⟩
        · rw [hnone] at hx
          cases hx
    · -- a node that is not there has no users
      have hnone : (((s.modifyNode n F).addUser p (r, .node n)).node x).users = (s.node x).users := by
        rw [addUser_eq, node_modifyNode, size_modifyNode,
          if_neg fun (hx : p = x ∧ x < _) => hp (hx.1 ▸ hx.2), husers]
      rw [hnone]
      refine ⟨.inl, fun hu => hu.elim id ?_⟩
      rintro ⟨hlt, r', -, hx, hnone⟩
      rw [hnew, hnone] at hx
      split at hx
      · injection hx with hx
        exact absurd (hx ▸ hlt) hp
      · cases hx
  · refine nodup_users_addUser ?_
    rw [husers]
    exact hx

theorem inRole_append_input {m : Node} {p : NodeId} (r : Role) :
    Node.inRole { m with inputs := m.inputs ++ [some p] } r =
      if r = .input m.inputs.length then some p else m.inRole r := by
  cases r with
  | fn | output | other => simp [Node.inRole]
  | input j =>
    simp only [Node.inRole, Role.input.injEq]
    by_cases hj : 0 ≤ j
    · obtain ⟨i, rfl⟩ := Int.eq_ofNat_of_zero_le hj
      simp only [hj, if_true, Int.toNat_natCast, Int.natCast_inj, getElem?_append]
      by_cases hi : i = m.inputs.length
      · simp [hi]
      · rw [if_neg hi]
        split
        · rfl
        next hlt =>
          have hle : m.inputs.length ≤ i := by omega
          rw [getElem?_eq_none hle, getElem?_eq_none (by simp; omega)]
    · rw [if_neg hj, if_neg hj, if_neg (by omega)]

theorem link_fn (hn : n < s.nodes.size) (hfn : (s.node n).fn = none) (f : NodeId) :
    ∃ s', s.link (.node n) f .fn = .ok s' ∧ Rewired s s' n (some f) (s.node n).inputs := by
  refine ⟨_, ?_, rewired_modifyNode hn (F := fun x => { x with fn := some f }) rfl f (r := .fn) hfn
    fun r => ?_⟩
  swap
  · cases r <;> simp [Node.inRole]
  simp only [link, Store.attach, hfn]
  rfl

theorem link_next (hn : n < s.nodes.size) (p : NodeId) :
    ∃ s', s.link (.node n) p (.input (s.node n).inputs.length) = .ok s' ∧
      Rewired s s' n (s.node n).fn ((s.node n).inputs ++ [some p]) := by
  have hnew : (((s.node n).inputs.length : Int) - (s.node n).inputs.length + 1).toNat = 1 := by omega
  have hplace : position? ((s.node n).inputs ++ [none]).length (s.node n).inputs.length =
      some (s.node n).inputs.length := position?_natCast (by simp)
  have hfree : (((s.node n).inputs ++ [none]).getD (s.node n).inputs.length none).isSome = false := by
    simp
  have hset : ((s.node n).inputs ++ [none]).set (s.node n).inputs.length (some p) =
      (s.node n).inputs ++ [some p] := by
    simp [set_append_right]
  refine ⟨_, ?_, rewired_modifyNode hn
    (F := fun x => { x with inputs := (s.node n).inputs ++ [some p] }) rfl p
    (r := .input (s.node n).inputs.length) (by simp [Node.inRole]) fun r => ?_⟩
  swap
  · exact inRole_append_input r
  simp only [link, Store.attach, Int.le_refl, if_true, hnew, replicate_one, hplace, hfree,
    hset]
  rfl

theorem commit_cons (c : Change) (cs : List Change) :
    s.commit (c :: cs) = s.apply c >>= fun s' => s'.commit cs := by
  unfold commit
  rw [foldlM_cons]

theorem commit_inputs (ps : List NodeId) : ∀ {s : Store}, n < s.nodes.size →
    ∃ s', s.commit (((ps.map some).zipIdx (s.node n).inputs.length).filterMap fun (x, i) =>
        x.map fun m => Change.link (.node n) m (.input i)) = .ok s' ∧
      Rewired s s' n (s.node n).fn ((s.node n).inputs ++ ps.map some) := by
  induction ps with
  | nil =>
    intro s _
    refine ⟨s, rfl, ?_⟩
    rw [map_nil, append_nil]
    exact Rewired.refl s n
  | cons p ps ih =>
    intro s hn
    obtain ⟨s1, hs1, h1⟩ := link_next hn p
    obtain ⟨s', hs', h'⟩ := ih (s := s1) (h1.nodes ▸ hn)
    have hlen : (s1.node n).inputs.length = (s.node n).inputs.length + 1 := by
      rw [h1.self, length_append]
      rfl
    refine ⟨s', ?_, ?_⟩
    · rw [map_cons, zipIdx_cons, filterMap_cons]
      dsimp only [Option.map_some]
      rw [commit_cons, Store.apply, hs1, ← hlen]
      exact hs'
    · have h := h1.trans h'
      rw [h1.self] at h
      simpa using h

theorem setApplication_of_free (hn : n < s.nodes.size) (hfn : (s.node n).fn = none)
    (hin : (s.node n).inputs = []) (f : NodeId) (ps : List NodeId) :
    ∃ s', s.setApplication n (some f) (ps.map some) = .ok s' ∧
      Rewired s s' n (some f) (ps.map some) := by
  obtain ⟨s1, hs1, h1⟩ := link_fn hn hfn f
  obtain ⟨s', hs', h'⟩ := commit_inputs ps (h1.nodes ▸ hn)
  have hself : (s1.node n).inputs = [] ∧ (s1.node n).fn = some f := by
    rw [h1.self]
    exact ⟨hin, rfl⟩
  rw [hself.1] at hs' h'
  rw [hself.2] at h'
  refine ⟨s', ?_, h1.trans h'⟩
  have hchanges : s.setApplicationChanges n (some f) (ps.map some) =
      .ok (.link (.node n) f .fn :: ((ps.map some).zipIdx).filterMap fun (x, i) =>
        x.map fun m => Change.link (.node n) m (.input i)) := by
    simp only [setApplicationChanges, pointTo, follow, hfn, hin]
    rfl
  rw [setApplication, hchanges]
  show s.commit _ = _
  rw [commit_cons, Store.apply, hs1]
  exact hs'

theorem setOutput_of_free (hg : g < s.graphs.size) (hout : (s.graph g).output = none) (n : NodeId) :
    ∃ s', s.setOutput g n = .ok s' ∧ s'.nodes.size = s.nodes.size ∧
      (∀ m, s'.node m = { s.node m with users := (s'.node m).users }) ∧
      ∀ h, s'.graph h = if h = g then { s.graph g with output := some n } else s.graph h := by
  have hedges := sameEdges_modifyNode (s := s.modifyGraph g fun x => { x with output := some n }) n
    fun m => if m.users.contains (.output, .graph g) then m.users else m.users ++ [(.output, .graph g)]
  rw [← addUser_eq] at hedges
  refine ⟨_, ?_, hedges.nodes, fun m => hedges.node m, fun h => ?_⟩
  · simp only [setOutput, hout, link, Store.attach, pure_bind, Option.isSome_none,
      Bool.false_eq_true, if_false]
    rfl
  · rw [hedges.graph h, graph_modifyGraph]
    by_cases hh : h = g
    · subst hh
      rw [if_pos ⟨rfl, hg⟩, if_pos rfl]
    · rw [if_neg fun x => hh x.1.symm, if_neg hh]

end DiffLang.Graph
