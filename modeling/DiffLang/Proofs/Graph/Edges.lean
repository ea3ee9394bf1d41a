import DiffLang.Proofs.Graph.Reach

/-!
# The two ends of an edge

An edge is noted at its source, a node or a graph, under the role that its target plays there, and
at its target among the users. What stands at the source is read by `Store.inRole`, whatever kind of
source it is, so that the two atomic changes can be described in one way: `attach` and `detach` change
what one source has in one role (`Edited`), and nothing else.

A list of inputs that ends in a missing one is never left behind (`Tight`), so that a list is known by
what it has in each role (`Tight.ext`).
-/

namespace DiffLang.Graph

open List Store

def Node.inRole (n : Node) : Role → Option NodeId
  | .fn => n.fn
  | .input i => if 0 ≤ i then (n.inputs[i.toNat]?).join else none
  | .output | .other _ => none

def Store.inRole (s : Store) : Owner → Role → Option NodeId
  | .node m, r => (s.node m).inRole r
  | .graph g, r => if r = .output then (s.graph g).output else none

def Owner.Gives : Owner → Role → Prop
  | .node _, .fn => True
  | .node _, .input i => 0 ≤ i
  | .graph _, .output => True
  | _, _ => False

variable {s s' : Store} {m n t : NodeId} {g : GraphId} {w : Owner} {r : Role}

@[simp] theorem Store.inRole_node (s : Store) (m : NodeId) (r : Role) :
    s.inRole (.node m) r = (s.node m).inRole r := rfl

@[simp] theorem Store.inRole_graph (s : Store) (g : GraphId) (r : Role) :
    s.inRole (.graph g) r = if r = .output then (s.graph g).output else none := rfl

theorem Node.inRole_input (n : Node) (i : Nat) :
    n.inRole (.input i) = (n.inputs[i]?).join := by
  simp [inRole]

theorem Node.mem_edges_iff {n : Node} {k : NodeId} : (r, k) ∈ n.edges ↔ n.inRole r = some k := by
  unfold edges
  rw [mem_append, mem_filterMap]
  cases r with
  | fn => cases h : n.fn <;> simp [inRole, h, eq_comm]
  | input i =>
    refine (or_iff_right (by cases n.fn <;> simp)).trans ?_
    rw [inRole]
    constructor
    · rintro ⟨⟨x, j⟩, hx, hk⟩
      rw [mem_zipIdx_iff_getElem?] at hx
      obtain ⟨y, hy, he⟩ := Option.map_eq_some_iff.mp hk
      injection he with hi hk
      injection hi with hi
      dsimp only at hx hy
      rw [← hi, if_pos (Int.natCast_nonneg j), Int.toNat_natCast, hx, hy, hk]
      rfl
    · intro h
      split at h
      next hi =>
        rw [Option.join_eq_some_iff] at h
        refine ⟨(some k, i.toNat), mem_zipIdx_iff_getElem?.mpr h, ?_⟩
        simp [Int.toNat_of_nonneg hi]
      · cases h
  | output | other =>
    cases n.fn <;> simp [inRole]

theorem Owner.gives_of_inRole (h : s.inRole w r = some n) : w.Gives r := by
  cases w with
  | node m =>
    cases r with
    | fn => trivial
    | input i =>
      by_contra hi
      rw [inRole_node, Node.inRole, if_neg (show ¬ 0 ≤ i from hi)] at h
      cases h
    | output | other => cases h
  | graph g =>
    cases r with
    | output => trivial
    | fn | input | other => simp at h

theorem needs_iff_inRole : Needs s m n ↔ ∃ r, s.inRole (.node m) r = some n := by
  rw [needs_iff]
  exact exists_congr fun r => Node.mem_edges_iff

/-! ## Reading after a change -/

namespace Store

theorem node_modifyNode (s : Store) (n m : NodeId) (f : Node → Node) :
    (s.modifyNode n f).node m = if n = m ∧ m < s.nodes.size then f (s.node m) else s.node m := by
  unfold node modifyNode
  rw [Array.getD_eq_getD_getElem?, Array.getElem?_modify, Array.getD_eq_getD_getElem?]
  by_cases hm : m < s.nodes.size
  · by_cases hn : n = m <;> simp [hn, hm]
  · simp [hm]

@[simp] theorem graph_modifyNode (s : Store) (n : NodeId) (g : GraphId) (f : Node → Node) :
    (s.modifyNode n f).graph g = s.graph g := rfl

@[simp] theorem node_modifyGraph (s : Store) (g : GraphId) (n : NodeId) (f : Graph → Graph) :
    (s.modifyGraph g f).node n = s.node n := rfl

theorem graph_modifyGraph (s : Store) (g h : GraphId) (f : Graph → Graph) :
    (s.modifyGraph g f).graph h =
      if g = h ∧ h < s.graphs.size then f (s.graph h) else s.graph h := by
  unfold graph modifyGraph
  rw [Array.getD_eq_getD_getElem?, Array.getElem?_modify, Array.getD_eq_getD_getElem?]
  by_cases hh : h < s.graphs.size
  · by_cases hg : g = h <;> simp [hg, hh]
  · simp [hh]

@[simp] theorem size_modifyNode (s : Store) (n : NodeId) (f : Node → Node) :
    (s.modifyNode n f).nodes.size = s.nodes.size :=
  Array.size_modify

@[simp] theorem graphs_modifyNode (s : Store) (n : NodeId) (f : Node → Node) :
    (s.modifyNode n f).graphs = s.graphs := rfl

@[simp] theorem nodes_modifyGraph (s : Store) (g : GraphId) (f : Graph → Graph) :
    (s.modifyGraph g f).nodes = s.nodes := rfl

@[simp] theorem size_modifyGraph (s : Store) (g : GraphId) (f : Graph → Graph) :
    (s.modifyGraph g f).graphs.size = s.graphs.size :=
  Array.size_modify

/-- A number that no node has stands for a node without anything. -/
theorem node_of_size_le (h : s.nodes.size ≤ n) : s.node n = default := by
  unfold node
  rw [Array.getD_eq_getD_getElem?, Array.getElem?_eq_none h]
  rfl

theorem graph_of_size_le (h : s.graphs.size ≤ g) : s.graph g = default := by
  unfold graph
  rw [Array.getD_eq_getD_getElem?, Array.getElem?_eq_none h]
  rfl

theorem lt_size_of_users (h : (s.node n).users ≠ []) : n < s.nodes.size := by
  by_contra hn
  rw [node_of_size_le (Nat.le_of_not_lt hn)] at h
  exact h rfl

theorem lt_size_of_output (h : (s.graph g).output = some n) : g < s.graphs.size := by
  by_contra hg
  rw [graph_of_size_le (Nat.le_of_not_lt hg)] at h
  cases h

theorem lt_size_of_inRole (h : s.inRole (.node m) r = some n) : m < s.nodes.size :=
  Needs.lt_size (needs_iff_inRole.mpr ⟨r, h⟩)

end Store

/-! ## Lists of inputs -/

/-- A list of inputs that does not end in a missing one. -/
def Tight (inputs : List (Option NodeId)) : Prop := ∀ i, inputs[i]? = some none → i + 1 < inputs.length

variable {inputs : List (Option NodeId)} {i : Nat}

theorem Tight.some_of_last (h : Tight inputs)
    (hi : i + 1 = inputs.length) : ∃ n, inputs[i]? = some (some n) := by
  have hlt : i < inputs.length := by omega
  cases hx : inputs[i] with
  | some n => exact ⟨n, by rw [getElem?_eq_getElem hlt, hx]⟩
  | none =>
    have := h i (by rw [getElem?_eq_getElem hlt, hx])
    omega

theorem Tight.ext {as bs : List (Option NodeId)} (ha : Tight as) (hb : Tight bs)
    (h : ∀ i : Nat, (as[i]?).join = (bs[i]?).join) : as = bs := by
  -- the longer list would have something at its end where the other has nothing
  have hle : ∀ {as bs : List (Option NodeId)}, Tight as →
      (∀ i : Nat, (as[i]?).join = (bs[i]?).join) → as.length ≤ bs.length := by
    intro as bs ha h
    by_contra hlen
    obtain ⟨n, hn⟩ := ha.some_of_last (i := as.length - 1) (by omega)
    have hi := h (as.length - 1)
    rw [hn, getElem?_eq_none (by omega)] at hi
    cases hi
  refine ext_getElem (Nat.le_antisymm (hle ha h) (hle hb fun i => (h i).symm)) ?_
  intro i h1 h2
  have hi := h i
  rw [getElem?_eq_getElem h1, getElem?_eq_getElem h2] at hi
  exact hi

theorem tight_of_whole (h : ∀ x ∈ inputs, x.isSome = true) :
    Tight inputs := by
  intro i hi
  have := h none (mem_of_getElem? hi)
  cases this

theorem join_trimInputs (inputs : List (Option NodeId)) (i : Nat) :
    ((trimInputs inputs)[i]?).join = (inputs[i]?).join := by
  induction inputs using List.reverseRecOn with
  | nil => rfl
  | append_singleton xs x ih =>
    unfold trimInputs at ih ⊢
    rw [reverse_append, reverse_singleton, singleton_append]
    cases x with
    | some n => rw [dropWhile_cons_of_neg (by simp), reverse_cons, reverse_reverse]
    | none =>
      rw [dropWhile_cons_of_pos rfl, ih]
      by_cases hi : i < xs.length
      · rw [getElem?_append_left hi]
      · rw [getElem?_eq_none (Nat.le_of_not_lt hi),
          getElem?_append_right (Nat.le_of_not_lt hi)]
        cases i - xs.length <;> rfl

theorem tight_trimInputs (inputs : List (Option NodeId)) : Tight (trimInputs inputs) := by
  induction inputs using List.reverseRecOn with
  | nil =>
    intro i hi
    simp [trimInputs] at hi
  | append_singleton xs x ih =>
    unfold trimInputs at ih ⊢
    rw [reverse_append, reverse_singleton, singleton_append]
    cases x with
    | none => rwa [dropWhile_cons_of_pos rfl]
    | some n =>
      rw [dropWhile_cons_of_neg (by simp), reverse_cons, reverse_reverse]
      intro i hi
      by_contra hlast
      rw [length_append, length_singleton] at hlast
      rw [getElem?_append_right (by omega)] at hi
      cases hj : i - xs.length with
      | zero =>
        rw [hj] at hi
        cases hi
      | succ j =>
        rw [hj] at hi
        cases hi

/-- The list in which a place is filled, with missing inputs before it if it is far away. -/
def filled (inputs : List (Option NodeId)) (i : Nat) (t : NodeId) : List (Option NodeId) :=
  (inputs ++ List.replicate (i + 1 - inputs.length) none).set i (some t)

theorem join_filled (inputs : List (Option NodeId)) (i j : Nat) (t : NodeId) :
    ((filled inputs i t)[j]?).join = if j = i then some t else (inputs[j]?).join := by
  unfold filled
  rw [getElem?_set]
  by_cases hji : i = j
  · subst hji
    have hlen : i < (inputs ++ List.replicate (i + 1 - inputs.length) none).length := by
      rw [length_append, length_replicate]
      omega
    rw [if_pos rfl, if_pos hlen, if_pos rfl]
    rfl
  · rw [if_neg hji, if_neg (Ne.symm hji)]
    by_cases hj : j < inputs.length
    · rw [getElem?_append_left hj]
    · rw [getElem?_append_right (Nat.le_of_not_lt hj), getElem?_replicate,
        getElem?_eq_none (Nat.le_of_not_lt hj)]
      split <;> rfl

theorem Tight.filled (h : Tight inputs) (i : Nat) (t : NodeId) :
    Tight (filled inputs i t) := by
  intro j hj
  unfold Graph.filled at hj ⊢
  rw [length_set, length_append, length_replicate]
  rw [getElem?_set] at hj
  split at hj
  · split at hj <;> cases hj
  next hij =>
    by_cases hlt : j < inputs.length
    · rw [getElem?_append_left hlt] at hj
      have := h j hj
      omega
    · rw [getElem?_append_right (Nat.le_of_not_lt hlt), getElem?_replicate] at hj
      split at hj
      · omega
      · cases hj

/-! ## One change -/

/-- Two stores that differ only in what one source has in one role. -/
structure Edited (s s' : Store) (w : Owner) (r : Role) (x : Option NodeId) : Prop where
  nodes : s'.nodes.size = s.nodes.size
  graphs : s'.graphs.size = s.graphs.size
  node : ∀ m, s'.node m =
    { s.node m with fn := (s'.node m).fn, inputs := (s'.node m).inputs }
  graph : ∀ g, s'.graph g = { s.graph g with output := (s'.graph g).output }
  inRole : ∀ w' r', s'.inRole w' r' = if w' = w ∧ r' = r then x else s.inRole w' r'
  tight : ∀ m, Tight (s.node m).inputs → Tight (s'.node m).inputs

theorem edited_fn (x : Option NodeId) (hm : m < s.nodes.size) :
    Edited s (s.modifyNode m fun y => { y with fn := x }) (.node m) .fn x where
  nodes := by simp
  graphs := by simp
  node k := by
    rw [node_modifyNode]
    split <;> rfl
  graph g := rfl
  inRole w' r' := by
    cases w' with
    | graph g => simp
    | node k =>
      simp only [inRole_node, node_modifyNode]
      by_cases hk : m = k
      · subst hk
        cases r' <;> simp [Node.inRole, hm]
      · simp [hk, Ne.symm hk]
  tight k hk := by
    rw [node_modifyNode]
    split <;> exact hk

theorem edited_input {x : Option NodeId} (hm : m < s.nodes.size)
    (hjoin : ∀ j, (inputs[j]?).join = if j = i then x else ((s.node m).inputs[j]?).join)
    (htight : Tight (s.node m).inputs → Tight inputs) :
    Edited s (s.modifyNode m fun y => { y with inputs }) (.node m) (.input i) x where
  nodes := by simp
  graphs := by simp
  node k := by
    rw [node_modifyNode]
    split <;> rfl
  graph g := rfl
  inRole w' r' := by
    cases w' with
    | graph g => simp
    | node k =>
      simp only [inRole_node, node_modifyNode]
      by_cases hk : m = k
      · subst hk
        cases r' with
        | input j =>
          simp only [Node.inRole, hm, and_self, if_true, hjoin, true_and, Role.input.injEq]
          by_cases hj : 0 ≤ j
          · rw [if_pos hj]
            by_cases hji : j = i
            · simp [hji]
            · rw [if_neg (by omega), if_neg hji, if_pos hj]
          · rw [if_neg hj, if_neg (by omega), if_neg hj]
        | fn | output | other => simp [Node.inRole, hm]
      · simp [hk, Ne.symm hk]
  tight k hk := by
    rw [node_modifyNode]
    split
    next h =>
      rw [← h.1] at hk
      exact htight hk
    · exact hk

theorem edited_output (x : Option NodeId) (hg : g < s.graphs.size) :
    Edited s (s.modifyGraph g fun y => { y with output := x }) (.graph g) .output x where
  nodes := by simp
  graphs := by simp
  node k := rfl
  graph h := by
    rw [graph_modifyGraph]
    split <;> rfl
  inRole w' r' := by
    cases w' with
    | node k => simp
    | graph h =>
      simp only [inRole_graph, graph_modifyGraph]
      by_cases hh : g = h
      · subst hh
        by_cases hr : r' = .output <;> simp [hr, hg]
      · simp [hh, Ne.symm hh]
  tight k hk := hk

def Owner.There (s : Store) : Owner → Prop
  | .node m => m < s.nodes.size
  | .graph g => g < s.graphs.size

theorem Owner.there_of_inRole (h : s.inRole w r = some n) : w.There s := by
  cases w with
  | node m => exact lt_size_of_inRole h
  | graph g =>
    rw [inRole_graph] at h
    split at h
    · exact lt_size_of_output h
    · cases h

theorem position?_natCast {k : Nat} (h : i < k) : position? k i = some i := by
  unfold position?
  rw [if_pos (Int.natCast_nonneg i), if_pos (by omega), Int.toNat_natCast]

theorem attach_of_free (hgives : w.Gives r) (hthere : w.There s) (hfree : s.inRole w r = none)
    (t : NodeId) : ∃ s', s.attach w t r = .ok s' ∧ Edited s s' w r (some t) := by
  cases w with
  | node m =>
    cases r with
    | fn =>
      have hfn : (s.node m).fn.isSome = false := by
        rw [show (s.node m).fn = none from hfree]
        rfl
      refine ⟨_, ?_, edited_fn (some t) hthere⟩
      simp only [Store.attach, hfn]
      rfl
    | input j =>
      obtain ⟨i, rfl⟩ := Int.eq_ofNat_of_zero_le hgives
      have hlen : i < ((s.node m).inputs ++
          List.replicate (i + 1 - (s.node m).inputs.length) none).length := by
        rw [length_append, length_replicate]
        omega
      have hlist : (if ((s.node m).inputs.length : Int) ≤ i then
            (s.node m).inputs ++ List.replicate ((i : Int) - (s.node m).inputs.length + 1).toNat none
          else (s.node m).inputs) =
          (s.node m).inputs ++ List.replicate (i + 1 - (s.node m).inputs.length) none := by
        split
        next h => rw [show ((i : Int) - (s.node m).inputs.length + 1).toNat =
            i + 1 - (s.node m).inputs.length by omega]
        next h => rw [show i + 1 - (s.node m).inputs.length = 0 by omega]; simp
      have hnone : (((s.node m).inputs ++
          List.replicate (i + 1 - (s.node m).inputs.length) none).getD i none).isSome = false := by
        rw [inRole_node, Node.inRole_input] at hfree
        rw [getD_eq_getElem?_getD]
        by_cases hi : i < (s.node m).inputs.length
        · rw [getElem?_append_left hi]
          rw [getElem?_eq_getElem hi] at hfree ⊢
          rw [show (s.node m).inputs[i] = none from hfree]
          rfl
        · rw [getElem?_append_right (Nat.le_of_not_lt hi), getElem?_replicate]
          split <;> rfl
      refine ⟨_, ?_, edited_input hthere (join_filled (s.node m).inputs i · t) (·.filled i t)⟩
      simp only [Store.attach]
      rw [hlist, position?_natCast hlen]
      simp only [hnone]
      rfl
    | output | other => exact hgives.elim
  | graph g =>
    cases r with
    | output =>
      have hout : (s.graph g).output.isSome = false := by
        rw [show (s.graph g).output = none from hfree]
        rfl
      refine ⟨_, ?_, edited_output (some t) hthere⟩
      simp only [Store.attach, hout]
      rfl
    | fn | input | other => exact hgives.elim

theorem detach_of_held (h : s.inRole w r = some n) :
    ∃ s', s.detach w n r = .ok s' ∧ Edited s s' w r none := by
  have hgives := Owner.gives_of_inRole h
  have hthere := Owner.there_of_inRole h
  cases w with
  | node m =>
    cases r with
    | fn =>
      refine ⟨_, ?_, edited_fn none hthere⟩
      simp only [detach]
      rw [if_pos (show (s.node m).fn = some n from h)]
      rfl
    | input j =>
      obtain ⟨i, rfl⟩ := Int.eq_ofNat_of_zero_le hgives
      rw [inRole_node, Node.inRole_input, Option.join_eq_some_iff] at h
      have hi : i < (s.node m).inputs.length := (List.getElem?_eq_some_iff.mp h).1
      have hjoin : ∀ j : Nat, ((trimInputs ((s.node m).inputs.set i none))[j]?).join =
          if j = i then none else ((s.node m).inputs[j]?).join := by
        intro j
        rw [join_trimInputs, getElem?_set]
        by_cases hij : i = j
        · rw [if_pos hij, if_pos hij.symm, if_pos hi]
          rfl
        · rw [if_neg hij, if_neg (Ne.symm hij)]
      refine ⟨_, ?_, edited_input hthere hjoin fun _ => tight_trimInputs _⟩
      simp only [detach]
      rw [position?_natCast hi]
      simp only
      rw [getD_eq_getElem?_getD, h, Option.getD_some, if_pos rfl]
      rfl
    | output | other => exact hgives.elim
  | graph g =>
    cases r with
    | output =>
      refine ⟨_, ?_, edited_output none hthere⟩
      simp only [detach]
      rw [if_pos (show (s.graph g).output = some n from h)]
      rfl
    | fn | input | other => exact hgives.elim

end DiffLang.Graph
