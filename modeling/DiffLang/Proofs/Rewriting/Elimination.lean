import DiffLang.Proofs.Graph.Duality
import DiffLang.Proofs.Rewriting.Termination

/-!
# Eliminating what is not used

A node that nothing uses gives up its edges, and then the node at each of these edges is looked at in
turn. What is eliminated in this way is said without the program by `Dead`. The elimination fails if a
computation is looked at once more when its edges are given up already. That takes a node with two
edges that lead to one computation, where the later edge does so directly; a store without such nodes
among the dead ones is `Orderly`.

Main statement: `users_of_eliminate`.
-/

namespace DiffLang.Graph

open Run List

/-- The nodes that are not used any more when `n` is gone. -/
inductive Dead (s : Store) (n : NodeId) : NodeId → Prop
  | root : Dead s n n
  | part {x : NodeId} (hused : (s.node x).users ≠ [])
      (hgraph : ∀ r g, (r, Owner.graph g) ∉ (s.node x).users)
      (hnode : ∀ r m, (r, Owner.node m) ∈ (s.node x).users → Dead s n m) : Dead s n x

/-- The second edge does not end at a dead computation that the first one leads to. -/
def InTurn (s : Store) (n : NodeId) (e e' : Role × NodeId) : Prop :=
  Dead s n e'.2 → (s.node e'.2).edges ≠ [] → ¬ Reaches s e.2 e'.2

/-- No dead computation is looked at again. -/
def Orderly (s : Store) (n : NodeId) : Prop :=
  ∀ m, Dead s n m → (s.node m).edges.Pairwise (InTurn s n)

variable {s0 s : Store} {m n x y : NodeId} {g : GraphId} {D : NodeId → Prop}

theorem Dual.needs_iff (hd : Dual s) : Needs s m x ↔ ∃ r, (r, Owner.node m) ∈ (s.node x).users := by
  rw [needs_iff_inRole]
  exact exists_congr fun r => hd.edges.symm

open Classical in
noncomputable def below (s : Store) (x : NodeId) : Finset NodeId :=
  (Finset.range s.nodes.size).filter (Reaches s x)

namespace Equilibrium

/-! ## Runs -/

/-- The nodes `D`, which are dead, have given up their edges. All that is dead and not used any more
is among them, or is still to be looked at. -/
structure Gone (s0 : Store) (n : NodeId) (D : NodeId → Prop) (xs : List NodeId) (s : Store) : Prop where
  same : SameEdges s0 s
  users : ∀ x u, u ∈ (s.node x).users ↔ u ∈ (s0.node x).users ∧ ∀ m, u.2 = .node m → ¬ D m
  nodup : ∀ x, (s.node x).users.Nodup
  dead : ∀ m, D m → Dead s0 n m
  unused : ∀ m, D m → (s.node m).users = []
  rest : ∀ x, Dead s0 n x → (s.node x).users = [] → D x ∨ x ∈ xs

variable {xs : List NodeId} {o : Option Origin} {σ : Session} {fuel : Nat}

theorem Gone.edges (h : Gone s0 n D xs s) (x : NodeId) : (s.node x).edges = (s0.node x).edges := by
  rw [h.same.node x]
  rfl

theorem Gone.listed (hd : Dual s0) (h : Gone s0 n D xs s) (hfirst : D x → (s0.node x).edges = [])
    {e : Role × NodeId} (he : e ∈ (s0.node x).edges) : (e.1, Owner.node x) ∈ (s.node e.2).users := by
  refine (h.users _ _).mpr ⟨hd.edges.mpr (Node.mem_edges_iff.mp he), fun m hm hD => ?_⟩
  cases hm
  rw [hfirst hD] at he
  cases he

end Equilibrium

end DiffLang.Graph
