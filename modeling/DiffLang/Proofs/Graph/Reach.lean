import DiffLang.Graph.Store
import Mathlib.Data.Fintype.EquivFin
import Mathlib.Data.List.Nodup
import Mathlib.Logic.Relation

/-!
# What a node needs

A node needs its function and its inputs, and reaches whatever these need in turn. A graph is well
formed when what its output reaches is there, has no cycle, is either computed from nodes that are
all there, known, or an input of the graph, and when the users of its computations are known and lie
inside of it.
-/

open Relation (ReflTransGen TransGen)

namespace DiffLang.Graph

open List

def Needs (s : Store) (m n : NodeId) : Prop := n ∈ (s.node m).successors

abbrev Reaches (s : Store) : NodeId → NodeId → Prop := ReflTransGen (Needs s)

def Computed (s : Store) (out n : NodeId) : Prop :=
  Reaches s out n ∧ (s.node n).isComputation = true

structure WellFormed (s : Store) (g : GraphId) (out : NodeId) : Prop where
  there : ∀ n, Reaches s out n → n < s.nodes.size
  acyclic : ∀ n, Reaches s out n → ¬ TransGen (Needs s) n n
  whole : ∀ n, Reaches s out n → ∀ x ∈ (s.node n).inputs, x.isSome = true
  bare : ∀ n, Reaches s out n → (s.node n).isComputation = false → (s.node n).inputs = []
  /-- What is neither computed nor known is an input of the graph. -/
  given : ∀ n, Reaches s out n → (s.node n).isInput = true → n ∈ (s.graph g).inputs
  listed : ∀ n, Computed s out n →
    ∀ r m, (r, Owner.node m) ∈ (s.node n).users ↔ (r, n) ∈ (s.node m).edges
  used : ∀ n, Computed s out n → ∀ r w, (r, w) ∈ (s.node n).users →
    (∃ m, w = .node m ∧ Reaches s out m) ∨ (w = .graph g ∧ n = out)

theorem nodup_eraseDups {α : Type} [BEq α] [LawfulBEq α] : ∀ l : List α, l.eraseDups.Nodup
  | [] => by simp
  | a :: l => by
    rw [eraseDups_cons, nodup_cons]
    refine ⟨fun h => ?_, nodup_eraseDups _⟩
    rw [mem_eraseDups, mem_filter] at h
    simp at h
termination_by l => l.length
decreasing_by
  exact Nat.lt_succ_of_le (length_filter_le _ _)

theorem length_eraseDups_le {α : Type} [BEq α] : ∀ l : List α, l.eraseDups.length ≤ l.length
  | [] => by simp
  | a :: l => by
    rw [eraseDups_cons, length_cons, length_cons]
    exact Nat.succ_le_succ (Nat.le_trans (length_eraseDups_le _) (length_filter_le _ _))
termination_by l => l.length
decreasing_by
  exact Nat.lt_succ_of_le (length_filter_le _ _)

variable {s : Store} {g : GraphId} {out m n : NodeId}

theorem needs_iff : Needs s m n ↔ ∃ r, (r, n) ∈ (s.node m).edges := by
  unfold Needs Node.successors
  rw [mem_eraseDups, mem_map]
  constructor
  · rintro ⟨⟨r, x⟩, hx, rfl⟩
    exact ⟨r, hx⟩
  · rintro ⟨r, hr⟩
    exact ⟨(r, n), hr, rfl⟩

theorem mem_predecessors_iff {w : Owner} :
    w ∈ (s.node n).predecessors ↔ ∃ r, (r, w) ∈ (s.node n).users := by
  unfold Node.predecessors
  rw [mem_eraseDups, mem_map]
  constructor
  · rintro ⟨⟨r, x⟩, hx, rfl⟩
    exact ⟨r, hx⟩
  · rintro ⟨r, hr⟩
    exact ⟨(r, w), hr, rfl⟩

theorem Needs.lt_size (h : Needs s m n) : m < s.nodes.size := by
  by_contra hm
  have hnode : s.node m = default := by
    unfold Store.node
    rw [Array.getD_eq_getD_getElem?, Array.getElem?_eq_none (Nat.le_of_not_lt hm)]
    rfl
  rw [Needs, hnode] at h
  exact absurd h not_mem_nil

theorem WellFormed.computed_of_needs (h : WellFormed s g out) (hm : Reaches s out m)
    (hn : Needs s m n) : Computed s out m := by
  refine ⟨hm, ?_⟩
  by_contra hc
  rw [Bool.not_eq_true] at hc
  have hfn : (s.node m).fn = none := by simpa [Node.isComputation] using hc
  obtain ⟨r, hr⟩ := needs_iff.mp hn
  simp [Node.edges, hfn, h.bare m hm hc] at hr

theorem needs_of_application {parts : List (Option NodeId)}
    (h : (s.node m).application? = some parts) (hn : some n ∈ parts) : Needs s m n := by
  unfold Node.application? at h
  rw [Option.map_eq_some_iff] at h
  obtain ⟨f, hf, rfl⟩ := h
  rw [needs_iff]
  unfold Node.edges
  rw [hf]
  rcases mem_cons.mp hn with hn | hn
  · injection hn with hn
    exact ⟨.fn, by simp [hn]⟩
  · obtain ⟨i, hi, hget⟩ := getElem_of_mem hn
    refine ⟨.input i, mem_append_right _ ?_⟩
    rw [mem_filterMap]
    exact ⟨(some n, i), mem_zipIdx_iff_getElem?.mpr (by simp [hi, hget]), rfl⟩

theorem WellFormed.application_of_needs (h : WellFormed s g out) (hm : Reaches s out m)
    (hn : Needs s m n) : ∃ parts, (s.node m).application? = some parts ∧ some n ∈ parts := by
  have hc := (h.computed_of_needs hm hn).2
  obtain ⟨f, hf⟩ := Option.isSome_iff_exists.mp (show (s.node m).fn.isSome = true from hc)
  refine ⟨some f :: (s.node m).inputs, by rw [Node.application?, hf]; rfl, ?_⟩
  obtain ⟨r, hr⟩ := needs_iff.mp hn
  unfold Node.edges at hr
  rw [hf] at hr
  rcases mem_append.mp hr with hr | hr
  · rw [mem_singleton] at hr
    injection hr with _ hr
    rw [hr]
    exact mem_cons_self ..
  · rw [mem_filterMap] at hr
    obtain ⟨⟨x, i⟩, hx, hr⟩ := hr
    obtain ⟨y, rfl, hy⟩ := Option.map_eq_some_iff.mp hr
    injection hy with _ hy
    rw [← hy]
    refine mem_cons_of_mem _ (mem_of_getElem? (mem_zipIdx_iff_getElem?.mp hx))

/-- A graph is well formed if a list of nodes, each of which needs only older ones, passes all
checks. -/
theorem WellFormed.of_members (ns : List NodeId) (hout : out ∈ ns)
    (hclosed : ∀ n ∈ ns, n < s.nodes.size ∧ ∀ m ∈ (s.node n).successors, m ∈ ns ∧ m < n)
    (hparts : ∀ n ∈ ns, (∀ x ∈ (s.node n).inputs, x.isSome = true) ∧
      ((s.node n).isComputation = false → (s.node n).inputs = []) ∧
      ((s.node n).isInput = true → n ∈ (s.graph g).inputs))
    (husers : ∀ n ∈ ns, (s.node n).isComputation = true → ∀ u ∈ (s.node n).users,
      (∃ m ∈ ns, u.2 = .node m ∧ (u.1, n) ∈ (s.node m).edges) ∨ (u.2 = .graph g ∧ n = out))
    (hedges : ∀ m < s.nodes.size, ∀ e ∈ (s.node m).edges, e.2 ∈ ns →
      (e.1, .node m) ∈ (s.node e.2).users)
    (hneeded : ∀ n ∈ ns, n = out ∨ ∃ m ∈ ns, n ∈ (s.node m).successors) :
    WellFormed s g out := by
  have hmem : ∀ n, Reaches s out n → n ∈ ns := by
    intro n hn
    induction hn with
    | refl => exact hout
    | tail _ hab ih => exact ((hclosed _ ih).2 _ hab).1
  have hless : ∀ a b, Reaches s out a → TransGen (Needs s) a b → b < a := by
    intro a b ha hab
    induction hab with
    | single h => exact ((hclosed a (hmem a ha)).2 _ h).2
    | @tail b c hab hbc ih =>
      have hb := hmem b (ha.trans hab.to_reflTransGen)
      exact Nat.lt_trans ((hclosed b hb).2 c hbc).2 ih
  -- every node is needed by a newer one, up to the output
  have hall : ∀ k n, n ∈ ns → s.nodes.size - n = k → Reaches s out n := by
    intro k
    induction k using Nat.strong_induction_on with
    | _ k ih =>
      intro n hn hk
      rcases hneeded n hn with rfl | ⟨m, hm, hnm⟩
      · exact .refl
      · have hlt := ((hclosed m hm).2 n hnm).2
        have hsize := hlt.trans (hclosed m hm).1
        have hless : s.nodes.size - m < k := by
          rw [← hk]
          exact Nat.sub_lt_sub_left hsize hlt
        exact (ih _ hless m hm rfl).tail hnm
  refine ⟨fun n hn => (hclosed n (hmem n hn)).1, fun n hn h => Nat.lt_irrefl n (hless n n hn h),
    fun n hn => (hparts n (hmem n hn)).1, fun n hn => (hparts n (hmem n hn)).2.1,
    fun n hn => (hparts n (hmem n hn)).2.2, fun n hn r m => ⟨fun h => ?_, fun h => ?_⟩,
    fun n hn r w h => ?_⟩
  · rcases husers n (hmem n hn.1) hn.2 _ h with ⟨k, _, hk, he⟩ | ⟨hk, _⟩
    · injection hk with hk
      rw [hk]
      exact he
    · cases hk
  · exact hedges m (Needs.lt_size (needs_iff.mpr ⟨r, h⟩)) _ h (hmem n hn.1)
  · rcases husers n (hmem n hn.1) hn.2 _ h with ⟨k, hk, hw, _⟩ | hw
    · exact .inl ⟨k, hw, hall _ k hk rfl⟩
    · exact .inr hw

/-- From a node of a well-formed graph there is only a finite way back to its output. -/
theorem WellFormed.wellFounded (h : WellFormed s g out) :
    WellFounded fun a b : {n : NodeId // Reaches s out n} => TransGen (Needs s) a.1 b.1 := by
  have hfinite : Finite {n : NodeId // Reaches s out n} := by
    refine Finite.of_injective (fun a => (⟨a.1, h.there a.1 a.2⟩ : Fin s.nodes.size)) ?_
    intro a b hab
    exact Subtype.ext (Fin.mk.inj hab)
  have htrans : IsTrans {n : NodeId // Reaches s out n} fun a b => TransGen (Needs s) a.1 b.1 :=
    ⟨fun _ _ _ => TransGen.trans⟩
  have hirrefl : Std.Irrefl fun a b : {n : NodeId // Reaches s out n} =>
      TransGen (Needs s) a.1 b.1 :=
    ⟨fun a => h.acyclic a.1 a.2⟩
  exact Finite.wellFounded_of_trans_of_irrefl _

end DiffLang.Graph
