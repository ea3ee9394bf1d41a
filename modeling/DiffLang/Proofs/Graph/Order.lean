import DiffLang.Graph.Copy
import DiffLang.Proofs.Graph.Reach
import Mathlib.Algebra.GroupWithZero.Nat
import Mathlib.Algebra.Order.BigOperators.Group.List
import Mathlib.Algebra.Order.Group.Nat

/-!
# Nodes in order

Putting the nodes of a graph in order takes a node once all its users are taken. In a well-formed
graph this takes every computation that the output reaches, each once, its users before it; so that
read backwards, every computation comes after those it needs.

Main statement: `inOrder_spec`.
-/

open Relation (ReflTransGen TransGen)

namespace DiffLang.Graph

open Session List

/-- In a list, latest first, every node comes after all its users. -/
def UsersFirst (s : Store) : List NodeId → Prop
  | [] => True
  | n :: older => (∀ m, Needs s m n → m ∈ older) ∧ UsersFirst s older

/-- The users of a node that count as done: for the nodes that still have to be told about the
latest one, those before it. -/
def seen (before pending : List NodeId) (o : Ordering) (n : NodeId) : List NodeId :=
  if n ∈ pending then before else o.done

/-- What holds while nodes are put in order. The nodes of `pending` have not yet been told that the
latest node is done. -/
structure Sorting (s : Store) (out : NodeId) (before pending : List NodeId) (o : Ordering) :
    Prop where
  taken : ∀ n ∈ o.done, Computed s out n
  reached : ∀ n ∈ o.ready, Reaches s out n
  nodup : (o.done ++ o.ready.filter fun n => (s.node n).isComputation).Nodup
  first : ∀ n, Computed s out n → n ∈ o.done ∨ n ∈ o.ready → ∀ m, Needs s m n → m ∈ o.done
  waits : ∀ n us, Computed s out n → o.waiting.lookup n = some us →
    us.Nodup ∧ ∀ w, w ∈ us ↔
      w ∈ (s.node n).predecessors ∧ ∀ m, w = .node m → m ∉ seen before pending o n
  fresh : ∀ n, Computed s out n → o.waiting.lookup n = none →
    ∀ m ∈ seen before pending o n, ¬ Needs s m n
  all : ∀ n, Computed s out n → n ≠ out → n ∉ pending → (∀ m, Needs s m n → m ∈ o.done) →
    n ∈ o.done ∨ n ∈ o.ready
  later : ∀ n ∈ pending, Computed s out n → n ∉ o.done ∧ n ∉ o.ready
  sorted : UsersFirst s o.done
  output : out ∈ o.done ∨ out ∈ o.ready

variable {s : Store} {g : GraphId} {out : NodeId} {o : Ordering} {before pending : List NodeId}

variable {n x : NodeId}

theorem WellFormed.mem_predecessors (h : WellFormed s g out) {m : NodeId}
    (hn : Computed s out n) : Owner.node m ∈ (s.node n).predecessors ↔ Needs s m n := by
  rw [mem_predecessors_iff, needs_iff]
  exact exists_congr fun r => h.listed n hn r m

theorem seen_cons_of_ne (h : n ≠ x) :
    seen before (x :: pending) o n = seen before pending o n := by
  unfold seen
  simp [h]

theorem Sorting.nodup_users (h : Sorting s out before pending o)
    (hx : Computed s out x) (n : NodeId) :
    (((o.waiting.lookup x).getD (s.node x).predecessors).erase (.node n)).Nodup := by
  refine List.Nodup.erase _ ?_
  cases hl : o.waiting.lookup x with
  | some us => exact (h.waits x us hx hl).1
  | none => exact nodup_eraseDups _

/-- The users of a node that are not done, once the latest one has told it. -/
theorem Sorting.mem_users (hw : WellFormed s g out) (h : Sorting s out before (x :: pending) o)
    (hdone : o.done = n :: before) (hx : Computed s out x) :
    ∀ w, w ∈ ((o.waiting.lookup x).getD (s.node x).predecessors).erase (.node n) ↔
      w ∈ (s.node x).predecessors ∧ ∀ m, w = .node m → m ∉ o.done := by
  have hseen : seen before (x :: pending) o x = before := by
    unfold seen
    simp
  have hus : ((o.waiting.lookup x).getD (s.node x).predecessors).Nodup ∧
      ∀ w, w ∈ (o.waiting.lookup x).getD (s.node x).predecessors ↔
        w ∈ (s.node x).predecessors ∧ ∀ m, w = .node m → m ∉ before := by
    cases hl : o.waiting.lookup x with
    | some us =>
      have := h.waits x us hx hl
      rwa [hseen] at this
    | none =>
      have hfresh := h.fresh x hx hl
      rw [hseen] at hfresh
      refine ⟨nodup_eraseDups _, fun w => ⟨fun hw' => ⟨hw', ?_⟩, fun hw' => hw'.1⟩⟩
      rintro m rfl hm
      exact hfresh m hm ((hw.mem_predecessors hx).mp hw')
  intro w
  rw [hus.1.mem_erase_iff, hus.2 w, hdone]
  constructor
  · rintro ⟨hne, hp, hb⟩
    refine ⟨hp, fun m hm hmem => ?_⟩
    rcases mem_cons.mp hmem with rfl | hmem
    · exact hne hm
    · exact hb m hm hmem
  · rintro ⟨hp, hb⟩
    exact ⟨fun hwn => hb n hwn (mem_cons_self ..), hp,
      fun m hm hmem => hb m hm (mem_cons_of_mem _ hmem)⟩

theorem Sorting.release (hw : WellFormed s g out) (h : Sorting s out before (x :: pending) o)
    (hdone : o.done = n :: before) (hneeds : Needs s n x) (hx : x ∉ pending) :
    Sorting s out before pending (release s n o x) := by
  have hn : Reaches s out n := (h.taken n (by rw [hdone]; exact mem_cons_self ..)).1
  have hxr : Reaches s out x := hn.tail hneeds
  have hxout : x ≠ out := by
    rintro rfl
    exact hw.acyclic x hxr (.tail' hn hneeds)
  have hlookup : ∀ k, (Graph.release s n o x).waiting.lookup k =
      if k == x then some (((o.waiting.lookup x).getD (s.node x).predecessors).erase (.node n))
      else o.waiting.lookup k := fun k => lookup_put x k _ _
  have hready : ∀ k, k ∈ (Graph.release s n o x).ready ↔ k ∈ o.ready ∨ k = x ∧
      ((o.waiting.lookup x).getD (s.node x).predecessors).erase (.node n) = [] := by
    intro k
    unfold Graph.release
    dsimp only
    split
    next he => simp [List.isEmpty_iff.mp he]
    next he => simp [List.isEmpty_iff.not.mp he]
  have hempty : Computed s out x →
      (((o.waiting.lookup x).getD (s.node x).predecessors).erase (.node n) = [] ↔
        ∀ m, Needs s m x → m ∈ o.done) := by
    intro hc
    have hmem := h.mem_users hw hdone hc
    constructor
    · intro he m hm
      by_contra hmd
      have : Owner.node m ∈ ((o.waiting.lookup x).getD (s.node x).predecessors).erase (.node n) :=
        (hmem _).mpr ⟨(hw.mem_predecessors hc).mpr hm, fun k hk => by
          injection hk with hk
          rwa [← hk]⟩
      rw [he] at this
      exact absurd this not_mem_nil
    · intro hall
      refine eq_nil_iff_forall_not_mem.mpr fun w hwu => ?_
      obtain ⟨hp, hnd⟩ := (hmem w).mp hwu
      obtain ⟨r, hr⟩ := mem_predecessors_iff.mp hp
      rcases hw.used x hc r w hr with ⟨m, rfl, _⟩ | ⟨_, hxo⟩
      · exact hnd m rfl (hall m ((hw.mem_predecessors hc).mp hp))
      · exact hxout hxo
  have hnew : Computed s out x → x ∉ o.done ∧ x ∉ o.ready := h.later x (mem_cons_self ..)
  refine ⟨h.taken, ?_, ?_, ?_, ?_, ?_, ?_, ?_, h.sorted, ?_⟩
  · intro k hk
    rcases (hready k).mp hk with hk | ⟨rfl, _⟩
    · exact h.reached k hk
    · exact hxr
  · have hdone' : (Graph.release s n o x).done = o.done := rfl
    rw [hdone']
    unfold Graph.release
    dsimp only
    split
    · rw [filter_append, ← append_assoc, nodup_append]
      refine ⟨h.nodup, ?_, fun a ha b hb => ?_⟩
      · exact (nodup_singleton x).filter _
      · rintro rfl
        rw [mem_filter, mem_singleton] at hb
        obtain ⟨rfl, hcomp⟩ := hb
        obtain ⟨hd, hr⟩ := hnew ⟨hxr, hcomp⟩
        rcases mem_append.mp ha with ha | ha
        · exact hd ha
        · exact hr (mem_filter.mp ha).1
    · exact h.nodup
  · intro k hc hk m hm
    rcases hk with hk | hk
    · exact h.first k hc (.inl hk) m hm
    · rcases (hready k).mp hk with hk | ⟨rfl, he⟩
      · exact h.first k hc (.inr hk) m hm
      · exact (hempty hc).mp he m hm
  · intro k us hc hl
    rw [hlookup] at hl
    by_cases hkx : k = x
    · subst hkx
      rw [if_pos (by simp)] at hl
      injection hl with hl
      subst hl
      have hseen : seen before pending (Graph.release s n o k) k = o.done := by
        unfold seen
        rw [if_neg hx]
        rfl
      rw [hseen]
      exact ⟨h.nodup_users hc n, h.mem_users hw hdone hc⟩
    · rw [if_neg (by simpa using hkx)] at hl
      have := h.waits k us hc hl
      rwa [seen_cons_of_ne hkx] at this
  · intro k hc hl
    rw [hlookup] at hl
    by_cases hkx : k = x
    · subst hkx
      rw [if_pos (by simp)] at hl
      cases hl
    · rw [if_neg (by simpa using hkx)] at hl
      have := h.fresh k hc hl
      rwa [seen_cons_of_ne hkx] at this
  · intro k hc hko hkp hall
    by_cases hkx : k = x
    · subst hkx
      exact .inr ((hready k).mpr (.inr ⟨rfl, (hempty hc).mpr hall⟩))
    · have hkp' : k ∉ x :: pending := fun hk => (mem_cons.mp hk).elim hkx hkp
      exact (h.all k hc hko hkp' hall).imp_right fun hk => (hready k).mpr (.inl hk)
  · intro k hk hc
    have hkx : k ≠ x := by
      rintro rfl
      exact hx hk
    obtain ⟨hd, hr⟩ := h.later k (mem_cons_of_mem _ hk) hc
    refine ⟨hd, fun hk' => ?_⟩
    rcases (hready k).mp hk' with hk' | ⟨hkx', _⟩
    · exact hr hk'
    · exact hkx hkx'
  · exact h.output.imp_right fun hk => (hready out).mpr (.inl hk)

theorem Sorting.releaseAll (hw : WellFormed s g out) :
    ∀ (pending : List NodeId) {o : Ordering}, Sorting s out before pending o →
      o.done = n :: before → (∀ x ∈ pending, Needs s n x) → pending.Nodup →
      Sorting s out before [] (pending.foldl (Graph.release s n) o) ∧
        (pending.foldl (Graph.release s n) o).done = n :: before ∧
        (pending.foldl (Graph.release s n) o).ready.length ≤ o.ready.length + pending.length
  | [], o, h, hdone, _, _ => ⟨h, hdone, le_rfl⟩
  | x :: rest, o, h, hdone, hneeds, hnodup => by
    have hstep := h.release hw hdone (hneeds x (mem_cons_self ..)) (nodup_cons.mp hnodup).1
    have hlen : (Graph.release s n o x).ready.length ≤ o.ready.length + 1 := by
      unfold Graph.release
      dsimp only
      split <;> simp
    obtain ⟨h1, h2, h3⟩ := Sorting.releaseAll hw rest hstep hdone
      (fun y hy => hneeds y (mem_cons_of_mem _ hy)) (nodup_cons.mp hnodup).2
    refine ⟨h1, h2, ?_⟩
    rw [foldl_cons, length_cons]
    omega

theorem Sorting.take (hw : WellFormed s g out) {rest : List NodeId} (h : Sorting s out before [] o)
    (hready : o.ready = n :: rest) (hcomp : (s.node n).isComputation = true) :
    n ∉ o.done ∧ Sorting s out o.done (s.node n).successors
      { o with ready := rest, done := n :: o.done } := by
  have hnr : Reaches s out n := h.reached n (by rw [hready]; exact mem_cons_self ..)
  have hc : Computed s out n := ⟨hnr, hcomp⟩
  have hnd := h.nodup
  rw [hready, filter_cons, if_pos hcomp] at hnd
  have hfresh : n ∉ o.done := fun hn =>
    disjoint_of_nodup_append hnd hn (mem_cons_self ..)
  have hseen : ∀ k, seen before [] o k = o.done := fun k => by simp [seen]
  have hnseen : ∀ k, ¬ Needs s n k →
      seen o.done (s.node n).successors { o with ready := rest, done := n :: o.done } k =
        n :: o.done := fun k hk => by
    unfold seen
    rw [if_neg (show k ∉ (s.node n).successors from hk)]
  have hyseen : ∀ k, Needs s n k →
      seen o.done (s.node n).successors { o with ready := rest, done := n :: o.done } k =
        o.done := fun k hk => by
    unfold seen
    rw [if_pos (show k ∈ (s.node n).successors from hk)]
  -- nothing that was taken or is ready has the new node as a user
  have hearlier : ∀ k, Needs s n k → Computed s out k → k ∉ o.done ∧ k ∉ o.ready := fun k hk hkc =>
    ⟨fun hd => hfresh (h.first k hkc (.inl hd) n hk),
      fun hr => hfresh (h.first k hkc (.inr hr) n hk)⟩
  refine ⟨hfresh, ?_, ?_, ?_, ?_, ?_, ?_, ?_, ?_, ?_, ?_⟩
  · intro k hk
    rcases mem_cons.mp hk with rfl | hk
    · exact hc
    · exact h.taken k hk
  · intro k hk
    exact h.reached k (by rw [hready]; exact mem_cons_of_mem _ hk)
  · have hperm : (o.done ++ n :: rest.filter fun n => (s.node n).isComputation).Perm
        (n :: o.done ++ rest.filter fun n => (s.node n).isComputation) :=
      perm_middle
    exact hperm.nodup_iff.mp hnd
  · intro k hkc hk m hm
    refine mem_cons_of_mem _ ?_
    rcases hk with hk | hk
    · rcases mem_cons.mp hk with rfl | hk
      · exact h.first k hc (.inr (by rw [hready]; exact mem_cons_self ..)) m hm
      · exact h.first k hkc (.inl hk) m hm
    · exact h.first k hkc (.inr (by rw [hready]; exact mem_cons_of_mem _ hk)) m hm
  · intro k us hkc hl
    obtain ⟨hun, hmem⟩ := h.waits k us hkc hl
    rw [hseen] at hmem
    refine ⟨hun, fun w => ?_⟩
    by_cases hk : Needs s n k
    · rw [hyseen k hk]
      exact hmem w
    · rw [hnseen k hk, hmem w]
      refine and_congr_right fun hp => forall₂_congr fun m hm => ?_
      rw [mem_cons, not_or]
      refine (and_iff_right ?_).symm
      rintro rfl
      rw [hm, hw.mem_predecessors hkc] at hp
      exact hk hp
  · intro k hkc hl m hm
    have hold := h.fresh k hkc hl
    rw [hseen] at hold
    by_cases hk : Needs s n k
    · rw [hyseen k hk] at hm
      exact hold m hm
    · rw [hnseen k hk] at hm
      rcases mem_cons.mp hm with rfl | hm
      · exact hk
      · exact hold m hm
  · intro k hkc hko hkp hall
    have hk : ¬ Needs s n k := hkp
    have hall' : ∀ m, Needs s m k → m ∈ o.done := by
      intro m hm
      rcases mem_cons.mp (hall m hm) with rfl | hmd
      · exact absurd hm hk
      · exact hmd
    rcases h.all k hkc hko (by simp) hall' with hd | hr
    · exact .inl (mem_cons_of_mem _ hd)
    · rw [hready] at hr
      rcases mem_cons.mp hr with rfl | hr
      · exact .inl (mem_cons_self ..)
      · exact .inr hr
  · intro k hk hkc
    obtain ⟨hd, hr⟩ := hearlier k hk hkc
    refine ⟨fun hkd => ?_, fun hkr => hr (by rw [hready]; exact mem_cons_of_mem _ hkr)⟩
    rcases mem_cons.mp hkd with rfl | hkd
    · exact hw.acyclic k hnr (.single hk)
    · exact hd hkd
  · exact ⟨fun m hm => h.first n hc (.inr (by rw [hready]; exact mem_cons_self ..)) m hm,
      h.sorted⟩
  · rcases h.output with hd | hr
    · exact .inl (mem_cons_of_mem _ hd)
    · rw [hready] at hr
      rcases mem_cons.mp hr with rfl | hr
      · exact .inl (mem_cons_self ..)
      · exact .inr hr

theorem Sorting.skip {rest : List NodeId} (h : Sorting s out before [] o)
    (hready : o.ready = n :: rest) (hcomp : ¬ (s.node n).isComputation = true)
    (hout : (s.node out).isComputation = true) :
    Sorting s out before [] { o with ready := rest } := by
  have hrest : ∀ k, Computed s out k → k ∈ o.ready → k ∈ rest := by
    intro k hc hk
    rw [hready] at hk
    rcases mem_cons.mp hk with rfl | hk
    · exact absurd hc.2 hcomp
    · exact hk
  have hmore : ∀ k ∈ rest, k ∈ o.ready := fun k hk => by
    rw [hready]
    exact mem_cons_of_mem _ hk
  refine ⟨h.taken, fun k hk => h.reached k (hmore k hk), ?_, ?_, h.waits, h.fresh, ?_, ?_,
    h.sorted, ?_⟩
  · have := h.nodup
    rwa [hready, filter_cons, if_neg hcomp] at this
  · exact fun k hc hk => h.first k hc (hk.imp_right (hmore k))
  · exact fun k hc hko hkp hall => (h.all k hc hko hkp hall).imp_right (hrest k hc)
  · intro k hk
    cases hk
  · exact h.output.imp_right (hrest out ⟨.refl, hout⟩)

theorem Sorting.complete (hw : WellFormed s g out) (h : Sorting s out before [] o)
    (hready : o.ready = []) : ∀ n, Computed s out n → n ∈ o.done := by
  intro n hc
  -- from the output towards what it needs: the users of a node come before it
  have hwf := hw.wellFounded
  obtain ⟨hr, hcomp⟩ := hc
  induction hn : (⟨n, hr⟩ : {n : NodeId // Reaches s out n}) using hwf.induction generalizing n with
  | _ x ih =>
    subst hn
    by_cases hno : n = out
    · subst hno
      rcases h.output with hd | hr'
      · exact hd
      · rw [hready] at hr'
        cases hr'
    · refine (h.all n ⟨hr, hcomp⟩ hno (by simp) fun m hm => ?_).resolve_right ?_
      · have hmu := (hw.mem_predecessors ⟨hr, hcomp⟩).mpr hm
        obtain ⟨r, hru⟩ := mem_predecessors_iff.mp hmu
        rcases hw.used n ⟨hr, hcomp⟩ r _ hru with ⟨m', hm', hmr⟩ | ⟨hm', _⟩
        · injection hm' with hm'
          subst hm'
          exact ih ⟨m, hmr⟩ (.single hm) m hmr (hw.computed_of_needs hmr hm).2 rfl
        · cases hm'
      · rw [hready]
        exact not_mem_nil

/-! ## Steps enough -/

/-- How many nodes the nodes of a list need, counted with their users. -/
def demand (s : Store) (ns : List NodeId) : Nat := (ns.map fun n => (s.node n).successors.length).sum

theorem demand_range (s : Store) :
    demand s (List.range s.nodes.size) + s.nodes.size + 2 ≤ s.walkFuel := by
  have hsucc : ∀ m : Node, m.successors.length ≤ m.inputs.length + 1 := by
    intro m
    refine Nat.le_trans (length_eraseDups_le _) ?_
    rw [length_map]
    unfold Node.edges
    rw [length_append, Nat.add_comm]
    refine Nat.add_le_add ((length_filterMap_le _ _).trans (by simp)) ?_
    split <;> simp
  have hlist : demand s (List.range s.nodes.size) =
      (s.nodes.toList.map fun m => m.successors.length).sum := by
    unfold demand
    congr 1
    refine ext_getElem (by simp) fun i h1 h2 => ?_
    have hi : i < s.nodes.size := by simpa using h2
    simp [Store.node, Array.getD_eq_getD_getElem?, hi]
  have hfold : ∀ (l : List Node) (a : Nat),
      (l.map fun m => m.successors.length).sum + l.length + a ≤
        l.foldl (fun acc m => acc + m.inputs.length + 2) a := by
    intro l
    induction l with
    | nil => intro a; simp
    | cons m l ih =>
      intro a
      have h1 := ih (a + m.inputs.length + 2)
      have h2 := hsucc m
      rw [foldl_cons, map_cons, sum_cons, length_cons]
      omega
  rw [hlist]
  unfold Store.walkFuel
  rw [← Array.foldl_toList]
  simpa using hfold s.nodes.toList 2

theorem demand_le {ns : List NodeId} (hnodup : ns.Nodup) (hlt : ∀ n ∈ ns, n < s.nodes.size) :
    demand s ns ≤ demand s (List.range s.nodes.size) := by
  obtain ⟨l, hperm, hsub⟩ := hnodup.subperm fun n hn => mem_range.mpr (hlt n hn)
  unfold demand
  rw [← (hperm.map fun n => (s.node n).successors.length).sum_eq]
  exact (hsub.map _).sum_le_sum fun _ _ => Nat.zero_le _

/-- Putting nodes in order ends with all computations taken. -/
theorem order_spec (hw : WellFormed s g out) (hout : (s.node out).isComputation = true) :
    ∀ (fuel : Nat) {before : List NodeId} {o : Ordering}, Sorting s out before [] o →
      demand s (List.range s.nodes.size) + o.ready.length < fuel + demand s o.done →
      ∃ ns, order s fuel o = .ok ns ∧ ns.Nodup ∧ UsersFirst s ns ∧
        ∀ n, n ∈ ns ↔ Computed s out n
  | 0, before, o, h, hfuel => by
    have hlt : ∀ n ∈ o.done, n < s.nodes.size := fun n hn => hw.there n (h.taken n hn).1
    have := demand_le h.nodup.of_append_left hlt
    omega
  | fuel + 1, before, o, h, hfuel => by
    rw [order]
    split
    next hready =>
      exact ⟨o.done, rfl, h.nodup.of_append_left, h.sorted, fun n =>
        ⟨h.taken n, h.complete hw hready n⟩⟩
    next n rest hready =>
      rw [hready, length_cons] at hfuel
      dsimp only
      split
      next hcomp =>
        have hcomp' : ¬ (s.node n).isComputation = true := by simpa using hcomp
        refine order_spec hw hout fuel (h.skip hready hcomp' hout) ?_
        dsimp only
        omega
      next hcomp =>
        have hcomp' : (s.node n).isComputation = true := by simpa using hcomp
        obtain ⟨hfresh, htake⟩ := h.take hw hready hcomp'
        rw [if_neg (by simpa using hfresh)]
        obtain ⟨h1, h2, h3⟩ := htake.releaseAll hw (s.node n).successors rfl (fun _ hx => hx)
          (nodup_eraseDups _)
        refine order_spec hw hout fuel h1 ?_
        rw [h2]
        have hdemand : demand s (n :: o.done) = (s.node n).successors.length + demand s o.done := by
          simp [demand]
        dsimp only at h3
        omega

theorem sorting_start (hw : WellFormed s g out) (hout : (s.node out).isComputation = true) :
    Sorting s out [] [] { ready := [out] } := by
  have hnone : ∀ m, ¬ Needs s m out := by
    intro m hm
    have hc : Computed s out out := ⟨.refl, hout⟩
    obtain ⟨r, hr⟩ := mem_predecessors_iff.mp ((hw.mem_predecessors hc).mpr hm)
    rcases hw.used out hc r _ hr with ⟨m', hm', hmr⟩ | ⟨hm', _⟩
    · injection hm' with hm'
      subst hm'
      exact hw.acyclic out .refl (.tail' hmr hm)
    · cases hm'
  refine ⟨?_, ?_, ?_, ?_, ?_, ?_, ?_, ?_, trivial, ?_⟩
  · intro n hn
    cases hn
  · intro n hn
    rw [mem_singleton.mp hn]
  · rw [nil_append]
    exact (nodup_singleton out).filter _
  · intro n _ hn m hm
    rcases hn with hn | hn
    · cases hn
    · rw [mem_singleton.mp hn] at hm
      exact absurd hm (hnone m)
  · intro n us _ hl
    cases hl
  · intro n _ _ m hm
    simp [seen] at hm
  · intro n hc hno _ hall
    -- a node other than the output has a user
    rcases hc.1.cases_tail with rfl | ⟨m, _, hm⟩
    · exact absurd rfl hno
    · exact absurd (hall m hm) not_mem_nil
  · intro n hn
    cases hn
  · exact .inr (mem_singleton.mpr rfl)

/-- The order of a well-formed graph lists its computations, each once, after those it needs. -/
theorem inOrder_spec (hout : (s.graph g).output = some out) (hw : WellFormed s g out) :
    ∃ ns, inOrder s g = .ok ns ∧ ns.Nodup ∧ UsersFirst s ns ∧
      ∀ n, n ∈ ns ↔ Computed s out n := by
  unfold inOrder
  rw [hout]
  dsimp only
  split
  next hcomp =>
    have hfuel := demand_range s
    refine order_spec hw hcomp s.walkFuel (sorting_start hw hcomp) ?_
    simp only [length_singleton, demand, map_nil, sum_nil]
    unfold demand at hfuel
    omega
  next hcomp =>
    refine ⟨[], rfl, nodup_nil, trivial, fun n => ⟨fun hn => absurd hn not_mem_nil, fun hc => ?_⟩⟩
    -- an output that is not computed reaches nothing else
    rcases hc.1.cases_head with rfl | ⟨m, hm, _⟩
    · exact absurd hc.2 hcomp
    · exact absurd (hw.computed_of_needs .refl hm).2 hcomp

end DiffLang.Graph
