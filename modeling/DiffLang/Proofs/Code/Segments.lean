import DiffLang.Code.OfGraph
import DiffLang.Proofs.Graph.Order

/-!
# The shape of the code of a graph

The code that leaves the value of a node on the stack is a segment: a copy of a place on the stack,
one instruction for a node that is not computed, or the segments of the parts of an application
followed by one `reduce`. The code of a graph is a row of segments, one for each shared node and one
for the output, where each shared node has a place from its own segment on.

Main statement: `instructions_spec`. A well-formed graph has code, and the code has this shape.
-/

open Relation (ReflTransGen TransGen)

namespace DiffLang.Graph

open List

inductive Leaf (s : Store) (g : GraphId) (n : NodeId) : Instruction → Prop
  | name {x : Symbol} (hv : (s.node n).value = some (.symbol x)) (hx : x.isGlobal = true) :
    Leaf s g n (.fetch (.symbol x))
  | graph {h : GraphId} {t : Symbol} (hv : (s.node n).value = some (.graph h t)) :
    Leaf s g n (.fetch (.symbol (s.node n).tag))
  | constant {v : Value} (hv : (s.node n).value = some v)
    (hx : ∀ x, v = .symbol x → x.isGlobal = false) (hg : ∀ h t, v ≠ .graph h t) :
    Leaf s g n (.push v)
  | input {i : Nat} (hv : (s.node n).value = none)
    (hi : (s.graph g).inputs.findIdx? (· == n) = some i) : Leaf s g n (.dup i)

/-- Code that leaves the value of a node on the stack, where some nodes have places on it. -/
inductive Segment (s : Store) (g : GraphId) (places : List (NodeId × Int)) :
    NodeId → List Step → Prop
  | placed {n : NodeId} {i : Int} (h : places.lookup n = some i) :
    Segment s g places n [⟨.dup i, .node n⟩]
  | leaf {n : NodeId} {op : Instruction} (ha : (s.node n).application? = none)
    (h : Leaf s g n op) : Segment s g places n [⟨op, .node n⟩]
  | application {n : NodeId} {parts : List NodeId} {segs : List (List Step)}
    (ha : (s.node n).application? = some (parts.map some)) (hlen : segs.length = parts.length)
    (h : ∀ i (hi : i < parts.length), Segment s g places (parts.get ⟨i, hi⟩) (segs.getD i [])) :
    Segment s g places n (segs.flatten ++ [⟨.reduce ((parts.length - 1 : Nat) : Int), .node n⟩])

/-- Code that computes nodes one after the other, each of which has a place from then on, and at
last the output. -/
inductive Row (s : Store) (g : GraphId) (out : NodeId) :
    List (NodeId × Int) → Nat → List NodeId → List Step → Prop
  | last {places : List (NodeId × Int)} {size : Nat} {seg : List Step}
    (h : Segment s g places out seg) : Row s g out places size [] seg
  | cons {places : List (NodeId × Int)} {size : Nat} {n : NodeId} {rest : List NodeId}
    {seg code : List Step} (h : Segment s g places n seg)
    (hrest : Row s g out ((n, (size : Int)) :: places) (size + 1) rest code) :
    Row s g out places size (n :: rest) (seg ++ code)

variable {s : Store} {g : GraphId} {out : NodeId}

variable {n : NodeId} {places : List (NodeId × Int)} {newer older : List NodeId}

theorem WellFormed.exists_leaf (hw : WellFormed s g out) (hn : Reaches s out n)
    (ha : (s.node n).application? = none) (e : Emission) (fuel : Nat) (top : Bool)
    (hp : e.places.lookup n = none) :
    ∃ op, Leaf s g n op ∧ emit s g (fuel + 1) top e n = .ok (e.push n op) := by
  rw [emit]
  dsimp only
  rw [hp, ha]
  dsimp only
  cases hv : (s.node n).value with
  | none =>
    have hfn : (s.node n).fn = none := by simpa [Node.application?] using ha
    have hin : n ∈ (s.graph g).inputs := hw.given n hn (by simp [Node.isInput, hfn, hv])
    cases hi : (s.graph g).inputs.findIdx? (· == n) with
    | none =>
      rw [findIdx?_eq_none_iff] at hi
      exact absurd (hi n hin) (by simp)
    | some i => exact ⟨_, .input hv hi, rfl⟩
  | some v =>
    split
    next x hx =>
      split
      next hglobal => exact ⟨_, .name (hv.trans hx) hglobal, rfl⟩
      next hglobal =>
        refine ⟨_, .constant (hv.trans hx) (fun y hy => ?_) (fun h t => by simp), rfl⟩
        injection hy with hy
        rw [← hy]
        simpa using hglobal
    next h t hx => exact ⟨_, .graph (hv.trans hx), rfl⟩
    next w hsym hgraph hx =>
      refine ⟨_, .constant (hv.trans hx) (fun y hy => ?_) (fun h t hy => ?_), rfl⟩
      · exact (hsym y (by rw [hy])).elim
      · exact hgraph h t (by rw [hy])
    next hx => cases hx

/-- Nodes that several others use have places, wherever they are met below a node. The node itself
may be computed at the top. -/
def Placed (s : Store) (places : List (NodeId × Int)) (top : Bool) (n : NodeId) : Prop :=
  ∀ k, Reaches s n k → (s.node k).isComputation = true → 1 < (s.node k).users.length →
    (k = n ∧ top = true) ∨ ∃ i, places.lookup k = some i

theorem Placed.part (hw : WellFormed s g out) {top : Bool}
    {p : NodeId} (h : Placed s places top n) (hn : Reaches s out n) (hp : Needs s n p) :
    Placed s places false p := by
  intro k hk hc hu
  refine .inr ((h k (hk.head hp) hc hu).resolve_left ?_)
  rintro ⟨rfl, _⟩
  exact hw.acyclic k hn (TransGen.head' hp hk)

theorem emit_parts (fuel : Nat) :
    ∀ (parts : List NodeId) (e : Emission), e.places = places →
      (∀ p ∈ parts, ∀ e : Emission, e.places = places → ∃ seg, Segment s g places p seg ∧
        emit s g fuel false e p =
          .ok { e with code := seg.reverse ++ e.code, size := e.size + 1 }) →
      ∃ segs : List (List Step), segs.length = parts.length ∧
        (∀ i (hi : i < parts.length), Segment s g places (parts.get ⟨i, hi⟩) (segs.getD i [])) ∧
        parts.foldlM (emit s g fuel false) e =
          .ok { e with code := segs.flatten.reverse ++ e.code, size := e.size + parts.length }
  | [], e, _, _ => ⟨[], rfl, fun i hi => absurd hi (Nat.not_lt_zero i), rfl⟩
  | p :: parts, e, he, h => by
    obtain ⟨seg, hseg, hemit⟩ := h p (mem_cons_self ..) e he
    obtain ⟨segs, hlen, hsegs, hfold⟩ := emit_parts fuel parts
      { e with code := seg.reverse ++ e.code, size := e.size + 1 } he
      fun q hq => h q (mem_cons_of_mem _ hq)
    refine ⟨seg :: segs, by simp [hlen], ?_, ?_⟩
    · intro i hi
      cases i with
      | zero => exact hseg
      | succ i => exact hsegs i (Nat.lt_of_succ_lt_succ hi)
    · rw [foldlM_cons, hemit]
      refine hfold.trans ?_
      simp only [flatten_cons, reverse_append, append_assoc, length_cons,
        Nat.add_assoc, Nat.add_comm 1]

theorem WellFormed.exists_parts (hw : WellFormed s g out) (hn : Reaches s out n)
    {ps : List (Option NodeId)} (ha : (s.node n).application? = some ps) :
    ∃ parts : List NodeId, ps = parts.map some ∧ 0 < parts.length ∧ ∀ p ∈ parts, Needs s n p := by
  have hall : ∀ x ∈ ps, x.isSome = true := by
    have ha' := ha
    unfold Node.application? at ha'
    rw [Option.map_eq_some_iff] at ha'
    obtain ⟨f, _, rfl⟩ := ha'
    intro x hx
    rcases mem_cons.mp hx with rfl | hx
    · rfl
    · exact hw.whole n hn x hx
  have hmap : ∀ l : List (Option NodeId), (∀ x ∈ l, x.isSome = true) →
      l = (l.filterMap id).map some := by
    intro l
    induction l with
    | nil => intro _; rfl
    | cons x l ih =>
      intro h
      obtain ⟨y, rfl⟩ := Option.isSome_iff_exists.mp (h x (mem_cons_self ..))
      exact congrArg (some y :: ·) (ih fun z hz => h z (mem_cons_of_mem _ hz))
  refine ⟨ps.filterMap id, hmap ps hall, ?_, fun p hp => ?_⟩
  · have hlen := congrArg List.length (hmap ps hall)
    rw [length_map] at hlen
    rw [← hlen]
    unfold Node.application? at ha
    rw [Option.map_eq_some_iff] at ha
    obtain ⟨f, _, rfl⟩ := ha
    exact Nat.succ_pos _
  · refine needs_of_application ha ?_
    rw [hmap ps hall]
    exact mem_map_of_mem hp

/-- A node of a well-formed graph has a segment. The nodes above it are kept in `chain`: they are
all different, so that the depth of the code is bounded by the number of nodes. -/
theorem emit_spec (hw : WellFormed s g out) :
    ∀ (fuel : Nat) (top : Bool) (chain : List NodeId) (n : NodeId) (e : Emission),
      chain.Nodup → (∀ a ∈ chain, Reaches s out a ∧ TransGen (Needs s) a n) → Reaches s out n →
      s.nodes.size < fuel + chain.length → Placed s e.places top n →
      ∃ seg, Segment s g e.places n seg ∧
        emit s g fuel top e n = .ok { e with code := seg.reverse ++ e.code, size := e.size + 1 }
  | 0, top, chain, n, e, hnodup, hchain, hn, hfuel, hplaced => by
    have hsub : chain ⊆ List.range s.nodes.size := fun a ha =>
      mem_range.mpr (hw.there a (hchain a ha).1)
    have hlen := (hnodup.subperm hsub).length_le
    rw [length_range] at hlen
    omega
  | fuel + 1, top, chain, n, e, hnodup, hchain, hn, hfuel, hplaced => by
    cases hp : e.places.lookup n with
    | some i =>
      refine ⟨_, .placed hp, ?_⟩
      rw [emit]
      dsimp only
      rw [hp]
      rfl
    | none =>
      cases ha : (s.node n).application? with
      | none =>
        obtain ⟨op, hleaf, hemit⟩ := hw.exists_leaf hn ha e fuel top hp
        exact ⟨_, .leaf ha hleaf, hemit⟩
      | some ps =>
        obtain ⟨parts, rfl, hpos, hneeds⟩ := hw.exists_parts hn ha
        have hnchain : n ∉ chain := fun hmem => hw.acyclic n hn (hchain n hmem).2
        -- each part is met below the node
        obtain ⟨segs, hlen, hsegs, hfold⟩ := emit_parts (s := s) (g := g) fuel parts e rfl
          fun p hpmem e' he' => by
            rw [← he']
            refine emit_spec hw fuel false (n :: chain) p e'
              (nodup_cons.mpr ⟨hnchain, hnodup⟩) ?_ (hn.tail (hneeds p hpmem)) ?_ ?_
            · intro a hmem
              rcases mem_cons.mp hmem with rfl | hmem
              · exact ⟨hn, .single (hneeds p hpmem)⟩
              · exact ⟨(hchain a hmem).1, (hchain a hmem).2.tail (hneeds p hpmem)⟩
            · rw [length_cons]
              omega
            · rw [he']
              exact hplaced.part hw hn (hneeds p hpmem)
        refine ⟨_, .application ha hlen hsegs, ?_⟩
        have htop : ((s.node n).users.length > 1 && !top) = false := by
          by_contra hne
          rw [Bool.not_eq_false, Bool.and_eq_true, decide_eq_true_iff, Bool.not_eq_true'] at hne
          have hcomp : (s.node n).isComputation = true := by
            unfold Node.application? at ha
            unfold Node.isComputation
            rw [Option.map_eq_some_iff] at ha
            obtain ⟨f, hf, _⟩ := ha
            rw [hf]
            rfl
          rcases hplaced n .refl hcomp hne.1 with ⟨_, ht⟩ | ⟨i, hi⟩
          · rw [hne.2] at ht
            cases ht
          · rw [hp] at hi
            cases hi
        have hany : (parts.map some).any Option.isNone = false := by simp
        have hfilter : (parts.map some).filterMap id = parts := by simp [filterMap_map]
        rw [emit]
        dsimp only
        rw [hp, ha]
        dsimp only
        rw [hany, hfilter, hfold]
        dsimp only [bind, Except.bind]
        rw [htop]
        have hsize : e.size + parts.length - (parts.length - 1) = e.size + 1 := by omega
        simp [Emission.reduce, hsize, pure, Except.pure]

theorem UsersFirst.of_append (h : UsersFirst s (newer ++ older)) : UsersFirst s older := by
  induction newer with
  | nil => exact h
  | cons n newer ih => exact ih h.2

/-- All that leads to a node comes after it in a list, latest first, in which users come first. -/
theorem UsersFirst.mem_of_transGen : ∀ (older : List NodeId) {m k : NodeId},
    UsersFirst s (k :: older) → TransGen (Needs s) m k → m ∈ older
  | older, m, k, h, hmk => by
    rcases hmk with hmk | ⟨hmc, hck⟩
    · exact h.1 m hmk
    · rename_i c
      obtain ⟨newer, rest, rfl⟩ := append_of_mem (h.1 c hck)
      have hlen : rest.length < (newer ++ c :: rest).length := by simp; omega
      have := UsersFirst.mem_of_transGen rest h.2.of_append hmc
      exact mem_append_right _ (mem_cons_of_mem _ this)
termination_by older => older.length

theorem UsersFirst.mem_newer {k : NodeId} (h : UsersFirst s (newer ++ n :: older))
    (hnodup : (newer ++ n :: older).Nodup) (hk : k ∈ newer ++ n :: older)
    (hnk : TransGen (Needs s) n k) : k ∈ newer := by
  rcases mem_append.mp hk with hk | hk
  · exact hk
  · have hn := nodup_cons.mp hnodup.of_append_right
    rcases mem_cons.mp hk with rfl | hk
    · exact absurd (UsersFirst.mem_of_transGen older h.of_append hnk) hn.1
    · obtain ⟨l, rest, rfl⟩ := append_of_mem hk
      have hafter := UsersFirst.mem_of_transGen rest h.of_append.2.of_append hnk
      exact absurd (mem_append_right _ (mem_cons_of_mem _ hafter)) hn.1

/-! ## The code of a graph -/

/-- The shared nodes below each node of a list have places or come before it in the list. -/
def Scheduled (s : Store) (places : List (NodeId × Int)) (ns : List NodeId) (n : NodeId) : Prop :=
  ∀ k, Reaches s n k → (s.node k).isComputation = true → 1 < (s.node k).users.length →
    k = n ∨ k ∈ ns ∨ ∃ i, places.lookup k = some i

theorem Scheduled.placed (h : Scheduled s places [] n) : Placed s places true n := by
  intro k hk hc hu
  rcases h k hk hc hu with rfl | hk' | hi
  · exact .inl ⟨rfl, rfl⟩
  · cases hk'
  · exact .inr hi

theorem Scheduled.step {ns : List NodeId} {m : NodeId} {i : Int}
    (h : Scheduled s places (m :: ns) n) : Scheduled s ((m, i) :: places) ns n := by
  intro k hk hc hu
  rcases h k hk hc hu with rfl | hk' | ⟨j, hj⟩
  · exact .inl rfl
  · rcases mem_cons.mp hk' with rfl | hk'
    · exact .inr (.inr ⟨i, by simp⟩)
    · exact .inr (.inl hk')
  · refine .inr (.inr ?_)
    rw [lookup_cons]
    split
    · exact ⟨i, rfl⟩
    · exact ⟨j, hj⟩

def emitShared (s : Store) (g : GraphId) (e : Emission) (n : NodeId) : Fallible Emission := do
  let e ← emit s g s.walkFuel true e n
  pure { e with places := (n, (e.size : Int) - 1) :: e.places }

theorem emit_row (hw : WellFormed s g out) :
    ∀ (ns : List NodeId) (e : Emission), (∀ n ∈ ns, Reaches s out n) →
      (∀ newer n older, ns = newer ++ n :: older → Scheduled s e.places newer n) →
      Scheduled s e.places ns out →
      ∃ code e1 e2, Row s g out e.places e.size ns code ∧ ns.foldlM (emitShared s g) e = .ok e1 ∧
        emit s g s.walkFuel true e1 out = .ok e2 ∧ e2.code = code.reverse ++ e.code
  | [], e, hns, hsched, hout => by
    have hfuel := demand_range s
    obtain ⟨seg, hseg, hemit⟩ := emit_spec hw s.walkFuel true [] out e nodup_nil
      (fun a ha => absurd ha not_mem_nil) .refl (by simp; omega) hout.placed
    exact ⟨seg, e, _, .last hseg, rfl, hemit, rfl⟩
  | n :: ns, e, hns, hsched, hout => by
    have hfuel := demand_range s
    have hn : Scheduled s e.places [] n := hsched [] n ns rfl
    obtain ⟨seg, hseg, hemit⟩ := emit_spec hw s.walkFuel true [] n e nodup_nil
      (fun a ha => absurd ha not_mem_nil) (hns n (mem_cons_self ..)) (by simp; omega)
      hn.placed
    have hshared : emitShared s g e n =
        .ok ⟨seg.reverse ++ e.code, e.size + 1, (n, (e.size : Int)) :: e.places⟩ := by
      unfold emitShared
      rw [hemit]
      simp [bind, Except.bind, pure, Except.pure]
    obtain ⟨code, e1, e2, hrow, hfold, hlast, hcode⟩ := emit_row hw ns
      ⟨seg.reverse ++ e.code, e.size + 1, (n, (e.size : Int)) :: e.places⟩
      (fun k hk => hns k (mem_cons_of_mem _ hk))
      (fun newer k older hsplit => (hsched (n :: newer) k older (by rw [hsplit]; rfl)).step)
      hout.step
    refine ⟨seg ++ code, e1, e2, .cons hseg hrow, ?_, hlast, ?_⟩
    · rw [foldlM_cons, hshared]
      exact hfold
    · rw [hcode]
      simp

theorem instructions_spec (hout : (s.graph g).output = some out) (hw : WellFormed s g out) :
    ∃ ns code, instructions s g = .ok code.toArray ∧ (∀ n ∈ ns, Reaches s out n) ∧
      Row s g out [] (s.graph g).inputs.length ns code := by
  obtain ⟨ns, horder, hnodup, husers, hmem⟩ := inOrder_spec hout hw
  have hreach : ∀ n ∈ ns.filter fun n => (s.node n).users.length > 1, Reaches s out n :=
    fun n hn => ((hmem n).mp (mem_filter.mp hn).1).1
  have hsched : ∀ newer n older,
      (ns.filter fun n => (s.node n).users.length > 1) = newer ++ n :: older →
      Scheduled s [] newer n := by
    intro newer n older hsplit k hk hc hu
    obtain ⟨l1, l2, rfl, hl1, hl2⟩ := filter_eq_append_iff.mp hsplit
    obtain ⟨l3, l4, rfl, hl3, _, _⟩ := filter_eq_cons_iff.mp hl2
    rcases Relation.reflTransGen_iff_eq_or_transGen.mp hk with rfl | hnk
    · exact .inl rfl
    · refine .inr (.inl ?_)
      have hn : Reaches s out n := ((hmem n).mp (by simp)).1
      have hkns : k ∈ l1 ++ (l3 ++ n :: l4) := (hmem k).mpr ⟨hn.trans hk, hc⟩
      rw [← append_assoc] at husers hnodup hkns
      have hnewer := husers.mem_newer hnodup hkns hnk
      rw [← hl1, mem_filter]
      rcases mem_append.mp hnewer with h | h
      · exact ⟨h, by simpa using hu⟩
      · exact absurd (by simpa using hu) (hl3 k h)
  have houtsched : Scheduled s [] (ns.filter fun n => (s.node n).users.length > 1) out :=
    fun k hk hc hu => .inr (.inl (mem_filter.mpr ⟨(hmem k).mpr ⟨hk, hc⟩, by simpa using hu⟩))
  obtain ⟨code, e1, e2, hrow, hfold, hlast, hcode⟩ := emit_row hw
    (ns.filter fun n => (s.node n).users.length > 1) { size := (s.graph g).inputs.length } hreach
    hsched houtsched
  refine ⟨_, code, ?_, hreach, hrow⟩
  have hcode' : e2.code.reverse.toArray = code.toArray := by
    rw [hcode]
    simp
  have hinstr : instructions s g =
      ((ns.filter fun n => (s.node n).users.length > 1).foldlM (emitShared s g)
        { size := (s.graph g).inputs.length } >>= fun e =>
          emit s g s.walkFuel true e out >>= fun e => pure e.code.reverse.toArray) := by
    unfold instructions
    rw [horder, hout]
    rfl
  rw [hinstr, hfold]
  dsimp only [bind, Except.bind]
  rw [hlast]
  exact congrArg Except.ok hcode'

end DiffLang.Graph
