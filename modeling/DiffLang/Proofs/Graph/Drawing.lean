import DiffLang.Graph.Picture
import DiffLang.Proofs.Rewriting.Termination

/-!
# Drawings come to an end

A picture is drawn from two lists, of nodes and of graphs that wait. No record is kept of the graphs
that were drawn: one that is referred to again waits again, and if its output is a constant that has
a box for each use, the output is drawn anew. So graphs that return each other are drawn for ever
(`not_exists_drawing_returning_itself`).

Main statement: `exists_drawing`, that the drawing of any graphs ends if no graph `Redraws` itself
through others, and then is well-formed.
-/

open Relation (TransGen ReflTransGen CutExpand)

namespace DiffLang.Graph.Picture

open List Store

variable {s : Store} {o : PictureOptions} {p q r : Picture} {A : GraphId → Prop} {x : Owner}
  {n m out : NodeId} {g : GraphId} {i : Nat} {inside : Option GraphId} {b : Box}

/-! ## Boxes and arrows -/

def ids (p : Picture) : List Nat := p.boxes.map Box.id

abbrev Knows (p : Picture) (n : NodeId) : Prop := ∃ b ∈ p.boxes, b.owner = some (.node n)

def used (p : Picture) : List Nat := p.ids ++ p.arrows.map Arrow.id

/-- No id is given twice, whatever refers to a box refers to one that is there, and the nodes that
wait have a box. -/
structure Sound (p : Picture) : Prop where
  nodup : p.used.Nodup
  le_last : ∀ i ∈ p.used, i ≤ p.last
  parents : ∀ b ∈ p.boxes, ∀ i ∈ b.parent, i ∈ p.ids
  ends : ∀ a ∈ p.arrows, a.source ∈ p.ids ∧ a.target ∈ p.ids
  pool : ∀ n ∈ p.pool, Knows p n

theorem Sound.reserve (hp : Sound p) : Sound { p with last := p.last + 1 } :=
  { hp with le_last := fun i hi => Nat.le_succ_of_le (hp.le_last i hi) }

theorem Sound.addBox (hp : Sound p) (hle : b.id ≤ p.last) (hnew : b.id ∉ p.used)
    (hparent : ∀ i ∈ b.parent, i ∈ p.ids) : Sound (p.addBox b) := by
  obtain ⟨hnodup, hlast, hparents, hends, hpool⟩ := hp
  constructor <;> simp only [used, ids, Knows, Picture.addBox, mem_append] at * <;> grind

theorem Sound.addArrow {l : String} {i j : Nat} (hp : Sound p) (hi : i ∈ p.ids) (hj : j ∈ p.ids) :
    Sound (p.addArrow l i j) := by
  obtain ⟨hnodup, hlast, hparents, hends, hpool⟩ := hp
  constructor <;> simp only [used, ids, Knows, Picture.addArrow, mem_append] at * <;> grind

theorem id?_mem (h : p.id? x = some i) : i ∈ p.ids := by
  obtain ⟨b, hb, rfl⟩ := Option.map_eq_some_iff.mp h
  exact mem_map_of_mem (mem_reverse.mp (mem_of_find?_eq_some hb))

theorem isSome_box?_iff : (p.box? (.node n)).isSome = true ↔ Knows p n := by
  simp [box?, Knows]

theorem idOf_mem (h : Knows p n) : p.idOf n ∈ p.ids := by
  obtain ⟨b, hb⟩ := Option.isSome_iff_exists.mp (isSome_box?_iff.mpr h)
  have hid : p.id? (.node n) = some b.id := by rw [id?, hb]; rfl
  rw [idOf, hid]
  exact id?_mem hid

theorem knows_addBox : Knows (p.addBox b) n ↔ b.owner = some (.node n) ∨ Knows p n := by
  simp only [Knows, Picture.addBox, mem_append, mem_singleton, or_and_right, exists_or,
    exists_eq_left]
  exact or_comm

/-- The box of a graph is there, or is added with the next id. -/
theorem foldl_addGraph_cases (s : Store) (p : Picture) (x : Option GraphId) :
    x.toList.foldl (addGraph s) p = p ∨
    ∃ b : Box, x.toList.foldl (addGraph s) p = { p with last := p.last + 1 }.addBox b ∧
      b.id = p.last + 1 ∧ b.parent = none ∧ ∀ n, b.owner ≠ some (.node n) := by
  cases x with
  | none => exact .inl rfl
  | some g =>
    by_cases hg : (p.box? (.graph g)).isSome = true
    · exact .inl (if_pos hg)
    · exact .inr ⟨_, if_neg hg, rfl, rfl, nofun⟩

theorem knows_place {w : Option Owner} {l k : String} {x : Option GraphId} :
    Knows (place s p w l k x) m ↔ w = some (.node m) ∨ Knows p m := by
  refine knows_addBox.trans (or_congr_right ?_)
  obtain heq | ⟨b, heq, -, -, hb⟩ := foldl_addGraph_cases s { p with last := p.last + 1 } x
  · rw [heq]
  · rw [heq, knows_addBox, or_iff_right (hb m)]

theorem Sound.place {w : Option Owner} {l k : String} {x : Option GraphId} (hp : Sound p) :
    Sound (place s p w l k x) := by
  have hnew : ∀ i ∈ p.used, i ≠ p.last + 1 ∧ i ≠ p.last + 2 := fun i hi => by
    have := hp.le_last i hi
    omega
  have hparent : ∀ q : Picture, ∀ i ∈ (x.bind fun g => q.id? (.graph g)), i ∈ q.ids :=
    fun q i hi => (Option.bind_eq_some_iff.mp hi).elim fun _ h => id?_mem h.2
  unfold Picture.place
  extract_lets id q
  obtain heq | ⟨b, heq, hid, hnone, -⟩ := foldl_addGraph_cases s { p with last := p.last + 1 } x
  · rw [show q = _ from heq]
    exact hp.reserve.addBox le_rfl (fun h => (hnew _ h).1 rfl) (hparent _)
  · have hgraph := hp.reserve.reserve.addBox (b := b) (hid ▸ le_rfl)
      (fun h => (hnew _ h).2 hid) (by rw [hnone]; nofun)
    rw [show q = _ from heq]
    refine hgraph.addBox (Nat.le_succ _) ?_ (hparent _)
    simp only [used, ids, Picture.addBox] at hnew ⊢
    grind

theorem place_frame (s : Store) (p : Picture) (w : Option Owner) (l k : String)
    (x : Option GraphId) :
    (place s p w l k x).graphs = p.graphs ∧ (place s p w l k x).pool = p.pool ∧
      p.last + 1 ∈ (place s p w l k x).ids := by
  obtain heq | ⟨b, heq, -⟩ := foldl_addGraph_cases s { p with last := p.last + 1 } x
  all_goals simp [place, Picture.addBox, ids, heq]

/-! ## Nodes -/

/-- A node that is drawn once and has a box already changes nothing. Any other one gets a box, waits
for its edges, and makes the graph wait that it is. -/
theorem addNode_cases (s : Store) (o : PictureOptions) (p : Picture) (n : NodeId)
    (inside : Option GraphId) :
    (isDuplicated o (s.node n) = false ∧ Knows p n ∧ addNode s o p n inside = p) ∨
    ((isDuplicated o (s.node n) = false → ¬ Knows p n) ∧
      (addNode s o p n inside).graphs = (enqueue s o p n).graphs ∧
      (addNode s o p n inside).pool = (enqueue s o p n).pool ∧
      ∀ m, Knows (addNode s o p n inside) m ↔ m = n ∨ Knows p m) := by
  unfold addNode
  dsimp only
  split
  next h =>
    rw [Bool.and_eq_true_iff, Bool.not_eq_true', isSome_box?_iff] at h
    exact .inl ⟨h.1, h.2, rfl⟩
  next h =>
    rw [Bool.and_eq_true_iff, Bool.not_eq_true', isSome_box?_iff, not_and] at h
    obtain ⟨hgraphs, hpool, -⟩ := place_frame s p (some (.node n)) (label s o (s.node n))
      (kindOf s n (inside.or (s.node n).home)) (inside.or (s.node n).home)
    refine .inr ⟨h, by rw [enqueue, hgraphs]; rfl, by rw [enqueue, hpool]; rfl, fun m => ?_⟩
    exact knows_place.trans (by rw [Option.some.injEq, Owner.node.injEq, eq_comm])

theorem knows_addNode : Knows (addNode s o p n inside) m ↔ m = n ∨ Knows p m := by
  obtain ⟨-, hn, heq⟩ | ⟨-, -, -, hknows⟩ := addNode_cases s o p n inside
  · rw [heq]
    exact ⟨.inr, fun h => h.elim (fun h => h ▸ hn) id⟩
  · exact hknows m

theorem Sound.enqueue (hp : Sound p) (hn : Knows p n) : Sound (enqueue s o p n) := by
  refine { hp with pool := fun m hm => ?_ }
  unfold Picture.enqueue at hm
  split at hm
  · exact hp.pool m hm
  · exact (mem_append.mp hm).elim (hp.pool m) fun hm => mem_singleton.mp hm ▸ hn

theorem Sound.addNode (hp : Sound p) : Sound (addNode s o p n inside) := by
  unfold Picture.addNode
  dsimp only
  split
  · exact hp
  · exact hp.place.enqueue (knows_place.mpr (.inl rfl))

theorem Sound.addEdge {e : String × NodeId} (hp : Sound p) (hn : Knows p n) :
    Sound (addEdge s o n p e) :=
  hp.addNode.addArrow (idOf_mem (knows_addNode.mpr (.inl rfl)))
    (idOf_mem (knows_addNode.mpr (.inr hn)))

theorem Sound.markOutput (hp : Sound p) (hout : Knows p out) : Sound (markOutput s p g out) :=
  hp.place.addArrow (idOf_mem (knows_place.mpr (.inr hout))) (place_frame ..).2.2

theorem knows_foldl_addNode {ns : List NodeId} :
    Knows (ns.foldl (addNode s o · · inside) p) m ↔ m ∈ ns ∨ Knows p m := by
  induction ns generalizing p with
  | nil => simp
  | cons n ns ih => rw [foldl_cons, ih, knows_addNode, mem_cons, or_assoc, or_left_comm]

/-! ## What becomes less -/

/-- The nodes that something leads to. -/
def mentioned (s : Store) : List NodeId :=
  ((range s.nodes.size).flatMap fun n => (s.node n).successors) ++
    (range s.graphs.size).flatMap fun g => shown (s.graph g)

theorem mem_mentioned_of_needs (h : Needs s n m) : m ∈ mentioned s :=
  mem_append_left _ (mem_flatMap.mpr ⟨n, mem_range.mpr h.lt_size, h⟩)

theorem lt_size_of_shown (h : n ∈ shown (s.graph g)) : g < s.graphs.size := by
  by_contra hg
  rw [graph_of_size_le (Nat.le_of_not_lt hg)] at h
  cases h

theorem mem_mentioned_of_shown (h : n ∈ shown (s.graph g)) : n ∈ mentioned s :=
  mem_append_right _ (mem_flatMap.mpr ⟨g, mem_range.mpr (lt_size_of_shown h), h⟩)

/-- The nodes that are drawn once and have no box. -/
def unboxed (s : Store) (o : PictureOptions) (p : Picture) : Finset NodeId :=
  (mentioned s).toFinset.filter fun n => isDuplicated o (s.node n) = false ∧ ¬ Knows p n

def waiting (s : Store) (o : PictureOptions) (p : Picture) : Nat :=
  p.pool.countP fun n => !isDuplicated o (s.node n)

/-- What is left to do with nodes that are drawn once: to give them a box, and to draw their
edges. -/
def todo (s : Store) (o : PictureOptions) (p : Picture) : Nat :=
  2 * (unboxed s o p).card + waiting s o p

/-- A later picture, with less to do unless all graphs that wait since are in `A`. -/
def Grows (s : Store) (o : PictureOptions) (A : GraphId → Prop) (p q : Picture) : Prop :=
  ∃ hs, q.graphs = p.graphs ++ hs ∧ todo s o q ≤ todo s o p ∧
    (todo s o q = todo s o p → ∀ h ∈ hs, A h)

theorem Grows.refl (s : Store) (o : PictureOptions) (A : GraphId → Prop) (p : Picture) :
    Grows s o A p p :=
  ⟨[], (append_nil _).symm, le_rfl, nofun⟩

theorem Grows.trans (h1 : Grows s o A p q) (h2 : Grows s o A q r) : Grows s o A p r := by
  obtain ⟨hs, hgraphs, hle, hA⟩ := h1
  obtain ⟨hs', hgraphs', hle', hA'⟩ := h2
  refine ⟨hs ++ hs', by rw [hgraphs', hgraphs, append_assoc], hle'.trans hle, fun heq h hh => ?_⟩
  obtain hh | hh := mem_append.mp hh
  · exact hA (by omega) h hh
  · exact hA' (by omega) h hh

theorem grows_addNode (hn : n ∈ mentioned s)
    (hA : isDuplicated o (s.node n) = true → o.followReferences = true →
      ∀ h, (s.node n).graph? = some h → A h) :
    Grows s o A p (addNode s o p n inside) := by
  obtain ⟨-, -, heq⟩ | ⟨hnew, hgraphs, hpool, hknows⟩ := addNode_cases s o p n inside
  · exact heq.symm ▸ .refl ..
  have hsub : unboxed s o (addNode s o p n inside) ⊆ unboxed s o p :=
    Finset.monotone_filter_right _ fun m _ hm => ⟨hm.1, fun hk => hm.2 ((hknows m).mpr (.inr hk))⟩
  have hwait : waiting s o (addNode s o p n inside) ≤
      waiting s o p + if isDuplicated o (s.node n) then 0 else 1 := by
    unfold waiting
    rw [hpool, enqueue]
    split
    · exact Nat.le_add_right ..
    · rw [countP_append, countP_singleton]
      cases isDuplicated o (s.node n) <;> exact le_rfl
  refine ⟨_, hgraphs, ?_⟩
  unfold todo
  cases hd : isDuplicated o (s.node n) with
  | true =>
    rw [hd, if_pos rfl] at hwait
    refine ⟨by have := Finset.card_le_card hsub; omega, fun _ h hh => ?_⟩
    obtain ⟨hh, hf⟩ := mem_filter.mp hh
    exact hA hd (Bool.and_eq_true_iff.mp hf).1 h (Option.mem_toList.mp hh)
  | false =>
    rw [hd, if_neg Bool.false_ne_true] at hwait
    have hcard := Finset.card_lt_card (hsub.ssubset_of_mem_notMem
      (Finset.mem_filter.mpr ⟨mem_toFinset.mpr hn, hd, hnew hd⟩)
      fun h => (Finset.mem_filter.mp h).2.2 ((hknows n).mpr (.inl rfl)))
    exact ⟨by omega, fun h => by omega⟩

/-! ## Steps -/

/-- To draw a graph again makes another one wait again: one that it shows as a constant. -/
def Redraws (s : Store) (o : PictureOptions) (g h : GraphId) : Prop :=
  o.duplicateConstants = true ∧ o.followReferences = true ∧
    ∃ n ∈ shown (s.graph g), (s.node n).graph? = some h

theorem needs_of_incoming {e : String × NodeId} (he : e ∈ incoming s o (s.node n)) :
    Needs s n e.2 := by
  obtain ⟨⟨role, m⟩, hmem, rfl⟩ := mem_map.mp he
  exact needs_iff.mpr ⟨role, (mem_filter.mp hmem).1⟩

theorem Sound.visit (hp : Sound p) (hn : Knows p n) :
    Sound (visit s o p n) ∧ Grows s o (fun _ => True) p (visit s o p n) := by
  unfold Picture.visit
  extract_lets node known
  have hp' : Sound { p with graphs := refer o p.graphs known } := { hp with }
  have hall := foldlRecOn
    (motive := fun q => (Sound q ∧ Knows q n) ∧ Grows s o (fun _ => True) p q)
    (incoming s o node) (Picture.addEdge s o n)
    ⟨⟨hp', hn⟩, _, rfl, le_rfl, fun _ _ _ => trivial⟩
    fun q ⟨⟨hq, hqn⟩, hgrows⟩ e he => ⟨⟨hq.addEdge hqn, knows_addNode.mpr (.inr hqn)⟩, hgrows.trans
      (grows_addNode (mem_mentioned_of_needs (needs_of_incoming he)) fun _ _ _ _ => trivial)⟩
  exact ⟨hall.1.1, hall.2⟩

theorem grows_markOutput : Grows s o A p (markOutput s p g out) := by
  obtain ⟨hgraphs, hpool, -⟩ := place_frame s p none "" "const_output" (some g)
  have htodo : todo s o (place s p none "" "const_output" (some g)) = todo s o p := by
    simp only [todo, unboxed, waiting, hpool, knows_place, reduceCtorEq, false_or]
  exact ⟨[], hgraphs.trans (append_nil _).symm, htodo.le, nofun⟩

theorem Sound.start (hp : Sound p) (g : GraphId) :
    Sound (start s o p g) ∧ Grows s o (Redraws s o g) p (start s o p g) := by
  have hall := foldlRecOn (motive := fun q => Sound q ∧ Grows s o (Redraws s o g) p q)
    (shown (s.graph g)) (Picture.addNode s o · · none) ⟨hp, .refl ..⟩
    fun q ⟨hq, hgrows⟩ n hn => ⟨hq.addNode, hgrows.trans (grows_addNode (mem_mentioned_of_shown hn)
      fun hd hf h hh => ⟨(Bool.and_eq_true_iff.mp hd).1, hf, n, hn, hh⟩)⟩
  unfold Picture.start
  extract_lets graph q
  split
  next out hout =>
    have hmem : out ∈ shown graph := mem_append_right _ (by rw [hout]; exact mem_cons_self)
    have hknows : Knows q out := knows_foldl_addNode.mpr (.inl hmem)
    split
    · exact hall
    · exact ⟨hall.1.markOutput hknows, hall.2.trans grows_markOutput⟩
  · exact hall

theorem visit_of_edges (h : (s.node n).edges = []) : visit s o p n = p := by
  have hfn : (s.node n).fn = none := by
    cases hfn : (s.node n).fn with
    | none => rfl
    | some f => simp [Node.edges, hfn] at h
  simp [visit, incoming, h, ownFunction, hfn, refer]

/-- A picture that is nearer to its end. -/
def Nearer (s : Store) (o : PictureOptions) : Picture → Picture → Prop :=
  InvImage (Prod.Lex (· < ·) (Prod.Lex (CutExpand fun h g => Redraws s o g h) (· < ·)))
    fun p => (todo s o p, (p.graphs : Multiset GraphId), p.pool.length)

theorem wellFounded_nearer (h : ∀ g, ¬ TransGen (Redraws s o) g g) : WellFounded (Nearer s o) := by
  have hwf : WellFounded fun h g => Redraws s o g h :=
    wellFounded_of_acyclic (fun _ _ ⟨_, _, _, hn, _⟩ => lt_size_of_shown hn) h
  exact InvImage.wf _ (wellFounded_lt.prod_lex (hwf.cutExpand.prod_lex wellFounded_lt))

theorem nearer_iff : Nearer s o q p ↔ todo s o q < todo s o p ∨ todo s o q = todo s o p ∧
    (CutExpand (fun h g => Redraws s o g h) (q.graphs : Multiset GraphId) p.graphs ∨
      (q.graphs : Multiset GraphId) = p.graphs ∧ q.pool.length < p.pool.length) := by
  unfold Nearer InvImage
  rw [Prod.lex_def, Prod.lex_def]

theorem Sound.step (hs : ∀ n, (s.node n).isConstant = true → (s.node n).edges = [])
    (hp : Sound p) (hstep : step s o p = some q) : Sound q ∧ Nearer s o q p := by
  unfold Picture.step at hstep
  split at hstep <;> cases hstep
  next n rest hpool =>
    have hrest : Sound { p with pool := rest } :=
      { hp with pool := fun m hm => hp.pool m (hpool ▸ mem_cons_of_mem n hm) }
    have htodo : todo s o p = todo s o { p with pool := rest } +
        if isDuplicated o (s.node n) then 0 else 1 := by
      unfold todo waiting
      rw [hpool, countP_cons, ← Nat.add_assoc]
      cases isDuplicated o (s.node n) <;> rfl
    cases hd : isDuplicated o (s.node n) with
    | true =>
      -- A constant with a box for each use has no edges to draw.
      rw [visit_of_edges (hs n (Bool.and_eq_true_iff.mp hd).2)]
      rw [hd] at htodo
      refine ⟨hrest, nearer_iff.mpr (.inr ⟨htodo.symm, .inr ⟨rfl, ?_⟩⟩)⟩
      rw [hpool]
      exact Nat.lt_succ_self _
    | false =>
      obtain ⟨hsound, -, -, hle, -⟩ := hrest.visit (s := s) (o := o)
        (hp.pool n (hpool ▸ mem_cons_self))
      rw [hd] at htodo
      exact ⟨hsound, nearer_iff.mpr (.inl (htodo ▸ Nat.lt_succ_of_le hle))⟩
  next g rest hpool hgraphs =>
    have hp' : Sound { p with graphs := rest, current := g } := { hp with }
    obtain ⟨hsound, hs', heq, hle, hA⟩ := hp'.start (s := s) (o := o) g
    refine ⟨hsound, nearer_iff.mpr (hle.lt_or_eq.imp id fun htodo => ⟨htodo, .inl ?_⟩)⟩
    -- With as much to do as before, `g` is replaced by graphs that it redraws.
    refine ⟨hs', g, hA htodo, ?_⟩
    rw [heq, hgraphs, ← Multiset.coe_singleton, Multiset.coe_add, Multiset.coe_add,
      Multiset.coe_eq_coe]
    exact perm_append_singleton g _

/-- A step that may take any of the nodes and graphs that wait. -/
def Step (s : Store) (o : PictureOptions) (p q : Picture) : Prop :=
  ∃ pool graphs, pool ~ p.pool ∧ graphs ~ p.graphs ∧ step s o { p with pool, graphs } = some q

theorem Sound.anyStep (hs : ∀ n, (s.node n).isConstant = true → (s.node n).edges = [])
    (hp : Sound p) (h : Step s o p q) : Sound q ∧ Nearer s o q p := by
  obtain ⟨pool, graphs, hpool, hgraphs, hstep⟩ := h
  have hp' : Sound { p with pool, graphs } :=
    { hp with pool := fun n hn => hp.pool n (hpool.subset hn) }
  refine (hp'.step hs hstep).imp_right fun h => ?_
  simpa only [nearer_iff, todo, unboxed, waiting, hpool.countP_eq, hpool.length_eq,
    Multiset.coe_eq_coe.mpr hgraphs] using h

/-! ## Whole drawings -/

theorem sound_start (gs : List GraphId) : Sound { graphs := gs } :=
  ⟨nodup_nil, nofun, nofun, nofun, nofun⟩

/-- Whichever graphs are drawn, and in whichever way, the drawing ends if no graph is drawn again
and again. No id is given twice then, arrows go from boxes to boxes, and boxes are in boxes. The same
holds in whichever order the nodes and graphs that wait are taken. -/
theorem exists_drawing (hs : ∀ n, (s.node n).isConstant = true → (s.node n).edges = [])
    (h : ∀ g, ¬ TransGen (Redraws s o) g g) (gs : List GraphId) :
    (∃ fuel p, drawAll s o fuel { graphs := gs } = .ok p ∧
      p.used.Nodup ∧ (∀ a ∈ p.arrows, a.source ∈ p.ids ∧ a.target ∈ p.ids) ∧
      ∀ b ∈ p.boxes, ∀ i ∈ b.parent, i ∈ p.ids) ∧
    Acc (flip (Step s o)) { graphs := gs } ∧
      ∀ p, ReflTransGen (Step s o) { graphs := gs } p → Sound p := by
  have hend : ∀ p, Sound p →
      (∃ fuel q, drawAll s o fuel p = .ok q ∧ Sound q) ∧ Acc (flip (Step s o)) p := by
    intro p
    induction p using (wellFounded_nearer h).induction with
    | _ p ih =>
      intro hp
      refine ⟨?_, .intro _ fun q hq => have h := hp.anyStep hs hq; (ih q h.2 h.1).2⟩
      cases hstep : step s o p with
      | none => exact ⟨1, p, by rw [drawAll, hstep], hp⟩
      | some q =>
        obtain ⟨hsound, hnear⟩ := hp.step hs hstep
        obtain ⟨fuel, r, hr, hrsound⟩ := (ih q hnear hsound).1
        exact ⟨fuel + 1, r, by rw [drawAll, hstep]; exact hr, hrsound⟩
  obtain ⟨⟨fuel, p, hp, hsound⟩, hacc⟩ := hend _ (sound_start gs)
  refine ⟨⟨fuel, p, hp, hsound.nodup, hsound.ends, hsound.parents⟩, hacc, fun p hp => ?_⟩
  induction hp with
  | refl => exact sound_start gs
  | tail _ hstep ih => exact (ih.anyStep hs hstep).1

theorem edges_returningItself (n : NodeId) : (Equilibrium.returningItself.node n).edges = [] := by
  have hall : ∀ n < Equilibrium.returningItself.nodes.size,
      (Equilibrium.returningItself.node n).edges = [] := by decide +kernel
  by_cases hn : n < Equilibrium.returningItself.nodes.size
  · exact hall n hn
  · rw [node_of_size_le (Nat.le_of_not_lt hn)]
    rfl

/-- A graph that returns itself, with one box for all uses of a constant. -/
theorem exists_drawing_returning_itself :
    let o : PictureOptions := { duplicateConstants := false }
    (∃ fuel p, drawAll Equilibrium.returningItself o fuel { graphs := [0] } = .ok p ∧
      p.used.Nodup ∧ (∀ a ∈ p.arrows, a.source ∈ p.ids ∧ a.target ∈ p.ids) ∧
      ∀ b ∈ p.boxes, ∀ i ∈ b.parent, i ∈ p.ids) ∧
    Acc (flip (Step Equilibrium.returningItself o)) { graphs := [0] } ∧
      ∀ p, ReflTransGen (Step Equilibrium.returningItself o) { graphs := [0] } p → Sound p := by
  refine exists_drawing (fun n _ => edges_returningItself n) (fun g hg => ?_) [0]
  obtain ⟨h, hstep, -⟩ := TransGen.head'_iff.mp hg
  exact Bool.false_ne_true hstep.1

theorem start_returningItself (h : p.graphs = []) :
    (start Equilibrium.returningItself {} p 0).graphs = [0] := by
  have hinput : (addNode Equilibrium.returningItself {} p 0 none).graphs = [] := by
    obtain ⟨-, -, heq⟩ | ⟨-, hg, -⟩ := addNode_cases Equilibrium.returningItself {} p 0 none
    · rw [heq, h]
    · rw [hg, enqueue, h]
      rfl
  obtain ⟨hd, -⟩ | ⟨-, hg, -⟩ := addNode_cases Equilibrium.returningItself {}
    (addNode Equilibrium.returningItself {} p 0 none) 1 none
  · cases hd
  · refine (place_frame _ _ none "" "const_output" (some 0)).1.trans (hg.trans ?_)
    rw [enqueue, hinput]
    rfl

theorem drawAll_returningItself (fuel : Nat) (h : p.graphs = [0]) :
    drawAll Equilibrium.returningItself {} fuel p = .error .tooDeep := by
  induction fuel generalizing p with
  | zero => rfl
  | succ fuel ih =>
    rw [drawAll, step]
    cases hpool : p.pool with
    | nil =>
      rw [h]
      exact ih (start_returningItself rfl)
    | cons n rest =>
      dsimp only
      rw [visit_of_edges (edges_returningItself n)]
      exact ih h

/-- Drawn with a box for each use of a constant, a graph that returns itself is never done. -/
theorem not_exists_drawing_returning_itself :
    ¬ ∃ fuel p, drawAll Equilibrium.returningItself {} fuel { graphs := [0] } = .ok p := by
  rintro ⟨fuel, p, h⟩
  rw [drawAll_returningItself fuel rfl] at h
  cases h

end DiffLang.Graph.Picture
