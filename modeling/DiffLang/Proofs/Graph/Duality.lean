import DiffLang.Graph.Copy
import DiffLang.Proofs.Graph.Making

/-!
# Edges and users stay dual

A store is `Dual` if a node lists a user in a role exactly when that user has the node in this role,
and if no input is missing. The store of a session that starts empty is dual whatever is done to it:
making nodes and graphs, making a node an application, pointing an edge that is there at another node,
moving the users of a node, setting outputs, and copying graphs. None of this fails, except that a graph
without inputs or without an output is not copied, and what was done until then leaves the store dual.

Each operation is a list of atomic changes, worked out beforehand. Between two of them a list of inputs
may have gaps, but not at its end (`Matched`), and this is what the atomic changes keep. That no gaps
are left at the end of an operation is seen from what stands in each role (`Matched.dual`).

Main statement: `dual_of_operations`.
-/

open Relation (ReflTransGen)

namespace DiffLang.Graph

open Run List Store Store

variable {s s' : Store} {m n t : NodeId} {g : GraphId} {w : Owner} {r : Role}

/-- A store in which users are listed where they are users, and nowhere else. -/
structure Matched (s : Store) : Prop where
  edges : ∀ {n r w}, (r, w) ∈ (s.node n).users ↔ s.inRole w r = some n
  nodup : ∀ n, (s.node n).users.Nodup
  tight : ∀ m, Tight (s.node m).inputs

/-- A store in which users are listed where they are users, and nowhere else, and no input is
missing. -/
structure Dual (s : Store) : Prop where
  edges : ∀ {n r w}, (r, w) ∈ (s.node n).users ↔ s.inRole w r = some n
  nodup : ∀ n, (s.node n).users.Nodup
  whole : ∀ m, ∀ x ∈ (s.node m).inputs, x.isSome = true

theorem Dual.matched (h : Dual s) : Matched s :=
  ⟨h.edges, h.nodup, fun m => tight_of_whole (h.whole m)⟩

theorem Dual.exists_inputs (h : Dual s) (m : NodeId) :
    ∃ xs : List NodeId, (s.node m).inputs = xs.map some := by
  have hwhole := h.whole m
  generalize (s.node m).inputs = inputs at hwhole
  induction inputs with
  | nil => exact ⟨[], rfl⟩
  | cons x rest ih =>
    rw [forall_mem_cons] at hwhole
    obtain ⟨y, rfl⟩ := Option.isSome_iff_exists.mp hwhole.1
    obtain ⟨ys, hys⟩ := ih hwhole.2
    exact ⟨y :: ys, by rw [hys, map_cons]⟩

variable {xs : List NodeId}

theorem inRole_input_of_eq (h : (s.node m).inputs = xs.map some) (i : Nat) :
    s.inRole (.node m) (.input i) = xs[i]? := by
  rw [inRole_node, Node.inRole_input, h, getElem?_map]
  cases xs[i]? <;> rfl

/-- If the roles of inputs are taken from the first on, the inputs are what stands there. -/
theorem Matched.inputs_eq (h : Matched s)
    (hx : ∀ i : Nat, s.inRole (.node m) (.input i) = xs[i]?) : (s.node m).inputs = xs.map some := by
  refine Tight.ext (h.tight m) (tight_of_whole (by simp)) fun i => ?_
  rw [← Node.inRole_input, ← inRole_node, hx i, getElem?_map]
  cases xs[i]? <;> rfl

theorem Matched.dual (h : Matched s)
    (hx : ∀ m, ∃ xs : List NodeId, ∀ i : Nat, s.inRole (.node m) (.input i) = xs[i]?) : Dual s where
  edges := h.edges
  nodup := h.nodup
  whole m := by
    obtain ⟨xs, hxs⟩ := hx m
    rw [h.inputs_eq hxs]
    simp

theorem Matched.lt_of_inRole (h : Matched s) (hn : s.inRole w r = some n) : n < s.nodes.size :=
  lt_size_of_users (ne_nil_of_mem (h.edges.mpr hn))

/-! ## Atomic changes -/

/-- A store is matched, and `f` says what stands in each role. -/
structure Rearranged (s s' : Store) (f : Owner → Role → Option NodeId) : Prop where
  matched : Matched s'
  nodes : s'.nodes.size = s.nodes.size
  graphs : s'.graphs.size = s.graphs.size
  inRole : ∀ w r, s'.inRole w r = f w r

variable {f f' : Owner → Role → Option NodeId}

theorem Rearranged.there (h : Rearranged s s' f) (hw : w.There s) : w.There s' := by
  cases w with
  | node k => exact hw.trans_eq h.nodes.symm
  | graph k => exact hw.trans_eq h.graphs.symm

def replaced (s : Store) (w : Owner) (r : Role) (x : Option NodeId) : Owner → Role → Option NodeId :=
  fun w' r' => if w' = w ∧ r' = r then x else s.inRole w' r'

theorem unlink_of_matched (h : Matched s) (hn : s.inRole w r = some n) :
    ∃ s', s.unlink w n r = .ok s' ∧ Rearranged s s' (replaced s w r none) := by
  obtain ⟨s1, h1, e1⟩ := detach_of_held hn
  have husers : ∀ x, (s1.node x).users = (s.node x).users := fun x => by rw [e1.node x]
  have hmem : (r, w) ∈ (s1.node n).users := by
    rw [husers]
    exact h.edges.mpr hn
  have hnodup : ∀ x, (s1.node x).users.Nodup := fun x => by
    rw [husers]
    exact h.nodup x
  have e2 := sameEdges_modifyNode (s := s1) n fun m => m.users.erase (r, w)
  refine ⟨s1.modifyNode n fun m => { m with users := m.users.erase (r, w) }, ?_,
    ⟨⟨fun {x r' w'} => ?_, nodup_users_erase hnodup, fun m => ?_⟩, ?_, ?_, fun w' r' => ?_⟩⟩
  · simp only [unlink, h1, bind, Except.bind]
    exact removeUser_of_mem hmem
  · rw [mem_users_erase hnodup hmem, husers, h.edges, e2.inRole, e1.inRole]
    by_cases hw : w' = w ∧ r' = r
    · -- the edge that was removed led to `n`
      rw [if_pos hw, hw.1, hw.2, hn]
      simp [eq_comm]
    · rw [if_neg hw]
      simp only [Prod.mk.injEq, not_and, and_iff_left_iff_imp]
      exact fun _ _ hr hw' => hw ⟨hw', hr⟩
  · rw [e2.node]
    exact e1.tight m (h.tight m)
  · rw [e2.nodes, e1.nodes]
  · rw [e2.graphs, e1.graphs]
  · rw [e2.inRole, e1.inRole]
    rfl

theorem link_of_matched (h : Matched s) (hgives : w.Gives r) (hthere : w.There s)
    (hfree : s.inRole w r = none) (ht : t < s.nodes.size) :
    ∃ s', s.link w t r = .ok s' ∧ Rearranged s s' (replaced s w r (some t)) := by
  obtain ⟨s1, h1, e1⟩ := attach_of_free hgives hthere hfree t
  have husers : ∀ x, (s1.node x).users = (s.node x).users := fun x => by rw [e1.node x]
  have e2 : SameEdges s1 (s1.addUser t (r, w)) := by
    rw [addUser_eq]
    exact sameEdges_modifyNode t _
  refine ⟨s1.addUser t (r, w), ?_, ⟨⟨fun {x r' w'} => ?_, fun x => nodup_users_addUser ?_,
    fun m => ?_⟩, ?_, ?_, fun w' r' => ?_⟩⟩
  · simp only [link, h1, bind, Except.bind]
    rfl
  · rw [mem_users_addUser (e1.nodes.symm ▸ ht), husers, h.edges, e2.inRole, e1.inRole]
    by_cases hw : w' = w ∧ r' = r
    · rw [if_pos hw, hw.1, hw.2, hfree]
      simp [eq_comm]
    · rw [if_neg hw]
      simp only [Prod.mk.injEq, or_iff_left_iff_imp]
      exact fun hx => (hw ⟨hx.2.2, hx.2.1⟩).elim
  · rw [husers]
    exact h.nodup x
  · rw [e2.node]
    exact e1.tight m (h.tight m)
  · rw [e2.nodes, e1.nodes]
  · rw [e2.graphs, e1.graphs]
  · rw [e2.inRole, e1.inRole]
    rfl

/-! ## Lists of changes -/

theorem Rearranged.congr (h : Rearranged s s' f) (hf : ∀ w r, f w r = f' w r) :
    Rearranged s s' f' :=
  ⟨h.matched, h.nodes, h.graphs, fun w r => (h.inRole w r).trans (hf w r)⟩

theorem Rearranged.trans {s1 : Store} (h : Rearranged s s1 f) (h' : Rearranged s1 s' f') :
    Rearranged s s' f' :=
  ⟨h'.matched, h'.nodes.trans h.nodes, h'.graphs.trans h.graphs, h'.inRole⟩

theorem commit_append (s : Store) (cs ds : List Change) :
    s.commit (cs ++ ds) = s.commit cs >>= fun s' => s'.commit ds :=
  foldlM_append

/-- Changes that each fill or free a role, in a state that they allow. -/
theorem commit_roles {c : Role × NodeId → Change} {x : NodeId → Option NodeId}
    {P : Role × NodeId → Nat → Option NodeId → Prop}
    (hstep : ∀ {s : Store} e, Matched s → w.There s → P e s.nodes.size (s.inRole w e.1) →
      ∃ s', s.apply (c e) = .ok s' ∧ Rearranged s s' (replaced s w e.1 (x e.2)))
    (es : List (Role × NodeId)) : ∀ {s : Store}, Matched s → w.There s → (es.map Prod.fst).Nodup →
      (∀ e ∈ es, P e s.nodes.size (s.inRole w e.1)) →
      ∃ s', s.commit (es.map c) = .ok s' ∧ Rearranged s s' fun w' r =>
        if w' = w then ((es.lookup r).map x).getD (s.inRole w' r) else s.inRole w' r := by
  induction es with
  | nil =>
    intro s h _ _ _
    exact ⟨s, rfl, h, rfl, rfl, fun _ _ => by simp⟩
  | cons e es ih =>
    intro s h hw hnd hes
    rw [map_cons, nodup_cons] at hnd
    rw [forall_mem_cons] at hes
    obtain ⟨s1, h1, e1⟩ := hstep e h hw hes.1
    -- the edges that are left have other roles
    have hrest : ∀ d ∈ es, P d s1.nodes.size (s1.inRole w d.1) := by
      intro d hd
      have hne : ¬ (w = w ∧ d.1 = e.1) := fun hc => hnd.1 (hc.2 ▸ mem_map_of_mem hd)
      rw [e1.nodes, e1.inRole, replaced, if_neg hne]
      exact hes.2 d hd
    obtain ⟨s', h', e'⟩ := ih e1.matched (e1.there hw) hnd.2 hrest
    refine ⟨s', ?_, (e1.trans e').congr fun w' r => ?_⟩
    · rw [map_cons, commit_cons, h1]
      exact h'
    · rw [e1.inRole, replaced, show e = (e.1, e.2) from rfl, lookup_cons]
      by_cases hr : r = e.1
      · have hnone : es.lookup e.1 = none := by
          rw [lookup_eq_none_iff]
          exact fun d hd => bne_iff_ne.mpr fun hde => hnd.1 (hde ▸ mem_map_of_mem hd)
        simp [hr, hnone]
      · simp [hr, beq_eq_false_iff_ne.mpr hr]

/-! ## Pointing an edge at another node -/

/-- A role in which an edge can be pointed at a node: the function of a node and the output of a graph,
and the inputs that a node has. -/
def Owner.Offers (s : Store) : Owner → Role → Prop
  | .node m, .fn => m < s.nodes.size
  | .node m, .input i => (s.inRole (.node m) (.input i)).isSome = true
  | .graph g, .output => g < s.graphs.size
  | _, _ => False

instance (s : Store) : (w : Owner) → (r : Role) → Decidable (w.Offers s r)
  | .node m, .fn => inferInstanceAs (Decidable (m < s.nodes.size))
  | .node m, .input i => inferInstanceAs (Decidable ((s.inRole (.node m) (.input i)).isSome = true))
  | .graph g, .output => inferInstanceAs (Decidable (g < s.graphs.size))
  | .node _, .output | .node _, .other _ => isFalse id
  | .graph _, .fn | .graph _, .input _ | .graph _, .other _ => isFalse id

theorem pointTo_of_free (h : w.Offers s r) (hfree : s.inRole w r = none) (t : NodeId) :
    w.Gives r ∧ w.There s ∧ s.pointTo w r (some t) = .ok [.link w t r] := by
  cases w with
  | node m =>
    cases r with
    | fn =>
      have hfn : (s.node m).fn = none := hfree
      refine ⟨trivial, h, ?_⟩
      simp only [pointTo, follow, hfn]
      rfl
    | input i =>
      have hsome : (s.inRole (.node m) (.input i)).isSome = true := h
      rw [hfree] at hsome
      cases hsome
    | output | other => exact h.elim
  | graph g =>
    cases r with
    | output =>
      rw [inRole_graph, if_pos rfl] at hfree
      refine ⟨trivial, h, ?_⟩
      simp only [pointTo, hfree]
      rfl
    | fn | input | other => exact h.elim

theorem pointTo_spec (h : Matched s) (hw : w.Offers s r) (ht : t < s.nodes.size) :
    ∃ cs s', s.pointTo w r (some t) = .ok cs ∧ s.commit cs = .ok s' ∧
      Rearranged s s' (replaced s w r (some t)) := by
  cases hn : s.inRole w r with
  | none =>
    obtain ⟨hgives, hthere, hpoint⟩ := pointTo_of_free hw hn t
    obtain ⟨s', h', e'⟩ := link_of_matched h hgives hthere hn ht
    refine ⟨_, s', hpoint, ?_, e'⟩
    rw [commit_cons, apply, h']
    rfl
  | some n =>
    obtain ⟨s1, h1, e1⟩ := unlink_of_matched h hn
    obtain ⟨s', h', e'⟩ := link_of_matched (t := t) e1.matched (Owner.gives_of_inRole hn)
      (e1.there (Owner.there_of_inRole hn)) (by rw [e1.inRole, replaced, if_pos ⟨rfl, rfl⟩])
      (e1.nodes.symm ▸ ht)
    have hmove : s.commit [.unlink w n r, .link w t r] = .ok s' := by
      rw [commit_cons, apply, h1]
      show s1.commit [.link w t r] = .ok s'
      rw [commit_cons, apply, h']
      rfl
    have hreplaced : Rearranged s s' (replaced s w r (some t)) := by
      refine (e1.trans e').congr fun w' r' => ?_
      unfold replaced
      rw [e1.inRole]
      unfold replaced
      split <;> rfl
    refine ⟨moves n t (r, w), ?_⟩
    rw [pointTo_of_held hn t]
    cases w with
    | graph g => exact ⟨s', rfl, hmove, hreplaced⟩
    | node m =>
      by_cases hnt : n = t
      · -- the edge is there already
        refine ⟨s, rfl, by rw [moves, if_pos hnt]; rfl, h, rfl, rfl, fun w' r' => ?_⟩
        unfold replaced
        split
        next heq => rw [heq.1, heq.2, hn, hnt]
        · rfl
      · exact ⟨s', rfl, by rw [moves, if_neg hnt]; exact hmove, hreplaced⟩

def numbered (xs : List NodeId) : List (Role × NodeId) :=
  xs.zipIdx.map fun e => (.input e.2, e.1)

theorem filterMap_zipIdx_some (xs : List NodeId) (f : NodeId → Role → Change) :
    ((xs.map some).zipIdx.filterMap fun (x, i) => x.map fun m => f m (.input i)) =
      (numbered xs).map fun e => f e.2 e.1 := by
  rw [numbered, map_map, zipIdx_map, filterMap_map]
  exact congrFun filterMap_eq_map _

theorem nodup_numbered (xs : List NodeId) : ((numbered xs).map Prod.fst).Nodup := by
  rw [numbered, map_map]
  have hfst : (Prod.fst ∘ fun e : NodeId × Nat => (Role.input e.2, e.1)) =
      (fun i : Nat => Role.input i) ∘ Prod.snd := rfl
  rw [hfst, ← map_map, zipIdx_map_snd]
  refine List.Nodup.map (fun i j h => ?_) nodup_range'
  exact Int.ofNat.inj (Role.input.inj h)

theorem mem_numbered {e : Role × NodeId} :
    e ∈ numbered xs ↔ ∃ i : Nat, e.1 = .input i ∧ xs[i]? = some e.2 := by
  obtain ⟨r, x⟩ := e
  simp only [numbered, mem_map, Prod.mk.injEq, mem_zipIdx_iff_getElem?, Prod.exists]
  constructor
  · rintro ⟨y, i, hy, rfl, rfl⟩
    exact ⟨i, rfl, hy⟩
  · rintro ⟨i, rfl, hi⟩
    exact ⟨x, i, hi, rfl, rfl⟩

theorem lookup_numbered (xs : List NodeId) (i : Nat) : (numbered xs).lookup (.input i) = xs[i]? := by
  cases hl : (numbered xs).lookup (.input i) with
  | none =>
    rw [lookup_eq_none_iff] at hl
    refine (Option.eq_none_iff_forall_ne_some.mpr fun x hx => ?_).symm
    have hmem : (.input i, x) ∈ numbered xs := mem_numbered.mpr ⟨i, rfl, hx⟩
    exact bne_iff_ne.mp (hl _ hmem) rfl
  | some x =>
    obtain ⟨es, ds, he, -⟩ := lookup_eq_some_iff.mp hl
    have hmem : (.input i, x) ∈ numbered xs := by
      rw [he]
      exact mem_append_right es mem_cons_self
    obtain ⟨j, hj, hx⟩ := mem_numbered.mp hmem
    rw [Int.ofNat.inj (Role.input.inj hj), hx]

theorem setApplication_spec (h : Dual s) (hn : n < s.nodes.size) {f : NodeId}
    (hf : f < s.nodes.size) (hxs : ∀ x ∈ xs, x < s.nodes.size) :
    ∃ s', s.setApplication n (some f) (xs.map some) = .ok s' ∧ Dual s' ∧
      s'.nodes.size = s.nodes.size ∧ s'.graphs.size = s.graphs.size := by
  obtain ⟨ys, hys⟩ := h.exists_inputs n
  obtain ⟨cs, s1, hpoint, h1, e1⟩ := pointTo_spec (w := .node n) (r := .fn) h.matched hn hf
  have hold : ∀ e ∈ numbered ys, s1.inRole (.node n) e.1 = some e.2 := by
    intro e he
    obtain ⟨i, hi, hy⟩ := mem_numbered.mp he
    rw [e1.inRole, replaced, hi, if_neg (by simp), inRole_input_of_eq hys, hy]
  obtain ⟨s2, h2, e2⟩ := commit_roles (w := .node n) (c := fun e => .unlink (.node n) e.2 e.1)
    (x := fun _ => none) (P := fun e _ y => y = some e.2) (fun _ h _ => unlink_of_matched h)
    (numbered ys) e1.matched (e1.there (w := .node n) hn) (nodup_numbered ys) hold
  have hnone : ∀ i : Nat, s2.inRole (.node n) (.input i) = none := by
    intro i
    rw [e2.inRole, if_pos rfl, lookup_numbered]
    cases hy : ys[i]? with
    | some y => rfl
    | none =>
      show s1.inRole (.node n) (.input i) = none
      rw [e1.inRole, replaced, if_neg (by simp), inRole_input_of_eq hys, hy]
  have hsize : s2.nodes.size = s.nodes.size := e2.nodes.trans e1.nodes
  have hnew : ∀ e ∈ numbered xs, (Owner.node n).Gives e.1 ∧ s2.inRole (.node n) e.1 = none ∧
      e.2 < s2.nodes.size := by
    intro e he
    obtain ⟨i, hi, hx⟩ := mem_numbered.mp he
    rw [hi, hsize]
    exact ⟨Int.natCast_nonneg i, hnone i, hxs _ (mem_of_getElem? hx)⟩
  obtain ⟨s3, h3, e3⟩ := commit_roles (w := .node n) (c := fun e => .link (.node n) e.2 e.1)
    (x := some) (P := fun e size y => (Owner.node n).Gives e.1 ∧ y = none ∧ e.2 < size)
    (fun _ h hw hfree => link_of_matched h hfree.1 hw hfree.2.1 hfree.2.2) (numbered xs) e2.matched
    (hn.trans_eq hsize.symm) (nodup_numbered xs) hnew
  refine ⟨s3, ?_, e3.matched.dual fun m => ?_, e3.nodes.trans hsize,
    e3.graphs.trans (e2.graphs.trans e1.graphs)⟩
  · simp only [setApplication, setApplicationChanges, hpoint, hys, bind, Except.bind,
      Option.isNone_some, Bool.false_eq_true, if_false, pure, Except.pure]
    rw [filterMap_zipIdx_some ys fun m r => .unlink (.node n) m r,
      filterMap_zipIdx_some xs fun m r => .link (.node n) m r, commit_append, commit_append, h1]
    show (s1.commit _ >>= _) = _
    rw [h2]
    exact h3
  · by_cases hm : m = n
    · refine ⟨xs, fun i => ?_⟩
      rw [hm, e3.inRole, if_pos rfl, lookup_numbered, hnone i]
      cases xs[i]? <;> rfl
    · -- the inputs of other nodes are what they were
      obtain ⟨zs, hzs⟩ := h.exists_inputs m
      refine ⟨zs, fun i => ?_⟩
      have hne : Owner.node m ≠ .node n := fun he => hm (Owner.node.inj he)
      rw [e3.inRole, if_neg hne, e2.inRole, if_neg hne, e1.inRole, replaced,
        if_neg fun hc => hne hc.1, inRole_input_of_eq hzs]

theorem Dual.of_matched (h : Dual s) (h' : Matched s')
    (hsome : ∀ m (i : Nat), (s'.inRole (.node m) (.input i)).isSome =
      (s.inRole (.node m) (.input i)).isSome) : Dual s' := by
  refine ⟨h'.edges, h'.nodup, fun m x hx => ?_⟩
  obtain ⟨xs, hxs⟩ := h.exists_inputs m
  have hisSome : ∀ i : Nat, (((s'.node m).inputs[i]?).join).isSome = (xs[i]?).isSome := by
    intro i
    rw [← Node.inRole_input, ← inRole_node, hsome, inRole_input_of_eq hxs]
  -- a list without a missing item at its end has as many places as there are items
  have hlen : (s'.node m).inputs.length ≤ xs.length := by
    by_contra hlt
    obtain ⟨n, hn⟩ := (h'.tight m).some_of_last (i := (s'.node m).inputs.length - 1) (by omega)
    have hlast := hisSome ((s'.node m).inputs.length - 1)
    rw [hn, getElem?_eq_none (by omega)] at hlast
    cases hlast
  obtain ⟨i, hi, rfl⟩ := mem_iff_getElem.mp hx
  have hth := hisSome i
  rw [getElem?_eq_getElem hi, getElem?_eq_getElem (hi.trans_le hlen)] at hth
  exact hth

theorem point_spec (h : Dual s) (hw : w.Offers s r) (ht : t < s.nodes.size) :
    ∃ cs s', s.pointTo w r (some t) = .ok cs ∧ s.commit cs = .ok s' ∧ Dual s' ∧
      s'.nodes.size = s.nodes.size ∧ s'.graphs.size = s.graphs.size := by
  obtain ⟨cs, s', hpoint, hcommit, e⟩ := pointTo_spec h.matched hw ht
  refine ⟨cs, s', hpoint, hcommit, h.of_matched e.matched fun m i => ?_, e.nodes, e.graphs⟩
  rw [e.inRole, replaced]
  split
  next heq =>
    obtain ⟨rfl, rfl⟩ := heq
    exact Eq.symm hw
  · rfl

theorem redirect_spec (h : Dual s) (n : NodeId) (ht : t < s.nodes.size) :
    ∃ s', s.redirect n t = .ok s' ∧ Dual s' ∧ s'.nodes.size = s.nodes.size ∧
      s'.graphs.size = s.graphs.size := by
  have hheld : ∀ u ∈ (s.node n).users, s.inRole u.2 u.1 = some n := fun _ hu => h.edges.mp hu
  obtain ⟨s', hcommit, e⟩ := commit_redirect_of_held hheld h.nodup ht
  have hmatched : Matched s' := by
    refine ⟨fun {x r w} => ?_, e.nodup, fun m => e.tight m (tight_of_whole (h.whole m))⟩
    rw [e.users, e.inRole, h.edges]
    by_cases hu : (r, w) ∈ (s.node n).users
    · rw [if_pos hu, h.edges.mp hu]
      simp [hu, eq_comm]
    · rw [if_neg hu]
      simp [hu]
  refine ⟨s', ?_, h.of_matched hmatched fun m i => ?_, e.nodes, e.graphs⟩
  · rw [redirect, redirectChanges_of_held hheld]
    exact hcommit
  · rw [e.inRole]
    split
    next hu =>
      rw [h.edges.mp hu]
      rfl
    · rfl

theorem setOutput_eq (s : Store) (g : GraphId) (n : NodeId) :
    s.setOutput g n = s.pointTo (.graph g) .output (some n) >>= fun cs => s.commit cs := by
  cases hout : (s.graph g).output with
  | none =>
    simp only [setOutput, pointTo, hout, pure_bind, commit_cons, apply]
    exact (bind_pure _).symm
  | some o =>
    simp only [setOutput, pointTo, hout, pure_bind, commit_cons, apply]
    exact congrArg _ (funext fun s' => (bind_pure _).symm)

theorem setOutput_spec (h : Dual s) (hg : g < s.graphs.size) (hn : n < s.nodes.size) :
    ∃ s', s.setOutput g n = .ok s' ∧ Dual s' ∧ s'.nodes.size = s.nodes.size ∧
      s'.graphs.size = s.graphs.size := by
  obtain ⟨cs, s', hpoint, hcommit, hs'⟩ := point_spec (w := .graph g) (r := .output) h hg hn
  refine ⟨s', ?_, hs'⟩
  rw [setOutput_eq, hpoint]
  exact hcommit

/-! ## New nodes and graphs -/

theorem Dual.addNode (h : Dual s) {x : Node} (hfn : x.fn = none) (hin : x.inputs = [])
    (husers : x.users = []) : Dual (s.addNode x).2 where
  edges {n r w} := by
    rw [inRole_addNode hfn hin, ← h.edges, node_addNode]
    split
    next hn => rw [hn, husers, node_of_size_le le_rfl]; rfl
    · rfl
  nodup n := by
    rw [node_addNode]
    split
    · rw [husers]; exact nodup_nil
    · exact h.nodup n
  whole m := by
    rw [node_addNode]
    split
    · rw [hin]; exact fun _ hx => absurd hx not_mem_nil
    · exact h.whole m

theorem Dual.addGraph (h : Dual s) {x : Graph} (hout : x.output = none) : Dual (s.addGraph x).2 where
  edges {n r w} := by
    rw [node_addGraph, h.edges]
    cases w with
    | node m => rfl
    | graph g =>
      rw [inRole_graph, inRole_graph, graph_addGraph]
      split
      · split
        next hg => rw [hout, hg, graph_of_size_le le_rfl]; rfl
        · rfl
      · rfl
  nodup := h.nodup
  whole := h.whole

theorem Dual.setInputs (h : Dual s) (g : GraphId) (xs : List NodeId) : Dual (s.setInputs g xs) where
  edges {n r w} := by
    refine h.edges.trans ?_
    cases w with
    | node m => rfl
    | graph k =>
      rw [inRole_graph, inRole_graph, Store.setInputs, graph_modifyGraph]
      split
      · split <;> rfl
      · rfl
  nodup := h.nodup
  whole := h.whole

/-! ## Copies -/

section Copies

variable {α β : Type} {o : Option Origin} {σ σ' : Session}

theorem returns_bind_eq {x : Run α} {f : α → Run β} {a : α} (h : Returns x o σ a σ') :
    (x >>= f) o σ = f a o σ' := by
  rw [bind_apply, h]

/-- A session whose store is dual, with the graphs and at least the nodes of another store. -/
structure Larger (s : Store) (σ : Session) : Prop where
  dual : Dual σ.store
  nodes : s.nodes.size ≤ σ.store.nodes.size
  graphs : σ.store.graphs.size = s.graphs.size

theorem Larger.trans (h : Larger s σ) (h' : Larger σ.store σ') : Larger s σ' :=
  ⟨h'.dual, h.nodes.trans h'.nodes, h'.graphs.trans h.graphs⟩

variable {map : List (NodeId × NodeId)}

theorem image_lt {k : Nat} (hmap : ∀ e ∈ map, e.2 < k) (hn : n < k) :
    image map n < k := by
  rw [image]
  cases hl : map.lookup n with
  | none => exact hn
  | some x =>
    rw [lookup_eq_some_iff] at hl
    obtain ⟨l1, l2, rfl, -⟩ := hl
    exact hmap (n, x) (by simp)

theorem copyNodes_spec (dest : GraphId) (generator : GeneratorId) (keepTags : Bool) :
    ∀ (olds : List NodeId) (map : List (NodeId × NodeId)) {σ : Session}, Dual σ.store →
      (∀ e ∈ map, e.2 < σ.store.nodes.size) →
      ∃ map' σ', Returns (copyNodes dest generator keepTags olds map) o σ map' σ' ∧
        Larger σ.store σ' ∧ ∀ e ∈ map', e.2 < σ'.store.nodes.size := by
  intro olds
  induction olds with
  | nil => exact fun map σ h hmap => ⟨_, _, rfl, ⟨h, le_rfl, rfl⟩, hmap⟩
  | cons old olds ih =>
    intro map σ h hmap
    -- a new tag leaves the store as it is
    obtain ⟨tag, σ1, htag, hstore⟩ : ∃ tag σ1,
        Returns (if keepTags then pure (σ.store.node old).tag
          else Session.freshDerived generator (σ.store.node old).tag "+") o σ tag σ1 ∧
        σ1.store = σ.store := by
      cases keepTags with
      | true => exact ⟨_, _, rfl, rfl⟩
      | false => exact ⟨_, _, rfl, rfl⟩
    let x : Node := { home := some dest, tag, value := (σ.store.node old).value }
    obtain ⟨n, σ2, hnew, hn, h2⟩ : ∃ n σ2, Returns (newNode x) o σ1 n σ2 ∧
        n < σ2.store.nodes.size ∧ Larger σ.store σ2 := by
      refine ⟨_, _, returns_newNode.mpr ⟨rfl, rfl⟩, ?_, ?_, ?_, ?_⟩
      · exact Nat.lt_of_lt_of_eq (Nat.lt_succ_self _) (size_addNode ..).symm
      · rw [hstore]
        exact h.addNode rfl rfl rfl
      · exact Nat.le_trans (Nat.le_succ _) (Nat.le_of_eq (by rw [hstore, size_addNode]))
      · rw [hstore]
        rfl
    have hput : ∀ e ∈ Session.put (· == ·) old n map, e.2 < σ2.store.nodes.size := by
      intro e he
      rcases Session.mem_put he with he | he
      · exact he ▸ hn
      · exact Nat.lt_of_lt_of_le (hmap e he) h2.nodes
    obtain ⟨map', σ', hret, hext, hmap'⟩ := ih _ h2.dual hput
    refine ⟨map', σ', ?_, h2.trans hext, hmap'⟩
    rw [copyNodes]
    simp only [returns_bind, returns_get]
    refine ⟨_, _, ⟨rfl, rfl⟩, ?_⟩
    cases keepTags <;>
      exact returns_bind.mpr ⟨tag, σ1, htag, returns_bind.mpr ⟨n, σ2, hnew, hret⟩⟩

theorem copyEdges_spec :
    ∀ (rest : List (NodeId × NodeId)) {σ : Session}, Dual σ.store →
      (∀ e ∈ map, e.2 < σ.store.nodes.size) → (∀ e ∈ rest, e.2 < σ.store.nodes.size) →
      ∃ σ', Returns (copyEdges map rest) o σ () σ' ∧ Larger σ.store σ' := by
  intro rest
  induction rest with
  | nil => exact fun h _ _ => ⟨_, rfl, h, le_rfl, rfl⟩
  | cons e rest ih =>
    obtain ⟨old, new⟩ := e
    intro σ h hmap hrest
    rw [forall_mem_cons] at hrest
    cases hfn : (σ.store.node old).fn with
    | none =>
      obtain ⟨σ', hret, hext⟩ := ih h hmap hrest.2
      refine ⟨σ', ?_, hext⟩
      rw [copyEdges]
      simp only [returns_bind, returns_get]
      refine ⟨_, _, ⟨rfl, rfl⟩, ?_⟩
      simp only [hfn]
      exact hret
    | some f =>
      obtain ⟨xs, hxs⟩ := h.exists_inputs old
      have hf : f < σ.store.nodes.size := h.matched.lt_of_inRole (w := .node old) (r := .fn) hfn
      have hargs : ∀ x ∈ xs, x < σ.store.nodes.size := by
        intro x hx
        obtain ⟨i, hi⟩ := mem_iff_getElem?.mp hx
        exact h.matched.lt_of_inRole ((inRole_input_of_eq hxs i).trans hi)
      have himages : ∀ x ∈ xs.map (image map), x < σ.store.nodes.size := by
        intro x hx
        obtain ⟨y, hy, rfl⟩ := mem_map.mp hx
        exact image_lt hmap (hargs y hy)
      obtain ⟨s1, hset, hdual, hnodes, hgraphs⟩ :=
        setApplication_spec h hrest.1 (image_lt hmap hf) himages
      have hext1 : Larger σ.store { σ with store := s1 } :=
        ⟨hdual, hnodes.symm.le, hgraphs⟩
      obtain ⟨σ', hret, hext⟩ := ih (σ := { σ with store := s1 }) hdual
        (fun e he => Nat.lt_of_lt_of_eq (hmap e he) hnodes.symm)
        (fun e he => Nat.lt_of_lt_of_eq (hrest.2 e he) hnodes.symm)
      refine ⟨σ', ?_, hext1.trans hext⟩
      rw [copyEdges]
      simp only [returns_bind, returns_get]
      refine ⟨_, _, ⟨rfl, rfl⟩, ?_⟩
      simp only [hfn, returns_bind, returns_update]
      refine ⟨(), _, ⟨s1, ?_, rfl⟩, hret⟩
      rw [hxs, map_map, ← hset, map_map]
      rfl

theorem copyInto_spec (dest g : GraphId) (keepTags : Bool) (h : Dual σ.store) :
    ∃ map σ', Returns (copyInto dest g keepTags) o σ map σ' ∧ Larger σ.store σ' ∧
      ∀ e ∈ map, e.2 < σ'.store.nodes.size := by
  obtain ⟨map, σ1, hnodes, h1, hmap⟩ := copyNodes_spec (o := o) dest
    (σ.store.graph dest).generator keepTags ((σ.store.graph g).inputs ++ σ.store.nodesOf g) [] h
    (by simp)
  obtain ⟨σ2, hedges, h2⟩ := copyEdges_spec (o := o) map h1.dual hmap hmap
  refine ⟨map, σ2, ?_, h1.trans h2, fun e he => Nat.lt_of_lt_of_le (hmap e he) h2.nodes⟩
  rw [copyInto]
  simp only [returns_bind, returns_get, returns_pure]
  exact ⟨_, _, ⟨rfl, rfl⟩, map, σ1, hnodes, (), σ2, hedges, rfl, rfl⟩

/-- A graph with inputs and, where it becomes a new graph, an output can be copied. -/
def Copyable (x : Graph) (target : Option GraphId) : Prop :=
  x.sealed = true ∧ (target = none → x.output.isSome = true)

theorem copy_spec (g : GraphId) (target : Option GraphId) (keepTags : Bool) (h : Dual σ.store) :
    Dual (copy g target keepTags o σ).2.store ∧
      (Copyable (σ.store.graph g) target → (copy g target keepTags o σ).1.isOk = true) := by
  rw [copy, returns_bind_eq (returns_get.mpr ⟨rfl, rfl⟩)]
  cases target with
  | some dest =>
    simp only
    cases hsealed : (σ.store.graph g).sealed with
    | false => exact ⟨h, fun hc => absurd (hsealed.symm.trans hc.1) (by decide)⟩
    | true =>
      obtain ⟨map, σ', hret, hext, -⟩ := copyInto_spec dest g keepTags h
      simp only [Bool.not_true, Bool.false_eq_true, if_false]
      rw [returns_bind_eq hret]
      exact ⟨hext.dual, fun _ => by rfl⟩
  | none =>
    simp only
    let x : Graph := {
      parent := (σ.store.graph g).parent
      tag := (σ.store.graph g).tag
      generator := (σ.store.graph g).generator }
    rw [returns_bind_eq (returns_newGraph (x := x) |>.mpr ⟨rfl, rfl⟩)]
    have h1 : Dual (σ.store.addGraph x).2 := h.addGraph rfl
    cases hsealed : (σ.store.graph g).sealed with
    | false => exact ⟨h1, fun hc => absurd (hsealed.symm.trans hc.1) (by decide)⟩
    | true =>
      obtain ⟨map, σ2, hret, h2, hmap⟩ := copyInto_spec (σ := { σ with store := _ }) (o := o)
        σ.store.graphs.size g keepTags h1
      simp only [Bool.not_true, Bool.false_eq_true, if_false]
      rw [returns_bind_eq hret]
      cases hout : (σ.store.graph g).output with
      | none => exact ⟨h2.dual, fun hc => absurd (hc.2 rfl) (by rw [hout]; decide)⟩
      | some x =>
        have hx : x < σ.store.nodes.size :=
          h.matched.lt_of_inRole (w := .graph g) (r := .output) (by rw [inRole_graph, if_pos rfl, hout])
        obtain ⟨s3, hset, h3, -⟩ := setOutput_spec (g := σ.store.graphs.size) (n := image map x) h2.dual
          (by rw [h2.graphs]; exact Nat.lt_of_lt_of_eq (Nat.lt_succ_self _) (Array.size_push ..).symm)
          (image_lt hmap (hx.trans_le h2.nodes))
        simp only
        rw [returns_bind_eq (returns_update (u := ()) |>.mpr ⟨s3, hset, rfl⟩)]
        exact ⟨h3.setInputs _ _, fun _ => rfl⟩

end Copies

/-! ## Sequences of operations -/

/-- What can be done to the graphs of a session. -/
inductive Operation where
  | newNode (home : Option GraphId) (tag : Symbol) (value : Option Value)
  | newGraph (parent : Option GraphId) (tag : Symbol) (generator : GeneratorId)
  | setInputs (g : GraphId) (inputs : List NodeId)
  | setApplication (n fn : NodeId) (inputs : List NodeId)
  | point (source : Owner) (role : Role) (target : NodeId)
  /-- Moves the users of a node, which the target subsumes, to the target. -/
  | redirect (n target : NodeId)
  | setOutput (g : GraphId) (n : NodeId)
  | copy (g : GraphId) (target : Option GraphId) (keepTags : Bool)

namespace Operation

def run : Operation → Run Unit
  | .newNode home tag value => do let _ ← Graph.newNode { home, tag, value }
  | .newGraph parent tag generator => do let _ ← Graph.newGraph { parent, tag, generator }
  | .setInputs g inputs => update fun s => .ok (s.setInputs g inputs)
  | .setApplication n fn inputs => update fun s => s.setApplication n (some fn) (inputs.map some)
  | .point source role target => update fun s => do
    s.commit (← s.pointTo source role (some target))
  | .redirect n target => update fun s => s.redirect n target
  | .setOutput g n => update fun s => s.setOutput g n
  | .copy g target keepTags => do let _ ← Graph.copy g target keepTags

/-- An operation is about nodes and graphs that are there, and points only edges that are there. -/
def Valid (s : Store) : Operation → Prop
  | .newNode .. | .newGraph .. | .setInputs .. | .copy .. => True
  | .setApplication n fn inputs => n < s.nodes.size ∧ fn < s.nodes.size ∧
    ∀ x ∈ inputs, x < s.nodes.size
  | .point source role target => source.Offers s role ∧ target < s.nodes.size
  | .redirect _ target => target < s.nodes.size
  | .setOutput g n => g < s.graphs.size ∧ n < s.nodes.size

instance (s : Store) : (op : Operation) → Decidable (op.Valid s)
  | .newNode .. | .newGraph .. | .setInputs .. | .copy .. => isTrue trivial
  | .setApplication n fn inputs => inferInstanceAs (Decidable (n < s.nodes.size ∧
    fn < s.nodes.size ∧ ∀ x ∈ inputs, x < s.nodes.size))
  | .point source role target =>
    inferInstanceAs (Decidable (source.Offers s role ∧ target < s.nodes.size))
  | .redirect _ target => inferInstanceAs (Decidable (target < s.nodes.size))
  | .setOutput g n => inferInstanceAs (Decidable (g < s.graphs.size ∧ n < s.nodes.size))

/-- An operation has what it needs: a graph that is copied is complete. -/
def Ready (s : Store) : Operation → Prop
  | .copy g target _ => Copyable (s.graph g) target
  | _ => True

theorem dual_of_returns {act : Run Unit} {o : Option Origin} {σ σ' : Session} {u : Unit} {P : Prop}
    (hret : Returns act o σ u σ') (h : Dual σ'.store) :
    Dual (act o σ).2.store ∧ (P → (act o σ).1.isOk = true) := by
  rw [hret]
  exact ⟨h, fun _ => rfl⟩

theorem dual_of_update {f : Store → Fallible Store} (o : Option Origin) {σ : Session} {P : Prop}
    (hf : f σ.store = .ok s') (h : Dual s') :
    Dual (update f o σ).2.store ∧ (P → (update f o σ).1.isOk = true) :=
  dual_of_returns (u := ()) (returns_update.mpr ⟨s', hf, rfl⟩) h

/-- An operation leaves a dual store dual, and does not fail if it has what it needs. -/
theorem run_spec {σ : Session} (h : Dual σ.store) {op : Operation} (hop : op.Valid σ.store)
    (o : Option Origin) :
    Dual (op.run o σ).2.store ∧ (op.Ready σ.store → (op.run o σ).1.isOk = true) := by
  cases op with
  | newNode home tag value =>
    rw [run]
    exact dual_of_returns
      (returns_bind.mpr ⟨_, _, returns_newNode.mpr ⟨rfl, rfl⟩, returns_pure_self⟩)
      (h.addNode rfl rfl rfl)
  | newGraph parent tag generator =>
    rw [run]
    exact dual_of_returns
      (returns_bind.mpr ⟨_, _, returns_newGraph.mpr ⟨rfl, rfl⟩, returns_pure_self⟩)
      (h.addGraph rfl)
  | setInputs g inputs =>
    rw [run]
    exact dual_of_update o rfl (h.setInputs g inputs)
  | setApplication n fn inputs =>
    obtain ⟨s', hset, hs', -⟩ := setApplication_spec h hop.1 hop.2.1 hop.2.2
    rw [run]
    exact dual_of_update o hset hs'
  | point source role target =>
    obtain ⟨cs, s', hpoint, hcommit, hs', -⟩ := point_spec h hop.1 hop.2
    rw [run]
    refine dual_of_update o ?_ hs'
    rw [hpoint]
    exact hcommit
  | redirect n target =>
    obtain ⟨s', hset, hs', -⟩ := redirect_spec h n hop
    rw [run]
    exact dual_of_update o hset hs'
  | setOutput g n =>
    obtain ⟨s', hset, hs', -⟩ := setOutput_spec h hop.1 hop.2
    rw [run]
    exact dual_of_update o hset hs'
  | copy g target keepTags =>
    obtain ⟨hdual, hok⟩ := copy_spec (o := o) g target keepTags h
    rw [run, bind_apply]
    rcases hr : Graph.copy g target keepTags o σ with ⟨e | c, σ'⟩
    · rw [hr] at hdual hok
      exact ⟨hdual, hok⟩
    · rw [hr] at hdual
      exact ⟨hdual, fun _ => rfl⟩

end Operation

theorem inRole_empty (w : Owner) (r : Role) : inRole {} w r = none := by
  cases w with
  | graph g => cases r <;> rfl
  | node m =>
    cases r with
    | input i => exact ite_self _
    | fn | output | other => rfl

theorem dual_empty : Dual {} where
  edges {n r w} := by
    refine ⟨fun h => absurd h not_mem_nil, fun h => ?_⟩
    rw [inRole_empty] at h
    cases h
  nodup n := nodup_nil
  whole m x hx := absurd hx not_mem_nil

def afterAll (o : Option Origin) (ops : List Operation) (σ : Session) : Session :=
  ops.foldl (fun σ op => (op.run o σ).2) σ

def AllValid (o : Option Origin) : List Operation → Session → Prop
  | [], _ => True
  | op :: ops, σ => op.Valid σ.store ∧ AllValid o ops (op.run o σ).2

instance decidableAllValid (o : Option Origin) :
    (ops : List Operation) → (σ : Session) → Decidable (AllValid o ops σ)
  | [], _ => isTrue trivial
  | op :: ops, σ =>
    have := decidableAllValid o ops (op.run o σ).2
    inferInstanceAs (Decidable (op.Valid σ.store ∧ AllValid o ops (op.run o σ).2))

theorem dual_afterAll {o : Option Origin} (ops : List Operation) :
    ∀ {σ : Session}, Dual σ.store → AllValid o ops σ → Dual (afterAll o ops σ).store := by
  induction ops with
  | nil => exact fun h _ => h
  | cons op ops ih => exact fun h hops => ih (Operation.run_spec h hops.1 o).1 hops.2

/-- Whatever is done, a node lists a user in a role exactly when that user has the node in this role,
and no input is missing; and every operation that has what it needs succeeds. -/
theorem dual_of_operations {o : Option Origin} {ops : List Operation} {σ σ' : Session}
    (hσ : σ.store = {}) (hops : AllValid o ops σ) (hσ' : afterAll o ops σ = σ') :
    (∀ n r w, (r, w) ∈ (σ'.store.node n).users ↔ σ'.store.inRole w r = some n) ∧
      (∀ m, none ∉ (σ'.store.node m).inputs) ∧
      ∀ op : Operation, op.Valid σ'.store → op.Ready σ'.store → (op.run o σ').1.isOk = true := by
  have hdual : Dual σ'.store := hσ' ▸ dual_afterAll ops (hσ ▸ dual_empty) hops
  refine ⟨fun n r w => hdual.edges, fun m hm => ?_, fun op hop hready => ?_⟩
  · exact absurd (hdual.whole m none hm) (by decide)
  · exact (Operation.run_spec hdual hop o).2 hready

/-- A node that is applied to another one twice, and then to itself, in a graph that is copied. -/
def knot : List Operation :=
  let tag := Symbol.plain "x" .null 1
  [.newGraph none tag 0, .newNode (some 0) tag none, .newNode none tag (some (.int 2)),
    .newNode (some 0) tag none, .setInputs 0 [0], .setApplication 2 1 [0, 0], .setOutput 0 2,
    .redirect 0 2, .point (.node 2) (.input 0) 0, .copy 0 none false]

theorem dual_of_operations_knot :
    ((afterAll none knot {}).store.node 2).users = [(.output, .graph 0), (.input 1, .node 2)] ∧
      (∀ n r w, (r, w) ∈ ((afterAll none knot {}).store.node n).users ↔
        (afterAll none knot {}).store.inRole w r = some n) ∧
      ∀ m, none ∉ ((afterAll none knot {}).store.node m).inputs := by
  have hops : AllValid none knot {} := by decide +kernel
  obtain ⟨hedges, hwhole, -⟩ := dual_of_operations rfl hops rfl
  exact ⟨by decide +kernel, hedges, hwhole⟩

end DiffLang.Graph
