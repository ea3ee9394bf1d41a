import DiffLang.Proofs.Graph.Edges

/-!
# Moving the users of a node

A store is `Linked` when its edges are known at both ends as far as that matters: every user that is
listed is one, graphs are listed by their outputs, and a node that is used is itself listed by what it
uses. A node that nothing uses may have edges that are not listed: this is what is left of it when it
is eliminated.

Main statement: in a linked store, moving every user of `n` to `t` succeeds and does just that
(`redirect_of_linked`), and if `t` was used before, the store that results is linked again
(`Linked.redirected`).
-/

namespace DiffLang.Graph

open List Store

variable {s s' : Store} {m n t : NodeId} {g : GraphId} {w : Owner} {r : Role}

/-- A store whose edges are known at both ends, except for those of nodes that nothing uses. -/
structure Linked (s : Store) : Prop where
  held : ∀ {n r w}, (r, w) ∈ (s.node n).users → s.inRole w r = some n
  listed : ∀ {m r n}, (s.node m).users ≠ [] → s.inRole (.node m) r = some n →
    (r, .node m) ∈ (s.node n).users
  output : ∀ {g n}, (s.graph g).output = some n → (.output, .graph g) ∈ (s.node n).users
  nodup : ∀ n, (s.node n).users.Nodup
  whole : ∀ m, ∀ x ∈ (s.node m).inputs, x.isSome = true
  bare : ∀ m, (s.node m).fn = none → (s.node m).inputs = []
  known : ∀ m, (s.node m).value.isSome = true → (s.node m).fn = none

theorem Linked.used_of_needs (h : Linked s) (hm : (s.node m).users ≠ []) (hn : Needs s m n) :
    (s.node n).users ≠ [] := by
  obtain ⟨r, hr⟩ := needs_iff_inRole.mp hn
  exact ne_nil_of_mem (h.listed hm hr)

theorem linked_of_forall (hn : ∀ n < s.nodes.size,
      (∀ u ∈ (s.node n).users, s.inRole u.2 u.1 = some n) ∧
      (∀ x ∈ (s.node n).edges, (x.1, Owner.node n) ∈ (s.node x.2).users) ∧
      (s.node n).users.Nodup ∧ (∀ x ∈ (s.node n).inputs, x.isSome = true) ∧
      ((s.node n).fn = none → (s.node n).inputs = []) ∧
      ((s.node n).value.isSome = true → (s.node n).fn = none))
    (hg : ∀ g < s.graphs.size, ∀ n ∈ (s.graph g).output, (.output, .graph g) ∈ (s.node n).users) :
    Linked s := by
  have hout : ∀ {n}, ¬ n < s.nodes.size → s.node n = default := fun h =>
    node_of_size_le (Nat.le_of_not_lt h)
  have hsize : ∀ {n}, (s.node n).users ≠ [] → n < s.nodes.size := lt_size_of_users
  refine ⟨fun hu => ?_, fun {m r n} _ h => ?_, fun {g n} h => ?_, fun n => ?_, fun m => ?_,
    fun m => ?_, fun m => ?_⟩
  · exact (hn _ (hsize (ne_nil_of_mem hu))).1 _ hu
  · exact (hn m (lt_size_of_inRole h)).2.1 (r, n) (Node.mem_edges_iff.mpr h)
  · exact hg g (lt_size_of_output h) n h
  · by_cases h : n < s.nodes.size
    · exact (hn n h).2.2.1
    · rw [hout h]
      exact nodup_nil
  · by_cases h : m < s.nodes.size
    · exact (hn m h).2.2.2.1
    · rw [hout h]
      exact fun x hx => absurd hx not_mem_nil
  · by_cases h : m < s.nodes.size
    · exact (hn m h).2.2.2.2.1
    · rw [hout h]
      exact fun _ => rfl
  · by_cases h : m < s.nodes.size
    · exact (hn m h).2.2.2.2.2
    · rw [hout h]
      exact fun _ => rfl

/-! ## Users -/

/-- Two stores that differ only in the users that nodes list. -/
structure SameEdges (s s' : Store) : Prop where
  nodes : s'.nodes.size = s.nodes.size
  graphs : s'.graphs = s.graphs
  node : ∀ m, s'.node m = { s.node m with users := (s'.node m).users }

theorem SameEdges.graph (h : SameEdges s s') (g : GraphId) : s'.graph g = s.graph g := by
  unfold Store.graph
  rw [h.graphs]

theorem SameEdges.inRole (h : SameEdges s s') (w : Owner) (r : Role) :
    s'.inRole w r = s.inRole w r := by
  cases w with
  | node m =>
    rw [inRole_node, inRole_node, h.node m]
    rfl
  | graph g => rw [inRole_graph, inRole_graph, h.graph g]

theorem sameEdges_modifyNode (n : NodeId) (f : Node → List (Role × Owner)) :
    SameEdges s (s.modifyNode n fun m => { m with users := f m }) where
  nodes := by simp
  graphs := rfl
  node m := by
    rw [node_modifyNode]
    split <;> rfl

theorem addUser_eq (s : Store) (n : NodeId) (u : Role × Owner) :
    s.addUser n u = s.modifyNode n fun m =>
      { m with users := if m.users.contains u then m.users else m.users ++ [u] } := by
  unfold Store.addUser
  congr 1
  funext m
  split <;> rfl

variable {u v : Role × Owner} {x : NodeId}

theorem mem_users_addUser (hn : n < s.nodes.size) :
    v ∈ ((s.addUser n u).node x).users ↔ v ∈ (s.node x).users ∨ (x = n ∧ v = u) := by
  rw [addUser_eq, node_modifyNode]
  by_cases hx : n = x
  · subst hx
    simp only [hn, and_self, if_true, true_and]
    split
    next h =>
      rw [contains_iff_mem] at h
      exact ⟨.inl, fun hv => hv.elim id fun hv => hv ▸ h⟩
    · simp
  · simp [hx, Ne.symm hx]

theorem nodup_users_addUser (h : (s.node x).users.Nodup) :
    ((s.addUser n u).node x).users.Nodup := by
  rw [addUser_eq, node_modifyNode]
  split
  · dsimp only
    split
    · exact h
    next hu =>
      rw [contains_iff_mem] at hu
      exact nodup_append.mpr ⟨h, by simp, by
        intro a ha b hb
        rw [mem_singleton] at hb
        rw [hb]
        exact fun he => hu (he ▸ ha)⟩
  · exact h

theorem removeUser_of_mem (h : u ∈ (s.node n).users) :
    s.removeUser n u = .ok (s.modifyNode n fun m => { m with users := m.users.erase u }) := by
  unfold Store.removeUser
  rw [if_pos (contains_iff_mem.mpr h)]

theorem mem_users_erase (h : ∀ x, (s.node x).users.Nodup) (hu : u ∈ (s.node n).users) :
    v ∈ ((s.modifyNode n fun m => { m with users := m.users.erase u }).node x).users ↔
      v ∈ (s.node x).users ∧ ¬ (x = n ∧ v = u) := by
  have hn : n < s.nodes.size := lt_size_of_users (ne_nil_of_mem hu)
  rw [node_modifyNode]
  by_cases hx : n = x
  · subst hx
    simp only [hn, and_self, if_true, true_and, (h n).mem_erase_iff]
    exact and_comm
  · simp [hx, Ne.symm hx]

theorem nodup_users_erase (h : ∀ x, (s.node x).users.Nodup) (x : NodeId) :
    ((s.modifyNode n fun m => { m with users := m.users.erase u }).node x).users.Nodup := by
  rw [node_modifyNode]
  split
  · exact (h x).erase _
  · exact h x

/-! ## Moving users -/

/-- Some users of `n` now use `t`. -/
structure Rerouted (s s' : Store) (us : List (Role × Owner)) (n t : NodeId) : Prop where
  nodes : s'.nodes.size = s.nodes.size
  graphs : s'.graphs.size = s.graphs.size
  node : ∀ m, s'.node m = { s.node m with
    fn := (s'.node m).fn, inputs := (s'.node m).inputs, users := (s'.node m).users }
  graph : ∀ g, s'.graph g = { s.graph g with output := (s'.graph g).output }
  inRole : ∀ w r, s'.inRole w r = if (r, w) ∈ us then some t else s.inRole w r
  tight : ∀ m, Tight (s.node m).inputs → Tight (s'.node m).inputs
  users : ∀ x u, u ∈ (s'.node x).users ↔
    (u ∈ (s.node x).users ∧ ¬ (x = n ∧ u ∈ us)) ∨ (x = t ∧ u ∈ us)
  nodup : ∀ x, (s'.node x).users.Nodup

theorem Rerouted.refl (h : ∀ x, (s.node x).users.Nodup) : Rerouted s s [] n t where
  nodes := rfl
  graphs := rfl
  node _ := rfl
  graph _ := rfl
  inRole w r := by simp
  tight _ := id
  users x u := by simp
  nodup := h

theorem Rerouted.trans {s1 : Store} {us vs : List (Role × Owner)} (h1 : Rerouted s s1 us n t)
    (h2 : Rerouted s1 s' vs n t) : Rerouted s s' (us ++ vs) n t where
  nodes := h2.nodes.trans h1.nodes
  graphs := h2.graphs.trans h1.graphs
  node m := by rw [h2.node, h1.node]
  graph g := by rw [h2.graph, h1.graph]
  inRole w r := by
    rw [h2.inRole, h1.inRole]
    by_cases hv : (r, w) ∈ vs <;> simp [hv]
  tight m h := h2.tight m (h1.tight m h)
  users x u := by
    rw [h2.users, h1.users, mem_append]
    tauto
  nodup := h2.nodup

theorem commit_move (hheld : s.inRole w r = some n) (huser : (r, w) ∈ (s.node n).users)
    (hnodup : ∀ x, (s.node x).users.Nodup) (ht : t < s.nodes.size) :
    ∃ s', s.commit [.unlink w n r, .link w t r] = .ok s' ∧ Rerouted s s' [(r, w)] n t := by
  -- the four steps: forget the edge at its source, then at its target, and note the new one
  obtain ⟨s1, h1, e1⟩ := detach_of_held hheld
  have hnode1 : ∀ x, (s1.node x).users = (s.node x).users := fun x => by rw [e1.node x]
  have huser1 : (r, w) ∈ (s1.node n).users := by rw [hnode1]; exact huser
  have hnodup1 : ∀ x, (s1.node x).users.Nodup := fun x => by rw [hnode1]; exact hnodup x
  obtain ⟨s2, hs2⟩ : ∃ s2, s2 = s1.modifyNode n fun m =>
    { m with users := m.users.erase (r, w) } := ⟨_, rfl⟩
  have e2 : SameEdges s1 s2 := by
    rw [hs2]
    exact sameEdges_modifyNode n _
  have husers2 : ∀ x u, u ∈ (s2.node x).users ↔
      u ∈ (s.node x).users ∧ ¬ (x = n ∧ u = (r, w)) := by
    intro x u
    rw [hs2, mem_users_erase hnodup1 huser1, hnode1]
  have hnodup2 : ∀ x, (s2.node x).users.Nodup := fun x => by
    rw [hs2]
    exact nodup_users_erase hnodup1 x
  have hfree : s2.inRole w r = none := by
    rw [e2.inRole, e1.inRole, if_pos ⟨rfl, rfl⟩]
  have hthere : w.There s2 := by
    have h := Owner.there_of_inRole hheld
    cases w with
    | node k =>
      show k < s2.nodes.size
      rw [e2.nodes, e1.nodes]
      exact h
    | graph k =>
      show k < s2.graphs.size
      rw [e2.graphs, e1.graphs]
      exact h
  obtain ⟨s3, h3, e3⟩ := attach_of_free (Owner.gives_of_inRole hheld) hthere hfree t
  have hsize : t < s3.nodes.size := by
    rw [e3.nodes, e2.nodes, e1.nodes]
    exact ht
  have e4 : SameEdges s3 (s3.addUser t (r, w)) := by
    rw [addUser_eq]
    exact sameEdges_modifyNode t _
  refine ⟨s3.addUser t (r, w), ?_, ?_⟩
  · simp only [Store.commit, foldlM_cons, foldlM_nil, Store.apply, Store.unlink, h1,
      Store.link, bind, Except.bind, removeUser_of_mem huser1, ← hs2, h3, pure, Except.pure]
  · refine ⟨?_, ?_, fun m => ?_, fun g => ?_, fun w' r' => ?_, fun m h => ?_, fun x u => ?_,
      fun x => nodup_users_addUser ?_⟩
    · rw [e4.nodes, e3.nodes, e2.nodes, e1.nodes]
    · rw [e4.graphs, e3.graphs, e2.graphs, e1.graphs]
    · rw [e4.node, e3.node, e2.node, e1.node]
    · rw [e4.graph, e3.graph, e2.graph, e1.graph]
    · rw [e4.inRole, e3.inRole, e2.inRole, e1.inRole]
      by_cases hw : w' = w ∧ r' = r
      · rw [if_pos hw, if_pos (by simp [hw])]
      · rw [if_neg hw, if_neg hw, if_neg (by simpa [and_comm] using hw)]
    · rw [e4.node]
      refine e3.tight m ?_
      rw [e2.node]
      exact e1.tight m h
    · rw [mem_users_addUser hsize, e3.node, husers2, mem_singleton]
    · rw [e3.node]
      exact hnodup2 x

/-- The changes that move one user of `n` to `t`. A node that uses `t` already is left as it is. -/
def moves (n t : NodeId) : Role × Owner → List Change
  | (r, .node m) => if n = t then [] else [.unlink (.node m) n r, .link (.node m) t r]
  | (r, .graph g) => [.unlink (.graph g) n r, .link (.graph g) t r]

theorem pointTo_of_held (h : s.inRole w r = some n) (t : NodeId) :
    s.pointTo w r (some t) = .ok (moves n t (r, w)) := by
  have hgives := Owner.gives_of_inRole h
  cases w with
  | node m =>
    have hfollow : s.follow m r = .ok (some n) := by
      cases r with
      | fn => exact congrArg Except.ok h
      | input j =>
        obtain ⟨i, rfl⟩ := Int.eq_ofNat_of_zero_le hgives
        rw [inRole_node, Node.inRole_input, Option.join_eq_some_iff] at h
        have hi : i < (s.node m).inputs.length := (List.getElem?_eq_some_iff.mp h).1
        simp only [Store.follow]
        rw [position?_natCast hi]
        simp only
        rw [getD_eq_getElem?_getD, h]
        rfl
      | output | other => exact hgives.elim
    unfold Store.pointTo
    simp only [hfollow, bind, Except.bind, moves, Option.some.injEq]
    split <;> rfl
  | graph g =>
    cases r with
    | output =>
      rw [inRole_graph, if_pos rfl] at h
      unfold Store.pointTo
      simp only [h, moves]
      rfl
    | fn | input | other => exact hgives.elim

theorem redirectChanges_of_held (h : ∀ u ∈ (s.node n).users, s.inRole u.2 u.1 = some n) (t : NodeId) :
    s.redirectChanges n t = .ok ((s.node n).users.flatMap (moves n t)) := by
  have hfold : ∀ (us : List (Role × Owner)) (acc : List Change),
      (∀ u ∈ us, s.inRole u.2 u.1 = some n) →
      us.foldlM (fun acc (u : Role × Owner) => do
        pure (acc ++ (← s.pointTo u.2 u.1 (some t)))) acc =
        (.ok (acc ++ us.flatMap (moves n t)) : Fallible (List Change)) := by
    intro us
    induction us with
    | nil =>
      intro acc _
      simp [pure, Except.pure]
    | cons u us ih =>
      intro acc hus
      rw [foldlM_cons, pointTo_of_held (hus u mem_cons_self) t]
      refine (ih _ fun v hv => hus v (mem_cons_of_mem u hv)).trans ?_
      rw [flatMap_cons, append_assoc]
  exact hfold _ [] h

theorem commit_moves (us : List (Role × Owner)) (hus : us.Nodup)
    (hheld : ∀ u ∈ us, s.inRole u.2 u.1 = some n) (hmem : ∀ u ∈ us, u ∈ (s.node n).users)
    (hnodup : ∀ x, (s.node x).users.Nodup) (ht : t < s.nodes.size) :
    ∃ s', s.commit (us.flatMap fun u => [.unlink u.2 n u.1, .link u.2 t u.1]) = .ok s' ∧
      Rerouted s s' us n t := by
  induction us generalizing s with
  | nil => exact ⟨s, rfl, Rerouted.refl hnodup⟩
  | cons u us ih =>
    obtain ⟨hu, hus⟩ := nodup_cons.mp hus
    obtain ⟨s1, h1, e1⟩ := commit_move (hheld u mem_cons_self) (hmem u mem_cons_self)
      hnodup ht
    have hother : ∀ v ∈ us, v ∉ [(u.1, u.2)] := by
      intro v hv he
      have hvu : v = u := mem_singleton.mp he
      exact hu (hvu ▸ hv)
    have hheld1 : ∀ v ∈ us, s1.inRole v.2 v.1 = some n := by
      intro v hv
      rw [e1.inRole, if_neg (hother v hv)]
      exact hheld v (mem_cons_of_mem u hv)
    have hmem1 : ∀ v ∈ us, v ∈ (s1.node n).users := fun v hv =>
      (e1.users n v).mpr (.inl ⟨hmem v (mem_cons_of_mem u hv), fun h => hother v hv h.2⟩)
    obtain ⟨s', h', e'⟩ := ih hus hheld1 hmem1 e1.nodup (e1.nodes ▸ ht)
    refine ⟨s', ?_, e1.trans e'⟩
    unfold Store.commit at h1 h' ⊢
    rw [flatMap_cons, foldlM_append, h1]
    exact h'

abbrev Redirected (s s' : Store) (n t : NodeId) : Prop := Rerouted s s' (s.node n).users n t

theorem commit_redirect_of_held (hheld : ∀ u ∈ (s.node n).users, s.inRole u.2 u.1 = some n)
    (hnodup : ∀ x, (s.node x).users.Nodup) (ht : t < s.nodes.size) :
    ∃ s', s.commit ((s.node n).users.flatMap (moves n t)) = .ok s' ∧ Redirected s s' n t := by
  by_cases hnt : n = t
  · -- only graphs are moved, and to where they are
    subst hnt
    obtain ⟨us, hus⟩ : ∃ us, us = (s.node n).users.filter fun u => u.2 matches .graph _ :=
      ⟨_, rfl⟩
    have hsub : ∀ u ∈ us, u ∈ (s.node n).users := fun u hu =>
      mem_of_mem_filter (hus ▸ hu)
    obtain ⟨s', h', e'⟩ := commit_moves us (hus ▸ (hnodup n).filter _)
      (fun u hu => hheld u (hsub u hu)) hsub hnodup ht
    refine ⟨s', ?_, ?_⟩
    · rw [← h', hus]
      congr 1
      clear hus h' e' hsub
      induction (s.node n).users with
      | nil => rfl
      | cons u vs ih =>
        obtain ⟨r, w⟩ := u
        cases w <;> simp [moves, ih]
    · refine ⟨e'.nodes, e'.graphs, e'.node, e'.graph, fun w r => ?_, e'.tight, fun x u => ?_,
        e'.nodup⟩
      · rw [e'.inRole]
        split
        next hu => rw [if_pos (hsub _ hu)]
        · split
          next hu => exact hheld _ hu
          · rfl
      · rw [e'.users]
        have := hsub u
        by_cases hx : x = n
        · subst hx
          tauto
        · tauto
  · have hmoves : (moves n t) = fun u => [Change.unlink u.2 n u.1, .link u.2 t u.1] := by
      funext u
      obtain ⟨r, w⟩ := u
      cases w <;> simp [moves, hnt]
    rw [hmoves]
    exact commit_moves _ (hnodup n) hheld (fun u hu => hu) hnodup ht

theorem Linked.commit_redirect (h : Linked s) (n : NodeId) (ht : t < s.nodes.size) :
    ∃ s', s.commit ((s.node n).users.flatMap (moves n t)) = .ok s' ∧ Redirected s s' n t :=
  commit_redirect_of_held (fun _ hu => h.held hu) h.nodup ht

/-! ## What stays linked -/

/-- Where an edge to `n` leads when the users of `n` were moved to `t`. -/
def moved (n t x : NodeId) : NodeId := if x = n then t else x

theorem Redirected.inRole_of_listed (h : Redirected s s' n t) (hl : Linked s)
    (hx : s.inRole w r = some x) (hu : (r, w) ∈ (s.node x).users) :
    s'.inRole w r = some (moved n t x) := by
  rw [h.inRole]
  unfold moved
  by_cases hn : x = n
  · rw [if_pos hn, if_pos (hn ▸ hu)]
  · rw [if_neg hn, if_neg, hx]
    intro hu'
    rw [hl.held hu', Option.some.injEq] at hx
    exact hn hx.symm

theorem Redirected.isSome_inRole (h : Redirected s s' n t) (hl : Linked s) (w : Owner) (r : Role) :
    (s'.inRole w r).isSome = (s.inRole w r).isSome := by
  rw [h.inRole]
  split
  next hu => rw [hl.held hu]; rfl
  · rfl

theorem Redirected.inputs_eq (h : Redirected s s' n t) (hl : Linked s) (m : NodeId) :
    (s'.node m).inputs = (s.node m).inputs.mapIdx fun i x =>
      if (Role.input i, Owner.node m) ∈ (s.node n).users then some t else x := by
  refine Tight.ext (h.tight m (tight_of_whole (hl.whole m))) (tight_of_whole ?_) fun i => ?_
  · intro y hy
    obtain ⟨i, hi, rfl⟩ := mem_mapIdx.mp hy
    split
    · rfl
    · exact hl.whole m _ (getElem_mem hi)
  · have hi := h.inRole (.node m) (.input i)
    rw [inRole_node, inRole_node, Node.inRole_input, Node.inRole_input] at hi
    rw [hi, getElem?_mapIdx]
    split
    next hu =>
      have := hl.held hu
      rw [inRole_node, Node.inRole_input, Option.join_eq_some_iff] at this
      rw [this]
      rfl
    · cases (s.node m).inputs[i]? <;> rfl

/-- A node whose edges are all known at their targets. -/
def Listed (s : Store) (m : NodeId) : Prop :=
  ∀ r x, s.inRole (.node m) r = some x → (r, .node m) ∈ (s.node x).users

theorem Linked.listed_of_used (hl : Linked s) (hm : (s.node m).users ≠ []) : Listed s m :=
  fun _ _ h => hl.listed hm h

theorem Redirected.application?_of_listed (h : Redirected s s' n t) (hl : Linked s)
    (hm : Listed s m) :
    (s'.node m).application? =
      (s.node m).application?.map (List.map (Option.map (moved n t))) := by
  have hfn : (s'.node m).fn = (s.node m).fn.map (moved n t) := by
    cases hf : (s.node m).fn with
    | none =>
      have := h.isSome_inRole hl (.node m) .fn
      rw [inRole_node, inRole_node, Node.inRole, Node.inRole, hf] at this
      exact Option.not_isSome_iff_eq_none.mp (by rw [this]; simp)
    | some f =>
      have hrole : s.inRole (.node m) .fn = some f := hf
      exact h.inRole_of_listed hl hrole (hm _ _ hrole)
  have hinputs : (s'.node m).inputs = (s.node m).inputs.map (Option.map (moved n t)) := by
    rw [h.inputs_eq hl]
    refine ext_getElem (by simp) fun i h1 h2 => ?_
    rw [getElem_mapIdx, getElem_map]
    have hi : i < (s.node m).inputs.length := by simpa using h1
    obtain ⟨x, hx⟩ := Option.isSome_iff_exists.mp (hl.whole m _ (getElem_mem hi))
    have hrole : s.inRole (.node m) (.input i) = some x := by
      rw [inRole_node, Node.inRole_input, getElem?_eq_getElem hi, hx]
      rfl
    have hmove := h.inRole_of_listed hl hrole (hm _ _ hrole)
    rw [h.inRole, hrole, hx] at *
    exact hmove
  unfold Node.application?
  rw [hfn, hinputs]
  cases (s.node m).fn <;> rfl

theorem Redirected.application?_of_not_user (h : Redirected s s' n t) (hl : Linked s)
    (hm : ∀ r, (r, Owner.node m) ∉ (s.node n).users) :
    (s'.node m).application? = (s.node m).application? := by
  have hfn : (s'.node m).fn = (s.node m).fn := by
    have := h.inRole (.node m) .fn
    rw [if_neg (hm .fn)] at this
    exact this
  have hinputs : (s'.node m).inputs = (s.node m).inputs := by
    rw [h.inputs_eq hl]
    refine ext_getElem (by simp) fun i h1 h2 => ?_
    rw [getElem_mapIdx, if_neg (hm _)]
  unfold Node.application?
  rw [hfn, hinputs]

theorem Redirected.needs (h : Redirected s s' n t) (hl : Linked s) (hx : Needs s' m x) :
    Needs s m x ∨ (x = t ∧ Needs s m n) := by
  obtain ⟨r, hr⟩ := needs_iff_inRole.mp hx
  rw [h.inRole] at hr
  split at hr
  next hu =>
    injection hr with hr
    exact .inr ⟨hr.symm, needs_iff_inRole.mpr ⟨r, hl.held hu⟩⟩
  · exact .inl (needs_iff_inRole.mpr ⟨r, hr⟩)

theorem Redirected.users_eq_nil (h : Redirected s s' n t) (hnt : n ≠ t) :
    (s'.node n).users = [] := by
  refine eq_nil_iff_forall_not_mem.mpr fun u hu => ?_
  rcases (h.users n u).mp hu with ⟨hu, hn⟩ | ⟨he, -⟩
  · exact hn ⟨rfl, hu⟩
  · exact hnt he

theorem Redirected.used_before (h : Redirected s s' n t) (ht : (s.node t).users ≠ [])
    (hm : (s'.node m).users ≠ []) : (s.node m).users ≠ [] := by
  obtain ⟨u, hu⟩ := exists_mem_of_ne_nil _ hm
  rcases (h.users m u).mp hu with ⟨hu, -⟩ | ⟨rfl, -⟩
  · exact ne_nil_of_mem hu
  · exact ht

/-- A store stays linked when users are moved to a node whose edges are known. -/
theorem Linked.redirected_of_listed (hl : Linked s) (h : Redirected s s' n t) (ht : Listed s t) :
    Linked s' := by
  have hvalue : ∀ m, (s'.node m).value = (s.node m).value := fun m => by rw [h.node m]
  have hlist : ∀ {w r x}, s'.inRole w r = some x →
      (∀ {y}, s.inRole w r = some y → (r, w) ∈ (s.node y).users) → (r, w) ∈ (s'.node x).users := by
    intro w r x hx hu
    rw [h.inRole] at hx
    rw [h.users]
    split at hx
    next hn =>
      injection hx with hx
      exact .inr ⟨hx.symm, hn⟩
    next hn => exact .inl ⟨hu hx, fun hc => hn hc.2⟩
  -- what is used after the move was used before, or is the node that users were moved to
  have hlisted : ∀ {m}, (s'.node m).users ≠ [] → Listed s m := by
    intro m hm
    obtain ⟨u, hu⟩ := exists_mem_of_ne_nil _ hm
    rcases (h.users m u).mp hu with ⟨hu, -⟩ | ⟨rfl, -⟩
    · exact hl.listed_of_used (ne_nil_of_mem hu)
    · exact ht
  refine ⟨?_, fun hm hx => hlist hx fun hy => hlisted hm _ _ hy, fun {g x} hx => ?_, h.nodup,
    fun m x hx => ?_, fun m hm => ?_, fun m hm => ?_⟩
  · intro x r w hu
    rw [h.inRole]
    rcases (h.users x (r, w)).mp hu with ⟨hu, hn⟩ | ⟨rfl, hu⟩
    · rw [if_neg]
      · exact hl.held hu
      · intro hu'
        have := hl.held hu
        rw [hl.held hu', Option.some.injEq] at this
        exact hn ⟨this.symm, hu'⟩
    · rw [if_pos hu]
  · refine hlist (by rw [inRole_graph, if_pos rfl]; exact hx) fun {y} hy => ?_
    rw [inRole_graph, if_pos rfl] at hy
    exact hl.output hy
  · rw [h.inputs_eq hl] at hx
    obtain ⟨i, hi, rfl⟩ := mem_mapIdx.mp hx
    split
    · rfl
    · exact hl.whole m _ (getElem_mem hi)
  · have hfn := h.isSome_inRole hl (.node m) .fn
    rw [inRole_node, inRole_node, Node.inRole, Node.inRole, hm] at hfn
    rw [h.inputs_eq hl, hl.bare m (Option.not_isSome_iff_eq_none.mp (by rw [← hfn]; simp))]
    rfl
  · have hfn := h.isSome_inRole hl (.node m) .fn
    rw [inRole_node, inRole_node, Node.inRole, Node.inRole,
      hl.known m (hvalue m ▸ hm)] at hfn
    exact Option.not_isSome_iff_eq_none.mp (by rw [hfn]; simp)

theorem Linked.redirected (hl : Linked s) (h : Redirected s s' n t) (ht : (s.node t).users ≠ []) :
    Linked s' :=
  hl.redirected_of_listed h (hl.listed_of_used ht)

theorem Linked.redirectChanges_eq (h : Linked s) (n t : NodeId) :
    s.redirectChanges n t = .ok ((s.node n).users.flatMap (moves n t)) :=
  redirectChanges_of_held (fun _ hu => h.held hu) t

end DiffLang.Graph
