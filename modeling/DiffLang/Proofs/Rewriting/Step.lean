import DiffLang.Proofs.Graph.Making
import DiffLang.Proofs.Rewriting.Matching

/-!
# One node of the pool

What looking at one node of the pool does is said by `Processed`, in one of three ways: a constant
that is a graph is followed; a node where no rule applies is settled; and a node that a rule replaces
has its users moved, after which the edges of what is not used any more are dropped. Every invariant of
the runs of the rewriting is derived from this (`process_cases`), and none from the program itself.

Which node comes next is not fixed: a `Turn` takes any node of the pool, and `run` takes turns
(`turns_of_run`).
-/

open Relation (ReflTransGen)

namespace DiffLang.Graph

open Run List

variable {s s' : Store} {m n t : NodeId} {g : GraphId} {host : Host} {near : Neighbours}
  {o : Option Origin} {σ σ' : Session}

/-! ## Dropping edges -/

/-- Two stores that differ only in edges of some nodes, which are dropped at their targets. -/
structure Shed (P : NodeId → Prop) (s s' : Store) : Prop where
  same : SameEdges s s'
  users : ∀ x, (s'.node x).users.Sublist (s.node x).users
  gone : ∀ x u, u ∈ (s.node x).users → u ∈ (s'.node x).users ∨ ∃ m, u.2 = .node m ∧ P m

abbrev Dropped (s s' : Store) : Prop := Shed (fun m => (s'.node m).users = []) s s'

theorem SameEdges.refl (s : Store) : SameEdges s s := ⟨rfl, rfl, fun _ => rfl⟩

variable {s1 : Store} {P : NodeId → Prop}

theorem SameEdges.trans (h1 : SameEdges s s1) (h2 : SameEdges s1 s') :
    SameEdges s s' where
  nodes := h2.nodes.trans h1.nodes
  graphs := h2.graphs.trans h1.graphs
  node m := by rw [h2.node, h1.node]

theorem Shed.refl (P : NodeId → Prop) (s : Store) : Shed P s s :=
  ⟨SameEdges.refl s, fun _ => List.Sublist.refl _, fun _ _ h => .inl h⟩

theorem Shed.mono {Q : NodeId → Prop} (h : Shed P s s') (hPQ : ∀ m, P m → Q m) : Shed Q s s' :=
  ⟨h.same, h.users, fun x u hu => (h.gone x u hu).imp id fun ⟨m, hm, hp⟩ => ⟨m, hm, hPQ m hp⟩⟩

theorem Shed.trans (h1 : Shed P s s1) (h2 : Shed P s1 s') :
    Shed P s s' where
  same := h1.same.trans h2.same
  users x := (h2.users x).trans (h1.users x)
  gone x u hu := (h1.gone x u hu).elim (h2.gone x u) .inr

theorem Shed.unused (h : Shed P s s') (hm : (s.node m).users = []) :
    (s'.node m).users = [] :=
  sublist_nil.mp (hm ▸ h.users m)

theorem Dropped.trans (h1 : Dropped s s1) (h2 : Dropped s1 s') : Dropped s s' :=
  (h1.mono fun _ hm => h2.unused hm).trans h2

instance (P : NodeId → Prop) : IsPreorder Session fun σ σ' => Shed P σ.store σ'.store where
  refl σ := Shed.refl P σ.store
  trans _ _ _ := Shed.trans

instance : IsPreorder Session fun σ σ' => Dropped σ.store σ'.store where
  refl σ := Shed.refl _ σ.store
  trans _ _ _ := Dropped.trans

theorem Linked.dropped (hl : Linked s) (h : Dropped s s') : Linked s' := by
  have hsub : ∀ {x u}, u ∈ (s'.node x).users → u ∈ (s.node x).users := fun hu => (h.users _).subset hu
  refine ⟨fun hu => ?_, fun {m r n} hm hn => ?_, fun {g n} hg => ?_, fun n => ?_, fun m => ?_, fun m => ?_,
    fun m => ?_⟩
  · rw [h.same.inRole]
    exact hl.held (hsub hu)
  · rw [h.same.inRole] at hn
    have hused : (s.node m).users ≠ [] := fun hnil => hm (h.unused hnil)
    rcases h.gone n _ (hl.listed hused hn) with hu | ⟨m', hm', hnone⟩
    · exact hu
    · cases hm'
      exact absurd hnone hm
  · rw [h.same.graph] at hg
    rcases h.gone n _ (hl.output hg) with hu | ⟨m', hm', -⟩
    · exact hu
    · cases hm'
  · exact (h.users n).nodup (hl.nodup n)
  · rw [h.same.node]
    exact hl.whole m
  · rw [h.same.node]
    exact hl.bare m
  · rw [h.same.node]
    exact hl.known m

theorem keeps_forIn {α β : Type} {R : Session → Session → Prop} [IsPreorder Session R]
    {f : α → β → Run (ForInStep β)} (hf : ∀ a b, Keeps R (f a b)) :
    ∀ (xs : List α) (b : β), Keeps R (forIn xs b f)
  | [], b => by
    rw [forIn_nil]
    exact keeps_pure b
  | x :: xs, b => by
    rw [forIn_cons]
    refine (hf x b).bind fun step => ?_
    cases step with
    | done b => exact keeps_pure b
    | yield b => exact keeps_forIn hf xs b

namespace Equilibrium

theorem shed_of_removeUser {r : Role} (h : s.removeUser m (r, .node n) = .ok s') :
    Shed (· = n) s s' := by
  unfold Store.removeUser at h
  split at h
  next hu =>
    cases h
    refine ⟨sameEdges_modifyNode m _, fun x => ?_, fun x u hux => ?_⟩
    · rw [Store.node_modifyNode]
      split
      · exact erase_sublist
      · exact List.Sublist.refl _
    · rw [Store.node_modifyNode]
      split
      · by_cases he : u = (r, .node n)
        · exact .inr ⟨n, by rw [he], rfl⟩
        · exact .inl ((mem_erase_of_ne he).mpr hux)
      · exact .inl hux
  · cases h

theorem exists_returns_removeUsers (es : List (Role × NodeId)) (hes : (es.map Prod.fst).Nodup)
    (hnodup : ∀ x, (σ.store.node x).users.Nodup)
    (hlisted : ∀ x ∈ es, (x.1, Owner.node n) ∈ (σ.store.node x.2).users) :
    ∃ σ', Returns (forIn es PUnit.unit fun x _ => do
        update fun s => s.removeUser x.2 (x.1, .node n)
        pure (ForInStep.yield PUnit.unit)) o σ PUnit.unit σ' ∧
      SameEdges σ.store σ'.store ∧ (∀ x, (σ'.store.node x).users.Nodup) ∧
      ∀ x u, u ∈ (σ'.store.node x).users ↔
        u ∈ (σ.store.node x).users ∧ ¬ ∃ r, (r, x) ∈ es ∧ u = (r, .node n) := by
  induction es generalizing σ with
  | nil => exact ⟨σ, by simp, SameEdges.refl _, hnodup, by simp⟩
  | cons y es ih =>
    obtain ⟨hy, hes⟩ := nodup_cons.mp hes
    have hmem := hlisted y mem_cons_self
    obtain ⟨s1, hs1⟩ : ∃ s1, s1 = σ.store.modifyNode y.2 fun m =>
      { m with users := m.users.erase (y.1, .node n) } := ⟨_, rfl⟩
    have hremove : σ.store.removeUser y.2 (y.1, .node n) = .ok s1 := by
      rw [hs1, removeUser_of_mem hmem]
    have husers : ∀ x u, u ∈ (s1.node x).users ↔
        u ∈ (σ.store.node x).users ∧ ¬ (x = y.2 ∧ u = (y.1, .node n)) := fun x u => by
      rw [hs1, mem_users_erase hnodup hmem]
    have hsame : SameEdges σ.store s1 := by
      rw [hs1]
      exact sameEdges_modifyNode y.2 _
    -- the other edges have other roles, so that they are still listed
    obtain ⟨σ', hloop, hsame', hnodup', husers'⟩ := ih (σ := { σ with store := s1 }) hes
      (fun x => by rw [hs1]; exact nodup_users_erase hnodup x)
      (fun x hx => (husers _ _).mpr ⟨hlisted x (mem_cons_of_mem _ hx), fun hc => hy (by
        injection hc.2 with hrole
        exact mem_map.mpr ⟨x, hx, hrole⟩)⟩)
    refine ⟨σ', ?_, hsame.trans hsame', hnodup', fun x u => ?_⟩
    · rw [forIn_cons]
      simp only [returns_bind, returns_update, returns_pure]
      exact ⟨_, _, ⟨(), _, ⟨s1, hremove, rfl⟩, rfl, rfl⟩, hloop⟩
    · rw [husers', husers]
      simp only [mem_cons]
      constructor
      · rintro ⟨⟨hu, hne⟩, hnot⟩
        refine ⟨hu, ?_⟩
        rintro ⟨r, rfl | hr, rfl⟩
        · exact hne ⟨rfl, rfl⟩
        · exact hnot ⟨r, hr, rfl⟩
      · rintro ⟨hu, hnot⟩
        refine ⟨⟨hu, ?_⟩, ?_⟩
        · rintro ⟨rfl, rfl⟩
          exact hnot ⟨y.1, .inl rfl, rfl⟩
        · rintro ⟨r, hr, rfl⟩
          exact hnot ⟨r, .inr hr, rfl⟩

/-- Eliminating a node drops edges of nodes that are not used. -/
theorem keeps_eliminate : ∀ (fuel : Nat) (n : NodeId),
    Keeps (fun σ σ' => Dropped σ.store σ'.store) (eliminate fuel n)
  | 0, n => keeps_throw _
  | fuel + 1, n => by
    intro o σ u σ' h
    unfold eliminate at h
    simp only [returns_bind, returns_get] at h
    obtain ⟨_, _, ⟨rfl, rfl⟩, h⟩ := h
    split at h
    next hnil =>
      obtain ⟨_, σ1, h1, h2⟩ := returns_bind.mp h
      have hshed : Shed (· = n) σ.store σ1.store := by
        refine keeps_forIn (R := fun σ σ' => Shed (· = n) σ.store σ'.store) (fun a b => ?_)
          _ _ o σ _ σ1 h1
        refine .bind ?_ fun _ => keeps_pure _
        intro o τ u τ' hτ
        obtain ⟨store, hstore, rfl⟩ := returns_update.mp hτ
        exact shed_of_removeUser hstore
      have hnone : (σ1.store.node n).users = [] := hshed.unused (List.isEmpty_iff.mp hnil)
      refine Dropped.trans (hshed.mono fun m hm => by rw [hm]; exact hnone) ?_
      simp only [returns_bind, returns_pure] at h2
      obtain ⟨_, _, hloop, -, rfl⟩ := h2
      refine keeps_forIn (R := fun σ σ' => Dropped σ.store σ'.store) (fun a b => ?_)
        _ _ o σ1 _ _ hloop
      exact (keeps_eliminate fuel a.2).bind fun _ => keeps_pure _
    · obtain ⟨-, rfl⟩ := returns_pure.mp h
      exact Shed.refl _ _

/-! ## Rules -/

/-- The state after the first ends of changed edges were noted. -/
def markAll (e : Equilibrium) (changes : List Change) : Equilibrium :=
  changes.foldl (fun e c => e.markChange (sourceOf c)) e

theorem returns_change {changes : List Change} : ∀ {e e' : Equilibrium} {σ σ' : Session},
    Returns (e.change changes) o σ e' σ' ↔ ∃ store, σ.store.commit changes = .ok store ∧
      σ' = { σ with store } ∧ e' = e.markAll changes := by
  induction changes with
  | nil =>
    intro e e' σ σ'
    simp only [change, returns_pure, Store.commit, foldlM_nil, markAll, foldl_nil]
    constructor
    · rintro ⟨rfl, rfl⟩
      exact ⟨σ.store, rfl, rfl, rfl⟩
    · rintro ⟨_, h, rfl, rfl⟩
      cases h
      exact ⟨rfl, rfl⟩
  | cons c cs ih =>
    intro e e' σ σ'
    simp only [change, returns_bind, returns_update, ih, Store.commit, foldlM_cons, markAll,
      foldl_cons]
    constructor
    · rintro ⟨_, _, ⟨store1, h1, rfl⟩, store, h, rfl, rfl⟩
      refine ⟨store, ?_, rfl, rfl⟩
      rw [h1]
      exact h
    · rintro ⟨store, h, rfl, rfl⟩
      cases h1 : σ.store.apply c with
      | error e =>
        rw [h1] at h
        cases h
      | ok store1 =>
        rw [h1] at h
        exact ⟨(), _, ⟨store1, rfl, rfl⟩, store, h, rfl, rfl⟩

@[simp] theorem mem_insert {x : NodeId} {ns : List NodeId} : x ∈ insert n ns ↔ x = n ∨ x ∈ ns := by
  unfold insert
  split
  next h =>
    rw [contains_iff_mem] at h
    exact ⟨.inr, fun hx => hx.elim (fun hx => hx ▸ h) id⟩
  · simp [or_comm]

@[simp] theorem mem_foldl_insert {x : NodeId} {ms : List NodeId} : ∀ {ns : List NodeId},
    x ∈ ms.foldl (fun p m => insert m p) ns ↔ x ∈ ms ∨ x ∈ ns := by
  induction ms with
  | nil => simp
  | cons m ms ih =>
    intro ns
    rw [foldl_cons, ih, mem_insert, mem_cons]
    tauto

/-- A rule that was tried on a node and changes nothing: it does not match, or nothing would be
moved. -/
def Idle (s : Store) (n : NodeId) (touched : List NodeId) (r : Rule) : Prop :=
  ∃ m, r.pattern.matches s n = .ok m ∧ m.touched ⊆ touched ∧
    (m.bindings = none ∨ (s.node n).users = [] ∨ r.Finds s n n)

theorem Idle.mono {touched touched' : List NodeId} {r : Rule} (h : Idle s n touched r)
    (hsub : touched ⊆ touched') : Idle s n touched' r :=
  let ⟨m, hm, hsub', hcase⟩ := h
  ⟨m, hm, List.Subset.trans hsub' hsub, hcase⟩

inductive Processed (rules : List Rule) (e : Equilibrium) (n : NodeId) (s : Store) :
    Equilibrium → Store → Prop
  | follow {g : GraphId} {out : NodeId} (hg : (s.node n).graph? = some g)
      (hout : (s.graph g).output = some out) :
      Processed rules e n s { e with graphs := insert g e.graphs, pool := insert out e.pool } s
  | settle {touched : List NodeId} (hg : (s.node n).graph? = none)
      (hidle : ∀ r ∈ rules, Idle s n touched r) :
      Processed rules e n s (e.settle s n touched) s
  | rewrite {r : Rule} {t : NodeId} {s1 s' : Store} (hg : (s.node n).graph? = none)
      (hr : r ∈ rules) (hfind : r.Finds s n t) (hmove : Redirected s s1 n t) (hdrop : Dropped s1 s')
      (hsome : (s.node n).users.flatMap (moves n t) ≠ []) :
      Processed rules e n s (e.markAll ((s.node n).users.flatMap (moves n t))) s'

theorem eq_nil_or_of_moves_eq_nil {us : List (Role × Owner)} (h : us.flatMap (moves n t) = []) :
    us = [] ∨ n = t := by
  cases us with
  | nil => exact .inl rfl
  | cons u us =>
    right
    obtain ⟨r, w⟩ := u
    rw [flatMap_cons, append_eq_nil_iff] at h
    cases w with
    | node m =>
      by_contra hnt
      rw [moves, if_neg hnt] at h
      cases h.1
    | graph g => cases h.1

theorem tryRules_cases {e e' : Equilibrium} (hl : Linked σ.store)
    (hg : (σ.store.node n).graph? = none) {all : List Rule} :
    ∀ {rules done : List Rule} {touched : List NodeId}, all = done ++ rules →
      (∀ r ∈ rules, r.Replaces) → (∀ r ∈ done, Idle σ.store n touched r) →
      Returns (tryRules host near e n rules touched) o σ e' σ' →
      Processed all e n σ.store e' σ'.store
  | [], done, touched, hall, _, hdone, h => by
    simp only [tryRules, returns_bind, returns_get, returns_pure] at h
    obtain ⟨_, _, ⟨rfl, rfl⟩, rfl, rfl⟩ := h
    refine .settle hg ?_
    rw [hall, append_nil]
    exact hdone
  | r :: rules, done, touched, hall, hrules, hdone, h => by
    simp only [tryRules, returns_bind] at h
    obtain ⟨⟨seen, changes⟩, σ1, happ, h⟩ := h
    obtain ⟨hσ, m, hm, rfl, hcase⟩ :=
      Rule.apply_cases (hrules r mem_cons_self) hl.whole happ
    rw [hσ] at h
    -- the rules tried so far change nothing
    have hnext : changes = [] →
        (m.bindings = none ∨ (σ.store.node n).users = [] ∨ r.Finds σ.store n n) →
        Processed all e n σ.store e' σ'.store := by
      rintro rfl hidle
      refine tryRules_cases hl hg (by rw [hall, append_cons])
        (fun r hr => hrules r (mem_cons_of_mem _ hr)) (fun r' hr' => ?_) h
      rcases mem_append.mp hr' with hr' | hr'
      · exact (hdone r' hr').mono fun x hx => mem_foldl_insert.mpr (.inr hx)
      · rw [mem_singleton] at hr'
        rw [hr']
        exact ⟨m, hm, fun x hx => mem_foldl_insert.mpr (.inl hx), hidle⟩
    rcases hcase with ⟨hb, hnil⟩ | ⟨t, hfind, hchanges⟩
    · exact hnext hnil (.inl hb)
    · rw [hl.redirectChanges_eq, Except.ok.injEq] at hchanges
      by_cases hnil : changes = []
      · refine hnext hnil (.inr ?_)
        rcases eq_nil_or_of_moves_eq_nil (hchanges.trans hnil) with hu | rfl
        · exact .inl hu
        · exact .inr hfind
      · rw [if_neg (by rwa [List.isEmpty_iff])] at h
        simp only [returns_bind, returns_get, returns_pure, returns_change] at h
        obtain ⟨_, _, ⟨s1, hs1, rfl, rfl⟩, _, _, ⟨rfl, rfl⟩, _, _, helim, rfl, rfl⟩ := h
        have hused : (σ.store.node n).users ≠ [] := by
          intro hu
          rw [hu] at hchanges
          exact hnil hchanges.symm
        obtain ⟨s2, hs2, hmove⟩ :=
          hl.commit_redirect n (Store.lt_size_of_users (hfind.used hl hused))
        rw [hchanges, hs1, Except.ok.injEq] at hs2
        rw [← hchanges]
        refine .rewrite hg ?_ hfind (hs2 ▸ hmove) (keeps_eliminate _ n _ _ _ _ helim)
          (hchanges ▸ hnil)
        rw [hall]
        exact mem_append_right _ mem_cons_self

theorem process_cases {rules : List Rule} {e e' : Equilibrium} (hl : Linked σ.store)
    (hrules : ∀ r ∈ rules, r.Replaces) (h : Returns (process host near rules e n) o σ e' σ') :
    Processed rules e n σ.store e' σ'.store := by
  unfold process at h
  simp only [returns_bind, returns_get] at h
  obtain ⟨_, _, ⟨rfl, rfl⟩, h⟩ := h
  split at h
  next g hg =>
    split at h
    next out hout =>
      obtain ⟨rfl, rfl⟩ := returns_pure.mp h
      exact .follow hg hout
    · exact (returns_throw.mp h).elim
  next hg => exact tryRules_cases hl hg (nil_append rules).symm hrules (by simp) h

/-! ## Runs -/

/-- Looking at one node of the pool, whichever it is. -/
def Turn (host : Host) (near : Neighbours) (rules : List Rule) (o : Option Origin)
    (c c' : Equilibrium × Session) : Prop :=
  ∃ n ∈ c.1.pool,
    Returns (process host near rules { c.1 with pool := c.1.pool.erase n } n) o c.2 c'.1 c'.2

theorem turns_of_run {rules : List Rule} : ∀ {fuel : Nat} {e : Equilibrium} {σ σ' : Session} {u : Unit},
    Returns (run host near rules fuel e) o σ u σ' →
      ∃ e', ReflTransGen (Turn host near rules o) (e, σ) (e', σ') ∧ e'.pool = []
  | 0, e, σ, σ', u, h => (returns_throw.mp h).elim
  | fuel + 1, e, σ, σ', u, h => by
    rw [run] at h
    split at h
    next hpool =>
      obtain ⟨-, rfl⟩ := returns_pure.mp h
      exact ⟨e, .refl, hpool⟩
    next n rest hpool =>
      obtain ⟨e1, σ1, h1, h2⟩ := returns_bind.mp h
      obtain ⟨e', hrun, hempty⟩ := turns_of_run h2
      refine ⟨e', .head ⟨n, ?_, ?_⟩ hrun, hempty⟩
      · rw [hpool]
        exact mem_cons_self
      · dsimp only
        rw [hpool, erase_cons_head]
        exact h1

end Equilibrium

end DiffLang.Graph
