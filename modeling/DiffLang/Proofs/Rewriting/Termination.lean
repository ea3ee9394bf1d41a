import DiffLang.Proofs.Rewriting.Equilibrium
import Mathlib.Data.Finset.Card
import Mathlib.Data.Fintype.Order
import Mathlib.Logic.Hydra
import Mathlib.Order.WellFounded

/-!
# Dropping copies comes to an end

Each copy that is dropped leaves one node less in use. While none is dropped, a node that is looked at
for the first time never counts as new again, and a node that waits makes others wait only if they were
never seen, or are graphs. It is graphs alone that are looked at again and again: a constant that is a
graph makes the output of the graph wait, whether it was looked at or not, and the output makes the
graphs wait that it is an application of or to. So a run may go round for ever, as soon as a graph
returns itself (`not_halts_returning_itself`).

Main statement: `halts_of_not_shows`, that a run ends, in any order, if no graph `Shows` itself through
others, where what copies stand for is followed.
-/

open Relation (ReflTransGen TransGen CutExpand)

namespace DiffLang.Graph

open Run List Store

variable {s s0 s' : Store} {a b c m n t x : NodeId} {g h : GraphId}

/-! ## What copies stand for -/

/-- What a node stands for when copies are followed, also those whose function is itself a copy. -/
inductive Resolves (s : Store) : NodeId → NodeId → Prop
  | refl (a : NodeId) : Resolves s a a
  | copy {a f x c d : NodeId} (happ : (s.node a).application? = some [some f, some x])
      (hf : Resolves s f c) (hc : IsOperation s c "identity") (hx : Resolves s x d) : Resolves s a d

theorem Resolves.trans (h1 : Resolves s a b) (h2 : Resolves s b c) : Resolves s a c := by
  induction h1 with
  | refl => exact h2
  | copy happ hf hc _ _ ih => exact .copy happ hf hc (ih h2)

theorem Resolves.eq_of_graph?
    (hs : ∀ a f x, (s.node a).application? = some [some f, some x] → (s.node x).graph? = none)
    (h : Resolves s a c) (hc : (s.node c).graph?.isSome = true) : a = c := by
  induction h with
  | refl => rfl
  | copy happ _ _ _ _ ih =>
    have hx := hs _ _ _ happ
    rw [ih hc] at hx
    rw [hx] at hc
    cases hc

/-- What a graph returns is another one, or an application that has it among its parts. -/
def Shows (s : Store) (h h' : GraphId) : Prop :=
  ∃ out p, (s.graph h).output = some out ∧ Resolves s out p ∧
    ((s.node p).graph? = some h' ∨
      ∃ q c, Needs s p q ∧ Resolves s q c ∧ (s.node c).graph? = some h')

/-- A store that comes from another one by dropping copies. -/
structure Derived (s0 s : Store) : Prop where
  values : SameValues s0 s
  length : ∀ m, (s.node m).inputs.length = (s0.node m).inputs.length
  resolves : ∀ {w r x}, s.inRole w r = some x → ∃ x0, s0.inRole w r = some x0 ∧ Resolves s0 x0 x

theorem Derived.refl (s : Store) : Derived s s :=
  ⟨fun _ => rfl, fun _ => rfl, fun {_ _ x} h => ⟨x, h, .refl x⟩⟩

theorem SameValues.graph?_eq (h : SameValues s s') (n : NodeId) :
    (s'.node n).graph? = (s.node n).graph? := by
  unfold Node.graph?
  rw [h n]

theorem Derived.resolves_of_finds (h : Derived s0 s) (hfind : Rule.dropCopy.Finds s n t) :
    Resolves s0 n t := by
  cases hfind with
  | @copy _ f _ happ hf =>
    obtain ⟨_, hfn, hparts⟩ := application?_eq_some_iff.mp happ
    injection hparts with hf' hinputs
    injection hf' with hf'
    subst hf'
    obtain ⟨f0, hf0, hresf⟩ := h.resolves (w := .node n) (r := .fn) hfn
    obtain ⟨x0, hx0, hresx⟩ := h.resolves (w := .node n) (r := .input (0 : Nat)) (x := t) (by
      rw [inRole_node, Node.inRole_input, ← hinputs]
      rfl)
    rw [inRole_node, Node.inRole_input, Option.join_eq_some_iff] at hx0
    have hlen : (s0.node n).inputs.length = 1 := by
      rw [← h.length, ← hinputs]
      rfl
    obtain ⟨y, hy⟩ := length_eq_one_iff.mp hlen
    rw [hy] at hx0
    injection hx0 with hx0
    have happ0 : (s0.node n).application? = some [some f0, some x0] :=
      application?_eq_some_iff.mpr ⟨f0, hf0, by rw [hy, hx0]⟩
    refine .copy happ0 hresf ?_ hresx
    unfold IsOperation at hf ⊢
    rw [← h.values]
    exact hf

theorem Derived.redirected (h : Derived s0 s) (hl : Linked s) (hfind : Rule.dropCopy.Finds s n t)
    (hmove : Redirected s s' n t) : Derived s0 s' where
  values m := by rw [hmove.node, h.values]
  length m := by rw [hmove.inputs_eq hl, length_mapIdx, h.length]
  resolves {w r x} hx := by
    rw [hmove.inRole] at hx
    split at hx
    next hu =>
      injection hx with hx
      obtain ⟨x0, hx0, hres⟩ := h.resolves (hl.held hu)
      exact ⟨x0, hx0, hx ▸ hres.trans (h.resolves_of_finds hfind)⟩
    · exact h.resolves hx

theorem Derived.sameEdges (h : Derived s0 s) (hs : SameEdges s s') : Derived s0 s' where
  values m := by rw [hs.node, h.values]
  length m := by rw [hs.node, h.length]
  resolves hx := by
    rw [hs.inRole] at hx
    exact h.resolves hx

/-! ## What is looked at again -/

/-- Looking at a node that was looked at before leads to another one. -/
inductive Leads (s : Store) : NodeId → NodeId → Prop
  | output {n out : NodeId} {h : GraphId} (hn : (s.node n).graph? = some h)
      (hout : (s.graph h).output = some out) : Leads s n out
  | needs {n q : NodeId} (hn : (s.node n).graph? = none) (hq : Needs s n q)
      (hgraph : (s.node q).graph?.isSome = true ∨ s.nodes.size ≤ q) : Leads s n q

theorem wellFounded_of_acyclic {r : Nat → Nat → Prop} {N : Nat} (hN : ∀ a b, r a b → a < N)
    (hr : ∀ a, ¬ TransGen r a a) : WellFounded fun b a => r a b := by
  have hwf : WellFounded fun (j i : Fin N) => TransGen r i j := by
    have : IsTrans (Fin N) fun j i => TransGen r i j := ⟨fun _ _ _ h1 h2 => h2.trans h1⟩
    have : Std.Irrefl fun (j i : Fin N) => TransGen r i j := ⟨fun i => hr i⟩
    exact Finite.wellFounded_of_trans_of_irrefl _
  have hlt : ∀ i : Fin N, Acc (fun b a => r a b) i.1 := by
    intro i
    induction i using hwf.induction with
    | _ i ih =>
      refine Acc.intro _ fun b hb => ?_
      by_cases hbN : b < N
      · exact ih ⟨b, hbN⟩ (.single hb)
      · exact Acc.intro _ fun c hc => absurd (hN b c hc) hbN
  refine ⟨fun a => ?_⟩
  by_cases haN : a < N
  · exact hlt ⟨a, haN⟩
  · exact Acc.intro _ fun b hb => absurd (hN a b hb) haN

/-- Nodes lead to each other only finitely often if no graph shows itself. -/
theorem Derived.wellFounded_leads (hd : Derived s0 s) (hshows : ∀ h, ¬ TransGen (Shows s0) h h) :
    WellFounded fun q n => Leads s n q := by
  have hwf : WellFounded fun h' h => Shows s0 h h' :=
    wellFounded_of_acyclic (fun h _ ⟨_, _, hout, _⟩ => lt_size_of_output hout) hshows
  -- a number that no node has leads nowhere
  have hnone : ∀ q, s.nodes.size ≤ q → Acc (fun q n => Leads s n q) q := by
    intro q hq
    refine Acc.intro _ fun q' hq' => ?_
    cases hq' with
    | output hn =>
      rw [node_of_size_le hq] at hn
      cases hn
    | needs _ hneeds => exact absurd (Needs.lt_size hneeds) (Nat.not_lt.mpr hq)
  have hgraph : ∀ h n, (s.node n).graph? = some h → Acc (fun q n => Leads s n q) n := by
    intro h
    induction h using hwf.induction with
    | _ h ih =>
      intro n hn
      refine Acc.intro _ fun out hlead => ?_
      cases hlead with
      | needs hn' => rw [hn] at hn'; cases hn'
      | output hn' hout =>
        rw [hn, Option.some.injEq] at hn'
        subst hn'
        obtain ⟨out0, hout0, hres⟩ := hd.resolves (w := .graph h) (r := .output) (x := out)
          (by rw [inRole_graph, if_pos rfl, hout])
        rw [inRole_graph, if_pos rfl] at hout0
        cases hg : (s.node out).graph? with
        | some h' =>
          rw [hd.values.graph?_eq] at hg
          exact ih h' ⟨out0, out, hout0, hres, .inl hg⟩ out (by rw [hd.values.graph?_eq, hg])
        | none =>
          refine Acc.intro _ fun q hq => ?_
          cases hq with
          | output hn' => rw [hg] at hn'; cases hn'
          | needs _ hneeds hcase =>
            rcases hcase with hq | hq
            · obtain ⟨h', hh'⟩ := Option.isSome_iff_exists.mp hq
              obtain ⟨r, hr⟩ := needs_iff_inRole.mp hneeds
              obtain ⟨q0, hq0, hresq⟩ := hd.resolves hr
              refine ih h' ⟨out0, out, hout0, hres, .inr ⟨q0, q, ?_, hresq, ?_⟩⟩ q hh'
              · exact needs_iff_inRole.mpr ⟨r, hq0⟩
              · rw [← hd.values.graph?_eq, hh']
            · exact hnone q hq
  refine ⟨fun n => ?_⟩
  cases hn : (s.node n).graph? with
  | some h => exact hgraph h n hn
  | none =>
    refine Acc.intro _ fun q hq => ?_
    cases hq with
    | output hn' => rw [hn] at hn'; cases hn'
    | needs _ _ hcase =>
      rcases hcase with hq | hq
      · obtain ⟨h', hh'⟩ := Option.isSome_iff_exists.mp hq
        exact hgraph h' q hh'
      · exact hnone q hq

/-! ## What becomes less -/

def used (s : Store) : Finset NodeId := (Finset.range s.nodes.size).filter fun m => (s.node m).users ≠ []

namespace Equilibrium

variable {e e' : Equilibrium}

/-- The nodes that were not looked at yet, graphs apart. -/
def unprocessed (e : Equilibrium) (s : Store) : Finset NodeId :=
  (Finset.range s.nodes.size).filter fun m => (s.node m).graph? = none ∧ m ∉ e.processed

/-- Those that do not wait to be looked at either. -/
def unseen (e : Equilibrium) (s : Store) : Finset NodeId := (e.unprocessed s).filter (· ∉ e.pool)

/-- A state that is nearer to the end of the run, as long as the store stays as it is. -/
def Nearer (s : Store) : Equilibrium → Equilibrium → Prop :=
  InvImage (Prod.Lex (· < ·) (Prod.Lex (· < ·) (CutExpand fun q n => Leads s n q)))
    fun e => ((e.unprocessed s).card, (e.unseen s).card, (e.pool : Multiset NodeId))

theorem wellFounded_nearer (h : WellFounded fun q n => Leads s n q) : WellFounded (Nearer s) :=
  InvImage.wf _ (wellFounded_lt.prod_lex (wellFounded_lt.prod_lex h.cutExpand))

theorem nearer_of_ssubset (h : e'.unprocessed s ⊂ e.unprocessed s) : Nearer s e' e :=
  Prod.Lex.left _ _ (Finset.card_lt_card h)

/-- It is enough that a node of the pool is replaced by others that it leads to, or by such that were
never seen. -/
theorem nearer_of_pool (hn : n ∈ e.pool) (hsame : e'.unprocessed s = e.unprocessed s)
    (hunseen : n ∉ e.unprocessed s) {added : List NodeId}
    (hpool : e'.pool = e.pool.erase n ++ added) (hadded : ∀ a ∈ added, Leads s n a ∨ a ∈ e.unseen s) :
    Nearer s e' e := by
  have hsub : e'.unseen s ⊆ e.unseen s := by
    intro m hm
    unfold unseen at hm ⊢
    rw [hsame] at hm
    rw [Finset.mem_filter] at hm ⊢
    refine ⟨hm.1, fun hmem => hm.2 ?_⟩
    rw [hpool, mem_append]
    have hmn : m ≠ n := fun he => hunseen (he ▸ hm.1)
    exact .inl ((mem_erase_of_ne hmn).mpr hmem)
  unfold Nearer InvImage
  dsimp only
  rw [hsame]
  refine Prod.Lex.right _ ?_
  by_cases hsome : ∃ a ∈ added, a ∈ e.unseen s
  · obtain ⟨a, ha, hunseen'⟩ := hsome
    refine Prod.Lex.left _ _ (Finset.card_lt_card ((Finset.ssubset_iff_of_subset hsub).mpr
      ⟨a, hunseen', fun ha' => ?_⟩))
    refine (Finset.mem_filter.mp ha').2 ?_
    rw [hpool]
    exact mem_append_right _ ha
  · have hleads : ∀ a ∈ added, Leads s n a := fun a ha =>
      (hadded a ha).resolve_right fun hun => hsome ⟨a, ha, hun⟩
    rcases (Finset.card_le_card hsub).lt_or_eq with hlt | heq
    · exact Prod.Lex.left _ _ hlt
    · rw [heq]
      refine Prod.Lex.right _ ⟨(added : Multiset NodeId), n, hleads, ?_⟩
      rw [hpool, ← Multiset.coe_singleton, Multiset.coe_add, Multiset.coe_add, Multiset.coe_eq_coe]
      exact (perm_append_singleton n _).trans
        ((perm_cons_erase hn).symm.append_right added)

theorem insert_eq_append (m : NodeId) (ns : List NodeId) :
    ∃ added, insert m ns = ns ++ added ∧ ∀ a ∈ added, a = m ∧ a ∉ ns := by
  unfold insert
  split
  · exact ⟨[], by simp⟩
  next h =>
    rw [contains_iff_mem] at h
    exact ⟨[m], rfl, by simpa using h⟩

theorem foldl_insert_eq_append (ms : List NodeId) : ∀ ns : List NodeId,
    ∃ added, ms.foldl (fun p m => insert m p) ns = ns ++ added ∧ ∀ a ∈ added, a ∈ ms ∧ a ∉ ns := by
  induction ms with
  | nil => exact fun ns => ⟨[], by simp⟩
  | cons m ms ih =>
    intro ns
    obtain ⟨as, has, hmem⟩ := insert_eq_append m ns
    obtain ⟨bs, hbs, hmem'⟩ := ih (insert m ns)
    refine ⟨as ++ bs, ?_, fun a ha => ?_⟩
    · rw [foldl_cons, hbs, has, append_assoc]
    · rcases mem_append.mp ha with ha | ha
      · exact ⟨mem_cons.mpr (.inl (hmem a ha).1), (hmem a ha).2⟩
      · refine ⟨mem_cons_of_mem _ (hmem' a ha).1, fun hns => (hmem' a ha).2 ?_⟩
        exact mem_insert.mpr (.inr hns)

theorem mem_unprocessed :
    m ∈ e.unprocessed s ↔ m < s.nodes.size ∧ (s.node m).graph? = none ∧ m ∉ e.processed := by
  simp [unprocessed]

theorem nearer_follow {out : NodeId} (hn : n ∈ e.pool) (hg : (s.node n).graph? = some g)
    (hout : (s.graph g).output = some out) :
    Nearer s { e with graphs := insert g e.graphs, pool := insert out (e.pool.erase n) } e := by
  obtain ⟨added, hpool, hadded⟩ := insert_eq_append out (e.pool.erase n)
  refine nearer_of_pool hn rfl (fun hmem => ?_) hpool fun a ha => ?_
  · rw [mem_unprocessed, hg] at hmem
    cases hmem.2.1
  · rw [(hadded a ha).1]
    exact .inl (.output hg hout)

/-- A node that is settled leads to what was never seen and to graphs, if it was settled before. -/
theorem nearer_settle {touched : List NodeId} (hn : n ∈ e.pool) (hg : (s.node n).graph? = none) :
    Nearer s (settle s { e with pool := e.pool.erase n } n touched) e := by
  by_cases hnew : n ∈ e.unprocessed s
  · refine nearer_of_ssubset ((Finset.ssubset_iff_of_subset fun m hm => ?_).mpr ⟨n, hnew, ?_⟩)
    · rw [mem_unprocessed] at hm ⊢
      exact ⟨hm.1, hm.2.1, fun hp => hm.2.2 (mem_processed_settle.mpr (.inr hp))⟩
    · rw [mem_unprocessed]
      exact fun h => h.2.2 (mem_processed_settle.mpr (.inl rfl))
  · obtain ⟨added, hpool, hadded⟩ := foldl_insert_eq_append
      ((s.node n).successors.filter fun m => !(insert n e.processed).contains m) (e.pool.erase n)
    refine nearer_of_pool hn ?_ hnew hpool fun a ha => ?_
    · ext m
      rw [mem_unprocessed, mem_unprocessed, mem_processed_settle]
      by_cases hmn : m = n
      · subst hmn
        rw [mem_unprocessed] at hnew
        tauto
      · simp [hmn]
    · obtain ⟨hsucc, hnot⟩ := hadded a ha
      rw [mem_filter, Bool.not_eq_true', ← Bool.not_eq_true, contains_iff_mem, mem_insert,
        not_or] at hsucc
      obtain ⟨hneeds, hne, hproc⟩ := hsucc
      cases hga : (s.node a).graph? with
      | some h => exact .inl (.needs hg hneeds (.inl (by rw [hga]; rfl)))
      | none =>
        by_cases hsize : a < s.nodes.size
        · refine .inr (Finset.mem_filter.mpr ⟨mem_unprocessed.mpr ⟨hsize, hga, hproc⟩, ?_⟩)
          exact fun hmem => hnot ((mem_erase_of_ne hne).mpr hmem)
        · exact .inl (.needs hg hneeds (.inr (Nat.le_of_not_lt hsize)))

/-! ## Nothing fails -/

section

variable {host : Host} {near : Neighbours} {o : Option Origin} {σ σ' : Session}
  {parts : List (Option NodeId)}

theorem exists_matches_dropCopy (s : Store) (n : NodeId) :
    ∃ m, Rule.dropCopy.pattern.matches s n = .ok m := by
  have hpattern : ∃ m, matchPattern s Rule.dropCopy.pattern (.node (some n)) [] = .ok m := by
    simp only [Rule.pattern, matchPattern]
    cases happ : (s.node n).application? with
    | none => exact ⟨_, rfl⟩
    | some parts =>
      obtain ⟨f, -, rfl⟩ := application?_eq_some_iff.mp happ
      dsimp only
      split
      · exact ⟨_, rfl⟩
      next hlen =>
        have hgroup : group [Rule.operation "identity", .hole "X" .anything]
            (some f :: (s.node n).inputs) = .node (some f) :: (s.node n).inputs.map .node := rfl
        rw [hgroup] at hlen ⊢
        obtain ⟨x, hx⟩ : ∃ x, (s.node n).inputs = [x] :=
          length_eq_one_iff.mp (by simpa using hlen)
        rw [hx]
        rcases matchPattern_operation s "identity" f [] with ⟨-, hf⟩ | ⟨-, hf⟩
        · exact ⟨_, matchItems_cons_eq_ok.mpr ⟨_, hf, .inr ⟨_, rfl, by
            simp only [map_cons, map_nil, matchItems, matchPattern, Condition.holds, bind,
              Except.bind, if_true, pure, Except.pure]
            rfl⟩⟩⟩
        · exact ⟨_, matchItems_cons_eq_ok.mpr ⟨_, hf, .inl ⟨rfl, rfl⟩⟩⟩
  obtain ⟨m, hm⟩ := hpattern
  exact ⟨⟨m.touched.eraseDups, m.bindings⟩, by unfold Pattern.matches; rw [hm]; rfl⟩

theorem returns_forIn_of_forall {α : Type} {act : α → Run Unit} {xs : List α}
    (h : ∀ x ∈ xs, Returns (act x) o σ () σ) :
    Returns (forIn xs PUnit.unit fun x _ => do
      act x
      pure (ForInStep.yield PUnit.unit)) o σ PUnit.unit σ := by
  induction xs with
  | nil => simp
  | cons x xs ih =>
    rw [forIn_cons]
    refine returns_bind.mpr ⟨_, σ, returns_bind.mpr ⟨_, σ, h x mem_cons_self,
      returns_pure_self⟩, ?_⟩
    exact ih fun y hy => h y (mem_cons_of_mem _ hy)

theorem returns_eliminate_of_trivial {fuel : Nat}
    (h : (σ.store.node n).users ≠ [] ∨ (σ.store.node n).edges = []) :
    Returns (eliminate (fuel + 1) n) o σ () σ := by
  unfold eliminate
  rw [returns_get_bind]
  dsimp only
  split
  next hnil =>
    have hedges : (σ.store.node n).edges = [] := h.resolve_left (fun hne => hne (List.isEmpty_iff.mp hnil))
    rw [hedges]
    simp
  · simp

theorem nodup_edges (x : Node) : (x.edges.map Prod.fst).Nodup := by
  have hedges : x.edges.Nodup := by
    unfold Node.edges
    refine nodup_append.mpr ⟨by cases x.fn <;> simp, ?_, fun a ha b hb hab => ?_⟩
    · refine List.Nodup.filterMap (fun a a' e ha ha' => ?_)
        (List.Nodup.of_map Prod.snd (by rw [zipIdx_map_snd]; exact nodup_range'))
      obtain ⟨m, hm, rfl⟩ := Option.map_eq_some_iff.mp ha
      obtain ⟨m', hm', he⟩ := Option.map_eq_some_iff.mp ha'
      injection he with hi hmm
      injection hi with hi
      exact Prod.ext (by rw [hm, hm', hmm]) (Int.ofNat.inj hi.symm)
    · obtain ⟨c, -, hc⟩ := mem_filterMap.mp hb
      obtain ⟨m, -, rfl⟩ := Option.map_eq_some_iff.mp hc
      cases hfn : x.fn <;> rw [hfn] at ha <;> simp at ha
      rw [ha] at hab
      cases hab
  refine List.Nodup.map_on (fun a ha b hb hab => Prod.ext hab ?_) hedges
  have h1 := Node.mem_edges_iff.mp ha
  have h2 := Node.mem_edges_iff.mp hb
  rw [hab, h2] at h1
  exact (Option.some.inj h1).symm

theorem mem_of_inRole {r : Role} (happ : (s.node n).application? = some parts)
    (hx : s.inRole (.node n) r = some x) : some x ∈ parts := by
  obtain ⟨f, hf, rfl⟩ := application?_eq_some_iff.mp happ
  cases r with
  | fn =>
    rw [inRole_node, Node.inRole, hf] at hx
    exact hx ▸ mem_cons_self
  | input i =>
    rw [inRole_node, Node.inRole] at hx
    split at hx
    · exact mem_cons_of_mem _ (mem_of_getElem? (Option.join_eq_some_iff.mp hx))
    · cases hx
  | output | other => cases hx

/-- A node whose users have been moved to another one can be removed, if the parts of the node are
constants, or the other node. -/
theorem exists_eliminate_of_redirected (hl : Linked s) (hn : (s.node n).users ≠ [])
    (happ : (s.node n).application? = some parts) (htn : t ≠ n) (hmove : Redirected s σ.store n t)
    (hself : ∀ r, s.inRole (.node n) r ≠ some n)
    (hparts : ∀ r x, s.inRole (.node n) r = some x → x = t ∨ (s.node x).value.isSome = true) :
    ∃ σ', Returns (eliminate σ.store.nodes.size n) o σ () σ' := by
  have hedge : ∀ e ∈ (σ.store.node n).edges, s.inRole (.node n) e.1 = some e.2 := fun e he => by
    have hrole : σ.store.inRole (.node n) e.1 = some e.2 := Node.mem_edges_iff.mp he
    rwa [hmove.inRole, if_neg fun hu => hself e.1 (hl.held hu)] at hrole
  have hne : ∀ {r x}, s.inRole (.node n) r = some x → x ≠ n := fun hx hxn => hself _ (hxn ▸ hx)
  obtain ⟨σ1, hloop, hsame, -, husers⟩ := exists_returns_removeUsers (o := o) (σ := σ) (n := n)
    (σ.store.node n).edges (nodup_edges _) hmove.nodup fun e he =>
      (hmove.users _ _).mpr (.inl ⟨hl.listed hn (hedge e he), fun hc => hne (hedge e he) hc.1⟩)
  -- the other node has the users of the node now, and a constant needs nothing
  have htrivial : ∀ e ∈ (σ.store.node n).edges,
      (σ1.store.node e.2).users ≠ [] ∨ (σ1.store.node e.2).edges = [] := by
    intro e he
    rcases hparts _ _ (hedge e he) with ht | hv
    · left
      obtain ⟨⟨r, w⟩, hu⟩ := exists_mem_of_ne_nil _ hn
      rw [ht]
      refine ne_nil_of_mem ((husers t (r, w)).mpr ⟨(hmove.users _ _).mpr (.inr ⟨rfl, hu⟩), ?_⟩)
      rintro ⟨r', -, he⟩
      injection he with _ hw
      exact hself r (hl.held (hw ▸ hu))
    · right
      refine eq_nil_iff_forall_not_mem.mpr fun e' hx => ?_
      have hx' : σ1.store.inRole (.node e.2) e'.1 = some e'.2 := Node.mem_edges_iff.mp hx
      have hsome := hmove.isSome_inRole hl (.node e.2) e'.1
      rw [← hsame.inRole, hx'] at hsome
      obtain ⟨y, hy⟩ := Option.isSome_iff_exists.mp hsome.symm
      exact not_needs_of_value hl hv (needs_iff_inRole.mpr ⟨_, hy⟩)
  obtain ⟨f, hf, -⟩ := application?_eq_some_iff.mp happ
  have htwo : ∀ a b k : Nat, a ≠ b → a < k → b < k → ∃ j, k = j + 2 := fun a b k _ _ _ =>
    ⟨k - 2, by omega⟩
  obtain ⟨fuel, hfuel⟩ := htwo f n _ (hne (r := .fn) hf)
    (hmove.nodes ▸ lt_size_of_users (ne_nil_of_mem (hl.listed (r := .fn) hn hf)))
    (hmove.nodes ▸ lt_size_of_users hn)
  refine ⟨σ1, ?_⟩
  rw [hfuel, eliminate]
  rw [returns_get_bind]
  dsimp only
  rw [if_pos (List.isEmpty_iff.mpr (hmove.users_eq_nil htn.symm))]
  refine returns_bind.mpr ⟨_, σ1, hloop, ?_⟩
  exact returns_bind.mpr ⟨_, σ1, returns_forIn_of_forall fun e he =>
    returns_eliminate_of_trivial (htrivial e he), returns_pure_self⟩

theorem exists_eliminate_of_finds (hl : Linked s) (ha : Acyclic s) (hn : (s.node n).users ≠ [])
    (hfind : Rule.dropCopy.Finds s n t) (hmove : Redirected s σ.store n t) :
    ∃ σ', Returns (eliminate σ.store.nodes.size n) o σ () σ' := by
  cases hfind with
  | @copy _ f _ happ hf =>
  refine exists_eliminate_of_redirected hl hn happ ?_ hmove (fun r hr => ?_) fun r x hx => ?_
  · rintro rfl
    exact ha t (.single (needs_of_application happ (by simp)))
  · exact ha n (.single (needs_iff_inRole.mpr ⟨r, hr⟩))
  · have hmem := mem_of_inRole happ hx
    simp only [mem_cons, Option.some.injEq, not_mem_nil, or_false] at hmem
    rcases hmem with rfl | rfl
    · exact .inr (by rw [hf]; rfl)
    · exact .inl rfl

/-- Trying to drop a copy never fails. -/
theorem exists_apply_dropCopy (host : Host) (near : Neighbours) (o : Option Origin)
    (hl : Linked σ.store) (n : NodeId) :
    ∃ seen changes, Returns (Rule.dropCopy.apply host near n) o σ (seen, changes) σ ∧
      (changes = [] ∨
        ∃ t, Rule.dropCopy.Finds σ.store n t ∧ changes = (σ.store.node n).users.flatMap (moves n t)) := by
  obtain ⟨m, hm⟩ := exists_matches_dropCopy σ.store n
  unfold Rule.apply
  simp only [returns_bind, returns_get, returns_lift]
  cases hu : m.bindings with
  | none =>
    refine ⟨m.touched, [], ⟨σ, σ, ⟨rfl, rfl⟩, m, σ, ⟨hm, rfl⟩, ?_⟩, .inl rfl⟩
    rw [hu]
    exact returns_pure_self
  | some u =>
    obtain ⟨f, x, happ, hf, rfl⟩ := bindings_of_matches_dropCopy hm hu
    obtain ⟨_, -, hparts⟩ := application?_eq_some_iff.mp happ
    injection hparts with _ hinputs
    obtain ⟨t, rfl⟩ := Option.isSome_iff_exists.mp (hl.whole n x (hinputs ▸ mem_cons_self))
    refine ⟨m.touched, _, ⟨σ, σ, ⟨rfl, rfl⟩, m, σ, ⟨hm, rfl⟩, ?_⟩, .inr ⟨t, .copy happ hf, rfl⟩⟩
    rw [hu]
    exact returns_bind.mpr ⟨_, σ, returns_effect_dropCopy.mpr ⟨hl.redirectChanges_eq n t, rfl⟩,
      returns_pure_self⟩

/-- Looking at a node with one rule does not fail, if the rule can be tried and what it changes can be
carried out. -/
theorem exists_process_of_apply {r : Rule} {seen : List NodeId} {changes : List Change} {σ1 : Session}
    (houts : ∀ h, (σ.store.node n).graph? = some h → ∃ out, (σ.store.graph h).output = some out)
    (happly : Returns (r.apply host near n) o σ (seen, changes) σ1)
    (hchange : changes ≠ [] → ∃ s σ', σ1.store.commit changes = .ok s ∧
      Returns (eliminate s.nodes.size n) o { σ1 with store := s } () σ') (e : Equilibrium) :
    ∃ e' σ', Returns (process host near [r] e n) o σ e' σ' := by
  unfold process
  simp only [returns_bind, returns_get]
  cases hg : (σ.store.node n).graph? with
  | some h =>
    obtain ⟨out, hout⟩ := houts h hg
    exact ⟨_, σ, σ, σ, ⟨rfl, rfl⟩, by
      simp only [hg, hout]
      exact returns_pure_self⟩
  | none =>
    suffices h : ∃ e' σ', Returns (tryRules host near e n [r] []) o σ e' σ' by
      obtain ⟨e', σ', h⟩ := h
      exact ⟨e', σ', σ, σ, ⟨rfl, rfl⟩, by simpa only [hg] using h⟩
    by_cases hnil : changes = []
    · subst hnil
      refine ⟨e.settle σ1.store n (seen.foldl (fun t m => insert m t) []), σ1,
        returns_bind.mpr ⟨_, σ1, happly, ?_⟩⟩
      exact returns_get_bind.mpr returns_pure_self
    · obtain ⟨s, σ', hs, helim⟩ := hchange hnil
      refine ⟨e.markAll changes, σ', returns_bind.mpr ⟨_, σ1, happly, ?_⟩⟩
      dsimp only
      rw [if_neg (by rwa [List.isEmpty_iff])]
      refine returns_bind.mpr ⟨_, _, returns_change.mpr ⟨s, hs, rfl, rfl⟩, ?_⟩
      rw [returns_get_bind]
      exact returns_bind.mpr ⟨_, _, helim, returns_pure_self⟩

/-- Looking at a node never fails, if all graphs have outputs. -/
theorem exists_process (hl : Linked σ.store) (ha : Acyclic σ.store)
    (houts : ∀ h, (σ.store.node n).graph? = some h → ∃ out, (σ.store.graph h).output = some out)
    (e : Equilibrium) :
    ∃ e' σ', Returns (process host near [.dropCopy] e n) o σ e' σ' := by
  obtain ⟨seen, changes, happly, hcase⟩ := exists_apply_dropCopy host near o hl n
  refine exists_process_of_apply houts happly (fun hnil => ?_) e
  obtain ⟨t, hfind, rfl⟩ := hcase.resolve_left hnil
  have hn : (σ.store.node n).users ≠ [] := fun hu => hnil (by rw [hu]; rfl)
  obtain ⟨s1, hs1, hmove⟩ := hl.commit_redirect n (lt_size_of_users (hfind.used hl hn))
  obtain ⟨σ', helim⟩ := exists_eliminate_of_finds (o := o) (σ := { σ with store := s1 }) hl ha hn
    hfind hmove
  exact ⟨s1, σ', hs1, helim⟩

end

/-! ## Runs -/

/-- What is kept of a store that copies are dropped from. -/
structure Tame (s0 s : Store) : Prop where
  linked : Linked s
  acyclic : Acyclic s
  derived : Derived s0 s
  outputs : ∀ n h, (s.node n).graph? = some h → ∃ out, (s.graph h).output = some out

variable {host : Host} {near : Neighbours} {o : Option Origin}

theorem Processed.tame (h : Processed [.dropCopy] e n s e' s') (ht : Tame s0 s) : Tame s0 s' := by
  cases h with
  | follow | settle => exact ht
  | @rewrite r t s1 _ hg hr hfind hmove hdrop hsome =>
    have hn : (s.node n).users ≠ [] := fun hnil => hsome (by rw [hnil]; rfl)
    obtain rfl := mem_singleton.mp hr
    refine ⟨(ht.linked.redirected hmove (hfind.used ht.linked hn)).dropped hdrop, fun m hm => ?_,
      (ht.derived.redirected ht.linked hfind hmove).sameEdges hdrop.same, fun m h hm => ?_⟩
    · refine ht.acyclic m (hmove.transGen ht.linked hfind.transGen ?_)
      exact TransGen.mono (fun _ _ => hdrop.same.needs_iff.mp) _ _ hm
    · rw [hdrop.same.node, hmove.node] at hm
      obtain ⟨out, hout⟩ := ht.outputs m h hm
      have hsome := hmove.isSome_inRole ht.linked (.graph h) .output
      rw [inRole_graph, inRole_graph, if_pos rfl, if_pos rfl, hout] at hsome
      rw [hdrop.same.graph]
      exact Option.isSome_iff_exists.mp hsome

/-- Looking at a node brings the end nearer, or leaves fewer nodes in use. -/
theorem Processed.nearer_or_fewer (hn : n ∈ e.pool) (ht : Tame s0 s)
    (h : Processed [.dropCopy] { e with pool := e.pool.erase n } n s e' s') :
    (s' = s ∧ Nearer s e' e) ∨ (used s').card < (used s).card := by
  cases h with
  | follow hg hout => exact .inl ⟨rfl, nearer_follow hn hg hout⟩
  | settle hg hidle => exact .inl ⟨rfl, nearer_settle hn hg⟩
  | @rewrite r t s1 _ hg hr hfind hmove hdrop hsome =>
    right
    have hu : (s.node n).users ≠ [] := fun hnil => hsome (by rw [hnil]; rfl)
    have hnt : n ≠ t := by
      rintro rfl
      exact ht.acyclic n hfind.transGen
    have hsub : used s' ⊆ used s := by
      intro m hm
      simp only [used, Finset.mem_filter, Finset.mem_range, hdrop.same.nodes, hmove.nodes] at hm ⊢
      refine ⟨hm.1, hmove.used_before (hfind.used ht.linked hu) fun hnil => hm.2 (hdrop.unused hnil)⟩
    refine Finset.card_lt_card ((Finset.ssubset_iff_of_subset hsub).mpr ⟨n, ?_, fun hmem => ?_⟩)
    · exact Finset.mem_filter.mpr ⟨Finset.mem_range.mpr (lt_size_of_users hu), hu⟩
    · exact (Finset.mem_filter.mp hmem).2 (hdrop.unused (hmove.users_eq_nil hnt))

/-- Whichever node of the pool is looked at, this succeeds, and the run from there ends. -/
inductive Halts (host : Host) (near : Neighbours) (rules : List Rule) (o : Option Origin) :
    Equilibrium × Session → Prop
  | intro {e : Equilibrium} {σ : Session}
      (hgoes : ∀ n ∈ e.pool, ∃ e' σ',
        Returns (process host near rules { e with pool := e.pool.erase n } n) o σ e' σ')
      (hnext : ∀ n ∈ e.pool, ∀ e' σ',
        Returns (process host near rules { e with pool := e.pool.erase n } n) o σ e' σ' →
          Halts host near rules o (e', σ')) :
      Halts host near rules o (e, σ)

/-- A run that ends in any order ends in the one that is taken. -/
theorem Halts.exists_run {rules : List Rule} {c : Equilibrium × Session}
    (h : Halts host near rules o c) :
    ∃ fuel σ', Returns (run host near rules fuel c.1) o c.2 () σ' := by
  induction h with
  | @intro e σ hgoes hnext ih =>
    cases hpool : e.pool with
    | nil =>
      refine ⟨1, σ, ?_⟩
      rw [run]
      dsimp only
      rw [hpool]
      exact returns_pure_self
    | cons n rest =>
      have hn : n ∈ e.pool := hpool ▸ mem_cons_self
      obtain ⟨e', σ', hp⟩ := hgoes n hn
      obtain ⟨fuel, σ'', hrun⟩ := ih n hn e' σ' hp
      refine ⟨fuel + 1, σ'', ?_⟩
      rw [run]
      dsimp only
      rw [hpool] at hp ⊢
      rw [erase_cons_head] at hp
      exact returns_bind.mpr ⟨e', σ', hp, hrun⟩

theorem halts_of_tame (hshows : ∀ h, ¬ TransGen (Shows s0) h h) (k : Nat) :
    ∀ {s : Store}, (used s).card = k → Tame s0 s →
      ∀ (e : Equilibrium) (σ : Session), σ.store = s → Halts host near [.dropCopy] o (e, σ) := by
  induction k using Nat.strong_induction_on with
  | _ k ih =>
    intro s hk ht e
    -- the store stays as it is until a copy is dropped
    induction e using (wellFounded_nearer (ht.derived.wellFounded_leads hshows)).induction with
    | _ e ihe =>
      rintro σ rfl
      refine .intro (fun n hn => ?_) fun n hn e' σ' hp => ?_
      · exact exists_process ht.linked ht.acyclic (ht.outputs n) _
      · have hproc := process_cases ht.linked (by decide) hp
        rcases hproc.nearer_or_fewer hn ht with ⟨hsame, hnear⟩ | hfewer
        · exact ihe e' hnear σ' hsame
        · exact ih _ (hk ▸ hfewer) rfl (hproc.tame ht) e' σ' rfl

/-- Dropping copies ends, whatever the order in which nodes are looked at, if the edges of each graph go
round nowhere and no graph shows itself through others. -/
theorem halts_of_not_shows {σ : Session} (hl : Linked σ.store) (ha : Acyclic σ.store)
    (houts : ∀ n h, (σ.store.node n).graph? = some h → ∃ out, (σ.store.graph h).output = some out)
    (hshows : ∀ h, ¬ TransGen (Shows σ.store) h h) (e : Equilibrium) :
    Halts host near [.dropCopy] o (e, σ) ∧
      ∃ fuel σ', Returns (run host near [.dropCopy] fuel e) o σ () σ' := by
  have hhalts : Halts host near [.dropCopy] o (e, σ) :=
    halts_of_tame hshows _ rfl ⟨hl, ha, .refl _, houts⟩ e σ rfl
  exact ⟨hhalts, hhalts.exists_run⟩

theorem not_shows_copyingStore (h h' : GraphId) : ¬ Shows copyingStore h h' := by
  have hcopies : ∀ a f x, (copyingStore.node a).application? = some [some f, some x] →
      (copyingStore.node x).graph? = none := by
    intro a f x happ
    have hall : ∀ a < copyingStore.nodes.size, ∀ parts ∈ (copyingStore.node a).application?,
        parts.length = 2 → ∀ p ∈ parts.drop 1, ∀ x ∈ p, (copyingStore.node x).graph? = none := by
      decide +kernel
    exact hall a (Needs.lt_size (needs_of_application happ mem_cons_self)) _ happ rfl _
      mem_cons_self x rfl
  rintro ⟨out, p, hout, hp, hcase⟩
  -- the outputs are no copies, are no graphs, and need none
  have houts : ∀ h < copyingStore.graphs.size, ∀ out ∈ (copyingStore.graph h).output,
      ((copyingStore.node out).application?.getD []).length = 3 ∧
      (copyingStore.node out).graph? = none ∧
      ∀ q ∈ (copyingStore.node out).successors, (copyingStore.node q).graph? = none := by
    decide +kernel
  obtain ⟨hlen, hnone, hneeds⟩ := houts h (lt_size_of_output hout) out hout
  cases hp with
  | copy happ =>
    rw [happ] at hlen
    cases hlen
  | refl =>
    rcases hcase with hg | ⟨q, c, hq, hres, hg⟩
    · rw [hnone] at hg
      cases hg
    · have hqc := hres.eq_of_graph? hcopies (by rw [hg]; rfl)
      rw [← hqc, hneeds q hq] at hg
      cases hg

theorem halts_of_not_shows_copying :
    Halts silentHost ⟨0, 0, 0⟩ [.dropCopy] none
        ({ graphs := [0], pool := [11] }, { Session.initial with store := copyingStore }) := by
  refine (halts_of_not_shows linked_copyingStore (acyclic_of_lt (by decide +kernel)) ?_ ?_ _).1
  · intro n h hn
    have hall : ∀ n < copyingStore.nodes.size, ∀ h ∈ (copyingStore.node n).graph?,
        (copyingStore.graph h).output.isSome = true := by decide +kernel
    have hlt : n < copyingStore.nodes.size := by
      by_contra hge
      have hn : (copyingStore.node n).graph? = some h := hn
      rw [node_of_size_le (Nat.le_of_not_lt hge)] at hn
      cases hn
    exact Option.isSome_iff_exists.mp (hall n hlt h hn)
  · intro h hh
    obtain ⟨h', hstep, -⟩ := TransGen.head'_iff.mp hh
    exact not_shows_copyingStore h h' hstep

def returningItself : Store :=
  let name (label : String) : Symbol := .plain label (.named "global:sample") 1
  { nodes := #[
      { home := some 0, tag := name "x" },
      { home := none, tag := name "f", value := some (.graph 0 (name "f"))
        users := [(.output, .graph 0)] }]
    graphs := #[
      { parent := none, tag := name "f", generator := 0, inputs := [0], output := some 1 }] }

/-- A graph that returns itself waits again as soon as it was looked at. -/
theorem not_halts_returning_itself :
    Linked returningItself ∧ Acyclic returningItself ∧
    ¬ Halts silentHost ⟨0, 0, 0⟩ [.dropCopy] none
        ({ graphs := [0], pool := [1] }, { Session.initial with store := returningItself }) ∧
    ∀ fuel σ', ¬ Returns (run silentHost ⟨0, 0, 0⟩ [.dropCopy] fuel { graphs := [0], pool := [1] })
      none { Session.initial with store := returningItself } () σ' := by
  have hround : Returns (process silentHost ⟨0, 0, 0⟩ [.dropCopy] { graphs := [0], pool := [] } 1)
      none { Session.initial with store := returningItself } { graphs := [0], pool := [1] }
      { Session.initial with store := returningItself } := rfl
  refine ⟨linked_of_forall (by decide +kernel) (by decide +kernel), acyclic_of_lt (by decide +kernel),
    fun h => ?_, fun fuel => ?_⟩
  · generalize hc : (({ graphs := [0], pool := [1] } : Equilibrium),
      { Session.initial with store := returningItself }) = c at h
    induction h with
    | intro hgoes hnext ih =>
      cases hc
      exact ih 1 mem_cons_self _ _ hround rfl
  · induction fuel with
    | zero => exact fun σ' h => (returns_throw.mp h).elim
    | succ fuel ih =>
      intro σ' h
      obtain ⟨e₁, σ₁, h₁, h₂⟩ := returns_bind.mp h
      obtain ⟨rfl, rfl⟩ := hround.unique h₁
      exact ih σ' h₂

end Equilibrium

end DiffLang.Graph
