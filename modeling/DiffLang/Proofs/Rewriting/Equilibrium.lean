import DiffLang.Proofs.Rewriting.Soundness

/-!
# Where rewriting ends

A node where no rule applied is looked at again as soon as a node changes that its matches depended
on, so that where the pool is empty no rule applies to any node that was looked at; and the nodes that
such a node needs were looked at, too. This makes an equilibrium of all that is reached from nodes that
were looked at.

The output of a graph is looked at when the graph is met, but not the node that takes its place when it
is replaced itself: nothing is noted for the change of a graph. So a copy of a copy that is returned is
replaced only once (`matches_output_copied_twice`), and the main statement, `unmatched_of_turns`, is
about the graphs whose output is the one they had, or was looked at for another reason.
-/

open Relation (ReflTransGen TransGen)

namespace DiffLang.Graph

open Run Session List

def Acyclic (s : Store) : Prop := ∀ n, ¬ TransGen (Needs s) n n

variable {s s' : Store} {m n t x : NodeId} {g : GraphId}

theorem Rule.Finds.transGen {r : Rule} (h : r.Finds s n t) : TransGen (Needs s) n t := by
  cases h with
  | copy happ _ => exact .single (needs_of_application happ (by simp))
  | part happ _ htuple _ _ _ _ ht =>
    exact .tail (.single (needs_of_application happ (by simp)))
      (needs_of_application htuple (mem_cons_of_mem _ (mem_of_getElem? ht)))

/-- Moving users to what is needed adds only what was needed in several steps. -/
theorem Redirected.transGen (h : Redirected s s' n t) (hl : Linked s) (ht : TransGen (Needs s) n t)
    {a b : NodeId} (hab : TransGen (Needs s') a b) : TransGen (Needs s) a b := by
  have hstep : ∀ {a b}, Needs s' a b → TransGen (Needs s) a b := by
    intro a b hab
    rcases h.needs hl hab with hab | ⟨rfl, hab⟩
    · exact .single hab
    · exact .head hab ht
  induction hab with
  | single hab => exact hstep hab
  | tail _ hbc ih => exact ih.trans (hstep hbc)

theorem SameEdges.needs_iff (h : SameEdges s s') {a b : NodeId} : Needs s' a b ↔ Needs s a b := by
  rw [needs_iff_inRole, needs_iff_inRole]
  exact exists_congr fun r => by rw [h.inRole]

namespace Equilibrium

variable {rules : List Rule} {e e' : Equilibrium}

def again (e : Equilibrium) (x : NodeId) : List NodeId := (e.repools.lookup x).getD []

/-! ## What changes note -/

theorem lookup_filter_ne {β : Type} (l : List (NodeId × β)) :
    (l.filter fun p => p.1 ≠ n).lookup x = if x = n then none else l.lookup x := by
  induction l with
  | nil => simp
  | cons p l ih =>
    obtain ⟨k, b⟩ := p
    by_cases hk : k = n
    · rw [filter_cons_of_neg (by simpa using hk), ih, lookup_cons]
      by_cases hx : x = n
      · rw [if_pos hx, if_pos hx]
      · rw [if_neg hx, if_neg hx, hk, beq_eq_false_iff_ne.mpr hx]
    · rw [filter_cons_of_pos (by simpa using hk), lookup_cons, lookup_cons, ih]
      by_cases hx : x = k
      · rw [beq_iff_eq.mpr hx]
        exact (if_neg (hx ▸ hk)).symm
      · rw [beq_eq_false_iff_ne.mpr hx]

theorem again_markChange : (e.markChange (.node n)).again x = if x = n then [] else e.again x := by
  unfold again markChange
  rw [lookup_filter_ne]
  split <;> rfl

theorem mem_processed_markChange :
    m ∈ (e.markChange (.node n)).processed ↔ m ∈ e.processed ∧ m ∉ e.again n := by
  simp [markChange, again]

theorem mem_pool_markChange :
    m ∈ (e.markChange (.node n)).pool ↔ m ∈ e.again n ∨ m ∈ e.pool := by
  simp [markChange, again]

/-- What is noted when users of a node move: their owners change. -/
structure Marked (e e' : Equilibrium) (xs : List NodeId) : Prop where
  graphs : e'.graphs = e.graphs
  pool : ∀ m ∈ e.pool, m ∈ e'.pool
  processed : ∀ m ∈ e'.processed, m ∈ e.processed ∧ ∀ x ∈ xs, m ∉ e.again x
  repooled : ∀ m ∈ e.processed, m ∈ e'.processed ∨ m ∈ e'.pool
  again : ∀ x, x ∉ xs → e'.again x = e.again x

theorem Marked.refl (e : Equilibrium) : Marked e e [] :=
  ⟨rfl, fun _ h => h, fun _ h => ⟨h, by simp⟩, fun _ h => .inl h, fun _ _ => rfl⟩

theorem Marked.trans {e1 : Equilibrium} {xs ys : List NodeId} (h1 : Marked e e1 xs)
    (h2 : Marked e1 e' ys) : Marked e e' (xs ++ ys) where
  graphs := h2.graphs.trans h1.graphs
  pool m hm := h2.pool m (h1.pool m hm)
  processed m hm := by
    obtain ⟨hm1, hys⟩ := h2.processed m hm
    obtain ⟨hm0, hxs⟩ := h1.processed m hm1
    refine ⟨hm0, fun x hx => ?_⟩
    by_cases hx' : x ∈ xs
    · exact hxs x hx'
    · rw [← h1.again x hx']
      exact hys x ((mem_append.mp hx).resolve_left hx')
  repooled m hm := (h1.repooled m hm).elim (h2.repooled m) fun hm => .inr (h2.pool m hm)
  again x hx := by
    rw [mem_append, not_or] at hx
    rw [h2.again x hx.2, h1.again x hx.1]

theorem marked_markChange (e : Equilibrium) (n : NodeId) : Marked e (e.markChange (.node n)) [n] where
  graphs := rfl
  pool m hm := mem_pool_markChange.mpr (.inr hm)
  processed m hm := by simpa using mem_processed_markChange.mp hm
  repooled m hm := by
    rw [mem_processed_markChange, mem_pool_markChange]
    by_cases h : m ∈ e.again n
    · exact .inr (.inl h)
    · exact .inl ⟨hm, h⟩
  again x hx := by
    rw [again_markChange, if_neg (by simpa using hx)]

theorem marked_moves (hnt : n ≠ t) (us : List (Role × Owner)) : ∀ e : Equilibrium,
    ∃ xs, Marked e (e.markAll (us.flatMap (moves n t))) xs ∧
      ∀ x, x ∈ xs ↔ ∃ r, (r, Owner.node x) ∈ us := by
  induction us with
  | nil => exact fun e => ⟨[], Marked.refl e, by simp⟩
  | cons u us ih =>
    intro e
    obtain ⟨r, w⟩ := u
    cases w with
    | node x =>
      obtain ⟨xs, hxs, hmem⟩ := ih ((e.markChange (.node x)).markChange (.node x))
      refine ⟨[x] ++ ([x] ++ xs), ?_, fun y => ?_⟩
      · rw [flatMap_cons, moves, if_neg hnt]
        exact (marked_markChange e x).trans ((marked_markChange _ x).trans hxs)
      · rw [mem_append, mem_append, mem_singleton, hmem]
        simp only [mem_cons, Prod.mk.injEq, Owner.node.injEq]
        constructor
        · rintro (rfl | rfl | ⟨r', h⟩)
          · exact ⟨r, .inl ⟨rfl, rfl⟩⟩
          · exact ⟨r, .inl ⟨rfl, rfl⟩⟩
          · exact ⟨r', .inr h⟩
        · rintro ⟨r', ⟨-, rfl⟩ | h⟩
          · exact .inl rfl
          · exact .inr (.inr ⟨r', h⟩)
    | graph g =>
      obtain ⟨xs, hxs, hmem⟩ := ih e
      refine ⟨xs, hxs, fun y => ?_⟩
      simp [hmem]

/-! ## What settling notes -/

variable {touched : List NodeId}

theorem mem_processed_settle :
    m ∈ (e.settle s n touched).processed ↔ m = n ∨ m ∈ e.processed := by
  simp [settle]

theorem mem_pool_settle :
    m ∈ (e.settle s n touched).pool ↔
      (Needs s n m ∧ m ≠ n ∧ m ∉ e.processed) ∨ m ∈ e.pool := by
  simp [settle, Needs]

theorem mem_again_settle :
    m ∈ (e.settle s n touched).again x ↔ m ∈ e.again x ∨ (m = n ∧ x ∈ touched) := by
  have hfold : ∀ (touched : List NodeId) (rs : List (NodeId × List NodeId)),
      m ∈ ((touched.foldl (fun r y =>
        Session.put (· == ·) y (insert n ((r.lookup y).getD [])) r) rs).lookup x).getD [] ↔
      m ∈ (rs.lookup x).getD [] ∨ (m = n ∧ x ∈ touched) := by
    intro touched
    induction touched with
    | nil => simp
    | cons y touched ih =>
      intro rs
      rw [foldl_cons, ih, lookup_put]
      by_cases hx : x = y
      · subst hx
        simp
        tauto
      · rw [if_neg (by simpa using hx)]
        simp [hx]
  exact hfold touched e.repools

/-! ## What is kept -/

/-- A node that was looked at, that waits to be, or that is a graph which was met. -/
def Met (e : Equilibrium) (s : Store) (n : NodeId) : Prop :=
  n ∈ e.processed ∨ n ∈ e.pool ∨ ∃ h ∈ e.graphs, (s.node n).graph? = some h

/-- What holds during a run that began in the store `s0`. -/
structure Progress (rules : List Rule) (s0 : Store) (e : Equilibrium) (s : Store) : Prop where
  linked : Linked s
  acyclic : Acyclic s
  /-- An output that was replaced is not used any more. -/
  replaced : ∀ g out, (s0.graph g).output = some out →
    (s.graph g).output = some out ∨ (s.node out).users = []
  /-- No rule matches a node that was looked at, and each change that matters brings it back. -/
  unmatched : ∀ p ∈ e.processed, (s.node p).users ≠ [] → ∀ r ∈ rules,
    ∃ m, r.pattern.matches s p = .ok m ∧ m.bindings = none ∧ ∀ x ∈ m.touched, p ∈ e.again x
  needed : ∀ p ∈ e.processed, (s.node p).users ≠ [] → ∀ q, Needs s p q → e.Met s q
  outputs : ∀ g ∈ e.graphs, ∀ out, (s0.graph g).output = some out →
    (s.graph g).output = some out → e.Met s out

/-- A state in which nothing was looked at yet and the outputs of the graphs wait. -/
structure Starts (e : Equilibrium) (s : Store) : Prop where
  processed : e.processed = []
  repools : e.repools = []
  outputs : ∀ g ∈ e.graphs, ∀ out, (s.graph g).output = some out → out ∈ e.pool

theorem Starts.progress (h : Starts e s) (hl : Linked s) (ha : Acyclic s) : Progress rules s e s where
  linked := hl
  acyclic := ha
  replaced g out hout := .inl hout
  unmatched p hp := by
    rw [h.processed] at hp
    cases hp
  needed p hp := by
    rw [h.processed] at hp
    cases hp
  outputs g hg out hout _ := .inr (.inl (h.outputs g hg out hout))

variable {s0 : Store}

theorem Met.of_erase {q : NodeId} (h : e.Met s q)
    (hn : q = n → e'.Met s' q) (hprocessed : ∀ m ∈ e.processed, m ∈ e'.processed ∨ m ∈ e'.pool)
    (hpool : ∀ m ∈ e.pool.erase n, m ∈ e'.pool) (hgraphs : ∀ h ∈ e.graphs, h ∈ e'.graphs)
    (hvalue : SameValues s s') : e'.Met s' q := by
  by_cases hqn : q = n
  · exact hn hqn
  rcases h with hq | hq | ⟨h, hh, hq⟩
  · exact (hprocessed q hq).imp id .inl
  · exact .inr (.inl (hpool q ((mem_erase_of_ne hqn).mpr hq)))
  · refine .inr (.inr ⟨h, hgraphs h hh, ?_⟩)
    unfold Node.graph? at hq ⊢
    rwa [hvalue q]

theorem Progress.follow (h : Progress rules s0 e s) {out : NodeId} (hg : (s.node n).graph? = some g)
    (hout : (s.graph g).output = some out) :
    Progress rules s0 { e with graphs := insert g e.graphs, pool := insert out (e.pool.erase n) } s := by
  have hmet : ∀ {q}, e.Met s q →
      Met { e with graphs := insert g e.graphs, pool := insert out (e.pool.erase n) } s q :=
    fun hq => hq.of_erase (fun he => .inr (.inr ⟨g, mem_insert.mpr (.inl rfl), he ▸ hg⟩))
      (fun m hm => .inl hm) (fun m hm => mem_insert.mpr (.inr hm))
      (fun m hm => mem_insert.mpr (.inr hm)) fun _ => rfl
  refine ⟨h.linked, h.acyclic, h.replaced, h.unmatched, fun p hp hu q hq => hmet (h.needed p hp hu q hq),
    fun g' hg' out' h0 hs => ?_⟩
  rcases mem_insert.mp hg' with rfl | hg'
  · rw [hout, Option.some.injEq] at hs
    exact .inr (.inl (mem_insert.mpr (.inl hs.symm)))
  · exact hmet (h.outputs g' hg' out' h0 hs)

theorem Progress.settle (h : Progress rules s0 e s) (hidle : ∀ r ∈ rules, Idle s n touched r) :
    Progress rules s0 (Equilibrium.settle s { e with pool := e.pool.erase n } n touched) s := by
  have hmet : ∀ {q}, e.Met s q →
      Met (Equilibrium.settle s { e with pool := e.pool.erase n } n touched) s q :=
    fun hq => hq.of_erase (fun he => .inl (mem_processed_settle.mpr (.inl he)))
      (fun m hm => .inl (mem_processed_settle.mpr (.inr hm)))
      (fun m hm => mem_pool_settle.mpr (.inr hm)) (fun m hm => hm) fun _ => rfl
  refine ⟨h.linked, h.acyclic, h.replaced, fun p hp hu r hr => ?_, fun p hp hu q hq => ?_,
    fun g hg out h0 hs => hmet (h.outputs g hg out h0 hs)⟩
  · by_cases hpn : p = n
    · subst hpn
      obtain ⟨m, hm, htouched, hcase⟩ := hidle r hr
      refine ⟨m, hm, ?_, fun x hx => mem_again_settle.mpr (.inr ⟨rfl, htouched hx⟩)⟩
      rcases hcase with hb | hnil | hfind
      · exact hb
      · exact absurd hnil hu
      · exact (h.acyclic p hfind.transGen).elim
    · obtain ⟨m, hm, hb, hagain⟩ :=
        h.unmatched p ((mem_processed_settle.mp hp).resolve_left hpn) hu r hr
      exact ⟨m, hm, hb, fun x hx => mem_again_settle.mpr (.inl (hagain x hx))⟩
  · by_cases hpn : p = n
    · subst hpn
      by_cases hqp : q = p ∨ q ∈ e.processed
      · exact .inl (mem_processed_settle.mpr hqp)
      · rw [not_or] at hqp
        exact .inr (.inl (mem_pool_settle.mpr (.inl ⟨hq, hqp⟩)))
    · exact hmet (h.needed p ((mem_processed_settle.mp hp).resolve_left hpn) hu q hq)

theorem Progress.rewrite (h : Progress rules s0 e s) {r : Rule} {s1 : Store} (hr : r ∈ rules)
    (hfind : r.Finds s n t) (hn : (s.node n).users ≠ []) (hmove : Redirected s s1 n t)
    (hdrop : Dropped s1 s') :
    Progress rules s0
      (markAll { e with pool := e.pool.erase n } ((s.node n).users.flatMap (moves n t))) s' := by
  have hnt : n ≠ t := by
    rintro rfl
    exact h.acyclic n hfind.transGen
  have ht := hfind.used h.linked hn
  have hl' : Linked s' := (h.linked.redirected hmove ht).dropped hdrop
  have hvalue : SameValues s s' := fun m => by rw [hdrop.same.node, hmove.node]
  have hused : ∀ {m}, (s'.node m).users ≠ [] → (s.node m).users ≠ [] := fun hm =>
    hmove.used_before ht fun hnil => hm (hdrop.unused hnil)
  have hdead : (s'.node n).users = [] := hdrop.unused (hmove.users_eq_nil hnt)
  obtain ⟨xs, hmarked, hxs⟩ := marked_moves hnt (s.node n).users { e with pool := e.pool.erase n }
  generalize markAll { e with pool := e.pool.erase n } ((s.node n).users.flatMap (moves n t)) = e1
    at hmarked ⊢
  -- a user of the node is brought back, since it was touched when it was looked at itself
  have hkept : ∀ {p}, p ∈ e1.processed → (s'.node p).users ≠ [] →
      p ∈ e.processed ∧ (∀ x ∈ xs, p ∉ e.again x) ∧ ¬ Needs s p n := by
    intro p hp hu
    obtain ⟨hp', hagain⟩ := hmarked.processed p hp
    refine ⟨hp', hagain, fun hneeds => ?_⟩
    obtain ⟨m, hm, -, htouched⟩ := h.unmatched p hp' (hused hu) r hr
    obtain ⟨role, hrole⟩ := needs_iff_inRole.mp hneeds
    exact hagain p ((hxs p).mpr ⟨role, h.linked.listed (hused hu) hrole⟩)
      (htouched p (mem_touched_of_matches hm))
  have hmet : ∀ {q}, e.Met s q → q ≠ n → e1.Met s' q := fun hq hqn =>
    hq.of_erase (fun he => absurd he hqn) hmarked.repooled hmarked.pool
      (fun k hk => hmarked.graphs ▸ hk) hvalue
  refine ⟨hl', fun m hm => ?_, fun g out hout => ?_, fun p hp hu r' hr' => ?_,
    fun p hp hu q hq => ?_, fun g hg out h0 hout => ?_⟩
  · refine h.acyclic m (hmove.transGen h.linked hfind.transGen ?_)
    exact TransGen.mono (fun _ _ => hdrop.same.needs_iff.mp) _ _ hm
  · rcases h.replaced g out hout with hs | hnil
    · by_cases hon : out = n
      · exact .inr (hon ▸ hdead)
      · left
        have hrole := hmove.inRole_of_listed h.linked (w := .graph g) (r := .output)
          (by rw [Store.inRole_graph, if_pos rfl, hs]) (h.linked.output hs)
        rw [Store.inRole_graph, if_pos rfl, moved, if_neg hon] at hrole
        rw [hdrop.same.graph, hrole]
    · right
      by_contra hne
      exact hused hne hnil
  · obtain ⟨hp', hagain, -⟩ := hkept hp hu
    obtain ⟨m, hm, hb, htouched⟩ := h.unmatched p hp' (hused hu) r' hr'
    have hx : ∀ x ∈ m.touched, x ∉ xs := fun x hx hxs' => hagain x hxs' (htouched x hx)
    refine ⟨m, matches_congr hvalue hm fun x hxm => ?_, hb, fun x hxm => ?_⟩
    · have hnot : ∀ role, (role, Owner.node x) ∉ (s.node n).users := fun role hu' =>
        hx x hxm ((hxs x).mpr ⟨role, hu'⟩)
      rw [hdrop.same.node]
      exact hmove.application?_of_not_user h.linked hnot
    · rw [hmarked.again x (hx x hxm)]
      exact htouched x hxm
  · obtain ⟨hp', -, hneeds⟩ := hkept hp hu
    have hq' : Needs s p q := (hmove.needs h.linked (hdrop.same.needs_iff.mp hq)).resolve_right
      fun hc => hneeds hc.2
    exact hmet (h.needed p hp' (hused hu) q hq') fun he => hneeds (he ▸ hq')
  · have hlist := ne_nil_of_mem (hl'.output hout)
    have hs := (h.replaced g out h0).resolve_right (hused hlist)
    exact hmet (h.outputs g (hmarked.graphs ▸ hg) out h0 hs) fun he => hlist (he ▸ hdead)

theorem Processed.progress (h : Progress rules s0 e s)
    (hp : Processed rules { e with pool := e.pool.erase n } n s e' s') : Progress rules s0 e' s' := by
  cases hp with
  | follow hg hout => exact h.follow hg hout
  | settle hg hidle => exact h.settle hidle
  | rewrite hg hr hfind hmove hdrop hsome =>
    exact h.rewrite hr hfind (fun hnil => hsome (by rw [hnil]; rfl)) hmove hdrop

variable {host : Host} {near : Neighbours} {o : Option Origin} {c c' : Equilibrium × Session}

theorem progress_of_turns (hrules : ∀ r ∈ rules, r.Replaces) (h : Progress rules s0 c.1 c.2.store)
    (hturns : ReflTransGen (Turn host near rules o) c c') : Progress rules s0 c'.1 c'.2.store := by
  induction hturns with
  | refl => exact h
  | tail _ hturn ih =>
    obtain ⟨n, -, hn⟩ := hturn
    exact (process_cases ih.linked hrules hn).progress ih

/-! ## When the pool is empty -/

theorem not_needs_of_value (hl : Linked s) (hv : (s.node n).value.isSome = true) : ¬ Needs s n m := by
  intro h
  obtain ⟨r, hr⟩ := needs_iff_inRole.mp h
  have hfn := hl.known n hv
  have hinputs := hl.bare n hfn
  rw [Store.inRole_node] at hr
  cases r with
  | fn =>
    rw [Node.inRole, hfn] at hr
    cases hr
  | input i =>
    rw [Node.inRole, hinputs] at hr
    split at hr <;> cases hr
  | output | other => cases hr

theorem isSome_value_of_graph? {x : Node} (h : x.graph? = some g) : x.value.isSome = true := by
  unfold Node.graph? at h
  split at h
  next hv =>
    rw [hv]
    rfl
  · cases h

def Unmatched (rules : List Rule) (s : Store) (n : NodeId) : Prop :=
  ∀ r ∈ rules, ∃ touched, r.pattern.matches s n = .ok ⟨touched, none⟩

theorem unmatched_of_graph? (hrules : ∀ r ∈ rules, r.Replaces) (hl : Linked s) {h : GraphId}
    (hh : (s.node n).graph? = some h) : Unmatched rules s n := by
  obtain ⟨v, hv⟩ := Option.isSome_iff_exists.mp (isSome_value_of_graph? hh)
  have happ := hl.application?_of_value hv
  intro r hr
  rcases hrules r hr with rfl | rfl <;>
    exact ⟨_, by simp only [Pattern.matches, Rule.pattern, matchPattern, happ]; rfl⟩

/-- Where the pool is empty, all that a node needs that was looked at is an equilibrium. -/
theorem Progress.unmatched_of_reaches (h : Progress rules s0 e s) (hrules : ∀ r ∈ rules, r.Replaces)
    (hpool : e.pool = []) (hm : e.Met s m) (hu : (s.node m).users ≠ []) (hreach : Reaches s m n) :
    Unmatched rules s n := by
  have hall : e.Met s n ∧ (s.node n).users ≠ [] := by
    induction hreach with
    | refl => exact ⟨hm, hu⟩
    | tail _ hbc ih =>
      obtain ⟨hb, hub⟩ := ih
      refine ⟨?_, h.linked.used_of_needs hub hbc⟩
      rcases hb with hb | hb | ⟨k, -, hk⟩
      · exact h.needed _ hb hub _ hbc
      · rw [hpool] at hb
        cases hb
      · exact (not_needs_of_value h.linked (isSome_value_of_graph? hk) hbc).elim
  rcases hall.1 with hn | hn | ⟨k, -, hk⟩
  · intro r hr
    obtain ⟨m', hm', hb, -⟩ := h.unmatched n hn hall.2 r hr
    exact ⟨m'.touched, by rw [hm', ← hb]⟩
  · rw [hpool] at hn
    cases hn
  · exact unmatched_of_graph? hrules h.linked hk

/-- When the pool is empty, whatever the order in which nodes were looked at, no rule matches any node
that is reached from the output of a graph that was met, if the output is the one the graph had or was
looked at. -/
theorem unmatched_of_turns (hrules : ∀ r ∈ rules, r = .dropCopy ∨ r = .indexIntoTuple)
    {e e' : Equilibrium} {σ σ' : Session} (hl : Linked σ.store) (ha : Acyclic σ.store)
    (hs : e.Starts σ.store) (hturns : ReflTransGen (Turn host near rules o) (e, σ) (e', σ'))
    (hpool : e'.pool = []) {g : GraphId} (hg : g ∈ e'.graphs) {out : NodeId}
    (hout : (σ'.store.graph g).output = some out)
    (hsame : (σ.store.graph g).output = some out ∨ out ∈ e'.processed) {n : NodeId}
    (hn : Reaches σ'.store out n) : Unmatched rules σ'.store n := by
  have h : Progress rules σ.store e' σ'.store :=
    progress_of_turns hrules (hs.progress hl ha) hturns
  refine h.unmatched_of_reaches hrules hpool ?_ (ne_nil_of_mem (h.linked.output hout)) hn
  rcases hsame with h₀ | hp
  · exact h.outputs g hg out h₀ hout
  · exact .inl hp

theorem graphs_markAll (changes : List Change) : ∀ e : Equilibrium,
    (e.markAll changes).graphs = e.graphs := by
  induction changes with
  | nil => exact fun e => rfl
  | cons c cs ih =>
    intro e
    refine (ih _).trans ?_
    show (e.markChange (sourceOf c)).graphs = e.graphs
    cases sourceOf c <;> rfl

theorem Processed.graphs_subset (h : Processed rules e n s e' s') : e.graphs ⊆ e'.graphs := by
  cases h with
  | follow => exact fun g hg => mem_insert.mpr (.inr hg)
  | settle => exact List.Subset.refl _
  | rewrite =>
    rw [graphs_markAll]
    exact List.Subset.refl _

theorem graphs_subset_of_turns (hrules : ∀ r ∈ rules, r.Replaces) (hl : Linked c.2.store)
    (hturns : ReflTransGen (Turn host near rules o) c c') : c.1.graphs ⊆ c'.1.graphs := by
  induction hturns with
  | refl => exact List.Subset.refl _
  | tail hturns hturn ih =>
    obtain ⟨n, -, hn⟩ := hturn
    exact List.Subset.trans ih
      (process_cases (linked_of_turns hrules hl hturns) hrules hn).graphs_subset

theorem acyclic_of_lt (h : ∀ m < s.nodes.size, ∀ n ∈ (s.node m).successors, n < m) : Acyclic s := by
  have hlt : ∀ {m n}, TransGen (Needs s) m n → n < m := by
    intro m n hmn
    induction hmn with
    | single hmn => exact h m (Needs.lt_size hmn) _ hmn
    | tail _ hbc ih => exact (h _ (Needs.lt_size hbc) _ hbc).trans ih
  exact fun n hn => Nat.lt_irrefl n (hlt hn)

theorem unmatched_of_turns_copying :
    ∃ e' σ', ReflTransGen (Turn silentHost ⟨0, 0, 0⟩ [.dropCopy, .indexIntoTuple] none)
        ({ graphs := [0], pool := [11] }, { Session.initial with store := copyingStore }) (e', σ') ∧
      e'.pool = [] ∧ (σ'.store.graph 0).output = some 11 ∧
      ∀ n, Reaches σ'.store 11 n → Unmatched [.dropCopy, .indexIntoTuple] σ'.store n := by
  obtain ⟨_, σ', h, hout⟩ := exists_returns_and
    (run silentHost ⟨0, 0, 0⟩ [.dropCopy, .indexIntoTuple] 100 { graphs := [0], pool := [11] }) none
    { Session.initial with store := copyingStore }
    (p := fun σ => (σ.store.graph 0).output = some 11) (by decide +kernel) (by decide +kernel)
  obtain ⟨e', hturns, hpool⟩ := turns_of_run h
  have hacyclic : Acyclic copyingStore := acyclic_of_lt (by decide +kernel)
  have hmet : 0 ∈ e'.graphs :=
    graphs_subset_of_turns (by decide) linked_copyingStore hturns mem_cons_self
  refine ⟨e', σ', hturns, hpool, hout, fun n hn => ?_⟩
  exact unmatched_of_turns (σ := { Session.initial with store := copyingStore }) (by decide)
    linked_copyingStore hacyclic ⟨rfl, rfl, by decide +kernel⟩ hturns hpool hmet hout
    (.inl (by decide +kernel)) hn

/-- A function that returns a copy of a copy of its argument. -/
def copiedTwice : Store :=
  let name (label : String) : Symbol := .plain label (.named "global:sample") 1
  { nodes := #[
      { home := some 0, tag := name "x", users := [(.input 0, .node 2)] },
      { home := none, tag := .builtin "identity", value := some (.symbol (.builtin "identity"))
        users := [(.fn, .node 2), (.fn, .node 3)] },
      { home := some 0, tag := name "y", fn := some 1, inputs := [some 0]
        users := [(.input 0, .node 3)] },
      { home := some 0, tag := name "z", fn := some 1, inputs := [some 2]
        users := [(.output, .graph 0)] }]
    graphs := #[
      { parent := none, tag := name "f", generator := 0, inputs := [0], output := some 3 }] }

/-- The copy that is returned in the end is never looked at. -/
theorem matches_output_copied_twice :
    ∃ e' σ', ReflTransGen (Turn silentHost ⟨0, 0, 0⟩ [.dropCopy, .indexIntoTuple] none)
        ({ graphs := [0], pool := [3] }, { Session.initial with store := copiedTwice }) (e', σ') ∧
      e'.pool = [] ∧ 0 ∈ e'.graphs ∧ (σ'.store.graph 0).output = some 2 ∧
      ¬ Unmatched [.dropCopy, .indexIntoTuple] σ'.store 2 := by
  obtain ⟨_, σ', h, hout, hmatch⟩ := exists_returns_and
    (run silentHost ⟨0, 0, 0⟩ [.dropCopy, .indexIntoTuple] 100 { graphs := [0], pool := [3] }) none
    { Session.initial with store := copiedTwice }
    (p := fun σ => (σ.store.graph 0).output = some 2 ∧
      (match Rule.dropCopy.pattern.matches σ.store 2 with
        | .ok m => m.bindings.isSome
        | .error _ => false) = true) (by decide +kernel) (by decide +kernel)
  obtain ⟨e', hturns, hpool⟩ := turns_of_run h
  have hl : Linked copiedTwice := linked_of_forall (by decide +kernel) (by decide +kernel)
  refine ⟨e', σ', hturns, hpool,
    graphs_subset_of_turns (by decide) hl hturns mem_cons_self, hout, fun hun => ?_⟩
  obtain ⟨touched, htouched⟩ := hun .dropCopy mem_cons_self
  rw [htouched] at hmatch
  cases hmatch

end Equilibrium

end DiffLang.Graph
