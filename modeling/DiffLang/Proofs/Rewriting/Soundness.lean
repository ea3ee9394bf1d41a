import DiffLang.Proofs.Code.Operations
import DiffLang.Proofs.Rewriting.Step

/-!
# Rewriting keeps what graphs mean

A rule puts a node in place of another one that has the same value, found at no greater depth
(`Rule.Finds.denote`). Moving the users of the one to the other therefore takes no value away from any
graph of the store, not even from graphs that call each other (`Redirected.refined_of_stands`), and
dropping edges at their targets changes no value at all. So much holds of every rule that is `Sound`.

Main statement: `refined_of_run`, for the turns of a run in any order.
-/

open Relation (ReflTransGen)

namespace DiffLang.Graph

open Run Machine List

variable {U : Universe} {s s' : Store} {g : GraphId} {args vs : List Value} {m n t : NodeId}
  {v : Value} {k : Nat} {parts : List (Option NodeId)} {body : GraphId → List Value → Option Value}

theorem exists_map_some : ∀ xs : List (Option NodeId), (∀ x ∈ xs, x.isSome = true) →
    ∃ ys : List NodeId, xs = ys.map some
  | [], _ => ⟨[], rfl⟩
  | none :: xs, h => absurd (h none mem_cons_self) (by simp)
  | some x :: xs, h =>
    let ⟨ys, hys⟩ := exists_map_some xs fun y hy => h y (mem_cons_of_mem _ hy)
    ⟨x :: ys, by rw [hys, map_cons]⟩

theorem Linked.parts_eq (hl : Linked s) (h : (s.node n).application? = some parts) :
    ∃ p ps, parts = (p :: ps).map some := by
  obtain ⟨f, -, rfl⟩ := application?_eq_some_iff.mp h
  obtain ⟨ps, hps⟩ := exists_map_some (s.node n).inputs (hl.whole n)
  exact ⟨f, ps, by rw [map_cons, hps]⟩

theorem Linked.application?_of_value (hl : Linked s) (h : (s.node n).value = some v) :
    (s.node n).application? = none := by
  unfold Node.application?
  rw [hl.known n (by rw [h]; rfl)]
  rfl

/-! ## Operations -/

theorem Universe.Standard.returns_call (hU : U.Standard) (hl : Linked s) {op : String} {f : NodeId}
    {fv : Value} (hf : IsOperation s f op) (hfv : denote U s k g args f = some fv)
    (h : applied U body fv vs = some v) :
    ∃ host o σ σ', Returns (Primitive.call host op vs) o σ v σ' := by
  have happ := hl.application?_of_value hf
  cases k with
  | zero => cases hfv
  | succ k =>
    rw [denote, happ] at hfv
    dsimp only at hfv
    rw [hf] at hfv
    dsimp only at hfv
    rw [if_pos (isGlobal_builtin op)] at hfv
    obtain ⟨home, rfl⟩ := hU.name (toOption_eq_some.mp hfv)
    exact hU.call (toOption_eq_some.mp h)

theorem wholeNumber_of_index? {i j : Int} (hi : v.index? = some i) (hj : wholeNumber v = .ok j) :
    j = i := by
  unfold Value.index? at hi
  split at hi <;> cases hi <;> simp [wholeNumber, Value.index?] at hj <;> exact hj.symm

theorem item_tuple {ws : List Value} {i : Value} {j : Int} (h : (Value.tuple ws).item i = .ok v)
    (hj : wholeNumber i = .ok j) :
    ∃ place, Value.place ws.length j = .ok place ∧ v = ws.getD place .none := by
  have h : Value.listItem ws .tuple i = .ok v := h
  unfold Value.listItem at h
  split at h
  · cases hj
  · split at h
    next i' hi' =>
      rw [wholeNumber_of_index? hi' hj]
      cases hp : Value.place ws.length i' with
      | error e =>
        rw [hp] at h
        cases h
      | ok place =>
        rw [hp] at h
        cases h
        exact ⟨place, rfl, rfl⟩
    · cases h

theorem denote_constant (hl : Linked s) (hv : (s.node n).value = some v) {i : Int}
    (hi : wholeNumber v = .ok i) {w : Value} (h : denote U s k g args n = some w) : w = v := by
  have happ := hl.application?_of_value hv
  cases k with
  | zero => cases h
  | succ k =>
    rw [denote, happ] at h
    dsimp only at h
    rw [hv] at h
    split at h
    next x hx =>
      injection hx with hx
      rw [hx] at hi
      cases hi
    next hx =>
      injection hx with hx
      rw [hx] at hi
      cases hi
    next hx =>
      injection hx with hx
      injection h with h
      rw [← h, hx]
    next hx => cases hx

theorem forall₂_singleton_left {α β : Type} {R : α → β → Prop} {a : α} {bs : List β} :
    List.Forall₂ R [a] bs ↔ ∃ b, R a b ∧ bs = [b] := by
  simp [forall₂_cons_left_iff]

theorem Rule.Finds.denote {r : Rule} (hU : U.Standard) (hl : Linked s) (hfind : r.Finds s n t)
    (h : denote U s (k + 1) g args n = some v) : denote U s k g args t = some v := by
  cases hfind with
  | @copy _ f _ happ hf =>
    have happ : (s.node n).application? = some ([f, t].map some) := happ
    obtain ⟨fv, vs, hfv, hvs, hcall⟩ := (denote_application happ).mp h
    obtain ⟨w, hw, rfl⟩ := forall₂_singleton_left.mp hvs
    obtain ⟨host, o, σ, σ', hret⟩ := hU.returns_call hl hf hfv hcall
    rw [call_identity, returns_pure] at hret
    rw [hw, hret.1]
  | @part _ f a c i _ items w j place happ hf htuple hc hw hj hplace ht =>
    have happ : (s.node n).application? = some ([f, a, i].map some) := happ
    obtain ⟨fv, vs, hfv, hvs, hcall⟩ := (denote_application happ).mp h
    cases hvs with
    | @cons _ av _ _ hav hvs =>
    obtain ⟨iv, hiv, rfl⟩ := forall₂_singleton_left.mp hvs
    obtain rfl := denote_constant hl hw hj hiv
    obtain ⟨host, o, σ, σ', hitem⟩ := hU.returns_call hl hf hfv hcall
    rw [call_index, returns_lift] at hitem
    obtain ⟨_, ps, hps⟩ := hl.parts_eq htuple
    rw [map_cons] at hps
    obtain ⟨rfl, rfl⟩ : _ ∧ items = ps.map some := by simpa [eq_comm] using hps
    -- the tuple has what its parts have, one step deeper
    cases k with
    | zero => cases hav
    | succ k =>
      obtain ⟨cv, ws, hcv, hws, htup⟩ := (denote_application htuple).mp hav
      obtain ⟨host, o, σ, σ', hret⟩ := hU.returns_call hl hc hcv htup
      rw [call_mktuple, returns_pure] at hret
      rw [← hret.1] at hitem
      obtain ⟨place', hplace', rfl⟩ := item_tuple hitem.1 hj
      obtain ⟨hlen, hall⟩ := forall₂_iff_get.mp hws
      rw [length_map, hlen, hplace', Except.ok.injEq] at hplace
      subst hplace
      have hlt : place' < ws.length := place_lt hplace'
      have hlt' : place' < ps.length := hlen ▸ hlt
      have htp : ps[place'] = t := by simpa [hlt'] using ht
      have hval := hall place' hlt' hlt
      rw [get_eq_getElem, get_eq_getElem, htp] at hval
      rw [getD_eq_getElem?_getD, getElem?_eq_getElem hlt, Option.getD_some]
      exact denote_succ k hval

/-! ## Moving users -/

theorem exists_parts_of_mapM {f : NodeId → Option Value}
    (h : (parts.mapM fun p => p.bind f) = some vs) :
    ∃ ps : List NodeId, parts = ps.map some ∧ List.Forall₂ (fun p v => f p = some v) ps vs := by
  rw [mapM_eq_some_iff] at h
  induction h with
  | nil => exact ⟨[], rfl, .nil⟩
  | cons hp _ ih =>
    obtain ⟨ps, rfl, hps⟩ := ih
    obtain ⟨q, rfl, hq⟩ := Option.bind_eq_some_iff.mp hp
    exact ⟨q :: ps, rfl, .cons hq hps⟩

theorem yields_of_applied {f : Value}
    (hbody : ∀ g ws w, body g ws = some w → ∃ k, entered s (denote U s k) g ws = some w)
    (h : applied U body f vs = some v) : Yields U s f vs v := by
  unfold applied at h
  split at h
  next id _ _ ws hf =>
    obtain ⟨g, hg, hw⟩ := Option.bind_eq_some_iff.mp h
    obtain ⟨k, hk⟩ := hbody g ws v hw
    refine ⟨k, ?_⟩
    unfold applied
    rw [hf]
    exact Option.bind_eq_some_iff.mpr ⟨g, hg, hk⟩
  next hmachine hf =>
    refine ⟨0, ?_⟩
    unfold applied
    rw [hf]
    split
    next hf' =>
      cases hf'
      exact (hmachine _ _ _ rfl).elim
    next hf' =>
      cases hf'
      exact h

/-- Nodes of a class have in one store the values that they have in another, if each of them is the
same there, with its parts moved, or is known to have its values there, or has its values from a node
in its place. -/
theorem denotes_of_carried {P : NodeId → Prop} {f : NodeId → NodeId}
    (hinputs : ∀ g, (s'.graph g).inputs = (s.graph g).inputs)
    (houtput : ∀ g out, (s.graph g).output = some out →
      P out ∧ (s'.graph g).output = some (f out))
    (hpart : ∀ m parts q, P m → (s.node m).application? = some parts → some q ∈ parts → P q)
    (hnode : ∀ m, P m →
      (∀ k g args v, denote U s k g args m = some v → Denotes U s' g args (f m) v) ∨
      (∃ t, P t ∧ f t = f m ∧
        ∀ k g args v, denote U s (k + 1) g args m = some v → denote U s k g args t = some v) ∨
      (f m = m ∧ (s'.node m).tag = (s.node m).tag ∧ (s'.node m).value = (s.node m).value ∧
        (s'.node m).application? = (s.node m).application?.map (List.map (Option.map f)))) :
    ∀ (k : Nat) {g : GraphId} {args : List Value} {m : NodeId} {v : Value}, P m →
      denote U s k g args m = some v → Denotes U s' g args (f m) v := by
  intro k
  induction k with
  | zero =>
    intro g args m v _ hv
    cases hv
  | succ k ih =>
    intro g args m v hm hv
    obtain hcarried | ⟨t, ht, hf, hvalue⟩ | ⟨hf, htag, hvalue, happ'⟩ := hnode m hm
    · exact hcarried (k + 1) g args v hv
    · rw [← hf]
      exact ih ht (hvalue k g args v hv)
    rw [hf]
    rw [denote] at hv
    cases happ : (s.node m).application? with
    | none =>
      rw [happ] at hv happ'
      refine ⟨1, ?_⟩
      rw [denote, happ', htag, hvalue, hinputs]
      exact hv
    | some parts =>
      rw [happ] at hv happ'
      obtain ⟨vs, hvs, happlied⟩ := Option.bind_eq_some_iff.mp hv
      clear hv
      obtain ⟨ps, rfl, hps⟩ := exists_parts_of_mapM hvs
      cases hps with
      | nil => cases happlied
      | @cons p fv ps ws hp hps =>
        have hparts : ∀ q ∈ p :: ps, P q := fun q hq =>
          hpart m _ q hm happ (mem_map_of_mem hq)
        have hmoved : (s'.node m).application? = some ((f p :: ps.map f).map some) := by
          rw [happ']
          simp
        have hargs : List.Forall₂ (Denotes U s' g args) (ps.map f) ws := by
          rw [forall₂_map_left_iff]
          clear hvs happ happ' hmoved happlied
          induction hps with
          | nil => exact .nil
          | @cons q _ _ _ hq _ ih' =>
            exact .cons (ih (hparts q (by simp)) hq)
              (ih' fun x hx => hparts x (by simp only [mem_cons] at hx ⊢; tauto))
        refine denotes_application hmoved (ih (hparts p mem_cons_self) hp) hargs ?_
        refine yields_of_applied (fun h ws w hw => ?_) happlied
        obtain ⟨hlen, out, hout, hw⟩ := entered_eq_some_iff.mp hw
        obtain ⟨hP, hout'⟩ := houtput h out hout
        obtain ⟨j, hj⟩ := ih hP hw
        exact ⟨j, entered_eq_some_iff.mpr ⟨by rw [hlen, hinputs], f out, hout', hj⟩⟩

/-- Edges are followed from their sources, so that dropping them at their targets changes nothing. -/
theorem SameEdges.denote (h : SameEdges s s') : ∀ k : Nat, Graph.denote U s' k = Graph.denote U s k
  | 0 => rfl
  | k + 1 => by
    have hentered : entered s' (Graph.denote U s k) = entered s (Graph.denote U s k) := by
      funext g args
      unfold entered
      rw [h.graph g]
    funext g args n
    rw [Graph.denote, Graph.denote, h.denote k, hentered, h.graph g, h.node n]
    rfl

/-! ## Runs -/

/-- No graph loses a value. -/
def Refined (U : Universe) (s s' : Store) : Prop :=
  ∀ g args v, Evaluates U s g args v → Evaluates U s' g args v

theorem Refined.trans (h : Refined U s s1) (h' : Refined U s1 s') : Refined U s s' :=
  fun g args v hv => h' g args v (h g args v hv)

/-- A node stands for another one: it has the values of the other, at a smaller depth or when the users
of the other have been moved to it. -/
structure Stands (U : Universe) (s : Store) (n t : NodeId) : Prop where
  lt : t < s.nodes.size
  listed : Listed s t
  value : (∀ k g args v, denote U s (k + 1) g args n = some v → denote U s k g args t = some v) ∨
    ∀ s', Redirected s s' n t → ∀ k g args v, denote U s k g args n = some v →
      Denotes U s' g args t v

theorem Redirected.refined_of_stands (hl : Linked s) (h : Redirected s s' n t) (ht : Stands U s n t) :
    Refined U s s' := by
  have houtput : ∀ g out, (s.graph g).output = some out →
      Listed s out ∧ (s'.graph g).output = some (moved n t out) := by
    intro g out hout
    have hlist := hl.output hout
    refine ⟨hl.listed_of_used (ne_nil_of_mem hlist), ?_⟩
    have hrole := h.inRole_of_listed hl (w := .graph g) (r := .output) (x := out)
      (by rw [Store.inRole_graph, if_pos rfl, hout]) hlist
    rwa [Store.inRole_graph, if_pos rfl] at hrole
  rintro g args v ⟨out, hout, k, hk⟩
  refine ⟨moved n t out, (houtput g out hout).2, denotes_of_carried (P := Listed s)
    (fun g => by rw [h.graph g]) houtput (fun m parts q hm happ hq => ?_) (fun m hm => ?_) k
    (houtput g out hout).1 hk⟩
  · obtain ⟨r, hr⟩ := needs_iff_inRole.mp (needs_of_application happ hq)
    exact hl.listed_of_used (ne_nil_of_mem (hm r q hr))
  · by_cases hmn : m = n
    · subst hmn
      rcases ht.value with hvalue | hvalue
      · exact .inr (.inl ⟨t, ht.listed, by simp [moved], hvalue⟩)
      · left
        rw [moved, if_pos rfl]
        exact hvalue s' h
    · exact .inr (.inr ⟨if_neg hmn, by rw [h.node m], by rw [h.node m], h.application?_of_listed hl hm⟩)

theorem SameEdges.refined (h : SameEdges s s') : Refined U s s' := by
  rintro g args v ⟨out, hout, k, hk⟩
  refine ⟨out, by rw [h.graph g, hout], k, ?_⟩
  rw [h.denote k]
  exact hk

/-- Applying a rule keeps a store linked and takes no value away; and if it moves the users of a node,
then to one that stands for it. -/
def Rule.Sound (U : Universe) (host : Host) (near : Neighbours) (r : Rule) : Prop :=
  ∀ {n o σ seen changes σ'}, Linked σ.store → Returns (r.apply host near n) o σ (seen, changes) σ' →
    Linked σ'.store ∧ Refined U σ.store σ'.store ∧ (changes = [] ∨
      ∃ t, Stands U σ'.store n t ∧ σ'.store.redirectChanges n t = .ok changes)

theorem Rule.Replaces.sound {r : Rule} {host : Host} {near : Neighbours} (hU : U.Standard)
    (hr : r.Replaces) : r.Sound U host near := by
  intro n o σ seen changes σ' hl h
  obtain ⟨rfl, m, -, -, ⟨-, rfl⟩ | ⟨t, hfind, hchanges⟩⟩ := Rule.apply_cases hr hl.whole h
  · exact ⟨hl, fun _ _ _ hv => hv, .inl rfl⟩
  refine ⟨hl, fun _ _ _ hv => hv, ?_⟩
  by_cases hn : (σ'.store.node n).users = []
  · left
    rw [hl.redirectChanges_eq, hn] at hchanges
    cases hchanges
    rfl
  · have ht := hfind.used hl hn
    exact .inr ⟨t, ⟨Store.lt_size_of_users ht, hl.listed_of_used ht,
      .inl fun _ _ _ _ hv => hfind.denote hU hl hv⟩, hchanges⟩

namespace Equilibrium

variable {rules : List Rule} {e e' : Equilibrium}

theorem Processed.linked (hl : Linked s) (h : Processed rules e n s e' s') : Linked s' := by
  cases h with
  | follow | settle => exact hl
  | rewrite hg hr hfind hmove hdrop hsome =>
    have hn : (s.node n).users ≠ [] := fun hnil => hsome (by rw [hnil]; rfl)
    exact (hl.redirected hmove (hfind.used hl hn)).dropped hdrop

variable {host : Host} {near : Neighbours} {o : Option Origin} {σ σ' : Session}
  {c c' : Equilibrium × Session}

theorem linked_of_turns (hrules : ∀ r ∈ rules, r.Replaces) (hl : Linked c.2.store)
    (h : ReflTransGen (Turn host near rules o) c c') : Linked c'.2.store := by
  induction h with
  | refl => exact hl
  | tail _ hturn ih =>
    obtain ⟨n, -, hn⟩ := hturn
    exact (process_cases ih hrules hn).linked ih

theorem refined_of_tryRules : ∀ {rules : List Rule} {touched : List NodeId} {σ : Session},
      (∀ r ∈ rules, r.Sound U host near) → Linked σ.store →
      Returns (tryRules host near e n rules touched) o σ e' σ' →
      Linked σ'.store ∧ Refined U σ.store σ'.store
  | [], touched, σ, _, hl, h => by
    simp only [tryRules, returns_bind, returns_get, returns_pure] at h
    obtain ⟨_, _, ⟨rfl, rfl⟩, -, rfl⟩ := h
    exact ⟨hl, fun _ _ _ hv => hv⟩
  | r :: rules, touched, σ, hrules, hl, h => by
    simp only [tryRules, returns_bind] at h
    obtain ⟨⟨seen, changes⟩, σ1, happ, h⟩ := h
    obtain ⟨hl1, hrefined, hcase⟩ := hrules r mem_cons_self hl happ
    by_cases hnil : changes = []
    · rw [if_pos (List.isEmpty_iff.mpr hnil)] at h
      obtain ⟨hl', hrefined'⟩ :=
        refined_of_tryRules (fun r hr => hrules r (mem_cons_of_mem _ hr)) hl1 h
      exact ⟨hl', hrefined.trans hrefined'⟩
    · rw [if_neg (by rwa [List.isEmpty_iff])] at h
      obtain ⟨t, ht, hchanges⟩ := hcase.resolve_left hnil
      simp only [returns_bind, returns_get, returns_pure, returns_change] at h
      obtain ⟨_, _, ⟨s2, hs2, rfl, rfl⟩, _, _, ⟨rfl, rfl⟩, _, _, helim, rfl, rfl⟩ := h
      rw [hl1.redirectChanges_eq, Except.ok.injEq] at hchanges
      obtain ⟨s3, hs3, hmove⟩ := hl1.commit_redirect n ht.lt
      rw [hchanges, hs2, Except.ok.injEq] at hs3
      subst hs3
      have hdrop := keeps_eliminate _ n _ _ _ _ helim
      exact ⟨(hl1.redirected_of_listed hmove ht.listed).dropped hdrop,
        (hrefined.trans (hmove.refined_of_stands hl1 ht)).trans hdrop.same.refined⟩

theorem refined_of_process (hrules : ∀ r ∈ rules, r.Sound U host near) (hl : Linked σ.store)
    (h : Returns (process host near rules e n) o σ e' σ') :
    Linked σ'.store ∧ Refined U σ.store σ'.store := by
  unfold process at h
  simp only [returns_bind, returns_get] at h
  obtain ⟨_, _, ⟨rfl, rfl⟩, h⟩ := h
  split at h
  · split at h
    · obtain ⟨-, rfl⟩ := returns_pure.mp h
      exact ⟨hl, fun _ _ _ hv => hv⟩
    · exact (returns_throw.mp h).elim
  · exact refined_of_tryRules hrules hl h

theorem refined_of_turns (hrules : ∀ r ∈ rules, r.Sound U host near) (hl : Linked c.2.store)
    (h : ReflTransGen (Turn host near rules o) c c') :
    Linked c'.2.store ∧ Refined U c.2.store c'.2.store := by
  induction h with
  | refl => exact ⟨hl, fun _ _ _ hv => hv⟩
  | tail _ hturn ih =>
    obtain ⟨n, -, hn⟩ := hturn
    obtain ⟨hl', hrefined⟩ := refined_of_process hrules ih.1 hn
    exact ⟨hl', ih.2.trans hrefined⟩

/-- Whatever the order in which nodes are looked at, and however far the run has come, each graph of
the store still has every value that it had. -/
theorem refined_of_run (hU : U.Standard) (hrules : ∀ r ∈ rules, r = .dropCopy ∨ r = .indexIntoTuple)
    (hl : Linked σ.store) (e : Equilibrium) :
    (∀ e' σ', ReflTransGen (Turn host near rules o) (e, σ) (e', σ') →
      Refined U σ.store σ'.store) ∧
    ∀ fuel σ', Returns (run host near rules fuel e) o σ () σ' → Refined U σ.store σ'.store := by
  have hsound : ∀ r ∈ rules, r.Sound U host near := fun r hr => Rule.Replaces.sound hU (hrules r hr)
  refine ⟨fun e' σ' h => (refined_of_turns hsound hl h).2, fun fuel σ' h => ?_⟩
  obtain ⟨e', hturns, -⟩ := turns_of_run h
  exact (refined_of_turns hsound hl hturns).2

/-- A function that copies its argument, takes it out of a pair again and hands it, with itself, to a
function that pairs a copy of it with it. -/
def copyingStore : Store :=
  let name (label : String) : Symbol := .plain label (.named "global:sample") 1
  let input (g : GraphId) (users : List (Role × Owner)) : Node :=
    { home := some g, tag := name "x", users }
  let constant (v : Value) (tag : Symbol) (users : List (Role × Owner)) : Node :=
    { home := none, tag, value := some v, users }
  let operation (op : String) (users : List (Role × Owner)) : Node :=
    constant (.symbol (.builtin op)) (.builtin op) users
  let application (g : GraphId) (fn : NodeId) (inputs : List NodeId) (users : List (Role × Owner)) :
      Node :=
    { home := some g, tag := name "y", fn := some fn, inputs := inputs.map some, users }
  { nodes := #[
      input 0 [(.input 0, .node 2), (.input 1, .node 4), (.input 1, .node 11)],
      operation "identity" [(.fn, .node 2), (.fn, .node 14)],
      application 0 1 [0] [(.input 0, .node 4)],
      operation "mktuple" [(.fn, .node 4), (.fn, .node 11), (.fn, .node 15)],
      application 0 3 [2, 0] [(.input 0, .node 7)],
      operation "index" [(.fn, .node 7)],
      constant (.int 0) (name "zero") [(.input 1, .node 7)],
      application 0 5 [4, 6] [(.input 0, .node 10)],
      constant (.graph 1 (name "pair")) (name "pair") [(.fn, .node 10)],
      constant (.graph 0 (name "main")) (name "main") [(.input 1, .node 10)],
      application 0 8 [7, 9] [(.input 0, .node 11)],
      application 0 3 [10, 0] [(.output, .graph 0)],
      input 1 [(.input 0, .node 14), (.input 1, .node 15)],
      input 1 [],
      application 1 1 [12] [(.input 0, .node 15)],
      application 1 3 [14, 12] [(.output, .graph 1)]]
    graphs := #[
      { parent := none, tag := name "main", generator := 0, inputs := [0], output := some 11 },
      { parent := none, tag := name "pair", generator := 0, inputs := [12, 13], output := some 15 }] }

theorem linked_copyingStore : Linked copyingStore :=
  linked_of_forall (by decide +kernel) (by decide +kernel)

theorem evaluates_copyingStore : Evaluates copyingStore.standardUniverse copyingStore 0 [.int 3]
    (.tuple [.tuple [.int 3, .int 3], .int 3]) :=
  ⟨11, by decide +kernel, 6, eq_some_of_identical (by decide +kernel)⟩

theorem refined_of_run_copying :
    ∃ σ', Returns (run silentHost ⟨0, 0, 0⟩ [.dropCopy, .indexIntoTuple] 100
        { graphs := [0], pool := [11] }) none { Session.initial with store := copyingStore } () σ' ∧
      Evaluates copyingStore.standardUniverse σ'.store 0 [.int 3]
        (.tuple [.tuple [.int 3, .int 3], .int 3]) := by
  obtain ⟨_, σ', h⟩ := exists_returns (run silentHost ⟨0, 0, 0⟩ [.dropCopy, .indexIntoTuple] 100
    { graphs := [0], pool := [11] }) none { Session.initial with store := copyingStore }
    (by decide +kernel)
  exact ⟨σ', h, (refined_of_run copyingStore.standard_standardUniverse (by decide)
    linked_copyingStore _).2 100 σ' h _ _ _ evaluates_copyingStore⟩

end Equilibrium

end DiffLang.Graph
