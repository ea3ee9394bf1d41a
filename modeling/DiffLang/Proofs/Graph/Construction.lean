import DiffLang.Proofs.Code.Operations
import DiffLang.Proofs.Graph.Building

/-!
# The graph of a function means what its body means

The variables of an A-normal form get their values one after the other, by its bindings. In the graph
that is built from it each variable has a node, and this node has the value of the variable
(`Consistent.holds_bindings`): a call is an application of the nodes of its parts, a pattern is a tree
of applications of `index`. What the bindings do not need for the result is not looked at in the graph,
so nothing is said of calls that do not return.

Literals that are equal as values share a node, which holds the one that was met first. If these are
not the same value, such as `1` and `true`, the graph means something else
(`not_evaluates_ofLambda_mixed`). Where they are (`Separate`), the graph has the value of the body.

Main statement: `evaluates_ofLambda`.
-/

namespace DiffLang.Graph

open Fallible (bind_eq_ok)
open Freshness Meaning Normal Run Scoping List

/-- What the variables of a body stand for: parameters for arguments, global names for what the
universe says. -/
def environment (U : Universe) (params : List Symbol) (args : List Value) : Env := fun x =>
  match params.findIdx? (· == x) with
  | some i => args[i]?
  | none => if x.isGlobal then (U.name x).toOption else none

/-- The literals of a list that share a node are equal, and none of them is looked up. -/
structure Separate (L : List (TermId × Value)) : Prop where
  apart : ∀ c ∈ L, ∀ d ∈ L, (Source.literal c.1 c.2).same (.literal d.1 d.2) = .ok true → c.2 = d.2
  symbols : ∀ c ∈ L, ∀ x, c.2 ≠ .symbol x
  graphs : ∀ c ∈ L, ∀ h x, c.2 ≠ .graph h x

def Valued (U : Universe) (s : Session) (b : Building) (args : List Value) (source : Source)
    (v : Value) : Prop :=
  ∀ n, Found b.nodes source n → Denotes U s.store b.graph args n v

def Holds (U : Universe) (s : Session) (b : Building) (args : List Value) (ρ : Env) : Prop :=
  ∀ x v, ρ x = some v → Valued U s b args (.symbol x) v

variable {vs : List Value}

section Built

variable {G : GeneratorId → Prop} {L : List (TermId × Value)} {U : Universe} {s : Session}
  {b : Building} {args : List Value} {n : NodeId} {v w : Value} {ρ : Env}

/-! ## What is not computed -/

theorem Consistent.application_of_constant (hc : Consistent G L b s) {k : Source}
    (hk : (k, n) ∈ b.nodes) (hv : k.value? = some v) : (s.store.node n).application? = none := by
  unfold Node.application?
  rw [hc.constant _ hk (by rw [hv]; rfl)]
  rfl

theorem Consistent.denotes_constant (hc : Consistent G L b s) {k : Source} (hk : (k, n) ∈ b.nodes)
    (hv : k.value? = some v) (hx : ∀ x, v ≠ .symbol x) (hg : ∀ h x, v ≠ .graph h x) :
    Denotes U s.store b.graph args n v :=
  denotes_push (hc.application_of_constant hk hv)
    (.constant ((hc.value _ hk).trans hv) (fun x h => absurd h (hx x)) hg)

theorem Consistent.valued_position (hc : Consistent G L b s) (i : Nat) :
    Valued U s b args (.position i) (.nat i) := fun _ hn =>
  hc.denotes_constant (found_position.mp hn) rfl (fun _ h => by cases h) fun _ _ h => by cases h

theorem Consistent.valued_literal (hc : Consistent G L b s) (hL : Separate L) {i : TermId}
    (hv : (i, v) ∈ L) : Valued U s b args (.literal i v) v := by
  rintro n ⟨k, hk, hsame⟩
  cases k with
  | literal j w =>
    have hw : (j, w) ∈ L := hc.admitted _ hk
    have heq : w = v := hL.apart _ hw _ hv hsame
    exact hc.denotes_constant hk (by rw [Source.value?, heq]) (hL.symbols _ hv) (hL.graphs _ hv)
  | symbol | position => cases hsame

variable {x : Symbol} {sources : List Source} {params : List Symbol} {ns : List NodeId}
  {ws : List Value}

theorem Consistent.valued_global (hc : Consistent G L b s) (hx : x.isGlobal = true)
    (hv : U.name x = .ok v) : Valued U s b args (.symbol x) v := by
  intro n hn
  rw [found_symbol] at hn
  have hvalue : (Source.symbol x).value? = some (.symbol x) := if_pos hx
  refine ⟨1, ?_⟩
  rw [denote, hc.application_of_constant hn hvalue, hc.value _ hn, hvalue]
  dsimp only
  rw [if_pos hx, hv]
  rfl

/-! ## Applications -/

theorem denotes_of_valued (hns : List.Forall₂ (Found b.nodes) sources ns)
    (hvs : List.Forall₂ (Valued U s b args) sources vs) :
    List.Forall₂ (Denotes U s.store b.graph args) ns vs := by
  induction hns generalizing vs with
  | nil =>
    cases hvs
    exact .nil
  | cons hn _ ih =>
    cases hvs with
    | cons hv hvs => exact .cons (hv _ hn) (ih hvs)

theorem Consistent.valued_assigned (hc : Consistent G L b s) {source : Source} {f : Value}
    (h : Assigned b.nodes s.store x (source :: sources)) (hf : Valued U s b args source f)
    (hvs : List.Forall₂ (Valued U s b args) sources vs) (hv : Yields U s.store f vs v) :
    Valued U s b args (.symbol x) v := by
  intro n hn
  obtain ⟨m, ns, hm, hns, happ⟩ := h
  obtain rfl := hc.unique (found_symbol.mp hn) hm
  cases hns with
  | cons hp hps => exact denotes_application happ (hf _ hp) (denotes_of_valued hps hvs) hv

theorem Consistent.valued_operation (hc : Consistent G L b s) {op : String} (hU : U.Performs op)
    (h : Assigned b.nodes s.store x (.operation op :: sources))
    (hvs : List.Forall₂ (Valued U s b args) sources vs)
    (hv : ∀ host o s, Returns (Primitive.call host op vs) o s v s) :
    Valued U s b args (.symbol x) v := by
  obtain ⟨f, hname, hyields⟩ := hU.yields
  exact hc.valued_assigned h (hc.valued_global (isGlobal_builtin op) hname) hvs (hyields vs v hv)

/-! ## Patterns -/

theorem Holds.set (hρ : Holds U s b args ρ) (hx : Valued U s b args (.symbol x) v) :
    Holds U s b args (ρ.set x v) := by
  intro y w hy
  unfold Env.set at hy
  split at hy
  next h =>
    cases hy
    exact h ▸ hx
  · exact hρ y w hy

theorem tupleItems?_eq_some (h : tupleItems? v = some vs) : v = .tuple vs := by
  unfold tupleItems? at h
  split at h
  · rw [Option.some.inj h]
  · cases h

theorem item_nat {i : Nat} (h : ws[i]? = some w) : (Value.tuple ws).item (.nat i) = .ok w := by
  obtain ⟨hi, rfl⟩ := List.getElem?_eq_some_iff.mp h
  show (Value.place ws.length (i : Int) >>= fun k => pure (ws.getD k .none)) = _
  have hplace : Value.place ws.length (i : Int) = .ok i := by
    unfold Value.place
    rw [if_pos (Int.natCast_nonneg i), if_pos (Int.ofNat_lt.mpr hi), Int.toNat_natCast]
  rw [hplace]
  show Except.ok (ws.getD i .none) = _
  rw [getD_eq_getElem?_getD, h]
  rfl

theorem Consistent.valued_part (hc : Consistent G L b s) (hU : U.Performs "index") {whole : Symbol}
    {i : Nat} (h : Assigned b.nodes s.store x (partOf whole i))
    (hwhole : Valued U s b args (.symbol whole) (.tuple ws)) (hw : ws[i]? = some w) :
    Valued U s b args (.symbol x) w := by
  refine hc.valued_operation hU h (.cons hwhole (.cons (hc.valued_position i) .nil)) ?_
  intro host o s
  rw [call_index, returns_lift]
  exact ⟨item_nat hw, rfl⟩

mutual

theorem Consistent.holds_part (hc : Consistent G L b s) (hU : U.Performs "index") (t : Term)
    {whole : Symbol} {i : Nat} {ws : List Value} {w : Value} {ρ ρ' : Env}
    (h : Part b.nodes s.store whole i t) (hwhole : Valued U s b args (.symbol whole) (.tuple ws))
    (hw : ws[i]? = some w) (hρ : Holds U s b args ρ) (hstore : store ρ t w = .ok ρ') :
    Holds U s b args ρ' := by
  cases t with
  | ident x =>
    rw [Part] at h
    rw [store] at hstore
    cases hstore
    exact hρ.set (hc.valued_part hU h hwhole hw)
  | tuple id items =>
    rw [Part] at h
    obtain ⟨part, hpart, hitems⟩ := h
    rw [store] at hstore
    split at hstore
    next vs hvs =>
      obtain rfl := tupleItems?_eq_some hvs
      split at hstore
      · exact hc.holds_parts hU items hitems (hc.valued_part hU hpart hwhole hw) rfl hρ hstore
      · cases hstore
    · cases hstore
  | _ => simp [Part] at h

theorem Consistent.holds_parts (hc : Consistent G L b s) (hU : U.Performs "index") (ts : List Term)
    {whole : Symbol} {i : Nat} {ws vs : List Value} {ρ ρ' : Env}
    (h : Parts b.nodes s.store whole i ts) (hwhole : Valued U s b args (.symbol whole) (.tuple ws))
    (hvs : ws.drop i = vs) (hρ : Holds U s b args ρ) (hstore : storeAll ρ ts vs = .ok ρ') :
    Holds U s b args ρ' := by
  cases ts with
  | nil =>
    simp only [storeAll, Except.ok.injEq] at hstore
    exact hstore ▸ hρ
  | cons t ts =>
    cases vs with
    | nil =>
      simp only [storeAll, Except.ok.injEq] at hstore
      exact hstore ▸ hρ
    | cons v vs =>
      rw [Parts] at h
      rw [storeAll] at hstore
      have hv : ws[i]? = some v := by
        rw [← head?_drop, hvs]
        rfl
      have hrest : ws.drop (i + 1) = vs := by
        rw [← tail_drop, hvs]
        rfl
      split at hstore
      next ρ1 hfirst =>
        exact hc.holds_parts hU ts h.2 hwhole hrest (hc.holds_part hU t h.1 hwhole hv hρ hfirst) hstore
      · cases hstore

end

/-! ## Bindings -/

def bindingOperations : List String := ["identity", "partial", "mktuple", "index"]

variable {call : Value → List Value → Fallible Value} {value result : Term}
  {bindings : List (Term × Term)}

theorem Consistent.valued_leaf (hc : Consistent G L b s) (hL : Separate L) {t : Term}
    (ht : Normal.Leaf L t) (hρ : Holds U s b args ρ) (h : eval call ρ t = .ok v) :
    Valued U s b args (.ofTerm t) v := by
  cases t with
  | ident x =>
    rw [eval] at h
    split at h
    next w hw =>
      cases h
      exact hρ _ _ hw
    · cases h
  | literal i w =>
    rw [eval] at h
    cases h
    exact hc.valued_literal hL ht
  | _ => exact ht.elim

theorem Consistent.valued_leaves (hc : Consistent G L b s) (hL : Separate L) {ts : List Term}
    (ht : ∀ t ∈ ts, Normal.Leaf L t) (hρ : Holds U s b args ρ) (h : evalAll call ρ ts = .ok vs) :
    List.Forall₂ (Valued U s b args) (ts.map .ofTerm) vs := by
  induction ts generalizing vs with
  | nil =>
    rw [evalAll] at h
    cases h
    exact .nil
  | cons t ts ih =>
    rw [forall_mem_cons] at ht
    rw [evalAll] at h
    simp only [bind_eq_ok] at h
    obtain ⟨v, hv, ws, hws, h⟩ := h
    cases h
    exact .cons (hc.valued_leaf hL ht.1 hρ hv) (ih ht.2 hws)

theorem Consistent.valued_value (hc : Consistent G L b s) (hL : Separate L)
    (hU : ∀ op ∈ bindingOperations, U.Performs op)
    (hcall : ∀ f vs v, call f vs = .ok v → Yields U s.store f vs v)
    (hx : AssignedTerm b.nodes s.store x value) (hvalue : Simple L value) (hρ : Holds U s b args ρ)
    (h : eval call ρ value = .ok v) : Valued U s b args (.symbol x) v := by
  obtain ⟨sources, hs, hx⟩ := hx
  cases hvalue with
  | leaf hleaf =>
    have hleafValue := hc.valued_leaf hL hleaf hρ h
    have hsources : sources = [.operation "identity", .ofTerm value] := by
      cases value with
      | ident y => exact (Option.some.inj hs).symm
      | literal i w => exact (Option.some.inj hs).symm
      | _ => exact hleaf.elim
    subst hsources
    refine hc.valued_operation (hU _ (by simp [bindingOperations])) hx (.cons hleafValue .nil) ?_
    intro host o s
    rw [call_identity, returns_pure]
    exact ⟨rfl, rfl⟩
  | apply hfn hargs =>
    cases hs
    rw [eval] at h
    simp only [bind_eq_ok] at h
    obtain ⟨f, hf, vs, hvs, hv⟩ := h
    exact hc.valued_assigned hx (hc.valued_leaf hL hfn hρ hf) (hc.valued_leaves hL hargs hρ hvs)
      (hcall f vs v hv)
  | closure hfn hargs =>
    cases hs
    rw [eval] at h
    simp only [bind_eq_ok] at h
    obtain ⟨f, hf, vs, hvs, hv⟩ := h
    cases hv
    refine hc.valued_operation (hU _ (by simp [bindingOperations])) hx
      (.cons (hc.valued_leaf hL hfn hρ hf) (hc.valued_leaves hL hargs hρ hvs)) ?_
    intro host o s
    rw [call_partial, returns_pure]
    exact ⟨rfl, rfl⟩
  | tuple hitems =>
    cases hs
    rw [eval] at h
    simp only [bind_eq_ok] at h
    obtain ⟨vs, hvs, hv⟩ := h
    cases hv
    refine hc.valued_operation (hU _ (by simp [bindingOperations])) hx
      (hc.valued_leaves hL hitems hρ hvs) ?_
    intro host o s
    rw [call_mktuple, returns_pure]
    exact ⟨rfl, rfl⟩
  | function => cases hs

theorem Consistent.holds_bound (hc : Consistent G L b s) (hL : Separate L)
    (hU : ∀ op ∈ bindingOperations, U.Performs op)
    (hcall : ∀ f vs v, call f vs = .ok v → Yields U s.store f vs v) {target : Term} {ρ' : Env}
    (h : Bound b.nodes s.store target value) (hvalue : Simple L value) (hρ : Holds U s b args ρ)
    (hv : eval call ρ value = .ok v) (hstore : store ρ target v = .ok ρ') :
    Holds U s b args ρ' := by
  cases target with
  | ident x =>
    rw [store] at hstore
    cases hstore
    exact hρ.set (hc.valued_value hL hU hcall h hvalue hρ hv)
  | tuple id items =>
    obtain ⟨whole, hx, hparts⟩ := h
    have hwhole := hc.valued_value hL hU hcall hx hvalue hρ hv
    rw [store] at hstore
    split at hstore
    next vs hvs =>
      obtain rfl := tupleItems?_eq_some hvs
      split at hstore
      · exact hc.holds_parts (hU _ (by simp [bindingOperations])) items hparts hwhole rfl hρ hstore
      · cases hstore
    · cases hstore
  | _ => exact h.elim

theorem Consistent.holds_bindings (hc : Consistent G L b s) (hL : Separate L)
    (hU : ∀ op ∈ bindingOperations, U.Performs op)
    (hcall : ∀ f vs v, call f vs = .ok v → Yields U s.store f vs v) (bs : List (Term × Term))
    (h : ∀ e ∈ bs, Bound b.nodes s.store e.1 e.2) (hbs : ∀ e ∈ bs, Simple L e.2) {ρ' : Env}
    (hρ : Holds U s b args ρ) (heval : evalBindings call ρ bs = .ok ρ') : Holds U s b args ρ' := by
  induction bs generalizing ρ with
  | nil =>
    rw [evalBindings] at heval
    cases heval
    exact hρ
  | cons e bs ih =>
    obtain ⟨k, v⟩ := e
    rw [forall_mem_cons] at h hbs
    rw [evalBindings] at heval
    simp only [bind_eq_ok] at heval
    obtain ⟨w, hw, ρ1, hstore, heval⟩ := heval
    have hstore : store ρ k w = .ok ρ1 := by
      cases hk : store ρ k w with
      | error e =>
        rw [hk] at hstore
        cases hstore
      | ok ρ2 =>
        rw [hk] at hstore
        cases hstore
        rfl
    exact ih h.2 hbs.2 (hc.holds_bound hL hU hcall h.1 hbs.1 hρ hw hstore) heval

/-! ## Functions -/

theorem Consistent.findIdx?_eq (hc : Consistent G L b s) (hx : (.symbol x, n) ∈ b.nodes)
    (h : List.Forall₂ (fun y m => (.symbol y, m) ∈ b.nodes) params ns) :
    ns.findIdx? (· == n) = params.findIdx? (· == x) := by
  induction h with
  | nil => rfl
  | @cons y m _ _ hy _ ih =>
    have hiff : (m == n) = (y == x) := by
      rw [Bool.eq_iff_iff, beq_iff_eq, beq_iff_eq]
      constructor
      · rintro rfl
        cases hc.eq_of_mem hy hx
        rfl
      · rintro rfl
        exact hc.unique hy hx
    rw [findIdx?_cons, findIdx?_cons, hiff, ih]

theorem Built.holds_environment (h : Built G L params bindings result b s)
    (hp : ∀ x ∈ params, x.isGlobal = false) : Holds U s b args (environment U params args) := by
  intro x v hv
  unfold environment at hv
  split at hv
  next i hi =>
    intro n hn
    rw [found_symbol] at hn
    obtain ⟨hlt, heq, -⟩ := findIdx?_eq_some_iff_getElem.mp hi
    have hx : x ∈ params := by
      rw [← eq_of_beq heq]
      exact getElem_mem hlt
    have hnone : (s.store.node n).application? = none := by
      unfold Node.application?
      rw [h.free x hx n hn]
      rfl
    have hvalue : (s.store.node n).value = none := by
      rw [h.consistent.value _ hn, Source.value?, hp x hx]
      rfl
    have hindex := h.consistent.findIdx?_eq hn h.inputs
    refine ⟨1, ?_⟩
    rw [denote, hnone, hvalue]
    dsimp only
    rw [hindex, hi, Option.bind_some, hv]
  · split at hv
    next hx => exact h.consistent.valued_global hx (toOption_eq_some.mp hv)
    · cases hv

theorem Built.evaluates (h : Built G L params bindings result b s) (hL : Separate L)
    (hU : ∀ op ∈ bindingOperations, U.Performs op)
    (hcall : ∀ f vs v, call f vs = .ok v → Yields U s.store f vs v)
    (hp : ∀ x ∈ params, x.isGlobal = false) (hbs : ∀ e ∈ bindings, Simple L e.2)
    (hresult : Normal.Leaf L result)
    (hρ : evalBindings call (environment U params args) bindings = .ok ρ)
    (hv : eval call ρ result = .ok v) : Evaluates U s.store b.graph args v := by
  obtain ⟨out, hout, hfound⟩ := h.output
  have hholds := h.consistent.holds_bindings hL hU hcall bindings h.bound hbs
    (h.holds_environment hp) hρ
  exact ⟨out, hout, h.consistent.valued_leaf hL hresult hholds hv out hfound⟩

end Built

section Functions

variable {call : Value → List Value → Fallible Value} {s s₁ s' : Session} {o : Option Origin}
  {id new : TermId} {l l' : Lambda} {g : GraphId} {U : Universe} {args : List Value} {v : Value}

theorem leaf_of_eval {L : List (TermId × Value)} {ρ : Env} {t : Term} (hs : Simple L t)
    (he : Normal.Ends L t) (hv : eval call ρ t = .ok v) : Normal.Leaf L t := by
  cases he with
  | leaf h => exact h
  | function =>
    rw [eval] at hv
    cases hv
  | bind =>
    cases hs with
    | leaf h => exact h

/-- If the body of the A-normal form of a function has a value, where parameters stand for arguments,
so has the graph that is built from it, provided that literals which share a node are the same. -/
theorem evaluates_ofLambda (hl : s.lambda? id = some l) (h : Buildable s l)
    (hL : Separate (literals l.body)) (hnormal : Returns (Normal.ofLambda id) o s new s₁)
    (hl' : s₁.lambda? new = some l') (hret : Returns (ofLambda id) o s g s')
    (hU : ∀ op ∈ bindingOperations, U.Performs op)
    (hcall : ∀ f vs v, call f vs = .ok v → Yields U s'.store f vs v)
    (hv : eval call (environment U (l'.params.map (·.sym)) args) l'.body = .ok v) :
    Evaluates U s'.store g args v := by
  obtain ⟨new₂, s₂, l₂, hnormal₂, hl₂, hn, hbuilt⟩ := built_ofLambda hl h hret
  obtain ⟨rfl, rfl⟩ := hnormal.unique hnormal₂
  rw [hl', Option.some.injEq] at hl₂
  subst hl₂
  rw [← eval_open?, bind_eq_ok] at hv
  obtain ⟨ρ, hρ, hv⟩ := hv
  have hleaf := leaf_of_eval hn.flat.2 hn.ends hv
  obtain ⟨b, rfl, hb⟩ := hbuilt hleaf
  refine hb.evaluates hL hU hcall (fun x hx => ?_) hn.flat.1 hleaf hρ hv
  rw [hn.params] at hx
  obtain ⟨p, hp, rfl⟩ := mem_map.mp hx
  exact (h.params p hp).2

end Functions

def directCall (U : Universe) (f : Value) (vs : List Value) : Fallible Value :=
  if Machine.isDirect f then U.call f vs else .error .typeMismatch

theorem yields_of_directCall {U : Universe} {s : Store} {f v : Value}
    (h : directCall U f vs = .ok v) : Yields U s f vs v := by
  unfold directCall at h
  split at h
  next hf => exact ⟨0, by rw [applied_of_isDirect hf, h]; rfl⟩
  · cases h

/-- A function of `x` that takes the pair of `x` and a pair of literals apart and gives back its
parts in a list, the last one through a call. -/
def parting (first second : Value) : Lambda :=
  let x : Symbol := .plain "x" (.hidden 0) 1
  let a : Symbol := .plain "a" (.hidden 0) 1
  let b : Symbol := .plain "b" (.hidden 0) 1
  let c : Symbol := .plain "c" (.hidden 0) 1
  let pattern : Term := .tuple 1 [.ident ⟨2, a⟩, .tuple 3 [.ident ⟨4, b⟩, .ident ⟨5, c⟩]]
  let whole : Term := .tuple 6 [.ident ⟨7, x⟩, .tuple 8 [.literal 9 first, .literal 10 second]]
  let last : Term := .apply 11 (.ident ⟨12, .builtin "identity"⟩) [.ident ⟨13, c⟩]
  { params := [⟨14, x⟩]
    body := .bind 15 [(pattern, whole)] (.tuple 16 [.ident ⟨17, a⟩, .ident ⟨18, b⟩, last])
    generator := some 6
    ref := some ⟨19, .plain "f" (.named "global:m") 1⟩ }

/-- A session that knows the parting function for two literals. -/
def partingSession (first second : Value) : Session :=
  { Session.initial with
    origins := Array.replicate 21 none
    generators := Session.initial.generators.push
      { space := .hidden 0, counts := [("x", 1), ("a", 1), ("b", 1), ("c", 1)] }
    lambdas := [(20, parting first second)] }

theorem asked_parting {first second : Value} {i : GeneratorId} (h : Asked (parting first second) i) :
    i = 6 ∨ i = 0 :=
  h.imp (fun h => (Option.some.inj h).symm) id

theorem buildable_parting (first second : Value) :
    Buildable (partingSession first second) (parting first second) where
  closed := by
    simp [parting, Scoped, ScopedAll, ScopedBindings, also, Outer, targets, patternSymbols,
      patternSymbols.go, isGlobal_builtin]
  distinct := by
    have h : ((parting .none .none).params.map (·.sym) ++ binders (parting .none .none).body).Nodup := by
      decide +kernel
    exact h
  proper := by
    have h : ∀ x ∈ binders (parting .none .none).body, x.isGlobal = false := by decide +kernel
    exact h
  made := by
    have h : ∀ x ∈ uses (parting .none .none).body ++ binders (parting .none .none).body,
        ∀ i, i = 6 ∨ i = 0 → (generator (partingSession .none .none) i).space = x.space →
          Covers (generator (partingSession .none .none) i) x := by
      rintro x hx i (rfl | rfl) <;> revert x <;> decide +kernel
    exact fun x hx i hi => h x hx i (asked_parting hi)
  generators := by
    have hsize : (partingSession .none .none).generators.size = 7 := by decide +kernel
    have hspace : (generator (partingSession .none .none) 6).space ≠
        (generator (partingSession .none .none) 0).space := by
      decide +kernel
    exact distinct_asked rfl ⟨Nat.lt_of_lt_of_eq (by decide) hsize.symm,
      Nat.lt_of_lt_of_eq (by decide) hsize.symm⟩ hspace
  params := by
    have h : ∀ p ∈ (parting .none .none).params, p.sym.isGlobal = false ∧
        ∀ i, i = 6 ∨ i = 0 → (generator (partingSession .none .none) i).space = p.sym.space →
          Covers (generator (partingSession .none .none) i) p.sym := by
      refine forall_mem_singleton.mpr ⟨by decide +kernel, ?_⟩
      rintro i (rfl | rfl) <;> decide +kernel
    exact fun p hp => ⟨fun i hi => (h p hp).2 i (asked_parting hi), (h p hp).1⟩
  own := by
    have h : ∀ i, i = 6 ∨ i = 0 → (generator (partingSession .none .none) i).space.isGlobal = false := by
      rintro i (rfl | rfl) <;> decide +kernel
    exact fun i hi => h i (asked_parting hi)

theorem separate_parting : Separate (literals (parting (.int 2) (.bool true)).body) := by
  have hL : literals (parting (.int 2) (.bool true)).body = [(9, .int 2), (10, .bool true)] := rfl
  rw [hL]
  refine ⟨fun c hc d hd hsame => ?_, by simp, by simp⟩
  rw [mem_pair] at hc hd
  rcases hc with rfl | rfl <;> rcases hd with rfl | rfl
  · rfl
  · exact absurd (congrArg Except.toOption hsame) (by decide +kernel)
  · exact absurd (congrArg Except.toOption hsame) (by decide +kernel)
  · rfl

theorem eq_some_getD {α : Type} {x : Option α} {d : α} (h : x.isSome = true) : x = some (x.getD d) := by
  rw [← Option.get_eq_getD (h := h), Option.some_get]

/-- The A-normal form of the parting function for two literals. -/
def partingNormal (first second : Value) : Lambda :=
  ((Normal.ofLambda 20 none (partingSession first second)).2.lambda? 39).getD default

theorem returns_of_toOption {α : Type} {act : Run α} {o : Option Origin} {s : Session} {a : α}
    (h : (act o s).1.toOption = some a) : Returns act o s a (act o s).2 := by
  refine Prod.ext ?_ rfl
  cases hr : (act o s).1 with
  | error e =>
    rw [hr] at h
    cases h
  | ok b =>
    rw [hr] at h
    rw [Option.some.inj h]

theorem evaluates_ofLambda_parting :
    ∃ g s', Returns (ofLambda 20) none (partingSession (.int 2) (.bool true)) g s' ∧
      Evaluates s'.store.standardUniverse s'.store g [.int 3]
        (.tuple [.int 3, .int 2, .bool true]) := by
  have hret : Returns (ofLambda 20) none (partingSession (.int 2) (.bool true)) 0 _ :=
    returns_of_toOption (by decide +kernel)
  have hnormal : Returns (Normal.ofLambda 20) none (partingSession (.int 2) (.bool true)) 39 _ :=
    returns_of_toOption (by decide +kernel)
  have hl' : (Normal.ofLambda 20 none (partingSession (.int 2) (.bool true))).2.lambda? 39 =
      some (partingNormal (.int 2) (.bool true)) :=
    eq_some_getD (by decide +kernel)
  refine ⟨0, _, hret, ?_⟩
  exact evaluates_ofLambda rfl (buildable_parting _ _) separate_parting hnormal hl' hret
    (fun op _ => Store.performs_standardUniverse _ op) (fun f vs v h => yields_of_directCall h)
    (toOption_eq_some.mp (eq_some_of_identical (by decide +kernel)))

/-- Two literals that are equal, but not the same, become one. -/
theorem not_evaluates_ofLambda_mixed :
    ∃ g s' new s₁ l', Returns (ofLambda 20) none (partingSession (.int 1) (.bool true)) g s' ∧
      Returns (Normal.ofLambda 20) none (partingSession (.int 1) (.bool true)) new s₁ ∧
      s₁.lambda? new = some l' ∧
      eval (directCall s'.store.standardUniverse)
          (environment s'.store.standardUniverse (l'.params.map (·.sym)) [.int 3]) l'.body =
        .ok (.tuple [.int 3, .int 1, .bool true]) ∧
      ¬ Evaluates s'.store.standardUniverse s'.store g [.int 3]
        (.tuple [.int 3, .int 1, .bool true]) := by
  have hret : Returns (ofLambda 20) none (partingSession (.int 1) (.bool true)) 0 _ :=
    returns_of_toOption (by decide +kernel)
  have hnormal : Returns (Normal.ofLambda 20) none (partingSession (.int 1) (.bool true)) 39 _ :=
    returns_of_toOption (by decide +kernel)
  have hl' : (Normal.ofLambda 20 none (partingSession (.int 1) (.bool true))).2.lambda? 39 =
      some (partingNormal (.int 1) (.bool true)) :=
    eq_some_getD (by decide +kernel)
  refine ⟨0, _, 39, _, _, hret, hnormal, hl',
    toOption_eq_some.mp (eq_some_of_identical (by decide +kernel)), ?_⟩
  rintro ⟨out, hout, hv⟩
  have hout' : ((ofLambda 20 none (partingSession (.int 1) (.bool true))).2.store.graph 0).output =
      some 2 := by decide +kernel
  rw [hout', Option.some.injEq] at hout
  subst hout
  have hw := hv.unique ⟨10, eq_some_of_identical (v := .tuple [.int 3, .int 1, .int 1])
    (by decide +kernel)⟩
  cases hw

end DiffLang.Graph
