import DiffLang.Proofs.Code.Segments
import DiffLang.Proofs.Machine.Plain

/-!
# What a graph means

The meaning of a node of a graph, on arguments for the inputs of the graph, is found by recursion
on the node: a constant stands for itself, a name and a graph for what the universe gives for them,
an input for its argument, and an application for the value of its function applied to those of
its inputs. Applying a compiled function evaluates its graph, so the recursion need not end, and is
cut off at a depth. A node has a value if it has one at some depth; `denote_mono` says that a deeper
recursion finds no other.
-/

open Relation (ReflTransGen TransGen)

namespace DiffLang.Graph

open Machine List

/-! ## The meaning of nodes -/

/-- What names, primitives and compiled functions are. -/
structure Universe where
  name : Symbol → Fallible Value
  /-- What a call of something that is not run by the machine leads to. -/
  call : Value → List Value → Fallible Value
  function : Nat → Option GraphId

def unfolded : Value → List Value → Value × List Value
  | .closure f xs, vs => unfolded f (xs ++ vs)
  | f, vs => (f, vs)

def applied (U : Universe) (body : GraphId → List Value → Option Value) (f : Value)
    (vs : List Value) : Option Value :=
  match unfolded f vs with
  | (.machine id _ _, vs) => (U.function id).bind fun g => body g vs
  | (f, vs) => if isDirect f then (U.call f vs).toOption else none

def entered (s : Store) (eval : GraphId → List Value → NodeId → Option Value) (g : GraphId)
    (args : List Value) : Option Value :=
  if args.length = (s.graph g).inputs.length then (s.graph g).output.bind (eval g args) else none

/-- The value of a node of a graph on arguments, at a depth of recursion. -/
def denote (U : Universe) (s : Store) : Nat → GraphId → List Value → NodeId → Option Value
  | 0, _, _, _ => none
  | k + 1, g, args, n =>
    match (s.node n).application? with
    | some parts =>
      (parts.mapM fun (p : Option NodeId) => p.bind (denote U s k g args)).bind fun vs =>
        match vs with
        | [] => none
        | f :: vs => applied U (entered s (denote U s k)) f vs
    | none =>
      match (s.node n).value with
      | some (.symbol x) => if x.isGlobal then (U.name x).toOption else some (.symbol x)
      | some (.graph ..) => (U.name (s.node n).tag).toOption
      | some v => some v
      | none => ((s.graph g).inputs.findIdx? (· == n)).bind fun i => args[i]?

def Denotes (U : Universe) (s : Store) (g : GraphId) (args : List Value) (n : NodeId)
    (v : Value) : Prop :=
  ∃ k, denote U s k g args n = some v

def Evaluates (U : Universe) (s : Store) (g : GraphId) (args : List Value) (v : Value) : Prop :=
  ∃ out, (s.graph g).output = some out ∧ Denotes U s g args out v

variable {U : Universe} {s : Store} {g : GraphId} {args : List Value} {n : NodeId} {v : Value}

theorem unfolded_of_isDirect {f : Value} {vs : List Value} (h : isDirect f = true) :
    unfolded f vs = (f, vs) := by
  cases f with
  | closure => cases h
  | _ => rfl

theorem unfolded_not_closure (f : Value) (vs : List Value) (h : Value) (xs : List Value) :
    (unfolded f vs).1 ≠ .closure h xs := by
  fun_induction unfolded f vs with
  | case1 f ys vs ih => exact ih
  | case2 f vs hne => exact hne h xs

theorem entered_eq_some_iff {eval : GraphId → List Value → NodeId → Option Value} :
    entered s eval g args = some v ↔
      args.length = (s.graph g).inputs.length ∧
        ∃ out, (s.graph g).output = some out ∧ eval g args out = some v := by
  unfold entered
  split
  next h => simp [h, Option.bind_eq_some_iff]
  next h => simp [h]

theorem applied_mono {body body' : GraphId → List Value → Option Value}
    (h : ∀ g vs v, body g vs = some v → body' g vs = some v) {f : Value} {vs : List Value}
    (hv : applied U body f vs = some v) : applied U body' f vs = some v := by
  unfold applied at hv ⊢
  split at hv
  next id _ _ ws _ =>
    rw [Option.bind_eq_some_iff] at hv ⊢
    obtain ⟨g, hg, hv⟩ := hv
    exact ⟨g, hg, h g ws v hv⟩
  · exact hv

theorem mapM_eq_some_iff {α β : Type} {f : α → Option β} :
    ∀ {xs : List α} {ys : List β},
      xs.mapM f = some ys ↔ List.Forall₂ (fun x y => f x = some y) xs ys
  | [], ys => by simp [eq_comm]
  | x :: xs, ys => by
    rw [mapM_cons, forall₂_cons_left_iff]
    simp only [bind, Option.bind_eq_some_iff, mapM_eq_some_iff, pure, Option.some.injEq]
    constructor
    · rintro ⟨y, hy, zs, hzs, rfl⟩
      exact ⟨y, zs, hy, hzs, rfl⟩
    · rintro ⟨y, zs, hy, hzs, rfl⟩
      exact ⟨y, hy, zs, hzs, rfl⟩

theorem denote_application {k : Nat} {p : NodeId} {ps : List NodeId}
    (h : (s.node n).application? = some ((p :: ps).map some)) :
    denote U s (k + 1) g args n = some v ↔
      ∃ f vs, denote U s k g args p = some f ∧
        List.Forall₂ (fun p v => denote U s k g args p = some v) ps vs ∧
        applied U (entered s (denote U s k)) f vs = some v := by
  rw [denote, h]
  dsimp only
  rw [Option.bind_eq_some_iff]
  simp only [mapM_eq_some_iff, forall₂_map_left_iff, Option.bind_some]
  constructor
  · rintro ⟨ws, hws, hv⟩
    cases hws with
    | @cons _ f _ vs hf hvs => exact ⟨f, vs, hf, hvs, hv⟩
  · rintro ⟨f, vs, hf, hvs, hv⟩
    exact ⟨f :: vs, .cons hf hvs, hv⟩

theorem denote_succ (k : Nat) : ∀ {g : GraphId} {args : List Value} {n : NodeId} {v : Value},
    denote U s k g args n = some v → denote U s (k + 1) g args n = some v := by
  induction k with
  | zero =>
    intro g args n v h
    rw [denote] at h
    cases h
  | succ k ih =>
    intro g args n v h
    rw [denote] at h ⊢
    split at h
    next parts hp =>
      rw [Option.bind_eq_some_iff] at h ⊢
      obtain ⟨vs, hvs, h⟩ := h
      refine ⟨vs, ?_, ?_⟩
      · rw [mapM_eq_some_iff] at hvs ⊢
        refine hvs.imp fun p v hv => ?_
        rw [Option.bind_eq_some_iff] at hv ⊢
        obtain ⟨m, hm, hv⟩ := hv
        exact ⟨m, hm, ih hv⟩
      · split at h
        · cases h
        · refine applied_mono (fun g vs v hv => ?_) h
          rw [entered_eq_some_iff] at hv ⊢
          obtain ⟨hlen, m, hm, hv⟩ := hv
          exact ⟨hlen, m, hm, ih hv⟩
    · exact h

theorem denote_mono {j k : Nat} (hjk : j ≤ k) (h : denote U s j g args n = some v) :
    denote U s k g args n = some v := by
  induction hjk with
  | refl => exact h
  | step _ ih => exact denote_succ _ ih

theorem Denotes.unique {w : Value} (hv : Denotes U s g args n v) (hw : Denotes U s g args n w) :
    v = w := by
  obtain ⟨j, hj⟩ := hv
  obtain ⟨k, hk⟩ := hw
  have h1 := denote_mono (Nat.le_max_left j k) hj
  have h2 := denote_mono (Nat.le_max_right j k) hk
  rw [h1] at h2
  exact Option.some.inj h2

theorem denotes_fetch (U : Universe) (args : List Value) {key : Value}
    (ha : (s.node n).application? = none) (h : Leaf s g n (.fetch key)) :
    ∃ x, key = .symbol x ∧ ∀ {w}, Denotes U s g args n w ↔ U.name x = .ok w := by
  have hname : ∀ {x : Symbol} {w : Value},
      (∀ k, denote U s (k + 1) g args n = (U.name x).toOption) →
      (Denotes U s g args n w ↔ U.name x = .ok w) := by
    intro x w hk
    constructor
    · rintro ⟨_ | k, hw⟩
      · cases hw
      · rw [hk] at hw
        exact toOption_eq_some.mp hw
    · intro hw
      refine ⟨1, ?_⟩
      rw [hk, hw]
      rfl
  cases h with
  | @name x hv hx =>
    refine ⟨x, rfl, hname fun k => ?_⟩
    rw [denote, ha, hv]
    exact if_pos hx
  | graph hv =>
    refine ⟨_, rfl, hname fun k => ?_⟩
    rw [denote, ha, hv]

theorem denotes_push {w : Value} (ha : (s.node n).application? = none)
    (h : Leaf s g n (.push w)) : Denotes U s g args n w := by
  refine ⟨1, ?_⟩
  cases h with
  | constant hv hx hg =>
    rw [denote, ha, hv]
    dsimp only
    split
    next x hw =>
      injection hw with hw
      rw [if_neg (by rw [hx x hw]; simp), hw]
    next h t hw =>
      injection hw with hw
      exact absurd hw (hg h t)
    next hw => exact hw.symm
    next hw => cases hw

theorem denotes_input {i : Nat} (ha : (s.node n).application? = none) (h : Leaf s g n (.dup i))
    (hargs : args.length = (s.graph g).inputs.length) :
    ∃ w, args[i]? = some w ∧ Denotes U s g args n w := by
  cases h with
  | input hv hi =>
    obtain ⟨hlt, _⟩ := findIdx?_eq_some_iff_getElem.mp hi
    rw [← hargs] at hlt
    refine ⟨args[i], getElem?_eq_getElem hlt, 1, ?_⟩
    rw [denote, ha, hv]
    dsimp only
    rw [hi, Option.bind_some, getElem?_eq_getElem hlt]

theorem WellFormed.denote_of_reaches {out m : NodeId} {k : Nat} (hw : WellFormed s g out)
    (hm : Reaches s out m) (h : Reaches s m n) (hv : ∃ v, denote U s k g args m = some v) :
    ∃ w, denote U s k g args n = some w := by
  induction h with
  | refl => exact hv
  | @tail a b hmb hab ih =>
    obtain ⟨v, hv⟩ := ih
    obtain ⟨parts, hparts, hmem⟩ := hw.application_of_needs (hm.trans hmb) hab
    cases k with
    | zero => cases hv
    | succ k =>
      rw [denote, hparts] at hv
      dsimp only at hv
      rw [Option.bind_eq_some_iff] at hv
      obtain ⟨vs, hvs, -⟩ := hv
      rw [mapM_eq_some_iff] at hvs
      obtain ⟨w, hw⟩ : ∃ w, (some b : Option NodeId).bind (denote U s k g args) = some w := by
        clear hparts
        induction hvs with
        | nil => cases hmem
        | @cons x y xs ys hxy _ ih =>
          rcases mem_cons.mp hmem with rfl | hmem
          · exact ⟨y, hxy⟩
          · exact ih hmem
      exact ⟨w, denote_succ k hw⟩

end DiffLang.Graph
