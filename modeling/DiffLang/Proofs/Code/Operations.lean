import DiffLang.Proofs.Code.Denotation

/-!
# What operations mean

A graph calls operations by their names, so what it means depends on what the universe makes of these
names. In a standard universe (`Universe.Standard`) nothing but the primitive can be behind the name of
an operation. Conversely, a universe performs an operation (`Universe.Performs`) if the name is known
and a call of it gives what the primitive gives. For operations that look at neither the session nor
the host this is all there is to know, and `Store.standardUniverse` does both.
-/

namespace DiffLang.Graph

open Run Machine Primitive

/-- A universe in which the names of the builtin operations stand for them, and calling one of them is
what the primitives say. -/
structure Universe.Standard (U : Universe) : Prop where
  name : ∀ {op f}, U.name (.builtin op) = .ok f → ∃ home, f = .prim .standard (.builtin op) home
  call : ∀ {op home vs v}, U.call (.prim .standard (.builtin op) home) vs = .ok v →
    ∃ host o σ σ', Returns (Primitive.call host op vs) o σ v σ'

def silentHost : Host where
  call _ _ := throw .typeMismatch
  get _ _ := throw .missingKey
  display _ _ := pure ()

/-- A universe for a store: operations are primitives, and the tags of graphs stand for them. -/
def Store.standardUniverse (s : Store) : Universe where
  name x :=
    if x.isBuiltin then .ok (.prim .standard x none)
    else match s.graphs.toList.findIdx? (·.tag = x) with
      | some g => .ok (.machine g g x)
      | none => .error .missingKey
  call f vs := match f with
    | .prim .standard (.plain op ..) _ => (call silentHost op vs none Session.initial).1
    | _ => .error .typeMismatch
  function g := if g < s.graphs.size then some g else none

theorem Store.standard_standardUniverse (s : Store) : s.standardUniverse.Standard where
  name {op f} h := by
    have hb : (Symbol.builtin op).isBuiltin = true := rfl
    simp only [standardUniverse, hb, if_true, Except.ok.injEq] at h
    exact ⟨none, h.symm⟩
  call {op home vs v} h := ⟨silentHost, none, Session.initial, _, Prod.ext h rfl⟩

theorem call_identity (host : Host) (x : Value) : call host "identity" [x] = pure x := rfl

theorem call_index (host : Host) (x i : Value) :
    call host "index" [x, i] = Run.lift (x.item i) := rfl

theorem call_mktuple (host : Host) : ∀ xs : List Value,
    call host "mktuple" xs = pure (.tuple xs)
  | [] | [_] | [_, _] | [_, _, _] | _ :: _ :: _ :: _ :: _ => rfl

theorem call_partial (host : Host) (f : Value) : ∀ xs : List Value,
    call host "partial" (f :: xs) = pure (.closure f xs)
  | [] | [_] | [_, _] | _ :: _ :: _ :: _ => rfl

/-- The name of an operation is known, and a call of it gives what the primitive gives, at least where
that depends on nothing else. -/
def Universe.Performs (U : Universe) (op : String) : Prop :=
  ∃ f, U.name (.builtin op) = .ok f ∧ isDirect f = true ∧
    ∀ vs v, (∀ host o s, Returns (Primitive.call host op vs) o s v s) → U.call f vs = .ok v

theorem Store.performs_standardUniverse (s : Store) (op : String) : s.standardUniverse.Performs op :=
  ⟨.prim .standard (.builtin op) none, rfl, rfl,
    fun _ _ h => congrArg Prod.fst (h silentHost none Session.initial)⟩

def Yields (U : Universe) (s : Store) (f : Value) (vs : List Value) (v : Value) : Prop :=
  ∃ k, applied U (entered s (denote U s k)) f vs = some v

variable {U : Universe} {s : Store} {g : GraphId} {args : List Value} {n : NodeId} {f v : Value}
  {vs : List Value}

theorem applied_of_isDirect {body : GraphId → List Value → Option Value} (hf : isDirect f = true) :
    applied U body f vs = (U.call f vs).toOption := by
  have hunfold : unfolded f vs = (f, vs) := unfolded_of_isDirect hf
  unfold applied
  split
  next hmatch =>
    rw [hunfold] at hmatch
    cases hmatch
    cases hf
  next hmatch =>
    rw [hunfold] at hmatch
    cases hmatch
    exact if_pos hf

theorem Universe.Performs.yields {op : String} (h : U.Performs op) :
    ∃ f, U.name (.builtin op) = .ok f ∧
      ∀ vs v, (∀ host o s, Returns (Primitive.call host op vs) o s v s) → Yields U s f vs v := by
  obtain ⟨f, hname, hdirect, hcall⟩ := h
  refine ⟨f, hname, fun vs v hret => ⟨0, ?_⟩⟩
  rw [applied_of_isDirect hdirect, hcall vs v hret]
  rfl

theorem exists_denote_of_forall₂ {ps : List NodeId} (h : List.Forall₂ (Denotes U s g args) ps vs) :
    ∃ k, List.Forall₂ (fun p v => denote U s k g args p = some v) ps vs := by
  induction h with
  | nil => exact ⟨0, .nil⟩
  | cons hp _ ih =>
    obtain ⟨j, hj⟩ := hp
    obtain ⟨k, hk⟩ := ih
    exact ⟨max j k, .cons (denote_mono (Nat.le_max_left j k) hj)
      (hk.imp fun _ _ => denote_mono (Nat.le_max_right j k))⟩

theorem denotes_application {p : NodeId} {ps : List NodeId}
    (h : (s.node n).application? = some ((p :: ps).map some)) (hp : Denotes U s g args p f)
    (hps : List.Forall₂ (Denotes U s g args) ps vs) (hv : Yields U s f vs v) :
    Denotes U s g args n v := by
  obtain ⟨i, hi⟩ := hp
  obtain ⟨j, hj⟩ := exists_denote_of_forall₂ hps
  obtain ⟨k, hk⟩ := hv
  -- all three are found at the greatest of the depths
  refine ⟨max i (max j k) + 1, (denote_application h).mpr ⟨f, vs, denote_mono (by omega) hi,
    hj.imp fun _ _ => denote_mono (by omega), applied_mono (fun h ws w hw => ?_) hk⟩⟩
  rw [entered_eq_some_iff] at hw ⊢
  obtain ⟨hlen, out, hout, hw⟩ := hw
  exact ⟨hlen, out, hout, denote_mono (by omega) hw⟩

end DiffLang.Graph
