import DiffLang.Code.OfGraph

/-!
# The code of a graph is balanced

While code is made, the height of the stack is only counted. The count is right: what `emit` adds
leaves one value, at the height that is counted, and all places stay below it.

Main statements: `emit_gains`, and `instructions_balanced` for the code of a whole graph.
-/

namespace DiffLang.Graph

open Code

/-- The counted height and the places of an emission are right for its code. -/
structure Emission.Level (base : Nat) (e : Emission) : Prop where
  fits : Fits base base e.code.reverse
  size : leaves base e.code.reverse = e.size
  base_le : base ≤ e.size
  places : ∀ p ∈ e.places, 0 ≤ p.2 ∧ p.2 < e.size

/-- An emission goes on to one that leaves so many values more. -/
structure Emission.Gains (base k : Nat) (e e' : Emission) : Prop where
  level : e'.Level base
  size : e'.size = e.size + k
  places : e'.places = e.places

namespace Emission

variable {base k m : Nat} {e e' e'' : Emission} {n : NodeId} {op : Instruction}

theorem Gains.trans (h : Gains base k e e') (h' : Gains base m e' e'') :
    Gains base (k + m) e e'' where
  level := h'.level
  size := by rw [h'.size, h.size, Nat.add_assoc]
  places := h'.places.trans h.places

theorem Level.push (h : e.Level base) (hfits : op.Fits base e.size)
    (hleaves : op.leaves e.size = e.size + 1) : Gains base 1 e (e.push n op) where
  level :=
    { fits := by simpa [Emission.push, h.size] using ⟨h.fits, hfits, trivial⟩
      size := by simpa [Emission.push, leaves, h.size] using hleaves
      base_le := Nat.le_succ_of_le h.base_le
      places := fun p hp => ⟨(h.places p hp).1, Int.lt_trans (h.places p hp).2 (by
        simp only [Emission.push]; omega)⟩ }
  size := rfl
  places := rfl

/-- An application takes what was emitted for its parts, and leaves its own value. -/
theorem Level.reduce (h : e.Level base) (h' : Gains base (k + 1) e e') :
    Gains base 1 e (e'.reduce n k) where
  level :=
    { fits := by
        have hfits : (Instruction.reduce k).Fits base e'.size := by
          refine ⟨Int.natCast_nonneg k, ?_⟩
          have := h'.size
          have := h.base_le
          rw [Int.toNat_natCast]
          omega
        simpa [Emission.reduce, h'.level.size] using ⟨h'.level.fits, hfits, trivial⟩
      size := by
        simp only [Emission.reduce, List.reverse_cons, leaves_append, h'.level.size]
        simp [leaves, Instruction.leaves]
      base_le := by
        simp only [Emission.reduce, h'.size]
        have := h.base_le
        omega
      places := by
        intro p hp
        have := h.places p (h'.places ▸ hp)
        simp only [Emission.reduce, h'.size]
        omega }
  size := by
    simp only [Emission.reduce, h'.size]
    omega
  places := h'.places

end Emission

variable {s : Store} {g : GraphId} {base : Nat} {e e' : Emission}

theorem application?_length {n : NodeId} {parts : List (Option NodeId)}
    (h : (s.node n).application? = some parts) :
    (parts.filterMap id).length = (parts.filterMap id).length - 1 + 1 := by
  unfold Node.application? at h
  obtain ⟨f, _, rfl⟩ := Option.map_eq_some_iff.mp h
  simp

theorem foldlM_gains {f : Emission → NodeId → Fallible Emission}
    (hf : ∀ e n e', f e n = .ok e' → e.Level base → e.Gains base 1 e') (parts : List NodeId)
    (h : parts.foldlM f e = .ok e') (he : e.Level base) : e.Gains base parts.length e' := by
  induction parts generalizing e with
  | nil =>
    cases h
    exact ⟨he, rfl, rfl⟩
  | cons n parts ih =>
    rw [List.foldlM_cons, Fallible.bind_eq_ok] at h
    obtain ⟨e1, h1, h⟩ := h
    have hgains := (hf e n e1 h1 he).trans (ih h (hf e n e1 h1 he).level)
    rwa [Nat.add_comm] at hgains

theorem emit_gains (fuel : Nat) (top : Bool) (n : NodeId) (hbase : base = (s.graph g).inputs.length)
    (h : emit s g fuel top e n = .ok e') (he : e.Level base) : e.Gains base 1 e' := by
  induction fuel generalizing top n e e' with
  | zero => cases h
  | succ fuel ih =>
    rw [emit] at h
    dsimp only at h
    split at h
    next i hi =>
      cases h
      obtain ⟨before, after, hplaces, _⟩ := List.lookup_eq_some_iff.mp hi
      have hplace := he.places (n, i) (by rw [hplaces]; simp)
      exact he.push hplace rfl
    next =>
      split at h
      next parts hparts =>
        split at h
        next => cases h
        next =>
          obtain ⟨e1, h1, h⟩ := Fallible.bind_eq_ok.mp h
          split at h
          next => cases h
          next =>
            cases h
            have hgains := foldlM_gains (fun e n e' => ih false n) _ h1 he
            rw [application?_length hparts] at hgains
            exact he.reduce hgains
      next =>
        split at h
        next x _ =>
          split at h
          next => cases h; exact he.push trivial rfl
          next => cases h; exact he.push trivial rfl
        next => cases h; exact he.push trivial rfl
        next => cases h; exact he.push trivial rfl
        next =>
          split at h
          next i hi =>
            cases h
            have hlt := (List.findIdx?_eq_some_iff_getElem.mp hi).1
            refine he.push ⟨Int.natCast_nonneg i, ?_⟩ rfl
            have := he.base_le
            omega
          next => cases h

theorem shared_level {fuel : Nat} (hbase : base = (s.graph g).inputs.length) (shared : List NodeId)
    (h : shared.foldlM (fun (e : Emission) n => do
      let e ← emit s g fuel true e n
      pure { e with places := (n, (e.size : Int) - 1) :: e.places }) e = .ok e')
    (he : e.Level base) : e'.Level base := by
  induction shared generalizing e with
  | nil =>
    cases h
    exact he
  | cons n shared ih =>
    rw [List.foldlM_cons] at h
    obtain ⟨e1, h1, h⟩ := Fallible.bind_eq_ok.mp h
    obtain ⟨e2, h2, h1⟩ := Fallible.bind_eq_ok.mp h1
    cases h1
    have hgains := emit_gains fuel true n hbase h2 he
    refine ih h { hgains.level with places := ?_ }
    intro p hp
    rcases List.mem_cons.mp hp with rfl | hp
    · have := hgains.size
      dsimp only
      omega
    · exact hgains.level.places p hp

theorem instructions_balanced {code : Array Step} (h : instructions s g = .ok code) :
    Balanced (s.graph g).inputs.length code := by
  unfold instructions at h
  obtain ⟨order, _, h⟩ := Fallible.bind_eq_ok.mp h
  obtain ⟨e, hshared, h⟩ := Fallible.bind_eq_ok.mp h
  have he : e.Level (s.graph g).inputs.length := shared_level rfl _ hshared
    { fits := trivial
      size := rfl
      base_le := Nat.le_refl _
      places := fun p hp => absurd hp List.not_mem_nil }
  split at h
  next => cases h
  next out _ =>
    obtain ⟨e', hout, h⟩ := Fallible.bind_eq_ok.mp h
    cases h
    have hgains := emit_gains _ true out rfl hout he
    simpa [Code.Balanced] using hgains.level.fits

theorem variableCode_balanced {code : Array Step} (base : Nat) (h : variableCode s g = .ok code) :
    Balanced base code := by
  unfold variableCode at h
  split at h
  next => cases h
  next out _ =>
    obtain ⟨op, hop, h⟩ := Fallible.bind_eq_ok.mp h
    cases h
    refine ⟨?_, trivial⟩
    split at hop
    next => cases hop
    next =>
      split at hop <;> cases hop
      next => split <;> trivial
      all_goals trivial

/-- Balanced code for a graph: for a frame with variables, or for one that starts with the inputs
on its stack. -/
def balancedCode (s : Store) (g : GraphId) (withVariables : Bool) :
    Fallible { code : Array Step // Balanced (s.graph g).inputs.length code } :=
  match withVariables with
  | true =>
    match h : variableCode s g with
    | .ok code => .ok ⟨code, variableCode_balanced _ h⟩
    | .error e => .error e
  | false =>
    match h : instructions s g with
    | .ok code => .ok ⟨code, instructions_balanced h⟩
    | .error e => .error e

end DiffLang.Graph
