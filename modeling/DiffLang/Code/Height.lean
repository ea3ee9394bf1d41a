import DiffLang.Code

/-!
# Stack heights

How high the stack is before an instruction is known without running it: a `push`, a `fetch` and a
`dup` leave one value more, and a `reduce` puts one value in the place of a function and its
arguments. Code is balanced if every instruction finds what it needs at the height it is reached at:
a `dup` copies a place below the height, and a `reduce` takes only what lies above the arguments
that the frame started with.
-/

namespace DiffLang

namespace Instruction

def leaves (h : Nat) : Instruction → Nat
  | .push _ | .fetch _ | .dup _ => h + 1
  | .reduce n => h - n.toNat
  | _ => h

/-- Whether an instruction finds what it needs at a height, above so many arguments. -/
def Fits (base h : Nat) : Instruction → Prop
  | .push _ | .fetch _ => True
  | .dup i => 0 ≤ i ∧ i < h
  | .reduce n => 0 ≤ n ∧ base + (n.toNat + 1) ≤ h
  | _ => False

instance (base h : Nat) : (i : Instruction) → Decidable (i.Fits base h)
  | .push _ | .fetch _ => .isTrue trivial
  | .dup _ | .reduce _ => inferInstanceAs (Decidable (_ ∧ _))
  | .closure | .store _ | .reduceOnly _ | .assemble _ | .other .. => .isFalse id

end Instruction

namespace Code

def leaves (h : Nat) : List Step → Nat
  | [] => h
  | step :: rest => leaves (step.op.leaves h) rest

def Fits (base h : Nat) : List Step → Prop
  | [] => True
  | step :: rest => step.op.Fits base h ∧ Fits base (step.op.leaves h) rest

instance decidableFits (base : Nat) : ∀ (h : Nat) (code : List Step), Decidable (Fits base h code)
  | _, [] => .isTrue trivial
  | h, step :: rest =>
    have := decidableFits base (step.op.leaves h) rest
    inferInstanceAs (Decidable (_ ∧ _))

@[simp] theorem leaves_append (h : Nat) (a b : List Step) :
    leaves h (a ++ b) = leaves (leaves h a) b := by
  induction a generalizing h with
  | nil => rfl
  | cons step a ih => exact ih _

@[simp] theorem fits_append {base h : Nat} {a b : List Step} :
    Fits base h (a ++ b) ↔ Fits base h a ∧ Fits base (leaves h a) b := by
  induction a generalizing h with
  | nil => exact iff_of_eq (true_and _).symm
  | cons step a ih => exact (and_congr_right fun _ => ih).trans and_assoc.symm

def heightAt (base : Nat) (code : Array Step) (pc : Nat) : Nat :=
  leaves base (code.toList.take pc)

/-- Code that finds what it needs at every instruction, on a stack that starts with so many
arguments. -/
def Balanced (base : Nat) (code : Array Step) : Prop :=
  Fits base base code.toList

instance (base : Nat) (code : Array Step) : Decidable (Balanced base code) :=
  decidableFits base base code.toList

variable {base : Nat} {code : Array Step} {pc : Nat} {step : Step}

@[simp] theorem heightAt_zero : heightAt base code 0 = base := rfl

theorem heightAt_succ (h : code[pc]? = some step) :
    heightAt base code (pc + 1) = step.op.leaves (heightAt base code pc) := by
  rw [← Array.getElem?_toList] at h
  unfold heightAt
  rw [List.take_add_one, h, leaves_append]
  rfl

theorem Balanced.fits (hb : Balanced base code) (h : code[pc]? = some step) :
    step.op.Fits base (heightAt base code pc) := by
  rw [← Array.getElem?_toList] at h
  obtain ⟨hlt, hstep⟩ := List.getElem?_eq_some_iff.mp h
  unfold Balanced at hb
  rw [← List.take_append_drop pc code.toList, fits_append, List.drop_eq_getElem_cons hlt,
    hstep] at hb
  exact hb.2.1

end Code

end DiffLang
