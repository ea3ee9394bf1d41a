import DiffLang.Value

/-!
# Failures

A failure has a kind and, if the library itself states what went wrong, the arguments it was
stated with. A failure that comes out of an operation on values (a division by zero, a missing
index) has a kind only. A failure of the reader also has a place in the program text.
-/

namespace DiffLang

/-- A place in a program text: line from 1, column from 0. -/
structure Location where
  url : String
  line : Nat
  column : Nat
deriving Inhabited

/-- Why a computation has no result. -/
structure Failure where
  kind : Kind
  args : List Value := []
  /-- Whether the arguments are the library's own statement. -/
  stated : Bool := false
  location : Option Location := none

namespace Failure

def plain (kind : Kind) : Failure := { kind }

def because (kind : Kind) (text : String) : Failure :=
  { kind, args := [.str text], stated := true }

def typeMismatch : Failure := plain .type
def badValue : Failure := plain .value
def outOfRange : Failure := plain .index
def missingKey : Failure := plain .key
def missingAttribute : Failure := plain .attribute
/-- A condition that was taken for granted does not hold. -/
def broken : Failure := plain .assertion
def zeroDivision : Failure := plain .zeroDivision
def overflow : Failure := plain .overflow
def tooDeep : Failure := plain .recursion

def toValue (f : Failure) : Value :=
  match f.kind, f.args with
  | .wrapped, [e] => .wrapped e
  | _, _ => .exception f.kind f.args

def raising : Value → Failure
  | .exception kind args => { kind, args, stated := true }
  | .wrapped e => { kind := .wrapped, args := [e], stated := true }
  | .thing _ => plain .type
  | _ => plain .type

end Failure

abbrev Fallible := Except Failure

theorem Fallible.bind_eq_ok {α β : Type} {x : Fallible α} {f : α → Fallible β} {y : β} :
    (x >>= f) = .ok y ↔ ∃ a, x = .ok a ∧ f a = .ok y := by
  cases x with
  | error e => simp [bind, Except.bind]
  | ok a => simp [bind, Except.bind]

end DiffLang
