import DiffLang.Value.Equality

/-!
# Abstract values

An abstract value stands for what is known of a value: the value itself if it is known, its type,
its shape, or the error on the way to it, each under a key of its own. How often a value was
computed with is its depth; beyond a limit the value is given up.
-/

namespace DiffLang.Abstract

/-- How often a value is computed with at most, unless it is said otherwise. -/
def usualLimit : Nat := 5

def part? (parts : List (Value × Value)) (key : Value) : Option Value :=
  (parts.find? fun (k, _) => k.agrees key).map (·.2)

def property? (v key : Value) : Option Value :=
  match v with
  | .abstract parts _ => part? parts key
  | _ => none

def depthOf : Value → Nat
  | .abstract _ d => d
  | _ => 0

def flatten : Nat → Value → Nat → Fallible (Value × Nat)
  | 0, _, _ => .error .tooDeep
  | fuel + 1, v, depth =>
    match v with
    | .abstract parts d =>
      match part? parts Value.valueKey with
      | some w => flatten fuel w (max d depth)
      | none => .error .missingKey
    | v => .ok (v, depth)

def nesting : Nat := 10000

/-- An abstract value with some parts. If the value under its key is abstract again, it is taken
out of there. -/
def ofParts (parts : List (Value × Value)) (depth : Nat := 0) : Fallible Value :=
  match part? parts Value.valueKey with
  | none => .ok (.abstract parts depth)
  | some v => do
    let (v, depth) ← flatten nesting v depth
    pure (.abstract (parts.map fun (k, w) => (k, if k.agrees Value.valueKey then v else w)) depth)

def ofValue (limit : Nat) (v : Value) (depth : Nat := 0) : Fallible Value :=
  match if depth > limit then .any else v with
  | .dict parts => ofParts parts depth
  | v => ofParts [(Value.valueKey, v)] depth

def limited (limit : Nat) (parts : List (Value × Value)) (depth : Nat) : Fallible Value :=
  if depth > limit then ofParts [(Value.valueKey, .any)] depth else ofParts parts depth

def wrap (limit : Nat) (v : Value) : Fallible Value :=
  match v with
  | .abstract .. => .ok v
  | v => ofValue limit v

def unwrapWithin : Nat → Value → Value
  | 0, _ => .any
  | fuel + 1, v =>
    match v with
    | .abstract parts _ =>
      match part? parts Value.valueKey with
      | some w => unwrapWithin fuel w
      | none => .any
    | v => v

def unwrap (v : Value) : Value := unwrapWithin nesting v

def ofError (e : Value) : Value := .abstract [(Value.errorKey, e)] 0

def isUnknown : Value → Bool
  | .any => true
  | _ => false

end DiffLang.Abstract
