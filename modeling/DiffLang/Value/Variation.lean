import DiffLang.Primitive

/-!
# Variations of values

The numbers inside a value, each with the path that leads to it, and the values that differ from
it in one number only.
-/

namespace DiffLang

/-- The way from a value to one of its parts: the indices, names and coordinates to follow. -/
abbrev Path := List Value

namespace Value

/-- Whether a value is a number by itself. Of the elements of arrays, only those of the usual
floating-point type are. -/
def isNumber : Value → Bool
  | .bool _ | .int _ | .float _ | .scalar (.float 64) _ => true
  | _ => false

/-- The coordinates of the elements of an array, in row-major order. -/
def coordinatesOf (shape : List Nat) : List Value :=
  (List.range (Tensor.count shape)).map fun i =>
    .tuple ((Tensor.coordinates shape i).map Value.nat)

mutual

/-- The paths to the numbers of a value, and to the elements of its arrays that pass a test. -/
def pathsWhere (keep : Value → Bool) : Value → List Path
  | .tuple items | .list items => itemPaths keep 0 items
  | .record _ fields => fieldPaths keep fields
  | .array t shape data =>
    (((coordinatesOf shape).zip data).filter fun (_, x) => keep (Tensor.single t x)).map
      fun (c, _) => [c]
  | v => if v.isNumber then [[]] else []

def itemPaths (keep : Value → Bool) (i : Nat) : List Value → List Path
  | [] => []
  | v :: vs => (pathsWhere keep v).map (Value.nat i :: ·) ++ itemPaths keep (i + 1) vs

def fieldPaths (keep : Value → Bool) : List (Value × Value) → List Path
  | [] => []
  | (k, v) :: rest => (pathsWhere keep v).map (k :: ·) ++ fieldPaths keep rest

end

def paths (v : Value) : List Path := v.pathsWhere fun _ => true

def variablePaths (v : Value) : List Path := v.pathsWhere isNumber

def part (v : Value) (path : Path) : Fallible Value := path.foldlM item v

def withItem (v i w : Value) : Fallible Value :=
  match v with
  | .tuple items => do
    match i.index? with
    | some k => pure (.tuple (items.set (← place items.length k) w))
    | Option.none => throw .typeMismatch
  | .list items => do
    match i.index? with
    | some k => pure (.list (items.set (← place items.length k) w))
    | Option.none => throw .typeMismatch
  | .array t shape data => do
    match i with
    | .tuple is =>
      let coords := is.map fun c => (c.index?.getD 0).toNat
      pure (.array t shape (data.set (Tensor.position shape coords) (← Tensor.cast t w)))
    | _ => throw .typeMismatch
  | v => Primitive.withAttribute v i w

def withPart (v : Value) (w : Value) : Path → Fallible Value
  | [] => .ok w
  | p :: ps => do v.withItem p (← (← v.item p).withPart w ps)

/-- The values that differ from a value at the end of a path, where the number is replaced by each
of those that `change` makes of it. -/
def variantsAt (change : Value → Fallible (List Value)) (v : Value) (path : Path) :
    Fallible (List Value) := do
  let ws ← change (← v.part path)
  ws.mapM fun w => v.withPart w path

/-- A number with a distance taken away, and with it added. -/
def around (distance v : Value) : Fallible (List Value) := do
  pure [← Value.binary .sub v distance, ← Value.binary .add v distance]

end Value

end DiffLang
