import DiffLang.Decimal
import DiffLang.Failure

/-!
# Arrays of numbers

Element types with their common type, rounding into an element type, shapes with broadcasting,
and the array a nested sequence stands for. Elements are kept in row-major order.
-/

namespace DiffLang

namespace ElementType

def join : ElementType → ElementType → ElementType
  | .object, _ | _, .object => .object
  | .other a, .other b => if a = b then .other a else .object
  | .other a, _ | _, .other a => .other a
  | .bool, t | t, .bool => t
  | .int a, .int b => .int (max a b)
  | .uint a, .uint b => .uint (max a b)
  | .int a, .uint b | .uint b, .int a =>
    if b < a then .int a else if b < 64 then .int (2 * b) else .float 64
  | .float a, .float b => .float (max a b)
  | .float a, .int b | .float a, .uint b | .int b, .float a | .uint b, .float a =>
    if b ≤ 8 then .float a else if b ≤ 16 then .float (max a 32) else .float 64

def isText : ElementType → Bool
  | .other n => n.startsWith "str"
  | _ => false

def smooth : ElementType → ElementType
  | .bool => .float 16
  | .int b | .uint b => if b ≤ 8 then .float 16 else if b ≤ 16 then .float 32 else .float 64
  | t => t

def holds (t : ElementType) (n : Int) : Bool :=
  match t with
  | .int b => decide (-(Int.pow 2 (b - 1)) ≤ n) && decide (n < Int.pow 2 (b - 1))
  | .uint b => decide (0 ≤ n) && decide (n < Int.pow 2 b)
  | _ => true

def wrap (t : ElementType) (n : Int) : Int :=
  match t with
  | .int b => n.bmod (Nat.pow 2 b)
  | .uint b => n.emod (Int.pow 2 b)
  | _ => n

/-- The nearest number of a two-byte format, a half going to the even neighbour. -/
def roundHalfPrecision (x : Float) : Float :=
  if x.isNaN || x.isInf || x == 0 then x
  else
    let (m, q) := Decimal.parts x
    let top := q + (Nat.log2 m + 1 : Nat)
    let unit := max (top - 11) (-24)
    let steps := if q ≥ unit then m * Nat.pow 2 (q - unit).toNat
      else Decimal.roundDiv m (Nat.pow 2 (unit - q).toNat)
    let y := Float.scaleB (Float.ofNat steps) unit
    let y := if y > 65504 then 1 / 0 else y
    if Decimal.isNegative x then -y else y

def round (t : ElementType) (x : Float) : Float :=
  match t with
  | .float 16 => roundHalfPrecision x
  | .float 32 => x.toFloat32.toFloat
  | _ => x

end ElementType

/-- The nearest floating-point number of a whole number, if it is in range. -/
def Int.toFloat? (n : Int) : Option Float :=
  let x := Float.ofInt n
  if x.isInf then none else some x

namespace Tensor

/-- An array: element type, shape, elements in row-major order. -/
structure Raw where
  element : ElementType
  shape : List Nat
  data : List Value

def count (shape : List Nat) : Nat := shape.foldl (· * ·) 1

def Raw.toValue (a : Raw) : Value := .array a.element a.shape a.data

def single (t : ElementType) (v : Value) : Value :=
  match t with
  | .object => v
  | _ => .scalar t v

/-- An array without axes is shown as its element. -/
def Raw.toResult (a : Raw) : Value :=
  match a.shape, a.data with
  | [], [v] => single a.element v
  | _, _ => a.toValue

def toFloat? : Value → Option Float
  | .float x => some x
  | .int n => Int.toFloat? n
  | .bool b => some (if b then 1 else 0)
  | _ => none

/-- A plain number as a whole number, cut towards zero. -/
def toInt? : Value → Option Int
  | .int n => some n
  | .bool b => some (if b then 1 else 0)
  | .float x =>
    if x.isNaN || x.isInf then none
    else
      let (m, q) := Decimal.parts x
      let n : Nat := if q ≥ 0 then m * Nat.pow 2 q.toNat else m / Nat.pow 2 (-q).toNat
      some (if Decimal.isNegative x then -(n : Int) else n)
  | _ => none

/-- A plain value put into an array of the type. -/
def cast (t : ElementType) (v : Value) : Fallible Value :=
  let v := match v with
    | .scalar _ w => w
    | w => w
  match t with
  | .object | .other _ => .ok v
  | .bool =>
    match v with
    | .bool b => .ok (.bool b)
    | .int n => .ok (.bool (n != 0))
    | .float x => .ok (.bool (x != 0))
    | .str s => .ok (.bool (s != ""))
    | .none => .ok (.bool false)
    | _ => .ok (.bool true)
  | .int _ | .uint _ =>
    match v with
    | .str _ => .error .badValue
    | _ =>
      match toInt? v with
      | some n => if t.holds n then .ok (.int n) else .error .overflow
      | none => .error .typeMismatch
  | .float _ =>
    match v with
    | .str _ => .error .badValue
    | .none => .ok (.float (0 / 0))
    | .int n =>
      match Int.toFloat? n with
      | some x => .ok (.float (t.round x))
      | none => .error .overflow
    | _ =>
      match toFloat? v with
      | some x => .ok (.float (t.round x))
      | none => .error .typeMismatch

def elementOf : Value → ElementType
  | .bool _ => .bool
  | .int n =>
    if (ElementType.int 64).holds n then .int 64
    else if (ElementType.uint 64).holds n then .uint 64 else .object
  | .float _ => .float 64
  | .complex .. => .other "complex128"
  | .str s => .other s!"str{32 * s.length}"
  | .scalar t _ => t
  | _ => .object

mutual

/-- The shape and the leaves of a nested sequence; `none` if it is ragged. -/
def flatten : Value → Option (List Nat × List Value)
  | .tuple items | .list items => do
    match ← flattenAll items with
    | [] => pure ([0], [])
    | (shape, leaves) :: rest =>
      if rest.all fun r => r.1 == shape then
        pure ((rest.length + 1) :: shape, leaves ++ rest.flatMap Prod.snd)
      else none
  | .array t shape data => some (shape, data.map (single t))
  | v => some ([], [v])

def flattenAll : List Value → Option (List (List Nat × List Value))
  | [] => some []
  | v :: vs => do
    let r ← flatten v
    pure (r :: (← flattenAll vs))

end

def ofValue (v : Value) : Fallible Raw :=
  match v with
  | .array t shape data => .ok ⟨t, shape, data⟩
  | .scalar t w => .ok ⟨t, [], [w]⟩
  | v =>
    match flatten v with
    | none => .error .badValue
    | some (shape, leaves) =>
      match leaves with
      | [] => .ok ⟨.float 64, shape, []⟩
      | first :: rest =>
        let t := rest.foldl (fun t w => t.join (elementOf w)) (elementOf first)
        do
          let data ← (first :: rest).mapM (cast t)
          pure ⟨t, shape, data⟩

/-! ## Broadcasting -/

def joinAxis (a b : Nat) : Option Nat :=
  if a = b then some a else if a = 1 then some b else if b = 1 then some a else none

/-- The common shape of two shapes given from the last axis on. -/
def joinReversed : List Nat → List Nat → Option (List Nat)
  | [], bs => some bs
  | as, [] => some as
  | a :: as, b :: bs => do
    let c ← joinAxis a b
    pure (c :: (← joinReversed as bs))

def joinShape (a b : List Nat) : Option (List Nat) :=
  (joinReversed a.reverse b.reverse).map List.reverse

def joinShapes (shapes : List (List Nat)) : Fallible (List Nat) :=
  match shapes.foldlM joinShape [] with
  | some s => .ok s
  | none => .error .badValue

def coordinates : List Nat → Nat → List Nat
  | [], _ => []
  | _ :: rest, i =>
    let step := count rest
    (if step = 0 then 0 else i / step) :: coordinates rest (if step = 0 then 0 else i % step)

/-- The position of coordinates in row-major order; an axis of length one is repeated. -/
def position (shape coords : List Nat) : Nat :=
  (shape.zip coords).foldl (fun acc (n, c) => acc * n + (if n = 1 then 0 else c)) 0

/-- The elements of an array read at every position of a larger shape. -/
def spread (shape : List Nat) (a : Raw) : List Value :=
  if a.shape = shape then a.data
  else
    let data := a.data.toArray
    (List.range (count shape)).map fun i =>
      let coords := (coordinates shape i).drop (shape.length - a.shape.length)
      data.getD (position a.shape coords) .none

/-- The transpose: the axes in reverse order. -/
def transpose (t : ElementType) (shape : List Nat) (data : List Value) : Value :=
  let reversed := shape.reverse
  let arr := data.toArray
  .array t reversed ((List.range (count shape)).map fun i =>
    arr.getD (position shape (coordinates reversed i).reverse) .none)

end Tensor

end DiffLang
