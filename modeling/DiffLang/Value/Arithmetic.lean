import DiffLang.Value.Tensor

/-!
# Arithmetic and comparison

Operators on plain numbers, on numbers that keep an element type, and on arrays. Whole numbers
are unbounded; those with an element type wrap around. Plain division by zero fails, division of
typed numbers gives an infinity or a NaN. An array meets a plain number in the array's own type
as far as it can.
-/

namespace DiffLang

inductive BinaryOp where
  | add
  | sub
  | mul
  | div
  | floorDiv
  | mod
  | pow
deriving DecidableEq

inductive Comparison where
  | eq
  | lt
  | gt
deriving DecidableEq

namespace Number

/-- The floating-point number nearest to a fraction of whole numbers, if it is in range. It is
negative if just one of them is, so zero over a negative number is `-0.0`. -/
def divide? (num den : Int) : Option Float :=
  let n := num.natAbs
  let d := den.natAbs
  if n = 0 then some (if den < 0 then -0.0 else 0)
  else
    -- enough bits of the quotient that one further bit for the remainder decides the rounding
    let shift : Int := 66 - ((Nat.log2 n : Int) - (Nat.log2 d : Int))
    let (a, b) := if shift ≥ 0 then (n * Nat.pow 2 shift.toNat, d)
      else (n, d * Nat.pow 2 (-shift).toNat)
    let q := a / b
    let q := if a % b = 0 then q else if q % 2 = 0 then q + 1 else q
    let x := Float.scaleB (Float.ofNat q) (-shift)
    if x.isInf then none
    else some (if (num < 0) != (den < 0) then -x else x)

/-- Quotient rounded down and remainder with the sign of the divisor, for a divisor that is not
zero. -/
def floatDivMod (x y : Float) : Float × Float :=
  let m := Id.run do
    -- the remainder of a truncated division, computed exactly
    if x.isNaN || y.isNaN || x.isInf then return (0 / 0 : Float)
    if y.isInf then return x
    let (mx, qx) := Decimal.parts x
    let (my, qy) := Decimal.parts y
    let q := min qx qy
    let a := mx * Nat.pow 2 (qx - q).toNat
    let b := my * Nat.pow 2 (qy - q).toNat
    let r := Float.scaleB (Float.ofNat (a % b)) q
    return if Decimal.isNegative x then -r else r
  let d := (x - m) / y
  let (d, m) :=
    if m != 0 then (if (y < 0) != (m < 0) then (d - 1, m + y) else (d, m))
    else (d, if Decimal.isNegative y then -0.0 else 0.0)
  let q :=
    if d != 0 then
      let f := d.floor
      if d - f > 0.5 then f + 1 else f
    else if Decimal.isNegative (x / y) then -0.0 else 0.0
  (q, m)

def isWhole (x : Float) : Bool := x.floor == x

def power (x y : Float) : Fallible Value :=
  if y == 0 then .ok (.float 1)
  else if x.isNaN then .ok (.float x)
  else if y.isNaN then .ok (.float (if x == 1 then 1 else y))
  else if x == 1 then .ok (.float 1)
  else if x == 0 && y < 0 then .error .zeroDivision
  else if x.isInf || y.isInf then .ok (.float (Float.pow x y))
  else if x < 0 && !isWhole y then
    let size := Float.pow (-x) y
    let angle := 3.141592653589793 * y
    .ok (.complex (size * Float.cos angle) (size * Float.sin angle))
  else
    let r := Float.pow x y
    if r.isInf then .error .overflow else .ok (.float r)

def widen (n : Int) : Fallible Float :=
  match Int.toFloat? n with
  | some x => .ok x
  | none => .error .overflow

def whole? : Value → Option Int
  | .int n => some n
  | .bool b => some (if b then 1 else 0)
  | _ => none

def onInts (op : BinaryOp) (a b : Int) : Fallible Value :=
  match op with
  | .add => .ok (.int (a + b))
  | .sub => .ok (.int (a - b))
  | .mul => .ok (.int (a * b))
  | .div =>
    if b = 0 then .error .zeroDivision
    else match divide? a b with
      | some x => .ok (.float x)
      | none => .error .overflow
  | .floorDiv => if b = 0 then .error .zeroDivision else .ok (.int (a.fdiv b))
  | .mod => if b = 0 then .error .zeroDivision else .ok (.int (a.fmod b))
  | .pow =>
    if b ≥ 0 then .ok (.int (a.pow b.toNat))
    else if a = 0 then .error .zeroDivision
    else do power (← widen a) (← widen b)

def onFloats (op : BinaryOp) (a b : Float) : Fallible Value :=
  match op with
  | .add => .ok (.float (a + b))
  | .sub => .ok (.float (a - b))
  | .mul => .ok (.float (a * b))
  | .div => if b == 0 then .error .zeroDivision else .ok (.float (a / b))
  | .floorDiv => if b == 0 then .error .zeroDivision else .ok (.float (floatDivMod a b).1)
  | .mod => if b == 0 then .error .zeroDivision else .ok (.float (floatDivMod a b).2)
  | .pow => power a b

def toFloat : Value → Fallible Float
  | .float x => .ok x
  | .int n => widen n
  | .bool b => .ok (if b then 1 else 0)
  | _ => .error .typeMismatch

def isPlain : Value → Bool
  | .int _ | .bool _ | .float _ | .complex .. => true
  | _ => false

def parts : Value → Fallible (Float × Float)
  | .complex a b => .ok (a, b)
  | v => do pure (← toFloat v, 0)

def onComplex (op : BinaryOp) (x y : Float × Float) : Fallible Value :=
  let (a, b) := x
  let (c, d) := y
  match op with
  | .add => .ok (.complex (a + c) (b + d))
  | .sub => .ok (.complex (a - c) (b - d))
  | .mul => .ok (.complex (a * c - b * d) (a * d + b * c))
  | .div =>
    let n := c * c + d * d
    if n == 0 then .error .zeroDivision
    else .ok (.complex ((a * c + b * d) / n) ((b * c - a * d) / n))
  | .pow => .ok (.complex (0 / 0) (0 / 0))
  | _ => .error .typeMismatch

def binary (op : BinaryOp) (a b : Value) : Fallible Value :=
  match whole? a, whole? b with
  | some m, some n => onInts op m n
  | _, _ =>
    match a, b with
    | .complex .., _ | _, .complex .. => do onComplex op (← parts a) (← parts b)
    | _, _ => do onFloats op (← toFloat a) (← toFloat b)

/-! ## Order of plain numbers -/

/-- The order of a whole and a floating-point number, exactly. -/
def compareIntFloat (n : Int) (x : Float) : Option Ordering :=
  if x.isNaN then none
  else if x.isInf then some (if x > 0 then .lt else .gt)
  else
    let (m, q) := Decimal.parts x
    let m : Int := if Decimal.isNegative x then -(m : Int) else m
    if q ≥ 0 then some (compare n (m * Int.pow 2 q.toNat))
    else some (compare (n * Int.pow 2 (-q).toNat) m)

/-- The order of two plain numbers. A NaN has none. -/
def compare? (a b : Value) : Option Ordering :=
  match whole? a, whole? b with
  | some m, some n => some (compare m n)
  | some m, none =>
    match b with
    | .float y => compareIntFloat m y
    | _ => none
  | none, some n =>
    match a with
    | .float x => (compareIntFloat n x).map Ordering.swap
    | _ => none
  | none, none =>
    match a, b with
    | .float x, .float y =>
      if x < y then some .lt else if x > y then some .gt else if x == y then some .eq else none
    | _, _ => none

def equal (a b : Value) : Bool :=
  match a, b with
  | .complex a b, .complex c d => a == c && b == d
  | .complex a b, v | v, .complex a b =>
    b == 0 && compare? (.float a) v == some .eq
  | _, _ => compare? a b == some .eq

def holds (c : Comparison) (o : Option Ordering) : Bool :=
  match c, o with
  | .eq, some .eq => true
  | .lt, some .lt => true
  | .gt, some .gt => true
  | _, _ => false

end Number

namespace Tensor

/-- A value as an operand: an array with its type, or a plain number that adapts. -/
inductive Operand where
  | typed (a : Raw)
  | adapts (v : Value)

def operand (v : Value) : Fallible Operand :=
  match v with
  | .int _ | .float _ => .ok (.adapts v)
  | v => do pure (.typed (← ofValue v))

def meetingType (a b : Operand) : ElementType :=
  let adapt (t : ElementType) : Value → ElementType
    | .float _ => match t with
      | .float b => .float b
      | .object => .object
      | _ => .float 64
    | .int _ => match t with
      | .bool => .int 64
      | t => t
    | _ => t
  match a, b with
  | .typed x, .typed y => x.element.join y.element
  | .typed x, .adapts v | .adapts v, .typed x => adapt x.element v
  | .adapts v, .adapts w => (elementOf v).join (elementOf w)

def Operand.into (t : ElementType) : Operand → Fallible Raw
  | .typed a => do
    if a.element = t then pure a else pure ⟨t, a.shape, ← a.data.mapM (cast t)⟩
  | .adapts v => do pure ⟨t, [], [← cast t v]⟩

/-- A power of a whole number, modulo the range of its type. -/
def wrapPow (t : ElementType) (base : Int) : Nat → Nat → Int
  | 0, _ => 1
  | fuel + 1, e =>
    if e = 0 then 1
    else
      let h := wrapPow t base fuel (e / 2)
      t.wrap (if e % 2 = 0 then h * h else h * h * base)

def onElements (op : BinaryOp) (t : ElementType) (a b : Value) : Fallible Value :=
  match t, a, b with
  | .bool, .bool x, .bool y =>
    match op with
    | .add => .ok (.bool (x || y))
    | .mul => .ok (.bool (x && y))
    | _ => .error .typeMismatch
  | .float _, .float x, .float y =>
    let r := match op with
      | .add => x + y
      | .sub => x - y
      | .mul => x * y
      | .div => x / y
      | .floorDiv => if y == 0 then x / y else (Number.floatDivMod x y).1
      | .mod => if y == 0 then 0 / 0 else (Number.floatDivMod x y).2
      | .pow => Float.pow x y
    .ok (.float (t.round r))
  | _, .int x, .int y =>
    match op with
    | .add => .ok (.int (t.wrap (x + y)))
    | .sub => .ok (.int (t.wrap (x - y)))
    | .mul => .ok (.int (t.wrap (x * y)))
    | .floorDiv => .ok (.int (if y = 0 then 0 else t.wrap (x.fdiv y)))
    | .mod => .ok (.int (if y = 0 then 0 else t.wrap (x.fmod y)))
    | .pow => if y < 0 then .error .badValue else .ok (.int (wrapPow t x 128 y.toNat))
    | .div => .error .typeMismatch
  | _, x, y => if Number.isPlain x && Number.isPlain y then Number.binary op x y
      else .error .typeMismatch

def loopType (op : BinaryOp) (t : ElementType) : ElementType :=
  match op, t with
  | .div, .bool | .div, .int _ | .div, .uint _ => .float 64
  | .pow, .bool | .floorDiv, .bool | .mod, .bool => .int 8
  | _, t => t

def noArithmetic : Failure := .plain (.other "UFuncTypeError")

def binary (op : BinaryOp) (a b : Value) : Fallible Value := do
  let x ← operand a
  let y ← operand b
  let t := loopType op (meetingType x y)
  if t.isText then throw noArithmetic
  let x ← x.into t
  let y ← y.into t
  let shape ← joinShapes [x.shape, y.shape]
  let data ← ((spread shape x).zip (spread shape y)).mapM fun (u, v) => onElements op t u v
  pure (Raw.toResult ⟨t, shape, data⟩)

def mapElements (v : Value) (t : ElementType → Fallible ElementType)
    (f : ElementType → Value → Fallible Value) : Fallible Value := do
  let a ← ofValue v
  let t ← t a.element
  let data ← a.data.mapM fun x => do f t (← cast t x)
  pure (Raw.toResult ⟨t, a.shape, data⟩)

/-- An elementary function of every element, in the nearest floating-point type. -/
def elementary (f : Float → Float) (v : Value) : Fallible Value :=
  mapElements v
    (fun t => match t.smooth with
      | .float b => .ok (.float b)
      | t => .error (if t.isText then noArithmetic else .typeMismatch))
    (fun t x => match x with
      | .float y => .ok (.float (t.round (f y)))
      | _ => .error .typeMismatch)

def negate (v : Value) : Fallible Value :=
  mapElements v
    (fun t => if t = .bool then .error .typeMismatch else .ok t)
    (fun t x => match x with
      | .float y => .ok (.float (-y))
      | .int n => .ok (.int (t.wrap (-n)))
      | _ => .error .typeMismatch)

/-- A comparison of every pair of elements. Texts and numbers are never equal. -/
def compareElements (c : Comparison) (a b : Value) : Fallible Value := do
  let x ← operand a
  let y ← operand b
  let t := meetingType x y
  let comparable := match t with
    | .object | .other _ => false
    | _ => true
  if comparable then
    let x ← x.into t
    let y ← y.into t
    let shape ← joinShapes [x.shape, y.shape]
    let data := ((spread shape x).zip (spread shape y)).map fun (u, v) =>
      Value.bool (Number.holds c (Number.compare? u v))
    pure (Raw.toResult ⟨.bool, shape, data⟩)
  else if c = .eq then
    let x ← ofValue a
    let y ← ofValue b
    let shape ← joinShapes [x.shape, y.shape]
    pure (Raw.toResult ⟨.bool, shape, (spread shape x).map fun _ => .bool false⟩)
  else throw (if t.isText then noArithmetic else .typeMismatch)

end Tensor

namespace Value

def isTyped : Value → Bool
  | .array .. | .scalar .. => true
  | _ => false

/-- Whether a condition on the value holds. Arrays of several elements are neither true nor
false. -/
def truth : Value → Fallible Bool
  | .none => .ok false
  | .bool b => .ok b
  | .int n => .ok (n != 0)
  | .float x => .ok (x != 0)
  | .complex a b => .ok (a != 0 || b != 0)
  | .str s => .ok (s != "")
  | .tuple items | .list items | .set items => .ok (!items.isEmpty)
  | .dict items => .ok (!items.isEmpty)
  | .scalar _ v => truth v
  | .array _ _ [v] => truth v
  | .array .. => .error .badValue
  | _ => .ok true

end Value

end DiffLang
