import DiffLang.Value.Access

/-!
# Sums, products and shapes of arrays
-/

namespace DiffLang.Tensor

def sumType : ElementType → ElementType
  | .bool => .int 64
  | .int b => .int (max b 64)
  | .uint b => .uint (max b 64)
  | t => t

/-- Adds elements. Long rows of floating-point numbers are added in eight interleaved parts, and
very long ones in halves. -/
def addElements (t : ElementType) (a b : Value) : Fallible Value :=
  match t with
  | .object => Value.binary .add a b
  | _ => onElements .add t a b

def sumPlain (xs : List Float) : Float :=
  match xs with
  | [] => 0
  | x :: rest => rest.foldl (· + ·) x

/-- The sum of at most 128 numbers: eight interleaved sums, joined in pairs, and the rest. -/
def sumBlock (xs : List Float) : Float :=
  if xs.length < 8 then sumPlain xs
  else
    let whole := xs.length / 8 * 8
    let arr := xs.toArray
    let lane (k : Nat) : Float :=
      sumPlain ((List.range (whole / 8)).map fun i => arr.getD (8 * i + k) 0)
    let joined := ((lane 0 + lane 1) + (lane 2 + lane 3)) + ((lane 4 + lane 5) + (lane 6 + lane 7))
    (xs.drop whole).foldl (· + ·) joined

def sumPairwise : Nat → List Float → Float
  | 0, xs => sumBlock xs
  | fuel + 1, xs =>
    if xs.length ≤ 128 then sumBlock xs
    else
      let half := xs.length / 2
      let half := half - half % 8
      sumPairwise fuel (xs.take half) + sumPairwise fuel (xs.drop half)

def sumRow (t : ElementType) (xs : List Value) : Fallible Value :=
  match t with
  | .float _ =>
    let fs := xs.map fun v => (toFloat? v).getD 0
    .ok (.float (t.round (sumPairwise fs.length fs)))
  | _ =>
    match xs with
    | [] => .ok (.int 0)
    | x :: rest => rest.foldlM (addElements t) x

def sum (v : Value) : Fallible Value := do
  let a ← ofValue v
  match a.element with
  | .other _ => throw .typeMismatch
  | _ =>
    let t := sumType a.element
    let data ← a.data.mapM (cast t)
    pure (single t (← sumRow t data))

def multiply (t : ElementType) (m k n : Nat) (a b : List Value) : Fallible (List Value) := do
  let x := a.toArray
  let y := b.toArray
  (List.range (m * n)).mapM fun c => do
    let i := if n = 0 then 0 else c / n
    let j := if n = 0 then 0 else c % n
    let terms ← (List.range k).mapM fun l =>
      onElements .mul t (x.getD (i * k + l) .none) (y.getD (l * n + j) .none)
    match t, terms with
    | .float _, [] => pure (.float 0)
    | .bool, [] => pure (.bool false)
    | _, [] => pure (.int 0)
    | _, first :: rest => rest.foldlM (onElements .add t) first

def matrixProduct (v w : Value) : Fallible Value := do
  let x ← operand v
  let y ← operand w
  let t := meetingType x y
  let x ← x.into t
  let y ← y.into t
  match t with
  | .object | .other _ => throw .typeMismatch
  | _ =>
    match x.shape, y.shape with
    | [k], [k'] =>
      if k ≠ k' then throw .badValue
      let r ← multiply t 1 k 1 x.data y.data
      pure (single t (r.headD .none))
    | [m, k], [k', n] =>
      if k ≠ k' then throw .badValue
      pure (.array t [m, n] (← multiply t m k n x.data y.data))
    | [m, k], [k'] =>
      if k ≠ k' then throw .badValue
      pure (.array t [m] (← multiply t m k 1 x.data y.data))
    | [k], [k', n] =>
      if k ≠ k' then throw .badValue
      pure (.array t [n] (← multiply t 1 k n x.data y.data))
    | _, _ => throw .badValue

def broadcast (vs : List Value) : Fallible (List Value) := do
  let arrs ← vs.mapM ofValue
  let shape ← joinShapes (arrs.map fun a => a.shape)
  pure (arrs.map fun a => .array a.element shape (spread shape a))

/-- The sum over the axes where `axes` says so, which keep length one. -/
def sumAxes (a : Raw) (axes : List Bool) : Fallible Raw := do
  let t := sumType a.element
  let kept := (a.shape.zip axes).map fun (n, s) => if s then 1 else n
  let data ← (a.data.mapM (cast t))
  let positions := (List.range data.length).map fun i => position kept (coordinates a.shape i)
  let pairs := positions.zip data
  let sums ← (List.range (count kept)).mapM fun p =>
    sumRow t ((pairs.filter fun (q, _) => q = p).map (·.2))
  pure ⟨t, kept, sums⟩

def shapeOf : Value → Fallible (List Nat)
  | .tuple xs | .list xs => xs.mapM fun x => match x.index? with
    | some i => if 0 ≤ i then .ok i.toNat else .error .badValue
    | none => .error .typeMismatch
  | _ => .error .typeMismatch

/-- Whether a shape is given as a list, to which nothing can be added in front. -/
def isListed : Value → Bool
  | .list _ => true
  | _ => false

/-- Sums an array over the axes that a shape does not have, and repeats it over those that it has
more. -/
def fit (v shape : Value) : Fallible Value := do
  let a ← match v with
    | .int _ | .bool _ | .float _ => ofValue v
    | .array t s d => pure ⟨t, s, d⟩
    | .scalar t w => pure ⟨t, [], [w]⟩
    | _ => throw .missingAttribute
  let target ← shapeOf shape
  if isListed shape && target.length < a.shape.length then throw .typeMismatch
  let ones (n : Nat) : List Nat := List.replicate n 1
  let wanted := ones (a.shape.length - target.length) ++ target
  let given := ones (target.length - a.shape.length) ++ a.shape
  let b ← sumAxes ⟨a.element, given, a.data⟩
    ((given.zip wanted).map fun (s0, s1) => s1 = 1 && s0 != 1)
  let full ← joinShapes [b.shape, wanted]
  let data := spread full b
  if count full ≠ count target then throw .badValue
  pure (.array b.element target data)

end DiffLang.Tensor
