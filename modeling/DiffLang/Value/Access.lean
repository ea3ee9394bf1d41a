import DiffLang.Value.Operators

/-!
# Parts of values

Positions and slices of sequences and arrays, lengths, the items a value can be walked through,
and attributes.
-/

namespace DiffLang.Value

/-! ## Positions -/

def index? : Value → Option Int
  | .int n => some n
  | .bool b => some (if b then 1 else 0)
  | .scalar (.int _) (.int n) | .scalar (.uint _) (.int n) => some n
  | .array (.int _) [] [.int n] | .array (.uint _) [] [.int n] => some n
  | _ => Option.none

/-- The position in a list of `n` that an index names; negative ones count from the end. -/
def place (n : Nat) (i : Int) : Fallible Nat :=
  if 0 ≤ i then (if i < n then .ok i.toNat else .error .outOfRange)
  else if -(n : Int) ≤ i then .ok (n + i).toNat else .error .outOfRange

def bound? : Value → Fallible (Option Int)
  | .none => .ok Option.none
  | v =>
    match v.index? with
    | some i => .ok (some i)
    | Option.none => .error .typeMismatch

/-- A bound moved into the range of a list of `n`; `low` and `high` are where it stops. -/
def clampBound (n : Nat) (low high : Int) (i : Int) : Int :=
  let i := if i < 0 then i + n else i
  if i < low then low else if i > high then high else i

def positionsFrom (start step : Int) (count : Nat) : List Nat :=
  (List.range count).map fun (k : Nat) => (start + (k : Int) * step).toNat

def slicePositions (n : Nat) (start stop step : Value) : Fallible (List Nat) := do
  let step := (← bound? step).getD 1
  if step = 0 then throw .badValue
  let start ← bound? start
  let stop ← bound? stop
  if step > 0 then
    let a := (start.map (clampBound n 0 n)).getD 0
    let b := (stop.map (clampBound n 0 n)).getD n
    pure (positionsFrom a step ((b - a + step - 1) / step).toNat)
  else
    let a := (start.map (clampBound n (-1) (n - 1))).getD (n - 1)
    let b := (stop.map (clampBound n (-1) (n - 1))).getD (-1)
    pure (positionsFrom a step ((a - b + (-step) - 1) / (-step)).toNat)

/-- The item of a list at a position, or the items of a slice put together again. -/
def listItem (xs : List Value) (build : List Value → Value) (i : Value) : Fallible Value :=
  match i with
  | .slice a b c => do
    let arr := xs.toArray
    pure (build ((← slicePositions xs.length a b c).map fun k => arr.getD k .none))
  | i =>
    match i.index? with
    | some k => do pure (xs.getD (← place xs.length k) .none)
    | Option.none => .error .typeMismatch

/-! ## Arrays -/

/-- What an index keeps of one axis: a position, or several. -/
inductive Axis where
  | at (i : Nat)
  | run (is : List Nat)

def axisOf (n : Nat) : Value → Fallible Axis
  | .slice a b c => do pure (.run (← slicePositions n a b c))
  | .array (.int _) [_] is => do
    pure (.run (← is.mapM fun v => do
      match v.index? with
      | some i => place n i
      | Option.none => throw .outOfRange))
  | .bool _ => .error .outOfRange
  | v =>
    match v.index? with
    | some i => do pure (.at (← place n i))
    | Option.none => .error .outOfRange

/-- What indices keep of the axes of an array, the last axes whole. -/
def axesOf : List Nat → List Value → Fallible (List Axis)
  | shape, [] => .ok (shape.map fun n => .run (List.range n))
  | [], _ :: _ => .error .outOfRange
  | n :: shape, i :: is => do pure ((← axisOf n i) :: (← axesOf shape is))

def keptShape (axes : List Axis) : List Nat :=
  axes.filterMap fun
    | .at _ => Option.none
    | .run is => some is.length

/-- The positions that are kept, in row-major order. -/
def keptPositions : List Nat → List Axis → List Nat
  | _ :: shape, a :: axes =>
    let step := Tensor.count shape
    let inner := keptPositions shape axes
    match a with
    | .at i => inner.map (i * step + ·)
    | .run is => is.flatMap fun i => inner.map (i * step + ·)
  | _, _ => [0]

def arrayItem (t : ElementType) (shape : List Nat) (data : List Value) (i : Value) :
    Fallible Value := do
  let indices := match i with
    | .tuple is => is
    | i => [i]
  let axes ← axesOf shape indices
  let arr := data.toArray
  let kept := (keptPositions shape axes).map fun k => arr.getD k .none
  let whole := axes.any fun
    | .run _ => true
    | .at _ => false
  if whole then pure (.array t (keptShape axes) kept)
  else pure (Tensor.single t (kept.headD .none))

/-! ## Attributes -/

def member (v : Value) (name : String) : Fallible Value :=
  match v, name with
  | .record tag fields, name => StructuralMap.named tag fields name
  | .closure fn _, "fn" => .ok fn
  | .closure _ args, "args" => .ok (.tuple args)
  | .slice a _ _, "start" => .ok a
  | .slice _ b _, "stop" => .ok b
  | .slice _ _ c, "step" => .ok c
  | .array _ shape _, "shape" => .ok (.tuple (shape.map .nat))
  | .array _ shape _, "ndim" => .ok (.nat shape.length)
  | .array _ shape _, "size" => .ok (.nat (Tensor.count shape))
  | .array t shape data, "T" => .ok (Tensor.transpose t shape data)
  | .scalar .., "shape" => .ok (.tuple [])
  | .scalar .., "ndim" => .ok (.nat 0)
  | .scalar .., "size" => .ok (.nat 1)
  | .scalar t w, "T" | .scalar t w, "real" => .ok (.scalar t w)
  | .exception _ args, "args" => .ok (.tuple args)
  | .wrapped e, "args" => .ok (.tuple [e])
  | .wrapped e, "error" => .ok e
  | .prim _ s _, "name" => .ok (.symbol s)
  | .int n, "real" | .int n, "numerator" => .ok (.int n)
  | .int _, "imag" => .ok (.int 0)
  | .int _, "denominator" => .ok (.int 1)
  | .float x, "real" => .ok (.float x)
  | .float _, "imag" => .ok (.float 0)
  | .complex re _, "real" => .ok (.float re)
  | .complex _ im, "imag" => .ok (.float im)
  | .type n _, "name" => .ok (.str n)
  | .type _ (some es), "elem_types" => .ok (.tuple es)
  | .type _ Option.none, "elem_types" => .ok .none
  | _, _ => .error .missingAttribute

def lookup (items : List (Value × Value)) (key : Value) : Fallible Value :=
  if !key.isHashable then .error .typeMismatch
  else
    let rec go : List (Value × Value) → Fallible Value
      | [] => .error .missingKey
      | (k, v) :: rest => do if ← same k key then pure v else go rest
    go items

def item (v i : Value) : Fallible Value :=
  match v with
  | .tuple xs => listItem xs .tuple i
  | .list xs => listItem xs .list i
  | .str s =>
    listItem (s.toList.map fun c => .str c.toString)
      (fun cs => .str (String.join (cs.map Value.text))) i
  | .dict items => lookup items i
  | .array t shape data => arrayItem t shape data i
  | .scalar .. => .error .outOfRange
  | .record .. =>
    match i with
    | .str name => v.member name
    | _ => .error .typeMismatch
  | .type n es =>
    match es with
    | some [] =>
      match i with
      | .tuple ts => .ok (.type n (some ts))
      | t => .ok (.type n (some [t]))
    | _ => .error .broken
  | _ => .error .typeMismatch

/-! ## Walks -/

def size : Value → Fallible Nat
  | .tuple xs | .list xs | .set xs => .ok xs.length
  | .dict xs => .ok xs.length
  | .str s => .ok s.length
  | .array _ (n :: _) _ => .ok n
  | _ => .error .typeMismatch

def rows (t : ElementType) (n : Nat) (shape : List Nat) (data : List Value) : List Value :=
  let step := Tensor.count shape
  (List.range n).map fun i =>
    Tensor.Raw.toResult ⟨t, shape, (data.drop (i * step)).take step⟩

def walk : Value → Fallible (List Value)
  | .tuple xs | .list xs | .set xs => .ok xs
  | .dict xs => .ok (xs.map Prod.fst)
  | .str s => .ok (s.toList.map fun c => .str c.toString)
  | .array t (n :: shape) data => .ok (rows t n shape data)
  | .record _ fields => .ok (fields.map fun (k, v) => .tuple [k, v])
  | _ => .error .typeMismatch

def rebuild (like : Value) (items : List Value) : Fallible Value :=
  match like with
  | .tuple _ => .ok (.tuple items)
  | .list _ => .ok (.list items)
  | .set _ =>
    if allHashable items then do
      let kept ← items.foldlM (fun acc v => do
        if ← hasItem (same v) acc then pure acc else pure (acc ++ [v])) []
      pure (.set kept)
    else .error .typeMismatch
  | .dict _ =>
    items.foldlM (fun (acc : Value) pair => do
      match acc, pair with
      | .dict done, .tuple [k, v] | .dict done, .list [k, v] =>
        if !k.isHashable then throw .typeMismatch
        pure (.dict (done.filter (fun (j, _) => j.text ≠ k.text) ++ [(k, v)]))
      | _, _ => throw .typeMismatch) (.dict [])
  | _ => .error .typeMismatch

end DiffLang.Value
