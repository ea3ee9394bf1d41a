import DiffLang.Graph.Rewriting

/-!
# Calls to the surrounding system

The few functions of the surrounding system that a compiled program may call without the compiler
knowing them as operations.
-/

namespace DiffLang.Foreign

def toFloat (v : Value) : Fallible Value := do
  match v with
  | .scalar _ w => pure (.float (← Number.toFloat w))
  | .array _ _ [w] => pure (.float (← Number.toFloat w))
  | v => if Number.isPlain v then pure (.float (← Number.toFloat v)) else throw .typeMismatch

def construct (name : String) (args : List Value) : Fallible Value :=
  match name, args with
  | "int", [] => .ok (.int 0)
  | "int", [v] => do pure (.int (← Graph.wholeNumber v))
  | "float", [] => .ok (.float 0)
  | "float", [v] => toFloat v
  | "bool", [] => .ok (.bool false)
  | "bool", [v] => do pure (.bool (← v.truth))
  | "str", [] => .ok (.str "")
  | "str", [v] => .ok (.str v.text)
  | "tuple", [] => .ok (.tuple [])
  | "tuple", [v] => do pure (.tuple (← v.walk))
  | "list", [] => .ok (.list [])
  | "list", [v] => do pure (.list (← v.walk))
  | _, _ => .error .typeMismatch

def absolute (v : Value) : Fallible Value := do
  match v with
  | .int n => pure (.int n.natAbs)
  | .bool b => pure (.int (if b then 1 else 0))
  | .float x => pure (.float x.abs)
  | .complex a b => pure (.float (a * a + b * b).sqrt)
  | v => if ← (← Value.compareOrder true v (.int 0)).truth then v.negative else pure v

def extreme (less : Bool) (args : List Value) : Fallible Value := do
  let items ← match args with
    | [v] => v.walk
    | vs => pure vs
  match items with
  | [] => throw .badValue
  | v :: vs => vs.foldlM (fun best w => do
      pure (if ← (← Value.compareOrder less w best).truth then w else best)) v

/-- A value as the numeric library sees it: a plain number gets an element type. -/
def typed (v : Value) : Fallible Value := do
  if v.isTyped then pure v else pure (← Tensor.ofValue v).toResult

def numericOperator (op : BinaryOp) (a b : Value) : Fallible Value := do
  if a.isTyped || b.isTyped then Tensor.binary op a b
  else Tensor.binary op (← typed a) (← typed b)

def dot (a b : Value) : Fallible Value := do
  match (← Tensor.ofValue a).shape, (← Tensor.ofValue b).shape with
  | [], _ | _, [] => numericOperator .mul a b
  | _, _ => Tensor.matrixProduct a b

def numericCall (name : String) (args : List Value) : Fallible Value :=
  match name, args with
  | "np.add", [a, b] => numericOperator .add a b
  | "np.subtract", [a, b] => numericOperator .sub a b
  | "np.multiply", [a, b] => numericOperator .mul a b
  | "np.divide", [a, b] => numericOperator .div a b
  | "np.dot", [a, b] => dot a b
  | "np.exp", [a] => Tensor.elementary Float.exp a
  | "np.log", [a] => Tensor.elementary Float.log a
  | "np.sum", [a] => Tensor.sum a
  | "np.arange", [a] =>
    match a.index? with
    | some n => .ok (.array (.int 64) [n.toNat] ((List.range n.toNat).map .nat))
    | none => .error .typeMismatch
  | _, _ => .error .typeMismatch

def call (name : String) (args : List Value) : Fallible Value :=
  if failures.contains name then .ok (.exception (.ofLabel name) args)
  else if name.startsWith "np." then numericCall name args
  else match name, args with
    | "abs", [v] => absolute v
    | "len", [v] => do pure (.nat (← v.size))
    | "max", vs => extreme false vs
    | "min", vs => extreme true vs
    | "repr", [v] => .ok (.str v.innerText)
    | "id", [_] => .ok (.int 0)
    | _, _ => construct name args

end DiffLang.Foreign
