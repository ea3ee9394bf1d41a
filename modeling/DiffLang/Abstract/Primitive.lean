import DiffLang.Primitive
import DiffLang.Types.Unification

/-!
# Operations on abstract values

The operations that can be computed with abstract values. Most of them compute on the values that
the arguments stand for: an error among the arguments is the result, and a result that depends on
something unknown is unknown. An operation that chooses by an unknown condition gives both of its
alternatives, as a fork. Beside them stand the operations that compute one property of a result
from that property of the arguments: the type from the types.
-/

namespace DiffLang.Abstract

def wrapped (e : Value) : Failure := { kind := .wrapped, args := [e], stated := true }

/-- How an operation treats its arguments and its result. -/
structure Lifting where
  strict : Bool := true
  wraps : Bool := true

def lifted (l : Lifting) (f : List Value → Run Value) (args : List Value) : Run Value := do
  if args.isEmpty then throw .badValue
  let limit := (← get).abstractDepth
  let depth := (args.map depthOf).foldl max 0
  match args.filterMap fun a => property? a Value.errorKey with
  | [e] => pure (ofError e)
  | e :: es => pure (ofError (.tuple (e :: es)))
  | [] =>
    let values := args.map unwrap
    let r ← if l.strict && values.any isUnknown then pure .any else f values
    if l.wraps then Run.lift (ofValue limit r (depth + 1)) else pure r

/-! ## Types -/

def typeOf : Nat → List Value → Run Value
  | 0, _ => throw .tooDeep
  | fuel + 1, args =>
    match args with
    | [.bool _] => pure (Types.plain "Bool")
    | [.float _] => pure (Types.plain "Float64")
    | [.int _] => pure (Types.plain "Int64")
    | [.tuple vs] => do
      pure (.type "Tuple" (some (← vs.mapM fun v => lifted {} (typeOf fuel) [v])))
    | [.array ..] => throw (.plain .name)
    | [v] => throw (wrapped (.exception .type [.str s!"Unknown data type: {v.sortText}"]))
    | _ => throw .typeMismatch

/-! ## Operations -/

def unary (f : Value → Run Value) : List Value → Run Value
  | [x] => f x
  | _ => throw .typeMismatch

def binary (f : Value → Value → Fallible Value) : List Value → Run Value
  | [x, y] => Run.lift (f x y)
  | _ => throw .typeMismatch

def shapeOf (v : Value) : Run Value :=
  match Primitive.shapeOf v with
  | .ok s => pure s
  | .error e => throw (wrapped e.toValue)

def choose : List Value → Run Value
  | [c, t, f] =>
    match c with
    | .bool b => pure (if b then t else f)
    | .any => pure (.fork [t, f])
    | c => throw (.because .type s!"Cannot switch on {c.text}")
  | _ => throw .typeMismatch

def strictOperations : List (String × (List Value → Run Value)) :=
  [("add", binary (Value.binary .add)),
   ("subtract", binary (Value.binary .sub)),
   ("dot", binary Primitive.product),
   ("index", binary Value.item),
   ("shape", unary shapeOf),
   ("greater", binary (Value.compareOrder false)),
   ("less", binary (Value.compareOrder true)),
   ("type", typeOf nesting),
   ("raise_exception", unary fun x => throw (wrapped x)),
   ("Exception", unary fun x => pure (.exception .exception [x])),
   ("print", unary Primitive.print),
   ("equal", binary Value.compareEq)]

def operations : List (String × (List Value → Run Value)) :=
  strictOperations.map (fun (name, f) => (name, lifted {} f)) ++
  [("identity", unary pure),
   ("mktuple", fun xs => pure (.tuple xs)),
   ("switch", lifted { strict := false, wraps := false } choose)]

def call (name : String) (args : List Value) : Run Value :=
  match operations.lookup name with
  | some f => f args
  | none => throw .missingKey

def isDefined (name : String) : Bool := (operations.lookup name).isSome

/-! ## Types of results -/

def typeKey : Value := .symbol (.builtin "type")

def anyType : Value := .logicVar "T"

def numberType : Value := .restrictedVar "Number" (Types.numbers.map Types.plain)

def arrayType : Value := .type "Array" (some [numberType])

def typeSignatures : List (String × List (List Value × Value)) :=
  let bool := Types.plain "Bool"
  let arrays := ([arrayType, arrayType], arrayType)
  let numbers := [([numberType, numberType], numberType), arrays]
  [("add", numbers), ("subtract", numbers), ("dot", [arrays]),
   ("equal", [([anyType, anyType], bool)]),
   ("less", [([numberType, numberType], bool)]),
   ("greater", [([numberType, numberType], bool)]),
   ("switch", [([bool, anyType, anyType], anyType)]),
   ("identity", [([anyType], anyType)])]

def typeOfArgument (v : Value) : Run Value := do
  match v with
  | .abstract parts _ =>
    match part? parts typeKey, part? parts Value.errorKey, part? parts Value.valueKey with
    | some t, _, _ => pure t
    | none, some e, _ => throw (.raising e)
    | none, none, some w => call "type" [w]
    | none, none, none => throw .missingKey
  | v =>
    let _ ← call "type" [v]
    throw .typeMismatch

/-- The first signature that types fit gives the type of the result. -/
def applySignatures (types : List Value) : List (List Value × Value) → Fallible (Option Value)
  | [] => .ok none
  | (ins, out) :: rest => do
    match ← Unification.unify (.list ins) (.tuple types) with
    | some s => pure (some (← Unification.reify s out))
    | none => applySignatures types rest

def resultType (op : String) (args : List Value) : Run Value := do
  let types ← args.mapM typeOfArgument
  match ← Run.lift (applySignatures types ((typeSignatures.lookup op).getD [])) with
  | some t => pure t
  | none => throw (wrapped (.exception .type [.str s!"Type error ({op})."]))

def itemType (v : Value) : Run Value :=
  match v with
  | .abstract parts _ =>
    match part? parts typeKey with
    | some t => pure t
    | none => call "type" [v]
  | _ => throw .missingAttribute

/-! ## Projectors -/

/-- What computes a property of the result of an operation: an operation, or a function of the
prelude. -/
inductive Projector where
  | primitive (label : String)
  | function (name : String)

def shaped : List String := ["identity", "add", "subtract", "dot", "greater", "less", "switch"]

def projector? (property op : String) : Option Projector :=
  match property with
  | "type" =>
    if op = "mktuple" then some (.primitive "proj_mktuple")
    else if (typeSignatures.lookup op).isSome then some (.primitive "check_type")
    else none
  | "shape" =>
    if op = "mktuple" then some (.primitive "proj_mktuple")
    else if shaped.contains op then some (.function s!"proj_{op}")
    else none
  | _ => none

def project (property op : String) (args : List Value) : Run Value :=
  match property, op with
  | "type", "mktuple" => do pure (.type "Tuple" (some (← args.mapM itemType)))
  | "type", op => resultType op args
  | _, _ => throw (wrapped (.exception .exception [.str "Tuples have no shape."]))

end DiffLang.Abstract
