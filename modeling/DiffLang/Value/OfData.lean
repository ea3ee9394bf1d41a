import DiffLang.Abstract
import DiffLang.Data
import DiffLang.Operation

/-!
# Values from data

Values written as data, the way reports write them. A record whose only purpose is to name
something defined elsewhere is looked up.
-/

namespace DiffLang.Value

def elementType (name : String) : ElementType :=
  let known : List ElementType :=
    [.bool, .int 8, .int 16, .int 32, .int 64, .uint 8, .uint 16, .uint 32, .uint 64,
     .float 16, .float 32, .float 64, .object]
  (known.find? fun t => t.name = name).getD (.other name)

def compoundTypes : List String := ["Array", "List", "Tuple", "Record"]

def keyOf (name : String) : Value :=
  match name with
  | "VALUE" | "ERROR" => .marker name
  | _ => .symbol (.builtin name)

def elementOf (t : ElementType) (d : Data) (v : Value) : Value :=
  match t, d with
  | .float _, .text s => .float (Decimal.read s)
  | _, _ => v

def ofRecord (ref : String → Fallible Value) (read : Data → Fallible Value) (d : Data) :
    Fallible Value :=
  let reads (d : Data) : Fallible (List Value) := d.items.mapM read
  let pairs (d : Data) : Fallible (List (Value × Value)) := d.items.mapM fun p =>
    match p.items with
    | [a, b] => do pure (← read a, ← read b)
    | _ => .error .badValue
  let arm (d : Data) : String := match d.fields.find? fun (k, _) =>
      ["f", "int", "t", "l", "nd", "np", "slice", "zero", "any", "rec", "closure", "prim", "type",
       "av", "exc", "wrapped", "sym", "var", "rvar", "fvar", "notest", "dict", "set", "atom",
       "valnode", "ref"].contains k with
    | some (k, _) => k
    | Option.none => ""
  let kind := arm d
  let x := d.field kind
  match kind with
  | "f" => .ok (.float (Decimal.read x.asText))
  | "int" => .ok (.int (x.asText.toInt?.getD 0))
  | "t" => do pure (.tuple (← reads x))
  | "l" => do pure (.list (← reads x))
  | "nd" => do
    let t := elementType x.asText
    let data ← (d.field "data").items.mapM fun e => do pure (elementOf t e (← read e))
    pure (.array t ((d.field "shape").items.map Data.asNat) data)
  | "np" => do
    let t := elementType x.asText
    let v := d.field "v"
    pure (.scalar t (elementOf t v (← read v)))
  | "slice" => do
    match ← reads x with
    | [a, b, c] => pure (.slice a b c)
    | _ => throw .badValue
  | "zero" => .ok .zero
  | "any" => .ok .any
  | "rec" => do pure (.record x.asText (← pairs (d.field "fields")))
  | "closure" => do pure (.closure (← read x) (← reads (d.field "args")))
  | "prim" => .ok (.prim .standard (.builtin (Operation.ofName x.asText)) Option.none)
  | "type" => do
    let elements ← (x.items.drop 1).mapM fun e =>
      match e with
      | .list es => read (.record [("type", .list es)])
      | e => read e
    let name := (x.items.headD .null).asText
    pure (.type name (if elements.isEmpty && !compoundTypes.contains name then Option.none
      else some elements))
  | "av" => do
    let parts ← x.items.mapM fun p =>
      match p.items with
      | [k, v] => do pure (keyOf k.asText, ← read v)
      | _ => .error .badValue
    Abstract.limited Abstract.usualLimit parts (d.field "depth").asNat
  | "exc" =>
    let kind := Kind.ofLabel x.asText
    let args := if (d.field "msg").isNull then [] else [.str (d.field "msg").asText]
    -- The end of an iteration is not an error, and cannot be given.
    if kind = .stop then .error .missingKey else .ok (.exception kind args)
  | "wrapped" => do pure (.wrapped (← read x))
  | "sym" => .ok (.symbol (.builtin (Operation.ofName x.asText)))
  | "var" => .ok (.logicVar x.asText)
  | "rvar" => do pure (.restrictedVar x.asText (← reads (d.field "legal")))
  | "fvar" => .ok (.filteredVar x.asText (d.field "kind").asText)
  | "notest" => do pure (.untested (← read x))
  | "dict" => do pure (.dict (← pairs x))
  | "set" => do pure (.set (← reads x))
  | "atom" => .ok (.atom x.asText)
  | "valnode" => do pure (.literal (← read x))
  | "ref" => ref x.asText
  | _ => .error .badValue

def ofDataWithin (ref : String → Fallible Value) : Nat → Data → Fallible Value
  | 0, _ => .error .tooDeep
  | fuel + 1, d =>
    match d with
    | .null => .ok .none
    | .bool b => .ok (.bool b)
    | .int n => .ok (.int n)
    | .text s => .ok (.str s)
    | .list ds => do pure (.list (← ds.mapM (ofDataWithin ref fuel)))
    | .record fs => ofRecord ref (ofDataWithin ref fuel) (.record fs)

def ofData (ref : String → Fallible Value) (d : Data) : Fallible Value :=
  ofDataWithin ref (d.depth + 1) d

def ofPlainData (d : Data) : Fallible Value := ofData (fun _ => .error .missingKey) d

end DiffLang.Value
