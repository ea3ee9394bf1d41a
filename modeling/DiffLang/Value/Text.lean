import DiffLang.Decimal
import DiffLang.Failure
import DiffLang.Foreign
import DiffLang.Text.Quoted

/-!
# The text of values

Every value has two texts. The one inside other values quotes strings and tells single numbers of
an array from plain ones; the one a program prints does neither.
-/

namespace DiffLang.Value

open Decimal

/-! ## Names of sorts -/

def sortPath : Value → String × String
  | .none => ("", "NoneType")
  | .bool _ => ("", "bool")
  | .int _ => ("", "int")
  | .float _ => ("", "float")
  | .complex .. => ("", "complex")
  | .str _ => ("", "str")
  | .tuple _ => ("", "tuple")
  | .list _ => ("", "list")
  | .dict _ => ("", "dict")
  | .set _ => ("", "set")
  | .slice .. => ("", "slice")
  | .array .. => ("numpy.", "ndarray")
  | .scalar e _ => ("numpy.", e.name)
  | .zero => ("myia.lib.", "ZERO")
  | .any => ("myia.lib.", "ANY")
  | .marker "VALUE" => ("myia.lib.", "VALUE")
  | .marker "ERROR" => ("myia.lib.", "ERROR")
  | .marker n => ("myia.ir.graph.", n)
  | .atom _ => ("myia.lib.", "Atom")
  | .record .. => ("myia.lib.", "Record")
  | .closure .. => ("myia.lib.", "Closure")
  | .prim _ _ (some (.stage _)) => ("myia.interpret.vmutil.", "VMPrimitive")
  | .prim _ _ (some (.environment _)) => ("myia.legacy_interpret.vmutil.", "VMPrimitive")
  | .prim _ _ Option.none => ("myia.lib.", "Primitive")
  | .type .. => ("myia.inference.types.", "Type")
  | .abstract .. => ("myia.inference.avm.", "AbstractValue")
  | .fork _ => ("myia.inference.avm.", "Fork")
  | .exception k _ => ("", k.label)
  | .wrapped _ => ("myia.inference.avm.", "WrappedException")
  | .symbol _ => ("myia.stx.nodes.", "Symbol")
  | .logicVar _ => ("unification.variable.", "Var")
  | .restrictedVar .. => ("myia.inference.types.", "RestrictedVar")
  | .filteredVar .. => ("myia.inference.types.", "FilterVar")
  | .untested _ => ("myia.validate.", "NoTestGrad")
  | .literal _ => ("myia.stx.nodes.", "ValueNode")
  | .lambda _ => ("myia.stx.nodes.", "LambdaNode")
  | .graph .. => ("myia.ir.graph.", "IRGraph")
  | .function .. => ("", "function")
  | .deferred .. => ("myia.front.", "MyiaFunction")
  | .foreign n => ("", if Foreign.isSort n then "type" else "builtin_function_or_method")
  | .machine .. => ("myia.interpret.vmutil.", "VMFunction")
  | .exported .. => ("myia.front.", "CallableVMFunction")
  | .direct .. => ("myia.legacy_interpret.vmutil.", "Function")
  | .term k _ => ("myia.stx.nodes.", k)
  | .thing l => ("", l)

def sortName (v : Value) : String := v.sortPath.2

def sortText (v : Value) : String :=
  let (path, name) := v.sortPath
  s!"<class '{path}{name}'>"

/-! ## Arrays -/

def padLeft (width : Nat) (s : String) : String :=
  repeated (width - s.length) ' ' ++ s

def padRight (width : Nat) (s : String) : String :=
  s ++ repeated (width - s.length) ' '

/-- Whole part and at most eight decimals of a number, in as few digits as read back. -/
def shortParts (x : Float) : String × String :=
  let sign := if isNegative x then "-" else ""
  if x == 0 then (sign ++ "0", "")
  else
    let d := shortest .double x
    let d := if d.exponent < -8 then
        let (m, q) := parts x
        let (num, den) := fraction m q
        trim 20 ⟨roundDiv (num * Nat.pow 10 8) den, -8⟩
      else d
    let text := d.positional
    match text.splitOn "." with
    | [a, "0"] => (sign ++ a, "")
    | [a, b] => (sign ++ a, b)
    | _ => (sign ++ text, "")

def floatCells (xs : List Float) : List String :=
  let finite := xs.filter fun x => special? x = Option.none
  let sizes := (finite.filter (· != 0)).map Float.abs
  let big := sizes.foldl max 0
  let small := sizes.foldl min big
  if big ≥ 1e8 || (!sizes.isEmpty && (small < 0.0001 || big / small > 1000)) then
    let cells := xs.map fun x =>
      match special? x with
      | some t => t
      | Option.none =>
        let sign := if isNegative x then "-" else ""
        if x == 0 then sign ++ "0.e+00"
        else
          let d := shortest .double x
          let (m, q) := parts x
          let (num, den) := fraction m q
          let d := if d.digitText.length > 9 then trim 20 (significant num den 9) else d
          let t := d.scientific
          match t.splitOn "e" with
          | [a, b] => sign ++ (if a.length = 1 then a ++ "." else a) ++ "e" ++ b
          | _ => sign ++ t
    let decimals (c : String) : Nat :=
      match (c.splitOn "e").headD "" |>.splitOn "." with
      | [_, b] => b.length
      | _ => 0
    let most := (cells.map decimals).foldl max 0
    let cells := cells.map fun c =>
      match c.splitOn "e" with
      | [a, b] => a ++ repeated (most - decimals c) '0' ++ "e" ++ b
      | _ => c
    let width := (cells.map String.length).foldl max 0
    cells.map (padLeft width)
  else
    let parts := xs.map fun x =>
      match special? x with
      | some t => (t, Option.none)
      | Option.none => let (a, b) := shortParts x; (a, some b)
    let right := (parts.map fun p => (p.2.getD "").length).foldl max 0
    let left := (parts.map fun p =>
      match p.2 with
      | some _ => p.1.length
      | Option.none => p.1.length - (right + 1)).foldl max 0
    parts.map fun p =>
      match p.2 with
      | some b => padLeft left p.1 ++ "." ++ padRight right b
      | Option.none => padLeft (left + 1 + right) p.1

/-- Nests a row-major list of texts by the shape, rows of the last axis on one line. -/
def nestCells (separator : String) (indent : Nat) : List Nat → List String → String
  | [], cells => String.join cells
  | [_], cells => "[" ++ separator.intercalate cells ++ "]"
  | n :: rest, cells =>
    let step := rest.foldl (· * ·) 1
    let rows := (List.range n).map fun i =>
      nestCells separator (indent + 1) rest ((cells.drop (i * step)).take step)
    let glue := separator.trimAsciiEnd.toString ++ repeated rest.length '\n' ++
      repeated (indent + 1) ' '
    "[" ++ glue.intercalate rows ++ "]"

/-- A number without `.0` at its end. -/
def bareText (x : Float) : String :=
  let t := text x
  if t.endsWith ".0" then (t.dropEnd 2).toString else t

/-- A complex number: its imaginary part alone, unless there is a real part or that is `-0.0`. -/
def complexText (re im : Float) : String :=
  if re == 0 && !isNegative re then bareText im ++ "j"
  else
    let sign := if isNegative im then "" else "+"
    s!"({bareText re}{sign}{bareText im}j)"

def enclosed (before after : String) (items : List String) : String :=
  before ++ ", ".intercalate items ++ after

/-- A parenthesised list; a single item is followed by a comma. -/
def tupleText : List String → String
  | [one] => s!"({one},)"
  | many => enclosed "(" ")" many

def braced (items : List String) : String := enclosed "\x7b" "\x7d" items

def arrayText (separator : String) (indent : Nat) (e : ElementType) (shape : List Nat)
    (data : List Value) (texts : List String) : String :=
  let cells := match e with
    | .float _ => floatCells (data.map fun
        | .float x => x
        | _ => 0)
    | _ =>
      let width := (texts.map String.length).foldl max 0
      texts.map (padLeft width)
  if shape = [] then String.join (cells.map fun c => c.trimAscii.toString)
  else nestCells separator indent shape cells

mutual

/-- The text of a value; `inner` is set for a value inside another one. -/
def render (inner : Bool) : Value → String
  | .none => "None"
  | .bool b => if b then "True" else "False"
  | .int n => toString n
  | .float x => text x
  | .complex re im => complexText re im
  | .str s => if inner then Text.quoted s else s
  | .tuple items => tupleText (renders true items)
  | .list items => enclosed "[" "]" (renders true items)
  | .dict items => braced (renderPairs ": " items)
  | .set [] => "set()"
  | .set items => braced (renders true items)
  | .slice a b c => s!"slice({render true a}, {render true b}, {render true c})"
  | .array e shape data =>
    if inner then "array(" ++ arrayText ", " 6 e shape data (renders true data) ++ ")"
    else arrayText " " 0 e shape data (renders true data)
  | .scalar e v => if inner then s!"np.{e.name}({render true v})" else render false v
  | .zero => "ZERO"
  | .any => "ANY"
  | .marker n | .atom n => n
  | .record tag fields => tag ++ enclosed "(" ")" (renderFields fields)
  | .closure fn args => s!"Clos({render false fn}, {tupleText (renders true args)})"
  | .prim (.projector _ l) _ _ => s!"Prim({l})"
  | .prim _ s _ => s!"Prim({s.text})"
  | .type name Option.none | .type name (some []) => name
  | .type name (some es) => name ++ enclosed "[" "]" (renders false es)
  | .abstract parts _ => braced (renderPairs ": " parts)
  | .fork paths =>
    if inner then "<Fork object at 0x0>"
    else enclosed "Fork(" ")" (renders false paths)
  | .exception k args =>
    if inner then k.label ++ enclosed "(" ")" (renders true args)
    else match k, args with
      | _, [] => ""
      | .key, [a] => render true a
      | _, [a] => render false a
      | _, many => tupleText (renders true many)
  | .wrapped e => if inner then s!"WrappedException({render true e})" else render false e
  | .symbol s => s.text
  | .logicVar n | .restrictedVar n _ | .filteredVar n _ => "~" ++ n
  | .untested _ => "<NoTestGrad object at 0x0>"
  | .literal v => render true v
  | .lambda _ => "<LambdaNode object at 0x0>"
  | .graph .. => "<IRGraph object at 0x0>"
  | .function _ n => s!"<function {n} at 0x0>"
  | .deferred .. => "<MyiaFunction object at 0x0>"
  | .foreign n => if Foreign.isSort n then s!"<class '{n}'>" else s!"<built-in function {n}>"
  | .machine _ _ tag => s!"VMFunc({tag.text})"
  | .exported .. => "<CallableVMFunction object at 0x0>"
  | .direct _ _ ref => s!"Func({ref.text})"
  | .term _ t => t
  | .thing l => s!"<{l} object at 0x0>"

def renders (inner : Bool) : List Value → List String
  | [] => []
  | v :: vs => render inner v :: renders inner vs

def renderPairs (separator : String) : List (Value × Value) → List String
  | [] => []
  | (k, v) :: rest => (render true k ++ separator ++ render true v) :: renderPairs separator rest

def renderFields : List (Value × Value) → List String
  | [] => []
  | (k, v) :: rest => (render false k ++ "=" ++ render true v) :: renderFields rest

end

def text (v : Value) : String := v.render false

def innerText (v : Value) : String := v.render true

end DiffLang.Value

namespace DiffLang

def Failure.message (f : Failure) : Option String :=
  match f.stated, f.args with
  | false, _ => none
  | true, [a] => some a.text
  | true, _ => some f.toValue.text

end DiffLang
