/-!
# Data

A tree of plain data, in which the compiler reports what it made: terms, graphs, code, values. A
report has a canonical text, by which reports can be compared and put in order.
-/

namespace DiffLang

inductive Data where
  | null
  | bool (b : Bool)
  | int (n : Int)
  | text (s : String)
  | list (items : List Data)
  | record (fields : List (String × Data))
deriving Inhabited

namespace Data

def nat (n : Nat) : Data := .int n

def texts (ss : List String) : Data := .list (ss.map .text)

def option : Option Data → Data
  | none => .null
  | some d => d

/-! ## Parts -/

def field? (d : Data) (name : String) : Option Data :=
  match d with
  | .record fields => fields.lookup name
  | _ => none

def field (d : Data) (name : String) : Data := (d.field? name).getD .null

def has (d : Data) (name : String) : Bool := (d.field? name).isSome

def items : Data → List Data
  | .list ds => ds
  | _ => []

def fields : Data → List (String × Data)
  | .record fs => fs
  | _ => []

def asText : Data → String
  | .text s => s
  | _ => ""

def asInt : Data → Int
  | .int n => n
  | _ => 0

def asNat (d : Data) : Nat := d.asInt.toNat

def asBool : Data → Bool
  | .bool b => b
  | _ => false

def isNull : Data → Bool
  | .null => true
  | _ => false

mutual

def depth : Data → Nat
  | .list ds => depths ds + 1
  | .record fs => fieldDepths fs + 1
  | _ => 1

def depths : List Data → Nat
  | [] => 0
  | d :: ds => max (depth d) (depths ds)

def fieldDepths : List (String × Data) → Nat
  | [] => 0
  | (_, d) :: rest => max (depth d) (fieldDepths rest)

end

/-! ## Text -/

def fourDigits (n : Nat) : String :=
  let ds := Nat.toDigits 16 n
  String.ofList (List.replicate (4 - ds.length) '0' ++ ds)

/-- A character of a quoted text. With `ascii`, a character beyond the first 127 is written by its
code, in two halves if it needs more than sixteen bits. -/
def quotedChar (ascii : Bool) (c : Char) : String :=
  if c == '"' then "\\\""
  else if c == '\\' then "\\\\"
  else if c == '\n' then "\\n"
  else if c == '\r' then "\\r"
  else if c == '\t' then "\\t"
  else if c == '\x08' then "\\b"
  else if c == '\x0c' then "\\f"
  else if c.toNat < 32 then "\\u" ++ fourDigits c.toNat
  else if ascii && c.toNat ≥ 127 then
    if c.toNat = 127 then c.toString
    else if c.toNat < 0x10000 then "\\u" ++ fourDigits c.toNat
    else
      let n := c.toNat - 0x10000
      "\\u" ++ fourDigits (0xD800 + n / 1024) ++ "\\u" ++ fourDigits (0xDC00 + n % 1024)
  else c.toString

def quoted (ascii : Bool) (s : String) : String :=
  "\"" ++ String.join (s.toList.map (quotedChar ascii)) ++ "\""

mutual

def write (ascii : Bool) : Data → String
  | .null => "null"
  | .bool b => if b then "true" else "false"
  | .int n => toString n
  | .text s => quoted ascii s
  | .list items => "[" ++ ", ".intercalate (writes ascii items) ++ "]"
  | .record fields => "\x7b" ++ ", ".intercalate (writeFields ascii fields) ++ "\x7d"

def writes (ascii : Bool) : List Data → List String
  | [] => []
  | d :: ds => write ascii d :: writes ascii ds

def writeFields (ascii : Bool) : List (String × Data) → List String
  | [] => []
  | (k, d) :: rest => (quoted ascii k ++ ": " ++ write ascii d) :: writeFields ascii rest

end

/-- The reports in the order of their texts. -/
def sort (ds : List Data) : List Data :=
  ((ds.map fun d => (d.write false, d)).mergeSort fun a b => a.1 ≤ b.1).map (·.2)

/-- The reports in the order of their texts, each text once. -/
def sortUnique (ds : List Data) : List Data :=
  let sorted := (ds.map fun d => (d.write false, d)).mergeSort fun a b => a.1 ≤ b.1
  (sorted.foldr (fun a kept =>
    match kept with
    | b :: _ => if a.1 = b.1 then kept else a :: kept
    | [] => [a]) []).map (·.2)

end Data

end DiffLang
