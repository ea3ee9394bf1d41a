import DiffLang.Value.Access

/-!
# Types of values

The types that the analyses work with: numbers by kind and width, arrays by their elements,
tuples by their parts.
-/

namespace DiffLang.Types

def plain (name : String) : Value := .type name none

def numbers : List String :=
  ["Float32", "Float64", "Int8", "Int16", "Int32", "Int64", "UInt8", "UInt16", "UInt32",
   "UInt64"]

def isNumber : Value → Bool
  | .type n none => numbers.contains n
  | _ => false

/-- The type of the elements of an array, if it has one. Unsigned numbers count as signed. -/
def ofElement : ElementType → Value
  | .float 32 => plain "Float32"
  | .float 64 => plain "Float64"
  | .int b | .uint b => if [8, 16, 32, 64].contains b then plain s!"Int{b}" else .none
  | _ => .none

mutual

def typeOf : Value → Fallible Value
  | .bool _ => .ok (plain "Bool")
  | .float _ => .ok (plain "Float64")
  | .int _ => .ok (plain "Int64")
  | .tuple vs => do pure (.type "Tuple" (some (← typesOf vs)))
  | .array e _ _ => .ok (.type "Array" (some [ofElement e]))
  | v => .error (.because .type s!"Unknown data type: {v.sortText}")

def typesOf : List Value → Fallible (List Value)
  | [] => .ok []
  | v :: vs => do pure ((← typeOf v) :: (← typesOf vs))

end

end DiffLang.Types
