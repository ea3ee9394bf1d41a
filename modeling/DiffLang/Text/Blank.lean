/-!
# Blanks

The characters that separate words, and texts without blanks around them.
-/

namespace DiffLang.Blank

def ranges : List (Nat × Nat) :=
  [(0x09, 0x0D), (0x1C, 0x20), (0x85, 0x85), (0xA0, 0xA0), (0x1680, 0x1680), (0x2000, 0x200A),
   (0x2028, 0x2029), (0x202F, 0x202F), (0x205F, 0x205F), (0x3000, 0x3000)]

def isBlank (c : Char) : Bool := ranges.any fun (lo, hi) => lo ≤ c.toNat && c.toNat ≤ hi

def trimChars (cs : List Char) : List Char :=
  ((cs.dropWhile isBlank).reverse.dropWhile isBlank).reverse

def trim (s : String) : String := String.ofList (trimChars s.toList)

/-- Whether a character belongs to a word: a letter, a digit or an underscore. Characters beyond
the first 127 count as letters unless they are blanks. -/
def inWord (c : Char) : Bool :=
  c.isAlphanum || c == '_' || (c.toNat > 127 && !isBlank c)

def digits? : List Char → Option (List Char)
  | [c] => if c.isDigit then some [c] else none
  | c :: '_' :: rest => if c.isDigit then (digits? rest).map (c :: ·) else none
  | c :: rest => if c.isDigit then (digits? rest).map (c :: ·) else none
  | [] => none

def digitsValue (ds : List Char) : Nat :=
  ds.foldl (fun n c => 10 * n + (c.toNat - '0'.toNat)) 0

def wholeNumber? (s : String) : Option Int :=
  match trimChars s.toList with
  | '-' :: rest => (digits? rest).map fun ds => -(digitsValue ds : Int)
  | '+' :: rest => (digits? rest).map fun ds => (digitsValue ds : Int)
  | cs => (digits? cs).map fun ds => (digitsValue ds : Int)

end DiffLang.Blank
