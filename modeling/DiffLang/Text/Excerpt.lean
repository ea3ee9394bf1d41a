import DiffLang.Value.Access

/-!
# Excerpts

A place in a file is shown by the name of the file, the line it is on, and a mark under its
column. What the line and the mark have in common on their left is left out.
-/

namespace DiffLang.Excerpt

def isBlank (c : Char) : Bool := c == ' ' || c == '\t'

/-- The lines of a text. Each of the usual ends of a line ends one, and an end at the end of the
text starts no further line. -/
def lines (text : String) : List String :=
  let rec go : List Char → List Char → List String
    | [], [] => []
    | [], line => [String.ofList line.reverse]
    | '\r' :: '\n' :: rest, line => String.ofList line.reverse :: go rest []
    | '\r' :: rest, line => String.ofList line.reverse :: go rest []
    | '\n' :: rest, line => String.ofList line.reverse :: go rest []
    | c :: rest, line => go rest (c :: line)
  go text.toList []

/-- A line without anything but blanks is empty. -/
def normalized (line : String) : String :=
  if line.toList.all isBlank then "" else line

def indentOf (line : String) : Option (List Char) :=
  if line.toList.all isBlank then none else some (line.toList.takeWhile isBlank)

def commonStart : List Char → List Char → List Char
  | a :: as, b :: bs => if a == b then a :: commonStart as bs else []
  | _, _ => []

def margin (lines : List String) : List Char :=
  match lines.filterMap indentOf with
  | [] => []
  | first :: rest => rest.foldl commonStart first

def unindent (margin : List Char) (line : String) : String :=
  if margin.isPrefixOf line.toList then String.ofList (line.toList.drop margin.length) else line

/-- Lines without their common margin. -/
def dedent (lines : List String) : List String :=
  let lines := lines.map normalized
  lines.map (unindent (margin lines))

end DiffLang.Excerpt

namespace DiffLang

def placeText (url : String) (line column : Int) : String := s!"{url}@{line}:{column}"

/-- Shows a place in a file, given the text of the file. A line that is counted from the end is
found there; without the file, only the place itself is named. -/
def excerpt (url : String) (line column : Int) (text : Option String) : Fallible String := do
  let head := s!"  File \"{url}\", line {line}, column {column}"
  match text with
  | none => pure head
  | some text =>
    let lines := Excerpt.lines text
    let code := lines.getD (← Value.place lines.length (line - 1)) ""
    let caret := Decimal.repeated column.toNat ' ' ++ "^"
    pure (head ++ String.join ((Excerpt.dedent [code, caret]).map fun l => "\n    " ++ l))

/-- A failure as it is shown to the author of a program: what is wrong, and where, given the texts
of files. -/
def Failure.shown (f : Failure) (text : String → Option String) : Fallible String := do
  let head := match f.message with
    | some m => f.kind.label ++ ": " ++ m ++ "\n"
    | none => f.kind.label ++ "\n"
  match f.location with
  | none => pure head
  | some l => pure (head ++ (← excerpt l.url l.line l.column (text l.url)) ++ "\n")

end DiffLang
