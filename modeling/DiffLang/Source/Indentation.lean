import DiffLang.Source.Token

/-!
# Indentation

A text that cannot be parsed is at fault in its indentation or in its grammar. Its blocks fit if
one opens after every line that ends with a colon, and nowhere else. A line that goes back to a
column where no block started opens one there, so it does not fit either.
-/

namespace DiffLang.Source

inductive Fault where
  | indentation
  | grammar

def Fault.name : Fault → String
  | .indentation => "IndentationError"
  | .grammar => "SyntaxError"

/-- Whether the blocks of a text fit. `announced` says that the line before ended with a colon. -/
def blocksFit (announced : Bool) : List Token → Bool
  | [] => !announced
  | .indent :: ts => announced && blocksFit false ts
  | .op ":" :: .newline :: ts => !announced && blocksFit true ts
  | _ :: ts => !announced && blocksFit false ts

def openBrackets (ts : List Token) : Int :=
  ts.foldl (fun n => fun
    | .op "(" | .op "[" | .op "\x7b" => n + 1
    | .op ")" | .op "]" | .op "\x7d" => n - 1
    | _ => n) 0

/-- What is wrong with a text that is no program. With brackets left open there are no blocks to
speak of. -/
def fault (text : String) : Fault :=
  let ts := (tokens text).map Placed.token
  if openBrackets ts ≠ 0 || blocksFit false ts then .grammar else .indentation

end DiffLang.Source
