import DiffLang.Session

/-!
# Commands

The commands of the debugger are given by short specifications. In `n:ext`, what stands before the
colon is enough to name the command, and every longer start of `next` will do; a semicolon divides
the names of one command, of which the first is its own.
-/

namespace DiffLang.Debugger

/-- A command: its own name, and the specification it comes from. -/
structure Command where
  name : String
  spec : String

abbrev Commands := List (String × Command)

def spellings (part : String) : Fallible (List String × String) :=
  match part.splitOn ":" with
  | [short, rest] =>
    .ok ((List.range (rest.length + 1)).map fun i => short ++ (rest.take i).toString, short ++ rest)
  | [name] => .ok ([name], name)
  | _ => .error .badValue

def Commands.add (spec : String) (commands : Commands) : Fallible Commands := do
  let parts ← (spec.splitOn ";").mapM spellings
  let name := match parts with
    | (_, full) :: _ => full
    | [] => spec
  let typed := parts.flatMap Prod.fst
  pure (typed.foldl (fun acc t => Session.put (· == ·) t { name, spec } acc) commands)

def Commands.ofSpecs (specs : List String) : Fallible Commands :=
  specs.foldlM (fun acc spec => acc.add spec) []

def specs : List String :=
  [":step", "n:ext", "c:ontinue", "u:p", "d:own", "v:ar;?", "t:op", "h:elp"]

end DiffLang.Debugger
