import DiffLang.Report.Reading
import DiffLang.Text.Excerpt

/-!
# Reports on places

How places in files are shown, which place a failure gets that is found while something else is
worked on, and how a failure to read a program is shown to its author.
-/

namespace DiffLang.Report

def place (url : String) (line column : Int) (text : Option String) : Run Data := do
  let shown ← Run.lift (excerpt url line column text)
  pure (.texts [shown, placeText url line column])

/-- What is being worked on: something without a place, a place, or something that comes from
something else. -/
inductive Topic where
  | nowhere
  | place (line column : Nat)
  | derived (source : Topic)
deriving Inhabited

def Topic.origin : Topic → Option (Nat × Nat)
  | .nowhere => none
  | .place line column => some (line, column)
  | .derived t => t.origin

/-- A failure that is found while working on nested topics, given from the outermost one on: its
place is that of the innermost. -/
def failureAbout (topics : List Topic) : Run Data :=
  match topics.getLast? with
  | none => throw (.plain .unboundLocal)
  | some t =>
    let location := t.origin.map fun (line, column) => { url := "", line, column }
    let f : Failure := { Failure.because .syntaxError "here" with location }
    pure (.list [ofFailure f, .text "t1"])

/-- What is shown of a program, given with its text, that cannot be read: what is wrong with it, and
where. -/
def readingFailure (url : String) (stmts : List Source.Stmt) (text : String) : Run Data := do
  match ← Run.attempt (readAll 1 stmts) with
  | .ok _ => pure .null
  | .error f =>
    if f.kind ≠ .syntaxError then throw f
    let location := f.location.map fun l => { l with url }
    pure (.text (← Run.lift ({ f with location }.shown fun _ => text)))

end DiffLang.Report
