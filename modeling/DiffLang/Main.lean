import DiffLang.CommandLine.Evaluation
import DiffLang.Text.Excerpt

/-!
# The program

Reads the file that the command line names, carries the command line out, and prints what it gives.
-/

open DiffLang

/-- The text of the file that a command line needs, under its name. A file that cannot be read is
left out. -/
def readFiles (argv : List String) : IO (List (String × String)) := do
  match CommandLine.read argv with
  | .run _ a =>
    match CommandLine.neededFile a with
    | none => pure []
    | some name => try pure [(name, ← IO.FS.readFile name)] catch _ => pure []
  | _ => pure []

def main (argv : List String) : IO UInt32 := do
  let files ← readFiles argv
  let (outcome, session) :=
    Run.go (CommandLine.carryOutLine (.ofFiles files) argv) Engine.session
  IO.print session.printed
  match outcome with
  | .ok e =>
    unless e.complaint.isEmpty do IO.eprintln e.complaint
    pure (UInt32.ofNat e.code)
  | .error f =>
    match f.shown fun url => files.lookup url with
    | .ok text => IO.eprint text
    | .error _ => IO.eprintln f.kind.label
    pure 1
