import DiffLang.Report.Running
import DiffLang.Validation

/-!
# Reports on validation

Functions of modules and of texts are tested on arguments, and values are varied.
-/

namespace DiffLang.Report

/-- What is tested: an entry of a module, or the function of a text. -/
inductive Tested where
  | entry (m : Subject)
  | text (firstLine : Nat) (stmts : List Source.Stmt)

/-- A function to test: its name, how it runs as it was written, and the global names that its
arguments may refer to. -/
structure Target where
  lambda : TermId
  name : String
  asWritten : Value
  globals : Globals := []

def Tested.read : Tested → Run Target
  | .entry m => do
    let (globals, v) ← m.enter
    let name := match v with
      | .function _ n | .deferred _ n => n
      | v => v.text
    pure { lambda := ← readEntry v, name, asWritten := v, globals }
  | .text firstLine stmts => do
    let (id, _) ← readAll firstLine stmts
    let name := (← Program.refOf id).sym.stem
    let statement := stmts.headD (.other ⟨1, 0⟩ "")
    pure { lambda := id, name, asWritten := ← Program.addFunction { name, statement, url := textName } }

/-- Compiles what a test of a function needs. Without a known mode there is no test. -/
def Target.prepare (t : Target) : Option Validation.Mode → Run Validation.Prepared
  | none => throw .missingKey
  | some mode => Validation.prepare mode t.lambda t.name (Evaluation.run t.asWritten)

def validation (tested : Tested) (mode : Option Validation.Mode) (args : List (List Data)) :
    Run Data := do
  let target ← tested.read
  let prepared ← target.prepare mode
  let refs ← prepared.lambdas.mapM Program.refOf
  let results ← args.mapM fun ds => valueStep do
    prepared.test (← ds.mapM (argument target.globals))
  pure (.record [("lambdas", .texts (refs.map fun r => r.sym.text)), ("results", .list results)])

/-- The report of a test of a function on one list of arguments, which must not be empty. -/
def validationAt (tested : Tested) (mode : Option Validation.Mode) (args : List Data) :
    Run Data := do
  let target ← tested.read
  let prepared ← target.prepare mode
  if args.isEmpty then throw .missingAttribute
  value (← prepared.test (← args.mapM (argument target.globals)))

def variations (d delta : Data) : Run Data := do
  let v ← plainValue d
  let delta ← plainValue delta
  let paths ← v.paths.mapM fun p => value (.tuple p)
  let variants ← v.variablePaths.mapM fun p => do
    let ws ← Run.lift (v.variantsAt (Value.around delta) p)
    pure (Data.list [.list (← ws.mapM value), ← value (.tuple p)])
  pure (.record [("paths", .list paths), ("variants", .list variants)])

end DiffLang.Report
