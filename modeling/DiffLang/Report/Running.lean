import DiffLang.Module
import DiffLang.Report.Reading

/-!
# Reports on running programs

A module is loaded, one of its names is compiled in one of several ways, and what comes out is
called.
-/

namespace DiffLang.Report

/-! ## Entries -/

/-- A module and the name in it that a report is about. -/
structure Subject where
  stmts : List Source.Stmt
  entry : String
  imports : List String := []
  globals : List (String × Data) := []
  numeric : Bool := false

def Subject.load (m : Subject) : Run Globals := do
  modify fun s => { s with numericNames := m.numeric }
  let s ← get
  let names := m.imports.map (Module.imported s)
  let given ← m.globals.mapM fun (k, d) => do pure (k, ← plainValue d)
  Module.load textName (names ++ given) m.stmts

def Subject.enter (m : Subject) : Run (Globals × Value) := do
  let globals ← m.load
  match globals.lookup m.entry with
  | some v => pure (globals, v)
  | none => throw .missingKey

def readEntry (v : Value) : Run TermId := do
  match v with
  | .function f _ =>
    match ← Program.readFunction f with
    | .lambda id => pure id
    | _ => throw .broken
  | _ => throw .typeMismatch

variable (globals : Globals)

def argument (d : Data) : Run Value :=
  Run.lift (Value.ofData (fun name => match globals.lookup name with
    | some v => .ok v
    | none => .error .missingKey) d)

/-! ## Calls -/

inductive Follow where
  | call (args : List Data)
  | index (i : Data)
  | member (name : String)

structure Call where
  args : List Data
  follow : Option (List Follow) := none

def Follow.run (v : Value) : Follow → Run Value
  | .call args => do Engine.top.call v (← args.mapM (argument globals))
  | .index i => do Run.lift (v.item (← argument globals i))
  | .member name => Run.lift (v.member name)

def followAll (v : Value) : List Follow → Run (List Data)
  | [] => pure []
  | f :: fs => do
    match ← Run.attempt (f.run globals v) with
    | .ok w =>
      let d ← value w
      pure (d :: (← followAll w fs))
    | .error e => pure [ofFailure e]

def Call.report (fn : Value) (c : Call) : Run Data := step do
  let args ← c.args.mapM (argument globals)
  let v ← Engine.top.call fn args
  let d ← value v
  match c.follow with
  | none => pure (.record [("value", d)])
  | some fs => pure (.record [("value", d), ("then", .list (← followAll globals v fs))])

/-! ## Ways of compiling -/

inductive Way where
  | compiled
  | deferred (rules : Option (List Graph.Rule))
  | direct (runnable : Bool)

def directEnv (runnable : Bool := true) : Run Nat :=
  Direct.new { bank := .standard, runnable, viaGraph := !runnable }

def Way.prepare (v : Value) : Way → Run Value
  | .compiled => Engine.top.get (.stage Stage.standard.exported) v
  | .deferred rules =>
    Module.defer v (match rules with
      | none => Stage.standardPasses
      | some rs => [.equilibrium rs])
  | .direct runnable => do
    let id ← readEntry v
    let env ← directEnv runnable
    Engine.top.get (.environment env) (.lambda id)

def calls (m : Subject) (way : Way) (cs : List Call) : Run Data := do
  let (globals, v) ← m.enter
  let fn ← way.prepare v
  pure (.list (← cs.mapM fun c => c.report globals fn))

/-! ## Gradients -/

/-- A call of an augmented function, and the sensitivities to give back. -/
structure BackCall where
  args : List Data
  sensitivities : List Data

def functionOf : Value → Fallible Value
  | .closure f _ => .ok f
  | _ => .error .missingAttribute

def BackCall.report (fn : Value) (c : BackCall) : Run Data := step do
  let args ← c.args.mapM (argument globals)
  let r ← Engine.top.call fn args
  match ← Run.lift r.walk with
  | [v, back] =>
    let d ← value v
    let b ← value (← Run.lift (functionOf back))
    let grads ← c.sensitivities.mapM fun s => valueStep do
      Engine.top.call back [← argument globals s]
    pure (.record [("value", d), ("bprop", b), ("grads", .list grads)])
  | _ => throw .badValue

def backCalls (m : Subject) (cs : List BackCall) : Run Data := do
  let (globals, v) ← m.enter
  let id ← readEntry v
  let g ← Gradient.ofLambda id
  let fn ← Engine.top.get (.stage Stage.standard.exported) (.lambda g)
  pure (.list (← cs.mapM fun c => c.report globals fn))

end DiffLang.Report
