import DiffLang.Source.Evaluation

/-!
# Modules

A module is a text of definitions: functions, constants, and other names for them. Loading it gives
its global names, which its functions can refer to. Functions are not read before they are needed.
-/

namespace DiffLang.Module

open Session Source

/-! ## Names from elsewhere -/

def deferring : Value := .foreign "front.deferred"

def compiling : Value := .foreign "front.compile"

/-- What a module gets under a name that it asks for: operations, the tag of records, the
compiler's own functions, and functions of the numeric library, whose names have a first part. -/
def imported (s : Session) (name : String) : String × Value :=
  match name.splitOn "." with
  | ["np", f] => (f, .foreign name)
  | _ =>
    if name = "record" then (name, .atom "record")
    else if name = "myia" then (name, deferring)
    else if name = "compile" then (name, compiling)
    else if ["grad1", "grad2", "grad3"].contains name then
      (name, (Library.function? s Prelude.gradientsUrl name).getD .none)
    else (name, Library.primitive (Operation.ofName name))

/-! ## Definitions -/

def defer (fn : Value) (passes : List Pass := Stage.standardPasses) : Run Value :=
  let name := match fn with
    | .function _ n => n
    | _ => ""
  modifyGet fun s =>
    (.deferred s.deferred.size name, { s with deferred := s.deferred.push { fn, passes } })

def applyValue (fn : Value) (args : List Value) : Run Value :=
  match fn, args with
  | .foreign "front.deferred", [f] => defer f
  | .foreign "front.compile", [f] => Engine.top.get (.stage Stage.standard.exported) f
  | f, args => Engine.top.call f args

variable (url : String)

mutual

def evaluate (whole : Stmt) (globals : Globals) : Expr → Run Value
  | .name _ id =>
    match globals.lookup id with
    | some v => pure v
    | none => if Foreign.isName id then pure (.foreign id) else throw (.plain .name)
  | .constant _ v => pure v
  | .tuple _ items => do pure (.tuple (← evaluateAll whole globals items))
  | .lambda .. => Program.addFunction { name := "<lambda>", statement := whole, url }
  | .call _ fn args _ => do
    applyValue (← evaluate whole globals fn) (← evaluateAll whole globals args)
  | .unary _ "USub" e => do Run.lift (Value.negative (← evaluate whole globals e))
  | .binary _ op a b => do
    let x ← evaluate whole globals a
    let y ← evaluate whole globals b
    match Evaluation.operators.lookup op with
    | some op => Run.lift (Value.binary op x y)
    | none => throw .typeMismatch
  | .subscript _ e i => do
    Run.lift ((← evaluate whole globals e).item (← evaluate whole globals i))
  | .attribute _ e name => do Run.lift ((← evaluate whole globals e).member name)
  | _ => throw .typeMismatch

def evaluateAll (whole : Stmt) (globals : Globals) : List Expr → Run (List Value)
  | [] => pure []
  | e :: es => do pure ((← evaluate whole globals e) :: (← evaluateAll whole globals es))

end

mutual

def assign (globals : Globals) : Expr → Value → Run Globals
  | .name _ id, v => pure (put (· == ·) id v globals)
  | .tuple _ targets, v => do
    let items ← Run.lift v.walk
    if items.length ≠ targets.length then throw .badValue
    assignAll globals targets items
  | _, _ => throw .typeMismatch

def assignAll (globals : Globals) : List Expr → List Value → Run Globals
  | t :: ts, v :: vs => do assignAll (← assign globals t v) ts vs
  | _, _ => pure globals

end

def execute (globals : Globals) (s : Stmt) : Run Globals := do
  match s with
  | .define _ name _ decorators _ =>
    let f ← Program.addFunction { name, statement := s, url }
    let fs ← evaluateAll url s globals decorators
    let v ← fs.reverse.foldlM (fun v d => applyValue d [v]) f
    pure (put (· == ·) name v globals)
  | .assign _ targets e =>
    let v ← evaluate url s globals e
    targets.foldlM (fun g t => assign g t v) globals
  | .expr _ e =>
    let _ ← evaluate url s globals e
    pure globals
  | _ => throw .typeMismatch

/-- Makes the names of a module known as they are now. -/
def publish (globals : Globals) : Run Unit :=
  modify fun s => { s with sources := put (· == ·) (Library.spaceOf url) globals s.sources }

def load (names : Globals) (stmts : List Stmt) : Run Globals :=
  stmts.foldlM (fun globals s => do
    let globals ← execute url globals s
    publish url globals
    pure globals) names

end DiffLang.Module
