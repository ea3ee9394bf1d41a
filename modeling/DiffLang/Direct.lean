import DiffLang.Abstract.Primitive
import DiffLang.Code.OfTerm
import DiffLang.Library
import DiffLang.Stage

/-!
# Environments that run terms

An environment compiles functions of the language straight to code with variables, and runs each
call of a function on a machine of its own. A name is looked up in the program; what it stands for
is taken back to an operation or a function of the language if it comes from one, and only values
that the machine can hold are let in.
-/

namespace DiffLang.Direct

open Session

def new (env : DirectEnv) : Run Nat :=
  modifyGet fun s => (s.directEnvs.size, { s with directEnvs := s.directEnvs.push env })

def env (id : Nat) : Run DirectEnv := do
  match (← get).directEnvs[id]? with
  | some e => pure e
  | none => throw .broken

def function (id : Nat) : Run DirectFunction := do
  match (← get).directFunctions[id]? with
  | some fn => pure fn
  | none => throw .broken

def update (id : Nat) (f : DirectEnv → DirectEnv) : Run Unit :=
  modify fun s => { s with directEnvs := s.directEnvs.modify id f }

/-! ## Compilation -/

def codeOf (e : DirectEnv) (id : TermId) : Run (Array Step) := do
  if e.viaGraph then
    let g ← Graph.ofLambda id
    Run.lift (Graph.variableCode (← get).store g)
  else
    pure (← Run.lift (← getLambda id).body.code).toArray

def compile (env : Nat) (id : TermId) : Run Value := do
  let e ← Direct.env env
  let code ← codeOf e id
  let ref ← Program.refOf id
  modifyGet fun s =>
    (.direct s.directFunctions.size id ref.sym,
      { s with directFunctions := s.directFunctions.push { lambda := id, home := env, code } })

/-- Compiles a function unless the environment has it already. -/
def compiled (env : Nat) (id : TermId) : Run Value := do
  match (← Direct.env env).compiled.lookup id with
  | some v => pure v
  | none =>
    let v ← compile env id
    update env fun e => { e with compiled := e.compiled ++ [(id, v)] }
    pure v

/-! ## What names stand for -/

/-- The operation or function that a value comes from, or else the value. -/
def devolve (s : Session) : Value → Value
  | .prim _ op _ => .symbol op
  | .foreign name =>
    match Stage.operation? s name with
    | some op => .symbol (.builtin op)
    | none => .foreign name
  | v => v

def isHeld : Value → Bool
  | .bool _ | .int _ | .float _ | .direct .. | .closure .. | .array .. | .list _ | .tuple _
  | .record .. | .str _ | .zero | .none | .scalar (.float 64) _ => true
  | .thing l => l = "Breakpoint"
  | _ => false

def convert (env : Nat) (v : Value) : Fallible Value :=
  if isHeld v then .ok v
  else match v with
    | .prim b op none => .ok (.prim b op (some (.environment env)))
    | .prim b op home => .ok (.prim b op home)
    | .symbol s =>
      .error (.because .value
        s!"Myia cannot resolve {s.text} from namespace {Machine.spaceText s.space}")
    | v => .error (.because .type s!"Myia cannot convert value: {v.text} of type {v.sortText}")

def primitive? (bank : Bank) (op : Symbol) : Run (Option Value) := do
  match op with
  | .plain name .. =>
    if !op.isBuiltin then pure none
    else match bank with
      | .standard =>
        if Primitive.isDefined name then pure (some (.prim .standard op none))
        else if ["grad1", "grad2", "grad3"].contains name then
          pure (Library.function? (← get) Prelude.gradientsUrl name)
        else pure none
      | .abstract =>
        pure (if Abstract.isDefined name then some (.prim .abstract op none) else none)
      | _ => pure none
  | _ => pure none

def isAbstract : Value → Bool
  | .abstract .. | .fork _ | .wrapped _ | .type .. | .any => true
  | _ => false

def letIn (env : Nat) (v : Value) : Run Value := do
  if (← Direct.env env).bank = .abstract && isAbstract v then return v
  match v with
  | .symbol op =>
    match ← primitive? (← Direct.env env).bank op with
    | some (.lambda id) => compiled env id
    | some p => Run.lift (convert env p)
    | none => Run.lift (convert env v)
  | .function f _ =>
    match ← Run.attempt (Program.readFunction f) with
    | .ok (.lambda id) => compiled env id
    | .ok v => Run.lift (convert env v)
    | .error e =>
      if e.kind = .type then
        throw (.because .value s!"Myia cannot interpret value: {v.text}")
      else throw e
  | .foreign name =>
    if Foreign.isSort name then
      throw (.because .value s!"Myia cannot interpret value: {v.text}")
    else Run.lift (convert env v)
  | .lambda id => compiled env id
  | v => Run.lift (convert env v)

def lookUp (env : Nat) (v : Value) : Run Value := do
  let e ← Direct.env env
  match e.cache.find? fun (k, _) => sameKey k v with
  | some (_, w) => pure w
  | none =>
    let raw ← match v with
      | .symbol _ =>
        match ← Run.attempt (Program.resolve v) with
        | .ok w => pure w
        | .error f =>
          if [Kind.type, .key, .name].contains f.kind then pure v else throw f
      | v => pure v
    let w ← letIn env (devolve (← get) raw)
    if Program.isKey v then
      update env fun e => { e with cache := put sameKey v w e.cache }
    pure w

/-! ## Running -/

/-- The frame that a call of a function starts with. Arguments without a parameter are left out. -/
def start (id : Nat) (args : List Value) : Run Machine.Frame := do
  let fn ← function id
  let l ← getLambda fn.lambda
  pure { code := fn.code, stack := #[.none], home := some (.environment fn.home)
         lambda := some fn.lambda, bindings := some ((l.params.map Ident.sym).zip args) }

def call (host : Host) (id : Nat) (args : List Value) : Run Value := do
  let fn ← function id
  let l ← getLambda fn.lambda
  if args.length ≠ l.params.length then throw .broken
  let e ← Direct.env fn.home
  if !e.runnable then throw (.because .notImplemented "Must override vm method in subclass.")
  Machine.run host Machine.patience { frame := ← start id args }

def reconfigure (id : Nat) (config : List (Value × Value)) : Run Value := do
  let fn ← function id
  let e ← Direct.env fn.home
  let merged := config.foldl (fun acc (k, v) => put (fun a b => a.text = b.text) k v acc) e.config
  compile (← new { e with config := merged, compiled := [], cache := [] }) fn.lambda

end DiffLang.Direct
