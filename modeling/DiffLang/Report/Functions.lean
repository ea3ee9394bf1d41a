import DiffLang.Report.Views

/-!
# Reports on compiled functions

Functions that were compiled in different ways, and how they compare: by identity, by what they
were compiled from, and by what they are when used as keys.
-/

namespace DiffLang.Report

inductive FunctionKind where
  | direct
  | again
  | configured
  | shared
  | machine
  | environment

structure FunctionRef where
  kind : FunctionKind
  name : String

inductive FunctionStep where
  | text (x : FunctionRef)
  | innerText (x : FunctionRef)
  | equal (x y : FunctionRef)
  | identical (x y : FunctionRef)
  | sameKey (x y : FunctionRef)
  | add (x y : FunctionRef)
  | settings (x : FunctionRef)
  | call (x : FunctionRef) (args : List Data)
  | view (x : FunctionRef)

structure FunctionHomes where
  globals : Globals
  direct : Nat
  shared : Nat
  environment : StageId

def sharedSettings : List (Value × Value) := [(.str "a", .int 1)]

def FunctionRef.compile (h : FunctionHomes) (x : FunctionRef) : Run Value := do
  match h.globals.lookup x.name with
  | none => throw .missingKey
  | some entry =>
    let inside (env : Nat) : Run Value := do
      Engine.top.get (.environment env) (.lambda (← readEntry entry))
    match x.kind with
    | .direct => inside h.direct
    | .again => do inside (← directEnv)
    | .shared => inside h.shared
    | .configured => do
      match ← inside h.direct with
      | .direct id _ _ => Direct.reconfigure id sharedSettings
      | _ => throw .missingAttribute
    | .machine => Engine.top.get (.stage Stage.standard.machine) entry
    | .environment => Engine.top.get (.stage h.environment) entry

def stageOf (s : Session) : Value → Option StageId
  | .machine id _ _ => (s.machineFunctions[id]?).map (·.stage)
  | _ => none

/-- Whether two functions are the same key: they were compiled from the same thing. -/
def sameFunctionKey : Value → Value → Bool
  | .direct _ l _, .direct _ k _ => l = k
  | .machine _ g _, .machine _ h _ => g = h
  | _, _ => false

def sameFunction (s : Session) (a b : Value) : Bool :=
  sameFunctionKey a b && stageOf s a = stageOf s b

def isIdentical : Value → Value → Bool
  | .direct i _ _, .direct j _ _ => i = j
  | .machine i _ _, .machine j _ _ => i = j
  | _, _ => false

def settingsOf (s : Session) : Value → Fallible Value
  | .direct id _ _ =>
    .ok (.dict ((((s.directFunctions[id]?).bind fun f => s.directEnvs[f.home]?).map
      (·.config)).getD []))
  | _ => .error .missingAttribute

def ofFunction (h : FunctionHomes) (s : Session) (v : Value) : Data :=
  if stageOf s v = some h.environment then tagged "opaque" "VMFunction" else ofValue s v

def FunctionStep.run (h : FunctionHomes) : FunctionStep → Run Data
  | .text x => do pure (.text (← x.compile h).text)
  | .innerText x => do pure (.text (Value.list [← x.compile h]).text)
  | .equal x y => both x y fun s a b => .bool (sameFunction s a b)
  | .identical x y => both x y fun _ a b => .bool (isIdentical a b)
  | .sameKey x y => both x y fun _ a b => .bool (sameFunctionKey a b)
  | .add x y => both x y fun s a _ => ofFunction h s a
  | .settings x => do
    let a ← x.compile h
    value (← Run.lift (settingsOf (← get) a))
  | .call x args => do
    value (← Engine.top.call (← x.compile h) (← args.mapM (argument h.globals)))
  | .view x => do
    let a ← x.compile h
    viewed { picture := ({ session := ← get } : Viewer).options } false fun v => v.valueAt 0 a
where
  both (x y : FunctionRef) (report : Session → Value → Value → Data) : Run Data := do
    let a ← x.compile h
    let b ← y.compile h
    pure (report (← get) a b)

def functions (m : Subject) (steps : List FunctionStep) : Run Data := do
  let globals ← m.load
  let direct ← directEnv
  let shared ← Direct.new { bank := .standard, config := sharedSettings }
  let environment ← Stage.add .environment Stage.standard.optimized
    (Stage.near Stage.standard.optimized)
  let h : FunctionHomes := { globals, direct, shared, environment }
  pure (.list (← steps.mapM fun s => step (s.run h)))

end DiffLang.Report
