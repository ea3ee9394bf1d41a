import DiffLang.Abstract.Evaluation
import DiffLang.Report.Running

/-!
# Reports on abstract values

Operations on abstract values, unification, types, and the evaluation of functions on abstract
values.
-/

namespace DiffLang.Report

/-! ## Operations -/

def operationName (name : String) : Run String :=
  let op := Operation.ofName name
  if Operation.names.contains op then pure op else throw .missingKey

def abstractOperation (name : String) (args : List Data) : Run Data := do
  let vs ← plainValues args
  value (← Abstract.call (← operationName name) vs)

def projection (property name : String) (args : List Data) : Run Data := do
  let vs ← plainValues args
  let property ← operationName property
  let name ← operationName name
  if !Abstract.isDefined name then throw .missingKey
  match Abstract.projector? property name with
  | some (.primitive _) => value (← Abstract.project property name vs)
  | some (.function _) => throw .typeMismatch
  | none => throw .missingKey

/-! ## Unification -/

mutual

def leaves : Value → List Value
  | .tuple vs | .list vs | .type _ (some vs) => leavesOf vs
  | v => [v]

def leavesOf : List Value → List Value
  | [] => []
  | v :: vs => leaves v ++ leavesOf vs

end

def sameVariable : Value → Value → Bool
  | .restrictedVar m _, .restrictedVar n _ | .filteredVar m _, .filteredVar n _ => m = n
  | _, _ => false

variable (known : List Value)

mutual

/-- Gives every variable the restriction that it has where it is first met. One that is restricted
to no value at all is not restricted. -/
def settle : Value → Value
  | .tuple vs => .tuple (settleAll vs)
  | .list vs => .list (settleAll vs)
  | .type n (some vs) => .type n (some (settleAll vs))
  | v =>
    match (known.find? (sameVariable v)).getD v with
    | .restrictedVar n [] => .logicVar n
    | w => w

def settleAll : List Value → List Value
  | [] => []
  | v :: vs => settle v :: settleAll vs

end

def unification (a b : Data) (term : Option Data) : Run Data := do
  let given ← plainValues ([a, b] ++ term.toList)
  let given := settleAll (leavesOf given) given
  match given with
  | x :: y :: rest =>
    match ← Run.lift (Unification.unify x y) with
    | none => pure (.bool false)
    | some s =>
      let st ← get
      let pairs := s.map fun (k, v) => Data.list [ofValue st k, ofValue st v]
      let reified ← Run.lift (rest.mapM (Unification.reify s))
      pure (.record ([("subst", .list (Data.sort pairs))] ++
        reified.map fun v => ("reify", ofValue st v)))
  | _ => throw .badValue

/-! ## Types -/

inductive TypeStep where
  | text (t : Data)
  | equal (a b : Data)
  | sameKey (a b : Data)
  | isNumber (t : Data)
  | apply (t : Data) (elements : List Data)

def TypeStep.report : TypeStep → Run Data
  | .text t => do pure (.text (← plainValue t).text)
  | .equal a b => equality a b
  | .sameKey a b => do
    let x ← plainValue a
    let y ← plainValue b
    if !x.isHashable || !y.isHashable then throw .typeMismatch
    pure (.bool (x.agrees y))
  | .isNumber t => do
    let x ← plainValue t
    if !x.isHashable then throw .typeMismatch
    pure (.bool (Types.isNumber x))
  | .apply t elements => do
    let x ← plainValue t
    let es ← plainValues elements
    match x with
    | .type n (some []) => value (.type n (some es))
    | .type .. => throw .broken
    | _ => throw .typeMismatch

def types (steps : List TypeStep) : Run Data := do
  pure (.list (← steps.mapM fun s => step s.report))

/-! ## Abstract values -/

inductive AbstractStep where
  /-- The value itself for its value, or else a property. -/
  | view (v : Data) (key : String)
  | property (v : Data) (key : String)
  | fork (paths : List Data)
  | equal (a b : Data)
  | wrap (v : Data)
  | unwrap (v : Data)
  | projector (key : String) (fn : Data)

def propertyOf (v key : Value) : Run Value :=
  match v with
  | .abstract parts _ =>
    match Abstract.part? parts key with
    | some w => pure w
    | none => throw .missingKey
  | v => Run.lift (v.item key)

def keyNamed (name : String) : Value :=
  if name = "value" then Value.valueKey else Value.keyOf name

def AbstractStep.report (s : AbstractStep) : Run Data := do
  match s with
  | .view v key =>
    let x ← plainValue v
    let k := keyNamed key
    match x with
    | .abstract .. => do
      let p ← propertyOf x k
      value (if k.agrees Value.valueKey then x else p)
    | _ => throw .typeMismatch
  | .property v key => do value (← propertyOf (← plainValue v) (keyNamed key))
  | .fork paths =>
    let vs ← plainValues paths
    if vs.isEmpty then throw .broken
    pure (.text (Value.fork vs).text)
  | .equal a b => equality a b
  | .wrap v =>
    value (← Run.lift (Abstract.wrap (← get).abstractDepth (← plainValue v)))
  | .unwrap v => do value (Abstract.unwrap (← plainValue v))
  | .projector key fn =>
    let k := keyNamed key
    let f ← match ← plainValue fn with
      | .symbol op =>
        if Abstract.isDefined op.text then pure (.prim .abstract op none)
        else throw .missingKey
      | f => pure f
    value (← Run.lift (Abstract.Machine.findProjector (← get) k f))

def abstractValues (steps : List AbstractStep) : Run Data := do
  pure (.list (← steps.mapM fun s => step s.report))

/-! ## Evaluation -/

inductive AbstractArgument where
  | known (v : Data)
  | raw (v : Data)
  | property (v : Data)

def AbstractArgument.value (globals : Globals) (key : Value) : AbstractArgument → Run Value
  | .known v => do
    let x ← argument globals v
    Run.lift (Abstract.ofValue (← get).abstractDepth x)
  | .raw v => argument globals v
  | .property v => do
    let x ← argument globals v
    Run.lift (Abstract.ofParts [(key, x)])

/-- The report of all results of an entry for abstract values, each once, in the order of their
texts. -/
def inference (m : Subject) (keys : List String) (depth : Nat) (args : List AbstractArgument) :
    Run Data := do
  let (globals, v) ← m.enter
  let id ← readEntry v
  modify fun s => { s with abstractDepth := depth }
  let keys := if keys.isEmpty then [Value.valueKey] else keys.map keyNamed
  let args ← args.mapM (AbstractArgument.value globals (keys.headD Value.valueKey))
  let vs ← Abstract.evaluate id keys args
  pure (.list (Data.sortUnique (vs.map (ofValue (← get)))))

end DiffLang.Report
