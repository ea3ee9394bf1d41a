import DiffLang.Engine
import DiffLang.Value.Variation

/-!
# Validation

A function is run in several ways and the results are compared; its gradient is compared with an
estimate from finite differences. The gradient of the gradient is tested the same way.
-/

namespace DiffLang.Validation

open Session

abbrev Callable := List Value → Run Value

/-- How far an input is moved in either direction to estimate a derivative. -/
def distance : Float := 1e-10

/-- How far an estimate may be off, relative to the larger of the two derivatives. -/
def tolerance : Float := 1e-03

/-- Arguments without the marks that exempt some from tests. -/
def unmarked (args : List Value) : List Value :=
  args.map fun
    | .untested v => v
    | v => v

/-! ## Comparing results -/

def isException : Value → Bool
  | .exception .. | .wrapped _ => true
  | _ => false

def requireEqual : List Value → Fallible Value
  | [x, y] => do
    if ← (← Value.compareEq x y).truth then pure .none else throw .broken
  | _ => throw .typeMismatch

/-- Whether a comparison came to its end without finding leaves that differ. -/
def settled {α : Type} : Fallible α → Fallible Bool
  | .ok _ => .ok true
  | .error f => if f.kind = .assertion then .ok false else .error f

/-- Whether two results agree leaf by leaf. Exceptions agree with nothing. -/
def agree (a b : Value) : Fallible Bool :=
  if isException a || isException b then .ok false
  else settled (StructuralMap.map requireEqual none a [b])

def allAgree : List Value → Fallible Bool
  | a :: b :: rest => do
    if ← agree a b then allAgree (b :: rest) else pure false
  | _ => .ok true

def outcome (fn : Callable) (args : List Value) : Run Value := do
  match ← Run.attempt (fn args) with
  | .ok v => pure v
  | .error f => pure f.toValue

def resultRow (args : List Value) (fn : String × Callable) : Run (Value × Value) := do
  pure (.str (fn.1 ++ "_result"), ← outcome fn.2 args)

/-- Calls functions on the same arguments, and says whether they all give the same. -/
def compareCalls (fns : List (String × Callable)) (args : List Value) :
    Run (List (Value × Value)) := do
  let rows ← fns.mapM (resultRow args)
  let same ← Run.lift (allAgree (rows.map Prod.snd))
  pure (rows ++ [(.str "match", .bool same)])

/-! ## Testing gradients -/

structure GradientTest where
  fn : Callable
  back : Value
  args : List Value
  argNames : List String
  name : String
  /-- The name of an output that is no tuple, if it is not that of the function. -/
  outName : Option String := none

structure Outputs where
  names : List String
  items : List Value
  /-- Whether the function returns a tuple of the outputs, and not the one output itself. -/
  isTuple : Bool

variable (t : GradientTest)

def GradientTest.outputs : Run Outputs := do
  match ← t.fn (unmarked t.args) with
  | .tuple items =>
    let names := (List.range items.length).map fun i => s!"{t.name}_{i + 1}"
    pure { names, items, isTuple := true }
  | v => pure { names := [t.outName.getD t.name], items := [v], isTuple := false }

abbrev Derivatives := List (String × Value)

def partName (names : List String) : Path → Fallible String
  | [] => .error .outOfRange
  | p :: ps => do
    match (← Value.item (.list (names.map .str)) p) with
    | .str n => pure (".".intercalate (n :: ps.map Value.text))
    | _ => throw .typeMismatch

def Derivatives.insert (ds : Derivatives) (outNames argNames : List String)
    (output input : Path) (v : Value) : Fallible Derivatives := do
  let o ← partName outNames output
  let i ← partName argNames input
  pure (put (· == ·) s!"d{o}/d{i}" v ds)

def isUntested : Value → Bool
  | .untested _ => true
  | _ => false

def GradientTest.exact (out : Outputs) : Run Derivatives := do
  let zeros ← Primitive.call Engine.top "zeros_like" [.tuple out.items]
  zeros.variablePaths.foldlM (fun ds output => do
    match ← Run.lift (zeros.variantsAt (fun _ => .ok [.int 1]) output) with
    | [direction] =>
      let sens ← if out.isTuple then pure direction else Run.lift (direction.item (.int 0))
      let result ← Engine.top.call t.back [sens]
      let grads ← Run.lift (result.item (.slice (.int 1) .none .none))
      Run.lift (grads.paths.foldlM (fun ds input => do
        if isUntested (← (Value.list t.args).part input) then pure ds
        else ds.insert out.names t.argNames output input (← grads.part input)) ds)
    | _ => throw .badValue) []

def slope : List Value → Fallible Value
  | [a, b] => do Value.binary .div (← Value.binary .sub b a) (.float (2 * distance))
  | _ => throw .typeMismatch

def GradientTest.estimate (out : Outputs) : Run Derivatives := do
  let point := Value.list t.args
  let at_ (v : Value) : Run Value := do
    let w ← t.fn (unmarked (← Run.lift v.walk))
    pure (if out.isTuple then w else .tuple [w])
  point.variablePaths.foldlM (fun ds input => do
    match ← Run.lift (point.variantsAt (Value.around (.float distance)) input) with
    | [below, above] =>
      let a ← at_ below
      let b ← at_ above
      let diff ← Run.lift (StructuralMap.map slope none a [b])
      Run.lift (diff.paths.foldlM (fun ds output => do
        ds.insert out.names t.argNames output input (← diff.part output)) ds)
    | _ => throw .badValue) []

def isClose (exact estimate : Value) : Fallible Bool := do
  let a ← Foreign.absolute (← Value.binary .mul (.float tolerance) exact)
  let b ← Foreign.absolute (← Value.binary .mul (.float tolerance) estimate)
  let threshold ← if ← (← Value.compareOrder false b a).truth then pure b else pure a
  let off ← Foreign.absolute (← Value.binary .sub exact estimate)
  if ← (← Value.compareOrder true off threshold).truth then pure true
  else (← Value.compareEq off threshold).truth

def GradientTest.compare (out : Outputs) : Run Value := do
  let exact ← t.exact out
  let estimate ← t.estimate out
  let rows ← Run.lift (exact.mapM fun (name, e) => do
    match estimate.lookup name with
    | none => throw .missingKey
    | some f =>
      let close ← isClose e f
      pure (Value.str name, Value.dict
        [(.str "exact", e), (.str "difference", f), (.str "match", .bool close)]))
  pure (.dict rows)

def GradientTest.run : Run Value := do t.compare (← t.outputs)

/-! ## Kinds of tests -/

inductive Mode where
  | evaluation
  | gradient
  | secondGradient

/-- A function under test, in the forms it was compiled to. -/
structure Prepared where
  lambdas : List TermId
  test : List Value → Run Value

def compile (id : TermId) : Run Value := Engine.top.get (.stage Stage.standard.exported) (.lambda id)

def bothParts (v : Value) : Fallible (Value × Value) := do
  match ← v.walk with
  | [a, b] => pure (a, b)
  | _ => throw .badValue

def derivativeOf (augmented : TermId) : Run TermId := do
  let l ← getLambda augmented
  match l.generator, l.ref with
  | some g, some ref =>
    let name ← ident (← freshPlain Fixed.gradient.id "GG")
    let arg ← ident (← freshPlain g "ARG")
    let bound (label : String) : Run Ident := do ident (← freshPlain g label)
    let values ← bound "values"
    let call ← apply (.ident ref) [.ident arg]
    let back ← bound "bprop"
    let index ← apply (← builtin "index") [.ident values, ← literal (.int 1)]
    let grads ← bound "grads"
    let run ← apply (.ident back) [← literal (.int 1)]
    let grad ← bound "grad"
    let first ← apply (← builtin "index") [.ident grads, ← literal (.int 1)]
    let body ← bind [(.ident values, call), (.ident back, index), (.ident grads, run),
      (.ident grad, first)] (.ident grad)
    createLambda name [arg] body (some g)
  | _, _ => throw .missingAttribute

/-- Compiles what a test needs. `plain` runs the function as it was written, and `name` is what
it is called there. -/
def prepare (mode : Mode) (id : TermId) (name : String) (plain : Callable) : Run Prepared := do
  let fn ← compile id
  let compiled : Callable := Engine.top.call fn
  let argNames := (← getLambda id).params.map fun p => p.sym.stem
  match mode with
  | .evaluation =>
    pure { lambdas := [id]
           test := fun args => do
             pure (.dict (← compareCalls [("python", plain), ("myia", compiled)] args)) }
  | .gradient =>
    let augmented ← Gradient.ofLambda id
    let gfn ← compile augmented
    pure { lambdas := [id, augmented]
           test := fun args => do
             let inputs := unmarked args
             let (result, back) ← Run.lift (bothParts (← Engine.top.call gfn inputs))
             let rows ← compareCalls [("python", plain), ("myia", compiled),
               ("myiag", fun _ => pure result)] inputs
             let test : GradientTest := { fn := plain, back, args, argNames, name }
             pure (.dict (rows ++ [(.str "derivatives", ← test.run)])) }
  | .secondGradient =>
    let augmented ← Gradient.ofLambda id
    let gfn ← compile augmented
    let second ← Gradient.ofLambda (← derivativeOf augmented)
    let gfn2 ← compile second
    let derivative : Callable := fun args => do
      let back ← Run.lift ((← Engine.top.call gfn args).item (.int 1))
      Run.lift ((← Engine.top.call back [.int 1]).item (.int 1))
    pure { lambdas := [id, augmented, second]
           test := fun args => do
             let (_, back) ← Run.lift (bothParts (← Engine.top.call gfn2 args))
             let test : GradientTest :=
               { fn := derivative, back, args, argNames, name := "gradients"
                 outName := some "(df/dx)" }
             test.run }

end DiffLang.Validation
