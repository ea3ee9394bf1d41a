import DiffLang.Engine
import DiffLang.Value.Variation

/-!
# Running programs as they are written

A function of a program is run statement by statement, without reading it into the term language:
variables are changed in place, functions see the variables of the functions around them, and
operators and calls mean what they mean in the surrounding system. The compiler is tested against
this.
-/

namespace DiffLang.Evaluation

open Session Source

/-! ## Variables -/

mutual

def targetNames : Expr → List String
  | .name _ id => [id]
  | .tuple _ items => targetNamesAll items
  | _ => []

def targetNamesAll : List Expr → List String
  | [] => []
  | e :: es => targetNames e ++ targetNamesAll es

end

mutual

def setNames : Stmt → List String
  | .assign _ targets _ => targetNamesAll targets
  | .augment _ target _ _ => targetNames target
  | .forLoop _ target _ body _ => targetNames target ++ setNamesAll body
  | .whileLoop _ _ body => setNamesAll body
  | .branch _ _ body orelse => setNamesAll body ++ setNamesAll orelse
  | .define _ name _ _ _ => [name]
  | _ => []

def setNamesAll : List Stmt → List String
  | [] => []
  | s :: ss => setNames s ++ setNamesAll ss

end

structure Frame where
  scope : Nat
  url : String

/-- The value of a variable: that of the innermost function that has one of the name. A function's
own variable must be set before it is read. -/
def lookUp (fuel : Nat) (name : String) (own : Bool) (scope : Nat) : Run (Option Value) := do
  match fuel, (← get).scopes[scope]? with
  | fuel + 1, some s =>
    if s.names.contains name then
      match s.values.lookup name with
      | some v => pure (some v)
      | none => throw (.plain (if own then .unboundLocal else .name))
    else match s.outer with
      | some o => lookUp fuel name false o
      | none => pure none
  | _, _ => pure none

variable (host : Host) (f : Frame)

def valueOf (name : String) : Run Value := do
  let s ← get
  match ← lookUp (s.scopes.size + 1) name true f.scope with
  | some v => pure v
  | none =>
    match ((s.sources.lookup (Library.spaceOf f.url)).getD []).lookup name with
    | some v => pure v
    | none => if Foreign.isName name then pure (.foreign name) else throw (.plain .name)

def setVariable (name : String) (v : Value) : Run Unit :=
  modify fun s => { s with scopes := s.scopes.modify f.scope fun sc =>
    { sc with values := put (· == ·) name v sc.values } }

def innerFunction (name : String) (statement : Stmt) : Run Value :=
  Program.addFunction { name, statement, url := f.url, scope := some f.scope }

/-! ## Operators -/

def operators : List (String × BinaryOp) :=
  [("Add", .add), ("Sub", .sub), ("Mult", .mul), ("Div", .div), ("FloorDiv", .floorDiv),
   ("Mod", .mod), ("Pow", .pow)]

def binaryOperator (op : String) (a b : Value) : Fallible Value :=
  match operators.lookup op with
  | some op => Value.binary op a b
  | none =>
    if op = "MatMult" && a.isTyped && b.isTyped then Tensor.matrixProduct a b
    else .error .typeMismatch

def unaryOperator (op : String) (v : Value) : Fallible Value :=
  match op with
  | "USub" => v.negative
  | "UAdd" => if Number.isPlain v || v.isTyped then .ok v else .error .typeMismatch
  | "Not" => do pure (.bool (!(← v.truth)))
  | _ => .error .typeMismatch

def comparison (op : String) (a b : Value) : Fallible Value :=
  let orEqual (less : Bool) : Fallible Value := do
    if ← (← Value.compareOrder less a b).truth then pure (.bool true) else Value.compareEq a b
  match op with
  | "Lt" => Value.compareOrder true a b
  | "Gt" => Value.compareOrder false a b
  | "Eq" => Value.compareEq a b
  | "LtE" => orEqual true
  | "GtE" => orEqual false
  | _ => .error .typeMismatch

def withItem (v i w : Value) : Fallible Value :=
  match v, i with
  | .list items, i =>
    match i.index? with
    | some k => do pure (.list (items.set (← Value.place items.length k) w))
    | none => .error .typeMismatch
  | .array .., .tuple is => v.withItem (.tuple is) w
  | .array .., i => v.withItem (.tuple [i]) w
  | _, _ => .error .typeMismatch

/-! ## Expressions -/

/-- Compares neighbours until a comparison fails. -/
def chain (left : Value) : List (String × Run Value) → Run Value
  | [] => pure (.bool true)
  | [(op, right)] => do Run.lift (comparison op left (← right))
  | (op, right) :: rest => do
    let r ← right
    let c ← Run.lift (comparison op left r)
    if ← Run.lift c.truth then chain r rest else pure c

mutual

def expr : Expr → Run Value
  | .name _ id => valueOf f id
  | .constant _ v => pure v
  | .binary _ op left right => do
    Run.lift (binaryOperator op (← expr left) (← expr right))
  | .unary _ op operand => do Run.lift (unaryOperator op (← expr operand))
  | .compare _ left ops rights => do
    chain (← expr left) (ops.zip (operands rights))
  | .call _ fn args _ => do host.call (← expr fn) (← exprs args)
  | .attribute _ object name => do Run.lift ((← expr object).member name)
  | .subscript _ object index => do Run.lift ((← expr object).item (← expr index))
  | .slice _ lower upper step => do
    pure (.slice (← optional lower) (← optional upper) (← optional step))
  | .tuple _ items => do pure (.tuple (← exprs items))
  | .lambda pos params body =>
    innerFunction f "<lambda>" (.define pos "<lambda>" params [] [.ret pos (some body)])
  | .other .. => throw .typeMismatch

def exprs : List Expr → Run (List Value)
  | [] => pure []
  | e :: es => do pure ((← expr e) :: (← exprs es))

def operands : List Expr → List (Run Value)
  | [] => []
  | e :: es => expr e :: operands es

def optional : Option Expr → Run Value
  | none => pure .none
  | some e => expr e

end

/-! ## Statements -/

mutual

def assign : Expr → Value → Run Unit
  | .name _ id, v => setVariable f id v
  | .tuple _ targets, v => do
    let items ← Run.lift v.walk
    if items.length ≠ targets.length then throw .badValue
    assignAll targets items
  | .subscript _ object index, v => do
    let old ← expr host f object
    let new ← Run.lift (withItem old (← expr host f index) v)
    match object with
    | .name _ id => setVariable f id new
    | _ => pure ()
  | .attribute _ object name, _ => do
    let old ← expr host f object
    match old with
    | .record .. =>
      throw (.because .attribute
        s!"Cannot set attribute '{name}' of {old.text} -- Records are read-only.")
    | _ => throw .missingAttribute
  | _, _ => throw .typeMismatch

def assignAll : List Expr → List Value → Run Unit
  | t :: ts, v :: vs => do
    assign t v
    assignAll ts vs
  | _, _ => pure ()

end

def repeatWhile (test : Run Bool) (body : Run (Option Value)) : Nat → Run (Option Value)
  | 0 => throw .tooDeep
  | fuel + 1 => do
    if ← test then
      match ← body with
      | some v => pure (some v)
      | none => repeatWhile test body fuel
    else pure none

def forEach (body : Value → Run (Option Value)) : List Value → Run (Option Value)
  | [] => pure none
  | v :: vs => do
    match ← body v with
    | some r => pure (some r)
    | none => forEach body vs

/-- The failure that raising a value in a program gives. A sort of failures is raised as a failure
without arguments. -/
def raised (v : Value) : Failure :=
  let v := match v with
    | .foreign name => if Foreign.failures.contains name then .exception (.ofLabel name) [] else v
    | v => v
  { Failure.raising v with stated := false }

def patience : Nat := 10000000

mutual

/-- Runs a statement, and returns the value that the function returns in it, if it does. -/
def stmt : Stmt → Run (Option Value)
  | .assign _ targets e => do
    let v ← expr host f e
    targets.forM fun t => assign host f t v
    pure none
  | .augment _ target op e => do
    let old ← expr host f target
    let new ← Run.lift (binaryOperator op old (← expr host f e))
    assign host f target new
    pure none
  | .expr _ e => do
    let _ ← expr host f e
    pure none
  | .forLoop _ target iter body _ => do
    let items ← Run.lift (← expr host f iter).walk
    forEach (fun v => do
      assign host f target v
      stmts body) items
  | .whileLoop _ test body =>
    repeatWhile (do Run.lift (← expr host f test).truth) (stmts body) patience
  | .branch _ test body orelse => do
    if ← Run.lift (← expr host f test).truth then stmts body else stmts orelse
  | .define pos name params decorators body => do
    let fn ← innerFunction f name (.define pos name params [] body)
    let ds ← exprs host f decorators
    let v ← ds.reverse.foldlM (fun v d => host.call d [v]) fn
    setVariable f name v
    pure none
  | .ret _ none => pure (some .none)
  | .ret _ (some e) => do pure (some (← expr host f e))
  | .raise _ none => throw (.plain .runtime)
  | .raise _ (some e) => do throw (raised (← expr host f e))
  | .other .. => throw .typeMismatch

def stmts : List Stmt → Run (Option Value)
  | [] => pure none
  | s :: ss => do
    match ← stmt s with
    | some v => pure (some v)
    | none => stmts ss

end

/-! ## Calls -/

def callFunction (fn : ProgramFunction) (args : List Value) : Run Value := do
  match fn.statement with
  | .define _ _ params _ body =>
    if params.names.length ≠ args.length then throw .typeMismatch
    let own : Scope :=
      { values := params.names.zip args, names := params.names ++ setNamesAll body
        outer := fn.scope }
    let scope ← modifyGet fun s => (s.scopes.size, { s with scopes := s.scopes.push own })
    pure ((← stmts host { scope, url := fn.url } body).getD .none)
  | _ => throw .typeMismatch

def callForeign? (name : String) (args : List Value) : Option (Run Value) :=
  match name, args with
  | "print", vs => some do
    modify fun s => { s with printed := s.printed ++ " ".intercalate (vs.map Value.text) ++ "\n" }
    pure .none
  | "map", [fn, v] => some do
    pure (.tuple (← (← Run.lift v.walk).mapM fun x => host.call fn [x]))
  | "range", [_] | "enumerate", [_] | "slice", _ => some (Primitive.call host name args)
  | "sum", [v] => some do
    Run.lift ((← Run.lift v.walk).foldlM (fun acc x => Value.binary .add acc x) (.int 0))
  | "getattr", [v, .str n] => some (Run.lift (v.member n))
  | _, _ => none

/-- Calls a value. Only functions of the program are run as they are written. -/
def call : Nat → Value → List Value → Run Value
  | 0, _, _ => throw .tooDeep
  | fuel + 1, fn, args => do
    let host : Host := { Engine.top with call := call fuel }
    match fn with
    | .function id _ =>
      match (← get).functions[id]? with
      | some f => callFunction host f args
      | none => throw .broken
    | .foreign name =>
      match callForeign? host name args with
      | some act => act
      | none => Engine.call host fn args
    | fn => Engine.call host fn args

def run (fn : Value) (args : List Value) : Run Value := call Engine.depth fn args

end DiffLang.Evaluation
