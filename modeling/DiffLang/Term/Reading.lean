import DiffLang.Session
import DiffLang.Symbol.Nested

/-!
# Reading programs

A program text becomes closed functions in which every variable is set once. Writing to a
variable again makes a new version of it. The branches of a conditional and the body of a loop
become functions of their own, which take the variables they need as first arguments; a function
inside a function does the same, and is used through a partial application.

| text                    | term                                                            |
|-------------------------|-----------------------------------------------------------------|
| `if t: a else: b`       | `((switch t ✓f ✗f))`, with `✓f` and `✗f` closed over what they use |
| `while t: b`            | `⤾f`, which calls `⥁f` as long as `t` holds                     |
| `for x in xs: b`        | the same, over a position `~it~` in a list `~li~`                |
| `x[i] = v`, `x.a = v`   | a new `x` from `setslice`, `setattr`                             |

A loop body is read twice: once on trial, to learn which variables it needs and sets, and once
with those as its parameters.
-/

namespace DiffLang.Reading

open Source Session

abbrev Bindings := List (String × Ident)

/-- What the reader knows while it reads the body of one function. -/
structure Scope where
  url : String
  firstLine : Nat
  trial : Bool := false
  /-- Whether variables of enclosing functions become parameters. -/
  pull : Bool := false
  topLevel : Bool := false
  /-- For a backpropagator, how many gradients are grouped first. -/
  grouping : Option Nat := none
  /-- The complaint about a `return`, where it is not allowed. -/
  returnError : Option String := none
  generator : GeneratorId
  globals : GeneratorId
  /-- The symbol of the function being read, from which those of its parts derive. -/
  dest : Ident
  /-- The scopes around this one, the nearest first. -/
  outer : List Bindings := []
  bindings : Bindings := []
  /-- Variables of enclosing functions that were used, in order of first use. -/
  free : Bindings := []
  assigned : List String := []
  returns : Bool := false

abbrev Reader := StateT Scope Run

/-- The left side of a binding: a variable, or a tuple of left sides. -/
inductive Pattern where
  | name (x : Ident)
  | tuple (id : TermId) (items : List Pattern)

def Pattern.term : Pattern → Term
  | .name x => .ident x
  | .tuple id items => .tuple id (terms items)
where
  terms : List Pattern → List Term
  | [] => []
  | k :: ks => k.term :: terms ks

/-- A statement turned into bindings and expressions. -/
inductive Clause where
  | assign (target : Pattern) (value : Term)
  | term (t : Term)

/-- The clauses of a statement, and the place to blame for them. -/
structure Reading where
  clauses : List Clause
  blame : Option Location

def Scope.place (s : Scope) (pos : Pos) : Location :=
  ⟨s.url, pos.line + s.firstLine - 1, pos.column⟩

/-- Makes the nodes of a computation be about a position of the text. -/
def located {α : Type} (pos : Pos) (act : Reader α) : Reader α := fun s =>
  Run.about (.place (s.place pos)) "parse" (act s)

/-- Makes the nodes of a computation be about where a term comes from. -/
def aboutPlaceOf {α : Type} (t : Term) (act : Reader α) : Reader α := fun s => do
  let subject := match ← findLocation t with
    | some l => Subject.place l
    | none => .nothing
  Run.about subject "parse" (act s)

/-- Runs a computation in another scope and returns that scope as it was left. -/
def inScope {α : Type} (scope : Scope) (act : Reader α) : Reader (α × Scope) := fun self => do
  let r ← act scope
  pure (r, self)

/-! ## Variables -/

/-- Another occurrence of a symbol. It comes from the same place, if that is to be kept. -/
def copy (x : Ident) (keepPlace : Bool) : Run Ident := do
  let new ← ident x.sym
  if keepPlace then
    match (← get).origin x.id with
    | some o => setOrigin new.id (some o)
    | none => pure ()
  pure new

def newVariable (name : String) : Reader Ident := do
  let s ← get
  let x : Ident ← ident (← freshPlain s.generator name)
  set { s with bindings := put (· == ·) name x s.bindings }
  pure x

def declare (name : String) : Reader Ident := do
  let x ← newVariable name
  modify fun s =>
    if s.assigned.contains name then s else { s with assigned := s.assigned ++ [name] }
  pure x

/-- Looks a name up: whether it belongs to an enclosing function, and an occurrence of its
variable. -/
def find? (s : Scope) (name : String) (keepPlace : Bool) : Run (Option (Bool × Ident)) := do
  match Nested.find? s.bindings s.outer name with
  | some (free, x) => pure (some (free, ← copy x (free || keepPlace)))
  | none => pure none

def existing (name : String) (keepPlace : Bool := true) : Reader Ident := do
  match ← find? (← get) name keepPlace with
  | some (_, x) => pure x
  | none => throw (.because .name ("Undeclared variable: " ++ name))

/-- An occurrence of a variable, or of a global name. Variables of enclosing functions are noted
as free; if they are to become parameters, they get a variable of this function. -/
def occurrence (name : String) : Reader Ident := do
  let s ← get
  match ← find? s name true with
  | some (true, x) =>
    let x ← if s.pull then newVariable name else pure x
    modify fun s => { s with free := put (· == ·) name x s.free }
    pure x
  | some (false, x) => pure x
  | none => ident (← freshPlain s.globals name (some 1))

def globalName (label : String) : Reader Ident := do
  ident (← freshPlain (← get).globals label)

def partName (relation : String) : Reader Ident := do
  let s ← get
  ident (← freshDerived s.globals s.dest.sym relation)

/-! ## Functions inside functions -/

def inner (trial pull : Bool) (dest : Option Ident) : Reader Scope := do
  let s ← get
  let globals ← if trial then privateGenerator else globalGenerator s.url
  let generator ← privateGenerator
  let dest ← match dest with
    | some d => pure d
    | none => ident (← freshPlain generator Relation.anonymous)
  pure
    { url := s.url, firstLine := s.firstLine, trial, pull, grouping := s.grouping,
      returnError := s.returnError, generator, globals, dest,
      outer := s.bindings :: s.outer }

/-- A scope for the body of a function, which may be known to itself by a name. -/
def closureScope (name : Option String) (ref : Ident) : Reader Scope := do
  let p ← inner (← get).trial true (some ref)
  match name with
  | some n => pure { p with bindings := [(n, ref)] }
  | none => pure p

/-- Makes a function and registers it. A trial makes no function, and only takes up its number. -/
def register (ref : Ident) (params : List Ident) (body : Term) : Reader Term := do
  let s ← get
  if s.trial then do
    let _ ← newId
    pure (.ident ref)
  else do
    let id ← newLambda params body (some s.generator)
    associate ref (.lambda id)
    pure (.ident ref)

/-- The function read in the scope `p`: its free variables come first, and are given where the
function is made. -/
def construct (p : Scope) (params : List Ident) (body : Term) : Reader Term := do
  let values ← p.free.mapM fun (name, _) => occurrence name
  let fn ← register p.dest (p.free.map Prod.snd ++ params) body
  if p.free.isEmpty then pure fn else closure fn (values.map .ident)

/-! ## Bodies -/

/-- Splits clauses into runs of bindings and runs of expressions. -/
def groups : List Clause → List (Bool × List Clause)
  | [] => []
  | c :: rest =>
    let isAssign := match c with
      | .assign .. => true
      | .term _ => false
    match groups rest with
    | (b, cs) :: more => if b = isAssign then (b, c :: cs) :: more
        else (isAssign, [c]) :: (b, cs) :: more
    | [] => [(isAssign, [c])]

def grouped (act : Reader (List Clause)) : Reader (List (Bool × List Clause)) := do
  pure (groups (← act))

def bindingsOf (cs : List Clause) : List (Term × Term) :=
  cs.filterMap fun
    | .assign k v => some (k.term, v)
    | .term _ => none

def termsOf (cs : List Clause) : List Term :=
  cs.filterMap fun
    | .assign .. => none
    | .term t => some t

/-- The term of a body. It ends in `result`, or if that is absent in the last expression. -/
def finish (result : Option Term) : List (Bool × List Clause) → Run Term
  | [] => throw .badValue
  | [(true, cs)] =>
    match result with
    | some r => bind (bindingsOf cs) r
    | none => syntaxFailure "Missing return statement."
  | (true, cs) :: rest => do
    let body ← finish result rest
    bind (bindingsOf cs) body
  | [(false, cs)] =>
    match termsOf cs ++ result.toList with
    | [t] => pure t
    | ts => do pure (.sequence (← newId) ts)
  | (false, cs) :: rest => do
    let body ← finish result rest
    pure (.sequence (← newId) (termsOf cs ++ [body]))

def operation? : String → Option String
  | "Add" => some "add"
  | "Sub" => some "subtract"
  | "Mult" => some "multiply"
  | "Div" => some "divide"
  | "Pow" => some "power"
  | "MatMult" => some "dot"
  | "BitOr" => some "bitwise_or"
  | "BitAnd" => some "bitwise_and"
  | "BitXor" => some "bitwise_xor"
  | "UAdd" => some "unary_add"
  | "USub" => some "unary_subtract"
  | "Invert" => some "bitwise_not"
  | "Not" => some "negate"
  | "Lt" => some "less"
  | "Gt" => some "greater"
  | "LtE" => some "less_equal"
  | "GtE" => some "greater_equal"
  | "Eq" => some "equal"
  | _ => none

def operator (op : String) : Run Term :=
  match operation? op with
  | some name => builtin name
  | none => throw (.plain .notImplemented)

def unrecognized {α : Type} (kind : String) (loc : Option Location) : Run α :=
  syntaxFailure ("Unrecognized Python AST node type: " ++ kind) loc

mutual

def pattern : Expr → Reader Pattern
  | .tuple _ items => do
    let id ← newId
    pure (.tuple id (← patterns items))
  | .name _ id => do pure (.name (← declare id))
  | _ => syntaxFailure "Deconstructing assignment may only contain names and tuples."

def patterns : List Expr → Reader (List Pattern)
  | [] => pure []
  | e :: es => do
    let t ← pattern e
    pure (t :: (← patterns es))

end

def assignAll (names : List String) (value : Term) : Reader Clause := do
  let id ← newId
  let xs ← names.mapM declare
  pure (.assign (.tuple id (xs.map .name)) value)

def plainName? : Expr → Option String
  | .name _ id => some id
  | _ => none

/-- Refuses what a function's parameters may not have. -/
def checkParams (params : Params) : Run Unit := do
  if params.variadic then syntaxFailure "Varargs are not allowed."
  if params.keywordOnly then syntaxFailure "Keyword-only arguments are not allowed."
  if params.defaults then syntaxFailure "Default arguments are not allowed."

/-- The test of a loop, which goes on with the body or ends with the variables set so far. -/
def registerTest (testName : Ident) (test loopFn : Term) (ins initial : List Ident) :
    Reader Unit := do
  let f ← builtin "switch"
  let go ← closure loopFn (ins.map .ident)
  let stopFn ← builtin "identity"
  let stop ← closure stopFn [← tuple (initial.map .ident)]
  let chosen ← apply f [test, go, stop]
  let outer ← apply chosen []
  let _ ← register testName ins outer

/-- The names that a loop needs from one round to the next, by what a trial has found: those that
are free in it, and those that it sets. -/
def Scope.loopNames (trial : Scope) : List String :=
  trial.free.map Prod.fst ++ trial.assigned.filter fun v => !(trial.free.any fun (w, _) => w == v)

/-- The scope that reading something on trial leaves. A loop cannot be left by a `return`. -/
def onTrial {α : Type} (act : Reader α) : Reader Scope := do
  let trial ← inner true false none
  let (_, trial) ← inScope { trial with returnError := some "Cannot return in while loops." } act
  pure trial

def loopScope {α : Type} (name : Ident) (vars : Reader α) : Reader (α × Scope) := do
  let p ← inner (← get).trial false (some name)
  inScope p vars

/-- The variables of a loop over a list: the position, the list, the item at the position, and the
parameters, which are the first two and those for the names that the loop needs. -/
def iterationVariables (target : Expr) (names : List String) :
    Reader (Ident × Ident × Ident × List Ident) := do
  let at_ ← newVariable "~it~"
  let items ← newVariable "~li~"
  let item ← match plainName? target with
    | some name => newVariable name
    | none => throw (.plain .unboundLocal)
  let rest ← names.mapM newVariable
  pure (at_, items, item, at_ :: items :: rest)

/-- The choice between two branches, each read in a scope of its own, with the results they end
in. -/
def conditional (thenBranch elseBranch : Scope × List (Bool × List Clause)) (test : Reader Term)
    (thenEnd elseEnd : Option Term) : Reader Term := do
  let thenBody ← finish thenEnd thenBranch.2
  let thenFn ← aboutPlaceOf thenBody (construct thenBranch.1 [] thenBody)
  let elseBody ← finish elseEnd elseBranch.2
  let elseFn ← aboutPlaceOf thenBody (construct elseBranch.1 [] elseBody)
  let f ← builtin "switch"
  let t ← test
  let chosen ← apply f [t, thenFn, elseFn]
  apply chosen []

def defineFunction (name : String) (params : Params)
    (readBody : Reader (List (Bool × List Clause))) : Reader Clause := do
  let s ← get
  let label := if s.topLevel then name else s.dest.sym.text ++ "." ++ name
  let ref ← globalName label
  let x ← newVariable name
  let p ← closureScope (some name) ref
  let ((params, body), p) ← inScope p do
    let params ← params.names.mapM newVariable
    let gs ← readBody
    let body ← finish none gs
    pure (params, body)
  let fn ← construct p params body
  pure (.assign (.name x) fn)

mutual

def expr : Expr → Reader Term
  | .name pos id => located pos do
    let x ← occurrence id
    let subject := match ← currentLocation with
      | some l => Subject.place l
      | none => .nothing
    setOrigin x.id (some ⟨subject, "parse"⟩)
    pure (.ident x)
  | .constant pos v => located pos (literal v)
  | .binary pos op left right => located pos do
    let f ← operator op
    let l ← expr left
    let r ← expr right
    apply f [l, r]
  | .unary pos op operand => located pos do
    let f ← operator op
    let x ← expr operand
    apply f [x]
  | .compare pos left ops rights => located pos do
    let fs ← ops.mapM fun op => (liftM (operator op) : Reader Term)
    match fs, rights.isEmpty with
    | [f], false =>
      let l ← expr left
      let r ← firstExpr rights
      apply f [l, r]
    | _, _ => syntaxFailure "Comparisons must have a maximum of two operands"
  | .call pos fn args keywords => located pos do
    if keywords then syntaxFailure "Keyword arguments are not allowed."
    for a in args do
      match a with
      | .other p "Starred" => syntaxFailure "*args are not allowed." (some ((← get).place p))
      | _ => pure ()
    let xs ← exprs args
    match fn, (← get).grouping with
    | .name _ "GRAD", some n => do
      let first ← tuple (xs.take n)
      tuple (first :: xs.drop n)
    | _, _ => do
      let f ← expr fn
      apply f xs
  | .attribute pos object name => located pos do
    let f ← builtin "getattr"
    let x ← expr object
    let a ← literal (.str name)
    apply f [x, a]
  | .subscript pos object index => located pos do
    let f ← builtin "index"
    let x ← expr object
    let i ← expr index
    apply f [x, i]
  | .slice pos lower upper step => located pos do
    let f ← builtin "slice"
    let a ← exprOr (.int 0) lower
    let b ← exprOr .none upper
    let c ← exprOr (.int 1) step
    apply f [a, b, c]
  | .tuple pos items => located pos do
    let id ← newId
    pure (.tuple id (← exprs items))
  | .lambda pos params body => located pos do
    let ref ← globalName "#lambda"
    let p ← closureScope (some "#lambda") ref
    let ((xs, b), p) ← inScope p do
      let xs ← params.names.mapM newVariable
      let b ← expr body
      pure (xs, b)
    construct p xs b
  | .other pos kind => do unrecognized kind (some ((← get).place pos))

def exprs : List Expr → Reader (List Term)
  | [] => pure []
  | e :: es => do
    let t ← expr e
    pure (t :: (← exprs es))
termination_by structural es => es

def firstExpr : List Expr → Reader Term
  | [] => throw .broken
  | e :: _ => expr e

def exprOr (missing : Value) : Option Expr → Reader Term
  | some e => expr e
  | none => literal missing

end

mutual

def stmt : Stmt → Reader Reading
  | .assign pos targets value => located pos do
    match targets with
    | [target] =>
      match target with
      | .tuple .. => do
        let v ← expr value
        let k ← pattern target
        pure ⟨[.assign k v], none⟩
      | .subscript _ object index =>
        match plainName? object with
        | some name => do
          let v ← expr value
          let f ← builtin "setslice"
          let x ← expr object
          let i ← expr index
          let new ← apply f [x, i, v]
          pure ⟨[.assign (.name (← declare name)) new], none⟩
        | none => syntaxFailure "You can only set a slice on a variable."
      | .name _ name => do
        let v ← expr value
        pure ⟨[.assign (.name (← declare name)) v], none⟩
      | .attribute _ object attr =>
        match plainName? object with
        | some name => do
          let f ← builtin "setattr"
          let x ← expr object
          let a ← literal (.str attr)
          let v ← expr value
          let new ← apply f [x, a, v]
          pure ⟨[.assign (.name (← declare name)) new], none⟩
        | none => syntaxFailure "You can only set attributes on a variable."
      | _ => do throw { kind := .syntaxError, location := ← currentLocation }
    | _ => throw .badValue
  | .augment pos target op value => located pos do
    match target with
    | .name p name => do
      let v ← expr value
      let f ← operator op
      let _ ← occurrence name
      let old ← located p (existing name false)
      let new ← apply f [.ident old, v]
      pure ⟨[.assign (.name (← declare name)) new], none⟩
    | _ => syntaxFailure "Augmented assignment to subscripts or slices is not supported."
  | .expr pos value => located pos do
    let t ← expr value
    pure ⟨[.term t], ← findLocation t⟩
  | .ret pos value => located pos do
    match (← get).returnError with
    | some message => syntaxFailure message
    | none =>
      modify fun s => { s with returns := true }
      match value with
      | some e =>
        let t ← expr e
        pure ⟨[.term t], ← findLocation t⟩
      | none => unrecognized "NoneType" none
  | .raise pos value => located pos do
    match (← get).returnError with
    | some message => syntaxFailure message
    | none =>
      modify fun s => { s with returns := true }
      let f ← builtin "raise_exception"
      match value with
      | some e =>
        let t ← apply f [← expr e]
        pure ⟨[.term t], ← findLocation t⟩
      | none => unrecognized "NoneType" none
  | .define pos name params decorators body => located pos do
    checkParams params
    if !decorators.isEmpty then syntaxFailure "Functions should not have decorators."
    let clause ← defineFunction name params (grouped (clausesOf body))
    pure ⟨[clause], none⟩
  | .branch pos test body orelse => located pos do
    if orelse.isEmpty then
      syntaxFailure "All if statements must be associated to an else statement."
    let p1 ← closureScope none (← partName Relation.thenBranch)
    let (thenGroups, p1) ← inScope p1 (grouped (clausesOf body))
    let p2 ← closureScope none (← partName Relation.elseBranch)
    let (elseGroups, p2) ← inScope p2 (grouped (clausesOf orelse))
    if p1.returns != p2.returns then
      syntaxFailure ("Either none or all branches of an if statement must return " ++
        "a value or raise an exception.")
    let sort (xs : List String) := xs.mergeSort fun a b => a ≤ b
    if sort p1.assigned != sort p2.assigned then
      syntaxFailure ("All branches of an if statement must assign to the same set " ++
        " of variables.\nTrue branch sets: " ++ " ".intercalate (sort p1.assigned) ++
        "\nElse branch sets: " ++ " ".intercalate (sort p2.assigned))
    let conditional := conditional (p1, thenGroups) (p2, elseGroups) (expr test)
    if p1.returns then
      modify fun s => { s with returns := true }
      let t ← conditional none none
      pure ⟨[.term t], ← findLocation t⟩
    else
      match p1.assigned with
      | [name] => do
        let (a, _) ← inScope p1 (existing name)
        let (b, _) ← inScope p2 (existing name)
        let t ← conditional (some (.ident a)) (some (.ident b))
        pure ⟨[.assign (.name (← declare name)) t], none⟩
      | names => do
        let idA ← newId
        let (as, _) ← inScope p1 (names.mapM (existing ·))
        let idB ← newId
        let (bs, _) ← inScope p2 (names.mapM (existing ·))
        let t ← conditional (some (.tuple idA (as.map .ident)))
          (some (.tuple idB (bs.map .ident)))
        pure ⟨[← assignAll names t], none⟩
  | .whileLoop pos test body => located pos do
    let testName ← partName Relation.loopTest
    let bodyName ← partName Relation.loopBody
    let trial ← onTrial do
      let _ ← expr test
      grouped (clausesOf body)
    let outVars := trial.assigned
    let inVars := trial.loopNames
    let (ins, p) ← loopScope testName (inVars.mapM newVariable)
    let (ins2, pp) ← loopScope bodyName (inVars.mapM newVariable)
    let (initial, p) ← inScope p (outVars.mapM (existing ·))
    let (t, _) ← inScope p (expr test)
    let (gs, pp) ← inScope pp (grouped (clausesOf body))
    let (again, _) ← inScope pp (inVars.mapM (existing ·))
    let next ← apply (.ident testName) (again.map .ident)
    let loopBody ← finish (some next) gs
    let loopFn ← aboutPlaceOf loopBody (register bodyName ins2 loopBody)
    registerTest testName t loopFn ins initial
    let args ← inVars.mapM occurrence
    let value ← apply (.ident testName) (args.map .ident)
    pure ⟨[← assignAll outVars value], none⟩
  | .forLoop pos target iter body hasElse => located pos do
    if hasElse then syntaxFailure "For loops may not have an else: clause."
    let testName ← partName Relation.loopTest
    let bodyName ← partName Relation.loopBody
    let trial ← onTrial (grouped (clausesOf body))
    let outVars := trial.assigned
    let inVars := trial.loopNames
    let ((at_, items, item, ins), p) ← loopScope bodyName (iterationVariables target inVars)
    let (initial, p) ← inScope p (outVars.mapM (existing ·))
    let lessFn ← builtin "less"
    let lenFn ← builtin "len"
    let t ← apply lessFn [.ident at_, ← apply lenFn [.ident items]]
    let (gs, p) ← inScope p (grouped (clausesOf body))
    let addFn ← builtin "add"
    let nextAt ← apply addFn [.ident at_, ← literal (.int 1)]
    let (again, _) ← inScope p (inVars.mapM (existing ·))
    let next ← apply (.ident testName) (nextAt :: .ident items :: again.map .ident)
    let loopBody ← finish (some next) gs
    let indexFn ← builtin "index"
    let element ← apply indexFn [.ident items, .ident at_]
    let loopBody ← bind [(.ident item, element)] loopBody
    let loopFn ← aboutPlaceOf loopBody (register bodyName ins loopBody)
    registerTest testName t loopFn ins initial
    let listVar : Ident ← ident (← freshPlain (← get).generator "~li~")
    let start ← literal (.int 0)
    let args ← inVars.mapM occurrence
    let value ← apply (.ident testName) (start :: .ident listVar :: args.map .ident)
    let list ← expr iter
    let loc ← currentLocation
    pure ⟨[.assign (.name listVar) list, ← assignAll outVars value], loc⟩
  | .other pos kind => do unrecognized kind (some ((← get).place pos))

/-- Reads statements in order. Nothing may follow a return. -/
def clausesOf : List Stmt → Reader (List Clause)
  | [] => pure []
  | s :: rest => do
    let returned := (← get).returns
    let r ← stmt s
    if returned then syntaxFailure "There should be no statements after return." r.blame
    pure (r.clauses ++ (← clausesOf rest))

end

end DiffLang.Reading
