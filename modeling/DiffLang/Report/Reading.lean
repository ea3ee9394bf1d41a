import DiffLang.Report

/-!
# Reports on reading

The functions that reading a text registers, their A-normal forms, and what is wrong with either.
-/

namespace DiffLang.Report

def textName : String := "prog.py"

variable (firstLine : Nat)

def readAll (stmts : List Source.Stmt) : Run (TermId × List (Symbol × TermId)) := do
  let before := (← get).registry.length
  match ← Program.readSource textName firstLine stmts with
  | .lambda id => pure (id, ← lambdasAfter before)
  | _ => throw .broken

/-- The functions of a text, with the symbol of the first. -/
def reading (stmts : List Source.Stmt) (tree : Bool) : Run Data := do
  let (id, entries) ← readAll firstLine stmts
  let ref ← Program.refOf id
  pure (.record [("entry", .text ref.sym.text), ("lambdas", ← ofLambdas tree entries)])

def normalForms (stmts : List Source.Stmt) (tree : Bool) : Run Data := do
  let (_, entries) ← readAll firstLine stmts
  let normal ← entries.mapM fun (x, id) => do pure (x, ← Run.attempt (Normal.ofLambda id))
  let s ← get
  let (ds, _) := (normal.mapM fun (r : Symbol × Except Failure TermId) => do
    match r.2 with
    | .ok id => pure (Data.list [.text r.1.text, ← ofLambda s tree id])
    | .error f => pure (Data.list [.text r.1.text, ofFailure f])).run []
  pure (.list ds)

/-- What the gradient of a text's function makes: the options say whether to give trees, the A-normal
form of the result, and the unbound variables. -/
structure GradientOptions where
  grouped : Nat := 0
  tree : Bool := false
  normal : Bool := false
  unbound : Bool := false

def ofGradient (key : String) (tree : Bool) (g : TermId) (entries : List (Symbol × TermId)) :
    Run (List (String × Data)) := do
  let l ← Session.getLambda g
  let ref ← Program.refOf g
  pure [(key, .text ref.sym.text), ("primal", .option (l.primal.map fun p => .text p.text)),
    ("lambdas", ← ofLambdas tree entries)]

def gradient (stmts : List Source.Stmt) (options : GradientOptions) : Run Data := do
  let (id, _) ← readAll firstLine stmts
  let before := (← get).registry.length
  let g ← Gradient.ofLambda id options.grouped
  let entries ← lambdasAfter before
  let fields ← ofGradient "entry" options.tree g entries
  let free ← if !options.unbound then pure [] else do
    let found ← entries.mapM fun (_, id) => do
      Run.lift (Scoping.unbound [] (← lambdaTerm id))
    pure [("unbound", Data.texts (found.flatten.map Symbol.text))]
  let normal ← if !options.normal then pure [] else do
    pure [("anf", Data.text (← lambdaTerm (← Normal.ofLambda g)).text)]
  pure (.record (fields ++ normal ++ free))

/-- The gradients of builtin operations. A name that starts with a question mark is one that
nothing is known of. -/
def operationGradients (steps : List (String × Nat)) (tree : Bool) : Run Data := do
  let rows ← steps.mapM fun (name, grouped) => step do
    let before := (← get).registry.length
    let sym : Symbol :=
      if name.startsWith "?" then .plain (name.drop 1).toString (.named "global:nowhere") 1
      else .builtin name
    let g ← Gradient.find Gradient.depth sym grouped
    pure (.record (← ofGradient "ref" tree g (← lambdasAfter before)))
  pure (.list rows)

/-- The nodes without a place and the unbound variables of a function, as texts. -/
def faults (id : TermId) : Run (List Data) := do
  let t ← lambdaTerm id
  let lost ← Run.lift (Scoping.missing (← get) t)
  let free ← Run.lift (Scoping.unbound [] t)
  pure [.texts (lost.map Term.text), .texts (free.map Symbol.text)]

/-- The faults of the functions of a text, and of their A-normal forms. -/
def checks (stmts : List Source.Stmt) : Run Data := do
  let (_, entries) ← readAll firstLine stmts
  let rows ← entries.mapM fun (x, id) => do
    let own ← faults id
    let normal ← faults (← Normal.ofLambda id)
    pure (Data.list (.text x.text :: own ++ normal))
  pure (.list rows)

def operations (operators : List String) : Data :=
  .list (operators.map fun o =>
    match Reading.operation? o with
    | some name => .text name
    | none => ofFailure (.plain .notImplemented))

end DiffLang.Report
