import DiffLang.Report.Graphs

/-!
# Reports on terms made by hand

A term is built from a sketch, and everything that can be asked of it is: its text and its parts,
its variables, and, for a function, what the compiler makes of it.
-/

namespace DiffLang.Report

open Session

inductive Sketch where
  | symbol (name : String)
  | again (name : String)
  | derived (base : Sketch) (relation : String)
  | raw (name space : String) (version : Nat)
  | operation (name : String)
  | literal (value : Data)
  | apply (fn : Sketch) (args : List Sketch)
  | tuple (items : List Sketch)
  | sequence (steps : List Sketch)
  | group (items : List Sketch)
  | closure (fn : Sketch) (args : List Sketch)
  | bind (bindings : List (Sketch × Sketch)) (body : Sketch)
  | lambda (params : List Sketch) (body : Sketch)
  | assign (target value : Sketch)
deriving Inhabited

/-- The symbols made so far, by name, and the generator that makes them. -/
structure SketchBook where
  generator : GeneratorId
  symbols : List (String × Ident) := []

abbrev Drawing := StateT SketchBook Run

def namedSymbol (name : String) : Drawing Ident := do
  let b ← get
  match b.symbols.lookup name with
  | some x => pure x
  | none =>
    let x ← ident (← freshPlain b.generator name)
    set { b with symbols := b.symbols ++ [(name, x)] }
    pure x

def handRef : Symbol := .plain "f" (.named "global:test") 1

def identsOf (ts : List Term) : List Ident :=
  ts.filterMap fun
    | .ident x => some x
    | _ => none

mutual

def Sketch.build : Sketch → Drawing Term
  | .symbol n => do pure (.ident (← namedSymbol n))
  | .again n => do symbolTerm (← freshPlain (← get).generator n)
  | .derived base relation => do
    match ← base.build with
    | .ident x => symbolTerm (← freshDerived (← get).generator x.sym relation)
    | _ => throw .broken
  | .raw n space version => symbolTerm (.plain n (.named space) version)
  | .operation n => builtin n
  | .literal d => do literal (← plainValue d)
  | .apply fn args => do apply (← fn.build) (← buildAll args)
  | .tuple items => do tuple (← buildAll items)
  | .sequence steps => do
    let ts ← buildAll steps
    pure (.sequence (← newId) ts)
  | .group items => do
    let ts ← buildAll items
    pure (.group (← newId) ts)
  | .closure fn args => do closure (← fn.build) (← buildAll args)
  | .bind bindings body => do bind (← buildPairs bindings) (← body.build)
  | .lambda params body => do
    let ps ← buildAll params
    let b ← body.build
    let id ← newLambda (identsOf ps) b (some (← get).generator)
    let ref ← ident handRef
    modifyLambda id fun l => { l with ref := some ref }
    pure (.lambda id (identsOf ps) b)
  | .assign target value => do
    let k ← target.build
    let v ← value.build
    pure (.assign (← newId) k v)

def buildAll : List Sketch → Drawing (List Term)
  | [] => pure []
  | s :: ss => do pure ((← s.build) :: (← buildAll ss))

def buildPairs : List (Sketch × Sketch) → Drawing (List (Term × Term))
  | [] => pure []
  | (k, v) :: rest => do pure ((← k.build, ← v.build) :: (← buildPairs rest))

end

/-! ## Questions -/

def partsOf : Term → Fallible (List Term)
  | .group .. => .error .missingAttribute
  | t => .ok t.children

mutual

def wrapLeaves : Term → Run Term
  | .tuple _ items => do tuple (← wrapAll items)
  | t => do apply (← builtin "identity") [t]

def wrapAll : List Term → Run (List Term)
  | [] => pure []
  | t :: ts => do pure ((← wrapLeaves t) :: (← wrapAll ts))

end

mutual

/-- Walks through nested tuples and values together. Returns the values met at leaves, and whether
the shapes agree. -/
def pairLeaves : Term → Value → List Value × Bool
  | .tuple _ items, v =>
    match v with
    | .tuple vs => if items.length = vs.length then pairAll items vs else ([], false)
    | _ => ([], false)
  | _, v => ([v], true)

/-- Walks through terms and values in parallel, as long as their shapes agree. -/
def pairAll : List Term → List Value → List Value × Bool
  | t :: ts, v :: vs =>
    match pairLeaves t v with
    | (seen, true) =>
      let (more, fits) := pairAll ts vs
      (seen ++ more, fits)
    | failed => failed
  | _, _ => ([], true)

end

mutual

/-- Whether two nodes are equal: variables by their symbols, literals by their values, lists item
by item, and all others only to themselves. -/
def sameTerm : Term → Term → Fallible Bool
  | .ident x, u =>
    match u with
    | .ident y => .ok (x.sym == y.sym)
    | _ => .ok false
  | .literal _ v, u =>
    match u with
    | .literal _ w => v.same w
    | _ => .ok false
  | .group _ ts, u =>
    match u with
    | .group _ us => if ts.length = us.length then sameTerms ts us else .ok false
    | _ => .ok false
  | t, u => .ok (t.id == u.id)

def sameTerms : List Term → List Term → Fallible Bool
  | t :: ts, u :: us => do if ← sameTerm t u then sameTerms ts us else pure false
  | _, _ => .ok true

end

/-- What the compiler makes of a function: its A-normal form, its gradient, its graph, and its
code with variables. -/
def compilations (id : TermId) : Run (List (String × Data)) := do
  let normal ← step do pure (.text (← Report.lambdaTerm (← Normal.ofLambda id)).text)
  let ref ← Program.refOf id
  associate ref (.lambda id)
  let grad ← step do pure (.text (← Report.lambdaTerm (← Gradient.ofLambda id)).text)
  let graph ← step do
    let g ← Graph.ofLambda id
    pure (ofGraphs (← get) true g)
  let code ← step do
    let code ← Run.lift (← getLambda id).body.code
    pure (ofCode (← get) false code.toArray)
  pure [("anf", normal), ("grad", grad), ("ir", graph), ("legacy", code)]

structure TermQuestions where
  other : Option Sketch := none
  values : Option Data := none
  missing : Bool := false

def term (sketch : Sketch) (q : TermQuestions) : Run Data := do
  let generator ← newGenerator (.named "test")
  let (t, book) ← sketch.build.run { generator }
  let children ← step do
    pure (.texts ((← Run.lift (partsOf t)).map Term.text))
  let unbound ← step do
    pure (.texts ((← Run.lift (Scoping.unbound [] t)).map Symbol.text))
  let wrapped ← step do pure (.text (← wrapLeaves t).text)
  let paired ← match q.values with
    | none => pure []
    | some d =>
      let (seen, fits) := pairLeaves t (← plainValue d)
      let result := if fits then Data.text t.text else ofFailure .broken
      pure [("maptup2", result), ("pairs", .list (← seen.mapM value))]
  let compared ← match q.other with
    | none => pure []
    | some other =>
      let (u, _) ← other.build.run book
      pure [("eq", ← step do pure (.bool (← Run.lift (sameTerm t u))))]
  let missing ← if !q.missing then pure [] else do
    let d ← step do
      pure (.texts ((← Run.lift (Scoping.missing (← get) t)).map Term.text))
    pure [("missing", d)]
  let compiled ← match t with
    | .lambda id _ _ => compilations id
    | _ => pure []
  pure (.record ([("str", .text t.text), ("children", children), ("unbound", unbound),
    ("maptup", wrapped)] ++ paired ++ compared ++ missing ++ compiled))

end DiffLang.Report
