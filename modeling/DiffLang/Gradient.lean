import DiffLang.Operation
import DiffLang.Prelude
import DiffLang.Program
import DiffLang.Term.Normal
import DiffLang.Term.Scoping

/-!
# Gradients

Every function `f` has an augmented function `↑f`, which returns what `f` returns together with a
backpropagator. The backpropagator takes the sensitivity of the result and returns those of the
arguments.

| binding          | forward                 | backward                    |
|------------------|-------------------------|-----------------------------|
| `x = y`          | `↑x = ↑y`               | `∇y += ∇x`                  |
| `x = 5`          | `↑x = 5`                |                             |
| `x = (y, z)`     | `↑x = (↑y, ↑z)`         | `∇y, ∇z += ∇x`              |
| `x = f(y)`       | `↑x, ♢x = ↑f(↑y)`       | `∇f, ∇y += ♢x(∇x)`          |
| `x = f with y`   | `↑x = ↑f with ↑y`       | `∇y += ∇x`                  |

Here `∇y += e` makes a new variable, so that every variable is still set once. The sensitivities
of the arguments that a partial application supplied are grouped into one tuple.
-/

namespace DiffLang.Gradient

open Session

structure State where
  generator : Option GeneratorId
  tagged : List (Symbol × Ident) := []
  sensitivities : List (Symbol × Ident) := []
  backpropagators : List (Symbol × Ident) := []
  patternBackpropagators : List (TermId × Ident) := []
  zeros : List (Term × Term) := []
  needed : List Ident := []
  relevant : List Symbol := []

def State.need (s : State) (x : Ident) : State :=
  { s with needed := if s.needed.any (·.sym == x.sym) then s.needed else s.needed ++ [x] }

abbrev Grad := StateT State Run

def about {α : Type} (t : Term) (transform : String) (act : Grad α) : Grad α := fun s =>
  Run.about (.term t) transform (act s)

/-! ## Variables -/

def derive (base : Symbol) (relation : String) : Grad Ident := do
  match (← get).generator with
  | some g => do ident (← freshDerived g base relation)
  | none => throw .typeMismatch

def plain (label : String) : Grad Ident := do
  match (← get).generator with
  | some g => do ident (← freshPlain g label)
  | none => throw .typeMismatch

def mapPattern (f : Term → Grad Term) : Term → Grad Term
  | .tuple _ items => do
    let ts ← go items
    tuple ts
  | t => f t
where
  go : List Term → Grad (List Term)
  | [] => pure []
  | t :: ts => do
    let r ← mapPattern f t
    pure (r :: (← go ts))

/-- The augmented variable `↑v`, which is made the first time. -/
def taggedSymbol (x : Ident) : Grad Ident := about (.ident x) "g:tag" do
  if x.sym.isGlobal then throw .broken
  let new ← derive x.sym Relation.augmented
  let s ← get
  match s.tagged.lookup x.sym with
  | some y => pure y
  | none =>
    set { s with tagged := s.tagged ++ [(x.sym, new)] }
    pure new

def taggedLeaf : Term → Grad Term
  | .ident x => do pure (.ident (← taggedSymbol x))
  | t => about t "g:tag" do
    let sort := "<class 'myia.stx.nodes." ++ t.sortName ++ "'>"
    throw (.because .type s!"Cannot tag {t.text} of type {sort}")

def taggedVariable (t : Term) : Grad Term :=
  match t with
  | .tuple .. => about t "g:tag" (mapPattern taggedLeaf t)
  | t => taggedLeaf t

/-- The augmented form of a leaf: literals are their own, global names are augmented when they are
used. -/
def taggedExpr (t : Term) : Grad Term := about t "g:tag" do
  match t with
  | .literal .. => pure t
  | .ident x =>
    if x.sym.isGlobal then
      let j ← builtin "J"
      apply j [t]
    else pure (.ident (← taggedSymbol x))
  | _ => throw .broken

def newSensitivity (t : Term) : Grad Ident := about t "g:sens" do
  match t with
  | .ident x =>
    let new ← derive x.sym Relation.sensitivity
    modify fun s => { s with sensitivities := put (· == ·) x.sym new s.sensitivities }
    pure new
  | t => throw (.because .type s!"Cannot make sensitivity var for {t.text}")

def zero : Run Term := literal .zero

def isZero : Term → Bool
  | .literal _ .zero => true
  | _ => false

def sensitivityLeaf (t : Term) : Grad Term := about t "g:sens" do
  match t with
  | .ident x =>
    match (← get).sensitivities.lookup x.sym with
    | some y => pure (.ident y)
    | none => zero
  | _ => throw .tooDeep

/-- The latest sensitivity of a pattern, zero if all its parts are. It is only good as the first
term of a sum, which need not have the shape of the second. -/
def sensitivity (t : Term) : Grad Term :=
  match t with
  | .tuple .. => about t "g:sens" do
    match ← mapPattern sensitivityLeaf t with
    | .tuple id items => if items.all isZero then zero else pure (.tuple id items)
    | r => pure r
  | t => sensitivityLeaf t

def startAtZero (t : Term) : Grad Ident := about t "g:zinit" do
  let new ← newSensitivity t
  match ← taggedVariable t with
  | .ident tagged =>
    let zerosLike ← builtin "zeros_like"
    let jinv ← builtin "Jinv"
    let start ← apply zerosLike [← apply jinv [.ident tagged]]
    modify fun s => { s.need tagged with zeros := s.zeros ++ [(.ident new, start)] }
    pure new
  | _ => throw .broken

def shapedLeaf (t : Term) : Grad Term := about t "g:sens" do
  match t with
  | .ident x =>
    match (← get).sensitivities.lookup x.sym with
    | some y => pure (.ident y)
    | none => pure (.ident (← startAtZero t))
  | _ => throw .tooDeep

def shapedSensitivity (t : Term) : Grad Term :=
  match t with
  | .tuple .. => about t "g:sens" (mapPattern shapedLeaf t)
  | t => shapedLeaf t

/-- The backpropagator `♢v` of a variable or pattern, which is made the first time. -/
def backpropagator (t : Term) : Grad Ident := about t "g:bprop" do
  match t with
  | .ident x =>
    let new ← derive x.sym Relation.backpropClosure
    let s ← get
    match s.backpropagators.lookup x.sym with
    | some y => pure y
    | none =>
      set { s with backpropagators := s.backpropagators ++ [(x.sym, new)] }
      pure new
  | .tuple id _ =>
    let base ← plain Relation.temporaryBackprop
    let new ← derive base.sym Relation.backpropClosure
    let s ← get
    match s.patternBackpropagators.lookup id with
    | some y => pure y
    | none =>
      set { s with patternBackpropagators := s.patternBackpropagators ++ [(id, new)] }
      pure new
  | _ => throw .typeMismatch

/-! ## What matters -/

def dependencies : Term → List Symbol
  | .apply _ fn args => (fn :: args).filterMap Term.symbol?
  | .ident x => [x.sym]
  | .tuple _ items => items.filterMap Term.symbol?
  | .closure _ fn args => (fn :: args).filterMap Term.symbol?
  | _ => []

def influenced (bindings : List (Term × Term)) (xs : List Symbol) : List Symbol :=
  bindings.flatMap fun (k, v) =>
    if (dependencies v).any xs.contains then Scoping.patternSymbols k else []

/-- The variables that depend on the variables of interest, these included. Each round adds a
variable or is the last, so as many rounds as there are bindings are enough. -/
def relevantFrom (bindings : List (Term × Term)) : Nat → List Symbol → List Symbol
  | 0, xs => xs
  | n + 1, xs =>
    match (influenced bindings xs).filter (!xs.contains ·) with
    | [] => xs
    | new => relevantFrom bindings n (xs ++ new)

/-! ## Sums of sensitivities -/

def accumulate (leaf value : Term) : Grad (List (Term × Term)) := about value "g:sens_acc" do
  match leaf with
  | .literal .. => pure []
  | leaf =>
    let old ← sensitivity leaf
    let new ← newSensitivity leaf
    if isZero old then pure [(.ident new, value)]
    else
      let plus ← builtin "add"
      pure [(.ident new, ← apply plus [old, value])]

/-- The parts of a sum over several leaves. -/
structure Sum where
  seen : List Symbol := []
  left : List Term := []
  right : List Term := []
  later : List (Term × Term) := []

/-- Adds one leaf to a sum. A leaf that does not matter gets a variable that stands for nothing;
a variable that comes a second time gets a temporary, which is added afterwards. -/
def addLeaf (sum : Sum) (leaf : Term) : Grad Sum := about leaf "g:sens_acc" do
  let dummy : Grad Sum := do
    let x : Ident ← freshNothing
    let z ← zero
    pure { sum with left := sum.left ++ [.ident x], right := sum.right ++ [z] }
  match leaf with
  | .ident x =>
    if !(← get).relevant.contains x.sym then dummy
    else if sum.seen.contains x.sym then
      let temporary ← derive x.sym Relation.temporarySensitivity
      let plus ← builtin "add"
      let current ← shapedSensitivity leaf
      let more ← apply plus [.ident temporary, current]
      let new ← newSensitivity leaf
      let z ← zero
      pure
        { sum with
          left := sum.left ++ [.ident temporary]
          right := sum.right ++ [z]
          later := sum.later ++ [(.ident new, more)] }
    else
      let old ← sensitivity leaf
      let new ← newSensitivity leaf
      pure
        { sum with
          seen := x.sym :: sum.seen
          left := sum.left ++ [.ident new]
          right := sum.right ++ [old] }
  | _ => dummy

def accumulateAll (leaves : List Term) (value : Term) : Grad (List (Term × Term)) := do
  let sum ← leaves.foldlM addLeaf {}
  let total ← about value "g:sens_rhs" do
    if sum.right.all isZero then pure value
    else
      let plus ← builtin "add"
      apply plus [← tuple sum.right, value]
  let left ← tuple sum.left
  pure ((left, total) :: sum.later)

def leaves (ts : List Term) : Grad (List Term) :=
  if ts.all Normal.isLeaf then pure ts else throw .broken

/-! ## Bindings -/

/-- The forward part of a binding. `find` gives the augmented form of a global function. -/
def forward (find : Symbol → Nat → Run Ident) (target value : Term) :
    Grad (List (Term × Term)) := about value "g:phi" do
  match value with
  | .ident _ =>
    let x ← taggedVariable target
    pure [(x, ← taggedExpr value)]
  | .literal .. => pure [(← taggedVariable target, value)]
  | .tuple _ items =>
    let x ← taggedVariable target
    let ts ← items.mapM taggedExpr
    pure [(x, ← tuple ts)]
  | .apply _ fn args =>
    let x ← taggedVariable target
    let b ← backpropagator target
    let pair ← tuple [x, .ident b]
    let f ← taggedExpr fn
    let ts ← args.mapM taggedExpr
    pure [(pair, ← apply f ts)]
  | .closure _ fn args =>
    match fn with
    | .ident f =>
      if !f.sym.isGlobal then
        throw (.because .exception
          "First argument to ClosureNode should always be a global variable.")
      let ts ← args.mapM taggedExpr
      let augmented : Ident ← find f.sym args.length
      let c ← closure (.ident augmented) ts
      pure [(← taggedVariable target, c)]
    | _ => throw .broken
  | v => throw (.because .exception s!"phi is not defined on node type: {v.text}")

def backward (target value : Term) : Grad (List (Term × Term)) := about value "g:rho" do
  if isZero (← sensitivity target) then pure []
  else
    let s ← shapedSensitivity target
    match value with
    | .ident _ => accumulate value s
    | .literal .. => pure []
    | .tuple _ items => accumulateAll (← leaves items) s
    | .apply _ fn args =>
      let ls ← leaves (fn :: args)
      let b ← backpropagator target
      let increment ← apply (.ident b) [s]
      modify (·.need b)
      accumulateAll ls increment
    | .closure _ _ args => accumulateAll (← leaves args) s
    | v => throw (.because .exception s!"rho is not defined on node type: {v.text}")

def gather (step : Term → Term → Grad (List (Term × Term))) :
    List (Term × Term) → Grad (List (Term × Term))
  | [] => pure []
  | (k, v) :: rest => do
    let bs ← step k v
    pure (bs ++ (← gather step rest))

/-! ## Functions -/

def bodyParts : Term → Grad (List (Term × Term) × Ident)
  | .ident x => do
    let t ← plain Relation.temporaryLet
    pure ([(.ident t, .ident x)], t)
  | .bind _ bindings (.ident x) => pure (bindings, x)
  | _ => throw .broken

/-- The augmented form of a function in A-normal form. The first `grouped` sensitivities are those
of the arguments that a partial application supplied. -/
def transform (find : Symbol → Nat → Run Ident) (name : Symbol) (l : Lambda) (grouped : Nat) :
    Run TermId := do
  let augmentedRef ← ident (← freshDerived Fixed.gradient.id name Relation.augmented)
  let work : Grad TermId := do
    let (bindings, result) ← bodyParts l.body
    let start := l.params.map (·.sym)
    modify fun s => { s with relevant := relevantFrom bindings (bindings.length + 1) start }
    let out ← newSensitivity (.ident result)
    let ahead ← gather (forward find) bindings
    let back ← gather backward bindings.reverse
    let ends ← l.params.mapM fun p => shapedSensitivity (.ident p)
    let first ← tuple (ends.take grouped)
    let ret ← tuple (first :: ends.drop grouped)
    let s ← get
    let backRef : Ident ← ident (← freshDerived Fixed.gradient.id name Relation.backprop)
    let backBody ← Session.bind (s.zeros ++ back) ret
    let _ ← createLambda backRef (s.needed ++ [out]) backBody s.generator
    let made ← closure (.ident backRef) (s.needed.map .ident)
    let madeName ← derive name Relation.backpropClosure
    let value ← taggedExpr (.ident result)
    let pair ← tuple [value, .ident madeName]
    let body ← Session.bind (ahead ++ [(.ident madeName, made)]) pair
    let params ← l.params.mapM taggedSymbol
    let id ← createLambda augmentedRef params body s.generator
    modifyLambda id fun l => { l with primal := some name }
    pure id
  StateT.run' work { generator := l.generator }

/-! ## Finding gradients -/

def prelude : List (String × Source.Stmt) := Prelude.read Prelude.backpropagators

/-- The augmented form of an operation: the operation itself, and its backpropagator from the
prelude. -/
def ofOperation (op : Symbol) (name : String) (statement : Source.Stmt) (grouped : Nat) :
    Run TermId := do
  let backRef ← ident (.derived Relation.backprop op .builtinBackprop (grouped + 1))
  let back ← Program.readText Prelude.backpropagatorsUrl 1 [statement] (some grouped)
  let g ← privateGenerator
  let names := (Operation.params? name).getD []
  let params ← names.mapM fun n => do ident (← freshPlain g n)
  let j ← builtin "J"
  let inverses ← params.mapM fun p => do
    let jinv ← builtin "Jinv"
    apply jinv [.ident p]
  let call ← apply (.ident ⟨← bareId, op⟩) inverses
  let ahead ← apply j [call]
  let made ← closure (.ident backRef) (params.map .ident)
  let ref ← ident (← freshDerived Fixed.gradient.id op Relation.augmented)
  let id ← createLambda ref params (← tuple [ahead, made]) (some g)
  modifyLambda id fun l => { l with primal := some op }
  associate backRef back
  pure id

def preludeFor? : Symbol → Option (String × Source.Stmt)
  | .plain label space 1 =>
    if space = .builtin then (prelude.lookup ("bprop_" ++ label)).map (label, ·) else none
  | _ => none

/-- The augmented form of what a symbol stands for. A function's augmented form may need those of
the functions inside it; `fuel` bounds how deeply. -/
def find : Nat → Symbol → Nat → Run TermId
  | 0, _, _ => throw .tooDeep
  | fuel + 1, ref, grouped => do
    match (← get).gradients.lookup (ref, grouped) with
    | some id => pure id
    | none =>
      let id ← match preludeFor? ref with
        | some (name, statement) => ofOperation ref name statement grouped
        | none =>
          let v ← do
            match ← Run.attempt (Program.resolve (.symbol ref)) with
            | .ok v => pure v
            | .error f =>
              if f.kind = .key then
                throw (.because .name s!"No gradient defined for primitive '{ref.text}'.")
              else throw f
          let normal ← getLambda (← Normal.ofValue v)
          transform (findRef fuel) ref normal grouped
      modify fun s => { s with gradients := s.gradients ++ [((ref, grouped), id)] }
      pure id
where
  findRef (fuel : Nat) (ref : Symbol) (grouped : Nat) : Run Ident := do
    Program.refOf (← find fuel ref grouped)

def depth : Nat := 1000

def ofNormal (name : Symbol) (normal : TermId) (grouped : Nat := 0) : Run TermId := do
  transform (fun ref n => do Program.refOf (← find depth ref n)) name (← getLambda normal) grouped

def ofLambda (id : TermId) (grouped : Nat := 0) : Run TermId := do
  let ref ← Program.refOf id
  ofNormal ref.sym (← Normal.ofLambda id) grouped

end DiffLang.Gradient
