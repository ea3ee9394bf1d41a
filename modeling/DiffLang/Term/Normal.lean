import DiffLang.Session

/-!
# A-normal form

In A-normal form a function's body is a sequence of bindings, each of which is one call, tuple or
partial application of variables and literals:

    (f (g x))    becomes    (let ((f/in1 (g x)) (f/out (f f/in1))) f/out)

The names of the new variables say what they are for: `f/in1` is the first argument of a call of
`f`, `f/out` its result. The conversion first names every subterm, which may leave bindings inside
bindings, and then flattens them.
-/

namespace DiffLang.Normal

open Session

/-- What the value of a subterm is to be called. -/
inductive Place where
  /-- A variable, or a pattern of variables, that is already there. -/
  | target (t : Term)
  | label (name : String)
  /-- A new variable, with a label that the subterm suggests. -/
  | open

/-- The outcome for a subterm: what stands in its place, and the binding that this needs. -/
structure Named where
  term : Term
  binding : Option (Term × Term) := none

def fresh (gen : Option GeneratorId) (label : String) : Run Term := do
  match gen with
  | some g => symbolTerm (← freshPlain g label)
  | none => throw .missingAttribute

def name (gen : Option GeneratorId) (place : Option Place) (result : Term) (suggested : String) :
    Run Named := do
  match place with
  | none => pure { term := result }
  | some (.target t) => pure { term := t, binding := some (t, result) }
  | some (.label l) =>
    let x ← fresh gen l
    pure { term := x, binding := some (x, result) }
  | some .open =>
    let x ← fresh gen suggested
    pure { term := x, binding := some (x, result) }

def rootLabel : Symbol → String
  | .plain label _ _ => label
  | .derived _ base _ _ => rootLabel base

def baseName (fn : Symbol) : String :=
  let label := rootLabel fn
  if label.toList.contains '/' then ""
  else if label.startsWith "#" then label
  else String.ofList (label.toList.takeWhile fun c => c.isAlpha || c == '_')

/-- Finishes a call, tuple or partial application, from its parts and the bindings they need. -/
def finish (gen : Option GeneratorId) (place : Option Place) (base : String)
    (bindings : List (Term × Term)) (t : Term) : Run Named := do
  match place with
  | none =>
    let r ← name gen (some .open) t (base ++ "/out")
    let body ← Session.bind (bindings ++ r.binding.toList) r.term
    pure { term := body }
  | some _ =>
    let t ← if bindings.isEmpty then pure t else Session.bind bindings t
    name gen place t (base ++ "/out")

def isLeaf : Term → Bool
  | .ident _ | .literal .. => true
  | _ => false

/-- How many steps of a sequence matter: leaves only count at the end. -/
def countSteps : List Term → Nat
  | [] => 0
  | [_] => 1
  | t :: rest => (if isLeaf t then 0 else 1) + countSteps rest

def unrecognized {α : Type} (pass : String) (t : Term) : Run α :=
  throw (.because .exception s!"Unrecognized node type in {pass}: {t.sortName}")

def about {α : Type} (t : Term) (act : Run α) : Run α := Run.about (.term t) "a-normal" act

mutual

def nameAll (gen : Option GeneratorId) (place : Option Place) : Term → Run Named
  | .ident x => pure { term := .ident x }
  | .literal id v => pure { term := .literal id v }
  | .lambda id params body => about (.lambda id params body) do
    let l ← getLambda id
    let r ← nameAll l.generator none body
    let new ← newLambda params r.term l.generator
    name gen place (.lambda new params r.term) "lambda"
  | .bind id bindings body => about (.bind id bindings body) do
    let bs ← nameBindings gen bindings
    let r ← nameAll gen none body
    name gen place (← Session.bind bs r.term) "let"
  | .apply id fn args => about (.apply id fn args) do
    let f ← nameAll gen (some .open) fn
    match f.term with
    | .ident x =>
      let base := baseName x.sym
      let (ts, bs) ← nameParts gen base 1 args
      finish gen place base (f.binding.toList ++ bs) (← apply f.term ts)
    | _ => throw .broken
  | .tuple id items => about (.tuple id items) do
    let (ts, bs) ← nameParts gen "tup" 1 items
    finish gen place "tup" bs (← tuple ts)
  | .closure id fn args => about (.closure id fn args) do
    let f ← nameAll gen (some (.label "closure/in1")) fn
    let (ts, bs) ← nameParts gen "closure" 2 args
    finish gen place "closure" (f.binding.toList ++ bs) (← closure f.term ts)
  | .sequence id steps => about (.sequence id steps) do
    match countSteps steps with
    | 0 => throw .outOfRange
    | 1 => nameLast gen place steps
    | n =>
      let xs ← (List.replicate n ()).mapM fun _ => freshNothing
      let bs ← nameSteps gen xs steps
      match xs.getLast? with
      | some x => name gen place (← Session.bind bs (.ident x)) "let"
      | none => throw .outOfRange
  | t => unrecognized "ANormalTransformer" t

/-- Names the parts of a call or tuple, numbered from `n`. -/
def nameParts (gen : Option GeneratorId) (base : String) :
    Nat → List Term → Run (List Term × List (Term × Term))
  | _, [] => pure ([], [])
  | n, t :: ts => do
    let r ← nameAll gen (some (.label s!"{base}/in{n}")) t
    let (rest, bs) ← nameParts gen base (n + 1) ts
    pure (r.term :: rest, r.binding.toList ++ bs)

def nameBindings (gen : Option GeneratorId) : List (Term × Term) → Run (List (Term × Term))
  | [] => pure []
  | (k, v) :: rest => do
    let r ← nameAll gen (some (.target k)) v
    let bs ← nameBindings gen rest
    pure (r.binding.getD (k, r.term) :: bs)

def nameLast (gen : Option GeneratorId) (place : Option Place) : List Term → Run Named
  | [] => throw .outOfRange
  | [t] => nameAll gen place t
  | _ :: rest => nameLast gen place rest

/-- The steps of a sequence as bindings of variables that stand for nothing. -/
def nameSteps (gen : Option GeneratorId) : List Ident → List Term → Run (List (Term × Term))
  | x :: xs, [t] => do
    let r ← nameAll gen (some (.target (.ident x))) t
    let bs ← nameSteps gen xs []
    pure (r.binding.getD (.ident x, r.term) :: bs)
  | x :: xs, t :: rest =>
    if isLeaf t then nameSteps gen (x :: xs) rest
    else do
      let r ← nameAll gen (some (.target (.ident x))) t
      let bs ← nameSteps gen xs rest
      pure (r.binding.getD (.ident x, r.term) :: bs)
  | _, _ => pure []

end

/-! ## Flattening -/

def open? : Term → List (Term × Term) × Term
  | .bind _ bindings body => (bindings, body)
  | t => ([], t)

mutual

def flatten : Term → Run Term
  | .ident x => pure (.ident x)
  | .literal id v => pure (.literal id v)
  | .closure id fn args => pure (.closure id fn args)
  | .bind id bindings body => Run.about (.term (.bind id bindings body)) "collapse-let" do
    let bs ← flattenBindings bindings
    let (more, body) := open? (← flatten body)
    Session.bind (bs ++ more) body
  | .lambda id params body => Run.about (.term (.lambda id params body)) "collapse-let" do
    let l ← getLambda id
    let b ← flatten body
    let new ← newLambda params b l.generator
    pure (.lambda new params b)
  | .apply id fn args => Run.about (.term (.apply id fn args)) "collapse-let" do
    let f ← flatten fn
    apply f (← flattenAll args)
  | .tuple id items => Run.about (.term (.tuple id items)) "collapse-let" do
    tuple (← flattenAll items)
  | t => unrecognized "CollapseLet" t

def flattenAll : List Term → Run (List Term)
  | [] => pure []
  | t :: ts => do
    let r ← flatten t
    pure (r :: (← flattenAll ts))

/-- Puts the bindings inside each bound value before it. -/
def flattenBindings : List (Term × Term) → Run (List (Term × Term))
  | [] => pure []
  | (k, v) :: rest => do
    let (inner, v) := open? (← flatten v)
    let bs ← flattenBindings rest
    pure (inner ++ (k, v) :: bs)

end

/-- The A-normal form of a function, registered under a symbol derived from the function's. -/
def ofLambda (id : TermId) : Run TermId := do
  let l ← getLambda id
  let named ← nameAll none none (lambdaTerm id l)
  match ← flatten named.term with
  | .lambda new _ _ =>
    match l.ref with
    | none => throw .missingAttribute
    | some ref =>
      let x ← ident (← freshDerived Fixed.normal.id ref.sym Relation.normal)
      associate x (.lambda new)
      pure new
  | _ => throw .broken

def ofValue : Value → Run TermId
  | .lambda id => ofLambda id
  | _ => throw .broken

end DiffLang.Normal
