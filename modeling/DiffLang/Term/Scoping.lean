import DiffLang.Session

/-!
# Checks on terms

Two questions about a term: which of its variables are bound nowhere, and which of its nodes have
lost their place in the text. Only nodes of the term language can be asked.
-/

namespace DiffLang.Scoping

def patternSymbols : Term → List Symbol
  | .ident x => [x.sym]
  | .tuple _ items => go items
  | _ => []
where
  go : List Term → List Symbol
  | [] => []
  | t :: ts => patternSymbols t ++ go ts

mutual

/-- The variables of a term that are not among the `known` ones and not bound inside, in the order
in which they occur. Global names are never unbound. -/
def unbound (known : List Symbol) : Term → Fallible (List Symbol)
  | .ident x => pure (if x.sym.isGlobal || known.contains x.sym then [] else [x.sym])
  | .literal .. => pure []
  | .lambda _ params body => unbound (params.map (·.sym)) body
  | .bind _ bindings body => do
    let (found, known') ← unboundBindings known bindings
    pure (found ++ (← unbound known' body))
  | .apply _ fn args => do pure ((← unbound known fn) ++ (← unboundAll known args))
  | .closure _ fn args => do pure ((← unbound known fn) ++ (← unboundAll known args))
  | .sequence _ steps => unboundAll known steps
  | .tuple _ items => unboundAll known items
  | .assign .. => pure []
  | .group .. => throw .missingAttribute

def unboundAll (known : List Symbol) : List Term → Fallible (List Symbol)
  | [] => pure []
  | t :: ts => do pure ((← unbound known t) ++ (← unboundAll known ts))

def unboundBindings (known : List Symbol) :
    List (Term × Term) → Fallible (List Symbol × List Symbol)
  | [] => pure ([], known)
  | (k, v) :: rest => do
    let found ← unbound known v
    let (more, known') ← unboundBindings (patternSymbols k ++ known) rest
    pure (found ++ more, known')

end

def placeless (s : Session) (t : Term) : List Term :=
  if (s.placeOf s.origins.size (.term t)).isNone then [t] else []

mutual

def missing (s : Session) : Term → Fallible (List Term)
  | .ident x => pure (placeless s (.ident x))
  | .literal id v => pure (placeless s (.literal id v))
  | .lambda id params body => do
    pure (placeless s (.lambda id params body) ++
      params.flatMap (fun p => placeless s (.ident p)) ++ (← missing s body))
  | .bind id bindings body => do
    pure (placeless s (.bind id bindings body) ++ (← missingBindings s bindings) ++
      (← missing s body))
  | .apply id fn args => do
    pure (placeless s (.apply id fn args) ++ (← missing s fn) ++ (← missingAll s args))
  | .closure id fn args => do
    pure (placeless s (.closure id fn args) ++ (← missing s fn) ++ (← missingAll s args))
  | .sequence id steps => do
    pure (placeless s (.sequence id steps) ++ (← missingAll s steps))
  | .tuple id items => do pure (placeless s (.tuple id items) ++ (← missingAll s items))
  | .assign id k v => pure (placeless s (.assign id k v))
  | .group .. => throw .missingAttribute

def missingAll (s : Session) : List Term → Fallible (List Term)
  | [] => pure []
  | t :: ts => do pure ((← missing s t) ++ (← missingAll s ts))

def missingBindings (s : Session) : List (Term × Term) → Fallible (List Term)
  | [] => pure []
  | (k, v) :: rest => do
    pure ((← missing s k) ++ (← missing s v) ++ (← missingBindings s rest))

end

end DiffLang.Scoping
