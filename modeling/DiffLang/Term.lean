import DiffLang.Value.Text

/-!
# Terms

The language that programs are read into: variables, literals, bindings, functions, calls,
sequences, tuples and partial applications. Every node has a number of its own, under which the
session keeps where the node comes from; two nodes of equal shape are still two nodes.
-/

namespace DiffLang

abbrev TermId := Nat

/-- An occurrence of a symbol. -/
structure Ident where
  id : TermId
  sym : Symbol
deriving Inhabited

/-- A node of the term language. -/
inductive Term where
  | ident (x : Ident)
  | literal (id : TermId) (v : Value)
  | bind (id : TermId) (bindings : List (Term × Term)) (body : Term)
  | lambda (id : TermId) (params : List Ident) (body : Term)
  | apply (id : TermId) (fn : Term) (args : List Term)
  | sequence (id : TermId) (steps : List Term)
  | tuple (id : TermId) (items : List Term)
  /-- A function and its first arguments, not yet called. -/
  | closure (id : TermId) (fn : Term) (args : List Term)
  | assign (id : TermId) (target value : Term)
  | group (id : TermId) (items : List Term)
deriving Inhabited

namespace Term

def id : Term → TermId
  | .ident x => x.id
  | .literal i _ => i
  | .bind i _ _ => i
  | .lambda i _ _ => i
  | .apply i _ _ => i
  | .sequence i _ => i
  | .tuple i _ => i
  | .closure i _ _ => i
  | .assign i _ _ => i
  | .group i _ => i

def sortName : Term → String
  | .ident _ => "Symbol"
  | .literal .. => "ValueNode"
  | .bind .. => "LetNode"
  | .lambda .. => "LambdaNode"
  | .apply .. => "ApplyNode"
  | .sequence .. => "BeginNode"
  | .tuple .. => "TupleNode"
  | .closure .. => "ClosureNode"
  | .assign .. => "_Assign"
  | .group .. => "list"

def symbol? : Term → Option Symbol
  | .ident x => some x.sym
  | _ => none

def children : Term → List Term
  | .bind _ bindings body => (bindings.flatMap fun (a, b) => [a, b]) ++ [body]
  | .lambda _ params body => params.map .ident ++ [body]
  | .apply _ fn args => fn :: args
  | .sequence _ steps => steps
  | .tuple _ items => items
  | .closure _ fn args => fn :: args
  | _ => []

mutual

def text : Term → String
  | .ident x => x.sym.text
  | .literal _ v => v.innerText
  | .bind _ bindings body =>
    "(let (" ++ " ".intercalate (bindingTexts bindings) ++ ") " ++ text body ++ ")"
  | .lambda _ params body =>
    "(lambda (" ++ " ".intercalate (params.map fun p => p.sym.text) ++ ") " ++
      text body ++ ")"
  | .apply _ fn args => "(" ++ text fn ++ " " ++ " ".intercalate (texts args) ++ ")"
  | .sequence _ steps => "(begin " ++ " ".intercalate (texts steps) ++ ")"
  | .tuple _ items => "\x7b" ++ " ".intercalate (texts items) ++ "\x7d"
  | .closure _ fn args =>
    "(closure " ++ text fn ++ " " ++ " ".intercalate (texts args) ++ ")"
  | .assign _ target value => "(_assign " ++ text target ++ " " ++ text value ++ ")"
  | .group _ items => "[" ++ ", ".intercalate (texts items) ++ "]"

def texts : List Term → List String
  | [] => []
  | t :: ts => text t :: texts ts

def bindingTexts : List (Term × Term) → List String
  | [] => []
  | (k, v) :: rest => ("(" ++ text k ++ " " ++ text v ++ ")") :: bindingTexts rest

end

end Term

end DiffLang
