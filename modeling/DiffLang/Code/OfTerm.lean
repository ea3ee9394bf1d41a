import DiffLang.Code

/-!
# Code with variables from terms

A term becomes code that leaves its value on top of the stack. Bindings store into variables, and
variables are fetched by name.
-/

namespace DiffLang.Term

def fetchOperation (name : String) : Step :=
  let op := Symbol.builtin name
  ⟨.fetch (.symbol op), .term (.ident ⟨0, op⟩)⟩

mutual

def code (t : Term) : Fallible (List Step) :=
  match t with
  | .ident x => .ok [⟨.fetch (.symbol x.sym), .term (.ident x)⟩]
  | .literal i v => .ok [⟨.push v, .term (.literal i v)⟩]
  | .apply i fn args => do
    let first ← code fn
    let rest ← codes args
    pure (first ++ rest ++ [⟨.reduce args.length, .term (.apply i fn args)⟩])
  | .sequence _ steps => codes steps
  | .closure i fn args => do
    let node := Term.closure i fn args
    let first ← code fn
    let rest ← codes args
    pure (first ++ fetchOperation "mktuple" :: rest ++
      [⟨.reduce args.length, .term node⟩, ⟨.closure, .term node⟩])
  | .bind i bindings body => do
    let first ← bindingCodes (.bind i bindings body) bindings
    pure (first ++ (← code body))
  | .tuple i items => do
    let rest ← codes items
    pure (fetchOperation "mktuple" :: rest ++
      [⟨.reduce items.length, .term (.tuple i items)⟩])
  | t =>
    .error (.because .attribute s!"No 'process_{t.sortName}' method to process {t.text}.")

def codes : List Term → Fallible (List Step)
  | [] => .ok []
  | t :: ts => do
    let first ← code t
    pure (first ++ (← codes ts))

def bindingCodes (whole : Term) : List (Term × Term) → Fallible (List Step)
  | [] => .ok []
  | (k, v) :: rest => do
    let first ← code v
    pure (first ++ ⟨.store k, .term whole⟩ :: (← bindingCodes whole rest))

end

end DiffLang.Term
