import DiffLang.Abstract.Machine
import DiffLang.Engine

/-!
# Abstract evaluation

A function is analysed for what is needed of each of its nodes, compiled, and run on abstract
values.
-/

namespace DiffLang.Abstract

structure Prepared where
  env : Nat
  fn : Nat
  lambda : Lambda
  flow : Dataflow.Flow

def prepare (id : TermId) (keys : List Value) : Run Prepared := do
  let l ← Session.getLambda id
  let start ← Run.lift (Dataflow.start [.value, .needs] (keys.map .value))
  let env ← Direct.new { bank := .abstract }
  match ← (Dataflow.visit (Session.lambdaTerm id l)).run start with
  | (.error e, _) => throw e
  | (.ok (), flow) =>
    match ← Engine.top.get (.environment env) (.lambda id) with
    | .direct fn _ _ => pure { env, fn, lambda := l, flow }
    | _ => throw .typeMismatch

def Prepared.needs (p : Prepared) (t : Term) : List Value :=
  (p.flow.facts .needs t).filterMap fun
    | .value v => some v
    | .term _ => none

def Prepared.run (p : Prepared) (args : List Value) : Run (List Value) := do
  if args.length ≠ p.lambda.params.length then throw .broken
  let d ← Direct.function p.fn
  Machine.run { host := Engine.top, needs := p.needs }
    { code := d.code, bindings := (p.lambda.params.map Ident.sym).zip args
      home := some (.environment p.env) }

def evaluate (id : TermId) (keys args : List Value) : Run (List Value) := do
  (← prepare id keys).run args

end DiffLang.Abstract
