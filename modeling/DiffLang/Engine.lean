import DiffLang.Direct
import DiffLang.Foreign.Call
import DiffLang.View.Display

/-!
# Calling and looking up

Primitives call functions, functions run on machines, machines look names up in stages, and stages
run functions while they compile. The circle is closed here: each way around it uses up one unit
of fuel.
-/

namespace DiffLang.Engine

open Session

/-- Compiles a function that is compiled when it is called, unless that is done already. -/
def compileDeferred (host : Host) (id : Nat) : Run Value := do
  match (← get).deferred[id]? with
  | none => throw .broken
  | some d =>
    let stage ← match d.stage with
      | some s => pure s
      | none =>
        let s ← if d.passes = Stage.standardPasses then pure Stage.standard.exported
          else do pure (← Stage.pipeline Stage.firstPasses d.passes).exported
        modify fun st => { st with deferred := st.deferred.modify id fun d =>
          { d with stage := some s } }
        pure s
    match d.compiled with
    | some v => pure v
    | none =>
      let v ← host.get (.stage stage) d.fn
      modify fun st => { st with deferred := st.deferred.modify id fun d =>
        { d with compiled := some v } }
      pure v

def call (host : Host) (fn : Value) (args : List Value) : Run Value := do
  match fn with
  | .prim .standard (.plain name ..) _ => Primitive.call host name args
  | .closure f xs => host.call f (xs ++ args)
  | .exported id _ _ stage => Stage.call host id stage args
  | .direct id _ _ => Direct.call host id args
  | .foreign name => Run.lift (Foreign.call name args)
  | .deferred id _ =>
    match ← compileDeferred host id with
    | .exported id g tag stage => host.call (.exported id g tag stage) args
    | _ => throw .broken
  | .function .. =>
    -- a function of the program is run by compiling it
    host.call (← host.get (.stage Stage.standard.exported) fn) args
  | .atom tag => if args.isEmpty then pure (.record tag []) else throw .typeMismatch
  | _ => throw .typeMismatch

def host : Nat → Host
  | 0 =>
    { call := fun _ _ => throw .tooDeep
      get := fun _ _ => throw .tooDeep
      display := fun _ _ => throw .tooDeep }
  | fuel + 1 =>
    { call := fun fn args => call (host fuel) fn args
      get := fun home v => match home with
        | .stage id => Stage.get (host fuel) id v
        | .environment id => Direct.lookUp id v
      display := Viewer.display }

def depth : Nat := 100000

def top : Host := host depth

def session : Session := { Library.session with stages := Stage.initialStages }

end DiffLang.Engine
