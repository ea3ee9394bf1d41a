import DiffLang.Report.Running

/-!
# Reports on single frames

A frame of the machine is given its instructions one by one, and is looked at after each step.
-/

namespace DiffLang.Report

def handSymbol (name : String) : Symbol := .plain name (.named "test") 1

def storeTarget : Data → Run Term
  | .list ds => do Session.tuple (← targets ds)
  | d => Session.symbolTerm (handSymbol d.asText)
where
  targets : List Data → Run (List Term)
    | [] => pure []
    | d :: ds => do pure ((← storeTarget d) :: (← targets ds))

/-- The instruction of a command with its arguments. What is no proper instruction is kept as it
is, to fail when it is run. -/
def instructionOf (command : String) (args : List Data) : Run Instruction := do
  match command, args with
  | "push", [d] => pure (.push (← plainValue d))
  | "fetch", [.text name] => pure (.fetch (.symbol (handSymbol name)))
  | "fetch", [d] => pure (.fetch (← plainValue d))
  | "store", [d] => pure (.store (← storeTarget d))
  | "reduce", [.int n] => pure (.reduce n)
  | "dup", [.int n] => pure (.dup n)
  | "closure", [] => pure .closure
  | command, args => pure (.other command (← args.mapM plainValue))

inductive FrameSetup where
  | plain (args : List Data)
  | withVariables (bindings : List (String × Data)) (bare : Bool)

def FrameSetup.frame (code : Array Step) : FrameSetup → Run Machine.Frame
  | .plain args => do
    if code.isEmpty then throw .missingAttribute
    let stack ← args.mapM plainValue
    pure { code, stack := stack.toArray, home := some (.stage Stage.standard.machine) }
  | .withVariables bindings bare => do
    if code.isEmpty then throw .broken
    let vars ← bindings.mapM fun (k, d) => do pure (handSymbol k, ← plainValue d)
    let home ← if bare then pure none else do pure (some (Home.environment (← directEnv)))
    pure { code, stack := #[.none], bindings := some vars, home }

def ofFrame (f : Machine.Frame) : Run (List Data) := do
  let stack ← f.stack.toList.mapM value
  let bindings ← match f.bindings with
    | none => pure []
    | some vars =>
      let rows ← vars.mapM fun (x, v) => do pure (x.text, ← value v)
      let sorted := rows.mergeSort fun a b => a.1 ≤ b.1
      pure [Data.list (sorted.map fun (k, d) => .list [.text k, d])]
  pure ([.nat f.pc, .bool f.done, .list stack] ++ bindings)

/-- Looks at a frame after each of so many steps, until it stops or fails. -/
def observe (f : Machine.Frame) : Nat → Run (List Data)
  | 0 => pure []
  | n + 1 => do
    let (f, outcome) ← Machine.advance Engine.top f
    match outcome with
    | .ok _ =>
      let row ← ofFrame f
      pure (.list row :: (← observe f n))
    | .error e =>
      if e.kind = .stop then pure [.text "stop"]
      else
        let stack ← f.stack.toList.mapM value
        pure [.record (failureFields e ++ [("pc", .nat f.pc), ("stack", .list stack)])]

def frame (code : List (String × List Data)) (setup : FrameSetup) : Run Data := do
  let ops ← code.mapM fun (c, args) => instructionOf c args
  let f ← setup.frame (ops.map fun op => { op }).toArray
  let rows ← observe f (ops.length + 1)
  pure (.list (.texts (ops.map Instruction.text) :: rows))

def environmentValues (values : List Data) : Run Data := do
  let env ← directEnv
  let rows ← values.mapM fun d => valueStep do
    Engine.top.get (.environment env) (← plainValue d)
  pure (.list rows)

end DiffLang.Report
