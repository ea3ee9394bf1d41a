import DiffLang.Debugger
import DiffLang.Report.Views

/-!
# Reports on debugging

What the commands of the debugger are, and what it shows in a session with given commands.
-/

namespace DiffLang.Report

open Debugger

def commands (specs : List String) : Run Data := do
  let cs ← Run.lift (Commands.ofSpecs specs)
  pure (.list (cs.map fun (typed, c) => .list [.text typed, .texts [c.name, c.spec]]))

structure DebugSettings where
  args : List Data
  input : List String
  /-- Whether to stop at the first application. -/
  stop : Bool := true
  direct : Bool := false
  rendered : Bool := false

def ofEntry (rendered : Bool) : Entry → Run Data
  | .html text => pure (said "html" [.text text])
  | .markdown text gutter =>
    pure (said "markdown" [.text text, .option (gutter.map .text)])
  | .line text gutter => pure (said "log" [.text text, .text gutter])
  | .failure f gutter => pure (said "show" [ofFailure f, .text gutter])
  | .values found gutter => do
    pure (said "show" [← value (.dict found), .text gutter])
  | .value v => do
    if rendered then pure (said "html" [← shown fun w => w.valueAt 0 v])
    else pure (said "value" [← value v])
  | .help => pure (if rendered then said "html" [ofHtml helpTable] else said "help" [])
  | .machine s => do
    if rendered then
      pure (.list [.text "frames", .text "html", ← shown fun w => w.machine s])
    else
      let stack ← s.frame.stack.toList.mapM value
      pure (.list [.text "frames", .text "vm", .nat s.waiting.length, .nat s.frame.pc,
        .list stack])
where
  said (how : String) (parts : List Data) : Data := .list (.text "interact" :: .text how :: parts)
  shown (view : Viewer → Fallible Html) : Run Data := do
    viewed { picture := ({ session := ← get } : Viewer).options } false view

def debugging (m : Subject) (c : DebugSettings) : Run Data := do
  let (globals, entry) ← m.enter
  let frame ← ({ args := c.args, direct := c.direct } : FrameView).frame globals entry
  let (shown, outcome) ← debug Engine.top (ofEntry c.rendered) frame c.stop c.input
  let rest ← match outcome with
    | .ok v => do pure [("value", ← value v)]
    | .error f => pure (failureFields f)
  pure (.record (("log", .list shown) :: rest))

end DiffLang.Report
