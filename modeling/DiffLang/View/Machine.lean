import DiffLang.Machine
import DiffLang.View

/-!
# Views of machines

Code is a table with a row for each instruction. A frame is shown by what it works on, its code,
its stack and its environment; a machine by the functions its frames run, with the node that each
one works on marked.
-/

namespace DiffLang.Viewer

open Machine

/-! ## Code -/

variable (v : Viewer)

def arguments (depth : Nat) : Instruction → Fallible (List Html)
  | .push w | .fetch w => do pure [← v.valueAt depth w]
  | .dup n | .reduce n => .ok [plain "int" (toString n)]
  | .closure => .ok []
  | .store t => do pure [← v.termAt depth t]
  | .reduceOnly n => do pure [plain "int" (toString n), ← v.valueAt depth (.bool false)]
  | .assemble keys => do pure [← v.valueAt depth (.tuple keys)]
  | .other _ args => args.mapM (v.valueAt depth)

def code (depth : Nat) (steps : Array Step) : Fallible Html := do
  let rows ← steps.toList.mapM fun s => do
    let args ← v.arguments (depth + 1) s.op
    let cells := v.textView (depth + 1) s.op.command :: args
    pure (Html.tag "tr" (cells.map fun c => .tag "td" [c]))
  pure (.element "table" ["VMCodeInstructions"] [] rows)

/-! ## Frames -/

def focusOf (f : Frame) (offset : Int) : Focus :=
  let i := (f.pc : Int) + offset
  if i < 0 then .nothing else ((f.code[i.toNat]?).map Step.focus).getD .nothing

def focus (depth : Nat) : Focus → Fallible Html
  | .nothing => .ok (plain "NoneType" "None")
  | .term t => v.termAt depth t
  | .node n => v.node depth n

/-- The names of an environment with what they stand for. Stages do not list theirs. -/
def environment : Option Home → Fallible (List (Value × Value))
  | some (.environment id) => .ok (((v.session.directEnvs[id]?).map DirectEnv.cache).getD [])
  | some (.stage _) => .error .missingAttribute
  | none => .ok []

def body (depth : Nat) (f : Frame) : Fallible Html :=
  match f.lambda.bind fun id => v.session.lambda? id with
  | some l => v.termAt depth l.body
  | none => .ok (plain "NoneType" "None")

def frame (f : Frame) : Fallible Html := do
  let names ← (← v.environment f.home).mapM fun (k, w) => do
    pure (← v.valueAt 1 k, ← v.valueAt 1 w)
  let views := [("Focus", ← v.focus 1 (focusOf f 0)), ("Node", ← v.body 1 f),
    ("Code", ← v.code 1 f.code), ("Stack", ← v.valueAt 1 (.list f.stack.toList)),
    ("Env", Html.tabs names)]
  pure ((Html.tabs (views.map fun (name, h) => (.text name, h))).withClass "hrepr-VMFrame")

/-! ## Machines -/

/-- The view of the function that a frame runs, with the node it works on marked, and with the place
of that node. Nodes of graphs cannot be marked. -/
def activity (f : Frame) (offset : Int) : Fallible Html := do
  let found : Option Term ← match focusOf f offset with
    | .nothing => pure none
    | .term t => pure (some t)
    | .node _ => throw .missingAttribute
  let marks : List (TermId × String) := found.toList.map fun (t : Term) => (t.id, "error")
  let v := { v with marks }
  match f.lambda with
  | none => throw .missingAttribute
  | some id =>
    let ref := v.refView ((v.session.lambda? id).bind fun l => l.ref)
    let shown ← v.lambda 1 id
    let place := found.bind fun t => v.session.placeOf v.session.origins.size (.term t)
    let source := (place.map fun l => (Html.text "Source", location l)).toList
    pure (.element "view" [] [("active", .flag (offset = 0))]
      [.tag "tab" [ref], .tag "pane" [Html.tabs ((.text "Node", shown) :: source)]])

/-- The view of a machine: the waiting frames from the first on, then the running one. -/
def machine (s : Machine.State) : Fallible Html := do
  let waiting ← s.waiting.reverse.mapM fun f => v.activity f (-1)
  pure (.tag "tabbed-view" (waiting ++ [← v.activity s.frame 0]))

end DiffLang.Viewer
