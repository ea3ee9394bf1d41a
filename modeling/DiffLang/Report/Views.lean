import DiffLang.Report.Terms
import DiffLang.View.Machine
import DiffLang.View.Origin

/-!
# Reports on views

The views of values, of terms made by hand, and of everything that is made from a program.
-/

namespace DiffLang.Report

/-! ## Trees -/

def ofAttribute : Attribute → Data
  | .text s => .text s
  | .number n => .int n
  | .flag b => .bool b

def distinct (ss : List String) : List String :=
  (ss.mergeSort fun a b => a ≤ b).foldr (fun s kept => if kept.head? = some s then kept
    else s :: kept) []

mutual

def ofHtml : Html → Data
  | .text s => .text s
  | .element name classes attributes children =>
    let fields := (if classes.isEmpty then [] else [("class", Data.texts (distinct classes))]) ++
      attributes.map fun (k, a) => (k, ofAttribute a)
    .list (.text name :: .record fields :: ofHtmls children)

def ofHtmls : List Html → List Data
  | [] => []
  | h :: hs => ofHtml h :: ofHtmls hs

end

structure ViewOptions where
  limit : Option Nat := none
  picture : Graph.PictureOptions

variable (o : ViewOptions)

def ViewOptions.viewer (coloured : Bool) : Run Viewer := do
  pure { session := ← get, limit := o.limit, coloured, options := o.picture }

def viewed (coloured : Bool) (view : Viewer → Fallible Html) : Run Data := do
  pure (ofHtml (← Run.lift (view (← o.viewer coloured))))

/-! ## Things made by hand -/

def valueView (d : Data) : Run Data := do
  let w ← plainValue d
  viewed o true fun v => v.valueAt 0 w

def termView (sketch : Sketch) (marks : List String) : Run Data := do
  let generator ← Session.newGenerator (.named "test")
  let (t, _) ← sketch.build.run { generator }
  viewed o true fun v => { v with marks := marks.map fun m => (t.id, m) }.termAt 0 t

def placeView (url : String) (line column : Int) : Data :=
  ofHtml (Viewer.placeView url line column)

/-- What views of symbols, records and graphs need besides themselves. -/
def viewResources : Data :=
  .list (ofHtmls [Html.style, Html.style,
    .element "buche-require" [] [("name", .text "cytoscape")] []])

/-! ## Programs -/

/-- A frame to look at: its arguments, and how many instructions it has run. -/
structure FrameView where
  args : List Data
  advance : Nat := 0
  direct : Bool := false

inductive Aspect where
  | lambda
  | origin
  | normalOrigin
  | gradientOrigin
  | code
  | function
  | graph (stage : GraphStage)
  | outputNodes
  | frame (f : FrameView)
  | machine (f : FrameView)
  | directCode
  | directFunction

def machineEntry (v : Value) : Run (Value × Nat) := do
  match ← Engine.top.get (.stage Stage.standard.machine) v with
  | .machine id g tag => pure (.machine id g tag, id)
  | _ => throw .missingAttribute

def directEntry (v : Value) : Run (Value × Nat) := do
  let id ← readEntry v
  let env ← directEnv
  match ← Engine.top.get (.environment env) (.lambda id) with
  | .direct f l ref => pure (.direct f l ref, f)
  | _ => throw .missingAttribute

def advanced (f : Machine.Frame) : Nat → Run Machine.Frame
  | 0 => pure f
  | n + 1 => do
    let (f, outcome) ← Machine.advance Engine.top f
    match outcome with
    | .ok _ => advanced f n
    | .error e => throw e

def FrameView.frame (globals : Globals) (v : Value) (f : FrameView) : Run Machine.Frame := do
  let args ← f.args.mapM (argument globals)
  let start ← if f.direct then do
      let (_, id) ← directEntry v
      Direct.start id args
    else do
      let (_, id) ← machineEntry v
      Stage.start Engine.top Stage.standard.machine id args
  advanced start f.advance

def history (id : TermId) : Run (Viewer → Fallible Html) := do
  let l ← Session.getLambda id
  pure fun v => v.history l.body

def Aspect.view (globals : Globals) (entry : Value) : Aspect → Run (Viewer → Fallible Html)
  | .lambda => do
    let id ← readEntry entry
    pure fun v => v.lambda 0 id
  | .origin => do history (← readEntry entry)
  | .normalOrigin => do history (← Normal.ofLambda (← readEntry entry))
  | .gradientOrigin => do
    let normal ← Normal.ofLambda (← readEntry entry)
    history (← Gradient.ofNormal (← Program.refOf normal).sym normal)
  | .code => do
    let (_, id) ← machineEntry entry
    let code := ((← get).machineFunctions.getD id default).code
    pure fun v => v.code 0 code
  | .function => do
    let (w, _) ← machineEntry entry
    pure fun v => v.valueAt 0 w
  | .graph stage => do
    let g ← graphAt (stage.id Stage.standard) entry
    pure fun v => v.valueAt 0 (.graph g default)
  | .outputNodes => do
    let g ← graphAt Stage.graphs entry
    let store := (← get).store
    let out := (store.graph g).output.toList
    let nodes := out ++ out.flatMap fun n => (store.node n).inputs.filterMap id
    pure fun v => do
      pure (v.items 0 "hrepr-list" "[" "]" (← nodes.mapM (v.node 1)))
  | .frame f => do
    let f ← f.frame globals entry
    pure fun v => v.frame f
  | .machine f => do
    let f ← f.frame globals entry
    pure fun v => v.machine { frame := f }
  | .directCode => do
    let (_, id) ← directEntry entry
    let code := ((← get).directFunctions.getD id default).code
    pure fun v => v.code 0 code
  | .directFunction => do
    let (w, _) ← directEntry entry
    pure fun v => v.valueAt 0 w

def programView (m : Subject) (aspect : Aspect) : Run Data := do
  let (globals, entry) ← m.enter
  viewed o false (← aspect.view globals entry)

end DiffLang.Report
