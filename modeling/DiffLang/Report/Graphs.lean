import DiffLang.Report.Running

/-!
# Reports on graphs and code

The graph of a function at a stage of compilation with the graphs it refers to, pictures of it, and
the code of both machines.
-/

namespace DiffLang.Report

open Graph

/-! ## Changes by hand -/

/-- Makes changes one after the other. Those before one that fails stay made. -/
def commit : List Change → Run Unit
  | [] => pure ()
  | c :: cs => do
    match c with
    | .link source target role => Graph.update fun s => s.link source target role
    | .unlink source target role =>
      Graph.update fun s => s.detach source target role
      Graph.update fun s => s.removeUser target (role, source)
    commit cs

/-- Gives a graph an output. One that loses its output cannot get a missing one in its place. -/
def setOutput (g : GraphId) (target : Option NodeId) : Run Unit := do
  match ((← get).store.graph g).output with
  | some o => commit [.unlink (.graph g) o .output]
  | none => pure ()
  match target with
  | some n => commit [.link (.graph g) n .output]
  | none => throw .missingAttribute

/-- Points an edge at a node, or at none. -/
def pointEdge (source : Owner) (role : Role) (target : Option NodeId) : Run Unit := do
  match source, role, target with
  | .graph g, .output, none => setOutput g none
  | _, _, _ => commit (← Run.lift ((← get).store.pointTo source role target))

/-! ## Graphs -/

variable (s : Session) (versions : Bool)

def tagText (tag : Symbol) : String := if versions then tag.text else tag.stem

def nodeRef (n : NodeId) : Data :=
  let node := s.store.node n
  if node.isComputation then tagged "n" (tagText versions node.tag)
  else match node.value with
    | none => tagged "in" (tagText versions node.tag)
    | some (.graph _ tag) => tagged "graph" tag.text
    | some v => .record [("c", ofValue s v)]

def optionalRef (n : Option NodeId) : Data :=
  .option (n.map (nodeRef s versions))

/-- What is met on a walk. `next` tells where to go on after something that was not met before, given
what is left. -/
def walk (next : Nat → List Nat → List Nat) : Nat → List Nat → List Nat → List Nat
  | 0, _, seen | _ + 1, [], seen => seen
  | fuel + 1, x :: rest, seen =>
    if seen.contains x then walk next fuel rest seen
    else walk next fuel (next x rest) (seen ++ [x])

/-- The nodes that a graph consists of, output first. -/
def contents (s : Store) (g : GraphId) : List NodeId :=
  walk (fun n rest => (s.node n).fn.toList ++ (s.node n).inputs.filterMap id ++ rest) s.walkFuel
    (s.graph g).output.toList []

def ofGraph (g : GraphId) : Data :=
  let graph := s.store.graph g
  let nodes := (contents s.store g).filter fun n => (s.store.node n).isComputation
  .record [("graph", .text graph.tag.text),
    ("inputs", .texts (graph.inputs.map fun n => tagText versions (s.store.node n).tag)),
    ("output", optionalRef s versions graph.output),
    ("nodes", .list (nodes.map fun n =>
      let node := s.store.node n
      .list [.text (tagText versions node.tag), optionalRef s versions node.fn,
        .list (node.inputs.map (optionalRef s versions)), .nat node.users.length]))]

/-- A graph and the graphs that it refers to, breadth first. -/
def graphsFrom (s : Store) (g : GraphId) : List GraphId :=
  walk (fun g rest => rest ++ (contents s g).filterMap fun n => (s.node n).graph?)
    (s.nodes.size + 2) [g] []

def ofGraphs (g : GraphId) : Data :=
  .list ((graphsFrom s.store g).map (ofGraph s versions))

/-! ## Stages -/

inductive GraphStage where
  | built
  | resolved
  | optimized
deriving DecidableEq

def GraphStage.id (p : Stage.Pipeline) : GraphStage → StageId
  | .built => Stage.graphs
  | .resolved => p.resolved
  | .optimized => p.optimized

def graphAt (stage : StageId) (v : Value) : Run GraphId := do
  match ← Engine.top.get (.stage stage) v with
  | .graph g _ => pure g
  | _ => throw .missingAttribute

structure Settings where
  stage : GraphStage := .optimized
  first : List Pass := Stage.firstPasses
  passes : List Pass := Stage.standardPasses

def Settings.pipeline (c : Settings) : Run Stage.Pipeline :=
  if c.first = Stage.firstPasses ∧ c.passes = Stage.standardPasses then pure Stage.standard
  else Stage.pipeline c.first c.passes

def graphs (m : Subject) (c : Settings) (args : Option (List Data)) : Run Data := do
  let (globals, v) ← m.enter
  let p ← c.pipeline
  let g ← graphAt (c.stage.id p) v
  let d := ofGraphs (← get) (c.stage = .built) g
  match args with
  | none => pure (.record [("graphs", d)])
  | some args =>
    let r ← valueStep do
      let fn ← Engine.top.get (.stage p.exported) v
      Engine.top.call fn (← args.mapM (argument globals))
    pure (.record [("graphs", d), ("value", r)])

/-! ## Pictures -/

def boxLabel (p : Picture) (id : Option Nat) : String :=
  ((id.bind fun i => p.boxes.find? fun b => b.id = i).map Box.label).getD ""

def picture (m : Subject) (stage : GraphStage) (o : PictureOptions) : Run Data := do
  let (_, v) ← m.enter
  let g ← graphAt (stage.id Stage.standard) v
  let p ← Run.lift (Picture.draw (← get).store o g)
  let boxes := p.boxes.map fun b => Data.texts [b.label, b.kind, boxLabel p b.parent]
  let arrows := p.arrows.map fun a =>
    Data.texts [boxLabel p (some a.source), a.label, boxLabel p (some a.target)]
  pure (.record [("nodes", .list (sortTexts boxes)), ("edges", .list (sortTexts arrows))])
where
  sortTexts (ds : List Data) : List Data :=
    ds.mergeSort fun a b => compareTexts (a.items.map Data.asText) (b.items.map Data.asText)
  compareTexts : List String → List String → Bool
    | [], _ => true
    | _ :: _, [] => false
    | a :: as, b :: bs => if a = b then compareTexts as bs else a < b

/-! ## Code -/

def ofInstruction (i : Instruction) : Data :=
  let args : List Data := match i with
    | .push (.symbol x) | .fetch (.symbol x) => [.text x.text]
    | .push v | .fetch v => [ofValue s v]
    | .dup n | .reduce n => [.int n]
    | .closure => []
    | .store t => [.text t.text]
    | .reduceOnly n => [.int n, .bool false]
    | .assemble ks => [.list (ofValues s ks)]
    | .other _ vs => ofValues s vs
  .list (.text i.command :: args)

def ofCode (asText : Bool) (code : Array Step) : Data :=
  .list (code.toList.map fun step =>
    if asText then .text step.op.text else ofInstruction s step.op)

/-- The graphs that the code of a graph refers to. -/
def fetched (s : Store) (g : GraphId) : List GraphId :=
  match instructions s g with
  | .ok code => code.toList.filterMap fun step =>
    match step.op, step.focus with
    | .fetch _, .node n => (s.node n).graph?
    | _, _ => none
  | .error _ => []

def code (m : Subject) (stage : GraphStage) (asText : Bool) : Run Data := do
  let (_, v) ← m.enter
  let g ← graphAt (stage.id Stage.standard) v
  let s ← get
  let gs := walk (fun g rest => rest ++ fetched s.store g) (s.store.nodes.size + 2) [g] []
  pure (.list (← gs.mapM fun g => do
    let code ← Run.lift (instructions s.store g)
    pure (.list [.text (s.store.graph g).tag.text, ofCode s asText code])))

def directCode (firstLine : Nat) (stmts : List Source.Stmt) (viaGraph : Bool) : Run Data := do
  let (_, entries) ← readAll firstLine stmts
  pure (.list (← entries.mapM fun (x, id) => do
    let d ← step do
      let code ← Direct.codeOf { bank := .standard, viaGraph } id
      pure (ofCode (← get) false code)
    pure (.list [.text x.text, d])))

/-- A function compiled to code with variables from its graph, as a value in a report. -/
def ofEnvironmentValue : Value → Data
  | .machine .. => tagged "opaque" "VMFunction"
  | v => ofValue s v

/-- The report of an entry compiled to code with variables from its optimized graph. -/
def environmentCode (m : Subject) (args : List Data) : Run Data := do
  let (globals, v) ← m.enter
  let stage ← Stage.add .environment Stage.standard.optimized (Stage.near Stage.standard.optimized)
  match ← Engine.top.get (.stage stage) v with
  | .machine id g tag =>
    let s ← get
    let code := ((s.machineFunctions[id]?).map (·.code)).getD #[]
    let r ← step do
      let v ← Stage.run Engine.top stage id (← args.mapM (argument globals))
      pure (ofEnvironmentValue (← get) v)
    pure (.record [("code", ofCode s false code), ("text", .text (Value.machine id g tag).text),
      ("value", r)])
  | _ => throw .missingAttribute

end DiffLang.Report
