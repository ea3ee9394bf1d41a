import DiffLang.Graph.Store

/-!
# Pictures of graphs

A graph as boxes and arrows. An application of a known function can carry the function in its own
label, each use of a constant can be a box of its own, and the graphs that a graph refers to can be
drawn as well.
-/

namespace DiffLang.Graph

structure PictureOptions where
  duplicateConstants : Bool := true
  functionInNode : Bool := true
  followReferences : Bool := true

structure Box where
  id : Nat
  /-- What it is the box of. The mark of an output has no owner. -/
  owner : Option Owner
  label : String
  parent : Option Nat
  kind : String

structure Arrow where
  id : Nat
  label : String
  source : Nat
  target : Nat

structure Picture where
  boxes : List Box := []
  arrows : List Arrow := []
  last : Nat := 0
  graphs : List GraphId
  pool : List NodeId := []
  /-- The graph that is being drawn. -/
  current : GraphId := 0

namespace Picture

/-- The box of something, the last one if there are several. -/
def box? (p : Picture) (x : Owner) : Option Box := p.boxes.reverse.find? fun b => b.owner = some x

def id? (p : Picture) (x : Owner) : Option Nat := (p.box? x).map Box.id

def idOf (p : Picture) (n : NodeId) : Nat := (p.id? (.node n)).getD 0

variable (s : Store) (o : PictureOptions)

def isDuplicated (n : Node) : Bool := o.duplicateConstants && n.isConstant

/-- The tag of a known function that is written into the box of its application. -/
def ownFunction (n : Node) : Option Symbol :=
  match n.fn with
  | some f => if o.functionInNode && (s.node f).isConstant then some (s.node f).tag else none
  | none => none

/-- The relations of a symbol, outermost first, without those that only mark copies. -/
def relations : Symbol → String
  | .plain .. => ""
  | .derived r base _ _ => (if r = "+" then "" else r) ++ relations base

def holds (s part : String) : Bool := (s.splitOn part).length > 1

/-- The label of a node. Places inside of expressions have no name worth showing. -/
def label (n : Node) : String :=
  match n.value, n.graph? with
  | some v, none => v.text
  | _, _ =>
    let root := n.tag.root
    let root := if holds root "/out" || holds root "/in" || root = Relation.temporary then "•"
      else root
    let text := relations n.tag ++ root
    match ownFunction s o n with
    | some f => if text = "•" then f.text else s!"{text}←{f.text}"
    | none => text

def addBox (p : Picture) (b : Box) : Picture := { p with boxes := p.boxes ++ [b] }

def addGraph (p : Picture) (g : GraphId) : Picture :=
  let id := p.last + 1
  if (p.box? (.graph g)).isSome then p
  else { p with last := id }.addBox
    ⟨id, some (.graph g), (s.graph g).tag.text, none, "function"⟩

/-- Draws a box in the box of a graph, if there is one around it. -/
def place (p : Picture) (owner : Option Owner) (label kind : String) (g : Option GraphId) :
    Picture :=
  let id := p.last + 1
  let p := g.toList.foldl (addGraph s) { p with last := id }
  p.addBox ⟨id, owner, label, g.bind fun g => p.id? (.graph g), kind⟩

/-- The graphs that are left to draw, with one that is referred to. -/
def refer (gs : List GraphId) (h : Option GraphId) : List GraphId :=
  gs ++ h.toList.filter fun h => o.followReferences && !gs.contains h

def kindOf (n : NodeId) (g : Option GraphId) : String :=
  let node := s.node n
  match node.home, g with
  | some _, some g =>
    if (s.graph g).output = some n && node.isComputation then "output"
    else if (s.graph g).inputs.contains n then "input"
    else "intermediate"
  | _, _ => "constant"

/-- A node waits for its edges, and the graph that it is waits to be drawn. -/
def enqueue (p : Picture) (n : NodeId) : Picture :=
  { p with
    graphs := refer o p.graphs (s.node n).graph?
    pool := if p.pool.contains n then p.pool else p.pool ++ [n] }

def addNode (p : Picture) (n : NodeId) (inside : Option GraphId) : Picture :=
  let node := s.node n
  if !isDuplicated o node && (p.box? (.node n)).isSome then p
  else
    let g := inside.or node.home
    enqueue s o (place s p (some (.node n)) (label s o node) (kindOf s n g) g) n

def addArrow (p : Picture) (label : String) (source target : Nat) : Picture :=
  let id := p.last + 1
  { p with last := id, arrows := p.arrows ++ [⟨id, label, source, target⟩] }

def incoming (node : Node) : List (String × NodeId) :=
  let drawn := node.edges.filter fun (role, _) => role ≠ .fn || (ownFunction s o node).isNone
  drawn.map fun (role, m) => (match role with | .input i => toString i | _ => "F", m)

/-- Draws an edge that comes into a node. A constant that has a box for each use is in the graph that
is being drawn. -/
def addEdge (n : NodeId) (p : Picture) (e : String × NodeId) : Picture :=
  let inside := if isDuplicated o (s.node e.2) then some p.current else none
  let p := addNode s o p e.2 inside
  p.addArrow e.1 (p.idOf e.2) (p.idOf n)

def visit (p : Picture) (n : NodeId) : Picture :=
  let node := s.node n
  let known := if (ownFunction s o node).isSome then node.fn.bind fun f => (s.node f).graph?
    else none
  (incoming s o node).foldl (addEdge s o n) { p with graphs := refer o p.graphs known }

def markOutput (p : Picture) (g : GraphId) (out : NodeId) : Picture :=
  let q := place s p none "" "const_output" (some g)
  q.addArrow "" (q.idOf out) (p.last + 1)

/-- The nodes of a graph that are drawn first. -/
def shown (g : Graph) : List NodeId := g.inputs ++ g.output.toList

def start (p : Picture) (g : GraphId) : Picture :=
  let graph := s.graph g
  let p := (shown graph).foldl (addNode s o · · none) p
  match graph.output with
  | some out => if (s.node out).isComputation then p else markOutput s p g out
  | none => p

/-- Draws what comes into the next node, or starts the next graph if no node is left. A graph that is
met again has only its output drawn anew, and only if that is not computed. -/
def step (p : Picture) : Option Picture :=
  match p.pool, p.graphs with
  | n :: rest, _ => some (visit s o { p with pool := rest } n)
  | [], g :: rest => some (start s o { p with graphs := rest, current := g } g)
  | [], [] => none

/-- Draws until nothing is left, for at most so many steps. Graphs that return each other are never
done. -/
def drawAll : Nat → Picture → Fallible Picture
  | 0, _ => .error .tooDeep
  | fuel + 1, p =>
    match step s o p with
    | none => .ok p
    | some p => drawAll fuel p

def patience : Nat := 1000000

def draw (g : GraphId) : Fallible Picture := drawAll s o patience { graphs := [g] }

end Picture

end DiffLang.Graph
