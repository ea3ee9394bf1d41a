import DiffLang.Graph.OfTerm

/-!
# Copies and orders of graphs

A copy of a graph has new nodes for the inputs and for the nodes of the graph, and shares the
constants. The order of a graph lists its computations so that each comes after what it needs.
-/

namespace DiffLang.Graph

open Session

structure Copy where
  graph : GraphId
  inputs : List NodeId
  output : Option NodeId

/-- The image of a node in a copy; nodes outside stand for themselves. -/
def image (map : List (NodeId × NodeId)) (n : NodeId) : NodeId := (map.lookup n).getD n

/-- Makes a node for each of some nodes, as yet without edges, and notes which it is. Unless tags are
kept, each new node gets a tag derived from the old one. -/
def copyNodes (dest : GraphId) (generator : GeneratorId) (keepTags : Bool) :
    List NodeId → List (NodeId × NodeId) → Run (List (NodeId × NodeId))
  | [], map => pure map
  | old :: olds, map => do
    let node := (← get).store.node old
    let tag ← if keepTags then pure node.tag else freshDerived generator node.tag "+"
    let new ← newNode { home := some dest, tag, value := node.value }
    copyNodes dest generator keepTags olds (put (· == ·) old new map)

def copyEdges (map : List (NodeId × NodeId)) : List (NodeId × NodeId) → Run Unit
  | [] => pure ()
  | (old, new) :: rest => do
    let node := (← get).store.node old
    match node.fn with
    | some f =>
      update fun s => s.setApplication new (some (image map f))
        (node.inputs.map fun x => x.map (image map))
    | none => pure ()
    copyEdges map rest

def copyInto (dest g : GraphId) (keepTags : Bool) : Run (List (NodeId × NodeId)) := do
  let s ← get
  let map ← copyNodes dest (s.store.graph dest).generator keepTags
    ((s.store.graph g).inputs ++ s.store.nodesOf g) []
  copyEdges map map
  pure map

/-- Copies a graph, as a new graph or as nodes of another one. -/
def copy (g : GraphId) (target : Option GraphId := none) (keepTags : Bool := false) :
    Run Copy := do
  let source := (← get).store.graph g
  match target with
  | some dest =>
    if !source.sealed then throw .typeMismatch
    let map ← copyInto dest g keepTags
    pure {
      graph := dest
      inputs := source.inputs.map (image map)
      output := source.output.map (image map) }
  | none =>
    let dest ← newGraph
      { parent := source.parent, tag := source.tag, generator := source.generator }
    if !source.sealed then throw .typeMismatch
    let map ← copyInto dest g keepTags
    let inputs := source.inputs.map (image map)
    match source.output with
    | some o =>
      update fun s => s.setOutput dest (image map o)
      update fun s => .ok (s.setInputs dest inputs)
      pure { graph := dest, inputs, output := some (image map o) }
    | none => throw .missingAttribute

/-! ## Order -/

/-- What is left to do while nodes are put in order: the nodes whose users are all done, and for
every other node met so far the users that are not. -/
structure Ordering where
  ready : List NodeId
  waiting : List (NodeId × List Owner) := []
  done : List NodeId := []

def release (s : Store) (n : NodeId) (o : Ordering) (m : NodeId) : Ordering :=
  let users := ((o.waiting.lookup m).getD ((s.node m).predecessors)).erase (.node n)
  { o with
    waiting := put (· == ·) m users o.waiting
    ready := if users.isEmpty then o.ready ++ [m] else o.ready }

def order (s : Store) : Nat → Ordering → Fallible (List NodeId)
  | 0, o => .ok o.done
  | fuel + 1, o =>
    match o.ready with
    | [] => .ok o.done
    | n :: rest =>
      let o := { o with ready := rest }
      if !(s.node n).isComputation then order s fuel o
      else if o.done.contains n then
        .error (.because .exception "Cannot toposort: cycle detected.")
      else
        let o := { o with done := n :: o.done }
        order s fuel ((s.node n).successors.foldl (release s n) o)

/-- The computations of a graph, each after those it needs. A node that is also used from outside
of what the output needs is left out. -/
def inOrder (s : Store) (g : GraphId) : Fallible (List NodeId) :=
  match (s.graph g).output with
  | none => .error .missingAttribute
  | some out =>
    if (s.node out).isComputation then order s s.walkFuel { ready := [out] } else .ok []

end DiffLang.Graph
