import DiffLang.Value.Text

/-!
# Graphs

A function as a graph: each node is an input, a constant, or the application of a node to nodes.
Every edge is kept at both ends: the node that uses another lists it as its function or as an
input, and the one that is used lists the user together with the role it plays. A store holds all
nodes and graphs; graphs refer to each other through constants.

Changes are made by two atomic operations, `link` and `unlink`, each of which updates both ends.
-/

namespace DiffLang.Graph

abbrev NodeId := Nat

abbrev GraphId := Nat

/-- What a node is to the node or graph that uses it. -/
inductive Role where
  | fn
  | input (index : Int)
  | output
  | other (text : String)
deriving DecidableEq, Inhabited

def Role.text : Role → String
  | .fn => "FN"
  | .input i => s!"IN({i})"
  | .output => "OUT"
  | .other t => t

/-- A node, or a graph, seen as the holder of edges. -/
inductive Owner where
  | node (id : NodeId)
  | graph (id : GraphId)
deriving DecidableEq

structure Node where
  /-- The graph a node is computed in. Constants have none. -/
  home : Option GraphId
  tag : Symbol
  value : Option Value := none
  fn : Option NodeId := none
  inputs : List (Option NodeId) := []
  users : List (Role × Owner) := []
deriving Inhabited

structure Graph where
  parent : Option GraphId
  tag : Symbol
  generator : Nat
  inputs : List NodeId := []
  sealed : Bool := false
  output : Option NodeId := none
  lambda : Option Nat := none
deriving Inhabited

structure Store where
  nodes : Array Node := #[]
  graphs : Array Graph := #[]

inductive Change where
  | link (source : Owner) (target : NodeId) (role : Role)
  | unlink (source : Owner) (target : NodeId) (role : Role)

namespace Node

variable (n : Node)

def isInput : Bool := n.fn.isNone && n.value.isNone

def isComputation : Bool := n.fn.isSome

def isConstant : Bool := n.value.isSome

def isBuiltin : Bool :=
  match n.value with
  | some (.symbol s) => s.isBuiltin
  | _ => false

def isGlobal : Bool :=
  match n.value with
  | some (.symbol s) => s.isGlobal
  | _ => false

def graph? : Option GraphId :=
  match n.value with
  | some (.graph g _) => some g
  | _ => none

def application? : Option (List (Option NodeId)) :=
  n.fn.map fun f => some f :: n.inputs

def edges : List (Role × NodeId) :=
  (match n.fn with
    | some f => [(Role.fn, f)]
    | none => []) ++
  n.inputs.zipIdx.filterMap fun (x, i) => x.map fun m => (Role.input i, m)

def successors : List NodeId :=
  (n.edges.map Prod.snd).eraseDups

def predecessors : List Owner :=
  (n.users.map Prod.snd).eraseDups

end Node

namespace Store

variable (s : Store)

def node (n : NodeId) : Node := s.nodes.getD n default

def graph (g : GraphId) : Graph := s.graphs.getD g default

def modifyNode (n : NodeId) (f : Node → Node) : Store :=
  { s with nodes := s.nodes.modify n f }

def modifyGraph (g : GraphId) (f : Graph → Graph) : Store :=
  { s with graphs := s.graphs.modify g f }

def addNode (n : Node) : NodeId × Store :=
  (s.nodes.size, { s with nodes := s.nodes.push n })

def addGraph (g : Graph) : GraphId × Store :=
  (s.graphs.size, { s with graphs := s.graphs.push g })

/-- The position in a list of `n` that an index names; negative ones count from the end. -/
def position? (n : Nat) (i : Int) : Option Nat :=
  if 0 ≤ i then (if i < n then some i.toNat else none)
  else if -(n : Int) ≤ i then some (n + i).toNat else none

def trimInputs (inputs : List (Option NodeId)) : List (Option NodeId) :=
  (inputs.reverse.dropWhile Option.isNone).reverse

def addUser (n : NodeId) (use : Role × Owner) : Store :=
  s.modifyNode n fun m => if m.users.contains use then m else { m with users := m.users ++ [use] }

def removeUser (n : NodeId) (use : Role × Owner) : Fallible Store :=
  if (s.node n).users.contains use then
    .ok (s.modifyNode n fun m => { m with users := m.users.erase use })
  else .error .missingKey

/-- Notes an edge at its source. The place it takes must be free. -/
def attach (source : Owner) (target : NodeId) (role : Role) : Fallible Store := do
  match source, role with
  | .node n, .fn =>
    if (s.node n).fn.isSome then throw .broken
    else pure (s.modifyNode n fun m => { m with fn := some target })
  | .node n, .input i => do
    let inputs := (s.node n).inputs
    let inputs :=
      if (inputs.length : Int) ≤ i then
        inputs ++ List.replicate (i - inputs.length + 1).toNat none
      else inputs
    match position? inputs.length i with
    | none => throw .outOfRange
    | some k =>
      if (inputs.getD k none).isSome then throw .broken
      else pure (s.modifyNode n fun m => { m with inputs := inputs.set k (some target) })
  | .graph g, .output =>
    if (s.graph g).output.isSome then throw .broken
    else pure (s.modifyGraph g fun m => { m with output := some target })
  | _, _ => pure s

def link (source : Owner) (target : NodeId) (role : Role) : Fallible Store := do
  pure ((← s.attach source target role).addUser target (role, source))

def detach (source : Owner) (target : NodeId) (role : Role) : Fallible Store := do
  match source, role with
  | .node n, .fn =>
    if (s.node n).fn = some target then
      pure (s.modifyNode n fun m => { m with fn := none })
    else throw .broken
  | .node n, .input i => do
    let inputs := (s.node n).inputs
    match position? inputs.length i with
    | none => throw .outOfRange
    | some k =>
      if inputs.getD k none = some target then
        pure (s.modifyNode n fun m => { m with inputs := trimInputs (inputs.set k none) })
      else throw .broken
  | .graph g, .output =>
    if (s.graph g).output = some target then
      pure (s.modifyGraph g fun m => { m with output := none })
    else throw .broken
  | _, _ => pure s

def unlink (source : Owner) (target : NodeId) (role : Role) : Fallible Store := do
  (← s.detach source target role).removeUser target (role, source)

def apply : Change → Fallible Store
  | .link source target role => s.link source target role
  | .unlink source target role => s.unlink source target role

def commit (changes : List Change) : Fallible Store :=
  changes.foldlM apply s

def follow (n : NodeId) (role : Role) : Fallible (Option NodeId) :=
  match role with
  | .fn => .ok (s.node n).fn
  | .input i =>
    let inputs := (s.node n).inputs
    match position? inputs.length i with
    | none => .error .outOfRange
    | some k => .ok (inputs.getD k none)
  | role => .error (.because .key ("Invalid role: " ++ role.text))

def pointTo (source : Owner) (role : Role) (target : Option NodeId) :
    Fallible (List Change) := do
  match source with
  | .node n =>
    let old ← s.follow n role
    let made := match target with
      | some t => [Change.link source t role]
      | none => []
    match old with
    | some o => if some o = target then pure [] else pure (.unlink source o role :: made)
    | none => pure made
  | .graph g =>
    match role, target with
    | .output, some t =>
      match (s.graph g).output with
      | some o => pure [.unlink source o role, .link source t role]
      | none => pure [.link source t role]
    | .output, none => throw .missingAttribute
    | role, _ =>
      throw (.because .value ("Invalid outgoing edge type for IRGraph: " ++ role.text))

def setApplicationChanges (n : NodeId) (fn : Option NodeId) (inputs : List (Option NodeId)) :
    Fallible (List Change) := do
  let first ← s.pointTo (.node n) .fn fn
  if fn.isNone then pure first
  else
    let old := (s.node n).inputs.zipIdx.filterMap fun (x, i) =>
      x.map fun m => Change.unlink (.node n) m (.input i)
    let new := inputs.zipIdx.filterMap fun (x, i) =>
      x.map fun m => Change.link (.node n) m (.input i)
    pure (first ++ old ++ new)

def setApplication (n : NodeId) (fn : Option NodeId) (inputs : List (Option NodeId)) :
    Fallible Store := do
  s.commit (← s.setApplicationChanges n fn inputs)

def redirectChanges (n : NodeId) (target : NodeId) : Fallible (List Change) :=
  (s.node n).users.foldlM (fun acc (role, owner) => do
    pure (acc ++ (← s.pointTo owner role (some target)))) []

def redirect (n : NodeId) (target : NodeId) : Fallible Store := do
  s.commit (← s.redirectChanges n target)

def setOutput (g : GraphId) (n : NodeId) : Fallible Store := do
  let s ← match (s.graph g).output with
    | some o => s.unlink (.graph g) o .output
    | none => pure s
  s.link (.graph g) n .output

def setInputs (g : GraphId) (inputs : List NodeId) : Store :=
  s.modifyGraph g fun m => { m with inputs, sealed := true }

/-! ## Walks -/

/-- Walks from `pool` through the nodes of one graph, each once; nodes outside it are listed, if
asked for, and not entered. -/
def walk (g : GraphId) (boundary : Bool) :
    Nat → List (Option NodeId) → List NodeId → List NodeId → List NodeId
  | 0, _, _, out => out.reverse
  | _ + 1, [], _, out => out.reverse
  | fuel + 1, none :: pool, seen, out => walk g boundary fuel pool seen out
  | fuel + 1, some n :: pool, seen, out =>
    if seen.contains n then walk g boundary fuel pool seen out
    else
      let node := s.node n
      if node.home ≠ some g then
        -- a node outside may be met again from another user: it is listed once
        walk g boundary fuel pool (n :: seen) (if boundary then n :: out else out)
      else
        walk g boundary fuel (node.fn :: node.inputs ++ pool) (n :: seen) (n :: out)

/-- Steps enough for any walk: each node is entered once and looks at its edges. -/
def walkFuel : Nat :=
  s.nodes.foldl (fun acc n => acc + n.inputs.length + 2) 2

/-- The nodes of a graph reached from its output, and the nodes just outside if asked for. -/
def nodesOf (g : GraphId) (boundary : Bool := false) : List NodeId :=
  s.walk g boundary s.walkFuel [(s.graph g).output] [] []

def enclosing (stop : Option GraphId) : Nat → Option GraphId → List GraphId
  | 0, _ => []
  | _ + 1, none => []
  | fuel + 1, some g =>
    if some g = stop then [] else g :: enclosing stop fuel (s.graph g).parent

end Store

end DiffLang.Graph
