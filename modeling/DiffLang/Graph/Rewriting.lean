import DiffLang.Graph.Copy
import DiffLang.Primitive

/-!
# Rewriting graphs

A rule that matches a node gives a list of changes. Rules are applied until none applies: a pool
holds the nodes still to look at, and a node where no rule applied is looked at again when one of
the nodes that its matches depended on changes. Which node of the pool comes next is not fixed by
the rules; here it is the one that entered first.
-/

namespace DiffLang.Graph

open Session

/-! ## What rules do -/

def Bindings.node (u : Bindings) (name : String) : Run NodeId :=
  match u.lookup name with
  | some (.one (some n)) => pure n
  | _ => throw .missingAttribute

def Bindings.nodes (u : Bindings) (name : String) : List (Option NodeId) :=
  match u.lookup name with
  | some (.run ns) => ns
  | some (.one n) => [n]
  | none => []

def replaceBy (n target : NodeId) : Run (List Change) := do
  Run.lift ((← get).store.redirectChanges n target)

def wholeNumber : Value → Fallible Int
  | .float x =>
    if x.isNaN then .error .badValue
    else if x.isInf then .error .overflow
    else .ok ((Tensor.toInt? (.float x)).getD 0)
  | .scalar _ (.float x) => wholeNumber (.float x)
  | .scalar _ (.bool b) => .ok (if b then 1 else 0)
  | .str s =>
    match s.trimAscii.toString.toInt? with
    | some n => .ok n
    | none => .error .badValue
  | v =>
    match v.index? with
    | some n => .ok n
    | none => .error .typeMismatch

def graphRef (g : GraphId) : Run Symbol := do
  match ((← get).store.graph g).lambda with
  | some id => pure (← Program.refOf id).sym
  | none => throw .missingAttribute

def graphConstant (g : GraphId) : Run NodeId := do
  let tag := ((← get).store.graph g).tag
  newNode { home := none, tag := ← graphRef g, value := some (.graph g tag) }

mutual

/-- A node for a value that was computed for a node with some tag. Partial applications become
applications. -/
def nodeFor (tag : Symbol) : Value → Run NodeId
  | .machine _ g _ => graphConstant g
  | .exported _ g _ _ => graphConstant g
  | .graph g _ => graphConstant g
  | .closure fn args => do
    let op := Symbol.builtin "partial"
    let operation ← newNode { home := none, tag := op, value := some (.symbol op) }
    let n ← newNode { home := none, tag }
    let fn ← nodeFor tag fn
    let args ← nodesFor tag args
    update fun s => s.setApplication n (some operation) ((fn :: args).map some)
    pure n
  | v => do
    newNode { home := none, tag := ← freshDerived Fixed.pattern.id tag "@", value := some v }

def nodesFor (tag : Symbol) : List Value → Run (List NodeId)
  | [] => pure []
  | v :: vs => do
    let n ← nodeFor tag v
    pure (n :: (← nodesFor tag vs))

end

def constantValue (n : NodeId) : Run Value := do
  match ((← get).store.node n).value with
  | some v => pure v
  | none => throw .missingAttribute

def namesPartial : Value → Bool
  | .symbol s => s = Symbol.builtin "partial"
  | _ => false

variable (host : Host)

def compute (constants : StageId) (fn : NodeId) (args : List NodeId) : Run Value := do
  let f ← host.get (.stage constants) (← constantValue fn)
  let vs ← args.mapM fun m => do host.get (.stage constants) (← constantValue m)
  host.call f vs

def evaluate (constants : StageId) (n : NodeId) (fn : NodeId) (args : List (Option NodeId)) :
    Run (List Change) := do
  if namesPartial (← constantValue fn) then pure []
  else
    let result ← compute host constants fn (args.filterMap id)
    let target ← nodeFor ((← get).store.node n).tag result
    replaceBy n target

def Rule.effect (near : Neighbours) (rule : Rule) (n : NodeId) (u : Bindings) :
    Run (List Change) := do
  match rule with
  | .multiplyByOneLeft | .multiplyByOneRight | .dropCopy => replaceBy n (← u.node "X")
  | .evalConstant => evaluate host near.constants n (← u.node "V1") (u.nodes "V2")
  | .resolveGlobal =>
    match ((← get).store.node (← u.node "GV")).value with
    | some (.symbol s) =>
      let v ← host.get (.stage near.optimized) (.symbol s)
      replaceBy n (← newNode { home := none, tag := s, value := some v })
    | _ => throw .missingAttribute
  | .inline =>
    match ((← get).store.node (← u.node "L")).graph? with
    | none => throw .missingAttribute
    | some g =>
      let c ← copy g ((← get).store.node n).home
      if !(u.nodes "X").isEmpty && !c.inputs.isEmpty then throw .missingAttribute
      match c.output with
      | some o => replaceBy n o
      | none => throw .broken
  | .expandPartial => throw .missingAttribute
  | .indexIntoTuple =>
    let items := u.nodes "X"
    match ((← get).store.node (← u.node "V")).value with
    | none => throw .missingAttribute
    | some v =>
      let i ← Run.lift (wholeNumber v)
      let k ← Run.lift (Value.place items.length i)
      match items.getD k none with
      | some m => replaceBy n m
      | none => pure []

/-- What a rule does to a node: the nodes it looked at, and the changes. A match that binds
nothing changes nothing. -/
def Rule.apply (near : Neighbours) (rule : Rule) (n : NodeId) :
    Run (List NodeId × List Change) := do
  let m ← Run.lift (rule.pattern.matches (← get).store n)
  match m.bindings with
  | none | some [] => pure (m.touched, [])
  | some u => pure (m.touched, ← rule.effect host near n u)

/-! ## Equilibrium -/

/-- The state of a run: the graphs met, the nodes to look at, those where no rule applied, and for
each node those that are to be looked at again when it changes. -/
structure Equilibrium where
  graphs : List GraphId
  pool : List NodeId
  processed : List NodeId := []
  repools : List (NodeId × List NodeId) := []

namespace Equilibrium

def insert (n : NodeId) (ns : List NodeId) : List NodeId := if ns.contains n then ns else ns ++ [n]

def markChange (e : Equilibrium) : Owner → Equilibrium
  | .graph _ => e
  | .node n =>
    let again := (e.repools.lookup n).getD []
    { e with
      processed := e.processed.filter fun m => !again.contains m
      pool := again.foldl (fun p m => insert m p) e.pool
      repools := e.repools.filter fun (m, _) => m ≠ n }

/-- The first end of a changed edge. -/
def sourceOf : Change → Owner
  | .link source _ _ => source
  | .unlink source _ _ => source

def eliminate : Nat → NodeId → Run Unit
  | 0, _ => throw .tooDeep
  | fuel + 1, n => do
    let node := (← get).store.node n
    if node.users.isEmpty then
      for (role, m) in node.edges do
        update fun s => s.removeUser m (role, .node n)
      for (_, m) in node.edges do
        eliminate fuel m

def change (e : Equilibrium) : List Change → Run Equilibrium
  | [] => pure e
  | c :: cs => do
    update fun s => s.apply c
    change (e.markChange (sourceOf c)) cs

def settle (s : Store) (e : Equilibrium) (n : NodeId) (touched : List NodeId) : Equilibrium :=
  let processed := insert n e.processed
  let next := (s.node n).successors.filter fun m => !processed.contains m
  { e with
    processed
    pool := next.foldl (fun p m => insert m p) e.pool
    repools := touched.foldl (fun r m =>
      Session.put (· == ·) m (insert n ((r.lookup m).getD [])) r) e.repools }

def tryRules (near : Neighbours) (e : Equilibrium) (n : NodeId) :
    List Rule → List NodeId → Run Equilibrium
  | [], touched => do pure (e.settle (← get).store n touched)
  | r :: rs, touched => do
    let (seen, changes) ← r.apply host near n
    if changes.isEmpty then tryRules near e n rs (seen.foldl (fun t m => insert m t) touched)
    else
      let e ← e.change changes
      eliminate (← get).store.nodes.size n
      pure e

/-- Looks at one node. A constant that is a graph only makes that graph part of the run. -/
def process (near : Neighbours) (rules : List Rule) (e : Equilibrium) (n : NodeId) :
    Run Equilibrium := do
  let s := (← get).store
  match (s.node n).graph? with
  | some g =>
    match (s.graph g).output with
    | some o => pure { e with graphs := insert g e.graphs, pool := insert o e.pool }
    | none => throw .broken
  | none => tryRules host near e n rules []

def run (near : Neighbours) (rules : List Rule) : Nat → Equilibrium → Run Unit
  | 0, _ => throw .tooDeep
  | fuel + 1, e => do
    match e.pool with
    | [] => pure ()
    | n :: rest => run near rules fuel (← process host near rules { e with pool := rest } n)

end Equilibrium

/-! ## Passes -/

/-- Replaces the global names of a graph by what they stand for, and goes on with the graphs that
they stand for. -/
def resolveNames (graphs : StageId) : Nat → GraphId → Run Unit
  | 0, _ => throw .tooDeep
  | fuel + 1, g => do
    let mut replacements : List (NodeId × NodeId × Value) := []
    for n in (← get).store.nodesOf g true do
      match ((← get).store.node n).value with
      | some (.symbol s) =>
        if s.isGlobal then
          let v ← host.get (.stage graphs) (.symbol s)
          let m ← newNode { home := none, tag := s, value := some v }
          replacements := replacements ++ [(n, m, v)]
      | _ => pure ()
    for (n, m, v) in replacements do
      update fun s => s.redirect n m
      match v with
      | .graph h _ => resolveNames graphs fuel h
      | _ => pure ()

/-- Looks for partial applications that could become nested functions. Finding one fails, since a
graph cannot be changed that way. -/
def unconvert (constants : StageId) : Nat → List GraphId → List GraphId → Run Unit
  | 0, _, _ => throw .tooDeep
  | _ + 1, [], _ => pure ()
  | fuel + 1, g :: pool, seen => do
    let s := (← get).store
    let mut found : List GraphId := []
    for n in s.nodesOf g do
      let node := s.node n
      let fnValue := node.fn.bind fun f => (s.node f).value
      match fnValue with
      | some (.symbol op) =>
        if op = Symbol.builtin "partial" then
          if node.inputs.isEmpty then throw .outOfRange
          let first := (node.inputs.headD none).bind fun m => (s.node m).value
          match first with
          | some (.graph ..) => throw .missingAttribute
          | some (.symbol b) =>
            if b.isBuiltin then
              let _ ← host.get (.stage constants) (.symbol b)
              throw .missingAttribute
          | _ => pure ()
      | some (.graph h _) =>
        match node.graph? with
        | some k => found := found ++ [k]
        | none => found := found ++ [h]
      | _ =>
        match node.graph? with
        | some h => found := found ++ [h]
        | none => pure ()
    -- a graph that calls itself is in its own pool again, and again has nothing to convert
    let new := found.filter fun h => !seen.contains h && h ≠ g
    unconvert constants fuel (new.foldl (fun p h => if p.contains h then p else p ++ [h]) pool)
      (g :: seen)

/-- More steps than could be waited for. Rules need not come to an end, so a run that is still going
after this many is as good as one that never ends. -/
def patience : Nat := 1000000000000000000

def runPass (near : Neighbours) (g : GraphId) : Pass → Run Unit
  | .resolve => resolveNames host near.graphs patience g
  | .equilibrium rules => do
    match ((← get).store.graph g).output with
    | some o => Equilibrium.run host near rules patience { graphs := [g], pool := [o] }
    | none => throw .broken
  | .unconvert => unconvert host near.constants patience [g] []
  | .display label => host.display label g

end DiffLang.Graph
