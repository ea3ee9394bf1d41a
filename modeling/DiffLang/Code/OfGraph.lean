import DiffLang.Graph.Copy

/-!
# Stack code from graphs

The stack starts with the arguments. A node that several others use is computed once, in an order
in which everything comes after what it needs, and stays on the stack; its users copy it from
there. Any other node is computed where it is used.
-/

namespace DiffLang.Graph

/-- The code made so far, and where values are on the stack. -/
structure Emission where
  code : List Step := []
  size : Nat
  places : List (NodeId × Int) := []

namespace Emission

def push (e : Emission) (n : NodeId) (op : Instruction) : Emission :=
  { e with code := ⟨op, .node n⟩ :: e.code, size := e.size + 1 }

/-- Adds an application, which takes its inputs and its function off the stack. -/
def reduce (e : Emission) (n : NodeId) (count : Nat) : Emission :=
  { e with code := ⟨.reduce count, .node n⟩ :: e.code, size := e.size - count }

end Emission

/-- Adds the code that leaves the value of a node on top of the stack. A shared node is computed
only at the top, never inside of another. -/
def emit (s : Store) (g : GraphId) : Nat → Bool → Emission → NodeId → Fallible Emission
  | 0, _, _, _ => .error .tooDeep
  | fuel + 1, top, e, n =>
    let node := s.node n
    match e.places.lookup n with
    | some i => .ok (e.push n (.dup i))
    | none =>
      match node.application? with
      | some parts => do
        if parts.any Option.isNone then throw .broken
        let parts := parts.filterMap id
        let e ← parts.foldlM (emit s g fuel false) e
        let e := e.reduce n (parts.length - 1)
        if node.users.length > 1 && !top then throw .broken
        pure e
      | none =>
        match node.value with
        | some (.symbol x) =>
          if x.isGlobal then .ok (e.push n (.fetch (.symbol x)))
          else .ok (e.push n (.push (.symbol x)))
        | some (.graph ..) => .ok (e.push n (.fetch (.symbol node.tag)))
        | some v => .ok (e.push n (.push v))
        | none =>
          match (s.graph g).inputs.findIdx? (· == n) with
          | some i => .ok (e.push n (.dup i))
          | none => .error .badValue

def instructions (s : Store) (g : GraphId) : Fallible (Array Step) := do
  let shared := (← inOrder s g).filter fun n => (s.node n).users.length > 1
  let fuel := s.walkFuel
  let e : Emission := { size := (s.graph g).inputs.length }
  let e ← shared.foldlM (fun (e : Emission) n => do
    let e ← emit s g fuel true e n
    pure { e with places := (n, (e.size : Int) - 1) :: e.places }) e
  match (s.graph g).output with
  | none => throw .missingAttribute
  | some out =>
    let e ← emit s g fuel true e out
    pure e.code.reverse.toArray

/-- The instructions of a graph for a frame with variables. Only a graph whose output is not
computed has any. -/
def variableCode (s : Store) (g : GraphId) : Fallible (Array Step) := do
  match (s.graph g).output with
  | none => throw .missingAttribute
  | some out =>
    let node := s.node out
    let op : Fallible Instruction :=
      if node.isComputation then .error .missingAttribute
      else match node.value with
        | some (.symbol x) =>
          .ok (if x.isGlobal then .fetch (.symbol x) else .push (.symbol x))
        | some (.graph ..) | none => .ok (.fetch (.symbol node.tag))
        | some v => .ok (.push v)
    pure #[⟨← op, .node out⟩]

end DiffLang.Graph
