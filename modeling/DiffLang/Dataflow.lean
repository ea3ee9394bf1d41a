import DiffLang.Stage

/-!
# Dataflow

Which facts hold of which nodes of a program: the functions, tuples and literals that may flow to
a node, its types, and what is needed of it. Each kind of fact has a track of its own. Nodes are
linked by listeners: a listener on a node is told every fact of that node, those that are there
already and those to come, and passes it on, or links further nodes.

Variables are one node wherever they occur, and so are equal literals; any other node is only
itself.
-/

namespace DiffLang.Dataflow

/-! ## Facts -/

inductive Track where
  | value
  | type
  | needs
deriving DecidableEq

def Track.name : Track → String
  | .value => "value"
  | .type => "type"
  | .needs => "needs"

def Track.ofName? : String → Option Track
  | "value" => some .value
  | "type" => some .type
  | "needs" => some .needs
  | _ => none

/-- Whether facts also flow against the direction of the program. -/
def Track.isBidirectional (t : Track) : Bool := t = .needs

inductive Fact where
  | value (v : Value)
  | term (t : Term)

def Fact.same : Fact → Fact → Bool
  | .value a, .value b => a.agrees b
  | .term a, .term b => a.id = b.id
  | _, _ => false

def Fact.ofTerm : Term → Fact
  | .ident x => .value (.symbol x.sym)
  | .literal _ v => .value (.literal v)
  | .lambda id _ _ => .value (.lambda id)
  | t => .term t

def Fact.text (s : Session) : Fact → String
  | .value (.lambda id) =>
    "<" ++ (((s.lambda? id).bind (·.ref)).map fun x => x.sym.text).getD "?" ++ ">"
  | .value v => v.text
  | .term t => t.text

def Fact.sortText : Fact → String
  | .value v => v.sortText
  | .term t => (Value.term t.sortName t.text).sortText

def Fact.isHashable : Fact → Bool
  | .value v => v.isHashable
  | .term _ => true

/-! ## Listeners -/

/-- What is done with the facts of a node. -/
inductive Listener where
  | forward (target : Term)
  | backward (target : Term)
  /-- The node is called: link the function that flows to it with its arguments, held in a cell,
  and with the place of the call. Its body is linked only if the call takes place. -/
  | call (cell : Nat) (site : Term) (entered : Bool)
  | bind (pattern : Term)
  | choose (args : List Term) (site : Term)
  | position (cell : Nat) (site : Term)
  | contents (cell : Nat) (site : Term)
  | typed (op : Symbol) (args : List Term) (site : Term)
  /-- The node is the result of an operation: what is needed of it decides what is needed of the
  arguments. -/
  | need (op : Symbol) (site : Term)

def Listener.track? : Listener → Option Track
  | .call .. | .choose .. | .position .. | .contents .. => some .value
  | .need .. => some .needs
  | _ => none

/-! ## The state of an analysis -/

/-- Positions and tuples that met at one place. -/
structure Meeting where
  positions : List Value := []
  tuples : List Term := []

structure Entry where
  track : Track
  node : Term
  facts : List Fact

structure Visited where
  node : Term
  listeners : List Listener := []

structure Flow where
  tracks : List Track
  always : List Fact := []
  visited : List Visited := []
  entries : List Entry := []
  arguments : Array (List Term) := #[]
  meetings : Array Meeting := #[]
deriving Inhabited

/-! ## Nodes -/

/-- A floating-point number by what it stands for: a whole number as such, any other one by its
bits. A NaN stands for nothing. -/
def standsFor? (x : Float) : Option (Int ⊕ UInt64) :=
  if x.isNaN then none
  else if x.isInf then some (.inr x.toBits)
  else
    let (m, q) := Decimal.parts x
    let m : Int := if Decimal.isNegative x then -(m : Int) else m
    if q ≥ 0 then some (.inl (m * Int.pow 2 q.toNat))
    else if m % Int.pow 2 (-q).toNat = 0 then some (.inl (m / Int.pow 2 (-q).toNat))
    else some (.inr x.toBits)

def numberKey? : Value → Option ((Int ⊕ UInt64) × (Int ⊕ UInt64))
  | .int n => some (.inl n, .inl 0)
  | .bool b => some (.inl (if b then 1 else 0), .inl 0)
  | .float x => (standsFor? x).map (·, .inl 0)
  | .complex a b => do pure (← standsFor? a, ← standsFor? b)
  | _ => none

/-- What a node is known by. -/
inductive Point where
  | name (x : Symbol)
  | number (key : (Int ⊕ UInt64) × (Int ⊕ UInt64))
  | constant (key : Value.Identity)
  | node (sort : String) (id : TermId)
deriving DecidableEq

def literalPoint (id : TermId) (v : Value) : Point :=
  match numberKey? v, v.identity? with
  | some key, _ => .number key
  | none, some key => .constant key
  | none, none => .node "ValueNode" id

def pointOf : Term → Point
  | .ident x => .name x.sym
  | .literal id v => literalPoint id v
  | t => .node t.sortName t.id

def samePoint (a b : Term) : Bool := pointOf a = pointOf b

namespace Flow

def isVisited (f : Flow) (t : Term) : Bool := f.visited.any fun v => samePoint v.node t

def listeners (f : Flow) (t : Term) : List Listener :=
  ((f.visited.find? fun v => samePoint v.node t).map Visited.listeners).getD []

/-- Changes the first item of a list that satisfies a test. -/
def modifyFirst {α : Type} (p : α → Bool) (g : α → α) : List α → List α
  | [] => []
  | a :: rest => if p a then g a :: rest else a :: modifyFirst p g rest

def listen (f : Flow) (t : Term) (l : Listener) : Flow :=
  let visited := modifyFirst (fun v => samePoint v.node t)
    (fun v => { v with listeners := v.listeners ++ [l] }) f.visited
  { f with visited }

def Entry.isOf (track : Track) (t : Term) (e : Entry) : Bool :=
  e.track = track && samePoint e.node t

def facts (f : Flow) (track : Track) (t : Term) : List Fact :=
  ((f.entries.find? (Entry.isOf track t)).map Dataflow.Entry.facts).getD []

/-- Makes room for the facts of a node. A node is shown as it was first met. -/
def touch (f : Flow) (track : Track) (t : Term) : Flow :=
  if f.entries.any (Entry.isOf track t) then f
  else { f with entries := f.entries ++ [⟨track, t, []⟩] }

def addFact (f : Flow) (track : Track) (t : Term) (x : Fact) : Flow :=
  let entries := modifyFirst (Entry.isOf track t)
    (fun e => { e with facts := e.facts ++ [x] }) (f.touch track t).entries
  { f with entries }

end Flow

/-- An analysis that may fail, and keeps what it has found even then. -/
abbrev Analysis := ExceptT Failure (StateT Flow (StateM Session))

namespace Analysis

def lift {α : Type} (act : Run α) : Analysis α := fun f s =>
  let (outcome, s) := Run.go act s
  ((outcome, f), s)

def attempt {α : Type} (act : Analysis α) : Analysis (Except Failure α) :=
  ExceptT.mk do
    let outcome ← ExceptT.run act
    pure (.ok outcome)

def run {α : Type} (act : Analysis α) (f : Flow) : Run (Except Failure α × Flow) :=
  modifyGet fun s =>
    let (r, s) := (act f).run s
    (r, s)

def flow : Analysis Flow := fun f s => ((.ok f, f), s)

def change (g : Flow → Flow) : Analysis Unit := fun f s => ((.ok (), g f), s)

def ofFallible {α : Type} : Fallible α → Analysis α
  | .ok a => pure a
  | .error e => throw e

end Analysis

end DiffLang.Dataflow
