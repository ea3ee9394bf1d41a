import DiffLang.Code.Balance
import DiffLang.Graph.Rewriting
import DiffLang.Machine

/-!
# Stages of compilation

Each stage turns what its parent stage gives for a name into something closer to what runs: the
value in the program, the function as a term, as a graph, as a rewritten graph, as stack code, and
as something that can be called from outside. Sequences, records and partial applications are
taken part by part. What a stage gives for a symbol, a function or a term is remembered.
-/

namespace DiffLang.Stage

open Session

/-! ## The standard stages -/

/-- The stages of one way of compiling, after the graphs. -/
structure Pipeline where
  resolved : StageId
  optimized : StageId
  machine : StageId
  exported : StageId

def program : StageId := 0
def symbolic : StageId := 1
def graphs : StageId := 2
def constantMachine : StageId := 3
def constants : StageId := 4
def standard : Pipeline := ⟨5, 6, 7, 8⟩

def firstPasses : List Pass := [.resolve]

def standardPasses : List Pass := [.equilibrium [.dropCopy]]

/-- The neighbours of a stage, where `optimized` holds the graphs ready for code. -/
def near (optimized : StageId) : Neighbours := { graphs, constants, optimized }

def initialStages : Array Stage :=
  let n := near standard.optimized
  #[⟨.program, 0, n, []⟩,
    ⟨.symbolic, program, n, []⟩,
    ⟨.graphs, symbolic, n, []⟩,
    ⟨.machine, graphs, n, []⟩,
    ⟨.exported, constantMachine, n, []⟩,
    ⟨.rewritten firstPasses true, graphs, n, []⟩,
    ⟨.rewritten standardPasses false, standard.resolved, n, []⟩,
    ⟨.machine, standard.optimized, n, []⟩,
    ⟨.exported, standard.machine, n, []⟩]

def add (kind : StageKind) (parent : StageId) (n : Neighbours) : Run StageId :=
  modifyGet fun s => (s.stages.size, { s with stages := s.stages.push ⟨kind, parent, n, []⟩ })

/-- A way of compiling with its own passes. The stage of resolved graphs is shared if its passes
are the usual ones. -/
def pipeline (first passes : List Pass) : Run Pipeline := do
  let size := (← get).stages.size
  let (resolved, optimized) :=
    if first = firstPasses then (standard.resolved, size) else (size, size + 1)
  let n := near optimized
  let resolved ← if first = firstPasses then pure resolved
    else add (.rewritten first true) graphs n
  let optimized ← add (.rewritten passes false) resolved n
  let machine ← add .machine optimized n
  let exported ← add .exported machine n
  pure { resolved, optimized, machine, exported }

/-! ## What stages make -/

def operationNames : List (String × String) :=
  ["len", "range", "map", "filter", "enumerate", "slice", "sum", "Exception", "print", "getattr",
   "setattr"].map fun n => (n, n)

def numericNames : List (String × String) :=
  [("np.add", "add"), ("np.arange", "range"), ("np.divide", "divide"), ("np.dot", "dot"),
   ("np.exp", "exp"), ("np.log", "log"), ("np.multiply", "multiply"),
   ("np.subtract", "subtract")]

def operation? (s : Session) (name : String) : Option String :=
  match operationNames.lookup name with
  | some op => some op
  | none => if s.numericNames then numericNames.lookup name else none

def overParts (f : Value → Run Value) (v : Value) : Run Value :=
  StructuralMap.map (fun
    | [x] => f x
    | _ => throw .typeMismatch) none v []

def primitiveFor (home : Home) (op : Symbol) : Run Value := do
  match op with
  | .plain name .. =>
    if Primitive.isDefined name then pure (.prim .standard op (some home))
    else if ["grad1", "grad2", "grad3"].contains name then throw .missingAttribute
    else throw .missingKey
  | _ => throw .missingKey

def compile (stage : StageId) (kind : StageKind) (g : Graph.GraphId) : Run Value := do
  let s ← get
  let graph := s.store.graph g
  match graph.lambda with
  | none => throw .missingAttribute
  | some id =>
    let l ← getLambda id
    let code ← Run.lift (Graph.balancedCode s.store g (kind = .environment))
    let fn : MachineFunction :=
      { graph := g, stage, lambda := some id
        params := graph.inputs.map fun n => (s.store.node n).tag
        code := code.val
        primal := l.primal
        balanced := by simpa using code.property }
    modifyGet fun s =>
      (.machine s.machineFunctions.size g graph.tag,
        { s with machineFunctions := s.machineFunctions.push fn })

/-- The graph that the passes of a stage work on: a copy, where the parent's graph is to stay as it
is. -/
def workingGraph (duplicate : Bool) (g : Graph.GraphId) : Run Graph.GraphId := do
  if duplicate then
    let source := (← get).store.graph g
    let c ← Graph.copy g none true
    Graph.update fun s => .ok (s.modifyGraph c.graph fun h => { h with lambda := source.lambda })
    pure c.graph
  else pure g

def exportLeaf (stage : StageId) : Value → Value
  | .machine id g tag => .exported id g tag stage
  | v => v

def exportValue (stage : StageId) (v : Value) : Run Value :=
  if v.isStructure then overParts (fun x => pure (exportLeaf stage x)) v
  else pure (exportLeaf stage v)

def remember (id : StageId) (key v : Value) : Run Unit :=
  modify fun s => { s with
    stages := s.stages.modify id fun st => { st with cache := put sameKey key v st.cache } }

variable (host : Host)

/-- Runs passes over a graph. A graph that refers to itself finds itself while they are running. -/
def rewrite (id : StageId) (n : Neighbours) (passes : List Pass) (duplicate : Bool) (key : Value)
    (g : Graph.GraphId) (tag : Symbol) : Run Value := do
  let g ← workingGraph duplicate g
  if Program.isKey key then remember id key (.graph g tag)
  passes.forM (Graph.runPass host n g)
  pure (.graph g tag)

mutual

/-- What a stage makes of a value, given a bound on how deep values and stages nest. -/
def acquire (fuel : Nat) (id : StageId) (v : Value) : Run Value := do
  match fuel with
  | 0 => throw .tooDeep
  | fuel + 1 =>
    match (← get).stages[id]? with
    | none => throw .broken
    | some stage =>
      match stage.kind with
      | .program => Program.resolve v
      | kind => do
        let x ← lookUp fuel stage.parent v
        make fuel id kind stage.neighbours v x

def make (fuel : Nat) (id : StageId) (kind : StageKind) (n : Neighbours) (key x : Value) :
    Run Value := do
  match fuel with
  | 0 => throw .tooDeep
  | fuel + 1 =>
    if x.isStructure then
      match kind with
      | .exported => exportValue id x
      | _ => overParts (acquire fuel id) x
    else
      match kind, x with
      | .symbolic, .function f _ => Program.readFunction f
      | .symbolic, .prim _ op _ => pure (.symbol op)
      | .symbolic, .foreign name =>
        match operation? (← get) name with
        | some op => pure (.symbol (.builtin op))
        | none => pure x
      | .graphs, .lambda l => do
        let g ← Graph.ofLambda l
        pure (.graph g ((← get).store.graph g).tag)
      | .rewritten passes duplicate, .graph g tag => rewrite host id n passes duplicate key g tag
      | .machine, .graph g _ | .environment, .graph g _ => compile id kind g
      | .machine, .exported f g tag _ | .environment, .exported f g tag _ =>
        pure (.machine f g tag)
      | .machine, .symbol s | .environment, .symbol s =>
        if s.isBuiltin then primitiveFor (.stage id) s else pure x
      | .exported, x => exportValue id x
      | _, x => pure x

def lookUp (fuel : Nat) (id : StageId) (v : Value) : Run Value := do
  match fuel with
  | 0 => throw .tooDeep
  | fuel + 1 =>
    if Program.isKey v then
      match ((← get).stages[id]?).bind fun st => (st.cache.find? fun (k, _) => sameKey k v) with
      | some (_, w) => pure w
      | none =>
        let w ← acquire fuel id v
        -- the program's own values have their own memory
        if id ≠ program then remember id v w
        pure w
    else acquire fuel id v

end

def depth : Nat := 10000

/-! ## Running -/

/-- The frame that a call of a compiled function starts with, given its arguments from outside. -/
def start (stage : StageId) (id : Nat) (args : List Value) : Run Machine.Frame := do
  let args ← args.mapM (host.get (.stage stage))
  match (← get).machineFunctions[id]? with
  | none => throw .broken
  | some fn =>
    let direct : Bool := match (← get).stages[stage]? with
      | some st => st.kind = .environment
      | none => false
    if direct then
      pure { code := fn.code, stack := #[.none], bindings := some (fn.params.zip args)
             home := some (.stage stage), lambda := fn.lambda }
    else
      pure { code := fn.code, stack := args.toArray, home := some (.stage stage)
             lambda := fn.lambda }

def run (stage : StageId) (id : Nat) (args : List Value) : Run Value := do
  Machine.run host Machine.patience { frame := ← start host stage id args }

def call (id : Nat) (stage : StageId) (args : List Value) : Run Value := do
  match (← get).stages[stage]? with
  | none => throw .broken
  | some st =>
    let v ← run host st.parent id args
    exportValue stage v

def get (id : StageId) (v : Value) : Run Value := lookUp host depth id v

end DiffLang.Stage
