import DiffLang.Abstract
import DiffLang.Code.Height
import DiffLang.Graph.Pattern
import DiffLang.Source
import DiffLang.Symbol.Generator

/-!
# Sessions

Everything the compiler remembers between two steps: where each node comes from, the generators
of symbols, the functions known by symbol, the graphs, the stages of compilation with what they
have produced, and what the program printed. A computation runs in a session, may fail, and
leaves its traces in the session even then.
-/

namespace DiffLang

inductive Subject where
  | nothing
  | place (loc : Location)
  | term (t : Term)
  | node (n : Graph.NodeId)

/-- Where a node comes from: what it is about, and the transformation that made it. -/
structure Origin where
  subject : Subject
  transform : String

abbrev GeneratorId := Nat

/-- A function of the term language. -/
structure Lambda where
  params : List Ident
  body : Term
  generator : Option GeneratorId
  ref : Option Ident := none
  primal : Option Symbol := none
deriving Inhabited

/-- A function of a program, as it was written: the statement that holds it, and its text's name. -/
structure ProgramFunction where
  name : String
  statement : Source.Stmt
  url : String
  /-- For a function that groups the results of a gradient, the size of the first group. -/
  grouping : Option Nat := none
  /-- For a function inside another one, the variables around it. -/
  scope : Option Nat := none

/-- The variables of a call that runs as it was written. -/
structure Scope where
  values : List (String × Value)
  names : List String
  outer : Option Nat

abbrev Globals := List (String × Value)

inductive Pass where
  | resolve
  | equilibrium (rules : List Graph.Rule)
  /-- Turn partial applications back into nested functions. -/
  | unconvert
  | display (label : String)
deriving DecidableEq

inductive StageKind where
  | program
  | symbolic
  | graphs
  | rewritten (passes : List Pass) (duplicate : Bool)
  | machine
  | environment
  | exported
deriving DecidableEq

abbrev StageId := Nat

/-- The other stages that a stage may have to ask. -/
structure Neighbours where
  graphs : StageId
  constants : StageId
  optimized : StageId
deriving Inhabited

/-- A stage of compilation, with what it has already produced. -/
structure Stage where
  kind : StageKind
  parent : StageId
  neighbours : Neighbours
  cache : List (Value × Value) := []

structure MachineFunction where
  graph : Graph.GraphId
  stage : StageId
  lambda : Option TermId
  params : List Symbol
  code : Array Step
  primal : Option Symbol
  balanced : Code.Balanced params.length code := by decide +kernel

instance : Inhabited MachineFunction :=
  ⟨{ graph := default, stage := default, lambda := none, params := [], code := #[], primal := none }⟩

structure DirectFunction where
  lambda : TermId
  home : Nat
  code : Array Step
deriving Inhabited

/-- An environment that evaluates functions compiled to code with an environment. -/
structure DirectEnv where
  bank : Bank
  runnable : Bool := true
  viaGraph : Bool := false
  config : List (Value × Value) := []
  compiled : List (TermId × Value) := []
  cache : List (Value × Value) := []

structure DeferredFunction where
  fn : Value
  stage : Option StageId := none
  compiled : Option Value := none
  passes : List Pass

/-- The memory of the compiler. -/
structure Session where
  origins : Array (Option Origin) := #[]
  generators : Array Generator := #[]
  /-- How many private namespaces were given out. -/
  hidden : Nat := 0
  globalGenerators : List (String × GeneratorId) := []
  lambdas : List (TermId × Lambda) := []
  /-- What symbols, functions and terms stand for, in the order they were registered. -/
  registry : List (Value × Value) := []
  sources : List (Namespace × Globals) := []
  functions : Array ProgramFunction := #[]
  scopes : Array Scope := #[]
  readCache : List (Nat × Value) := []
  store : Graph.Store := {}
  stages : Array Stage := #[]
  machineFunctions : Array MachineFunction := #[]
  directFunctions : Array DirectFunction := #[]
  directEnvs : Array DirectEnv := #[]
  deferred : Array DeferredFunction := #[]
  /-- Gradients already made, by symbol and number of closure arguments. -/
  gradients : List ((Symbol × Nat) × TermId) := []
  /-- Whether functions of the numeric library stand for builtin operations. -/
  numericNames : Bool := false
  /-- How deep abstract values nest before they are forgotten. -/
  abstractDepth : Nat := Abstract.usualLimit
  printed : String := ""
deriving Inhabited

abbrev Run := ReaderT (Option Origin) (ExceptT Failure (StateM Session))

namespace Run

def go {α : Type} (act : Run α) (s : Session) : Except Failure α × Session :=
  StateT.run (ExceptT.run (ReaderT.run act none)) s

def attempt {α : Type} (act : Run α) : Run (Except Failure α) := fun about =>
  ExceptT.mk do
    let outcome ← ExceptT.run (act about)
    pure (.ok outcome)

def lift {α : Type} : Fallible α → Run α
  | .ok a => pure a
  | .error f => throw f

def about {α : Type} (subject : Subject) (transform : String) (act : Run α) : Run α :=
  withReader (fun _ => some ⟨subject, transform⟩) act

end Run

namespace Session

/-! ## Nodes -/

/-- A number for a new node, which is about what the computation is about. -/
def newId : Run TermId := do
  let origin ← read
  modifyGet fun s => (s.origins.size, { s with origins := s.origins.push origin })

/-- A number for a node that is about nothing. -/
def bareId : Run TermId :=
  modifyGet fun s => (s.origins.size, { s with origins := s.origins.push none })

def setOrigin (id : TermId) (origin : Option Origin) : Run Unit :=
  modify fun s => { s with origins := s.origins.setIfInBounds id origin }

def origin (s : Session) (id : TermId) : Option Origin := (s.origins[id]?).join

def ident (sym : Symbol) : Run Ident := do pure ⟨← newId, sym⟩

def symbolTerm (sym : Symbol) : Run Term := do pure (.ident (← ident sym))

def builtin (name : String) : Run Term := symbolTerm (.builtin name)

def literal (v : Value) : Run Term := do pure (.literal (← newId) v)

def apply (fn : Term) (args : List Term) : Run Term := do pure (.apply (← newId) fn args)

def tuple (items : List Term) : Run Term := do pure (.tuple (← newId) items)

def closure (fn : Term) (args : List Term) : Run Term := do pure (.closure (← newId) fn args)

def bind (bindings : List (Term × Term)) (body : Term) : Run Term := do
  pure (.bind (← newId) bindings body)

/-! ## Places

A node is about another node, which is about another, until one is about a place. Nodes are made
after what they are about, so the chain goes through falling numbers; following it for as many
steps as there are nodes is enough. -/

/-- The place at the end of a chain of origins. -/
def placeOf (s : Session) : Nat → Subject → Option Location
  | _, .place loc => some loc
  | 0, _ => none
  | fuel + 1, .term t =>
    match s.origin t.id with
    | some o => placeOf s fuel o.subject
    | none => none
  | _, _ => none

def findLocation (t : Term) : Run (Option Location) := do
  let s ← get
  pure (s.placeOf s.origins.size (.term t))

/-- The place the computation is about. Outside of any, the question has no answer. -/
def currentLocation : Run (Option Location) := do
  match ← read with
  | none => throw (.plain .unboundLocal)
  | some o =>
    let s ← get
    pure (s.placeOf s.origins.size o.subject)

def syntaxFailure {α : Type} (text : String) (loc : Option Location := none) : Run α := do
  let loc ← match loc with
    | some l => pure (some l)
    | none => currentLocation
  throw { kind := .syntaxError, args := [.str text], stated := true, location := loc }

/-! ## Symbols -/

def newGenerator (space : Namespace) : Run GeneratorId :=
  modifyGet fun s =>
    (s.generators.size, { s with generators := s.generators.push { space } })

def privateGenerator : Run GeneratorId :=
  modifyGet fun s =>
    (s.generators.size,
      { s with
        generators := s.generators.push { space := .hidden s.hidden }
        hidden := s.hidden + 1 })

def generate (g : GeneratorId) (f : Generator → Symbol × Generator) : Run Symbol :=
  modifyGet fun s =>
    let (sym, gen) := f (s.generators.getD g default)
    (sym, { s with generators := s.generators.setIfInBounds g gen })

def freshPlain (g : GeneratorId) (label : String) (version : Option Nat := none) : Run Symbol :=
  generate g fun gen => gen.plain label version

def freshDerived (g : GeneratorId) (base : Symbol) (relation : String)
    (version : Option Nat := none) : Run Symbol :=
  generate g fun gen => gen.derive base relation version

/-- The generators that every session starts with. -/
inductive Fixed where
  | nothing
  | normal
  | gradient
  | graphValue
  | optimized
  | pattern

/-- The namespaces of the fixed generators, in the order of their numbers. -/
def fixedSpaces : List Namespace :=
  [.null, .named "global::a_normal", .named "global::grad", .named ":value", .named "::opt",
   .named "opt::pattern"]

/-- A session in which nothing has happened. The first number is that of nodes that belong to no
term. -/
def initial : Session :=
  { origins := #[none], generators := (fixedSpaces.map fun space => { space }).toArray }

def Fixed.id : Fixed → GeneratorId
  | .nothing => 0
  | .normal => 1
  | .gradient => 2
  | .graphValue => 3
  | .optimized => 4
  | .pattern => 5

def freshNothing : Run Ident := do ident (← freshPlain Fixed.nothing.id Relation.nothing)

def globalGenerator (url : String) : Run GeneratorId := do
  match (← get).globalGenerators.lookup url with
  | some g => pure g
  | none =>
    let g ← newGenerator (.named ("global:" ++ url))
    modify fun s => { s with globalGenerators := s.globalGenerators ++ [(url, g)] }
    pure g

/-! ## Functions -/

/-- Puts a pair into an association list, in the place of an older pair with an equal key. -/
def put {α β : Type} (same : α → α → Bool) (key : α) (b : β) : List (α × β) → List (α × β)
  | [] => [(key, b)]
  | (k, c) :: rest => if same k key then (k, b) :: rest else (k, c) :: put same key b rest

theorem lookup_put {α β : Type} [BEq α] [LawfulBEq α] (key k : α) (b : β) :
    ∀ l : List (α × β), (put (· == ·) key b l).lookup k = if k == key then some b else l.lookup k
  | [] => by
    simp only [put, List.lookup_cons, List.lookup_nil]
    split <;> simp_all
  | (k', c) :: l => by
    rw [put]
    split
    next h =>
      obtain rfl := eq_of_beq h
      simp only [List.lookup_cons]
      split <;> simp_all
    next h =>
      simp only [List.lookup_cons, lookup_put key k b l]
      split
      next hk =>
        obtain rfl := eq_of_beq hk
        rw [if_neg h]
      next => rfl

theorem mem_put {α β : Type} {same : α → α → Bool} {key : α} {b : β} {e : α × β} :
    ∀ {l : List (α × β)}, e ∈ put same key b l → e.2 = b ∨ e ∈ l
  | [], h => .inl (congrArg Prod.snd (List.mem_singleton.mp h))
  | (k, c) :: l, h => by
    rw [put] at h
    split at h
    · rcases List.mem_cons.mp h with rfl | h
      · exact .inl rfl
      · exact .inr (List.mem_cons_of_mem _ h)
    · rcases List.mem_cons.mp h with rfl | h
      · exact .inr (List.mem_cons_self ..)
      · exact (mem_put h).imp_right (List.mem_cons_of_mem _)

/-- Whether two values are the same key of a registry: symbols by their parts, functions and
terms by their numbers. -/
def sameKey : Value → Value → Bool
  | .symbol a, .symbol b => a = b
  | .function a _, .function b _ => a = b
  | .lambda a, .lambda b => a = b
  | _, _ => false

def lambda? (s : Session) (id : TermId) : Option Lambda := s.lambdas.lookup id

def modifyLambda (id : TermId) (f : Lambda → Lambda) : Run Unit :=
  modify fun s =>
    { s with lambdas := s.lambdas.map fun (i, l) => if i = id then (i, f l) else (i, l) }

/-- Registers a value under a symbol. A function is from then on known by that symbol. -/
def associate (ref : Ident) (v : Value) : Run Unit := do
  match v with
  | .lambda id => modifyLambda id fun l => { l with ref := some ref }
  | _ => pure ()
  modify fun s => { s with registry := put sameKey (.symbol ref.sym) v s.registry }

def newLambda (params : List Ident) (body : Term) (generator : Option GeneratorId) :
    Run TermId := do
  let id ← newId
  modify fun s => { s with lambdas := (id, { params, body, generator }) :: s.lambdas }
  pure id

def createLambda (ref : Ident) (params : List Ident) (body : Term)
    (generator : Option GeneratorId) : Run TermId := do
  let id ← newLambda params body generator
  associate ref (.lambda id)
  pure id

def getLambda (id : TermId) : Run Lambda := do
  match (← get).lambda? id with
  | some l => pure l
  | none => throw .broken

def lambdaTerm (id : TermId) (l : Lambda) : Term := .lambda id l.params l.body

end Session

end DiffLang
