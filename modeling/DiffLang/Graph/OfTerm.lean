import DiffLang.Term.Normal

/-!
# Graphs from terms

The A-normal form of a function becomes a graph with one node for each variable. A binding makes
its node the application of the bound call; copies, tuples and partial applications become calls
of the operations `identity`, `mktuple` and `partial`. A pattern on the left is taken apart by
`index`. Equal literals share a node, and so do occurrences of one global name.
-/

namespace DiffLang.Graph

open Session

inductive Source where
  | symbol (s : Symbol)
  | literal (id : TermId) (v : Value)
  | position (i : Nat)

def Source.same : Source → Source → Fallible Bool
  | .symbol a, .symbol b => .ok (a = b)
  | .literal i a, .literal j b => if i = j then .ok true else a.same b
  | .position i, .position j => .ok (i = j)
  | _, _ => .ok false

structure Building where
  graph : GraphId
  generator : Option GeneratorId
  nodes : List (Source × NodeId) := []

abbrev Build := StateT Building Run

def update (f : Store → Fallible Store) : Run Unit := do
  let s ← get
  let store ← Run.lift (f s.store)
  set { s with store }

def newNode (n : Node) : Run NodeId :=
  modifyGet fun s =>
    let (id, store) := s.store.addNode n
    (id, { s with store })

def newGraph (g : Graph) : Run GraphId :=
  modifyGet fun s =>
    let (id, store) := s.store.addGraph g
    (id, { s with store })

def known (source : Source) : List (Source × NodeId) → Fallible (Option NodeId)
  | [] => .ok none
  | (k, n) :: rest => do
    if ← Source.same k source then pure (some n) else known source rest

def newConstant (v : Value) : Run NodeId := do
  let tag ← freshPlain Fixed.graphValue.id "value"
  newNode { home := none, tag, value := some v }

def fetch (source : Source) : Build NodeId := do
  match source with
  | .literal _ v => if !v.isHashable then throw .typeMismatch
  | _ => pure ()
  match ← Run.lift (known source (← get).nodes) with
  | some n => pure n
  | none =>
    let n : NodeId ← match source with
      | .symbol s =>
        if s.isGlobal then newNode { home := none, tag := s, value := some (.symbol s) }
        else newNode { home := some (← get).graph, tag := s }
      | .literal _ v => newConstant v
      | .position i => newConstant (.nat i)
    modify fun b => { b with nodes := b.nodes ++ [(source, n)] }
    pure n

def fetchTerm : Term → Build NodeId
  | .ident x => fetch (.symbol x.sym)
  | .literal id v => fetch (.literal id v)
  | .lambda id _ _ => fetch (.literal id (.lambda id))
  | .apply id fn args => fetch (.literal id (.term "ApplyNode" (Term.apply id fn args).text))
  | t => fetch (.literal t.id (.term t.sortName t.text))

def fetchOperation (name : String) : Build NodeId := fetch (.symbol (.builtin name))

def become (n fn : NodeId) (inputs : List NodeId) : Build Unit :=
  update fun s => s.setApplication n (some fn) (inputs.map some)

def assignVariable (x : Symbol) (value : Term) : Build Unit := do
  let n ← fetch (.symbol x)
  match value with
  | .apply _ fn args =>
    let ns ← args.mapM fetchTerm
    become n (← fetchTerm fn) ns
  | .ident _ | .literal .. =>
    let f ← fetchOperation "identity"
    become n f [← fetchTerm value]
  | .closure _ fn args =>
    let ns ← (fn :: args).mapM fetchTerm
    become n (← fetchOperation "partial") ns
  | .tuple _ items =>
    let ns ← items.mapM fetchTerm
    become n (← fetchOperation "mktuple") ns
  | _ => throw (.plain .name)

def assignPart (x whole : Symbol) (i : Nat) : Build Unit := do
  let n ← fetch (.symbol x)
  let f ← fetchOperation "index"
  let w ← fetch (.symbol whole)
  become n f [w, ← fetch (.position i)]

def temporary : Build Symbol := do
  match (← get).generator with
  | some g => freshPlain g Relation.temporary
  | none => throw .typeMismatch

mutual

def assignParts (whole : Symbol) : Nat → List Term → Build Unit
  | _, [] => pure ()
  | i, t :: ts => do
    assignPattern whole i t
    assignParts whole (i + 1) ts

def assignPattern (whole : Symbol) (i : Nat) : Term → Build Unit
  | .ident x => assignPart x.sym whole i
  | .tuple _ items => do
    let part ← temporary
    assignPart part whole i
    assignParts part 0 items
  | t => do
    let _ ← fetchTerm t
    throw .broken

end

def addBinding (target value : Term) : Build Unit := do
  match target with
  | .ident x => assignVariable x.sym value
  | .tuple _ items =>
    let whole ← temporary
    assignVariable whole value
    assignParts whole 0 items
  | _ => throw .broken

def ofLambda (id : TermId) : Run GraphId := do
  let normal ← Normal.ofLambda id
  let l ← getLambda normal
  let tag ← match (← getLambda id).ref with
    | some r => pure r.sym
    | none => throw .missingAttribute
  let graph ← newGraph
    { parent := none, tag, generator := l.generator.getD 0, lambda := some id }
  let work : Build Unit := do
    let inputs ← l.params.mapM fun p => fetch (.symbol p.sym)
    update fun s => .ok (s.setInputs graph inputs)
    let _ ← newNode { home := none, tag, value := some (.graph graph tag) }
    match l.body with
    | .bind _ bindings body =>
      let out ← fetchTerm body
      update fun s => s.setOutput graph out
      for (k, v) in bindings do addBinding k v
    | t =>
      let out ← fetchTerm t
      update fun s => s.setOutput graph out
      if !Normal.isLeaf t then throw .broken
  StateT.run' work { graph, generator := l.generator }
  pure graph

end DiffLang.Graph
