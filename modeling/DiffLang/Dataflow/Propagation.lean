import DiffLang.Dataflow

/-!
# How facts spread

A fact that is new to a node is told to all listeners of the node, and what they pass on is told at
once. Listeners that are added while a node's listeners are being told are told as well. Visiting a
node of the program visits its parts, links them, and states what is known of the node itself.

What is left to do is a list of tasks. Performing the first task changes the analysis and puts the
tasks that it leads to in its place.
-/

namespace DiffLang.Dataflow

open Session

/-! ## What operations need and give -/

def needValue : Fact := .value Value.valueKey

def needProperty (name : String) : Fact := .value (.symbol (.builtin name))

/-- What an operation needs of its arguments for a property of its result: nothing at all, or some
things of each of the first arguments. -/
inductive Demand where
  | nothing
  | each (needs : List (List Fact))

def demands : List (String × List (Fact × Demand)) :=
  let type := needProperty "type"
  let shape := needProperty "shape"
  let both := [(type, Demand.each [[type], [type]]), (shape, .each [[shape], [shape]])]
  let compared := [(type, Demand.each [[type], [type]]), (shape, .nothing)]
  [("add", both), ("subtract", both), ("dot", both), ("less", compared), ("greater", compared),
   ("index", [(type, .each [[needValue], [type]])]),
   ("identity", [(type, .each [[type]]), (shape, .each [[shape]])]),
   ("switch", [(type, .each [[type, needValue], [type], [type]]),
     (needValue, .each [[], [needValue], [needValue]])])]

/-- What an operation needs of each of `n` arguments for a property of its result. Where nothing is
said, it needs their values. -/
def needsOf (op : Symbol) (n : Nat) (need : Fact) : List (List Fact) :=
  let own := match op with
    | .plain name .. => if op.isBuiltin then (demands.lookup name).getD [] else []
    | .derived .. => []
  match own.find? fun (x, _) => x.same need with
  | some (_, .each needs) => needs
  | some (_, .nothing) => []
  | none => List.replicate n [needValue]

def typeRules : List (String × List (List String × String)) :=
  let same := [(["Float64", "Float64"], "Float64"), (["Int64", "Int64"], "Int64")]
  [("add", same), ("dot", same),
   ("less", [(["Float64", "Float64"], "Bool"), (["Int64", "Int64"], "Bool")])]

def operationName (op : Symbol) : String :=
  match op with
  | .plain name .. => name
  | .derived .. => ""

def typeFact (name : String) : Fact := .value (.type name none)

def isOperation (s : Symbol) : Bool := s.isBuiltin && s.version = 1 &&
  Operation.names.contains (operationName s)

def patternVariables : Term → List Term
  | .tuple _ items => go items
  | t => [t]
where
  go : List Term → List Term
  | [] => []
  | t :: ts => patternVariables t ++ go ts

/-- The term that a global name stands for. What is neither a function of the language nor an
operation cannot be analysed. -/
def importValue (s : Session) : Value → Fallible Term
  | .lambda id =>
    match s.lambda? id with
    | some l => .ok (lambdaTerm id l)
    | none => .error .broken
  | .symbol x => .ok (.ident ⟨0, x⟩)
  | .prim _ op _ => .ok (.ident ⟨0, op⟩)
  | .foreign name =>
    match Stage.operation? s name with
    | some op => .ok (.ident ⟨0, .builtin op⟩)
    | none => .error (.plain .name)
  | _ => .error (.plain .name)

def itemAt (items : List Term) (i : Value) : Fallible Term :=
  match i.index? with
  | none => .error .typeMismatch
  | some k => do
    match items[← Value.place items.length k]? with
    | some t => .ok t
    | none => .error .outOfRange

open Analysis

/-! ## Tasks -/

inductive Task where
  /-- Visit a node and what it depends on, unless that is done already. -/
  | visit (t : Term)
  /-- Visit what a global name stands for, and state that it flows to the name. -/
  | visitGlobal (t : Term) (x : Symbol)
  /-- The end of a visit to a global name: a missing key before it is no failure. -/
  | leaveGlobal
  /-- State a fact of a node, and tell it to the node's listeners if it is new. -/
  | state (t : Term) (track : Track) (x : Fact)
  /-- State that something is needed of a node, if needs are followed. -/
  | demand (t : Term) (xs : List Fact)
  | tell (t : Term) (i : Nat) (track : Track) (x : Fact)
  | hear (l : Listener) (track : Track) (x : Fact)
  /-- Add a listener to a node, and tell it what is known already. -/
  | listen (t : Term) (l : Listener)
  | catchUp (t : Term) (l : Listener) (track : Track)
  | unchanged (t : Term) (track : Track) (size : Nat)
  | sameTuples (cell size : Nat)
  | samePositions (cell size : Nat)
  /-- Link the item that a position picks out of a tuple with a place. -/
  | linkItem (items : List Term) (position : Value) (site : Term)
  | linkArgument (args : List Term) (i : Nat) (site : Term)
  | watchCall (fn : Term) (args : List Term) (site : Term) (entered : Bool)
  | bindTo (target value : Term)
  | operate (track : Track) (op : Symbol) (args : List Term) (site : Term)
  /-- State the type that a rule gives if the arguments have the types that it asks for. -/
  | typeRule (ins : List String) (out : String) (args : List Term) (site : Term)

namespace Task

/-- The tasks that make all facts of one node flow to another, and back on tracks that go both
ways. -/
def link (source target : Term) : List Task :=
  [.listen source (.forward target), .listen target (.backward source)]

def changedMeanwhile : Failure := .plain .runtime

def notFunction (s : Session) (x : Fact) : Failure :=
  .because .exception s!"Cannot flow a non-function here: {x.text s}: {x.sortText}"

def choose (args : List Term) (site : Term) (x : Fact) : Fallible (List Task) :=
  if x.same (.value (.literal (.bool true))) then .ok [.linkArgument args 1 site]
  else if x.same (.value (.literal (.bool false))) then .ok [.linkArgument args 2 site]
  else if x.same (.value .any) then .ok [.linkArgument args 1 site, .linkArgument args 2 site]
  else .error (.because .type "Condition for switch is not boolean.")

/-- A function flows to a call. The arguments of a partial application are put before those of the
call, for this function and for those that come after it. -/
def linkCall (cell : Nat) (site : Term) (entered : Bool) (x : Fact) : Analysis (List Task) := do
  let args := ((← flow).arguments[cell]?).getD []
  match x with
  | .value (.lambda id) =>
    let l ← lift (getLambda id)
    pure ((if entered then link l.body site else []) ++
      (args.zip l.params).flatMap fun (a, p) => link a (.ident p))
  | .term (.closure _ fn captured) =>
    let args := captured ++ args
    change fun f => { f with arguments := f.arguments.setIfInBounds cell args }
    pure [.watchCall fn args site entered]
  | .value .any => pure [.state site .value (.value .any)]
  | x =>
    match x with
    | .value (.symbol op) =>
      if isOperation op then
        let tracks := (← flow).tracks
        pure (if entered then tracks.map fun t => .operate t op args site else [])
      else throw (notFunction (← getThe Session) x)
    | x => throw (notFunction (← getThe Session) x)

def meeting (cell : Nat) : Analysis Meeting := do pure (((← flow).meetings[cell]?).getD {})

def changeMeeting (cell : Nat) (g : Meeting → Meeting) : Analysis Unit :=
  change fun f => { f with meetings := f.meetings.modify cell g }

def hearing (l : Listener) (track : Track) (x : Fact) : Analysis (List Task) := do
  match l with
  | .forward target => pure [.state target track x]
  | .backward target => pure (if track.isBidirectional then [.state target track x] else [])
  | .call cell site entered => linkCall cell site entered x
  | .bind pattern =>
    match x, pattern with
    | .term (.tuple _ items), .tuple _ targets =>
      pure ((targets.zip items).map fun (t, v) => .bindTo t v)
    | _, pattern =>
      pure ((patternVariables pattern).map fun t => .state t .value (.value .any))
  | .choose args site => ofFallible (choose args site x)
  | .position cell site =>
    match x with
    | .value (.literal v) =>
      changeMeeting cell fun m =>
        if m.positions.any v.agrees then m else { m with positions := m.positions ++ [v] }
      let tuples := (← meeting cell).tuples
      pure (tuples.flatMap fun t =>
        [.linkItem t.children v site, .sameTuples cell tuples.length])
    | _ => pure []
  | .contents cell site =>
    match x with
    | .term (.tuple id items) =>
      changeMeeting cell fun m =>
        if m.tuples.any fun t => t.id = id then m
        else { m with tuples := m.tuples ++ [.tuple id items] }
      let positions := (← meeting cell).positions
      pure (positions.flatMap fun v =>
        [.linkItem items v site, .samePositions cell positions.length])
    | _ => pure []
  | .typed op args site =>
    match x with
    | .value (.type ..) =>
      pure (((typeRules.lookup (operationName op)).getD []).map fun (ins, out) =>
        .typeRule ins out args site)
    | _ => pure []
  | .need op site =>
    match site with
    | .apply _ _ args =>
      pure ((args.zip (needsOf op args.length x)).flatMap fun (a, needs) =>
        needs.map fun n => .state a .needs n)
    | _ => pure []

def operating (track : Track) (op : Symbol) (args : List Term) (site : Term) :
    Analysis (List Task) := do
  match track, operationName op with
  | .value, "identity" => pure [.linkArgument args 0 site]
  | .value, "switch" =>
    match args with
    | a :: _ => pure [.listen a (.choose args site)]
    | [] => throw .outOfRange
  | .value, "index" =>
    match args with
    | [dat, idx] =>
      let cell := (← flow).meetings.size
      change fun f => { f with meetings := f.meetings.push {} }
      pure [.listen idx (.position cell site), .listen dat (.contents cell site)]
    | _ => throw .badValue
  | .needs, _ => pure [.listen site (.need op site)]
  | track, name =>
    if track = .type && (typeRules.lookup name).isSome then
      pure (args.map fun a => .listen a (.typed op args site))
    else pure [.state site track (.value .any)]

def visiting (t : Term) (always : List Fact) : Fallible (List Task) :=
  match t with
  | .apply _ fn args =>
    .ok ((fn :: args).map .visit ++
      [.watchCall fn args t true, .demand fn [needValue], .demand t always])
  | .sequence .. => .error (.because .exception "Begin not supported")
  | .closure _ fn args =>
    .ok ((fn :: args).map .visit ++ [.watchCall fn args t false, .state t .value (.ofTerm t)])
  | .lambda _ params body =>
    .ok (params.map (fun p => .visit (.ident p)) ++ [.visit body, .state t .value (.ofTerm t)])
  | .bind _ bindings body =>
    .ok ((bindings.flatMap fun (target, value) =>
        .visit value :: (patternVariables target).map .visit ++ [.bindTo target value]) ++
      .visit body :: link body t ++ [.demand t always])
  | .ident x =>
    .ok ((if isOperation x.sym then [.state t .value (.ofTerm t)]
      else if x.sym.isGlobal then [.visitGlobal t x.sym, .leaveGlobal]
      else []) ++ [.demand t always])
  | .tuple _ items =>
    .ok (items.map .visit ++
      [.state t .value (.ofTerm t), .demand t (needValue :: always)])
  | .literal .. => .ok [.state t .value (.ofTerm t), .demand t always]
  | _ => .error .missingAttribute

def perform : Task → Analysis (List Task)
  | .visit t => do
    let f ← flow
    if f.isVisited t then pure []
    else
      change fun f => { f with visited := f.visited ++ [{ node := t }] }
      ofFallible (visiting t f.always)
  | .visitGlobal t x => do
    let v ← lift (Program.resolve (.symbol x))
    let target ← ofFallible (importValue (← getThe Session) v)
    pure [.visit target, .state t .value (.ofTerm target)]
  | .leaveGlobal => pure []
  | .state t track x => do
    if !x.isHashable then throw .typeMismatch
    change fun f => f.touch track t
    let f ← flow
    if (f.facts track t).any fun y => y.same x then pure []
    else
      change fun f => f.addFact track t x
      if f.isVisited t then pure [.tell t 0 track x] else throw .missingKey
  | .demand t xs => do
    pure (if (← flow).tracks.contains .needs then xs.map fun x => .state t .needs x else [])
  | .tell t i track x => do
    match ((← flow).listeners t)[i]? with
    | none => pure []
    | some l => pure [.hear l track x, .tell t (i + 1) track x]
  | .hear l track x => if l.track?.all (· = track) then hearing l track x else pure []
  | .listen t l => do
    let f ← flow
    if !f.isVisited t then throw .missingKey
    change fun f => f.listen t l
    pure (f.tracks.map fun track => .catchUp t l track)
  | .catchUp t l track => do
    change fun f => f.touch track t
    let known := (← flow).facts track t
    pure (known.flatMap fun x => [.hear l track x, .unchanged t track known.length])
  | .unchanged t track size => do
    if ((← flow).facts track t).length = size then pure [] else throw changedMeanwhile
  | .sameTuples cell size => do
    if (← meeting cell).tuples.length = size then pure [] else throw changedMeanwhile
  | .samePositions cell size => do
    if (← meeting cell).positions.length = size then pure [] else throw changedMeanwhile
  | .linkItem items v site => do pure (link (← ofFallible (itemAt items v)) site)
  | .linkArgument args i site =>
    match args[i]? with
    | some a => pure (link a site)
    | none => throw .outOfRange
  | .watchCall fn args site entered => do
    let cell := (← flow).arguments.size
    change fun f => { f with arguments := f.arguments.push args }
    pure [.listen fn (.call cell site entered)]
  | .bindTo target value =>
    match target with
    | .tuple .. => pure [.listen value (.bind target)]
    | target => pure (link value target)
  | .operate track op args site => operating track op args site
  | .typeRule ins out args site => do
    change fun f => (args.take ins.length).foldl (fun f a => f.touch .type a) f
    let f ← flow
    pure (if (ins.zip args).all fun (i, a) => (f.facts .type a).any fun y => y.same (typeFact i)
      then [.state site .type (typeFact out)] else [])

/-- The tasks after the end of the innermost visit to a global name, if there is one. -/
def afterGlobal : List Task → Option (List Task)
  | [] => none
  | .leaveGlobal :: rest => some rest
  | _ :: rest => afterGlobal rest

/-- Performs tasks until none is left, for at most so many steps. A missing key ends only the
innermost visit to a global name. -/
def performAll : Nat → List Task → Analysis Unit
  | _, [] => pure ()
  | 0, _ :: _ => throw .tooDeep
  | fuel + 1, task :: rest => do
    match ← attempt task.perform with
    | .ok more => performAll fuel (more ++ rest)
    | .error e =>
      match if e.kind = .key then afterGlobal rest else none with
      | some rest => performAll fuel rest
      | none => throw e

def patience : Nat := 1000000000

end Task

def visit (t : Term) : Analysis Unit := Task.performAll Task.patience [.visit t]

def propagate (t : Term) (track : Track) (x : Fact) : Analysis Unit := do
  if !(← flow).tracks.contains track then throw .missingKey
  Task.performAll Task.patience [.state t track x]

/-- An analysis with some tracks, in which nothing is known. Values are always followed. -/
def start (tracks : List Track) (always : List Fact) : Fallible Flow :=
  if tracks.contains .value then .ok { tracks := tracks.eraseDups, always }
  else .error .missingKey

end DiffLang.Dataflow
