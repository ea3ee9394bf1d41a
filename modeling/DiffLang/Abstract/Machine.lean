import DiffLang.Abstract.Primitive
import DiffLang.Dataflow.Propagation
import DiffLang.Library

/-!
# The abstract machine

Runs code with variables on abstract values. Where a value may be one of several, the machine goes
on with the first and leaves a checkpoint for the others. What a function gives for some arguments
is remembered: a second call with the same arguments is not run again, but goes on with what is
known, and once more with every result that is found later. A call that asks for itself ends its
path until there is a result.

An operation computes those properties of its result that are needed: each is computed by an
operation of its own, and they are put together into one abstract value.
-/

namespace DiffLang.Abstract

/-- Whether two values are the same, with parts that have no equality of their own compared part by
part. -/
def alikeWithin : Nat → Value → Value → Bool
  | 0, _, _ => false
  | fuel + 1, a, b =>
    let all (xs ys : List Value) : Bool :=
      xs.length = ys.length && (xs.zip ys).all fun (x, y) => alikeWithin fuel x y
    match a, b with
    | .tuple xs, .tuple ys => all xs ys
    | .closure f xs, .closure g ys => alikeWithin fuel f g && all xs ys
    | .exception k xs, .exception l ys => k = l && all xs ys
    | .record t xs, .record u ys =>
      t = u && all (xs.map (·.1)) (ys.map (·.1)) && all (xs.map (·.2)) (ys.map (·.2))
    | .abstract xs _, .abstract ys _ =>
      xs.length = ys.length && xs.all fun (k, x) =>
        match part? ys k with
        | some y => alikeWithin fuel x y
        | none => false
    | a, b => a.agrees b

def alike (a b : Value) : Bool := alikeWithin nesting a b

namespace Machine

open DiffLang.Machine (Variables)

/-! ## States -/

/-- What lies on a stack: a value, or whatever a remembered call gives. -/
inductive Item where
  | value (v : Value)
  | results (memo : Nat)

/-- The run of one function. -/
structure Frame where
  code : Array Step
  pc : Nat := 0
  stack : Array Item := #[.value .none]
  bindings : Variables
  home : Option Home
  memo : Option Nat := none
deriving Inhabited

/-- A moment of a run: the running frame, and those that wait for it, the latest first. -/
structure Moment where
  frame : Frame
  waiting : List Frame := []
deriving Inhabited

/-- A call with what it gives, and the moments that wait for more of it. -/
structure Memo where
  fn : Value
  args : List Value
  results : List Value := []
  waiting : List Moment := []

inductive Checkpoint where
  /-- Go on from a moment with each of some groups of values on the stack. `noted` tells whether
  their properties are noted. -/
  | choices (moment : Moment) (paths : List (List Value)) (noted : Bool)
  /-- The groups after the first one have lost the mark that tells how to go on with them. -/
  | leftover
deriving Inhabited

structure State where
  now : Moment
  /-- What is left to explore, the latest first. -/
  checkpoints : List Checkpoint := []
  memos : Array Memo := #[]

abbrev Exec := StateT State Run

structure Setting where
  host : Host
  needs : Term → List Value

inductive Next where
  | go
  | enter (f : Frame)
  | escape

/-! ## The stack -/

def frame : Exec Frame := do pure (← get).now.frame

def changeFrame (g : Frame → Frame) : Exec Unit :=
  modify fun s => { s with now := { s.now with frame := g s.now.frame } }

def inSession {α : Type} (act : Run α) : Exec α := StateT.lift act

def expand (s : State) : Item → List Value
  | .value (.fork ps) => ps
  | .value v => [v]
  | .results m => ((s.memos[m]?).map Memo.results).getD []

def Item.isFork : Item → Bool
  | .value (.fork _) | .results _ => true
  | _ => false

/-- All ways to take one value of each list, the last list varying first. -/
def combinations : List (List Value) → List (List Value)
  | [] => [[]]
  | vs :: rest => vs.flatMap fun v => (combinations rest).map (v :: ·)

def isNotable (v : Value) : Bool :=
  match v with
  | .abstract parts _ => parts.all fun (k, w) => k.agrees Value.valueKey || w.isHashable
  | _ => true

def checkpoint (paths : List (List Value)) (back : Nat) : Exec Unit :=
  modify fun s =>
    let f := s.now.frame
    let moment := { s.now with frame := { f with pc := f.pc - back } }
    { s with checkpoints := .choices moment paths false :: s.checkpoints }

/-- Takes values off the stack. If they may be several, the others are left for later, from before
the instruction that takes them. -/
def take (n : Nat) : Exec (List Value) := do
  let s ← get
  let stack := s.now.frame.stack
  let k := stack.size - n
  changeFrame fun f => { f with stack := stack.take k }
  match combinations ((stack.toList.drop k).map (expand s)) with
  | [] => throw .outOfRange
  | first :: rest =>
    if !rest.isEmpty then checkpoint rest 1
    pure first

variable (c : Setting)

def receive (v : Value) : Exec Value := do
  match v with
  | .lambda id =>
    match (← frame).home with
    | some h => inSession (c.host.get h (.lambda id))
    | none => throw .missingKey
  | v => pure v

/-- Puts a value on the stack without noting its properties. -/
def pushQuietly (v : Value) : Exec Unit := do
  let v ← receive c v
  changeFrame fun f => { f with stack := f.stack.push (.value v) }

def push (v : Value) : Exec Unit := do
  pushQuietly c v
  let paths := match v with
    | .fork ps => ps
    | v => [v]
  if !paths.all isNotable then throw .typeMismatch

/-- Puts values on the stack. `noted` tells whether their properties are noted. -/
def putAll (noted : Bool) : List Value → Exec Unit
  | [] => pure ()
  | v :: vs => do
    if noted then push c v else pushQuietly c v
    putAll noted vs

def pushResults (m : Nat) : Exec Unit := do
  let s ← get
  changeFrame fun f => { f with stack := f.stack.push (.results m) }
  if !(expand s (.results m)).all isNotable then throw .typeMismatch

/-! ## Instructions -/

def findProjector (s : Session) (key fn : Value) : Fallible Value :=
  if key.agrees Value.valueKey then .ok fn
  else
    let missing : Failure :=
      .because .exception s!"Missing prim projector \"{key.text}\" for {fn.text}."
    match fn with
    | .prim bank op _ =>
      match bank, key, op with
      | .abstract, .symbol property, .plain name .. =>
        match projector? property.text name with
        | some (.primitive label) => .ok (.prim (.projector property label) op none)
        | some (.function f) =>
          match Library.function? s Prelude.shapesUrl f with
          | some v => .ok v
          | none => .error missing
        | none => .error missing
      | _, _, _ => .error missing
    | .direct .. => .ok fn
    | fn => .error (.because .exception s!"Cannot project \"{key.text}\" with {fn.text}.")

def calledTerm : Focus → Focus
  | .term (.apply _ fn _) => .term fn
  | .term (.closure _ fn _) => .term fn
  | .term (.tuple ..) => .term (.ident ⟨0, .builtin "mktuple"⟩)
  | _ => .nothing

def propertyFrame (s : Session) (limit : Nat) (home : Option Home) (node : Focus) (fn : Value)
    (args keys : List Value) : Fallible Frame := do
  let args ← args.mapM (wrap limit)
  let steps ← keys.mapM fun key => do
    let p ← findProjector s key fn
    pure ({ op := .push p, focus := calledTerm node } ::
      args.map (fun a => { op := .push a }) ++
      [{ op := .reduceOnly args.length, focus := node }])
  let code := steps.flatten ++ [{ op := .assemble keys, focus := node }]
  pure { code := code.toArray, bindings := [], home }

def callPrimitive (fn : Value) (args : List Value) : Run Value :=
  match fn with
  | .prim .abstract (.plain name ..) _ => call name args
  | .prim (.projector property _) (.plain name ..) _ => project property.text name args
  | _ => throw .typeMismatch

def keyOf : Value → Value
  | .prim (.projector _ label) _ _ => .str label
  | .prim _ op _ => .symbol op
  | _ => .none

/-- Calls a function of the language, unless the call is remembered. -/
def callFunction (fn : Value) (id : Nat) (args : List Value) : Exec Next := do
  if !Value.allHashable args then throw .typeMismatch
  let s ← get
  let same (m : Memo) : Bool :=
    m.fn.agrees fn && m.args.length = args.length &&
      (m.args.zip args).all fun (a, b) => alike a b
  match s.memos.findIdx? same with
  | none =>
    let session ← inSession MonadState.get
    match session.directFunctions[id]? with
    | none => throw .broken
    | some d =>
      let l ← inSession (Session.getLambda d.lambda)
      modify fun s => { s with memos := s.memos.push { fn, args } }
      pure (.enter {
        code := d.code
        bindings := (l.params.map Ident.sym).zip args
        home := some (.environment d.home)
        memo := some s.memos.size })
  | some m =>
    modify fun s => { s with
      memos := s.memos.modify m fun e => { e with waiting := e.waiting ++ [s.now] } }
    if (expand s (.results m)).isEmpty then pure .escape
    else
      pushResults m
      pure .go

def callOperation (node : Focus) (fn : Value) (args : List Value) (all : Bool) :
    Exec Next := do
  match match args with
    | [a] => property? a (keyOf fn)
    | _ => none with
  | some v =>
    push c v
    pure .go
  | none =>
    let keys := match node with
      | .term t => if all then c.needs t else []
      | _ => []
    if keys.all fun k => k.agrees Value.valueKey then
      let r ← inSession (Run.attempt (callPrimitive fn args))
      match r with
      | .ok v => push c v
      | .error e => if e.kind = .wrapped then push c (ofError e.toValue) else throw e
      pure .go
    else
      let session ← inSession MonadState.get
      let f ← inSession (Run.lift
        (propertyFrame session session.abstractDepth (← frame).home node fn args keys))
      pure (.enter f)

/-- Applies a function that lies below its arguments on the stack. A partial application is put
back in parts; `fuel` bounds how often. `all` tells whether all that is needed is computed. -/
def reduce (node : Focus) : Nat → Nat → Bool → Exec Next
  | 0, _, _ => throw .tooDeep
  | fuel + 1, count, all => do
    match ← take (count + 1) with
    | [] => throw .badValue
    | fn :: args =>
      match unwrap fn with
      | .direct id lambda ref => callFunction (.direct id lambda ref) id args
      | .closure g xs =>
        putAll c false (g :: xs ++ args)
        reduce node fuel (count + xs.length) true
      | .prim b op home => callOperation c node (.prim b op home) args all
      | .any =>
        push c .any
        pure .go
      | fn => throw (.because .type s!"Cannot reduce on {fn.text}.")

mutual

def spread (vars : Variables) (v : Value) : Term → Fallible Variables
  | .tuple _ targets => spreadAll vars v targets
  | .ident x => .ok (Session.put (· == ·) x.sym v vars)
  | t => .error (.because .type s!"Cannot store into {t.text}.")

def spreadAll (vars : Variables) (v : Value) : List Term → Fallible Variables
  | [] => .ok vars
  | t :: ts => do spreadAll (← spread vars v t) v ts

end

/-- Stores a value into a pattern of variables. An error goes to all of them. -/
def store (vars : Variables) (target : Term) (v : Value) : Fallible Variables :=
  let plain (v : Value) : Fallible Variables :=
    match DiffLang.Machine.storeInto vars target v with
    | (vars, .ok ()) => .ok vars
    | (_, .error e) => .error e
  match target, v with
  | .tuple .., .abstract parts _ =>
    match part? parts Value.errorKey, part? parts Value.valueKey with
    | some e, _ => spread vars e target
    | none, some w => plain w
    | none, none => spread vars (ofError (.wrapped (.str "No VALUE."))) target
  | _, v => plain v

def execute (i : Step) : Exec Next := do
  match i.op with
  | .push v =>
    push c v
    pure .go
  | .fetch key =>
    let f ← frame
    let v ← inSession (DiffLang.Machine.fetch c.host
      { code := #[], bindings := some f.bindings, home := f.home } key)
    push c v
    pure .go
  | .closure =>
    match ← take 2 with
    | [fn, args] =>
      let xs ← inSession (Run.lift (unwrap args).walk)
      changeFrame fun f => { f with stack := f.stack.push (.value (.closure (unwrap fn) xs)) }
      pure .go
    | _ => throw .badValue
  | .store target =>
    match ← take 1 with
    | [v] =>
      let vars ← inSession (Run.lift (store (← frame).bindings target v))
      changeFrame fun f => { f with bindings := vars }
      pure .go
    | _ => throw .outOfRange
  | .assemble keys =>
    let vs ← take keys.length
    push c (← inSession (Run.lift (ofParts (keys.zip vs))))
    pure .go
  | .reduce n => reduce c i.focus nesting n.toNat true
  | .reduceOnly n => reduce c i.focus nesting n.toNat false
  | _ => throw .missingAttribute

/-! ## Runs -/

inductive Progress where
  | running
  | finished (v : Value)
  | ended

/-- Remembers a result, and leaves a checkpoint for every moment that waits for it. -/
def remember (m : Nat) (v : Value) : Exec Unit := do
  if !v.isHashable then throw .typeMismatch
  let s ← get
  match s.memos[m]? with
  | none => pure ()
  | some e =>
    if e.results.any (alike v) then pure ()
    else
      let memos := s.memos.modify m fun e => { e with results := e.results ++ [v] }
      let more := e.waiting.reverse.map fun w => Checkpoint.choices w [[v]] true
      set { s with memos, checkpoints := more ++ s.checkpoints }

def finishFork (item : Item) : Exec Progress := do
  let s ← get
  let _ ← take 1
  checkpoint ((expand s item).map fun v => [v]) 0
  pure .ended

def finishValue (v : Value) : Exec Progress := do
  let s ← get
  match s.now.frame.memo with
  | some m => remember m v
  | none => pure ()
  match s.now.waiting with
  | [] => pure (.finished v)
  | f :: rest =>
    modify fun s => { s with now := ⟨f, rest⟩ }
    push c v
    pure .running

/-- The running frame has run its last instruction. -/
def finish : Exec Progress := do
  let s ← get
  match s.now.frame.stack.back? with
  | none => throw .outOfRange
  | some item =>
    if item.isFork then finishFork item else finishValue c ((expand s item).headD .none)

def step : Exec Progress := do
  let f ← frame
  match f.code[f.pc]? with
  | none => finish c
  | some i =>
    changeFrame fun f => { f with pc := f.pc + 1 }
    match ← execute c i with
    | .go => pure .running
    | .escape => pure .ended
    | .enter new =>
      modify fun s => { s with now := ⟨new, s.now.frame :: s.now.waiting⟩ }
      pure .running

def resume : Exec Bool := do
  let s ← get
  match s.checkpoints with
  | [] => pure false
  | .leftover :: _ => throw .badValue
  | .choices moment paths noted :: rest =>
    match paths with
    | [] => throw .badValue
    | p :: more =>
      set { s with now := moment, checkpoints := rest }
      putAll c noted p
      if !more.isEmpty then
        modify fun s => { s with checkpoints := .leftover :: s.checkpoints }
      pure true

/-- Adds what a step gives to the results so far. A path that gives no value at all has no result. -/
def Progress.addTo (found : List Value) : Progress → List Value
  | .finished .none => found
  | .finished v => found ++ [v]
  | _ => found

/-- Explores all paths for at most so many steps, and returns their results in order. -/
def explore : Nat → List Value → Exec (List Value)
  | 0, _ => throw .tooDeep
  | fuel + 1, found => do
    match ← step c with
    | .running => explore fuel found
    | p => if ← resume c then explore fuel (p.addTo found) else pure (p.addTo found)

def patience : Nat := 1000000000

def run (f : Frame) : Run (List Value) := do
  let (vs, _) ← (explore c patience []).run { now := { frame := f } }
  pure vs

end Machine

end DiffLang.Abstract
