import DiffLang.Failure

/-!
# Events

A dispatcher has named events, and handlers that are called when one of them happens. Two events
are always there: `NEW` happens when a name is used for the first time, and `ALL` handles every
other event. An event can itself be a handler, so that one event follows another. New dispatchers
announce themselves, which lets handlers find events of dispatchers that come later.
-/

namespace DiffLang.Event

abbrev EventId := Nat

/-- What is called when an event happens. -/
inductive Handler where
  | listener (name : String)
  | event (id : EventId)

inductive Argument where
  | value (v : Value)
  | event (id : EventId)

structure Entry where
  name : String
  handlers : List Handler := []
deriving Inhabited

structure Dispatcher where
  owner : Option String := none
  events : List (String × EventId) := []
deriving Inhabited

/-- A call of a listener, with the names of the arguments that were given by name. -/
structure Call where
  listener : String
  args : List Argument
  names : List String

/-- All events and dispatchers, the calls made so far, and who wants to know of events of new
dispatchers. -/
structure World where
  entries : Array Entry := #[]
  dispatchers : Array Dispatcher := #[]
  discoveries : List (String × String) := []
  calls : List Call := []

abbrev Events := StateT World Fallible

def World.entry (w : World) (e : EventId) : Entry := w.entries.getD e default

def World.nameOf (w : World) (e : EventId) : String := (w.entry e).name

def World.textOf (w : World) (e : EventId) : String := s!"Event({w.nameOf e})"

def newEvent (name : String) : Events EventId :=
  modifyGet fun w => (w.entries.size, { w with entries := w.entries.push { name } })

def register (e : EventId) (h : Handler) : Events Unit :=
  modify fun w => { w with entries := w.entries.modify e fun x =>
    { x with handlers := x.handlers ++ [h] } }

/-- Makes an event happen. If it is given anything, it is itself the first argument, unless there
is an event in that place already. -/
def trigger : Nat → EventId → List Argument → List String → Events Unit
  | 0, _, _, _ => throw .tooDeep
  | fuel + 1, e, args, names => do
    let args := match args with
      | [] | .event _ :: _ => args
      | _ => .event e :: args
    for h in ((← get).entry e).handlers do
      match h with
      | .listener name =>
        modify fun w => { w with calls := w.calls ++ [{ listener := name, args, names }] }
      | .event f => trigger fuel f args names

def patience : Nat := 1000

/-- The event of a name. A new one is announced, and handled like all others. -/
def eventOf (d : Nat) (name : String) : Events EventId := do
  let w ← get
  let own := (w.dispatchers.getD d default).events
  match own.lookup name with
  | some e => pure e
  | none =>
    let e ← newEvent name
    modify fun w => { w with dispatchers := w.dispatchers.modify d fun x =>
      { x with events := x.events ++ [(name, e)] } }
    if let some new := own.lookup "NEW" then
      trigger patience new [.value (.str name), .event e] []
    if let some all := own.lookup "ALL" then register e (.event all)
    pure e

def on (d : Nat) (name : String) (handlers : List Handler) : Events Unit := do
  let e ← eventOf d name
  handlers.forM (register e)

def emit (d : Nat) (name : String) (args : List Argument) (names : List String := []) :
    Events Unit := do
  trigger patience (← eventOf d name) args names

/-- Makes the second event happen whenever the first does. -/
def chain (d : Nat) (first second : String) : Events Unit := do
  let e ← eventOf d first
  let f ← eventOf d second
  register e (.event f)

/-- What a dispatcher answers to a name: its events are known by two names each. -/
def member (d : Nat) (name : String) : Events String := do
  if name.startsWith "on_" then
    let e ← eventOf d (name.drop 3).toString
    pure s!"<bound method Event.register of {(← get).textOf e}>"
  else if name.startsWith "emit_" then
    let e ← eventOf d (name.drop 5).toString
    pure ((← get).textOf e)
  else if name = "owner" then
    pure (((← get).dispatchers.getD d default).owner.getD "None")
  else throw (.because .attribute name)

/-- Adds a dispatcher. Unless it has an owner, it announces itself. -/
def newDispatcher (owner : Option String) : Events Nat := do
  let new ← newEvent "NEW"
  let all ← newEvent "ALL"
  let own : Dispatcher := { owner, events := [("NEW", new), ("ALL", all)] }
  let d ← modifyGet fun w =>
    (w.dispatchers.size, { w with dispatchers := w.dispatchers.push own })
  if owner.isNone then
    for (name, listener) in (← get).discoveries do
      on d name [.listener listener]
  pure d

/-- Makes a listener handle an event of all dispatchers that come later. Without a name, the event
is read off the name of the function, which has to start with `on_`. -/
def discover (function listener : String) (name : Option String) : Events Unit := do
  let own := if function.startsWith "on_" then some (function.drop 3).toString else none
  match name.or own with
  | some n => modify fun w => { w with discoveries := w.discoveries ++ [(n, listener)] }
  | none => throw .broken

end DiffLang.Event
