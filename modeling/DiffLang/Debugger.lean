import DiffLang.Debugger.Commands
import DiffLang.Html
import DiffLang.Machine
import DiffLang.Text.Blank

/-!
# The debugger

The debugger runs a machine step by step. It stops before an application if it has been told to
stop at the next one, or at the next one of a frame, and then asks for commands until one lets the
machine go on. A breakpoint on top of the stack makes it stop at the next application. What it has
to say goes to two panes: one for the conversation and one for the frames. Everything that was said
before a failure stays said.
-/

namespace DiffLang.Debugger

/-- Something that the debugger shows. Machines are shown among the frames, all else in the
conversation. -/
inductive Entry where
  | html (text : String)
  | markdown (text : String) (gutter : Option String)
  | line (text : String) (gutter : String)
  | failure (f : Failure) (gutter : String)
  | values (found : List (Value × Value)) (gutter : String)
  | value (v : Value)
  | help
  | machine (s : Machine.State)

inductive Stop where
  | next
  | inFrame (number : Nat)
  | never
deriving DecidableEq

/-! ## Frames with numbers -/

/-- A machine whose frames have numbers, so that a frame can be recognized later. -/
structure Tracked where
  state : Machine.State
  current : Nat := 0
  /-- The numbers of the waiting frames, the latest first. -/
  waiting : List Nat := []
  fresh : Nat := 1

/-- The numbers of the frames after a step. A frame that has not run an instruction yet is new; it
takes the place of the one that called it unless that one waits. -/
def Tracked.follow (t : Tracked) (s : Machine.State) : Tracked :=
  if s.frame.pc = 0 then
    let waiting := if s.waiting.length > t.waiting.length then t.current :: t.waiting
      else t.waiting
    { state := s, current := t.fresh, waiting, fresh := t.fresh + 1 }
  else if s.waiting.length < t.waiting.length then
    { t with state := s, current := t.waiting.headD 0, waiting := t.waiting.tail }
  else { t with state := s }

/-! ## Conversations -/

/-- The debugger between two steps: where it stops, the commands still to come, and what it has
shown, the latest first. -/
structure Controller (α : Type) where
  stop : Stop
  input : List String
  shown : List α := []

abbrev Debugging (α : Type) := ExceptT Failure (StateT (Controller α) Run)

variable {α : Type}

def perform {β : Type} (act : Run β) : Debugging α β := do
  match ← (Run.attempt act : Run (Except Failure β)) with
  | .ok b => pure b
  | .error f => throw f

variable (present : Entry → Run α)

def say (e : Entry) : Debugging α Unit := do
  let a ← perform (present e)
  modify fun c => { c with shown := a :: c.shown }

def stopAt (s : Stop) : Debugging α Unit := modify fun c => { c with stop := s }

/-- A command as it is typed: its name, and all that follows it. The name is the first run of word
characters or of other characters. -/
def split (typed : String) : String × String :=
  let cs := Blank.trimChars typed.toList
  let cs := if cs.isEmpty then [' '] else cs
  let word := Blank.inWord (cs.headD ' ')
  let inName (c : Char) : Bool := Blank.inWord c = word
  (Blank.trim (String.ofList (cs.takeWhile inName)), String.ofList (cs.dropWhile inName))

/-- The top `n` values of a stack, the topmost first. Zero stands for all of them, and a negative
number leaves out as many at the bottom. -/
def topmost (stack : List Value) (n : Int) : List Value :=
  let below := if n > 0 then stack.length - n.toNat else n.natAbs
  (stack.drop below).reverse

def help : List (String × String) :=
  [("step", "\n        Step into the next instruction.\n        "),
   ("next", "\n        Execute the next instruction and stop.\n        "),
   ("continue", "\n        Continue until the next breakpoint or to the end.\n        "),
   ("up", "TODO"),
   ("down", "TODO"),
   ("var", "\n        `v <var1> <var2> ...`, print out the value of each named\n" ++
     "        variable. All versions of the variable will be shown.\n        "),
   ("top", "\n        `top [n]`, inspect the n topmost elements of the stack.\n        "),
   ("help", "\n        List available commands.\n        ")]

def helpTable : Html :=
  let row (cell : String) (a b : String) : Html :=
    .tag "tr" [.tag cell [.text a], .tag cell [.text b]]
  .tag "table" (row "th" "Command" "Description" :: help.map fun (name, does) => row "td" name does)

def obey (t : Tracked) (name arg : String) : Debugging α Bool := do
  match name with
  | "step" => stopAt .next
  | "next" => stopAt (.inFrame t.current)
  | "continue" => stopAt .never
  | "up" => say present (.line "TODO: UP FRAME" "error")
  | "down" => say present (.line "TODO: DOWN FRAME" "error")
  | "top" =>
    let n ← if (Blank.trim arg).isEmpty then pure 1 else
      match Blank.wholeNumber? arg with
      | some n => pure n
      | none => throw .badValue
    if n = 1 then say present (.value (← perform (Run.lift t.state.frame.top)))
    else say present (.value (.list (topmost t.state.frame.stack.toList n)))
  | "var" =>
    -- frames do not list the names that can be evaluated in them
    if !(Blank.trim arg).isEmpty then throw .missingAttribute
    say present (.values [] "result")
  | _ => say present .help
  pure (["step", "next", "continue"].contains name)

def converse (commands : Commands) (t : Tracked) : List String → Debugging α Unit
  | [] => throw (.plain .endOfInput)
  | typed :: rest => do
    let (name, arg) := split typed
    match commands.lookup name with
    | none =>
      say present (.line typed "echo")
      say present (.line s!"Unknown command: {name}" "error")
      converse commands t rest
    | some c =>
      say present (.line (if typed.isEmpty then c.name else typed) "echo")
      if ← obey present t c.name arg then modify fun c => { c with input := rest }
      else converse commands t rest

def inspect (commands : Commands) (t : Tracked) : Debugging α Unit := do
  say present (.machine t.state)
  converse present commands t (← get).input

/-! ## Running -/

def isIgnored : Value → Bool
  | .prim _ op _ => op = Symbol.builtin "switch" || op = Symbol.builtin "mktuple"
  | _ => false

def application? (f : Machine.Frame) : Option (Option Value) :=
  match f.code[f.pc]? with
  | some ⟨.reduce n, _⟩ => some (f.stack.toList.reverse[n.toNat]?)
  | _ => none

/-- Stops before an instruction if it is time to. -/
def check (commands : Commands) (t : Tracked) : Debugging α Unit := do
  match ← perform (Run.lift t.state.frame.top) with
  | .thing "Breakpoint" => stopAt .next
  | _ => pure ()
  match application? t.state.frame with
  | none => pure ()
  | some none => throw .outOfRange
  | some (some fn) =>
    let stop := (← get).stop
    if !isIgnored fn && (stop = .next || stop = .inFrame t.current) then
      inspect present commands t

/-- Runs a machine under the debugger, for at most so many steps. After a failure there is one more
conversation, but no result. -/
def run (host : Host) (present : Entry → Run α) (commands : Commands) :
    Nat → Tracked → Debugging α Value
  | 0, _ => throw .tooDeep
  | fuel + 1, t => do
    check present commands t
    match ← perform (Machine.step host t.state) with
    | .running s => run host present commands fuel (t.follow s)
    | .finished _ v => pure v
    | .failed s f =>
      if s.frame.done then throw f
      say present (.line "An error occurred!" "error")
      say present (.failure f "error")
      inspect present commands { t with state := s }
      throw .missingAttribute

def debug (host : Host) (present : Entry → Run α) (frame : Machine.Frame) (stop : Bool)
    (input : List String) : Run (List α × Except Failure Value) := do
  let work : Debugging α Value := do
    let commands ← perform (Run.lift (Commands.ofSpecs specs))
    say present (.html "<h3>Debug session start</h3>")
    say present (.markdown "Type `help` for a list of available commands." none)
    run host present commands Machine.patience { state := { frame } }
  let (outcome, c) ← work.run.run { stop := if stop then .next else .never, input }
  pure (c.shown.reverse, outcome)

end DiffLang.Debugger
