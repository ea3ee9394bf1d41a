import DiffLang.Primitive

/-!
# The stack machine

A frame runs one function: code, a position in it, and a stack. A call makes a new frame, which is
run before the caller goes on; a frame that has run its last instruction is not kept, so that a
call in that place takes no room. There are two kinds of frames. A plain one starts with the
arguments on its stack. One with variables starts with the arguments bound, stores into variables,
and looks names up among them first.

An instruction that fails leaves the frame where it was, with what it has taken off the stack
gone.
-/

namespace DiffLang.Machine

abbrev Variables := List (Symbol × Value)

/-- The run of one function. -/
structure Frame where
  code : Array Step
  pc : Nat := 0
  stack : Array Value := #[]
  bindings : Option Variables := none
  home : Option Home
  lambda : Option TermId := none

variable (host : Host) (f : Frame)

namespace Frame

def done : Bool := f.pc ≥ f.code.size

def push (vs : List Value) : Frame := { f with stack := f.stack ++ vs.toArray }

/-- Where the top `n` values begin. A negative number leaves as many at the bottom. -/
def topFrom (n : Int) : Nat :=
  if n ≥ 0 then f.stack.size - n.toNat else min f.stack.size n.natAbs

def take (n : Int) : List Value × Frame :=
  if n = 0 then ([], f)
  else
    let k := f.topFrom n
    ((f.stack.toList.drop k), { f with stack := f.stack.take k })

def top : Fallible Value :=
  match f.stack.back? with
  | some v => .ok v
  | none => .error .outOfRange

def next : Frame := { f with pc := f.pc + 1 }

def back : Frame := { f with pc := f.pc - 1 }

end Frame

/-- What an instruction leads to: a frame to run first, or nothing. -/
abbrev Outcome := Fallible (Option Frame)

/-- A frame goes on with a value or a failure that it is given. -/
def Frame.given : Fallible Value → Frame × Outcome
  | .ok v => (f.push [v], .ok none)
  | .error e => (f, .error e)

/-! ## Variables -/

mutual

def storeInto (vars : Variables) : Term → Value → Variables × Fallible Unit
  | .tuple _ targets, v =>
    match v with
    | .tuple vs =>
      if targets.length = vs.length then storeAll vars targets vs else (vars, .error .broken)
    | _ => (vars, .error .broken)
  | .ident x, v => (Session.put (· == ·) x.sym v vars, .ok ())
  | t, _ => (vars, .error (.because .type s!"Cannot store into {t.text}."))

def storeAll (vars : Variables) : List Term → List Value → Variables × Fallible Unit
  | t :: ts, v :: vs =>
    match storeInto vars t v with
    | (vars, .ok ()) => storeAll vars ts vs
    | failed => failed
  | _, _ => (vars, .ok ())

end

/-- The failure of a frame without variables that is asked to store. -/
def storeNowhere : Term → Value → Failure
  | .tuple _ targets, .tuple vs =>
    if targets.length = vs.length then
      match targets, vs with
      | t :: _, v :: _ => storeNowhere t v
      | _, _ => .broken
    else .broken
  | .tuple .., _ => .broken
  | .ident _, _ => .missingAttribute
  | t, _ => .because .type s!"Cannot store into {t.text}."

/-! ## Names -/

def outside (key : Value) : Run Value :=
  match f.home with
  | some h => host.get h key
  | none => throw .missingKey

/-- A value as it is put on the stack: in a frame with variables, functions of the language are
compiled first. -/
def receive (v : Value) : Run Value :=
  match f.bindings, v with
  | some _, .lambda id => outside host f (.lambda id)
  | _, v => pure v

def spaceText : Namespace → String
  | .named t => t
  | .hidden _ => "<local>"

def fetch (key : Value) : Run Value := do
  match f.bindings with
  | none => outside host f key
  | some vars =>
    if !key.isHashable then throw .typeMismatch
    let own : Option Value := match key with
      | .symbol x => vars.lookup x
      | _ => none
    let found : Except Failure Value ← Run.attempt do
      match own with
      | some v => receive host f v
      | none => throw .missingKey
    match found with
    | .ok v => pure v
    | .error e =>
      if e.kind ≠ .key then throw e
      match ← Run.attempt (do receive host f (← outside host f key)) with
      | .ok v => pure v
      | .error e =>
        if e.kind ≠ .key then throw e
        match key with
        | .symbol x =>
          throw (.because .key s!"Could not resolve {x.text} ({spaceText x.space})")
        | _ => throw .missingAttribute

/-! ## Calls -/

/-- Whether something can be called that the machine does not run itself. -/
def isCallable : Value → Bool
  | .prim .. | .closure .. | .exported .. | .deferred .. | .direct .. | .function ..
  | .foreign _ | .atom _ => true
  | _ => false

/-- The frame of a call. Its own code decides whether it starts with variables. -/
def frameOf (s : Session) (f : Frame) (id : Nat) (args : List Value) : Option Frame :=
  (s.machineFunctions[id]?).map fun fn =>
    match f.bindings with
    | none =>
      { code := fn.code, stack := args.toArray, home := f.home, lambda := fn.lambda }
    | some _ =>
      { code := fn.code, stack := #[.none], home := f.home, lambda := fn.lambda
        bindings := some (fn.params.zip args) }

/-- What a call of anything but a partial application gives: a value, or a frame to run for it. -/
def call (fn : Value) (args : List Value) : Run (Value ⊕ Frame) := do
  match fn with
  | .machine id _ _ =>
    match frameOf (← get) f id args with
    | some new => pure (.inr new)
    | none => throw .broken
  | fn =>
    if isCallable fn then pure (.inl (← receive host f (← host.call fn args)))
    else throw (.because .exception s!"Cannot reduce with function: {fn.text}")

/-- What a call gives. The parts of a partial application are received as the stack receives them. -/
def invoke : Value → List Value → Run (Value ⊕ Frame)
  | .closure fn xs, args => do
    let g ← receive host f fn
    let vs ← (xs ++ args).mapM (receive host f)
    match fn with
    | .closure .. => invoke fn vs
    | _ => call host f g vs
  | fn, args => call host f fn args

/-- Calls a function that lies below its arguments on the stack. -/
def reduce (count : Int) : Run (Frame × Outcome) := do
  match f.take (count + 1) with
  | ([], f) => pure (f, .error .badValue)
  | (fn :: args, f) =>
    match ← Run.attempt (invoke host f fn args) with
    | .ok (.inl v) => pure (f.push [v], .ok none)
    | .ok (.inr new) => pure (f, .ok (some new))
    | .error e => pure (f, .error e)

/-! ## Instructions -/

def commands : List String := ["push", "fetch", "reduce", "closure", "store"]

def execute : Instruction → Run (Frame × Outcome)
  | .push v => do pure (f.given (← Run.attempt (receive host f v)))
  | .fetch key => do pure (f.given (← Run.attempt (fetch host f key)))
  | .dup i =>
    match f.bindings with
    | some _ => pure (f.next, .error .missingAttribute)
    | none => pure (f.given ((Value.place f.stack.size i).map fun k => f.stack.getD k .none))
  | .reduce count => reduce host f count
  | .closure =>
    match f.take 2 with
    | ([fn, args], f) => pure (f.given (args.walk.map (.closure fn)))
    | (_, f) => pure (f, .error .badValue)
  | .store target =>
    match f.stack.back? with
    | none => pure (f, .error .outOfRange)
    | some v =>
      let f := { f with stack := f.stack.pop }
      match f.bindings with
      | none => pure (f, .error (storeNowhere target v))
      | some vars =>
        match storeInto vars target v with
        | (vars, .ok ()) => pure ({ f with bindings := some vars }, .ok none)
        | (vars, .error e) => pure ({ f with bindings := some vars }, .error e)
  | .other command _ =>
    -- a command with the wrong arguments fails as it is run, an unknown one before that
    if commands.contains command || (command = "dup" && f.bindings.isNone) then
      pure (f, .error .typeMismatch)
    else pure (f.next, .error .missingAttribute)
  | _ => pure (f.next, .error .missingAttribute)

/-- Runs the next instruction. A failed instruction is the next one again. -/
def advance : Run (Frame × Outcome) := do
  match f.code[f.pc]? with
  | none => pure (f, .error (.plain .stop))
  | some step =>
    let (f, outcome) ← execute host f.next step.op
    match outcome with
    | .ok r => pure (f, .ok r)
    | .error e => pure (f.back, .error e)

/-! ## Runs -/

/-- A machine: the running frame, and those that wait for it, the latest first. -/
structure State where
  frame : Frame
  waiting : List Frame := []

inductive Progress where
  | running (s : State)
  | finished (s : State) (v : Value)
  | failed (s : State) (f : Failure)

def finish (s : State) : Progress :=
  match s.frame.top with
  | .error e => .failed s e
  | .ok v =>
    match s.waiting with
    | [] => .finished s v
    | f :: rest => .running ⟨f.push [v], rest⟩

def step (s : State) : Run Progress := do
  let (frame, outcome) ← advance host s.frame
  let s := { s with frame }
  match outcome with
  | .ok none => pure (.running s)
  | .ok (some new) =>
    pure (.running ⟨new, if frame.done then s.waiting else frame :: s.waiting⟩)
  | .error e => if e.kind = .stop then pure (finish s) else pure (.failed s e)

def run : Nat → State → Run Value
  | 0, _ => throw .tooDeep
  | fuel + 1, s => do
    match ← step host s with
    | .running s => run fuel s
    | .finished _ v => pure v
    | .failed _ e => throw e

def patience : Nat := 1000000000

end DiffLang.Machine
