/-!
# Command lines

The arguments of a command line: a command, options with or without an argument, and a file. Long
options may be cut short as long as it is clear which one is meant, short options may be written
together, and the argument of an option may follow it directly or after an equals sign. After two
dashes nothing is an option any more.
-/

namespace DiffLang.CommandLine

/-! ## Options and commands -/

/-- An option: how it is spelled, the name of its argument if it takes one, and what it is for. -/
structure Choice where
  spellings : List String
  argument : Option String := none
  help : String
deriving DecidableEq

def Choice.key (c : Choice) : String := c.spellings.headD ""

/-- A command: its name, what it is for, what it does with a file, and its options. -/
structure Command where
  name : String
  help : String
  file : String
  options : List Choice

def helpChoice : Choice :=
  { spellings := ["-h", "--help"], help := "show this help message and exit" }

def expressionChoice (verb : String) : Choice :=
  { spellings := ["--expr", "-e"], argument := "EXPR", help := s!"The expression to {verb}." }

def argumentsChoice : Choice :=
  { spellings := ["--args"], argument := "ARGS", help := "Arguments to provide to the function." }

def formatChoice : Choice :=
  { spellings := ["--format", "-f"], argument := "FORMAT"
    help := "Format to print out (text (default) or html)" }

def commands : List Command :=
  [{ name := "parse", help := "Parse an expression and print its representation"
     file := "The file to parse."
     options := [helpChoice, expressionChoice "parse",
       { spellings := ["-a"], help := "Convert to a-normal form." }, formatChoice] },
   { name := "eval", help := "Evaluate an expression", file := "The file to evaluate."
     options := [helpChoice, expressionChoice "evaluate", argumentsChoice, formatChoice] },
   { name := "inspect", help := "Inspect/evaluate an expression", file := "The file to evaluate."
     options := [helpChoice, expressionChoice "evaluate", argumentsChoice,
       { spellings := ["--mode"], argument := "MODE", help := "One of: eval" },
       { spellings := ["--stores"], help := "Log the values taken by each variable." },
       { spellings := ["--decls"], help := "Log the AST for all functions." },
       { spellings := ["--all"], help := "Log everything that can be logged." },
       { spellings := ["--check"], argument := "PROBLEMS"
         help := "One or more of: unbound,source." }] },
   { name := "debug", help := "debug/evaluate an expression", file := "The file to evaluate."
     options := [helpChoice, expressionChoice "evaluate", argumentsChoice] }]

/-! ## What an argument is -/

/-- What an argument is to a list of options. -/
inductive Word where
  | free (text : String)
  /-- An option, as it is spelled, with the argument that is written together with it. -/
  | option (c : Choice) (spelling : String) (joined : Option String)
  | unknown
  | ambiguous

variable (options : List Choice)

def find? (spelling : String) : Option Choice :=
  options.find? fun c => c.spellings.contains spelling

def isNegativeNumber (s : String) : Bool :=
  match s.toList with
  | '-' :: rest =>
    let whole := rest.takeWhile Char.isDigit
    match rest.dropWhile Char.isDigit with
    | [] => !whole.isEmpty
    | '.' :: places => !places.isEmpty && places.all Char.isDigit
    | _ => false
  | _ => false

/-- A text up to the first equals sign, and what follows it. -/
def splitAtEquals (s : String) : Option (String × String) :=
  match s.splitOn "=" with
  | first :: second :: rest => some (first, "=".intercalate (second :: rest))
  | _ => none

/-- The options that a text could mean, when it is not one as it stands: those that start with it,
or for one dash also the one whose argument follows directly. -/
def candidates (s : String) : List (Choice × String × Option String) :=
  let spelled := options.flatMap fun c => c.spellings.map fun x => (c, x)
  if s.startsWith "--" then
    let (start, joined) := match splitAtEquals s with
      | some (k, v) => (k, some v)
      | none => (s, none)
    (spelled.filter fun (_, x) => x.startsWith start).map fun (c, x) => (c, x, joined)
  else
    let short := (s.take 2).toString
    spelled.filterMap fun (c, x) =>
      if x = short then some (c, x, some (s.drop 2).toString)
      else if x.startsWith s then some (c, x, none)
      else none

def classify (s : String) : Word :=
  if !s.startsWith "-" || s.length = 1 then .free s
  else match find? options s with
    | some c => .option c s none
    | none =>
      let joined := (splitAtEquals s).bind fun (k, v) => (find? options k).map fun c => (c, k, v)
      match joined with
      | some (c, k, v) => .option c k (some v)
      | none =>
        match candidates options s with
        | [(c, k, v)] => .option c k v
        | _ :: _ => .ambiguous
        | [] => if isNegativeNumber s || s.contains ' ' then .free s else .unknown

/-- What all arguments are. Two dashes are left out, and what follows them is free. -/
def classifyAll : List String → List Word
  | [] => []
  | "--" :: rest => rest.map .free
  | s :: rest => classify options s :: classifyAll rest

/-! ## Reading -/

structure Arguments where
  file : Option String := none
  /-- The options that were given, by the name they are known by. An option without an argument has
  an empty one. -/
  given : List (String × String) := []
  /-- Whether something was given that the command does not know. -/
  surplus : Bool := false

def Arguments.option? (a : Arguments) (key : String) : Option String := a.given.lookup key

def Arguments.nonempty? (a : Arguments) (key : String) : Option String :=
  (a.option? key).filter fun s => !s.isEmpty

inductive Outcome where
  | help (c : Option Command)
  | refused (c : Option Command)
  | run (c : Command) (a : Arguments)

/-- The options that are written together behind one dash, with their arguments. All but the last
take none; the last may take the one that follows in the same word, and else none is given here.
What cannot be read gives nothing. -/
def joinedOptions : Nat → Choice → String → List Char →
    Option (List (Choice × Option String))
  | fuel, c, spelling, joined =>
    match c.argument, joined with
    | some _, joined => some [(c, some (String.ofList joined))]
    | none, [] => none
    | none, x :: rest =>
      if spelling.startsWith "--" then none
      else
        let next := "-" ++ x.toString
        match find? options next, rest, fuel with
        | some d, [], _ => some [(c, none), (d, none)]
        | some d, rest, fuel + 1 =>
          (joinedOptions fuel d next rest).map ((c, none) :: ·)
        | _, _, _ => none

/-- Takes options in. Returns nothing if one of them asks for help. -/
def Arguments.accept (a : Arguments) : List (Choice × Option String) → Option Arguments
  | [] => some a
  | (c, v) :: rest =>
    if c = helpChoice then none
    else Arguments.accept { a with given := (c.key, v.getD "") :: a.given } rest

/-- Takes options in, the last of which may still need an argument: then it is the next word. -/
def Arguments.complete (a : Arguments) (c : Command) (given : List (Choice × Option String))
    (rest : List Word) (next : Arguments → List Word → Outcome) : Outcome :=
  let missing := match given.getLast? with
    | some (o, none) => o.argument.isSome
    | _ => false
  let filled := match missing, given.getLast?, rest with
    | true, some (o, _), .free s :: rest => some (given.dropLast ++ [(o, some s)], rest)
    | true, _, _ => none
    | false, _, rest => some (given, rest)
  match filled with
  | none => .refused c
  | some (given, rest) =>
    match a.accept given with
    | none => .help c
    | some a => next a rest

def readArguments (c : Command) : Nat → Arguments → List Word → Outcome
  | _, a, [] => .run c a
  | 0, _, _ => .refused c
  | fuel + 1, a, w :: rest =>
    match w with
    | .ambiguous => .refused c
    | .unknown => readArguments c fuel { a with surplus := true } rest
    | .free s =>
      let a := if a.file.isNone then { a with file := some s } else { a with surplus := true }
      readArguments c fuel a rest
    | .option o spelling (some joined) =>
      match joinedOptions c.options joined.length o spelling joined.toList with
      | none => .refused c
      | some given => a.complete c given rest (readArguments c fuel)
    | .option o _ none => a.complete c [(o, none)] rest (readArguments c fuel)

def Word.isAmbiguous : Word → Bool
  | .ambiguous => true
  | _ => false

def readCommand (c : Command) (args : List String) : Outcome :=
  let words := classifyAll c.options args
  if words.any Word.isAmbiguous then .refused c else readArguments c words.length {} words

/-- Reads a command line, given whether something unknown stood before. -/
def readFrom (surplus : Bool) : List String → Outcome
  | [] => if surplus then .refused none else .help none
  | s :: rest =>
    if s = "--" then .refused none
    else match classify [helpChoice] s with
      | .free name =>
        match commands.find? fun c => c.name = name with
        | none => .refused none
        | some c =>
          match readCommand c rest with
          | .run c a => if surplus || a.surplus then .refused none else .run c a
          | outcome => outcome
      | .option _ _ none => .help none
      | .option .. | .ambiguous => .refused none
      | .unknown => readFrom true rest

def read (argv : List String) : Outcome := readFrom false argv

/-! ## Help -/

def program : String := "myia"

def lineWidth : Nat := 78

def helpColumn : Nat := 24

def blanks (n : Nat) : String := String.ofList (List.replicate n ' ')

/-- Puts parts into lines that are not too wide, given how wide the first one is already. -/
def fill (margin : Nat) (width : Nat) (line : List String) : List String → List String
  | [] => if line.isEmpty then [] else [" ".intercalate line.reverse]
  | part :: rest =>
    if width + 1 + part.length > lineWidth && !line.isEmpty then
      " ".intercalate line.reverse :: fill margin (margin + part.length) [part] rest
    else fill margin (width + 1 + part.length) (part :: line) rest

def Choice.usage (c : Choice) : String :=
  match c.argument with
  | some name => s!"[{c.key} {name}]"
  | none => s!"[{c.key}]"

/-- The usage of a program or command, given the parts for options and for the rest. It is one line
if it fits; else the rest starts a line of its own. -/
def usageOf (name : String) (options rest : List String) : String :=
  let whole := "usage: " ++ " ".intercalate (name :: options ++ rest)
  if whole.length ≤ lineWidth then whole
  else
    let margin := "usage: ".length + name.length + 1
    let lines := fill margin ("usage: ".length - 1) [] (name :: options) ++
      fill margin (margin - 1) [] rest
    "usage: " ++ ("\n" ++ blanks margin).intercalate lines

/-- A line of the description of an argument. A long name has a line of its own. -/
def helpEntry (indent : Nat) (name help : String) : String :=
  let width := helpColumn - indent - 2
  if name.length ≤ width then
    blanks indent ++ name ++ blanks (width - name.length) ++ "  " ++ help ++ "\n"
  else blanks indent ++ name ++ "\n" ++ blanks helpColumn ++ help ++ "\n"

def Choice.title (c : Choice) : String :=
  match c.argument with
  | some name => ", ".intercalate (c.spellings.map fun s => s!"{s} {name}")
  | none => ", ".intercalate c.spellings

def optionsHelp : String :=
  "options:\n" ++ String.join (options.map fun c => helpEntry 2 c.title c.help)

def commandChoice : String := "\x7b" ++ ",".intercalate (commands.map Command.name) ++ "\x7d"

def usage : Option Command → String
  | some c => usageOf s!"{program} {c.name}" (c.options.map Choice.usage) ["[FILE]"]
  | none => usageOf program [helpChoice.usage] [commandChoice, "..."]

def helpText : Option Command → String
  | some c =>
    usage c ++ "\n\npositional arguments:\n" ++ helpEntry 2 "FILE" c.file ++ "\n" ++
    optionsHelp c.options
  | none =>
    usage none ++ "\n\npositional arguments:\n" ++ blanks 2 ++ commandChoice ++ "\n" ++
    String.join (commands.map fun c => helpEntry 4 c.name c.help) ++ "\n" ++
    optionsHelp [helpChoice]

end DiffLang.CommandLine
