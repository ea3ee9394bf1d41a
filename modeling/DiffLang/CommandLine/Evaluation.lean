import DiffLang.CommandLine
import DiffLang.Module
import DiffLang.Source.Indentation

/-!
# Carrying out a command line

A command reads a program from the command line, from a file, or from a module, and evaluates it.
The world tells what texts there are; a result is printed as text, as a page, or as a message for
a program that shows it.
-/

namespace DiffLang.CommandLine

structure World where
  expression : String → Fallible (List Source.Stmt)
  file : String → Fallible (List Source.Stmt)
  module : String → Fallible (List Source.Stmt)
  arguments : String → Run (List Value)

def unreadable (text : String) : Failure := .plain (.other (Source.fault text).name)

def statements (text : String) : Fallible (List Source.Stmt) :=
  match Source.parse text with
  | some stmts => .ok stmts
  | none => .error (unreadable text)

/-- The values of arguments that are written as an expression. A tuple gives several. -/
def argumentValues (text : String) : Run (List Value) := do
  match ← Run.lift (statements text) with
  | [.expr pos e] =>
    match ← Module.evaluate commandUrl (.expr pos e) [] e with
    | .tuple vs => pure vs
    | v => pure [v]
  | _ => throw (unreadable text)
where
  commandUrl : String := "<string>"

def commandUrl : String := "<command-line>"

def moduleFile (name : String) : String := name ++ ".py"

def World.ofFiles (files : List (String × String)) : World :=
  let find (name : String) (missing : Kind) : Fallible (List Source.Stmt) :=
    match files.lookup name with
    | some text => statements text
    | none => .error (.plain missing)
  { expression := statements
    file := fun name => find name .missingFile
    module := fun name => find (moduleFile name) .missingModule
    arguments := argumentValues }

def neededFile (a : Arguments) : Option String :=
  a.file.map fun f => match f.splitOn ":" with
    | [name, _] => moduleFile name
    | _ => f

/-! ## Programs -/

def moduleNames : List String :=
  ["__name__", "__doc__", "__package__", "__loader__", "__spec__", "__file__", "__cached__",
   "__builtins__", "__dict__", "__class__"]

variable (w : World)

/-- A member of a module. A member can only stand for a program if it is itself the place, the line
and the text of one; nothing else is read. -/
def readMember (name member : String) : Run Value := do
  if name.isEmpty then throw .badValue
  if name.startsWith "." then throw .typeMismatch
  let stmts ← Run.lift (w.module name)
  let globals ← Module.load (moduleFile name) [] stmts
  match globals.lookup member with
  | some (.tuple [.str url, .int line, .str text]) =>
    Program.readSource url line.toNat (← Run.lift (statements text))
  | some (.tuple _) => throw .typeMismatch
  | some _ => throw (.plain .name)
  | none => throw (if moduleNames.contains member then .plain .name else .missingAttribute)

/-- The function that a command is about. A file with a colon names a member of a module. Without a
program there is none. -/
def readProgram (a : Arguments) : Run (Option Value) := do
  match a.nonempty? "--expr", a.file.filter fun f => !f.isEmpty with
  | some _, some _ =>
    throw (.because .value "Cannot provide a FILE and an expression at the same time.")
  | none, none => pure none
  | some text, none =>
    pure (some (← Program.readSource commandUrl 1 (← Run.lift (w.expression text))))
  | none, some file =>
    match file.splitOn ":" with
    | [_] => do pure (some (← Program.readSource file 1 (← Run.lift (w.file file))))
    | [name, member] => do pure (some (← readMember w name member))
    | _ => throw .badValue

/-! ## Results -/

def resultText (s : Session) (format : String) (v : Value) : Fallible String :=
  let viewer : Viewer := { session := s }
  match format, v with
  | "html", v => do pure ((← viewer.page v) ++ "\n")
  | "buche", v => do pure (Viewer.message (← viewer.valueAt 0 v))
  | _, .dict items => .ok (String.join (items.map fun (k, x) => s!"{k.text}:\n  {x.text}\n"))
  | _, v => .ok (v.text ++ "\n")

def evaluate (a : Arguments) (fn : Value) : Run Unit := do
  let compiled ← Engine.top.get (.stage Stage.standard.exported) fn
  let args ← match a.nonempty? "--args" with
    | some text => w.arguments text
    | none => pure []
  let v ← if args.isEmpty then pure compiled else Engine.top.call compiled args
  let text ← Run.lift (resultText (← get) ((a.option? "--format").getD "text") v)
  Viewer.print text

/-- The end of a command line: its exit code, and what there is to complain about. -/
structure Exit where
  code : Nat
  complaint : String := ""

/-- Carries out a command. The commands that need a window fail, and so does showing what was
read. -/
def carryOut (c : Command) (a : Arguments) : Run Exit := do
  match c.name with
  | "parse" | "eval" =>
    match ← readProgram w a with
    | none => pure { code := 1, complaint := "Must provide FILE or use -e option." }
    | some fn =>
      if c.name = "parse" then throw .typeMismatch
      evaluate w a fn
      pure { code := 0 }
  | _ => throw .missingAttribute

def carryOutLine (argv : List String) : Run Exit :=
  match read argv with
  | .help c => do
    Viewer.print (helpText c)
    pure { code := 0 }
  | .refused c => pure { code := 2, complaint := usage c }
  | .run c a => carryOut w c a

end DiffLang.CommandLine
