import DiffLang.Term.Reading
import DiffLang.Value.Operators

/-!
# Programs

What the names of a program stand for, and reading its functions. A global name is looked up
among the names of its text, then among those of the surrounding system. A function is read once;
reading it again gives the same term.
-/

namespace DiffLang.Program

open Session Source

/-! ## What names stand for -/

/-- Follows a global name to its value, and that value again if it is a name. -/
def acquire : Nat → Value → Run Value
  | 0, _ => throw .tooDeep
  | fuel + 1, .symbol s => do
    if s.isBuiltin then pure (.symbol s)
    else if s.isGlobal then
      let st ← get
      match st.sources.lookup s.space with
      | none => throw .missingKey
      | some globals =>
        let found : Option Value := match s with
          | .plain label _ _ =>
            match globals.lookup label with
            | some v => some v
            | none => if Foreign.isName label then some (.foreign label) else none
          | .derived .. => none
        match found with
        | some v => acquire fuel v
        | none => throw (.because .name s!"Could not resolve global: '{s.text}'")
    else pure (.symbol s)
  | _ + 1, .deferred id _ => do
    match (← get).deferred[id]? with
    | some d => pure d.fn
    | none => throw .broken
  | fuel + 1, v =>
    match v with
    | .tuple _ | .list _ | .record .. | .closure .. =>
      StructuralMap.map (fun
        | [x] => acquire fuel x
        | _ => throw .typeMismatch) none v []
    | v => pure v

def isKey : Value → Bool
  | .symbol _ | .function .. | .lambda _ => true
  | _ => false

/-- What a value stands for in the program. Answers for symbols, functions and terms are kept. -/
def resolve (v : Value) : Run Value := do
  if isKey v then
    match (← get).registry.find? fun (k, _) => sameKey k v with
    | some (_, w) => pure w
    | none =>
      let w ← acquire 1000 v
      modify fun s => { s with registry := put sameKey v w s.registry }
      pure w
  else acquire 1000 v

/-! ## Reading -/

/-- Reads a statement at the top of a text. Only functions and expressions are allowed there. -/
def topStatement : Stmt → Reading.Reader (Option Term)
  | .define pos name params _ body => Reading.located pos do
    Reading.checkParams params
    match ← Reading.defineFunction name params (Reading.grouped (Reading.clausesOf body)) with
    | .assign _ v => pure (some v)
    | .term t => pure (some t)
  | .expr pos e => Reading.located pos do pure (some (← Reading.expr e))
  | .other pos kind => do Reading.unrecognized kind (some ((← get).place pos))
  | _ => throw .typeMismatch

def readText (url : String) (firstLine : Nat) (stmts : List Stmt)
    (grouping : Option Nat := none) : Run Value := do
  let globals ← globalGenerator url
  let generator ← privateGenerator
  let dest : Ident ← ident (← freshPlain generator Relation.anonymous)
  let scope : Reading.Scope :=
    { url, firstLine, topLevel := true, grouping, generator, globals, dest }
  let (results, _) ← Run.about .nothing "parse" do
    (stmts.mapM topStatement).run scope
  match results with
  | [some (.ident x)] => resolve (.symbol x.sym)
  | [_] => throw .broken
  | _ => throw .badValue

def addFunction (f : ProgramFunction) : Run Value :=
  modifyGet fun s =>
    (.function s.functions.size f.name, { s with functions := s.functions.push f })

/-- Makes the names of a text known, unless they are already. -/
def addSource (space : Namespace) (globals : Globals) : Run Unit :=
  modify fun s =>
    match s.sources.lookup space with
    | some _ => s
    | none => { s with sources := s.sources ++ [(space, globals)] }

/-- Reads a text of one statement that stands alone, without names of its own. -/
def readSource (url : String) (firstLine : Nat) (stmts : List Stmt) : Run Value := do
  let v ← readText url firstLine stmts
  addSource (.named ("global:" ++ url)) []
  pure v

def readFunction (id : Nat) : Run Value := do
  let s ← get
  match s.readCache.lookup id with
  | some v => pure v
  | none =>
    match s.functions[id]? with
    | none => throw .broken
    | some f =>
      let v ← readText f.url 1 [f.statement] f.grouping
      if f.grouping.isNone then
        modify fun s => { s with readCache := s.readCache ++ [(id, v)] }
      pure v

def refOf (id : TermId) : Run Ident := do
  match (← getLambda id).ref with
  | some r => pure r
  | none => throw .broken

end DiffLang.Program
