import DiffLang.Engine
import DiffLang.Value.OfData

/-!
# Reports

What the compiler made, as plain data: values, failures, and terms with the places they come
from.
-/

namespace DiffLang.Report

/-! ## Values -/

def tagged (key text : String) (more : List (String × Data) := []) : Data :=
  .record ((key, .text text) :: more)

/-- A whole number; one that needs more than 53 bits is given by its digits. -/
def ofInt (n : Int) : Data :=
  if n.natAbs < Nat.pow 2 53 then .int n else tagged "int" (toString n)

def saying : Value → Option String
  | .exception .exception [.str s] => some s
  | v => if v.text.startsWith "Type error (" then some v.text else none

variable (s : Session)

def arity (graph : Graph.GraphId) : Data :=
  .nat ((s.store.graph graph).inputs.length)

/-- An element of an array as data: a float is its text, anything else what it is elsewhere. -/
def element : Value → Data → Data
  | .float x, _ => .text (Decimal.fixed x)
  | _, d => d

def elementType : Data → Data
  | .record [("type", d)] => d
  | d => d

mutual

def ofValue : Value → Data
  | .none => .null
  | .bool b => .bool b
  | .int n => ofInt n
  | .float x => tagged "f" (Decimal.fixed x)
  | .str t => .text t
  | .tuple vs => .record [("t", .list (ofValues vs))]
  | .list vs => .record [("l", .list (ofValues vs))]
  | .dict ps => .record [("dict", .list (ofPairs ps))]
  | .set vs => .record [("set", .list (ofValues vs))]
  | .slice a b c => .record [("slice", .list [ofValue a, ofValue b, ofValue c])]
  | .array e shape data =>
    tagged "nd" e.name [("shape", .list (shape.map .nat)), ("data", .list (ofElements data))]
  | .scalar e v => tagged "np" e.name [("v", element v (ofValue v))]
  | .zero => .record [("zero", .bool true)]
  | .any => .record [("any", .bool true)]
  | .marker n => tagged "key" n
  | .atom n => tagged "atom" n
  | .record tag fields => tagged "rec" tag [("fields", .list (ofPairs fields))]
  | .closure fn args => .record [("closure", ofValue fn), ("args", .list (ofValues args))]
  | .prim (.projector _ l) _ _ => tagged "prim" l
  | .prim _ op _ => tagged "prim" op.text
  | .type n none => .record [("type", .list [.text n])]
  | .type n (some es) => .record [("type", .list (.text n :: ofElementTypes es))]
  | .abstract parts _ =>
    let sorted := (ofParts parts).mergeSort fun a b => a.1 ≤ b.1
    .record [("av", .list (sorted.map fun (k, d) => .list [.text k, d]))]
  | .fork paths => .record [("fork", .list (ofValues paths))]
  | v@(.exception k _) => tagged "exc" k.label [("msg", .option ((saying v).map .text))]
  | .wrapped e => .record [("wrapped", ofValue e)]
  | .symbol x => tagged "sym" x.text
  | .logicVar n => tagged "var" n
  | .restrictedVar n _ => tagged "rvar" n
  | .filteredVar n _ => tagged "fvar" n
  | .untested v => .record [("notest", ofValue v)]
  | .literal v => tagged "node" "ValueNode" [("str", .text v.innerText)]
  | .lambda id =>
    tagged "node" "LambdaNode"
      [("str", .text (((s.lambda? id).map fun l => (Session.lambdaTerm id l).text).getD ""))]
  | .term k t => tagged "node" k [("str", .text t)]
  | .graph _ tag => tagged "graph" tag.text
  | .exported _ g tag _ => tagged "fn" tag.text [("nargs", arity s g)]
  | .machine _ g tag => tagged "vmfn" tag.text [("nargs", arity s g)]
  | .direct id _ ref =>
    tagged "legacyfn" ref.text [("nargs", .nat (((s.directFunctions[id]?).bind fun f =>
      s.lambda? f.lambda).map (·.params.length) |>.getD 0))]
  | .thing l => tagged "opaque" l
  | v => tagged "opaque" v.sortName

def ofValues : List Value → List Data
  | [] => []
  | v :: vs => ofValue v :: ofValues vs

def ofElements : List Value → List Data
  | [] => []
  | v :: vs => element v (ofValue v) :: ofElements vs

def ofElementTypes : List Value → List Data
  | [] => []
  | v :: vs => elementType (ofValue v) :: ofElementTypes vs

def ofPairs : List (Value × Value) → List Data
  | [] => []
  | (k, v) :: rest => .list [ofValue k, ofValue v] :: ofPairs rest

def ofParts : List (Value × Value) → List (String × Data)
  | [] => []
  | (k, v) :: rest => (k.text, ofValue v) :: ofParts rest

end

/-! ## Failures -/

open Graph.Picture (holds)

/-- Whether a message is the same wherever it is given: it shows no address, no array and no
dictionary, and does not depend on what is installed. -/
def isStable (message : String) : Bool :=
  !(holds message " 0x" || holds message "array(" || holds message "\x7b" ||
    message.startsWith "Could not resolve global")

def messageOf (f : Failure) : Option String :=
  let m := match f.kind, f.args with
    | .wrapped, [e] => if f.stated then saying e else none
    | _, _ => f.message
  m.filter isStable

def failureFields (f : Failure) : List (String × Data) :=
  [("error", .text f.kind.label)] ++
  (if f.kind = .syntaxError then
    [("location", .option (f.location.map fun l => .list [.nat l.line, .nat l.column]))]
  else []) ++
  (match messageOf f with
    | some m => [("message", .text m)]
    | none => [])

def ofFailure (f : Failure) : Data := .record (failureFields f)

def step (act : Run Data) : Run Data := do
  match ← Run.attempt act with
  | .ok d => pure d
  | .error f => pure (ofFailure f)

def plainValue (d : Data) : Run Value := Run.lift (Value.ofPlainData d)

def plainValues (ds : List Data) : Run (List Value) := Run.lift (ds.mapM Value.ofPlainData)

def value (v : Value) : Run Data := do pure (ofValue (← get) v)

def valueStep (act : Run Value) : Run Data := step do value (← act)

def equality (a b : Data) : Run Data := do
  value (← Run.lift (Value.compareEq (← plainValue a) (← plainValue b)))

/-- The report of a whole computation in a new session, with what it printed. -/
def ofRun (act : Run Data) : Data :=
  let (outcome, s) := Run.go act Engine.session
  let fields := match outcome with
    | .ok d => [("result", d)]
    | .error f => failureFields f
  .record (fields ++ if s.printed = "" then [] else [("printed", .text s.printed)])

/-! ## Terms -/

/-- A local namespace is shown by the order in which it was first met. -/
abbrev Numbered := StateM (List Namespace)

def ofNamespace (ns : Namespace) : Numbered Data := do
  if ns = .builtin then pure (.text "B")
  else if ns.isGlobal then pure (.text "G")
  else if ns = .null then pure (.text "N")
  else
    let seen ← get
    match seen.findIdx? (· == ns) with
    | some i => pure (.nat i)
    | none =>
      set (seen ++ [ns])
      pure (.nat seen.length)

def ofPlace (t : Term) : Data :=
  match s.placeOf s.origins.size (.term t) with
  | some l => .text s!"{l.line}:{l.column}"
  | none => .text "-"

/-- A term as a list: what it is, its place, and its parts. -/
def form (head : String) (t : Term) (parts : List Data) : Data :=
  .list (.text head :: ofPlace s t :: parts)

def ofIdent (x : Ident) : Numbered Data := do
  pure (form s "sym" (.ident x) [.text x.sym.text, ← ofNamespace x.sym.space])

mutual

def ofTerm : Term → Numbered Data
  | .ident x => ofIdent s x
  | t@(.literal _ v) => pure (form s "val" t [ofValue s v])
  | t@(.lambda _ params body) => do
    pure (form s "lambda" t [.list (← params.mapM (ofIdent s)), ← ofTerm body])
  | t@(.bind _ bindings body) => do
    pure (form s "let" t [.list (← ofBindings bindings), ← ofTerm body])
  | t@(.apply _ fn args) => do pure (form s "apply" t ((← ofTerm fn) :: (← ofTerms args)))
  | t@(.closure _ fn args) => do pure (form s "closure" t ((← ofTerm fn) :: (← ofTerms args)))
  | t@(.tuple _ items) => do pure (form s "tuple" t (← ofTerms items))
  | t@(.sequence _ items) => do pure (form s "begin" t (← ofTerms items))
  | t => pure (.list [.text t.sortName, .text t.text])

def ofTerms : List Term → Numbered (List Data)
  | [] => pure []
  | t :: ts => do pure ((← ofTerm t) :: (← ofTerms ts))

def ofBindings : List (Term × Term) → Numbered (List Data)
  | [] => pure []
  | (k, v) :: rest => do pure (.list [← ofTerm k, ← ofTerm v] :: (← ofBindings rest))

end

def lambdaTerm (id : TermId) : Run Term := do
  pure (Session.lambdaTerm id (← Session.getLambda id))

def ofLambda (tree : Bool) (id : TermId) : Numbered Data :=
  match s.lambda? id with
  | none => pure .null
  | some l =>
    let t := Session.lambdaTerm id l
    if tree then ofTerm s t else pure (.text t.text)

/-- The functions registered after the first `n` entries. -/
def lambdasAfter (n : Nat) : Run (List (Symbol × TermId)) := do
  pure (((← get).registry.drop n).filterMap fun
    | (.symbol x, .lambda id) => some (x, id)
    | _ => none)

def ofLambdas (tree : Bool) (entries : List (Symbol × TermId)) : Run Data := do
  let s ← get
  let (ds, _) := (entries.mapM fun (x : Symbol × TermId) => do
    pure (Data.list [.text x.1.text, ← ofLambda s tree x.2])).run []
  pure (.list ds)

end DiffLang.Report
