import DiffLang.Session
import DiffLang.Text.Digest
import DiffLang.View.Picture

/-!
# Views

How symbols, values, terms and places are shown as HTML. Each sort of thing has a view made of the
views of its parts. Below a given depth things are shown in short, which mostly means by their sort
alone.
-/

namespace DiffLang

structure Viewer where
  session : Session
  limit : Option Nat := none
  coloured : Bool := true
  marks : List (TermId × String) := []
  options : Graph.PictureOptions :=
    { duplicateConstants := false, functionInNode := false, followReferences := false }

namespace Viewer

variable (v : Viewer)

def isShort (depth : Nat) : Bool := v.limit.any fun n => depth ≥ n

def marksOf (id : TermId) : List String :=
  v.marks.filterMap fun (i, c) => if i = id then some c else none

def plain (sort text : String) : Html := .span ["hrepr-" ++ sort] text

def short (sort : String) : Html := .span ["hrepr-short-" ++ sort] s!"<{sort}>"

/-! ## Symbols -/

def colourPart (x : Float) : Float := if x < 0.0 then 0.0 else if x > 1.0 then 1.0 else x

def colourNumber (x : Float) : Nat := (colourPart x * 256.0).toUInt64.toNat

/-- The style of the symbols of a namespace. All colours are equally bright, and their hue depends
on the digest of the name; global names are slanted. -/
def spaceStyle (space : String) : String :=
  let digest := Digest.md5 space.toUTF8.toList
  let fraction (i : Nat) : Float := Float.ofNat (digest.getD i 0).toNat / 256.0
  let i := (fraction 11 * 2.0 - 1.0) * 0.5957
  let q := (fraction 13 * 2.0 - 1.0) * 0.5226
  let r := colourNumber (0.5 + 0.9468822170900693 * i + 0.6235565819861433 * q)
  let g := colourNumber (0.5 - 0.27478764629897834 * i - 0.6356910791873801 * q)
  let b := colourNumber (0.5 - 1.1085450346420322 * i + 1.7090069284064666 * q)
  s!"color:rgb({r}, {g}, {b})" ++ if space.startsWith "global:" then ";font-style:italic" else ""

def symbolStyle : Symbol → List (String × Attribute)
  | .plain _ (.named space) _ => [("style", .text (spaceStyle space))]
  | .plain _ (.hidden _) _ => []
  | .derived _ base _ _ => symbolStyle base

def spaceClass : Namespace → String
  | .named "" => "myia-ns--none"
  | .named space => "myia-ns-" ++ space
  | .hidden _ => "myia-ns-local"

def versionView (version : Nat) : List Html :=
  if version > 1 then [.span ["SymbolIndex"] (toString version)] else []

def symbol (marks : List String) (x : Symbol) : Html :=
  let classes := "Symbol" :: marks ++ [spaceClass x.space]
  let style := if v.coloured then symbolStyle x else []
  match x with
  | .plain label _ n => .element "div" classes style (.text label :: versionView n)
  | .derived relation base _ n =>
    let related := [.span ["SymbolRelation"] relation, symbol [] base]
    .element "div" classes style (related ++ versionView n)

def ident (x : Ident) : Html := v.symbol (v.marksOf x.id) x.sym

/-! ## Places -/

def placeView (url : String) (line column : Int) : Html :=
  .element "code-snippet" []
    [("src", .text url), ("language", .text "python"), ("line", .number line),
     ("column", .number (column + 1)), ("context", .number 4)] []

def location (l : Location) : Html := placeView l.url l.line l.column

/-! ## Values -/

def bracketed (sort before after : String) (contents : List Html) : Html :=
  (Html.titledBox before after contents).withClass sort

/-- The items of a sequence in brackets. In short, a mark stands for all of them. -/
def items (depth : Nat) (sort before after : String) (views : List Html) : Html :=
  let contents := if v.isShort depth && !views.isEmpty then [Html.span ["hrepr-ellipsis"] "…"]
    else views
  bracketed sort before after contents

def keyRow (key value : Html) : Html :=
  .tag "tr" [.tag "td" [key], .element "td" ["hrepr-delimiter"] [] [.text " ↦ "], .tag "td" [value]]

def dictionary (depth : Nat) (rows : List Html) : Html :=
  if v.isShort depth && !rows.isEmpty then v.items depth "hrepr-dict" "\x7b" "\x7d" rows
  else
    (Html.titledBox (some "\x7b") (some "\x7d") [Html.objectTable rows] .across .down).withClass
      "hrepr-dict"

def fieldTable (title : String) (rows : List (String × Html)) : Html :=
  Html.titledBox title none
    [Html.objectTable (rows.map fun (k, h) => .tag "tr" [.tag "td" [.text k], .tag "td" [h]])]
    .down .down

def textView (depth : Nat) (s : String) : Html :=
  plain "str" (if v.isShort depth && s.length > 20 then (s.take 19).toString ++ "…" else s)

def unlessShort (depth : Nat) (sort : String) (view : Fallible Html) : Fallible Html :=
  if v.isShort depth then .ok (short sort) else view

def symbolBox (title : String) (x : Symbol) : Fallible Html :=
  .ok (Html.titledBox title none [v.symbol [] x])

def graph (g : Graph.GraphId) : Fallible Html := do
  pure (← Graph.Picture.draw v.session.store v.options g).view

variable (named : Nat → TermId → Fallible Html)

mutual

/-- The view of a value at a depth, given that of functions of the language. -/
def valueWith (depth : Nat) : Value → Fallible Html
  | .none => .ok (plain "NoneType" "None")
  | .bool b => .ok ((plain "bool" (if b then "True" else "False")).withClass
      (if b then "hrepr-True" else "hrepr-False"))
  | .int n => .ok (plain "int" (toString n))
  | .float x => .ok (plain "float" (Value.float x).text)
  | .scalar (.float 64) x =>
    .ok (plain (Value.scalar (.float 64) x).sortName (Value.scalar (.float 64) x).text)
  | .str s => .ok (v.textView depth s)
  | .tuple vs => do
    pure (v.items depth "hrepr-tuple" "(" ")" (← valuesWith (depth + 1) vs))
  | .list vs => do
    pure (v.items depth "hrepr-list" "[" "]" (← valuesWith (depth + 1) vs))
  | .set vs => do
    pure (v.items depth "hrepr-set" "\x7b" "\x7d" (← valuesWith (depth + 1) vs))
  | .dict ps => do pure (v.dictionary depth (← pairsWith (depth + 1) ps))
  | .symbol x => .ok (v.symbol [] x)
  | .atom name => v.unlessShort depth "Atom" (.ok (v.textView (depth + 1) name))
  | .record tag fields => do
    let rows ← fieldsWith (depth + 1) fields
    v.unlessShort depth "Record" (.ok (fieldTable tag rows))
  | .closure fn args => do
    let f ← valueWith (depth + 1) fn
    let xs ← valuesWith (depth + 2) args
    let shown := [f, v.items (depth + 1) "hrepr-tuple" "(" ")" xs]
    v.unlessShort depth "Closure" (.ok (Html.titledBox (some "Closure") none shown .down))
  | .abstract parts _ => do
    let rows ← pairsWith (depth + 2) parts
    v.unlessShort depth "AbstractValue" (.ok (v.dictionary (depth + 1) rows))
  | .literal w => do
    let h ← valueWith (depth + 1) w
    v.unlessShort depth "ValueNode" (.ok (.div ["ValueNode"] [h]))
  | .prim bank op home =>
    v.unlessShort depth (Value.prim bank op home).sortName
      (v.symbolBox "Prim" op)
  | .machine _ _ tag => v.unlessShort depth "VMFunction" (v.symbolBox "VMFunc" tag)
  | .direct _ _ ref => v.unlessShort depth "Function" (v.symbolBox "Func" ref)
  | .graph g _ => v.unlessShort depth "IRGraph" (v.graph g)
  | .lambda id => named depth id
  | w => v.unlessShort depth w.sortName (.ok (plain w.sortName w.text))

def valuesWith (depth : Nat) : List Value → Fallible (List Html)
  | [] => .ok []
  | w :: ws => do pure ((← valueWith depth w) :: (← valuesWith depth ws))

def pairsWith (depth : Nat) : List (Value × Value) → Fallible (List Html)
  | [] => .ok []
  | (k, w) :: rest => do
    pure (keyRow (← valueWith depth k) (← valueWith depth w) :: (← pairsWith depth rest))

def fieldsWith (depth : Nat) : List (Value × Value) → Fallible (List (String × Html))
  | [] => .ok []
  | (k, w) :: rest => do pure ((k.text, ← valueWith depth w) :: (← fieldsWith depth rest))

end

/-! ## Terms -/

/-- The view of a value inside a term. A function that a value refers to is only named. -/
def literal (depth : Nat) (w : Value) : Fallible Html :=
  v.valueWith (fun _ _ => .ok (short "LambdaNode")) depth w

def refView : Option Ident → Html
  | some x => v.ident x
  | none => plain "NoneType" "None"

def keyword (s : String) : Html := .div ["Keyword"] [.text s]

theorem one_le_sizeOf_term (t : Term) : 1 ≤ sizeOf t := by
  cases t <;> simp +arith

theorem one_le_sizeOf_terms (ts : List Term) : 1 ≤ sizeOf ts := by
  cases ts <;> simp +arith

mutual

def termAt (depth : Nat) : Term → Fallible Html
  | .ident x => .ok (v.ident x)
  | .group _ ts => do
    pure (v.items depth "hrepr-list" "[" "]" (← termsAt (depth + 1) ts))
  | .tuple id ts => v.unlessShort depth (Term.tuple id ts).sortName do
    pure (bracketed "TupleNode" "(" ")" (← termsAt (depth + 1) ts))
  | .literal id w => v.unlessShort depth "ValueNode" do
    pure (.div ("ValueNode" :: v.marksOf id) [← v.literal (depth + 1) w])
  | .bind id bindings body => v.unlessShort depth "LetNode" do
    let rows ← bindingsAt (depth + 1) bindings
    let last ← termAt (depth + 1) body
    pure (.div ("LetNode" :: v.marksOf id)
      [keyword "let", .div ["LetBindings"] rows, keyword "in", .div ["LetBody"] [last]])
  | .lambda id params body => v.unlessShort depth "LambdaNode" do
    let ref := v.refView ((v.session.lambda? id).bind fun l => l.ref)
    let last ← termAt (depth + 1) body
    pure (.div ("LambdaNode" :: v.marksOf id)
      [.div ["Keyword"] [ref, .text " = ", keyword "λ"],
       .div ["LambdaArguments"] (params.map v.ident), last])
  | .apply id fn args => applyAt depth (v.marksOf id) fn args
  | .sequence id ts => v.unlessShort depth "BeginNode" do
    pure (.div ("BeginNode" :: v.marksOf id) (keyword "begin" :: (← termsAt (depth + 1) ts)))
  | .closure id fn args => v.unlessShort depth "ClosureNode" do
    let f ← termAt (depth + 1) fn
    let xs ← termsAt (depth + 1) args
    pure (.div ("ClosureNode" :: v.marksOf id) (f :: xs ++ [.text "..."]))
  | .assign .. => v.unlessShort depth "_Assign" (.error .missingAttribute)
termination_by t => sizeOf t

/-- The view of a call. A call of a choice between two functions is shown as a choice. -/
def applyAt (depth : Nat) (marks : List String) (fn : Term) (args : List Term) :
    Fallible Html := do
  if v.isShort depth then return short "ApplyNode"
  match fn, args with
  | .apply _ (.ident ⟨_, .plain "switch" _ _⟩) [c, .closure _ f xs, .closure _ g ys], [] =>
    let cond ← termAt (depth + 1) c
    let yes ← applyAt (depth + 1) [] f xs
    let no ← applyAt (depth + 1) [] g ys
    pure (.div ("ApplyNode" :: marks ++ ["If"])
      [.div ["IfCond"] [cond], .div ["IfThen"] [yes], .div ["IfElse"] [no]])
  | fn, args =>
    have := one_le_sizeOf_term fn
    have := one_le_sizeOf_terms args
    pure (.div ("ApplyNode" :: marks)
      ((← termAt (depth + 1) fn) :: (← termsAt (depth + 1) args)))
termination_by sizeOf fn + sizeOf args

def termsAt (depth : Nat) : List Term → Fallible (List Html)
  | [] => .ok []
  | t :: ts => do pure ((← termAt depth t) :: (← termsAt depth ts))
termination_by ts => sizeOf ts

def bindingsAt (depth : Nat) : List (Term × Term) → Fallible (List Html)
  | [] => .ok []
  | (k, t) :: rest => do
    pure (.div ["LetBinding"] [← termAt depth k, ← termAt depth t] :: (← bindingsAt depth rest))
termination_by bs => sizeOf bs

end

def lambda (depth : Nat) (id : TermId) : Fallible Html :=
  match v.session.lambda? id with
  | some l => v.termAt depth (Session.lambdaTerm id l)
  | none => .error .broken

def valueAt (depth : Nat) (w : Value) : Fallible Html := v.valueWith v.lambda depth w

def node (depth : Nat) (n : Graph.NodeId) : Fallible Html :=
  let node := v.session.store.node n
  v.unlessShort depth "IRNode" (match node.value with
    | some w => v.valueAt (depth + 1) w
    | none => .ok (v.symbol [] node.tag))

end Viewer

end DiffLang
