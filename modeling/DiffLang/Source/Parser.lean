import DiffLang.Source.Token

/-!
# From program text to tree

A parser for the surface language by recursive descent, one function for each level of binding.
A form that is part of the notation but not of the language becomes a node that only has its
name. A text that is not of the notation at all has no tree.
-/

namespace DiffLang.Source

namespace Parser

/-- A computation that takes tokens from the front of a list, or fails. -/
abbrev Parse := StateT (List Placed) Option

def peek : Parse (Option Token) := do pure ((← get).head?.map (·.token))

def here : Parse Pos := do pure (((← get).head?.map (·.pos)).getD ⟨1, 0⟩)

def advance : Parse Unit := modify List.tail

def word? : Parse (Option String) := do
  match ← peek with
  | some (.op w) | some (.name w) => pure (some w)
  | _ => pure none

def sees (w : String) : Parse Bool := do pure ((← word?) == some w)

def atEnd : Parse Bool := do
  match ← peek with
  | some .newline => pure true
  | none => pure true
  | _ => pure false

def endLine : Parse Unit := do
  if ← atEnd then advance else failure

def accept (w : String) : Parse Bool := do
  if ← sees w then advance; pure true else pure false

def expect (w : String) : Parse Unit := do
  if ← accept w then pure () else failure

def keywords : List String :=
  ["False", "None", "True", "and", "as", "assert", "async", "await", "break", "class", "continue",
   "def", "del", "elif", "else", "except", "finally", "for", "from", "global", "if", "import",
   "in", "is", "lambda", "nonlocal", "not", "or", "pass", "raise", "return", "try", "while",
   "with", "yield"]

def identifier : Parse String := do
  match ← peek with
  | some (.name id) => if keywords.contains id then failure else do advance; pure id
  | _ => failure

/-- The binary operators of a level of binding, weakest first. -/
def binaryLevels : List (List (String × String)) :=
  [[("|", "BitOr")], [("^", "BitXor")], [("&", "BitAnd")], [("<<", "LShift"), (">>", "RShift")],
   [("+", "Add"), ("-", "Sub")],
   [("*", "Mult"), ("/", "Div"), ("//", "FloorDiv"), ("%", "Mod"), ("@", "MatMult")]]

def augmented : List (String × String) :=
  [("+=", "Add"), ("-=", "Sub"), ("*=", "Mult"), ("/=", "Div"), ("//=", "FloorDiv"),
   ("%=", "Mod"), ("**=", "Pow"), ("@=", "MatMult"), ("|=", "BitOr"), ("&=", "BitAnd"),
   ("^=", "BitXor"), ("<<=", "LShift"), (">>=", "RShift")]

def signs : List (String × String) := [("-", "USub"), ("+", "UAdd"), ("~", "Invert")]

def oneOf (ops : List (String × String)) : Parse (Option String) := do
  let found := (← word?).bind fun w => ops.lookup w
  if found.isSome then advance
  pure found

def comparison : Parse (Option String) := do
  match ← oneOf [("<", "Lt"), (">", "Gt"), ("<=", "LtE"), (">=", "GtE"), ("==", "Eq"),
      ("!=", "NotEq"), ("in", "In")] with
  | some n => pure (some n)
  | none =>
    if ← accept "is" then pure (some (if ← accept "not" then "IsNot" else "Is"))
    else
      match ← get with
      | ⟨.name "not", _⟩ :: ⟨.name "in", _⟩ :: rest => set rest; pure (some "NotIn")
      | _ => pure none

def parameters (close : String) : Nat → Parse Params
  | 0 => failure
  | fuel + 1 => do
    if ← sees close then pure { names := [] }
    else if (← accept "**") || (← accept "*") then
      let starred ← do
        match ← peek with
        | some (.name _) => do let _ ← identifier; pure true
        | _ => pure false
      let _ ← accept ","
      let rest ← parameters close fuel
      pure (if starred then { rest with names := [], variadic := true }
        else { rest with names := [], keywordOnly := true })
    else
      let id ← identifier
      let default ← accept "="
      if default then skipDefault fuel
      let _ ← accept ","
      let rest ← parameters close fuel
      pure { rest with names := id :: rest.names, defaults := rest.defaults || default }
where
  skipDefault : Nat → Parse Unit
  | 0 => failure
  | fuel + 1 => do
    if (← sees ",") || (← sees close) then pure ()
    else do advance; skipDefault fuel

/-- The items after a comma. There may be none. -/
def itemsRest (item : Parse Expr) : Nat → Parse (List Expr)
  | 0 => failure
  | fuel + 1 => do
    if !(← accept ",") || (← atEnd) || (← [")", "]", "=", "in"].anyM sees) then pure []
    else
      let e ← item
      pure (e :: (← itemsRest item fuel))

/-- An item, or the tuple of several. -/
def items (pos : Pos) (item : Parse Expr) (fuel : Nat) : Parse Expr := do
  let e ← item
  if ← sees "," then pure (.tuple pos (e :: (← itemsRest item fuel))) else pure e

mutual

def expression : Nat → Parse Expr
  | 0 => failure
  | fuel + 1 => do
    let pos ← here
    if ← accept "lambda" then
      let params ← parameters ":" fuel
      expect ":"
      pure (.lambda pos params (← expression fuel))
    else
      let e ← disjunction fuel
      if ← accept "if" then
        let _ ← disjunction fuel
        expect "else"
        let _ ← expression fuel
        pure (.other pos "IfExp")
      else pure e

def disjunction : Nat → Parse Expr
  | 0 => failure
  | fuel + 1 => do
    let pos ← here
    let e ← negation fuel
    if (← accept "or") || (← accept "and") then
      let _ ← disjunction fuel
      pure (.other pos "BoolOp")
    else pure e

def negation : Nat → Parse Expr
  | 0 => failure
  | fuel + 1 => do
    let pos ← here
    if ← accept "not" then pure (.unary pos "Not" (← negation fuel))
    else
      let left ← binary fuel binaryLevels
      match ← comparisons fuel with
      | ([], _) => pure left
      | (ops, rights) => pure (.compare pos left ops rights)

def comparisons : Nat → Parse (List String × List Expr)
  | 0 => failure
  | fuel + 1 => do
    match ← comparison with
    | none => pure ([], [])
    | some op =>
      let e ← binary fuel binaryLevels
      let (ops, es) ← comparisons fuel
      pure (op :: ops, e :: es)

def binary : Nat → List (List (String × String)) → Parse Expr
  | 0, _ => failure
  | fuel + 1, [] => signed fuel
  | fuel + 1, ops :: tighter => do
    let pos ← here
    let left ← binary fuel tighter
    binaryRest fuel pos left ops tighter

/-- The operators of one level, which group to the left. -/
def binaryRest : Nat → Pos → Expr → List (String × String) → List (List (String × String)) →
    Parse Expr
  | 0, _, _, _, _ => failure
  | fuel + 1, pos, left, ops, tighter => do
    match ← oneOf ops with
    | none => pure left
    | some op =>
      let right ← binary fuel tighter
      binaryRest fuel pos (.binary pos op left right) ops tighter

def signed : Nat → Parse Expr
  | 0 => failure
  | fuel + 1 => do
    let pos ← here
    match ← oneOf signs with
    | some op => pure (.unary pos op (← signed fuel))
    | none =>
      let base ← atom fuel
      let base ← trailers fuel pos base
      if ← accept "**" then pure (.binary pos "Pow" base (← signed fuel)) else pure base

def trailers : Nat → Pos → Expr → Parse Expr
  | 0, _, _ => failure
  | fuel + 1, pos, e => do
    if ← accept "(" then
      let (args, keywords) ← arguments fuel
      trailers fuel pos (.call pos e args keywords)
    else if ← accept "[" then
      let index ← items (← here) (subscriptItem fuel) fuel
      expect "]"
      trailers fuel pos (.subscript pos e index)
    else if ← accept "." then
      let id ← identifier
      trailers fuel pos (.attribute pos e id)
    else pure e

def arguments : Nat → Parse (List Expr × Bool)
  | 0 => failure
  | fuel + 1 => do
    if ← accept ")" then pure ([], false)
    else
      let pos ← here
      let (e, named) ← do
        match ← get with
        | ⟨.name _, _⟩ :: ⟨.op "=", _⟩ :: rest =>
          set rest
          let _ ← expression fuel
          pure (none, true)
        | _ =>
          if ← accept "**" then do let _ ← expression fuel; pure (none, true)
          else if ← accept "*" then
            let _ ← expression fuel
            pure (some (Expr.other pos "Starred"), false)
          else do let e ← expression fuel; pure (some e, false)
      if !(← accept ",") && !(← sees ")") then failure
      let (es, named') ← arguments fuel
      pure (e.toList ++ es, named || named')

def subscriptItem : Nat → Parse Expr
  | 0 => failure
  | fuel + 1 => do
    let pos ← here
    let lower ← sliceBound fuel
    if ← accept ":" then
      let upper ← sliceBound fuel
      let step ← if ← accept ":" then sliceBound fuel else pure none
      pure (.slice pos lower upper step)
    else
      match lower with
      | some e => pure e
      | none => failure

def sliceBound : Nat → Parse (Option Expr)
  | 0 => failure
  | fuel + 1 => do
    if ← [":", "]", ","].anyM sees then pure none else pure (some (← expression fuel))

def atom : Nat → Parse Expr
  | 0 => failure
  | fuel + 1 => do
    let pos ← here
    match ← peek with
    | some (.name "None") => advance; pure (.constant pos .none)
    | some (.name "True") => advance; pure (.constant pos (.bool true))
    | some (.name "False") => advance; pure (.constant pos (.bool false))
    | some (.name _) => pure (.name pos (← identifier))
    | some (.number v) => advance; pure (.constant pos v)
    | some (.text s) => advance; pure (.constant pos (.str (s ++ (← moreText fuel))))
    | some (.quoted kind) => advance; pure (.other pos kind)
    | some (.op "...") => advance; pure (.other pos "Ellipsis")
    | some (.op "(") =>
      advance
      if ← accept ")" then pure (.tuple pos [])
      else
        let e ← items pos (expression fuel) fuel
        expect ")"
        pure e
    | some (.op "[") =>
      advance
      skipTo fuel "]"
      pure (.other pos "List")
    | some (.op "\x7b") =>
      advance
      skipTo fuel "\x7d"
      pure (.other pos "Dict")
    | _ => failure

/-- The quoted texts that follow one, which belong to it. -/
def moreText : Nat → Parse String
  | 0 => failure
  | fuel + 1 => do
    match ← peek with
    | some (.text s) => advance; pure (s ++ (← moreText fuel))
    | _ => pure ""

def skipTo : Nat → String → Parse Unit
  | 0, _ => failure
  | fuel + 1, close => do
    if ← accept close then pure ()
    else if ← [",", ":", "for", "in", "if"].anyM accept then skipTo fuel close
    else do
      let _ ← expression fuel
      skipTo fuel close

end

def expressions (fuel : Nat) : Parse Expr := do items (← here) (expression fuel) fuel

def assigned (fuel : Nat) : Nat → Parse (List Expr)
  | 0 => failure
  | n + 1 => do
    if ← accept "=" then
      let e ← expressions fuel
      pure (e :: (← assigned fuel n))
    else pure []

def simple (fuel : Nat) : Parse Stmt := do
  let pos ← here
  let value : Parse (Option Expr) := do
    if (← sees ";") || (← atEnd) then pure none else pure (some (← expressions fuel))
  let skip (kind : String) : Parse Stmt := do
    modify (List.dropWhile fun p => !(p.token matches .newline))
    pure (.other pos kind)
  if ← accept "return" then pure (.ret pos (← value))
  else if ← accept "raise" then pure (.raise pos (← value))
  else if let some kind ← oneOf [("pass", "Pass"), ("break", "Break"), ("continue", "Continue")] then
    pure (.other pos kind)
  else if let some kind ← oneOf [("assert", "Assert"), ("del", "Delete"), ("global", "Global"),
      ("nonlocal", "Nonlocal"), ("import", "Import"), ("from", "ImportFrom")] then skip kind
  else
    let e ← expressions fuel
    match ← oneOf augmented with
    | some op => pure (.augment pos e op (← expressions fuel))
    | none =>
      match (← assigned fuel fuel).reverse with
      | [] => if ← accept ":" then skip "AnnAssign" else pure (.expr pos e)
      | value :: targets => pure (.assign pos (e :: targets.reverse) value)

def line (fuel : Nat) : Nat → Parse (List Stmt)
  | 0 => failure
  | n + 1 => do
    let s ← simple fuel
    if ← accept ";" then
      if ← atEnd then do advance; pure [s]
      else pure (s :: (← line fuel n))
    else
      endLine
      pure [s]

mutual

def statements : Nat → Parse (List Stmt)
  | 0 => failure
  | fuel + 1 => do
    match ← peek with
    | none => pure []
    | some .dedent => pure []
    | _ =>
      let ss ← statement fuel
      pure (ss ++ (← statements fuel))

def statement : Nat → Parse (List Stmt)
  | 0 => failure
  | fuel + 1 => do
    let pos ← here
    if ← accept "if" then pure [← branch fuel pos]
    else if ← accept "while" then
      let test ← expression fuel
      let body ← block fuel
      if ← accept "else" then do let _ ← block fuel
      pure [.whileLoop pos test body]
    else if ← accept "for" then
      let target ← items (← here) (signed fuel) fuel
      expect "in"
      let iter ← expressions fuel
      let body ← block fuel
      let hasElse ← accept "else"
      if hasElse then do let _ ← block fuel
      pure [.forLoop pos target iter body hasElse]
    else if (← sees "def") || (← sees "@") then pure [← definition fuel []]
    else if ← ["class", "try", "with"].anyM sees then failure
    else line fuel fuel

def branch : Nat → Pos → Parse Stmt
  | 0, _ => failure
  | fuel + 1, pos => do
    let test ← expression fuel
    let body ← block fuel
    let next ← here
    if ← accept "elif" then pure (.branch pos test body [← branch fuel next])
    else if ← accept "else" then pure (.branch pos test body (← block fuel))
    else pure (.branch pos test body [])

def definition : Nat → List Expr → Parse Stmt
  | 0, _ => failure
  | fuel + 1, decorators => do
    let pos ← here
    if ← accept "@" then
      let d ← expression fuel
      endLine
      definition fuel (decorators ++ [d])
    else
      expect "def"
      let name ← identifier
      expect "("
      let params ← parameters ")" fuel
      expect ")"
      let body ← block fuel
      pure (.define pos name params decorators body)

def block : Nat → Parse (List Stmt)
  | 0 => failure
  | fuel + 1 => do
    expect ":"
    match ← peek with
    | some .newline =>
      advance
      match ← peek with
      | some .indent =>
        advance
        let ss ← statements fuel
        match ← peek with
        | some .dedent => advance; pure ss
        | none => pure ss
        | _ => failure
      | _ => failure
    | _ => line fuel fuel

end

def text (fuel : Nat) : Parse (List Stmt) := do
  let ss ← statements fuel
  match ← peek with
  | none => pure ss
  | _ => failure

end Parser

/-- The statements of a text that starts on a line. Each level of binding may be entered once for
every token, so their product is fuel enough. -/
def parse (text : String) (firstLine : Nat := 1) : Option (List Stmt) :=
  let ts := tokens text firstLine
  ((Parser.text (20 * ts.length + 20)).run ts).map Prod.fst

end DiffLang.Source
