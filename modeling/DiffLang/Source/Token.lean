import DiffLang.Source

/-!
# Tokens of a program text

A text is cut into names, numbers, quoted texts and operators. The end of a line ends a statement
unless a bracket is open, and a change of indentation opens or closes a block.
-/

namespace DiffLang.Source

inductive Token where
  | name (id : String)
  | number (v : Value)
  | text (s : String)
  /-- A quoted form that is not a text, by the name of its kind. -/
  | quoted (kind : String)
  | op (s : String)
  | newline
  | indent
  | dedent
  | bad

structure Placed where
  token : Token
  pos : Pos

namespace Lexer

def startsName (c : Char) : Bool := c.isAlpha || c == '_' || c.toNat ≥ 128

def inName (c : Char) : Bool := startsName c || c.isDigit

def width (cs : List Char) : Nat := cs.foldl (fun n c => n + c.utf8Size) 0

def operators : List String :=
  ["**=", "//=", ">>=", "<<=", "...", "!=", "==", "<=", ">=", "->", "+=", "-=", "*=", "/=", "%=",
   "&=", "|=", "^=", "@=", ":=", "**", "//", "<<", ">>", "+", "-", "*", "/", "%", "@", "&", "|",
   "^", "~", "<", ">", "(", ")", "[", "]", "\x7b", "\x7d", ",", ":", ".", ";", "="]

def operator? (cs : List Char) : Option String :=
  operators.find? fun o => o.toList.isPrefixOf cs

def digits (base : Nat) (cs : List Char) : Nat :=
  cs.foldl (fun n c =>
    let d := if c.isDigit then c.toNat - '0'.toNat else c.toLower.toNat - 'a'.toNat + 10
    n * base + d) 0

/-- The characters of a run of digits, in which underscores may stand. -/
def run (base : Nat) (cs : List Char) : List Char × List Char :=
  let ok (c : Char) : Bool := c == '_' || c.isDigit ||
    (base = 16 && ('a' ≤ c.toLower && c.toLower ≤ 'f'))
  (cs.takeWhile ok, cs.dropWhile ok)

def clean (cs : List Char) : List Char := cs.filter (· != '_')

def exponent (cs : List Char) : Option (List Char × Int) × List Char :=
  match cs with
  | e :: rest =>
    if e.toLower == 'e' then
      let (sign, rest') := match rest with
        | '-' :: r => (['-'], r)
        | '+' :: r => (['+'], r)
        | r => ([], r)
      let (ds, after) := run 10 rest'
      if ds.isEmpty then (none, cs)
      else
        let n : Int := digits 10 (clean ds)
        (some (e :: sign ++ ds, if sign == ['-'] then -n else n), after)
    else (none, cs)
  | [] => (none, cs)

def decimal (ds : List Char) (places : Nat) (power : Int) : Float :=
  let e : Int := power - (places : Int)
  Float.ofScientific (digits 10 ds) (decide (e < 0)) e.natAbs

def number (cs : List Char) : Value × List Char × List Char :=
  let based (base : Nat) (mark : Char) (rest : List Char) : Value × List Char × List Char :=
    let (ds, after) := run base rest
    (.int (digits base (clean ds)), '0' :: mark :: ds, after)
  match cs with
  | '0' :: 'x' :: rest => based 16 'x' rest
  | '0' :: 'X' :: rest => based 16 'X' rest
  | '0' :: 'o' :: rest => based 8 'o' rest
  | '0' :: 'b' :: rest => based 2 'b' rest
  | _ =>
    let (whole, rest) := run 10 cs
    let (point, frac, rest) := match rest with
      | '.' :: r => let (f, r') := run 10 r; (true, f, r')
      | r => (false, [], r)
    let (e, rest) := exponent rest
    let taken := whole ++ (if point then ['.'] else []) ++ frac ++ ((e.map (·.1)).getD [])
    let x := decimal (clean (whole ++ frac)) (clean frac).length ((e.map (·.2)).getD 0)
    match rest with
    | 'j' :: r => (.complex 0 x, taken ++ ['j'], r)
    | r =>
      if point || e.isSome then (.float x, taken, r)
      else (.int (digits 10 (clean whole)), taken, r)

/-- The body of a quoted text up to its closing quote: its characters, how many characters of the
program it takes, and the rest. -/
def quotedBody (close : List Char) (raw : Bool) :
    List Char → Option (List Char × List Char × List Char)
  | [] => none
  | c :: cs =>
    if close.isPrefixOf (c :: cs) then
      some ([], close, (c :: cs).drop close.length)
    else if c == '\\' && !raw then
      match cs with
      | [] => none
      | d :: ds =>
        let plain : List Char := match d with
          | 'n' => ['\n']
          | 't' => ['\t']
          | 'r' => ['\r']
          | '0' => [Char.ofNat 0]
          | '\n' => []
          | '\\' => ['\\']
          | '\'' => ['\'']
          | '"' => ['"']
          | d => ['\\', d]
        (quotedBody close raw ds).map fun (s, taken, rest) =>
          (plain ++ s, c :: d :: taken, rest)
    else if c == '\n' && close.length = 1 then none
    else
      (quotedBody close raw cs).map fun (s, taken, rest) => (c :: s, c :: taken, rest)

def quoted (mark : List Char) (cs : List Char) : Option (Token × List Char × List Char) :=
  let finish (open' : List Char) (rest : List Char) : Option (Token × List Char × List Char) :=
    let marks := mark.map Char.toLower
    (quotedBody open' (marks.contains 'r') rest).map fun (s, taken, after) =>
      let token : Token :=
        if marks.contains 'b' then .quoted "Bytes"
        else if marks.contains 'f' then .quoted "JoinedStr"
        else .text (String.ofList s)
      (token, mark ++ open' ++ taken, after)
  match cs with
  | '"' :: '"' :: '"' :: rest => finish ['"', '"', '"'] rest
  | '\'' :: '\'' :: '\'' :: rest => finish ['\'', '\'', '\''] rest
  | '"' :: rest => finish ['"'] rest
  | '\'' :: rest => finish ['\''] rest
  | _ => none

structure State where
  line : Nat := 1
  column : Nat := 0
  depth : Nat := 0
  /-- The indentations of the open blocks, innermost first. -/
  blocks : List Nat := [0]
  fresh : Bool := true

def State.pos (s : State) : Pos := ⟨s.line, s.column⟩

def State.over (s : State) (cs : List Char) : State :=
  let breaks := cs.count '\n'
  if breaks = 0 then { s with column := s.column + width cs }
  else
    { s with
      line := s.line + breaks
      column := width (cs.reverse.takeWhile (· != '\n')) }

/-- The tokens that a line's indentation gives, and the blocks open after it. -/
def indentation (pos : Pos) (n : Nat) : List Nat → List Placed × List Nat
  | [] => ([], [n])
  | b :: bs =>
    if n = b then ([], b :: bs)
    else if n > b then ([⟨.indent, pos⟩], n :: b :: bs)
    else
      let (ts, rest) := indentation pos n bs
      (⟨.dedent, pos⟩ :: ts, rest)

/-- The tokens of a text. Every step takes a character, so the length of the text is fuel
enough. -/
def scan : Nat → State → List Char → List Placed
  | 0, _, _ => []
  | _ + 1, s, [] =>
    (if s.fresh then [] else [⟨.newline, s.pos⟩]) ++
      (s.blocks.dropLast.map fun _ => ⟨.dedent, s.pos⟩)
  | fuel + 1, s, c :: cs =>
    if c == '\n' then
      let next := { s.over [c] with fresh := s.fresh || s.depth = 0 }
      if s.fresh || s.depth > 0 then scan fuel next cs
      else ⟨.newline, s.pos⟩ :: scan fuel next cs
    else if c == ' ' || c == '\t' || c == '\r' then scan fuel (s.over [c]) cs
    else if c == '#' then
      let comment := (c :: cs).takeWhile (· != '\n')
      scan fuel (s.over comment) ((c :: cs).dropWhile (· != '\n'))
    else if c == '\\' && cs.head? == some '\n' then scan fuel (s.over [c, '\n']) (cs.drop 1)
    else
      let (opened, blocks) :=
        if s.fresh && s.depth = 0 then indentation s.pos s.column s.blocks else ([], s.blocks)
      let s := { s with blocks, fresh := false }
      let emit (t : Token) (taken rest : List Char) (depth : Nat) : List Placed :=
        opened ++ ⟨t, s.pos⟩ :: scan fuel { s.over taken with depth } rest
      let bad : List Placed := opened ++ [⟨.bad, s.pos⟩]
      if startsName c then
        let id := (c :: cs).takeWhile inName
        let rest := (c :: cs).dropWhile inName
        let marked := id.length ≤ 2 && id.all fun m => "rRbBfFuU".toList.contains m
        match (if marked then quoted id rest else none) with
        | some (t, taken, rest) => emit t taken rest s.depth
        | none => emit (.name (String.ofList id)) id rest s.depth
      else if c.isDigit || (c == '.' && (cs.head?.map Char.isDigit).getD false) then
        let (v, taken, rest) := number (c :: cs)
        emit (.number v) taken rest s.depth
      else if c == '"' || c == '\'' then
        match quoted [] (c :: cs) with
        | some (t, taken, rest) => emit t taken rest s.depth
        | none => bad
      else
        match operator? (c :: cs) with
        | none => bad
        | some o =>
          let depth := if ["(", "[", "\x7b"].contains o then s.depth + 1
            else if [")", "]", "\x7d"].contains o then s.depth - 1
            else s.depth
          emit (.op o) o.toList ((c :: cs).drop o.length) depth

end Lexer

def tokens (text : String) (firstLine : Nat := 1) : List Placed :=
  let cs := text.toList
  Lexer.scan (cs.length + 1) { line := firstLine } cs

end DiffLang.Source
