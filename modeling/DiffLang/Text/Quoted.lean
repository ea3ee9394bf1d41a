import DiffLang.Text.Unprintable

/-!
# Quoted text

A text is quoted with single quotes, or with double ones if it holds a single quote and no double
one. A backslash, the quote in use, line ends and tabs are escaped; other unprintable characters
are written by number.
-/

namespace DiffLang.Text

def hex (width n : Nat) : String :=
  let ds := Nat.toDigits 16 n
  String.ofList (List.replicate (width - ds.length) '0' ++ ds)

def quotedChar (quote c : Char) : String :=
  if c = quote ∨ c = '\\' then "\\" ++ c.toString
  else if c = '\n' then "\\n"
  else if c = '\r' then "\\r"
  else if c = '\t' then "\\t"
  else if isPrintable c then c.toString
  else if c.toNat < 0x100 then "\\x" ++ hex 2 c.toNat
  else if c.toNat < 0x10000 then "\\u" ++ hex 4 c.toNat
  else "\\U" ++ hex 8 c.toNat

def quoted (s : String) : String :=
  let cs := s.toList
  let quote := if cs.contains '\'' && !cs.contains '"' then '"' else '\''
  quote.toString ++ String.join (cs.map (quotedChar quote)) ++ quote.toString

end DiffLang.Text
