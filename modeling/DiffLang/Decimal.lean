/-!
# Decimal text of binary floating-point numbers

A finite number is a fraction of naturals, so its digits are found by exact division. Two forms
are needed: the fewest significant digits that read back as the same number, and a fixed number
of significant digits with a half going to the even neighbour.
-/

namespace DiffLang

/-- A binary floating-point format: bits of the significand, and the exponent of the least step. -/
structure BinaryFormat where
  precision : Nat
  leastExponent : Int

namespace BinaryFormat

def double : BinaryFormat := ⟨53, -1074⟩

end BinaryFormat

/-- The number `digits · 10 ^ exponent`. -/
structure Decimal where
  digits : Nat
  exponent : Int

namespace Decimal

/-- Significand and exponent of the magnitude of a finite number: `m · 2 ^ q`. -/
def parts (x : Float) : Nat × Int :=
  let bits : Nat := x.toBits.toNat
  let field : Nat := bits / Nat.pow 2 52 % Nat.pow 2 11
  let low : Nat := bits % Nat.pow 2 52
  if field = 0 then (low, -1074) else (low + Nat.pow 2 52, (field : Int) - 1075)

def isNegative (x : Float) : Bool := x.toBits.toNat / Nat.pow 2 63 = 1

def fraction (m : Nat) (q : Int) : Nat × Nat :=
  if q ≥ 0 then (m * Nat.pow 2 q.toNat, 1) else (m, Nat.pow 2 (-q).toNat)

/-- The least `j` for which `num · 10 ^ j` reaches `den`, looked for up to `fuel` steps. -/
def scaleUp : Nat → Nat → Nat → Nat → Nat
  | 0, _, _, j => j
  | fuel + 1, num, den, j => if num ≥ den then j else scaleUp fuel (num * 10) den (j + 1)

def leading (num den : Nat) : Int :=
  if num ≥ den then ((Nat.toDigits 10 (num / den)).length : Int) - 1
  else -(scaleUp 400 num den 0 : Int)

def inUnits (num den : Nat) (unit : Int) : Nat × Nat :=
  if unit ≥ 0 then (num, den * Nat.pow 10 unit.toNat)
  else (num * Nat.pow 10 (-unit).toNat, den)

/-- Division with a half going to the even neighbour. -/
def roundDiv (num den : Nat) : Nat :=
  let d := num / den
  let r := num % den
  if 2 * r > den then d + 1
  else if 2 * r < den then d
  else if d % 2 = 0 then d else d + 1

/-- A positive fraction rounded to `n` significant digits; the exponent is that of the last one. -/
def significant (num den n : Nat) : Decimal :=
  let k := leading num den
  let unit := k - (n : Int) + 1
  let (a, b) := inUnits num den unit
  let d := roundDiv a b
  if d = Nat.pow 10 n then ⟨Nat.pow 10 (n - 1), unit + 1⟩ else ⟨d, unit⟩

/-- The interval of fractions that round to `m · 2 ^ u`, in quarters of a step, with its ends
included or not. -/
structure Rounding where
  low : Nat
  value : Nat
  high : Nat
  exponent : Int
  closed : Bool

def rounding (format : BinaryFormat) (m : Nat) (q : Int) : Rounding :=
  let top := q + (Nat.log2 m + 1 : Nat)
  let u := max (top - (format.precision : Int)) format.leastExponent
  let steps := if q ≥ u then m * Nat.pow 2 (q - u).toNat else m / Nat.pow 2 (u - q).toNat
  let narrow := steps = Nat.pow 2 (format.precision - 1) ∧ u > format.leastExponent
  { low := 4 * steps - (if narrow then 1 else 2)
    value := 4 * steps
    high := 4 * steps + 2
    exponent := u - 2
    closed := steps % 2 = 0 }

def Rounding.contains (r : Rounding) (unit : Int) (d : Nat) : Bool :=
  let side (n : Nat) : Nat × Nat :=
    let (a, b) := fraction n r.exponent
    inUnits a b unit
  let (lowNum, lowDen) := side r.low
  let (highNum, highDen) := side r.high
  if r.closed then decide (lowNum ≤ d * lowDen) && decide (d * highDen ≤ highNum)
  else decide (lowNum < d * lowDen) && decide (d * highDen < highNum)

/-- Tries `n`, `n + 1`, … significant digits until a decimal of that many reads back. -/
def search (r : Rounding) (num den : Nat) (k : Int) : Nat → Nat → Decimal
  | 0, n => significant num den n
  | fuel + 1, n =>
    let unit := k - (n : Int) + 1
    let (a, b) := inUnits num den unit
    let below := a / b
    let nearest := roundDiv a b
    let other := if nearest = below then below + 1 else below
    if r.contains unit nearest then ⟨nearest, unit⟩
    else if r.contains unit other then ⟨other, unit⟩
    else search r num den k fuel (n + 1)

def trim : Nat → Decimal → Decimal
  | 0, d => d
  | fuel + 1, d =>
    if d.digits % 10 = 0 ∧ d.digits ≠ 0 then trim fuel ⟨d.digits / 10, d.exponent + 1⟩ else d

/-- The shortest decimal that reads back as a positive finite number of the format. -/
def shortest (format : BinaryFormat) (x : Float) : Decimal :=
  let (m, q) := parts x
  let r := rounding format m q
  let (num, den) := fraction m q
  trim 20 (search r num den (leading num den) 17 1)

def digitText (d : Decimal) : String := toString d.digits

def magnitude (d : Decimal) : Int := d.exponent + (d.digitText.length : Int) - 1

def repeated (n : Nat) (c : Char) : String := String.ofList (List.replicate n c)

/-- An exponent with its sign and at least two digits. -/
def exponentText (e : Int) : String :=
  let n := toString e.natAbs
  (if e < 0 then "e-" else "e+") ++ (if n.length < 2 then "0" ++ n else n)

/-- Digits before a point after the first one. A single digit has no point. -/
def scientific (d : Decimal) : String :=
  let s := d.digitText.toList
  let tail := String.ofList (s.drop 1)
  String.ofList (s.take 1) ++ (if tail = "" then "" else "." ++ tail) ++ exponentText d.magnitude

/-- Digits with a point where it belongs, and `.0` at the end of a whole number. -/
def positional (d : Decimal) : String :=
  let s := d.digitText
  if d.exponent ≥ 0 then s ++ repeated d.exponent.toNat '0' ++ ".0"
  else
    let places := (-d.exponent).toNat
    if places < s.length then
      let cs := s.toList
      String.ofList (cs.take (s.length - places)) ++ "." ++
        String.ofList (cs.drop (s.length - places))
    else "0." ++ repeated (places - s.length) '0' ++ s

/-- The text of a number that is not finite. -/
def special? (x : Float) : Option String :=
  if x.isNaN then some "nan"
  else if x.isInf then some (if x > 0 then "inf" else "-inf")
  else none

/-- The fewest digits that read back: positional from `10⁻⁴` up to below `10¹⁶`. -/
def text (x : Float) (format : BinaryFormat := .double) : String :=
  match special? x with
  | some t => t
  | none =>
    let sign := if isNegative x then "-" else ""
    if x == 0 then sign ++ "0.0"
    else
      let d := shortest format x
      let k := d.magnitude
      sign ++ (if -4 ≤ k ∧ k < 16 then d.positional else d.scientific)

def fixed (x : Float) : String :=
  match special? x with
  | some t => t
  | none =>
    let sign := if isNegative x then "-" else ""
    if x == 0 then sign ++ "0.000000000000e+00"
    else
      let (m, q) := parts x
      let (num, den) := fraction m q
      sign ++ (significant num den 13).scientific

/-- The number that a decimal text stands for: digits with a point and an exponent, or one of the
numbers that are not finite. -/
def read (s : String) : Float :=
  let negative := s.startsWith "-"
  let body := if negative || s.startsWith "+" then (s.drop 1).toString else s
  let x : Float :=
    if body = "inf" then 1 / 0
    else if body = "nan" then 0 / 0
    else
      let (mantissa, exponent) := match (body.map Char.toLower).splitOn "e" with
        | [m, e] => (m, (if e.startsWith "+" then (e.drop 1).toString else e).toInt?.getD 0)
        | m => (m.headD "0", 0)
      let (whole, part) := match mantissa.splitOn "." with
        | [a, b] => (a, b)
        | a => (a.headD "0", "")
      let digits := (whole ++ part).toNat?.getD 0
      let e : Int := exponent - (part.length : Int)
      Float.ofScientific digits (decide (e < 0)) e.natAbs
  if negative then -x else x

end Decimal

end DiffLang
