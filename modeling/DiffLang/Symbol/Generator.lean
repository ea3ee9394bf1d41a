import DiffLang.Symbol

/-!
# Making fresh symbols

A generator owns one namespace and counts, for each text it was asked for, how many symbols it
has made. A request gets the next version, so no two requests to one generator give the same
symbol unless the caller names the version itself.
-/

namespace DiffLang

/-- A maker of symbols in one namespace. -/
structure Generator where
  space : Namespace
  counts : List (String × Nat) := []
deriving Inhabited

namespace Generator

variable (g : Generator)

def count (key : String) : Nat := (g.counts.lookup key).getD 0

/-- Replaces the count of a key, keeping the order in which keys were first seen. -/
def setCount : List (String × Nat) → String → Nat → List (String × Nat)
  | [], key, n => [(key, n)]
  | (k, m) :: rest, key, n =>
    if k = key then (k, n) :: rest else (k, m) :: setCount rest key n

def bump (key : String) : Nat × Generator :=
  let n := g.count key + 1
  (n, { g with counts := setCount g.counts key n })

/-- The version a request gets: the one it names, unless that is zero, else the next one. -/
def choose (key : String) (version : Option Nat) : Nat × Generator :=
  match version with
  | some (n + 1) => (n + 1, g)
  | _ => g.bump key

def plain (label : String) (version : Option Nat := none) :
    Symbol × Generator :=
  let (v, g) := g.choose label version
  (.plain label g.space v, g)

/-- A symbol that stands in a relation to another. The count is kept per text of the pair. -/
def derive (base : Symbol) (relation : String) (version : Option Nat := none) :
    Symbol × Generator :=
  let (v, g) := g.choose (base.text ++ "/" ++ relation) version
  (.derived relation base g.space v, g)

/-- A new version of a symbol, in the generator's own namespace. -/
def again : Symbol → Symbol × Generator
  | .plain label _ _ => g.plain label
  | .derived relation base _ _ => g.derive base relation

/-! ## Counts -/

theorem lookup_setCount (counts : List (String × Nat)) (key k : String) (n : Nat) :
    (setCount counts key n).lookup k = if k = key then some n else counts.lookup k := by
  induction counts with
  | nil => grind [setCount]
  | cons p rest ih => grind [setCount]

@[simp] theorem count_bump (g : Generator) (key k : String) :
    (g.bump key).2.count k = if k = key then g.count key + 1 else g.count k := by
  unfold bump count
  simp only [lookup_setCount]
  split <;> simp_all

end Generator

end DiffLang
