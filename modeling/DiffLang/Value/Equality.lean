import DiffLang.Value.Arithmetic
import DiffLang.Value.Text

/-!
# Equality of values

Numbers are equal by what they stand for, whatever their kind; sequences by their parts; types by
name and elements; abstract values by their parts without their depth; everything with a number of
its own by that number. Records, partial applications and exceptions have no equality: no two of
them are the same. Comparing an array with several elements gives no single answer, and fails
inside of a larger comparison.
-/

namespace DiffLang.Value

/-- Whether a list has a field that two tests accept, the first on the key, the second on the
value under that key. -/
def hasField (isKey isValue : Value → Fallible Bool) : List (Value × Value) → Fallible Bool
  | [] => .ok false
  | (k, v) :: rest => do
    if ← isKey k then isValue v else hasField isKey isValue rest

def hasItem (isItem : Value → Fallible Bool) : List Value → Fallible Bool
  | [] => .ok false
  | v :: rest => do
    if ← isItem v then pure true else hasItem isItem rest

/-- What a value without parts is known by. -/
inductive Identity where
  | text (sort text : String)
  | number (sort : String) (n : Nat)
  | symbol (sort : String) (bank : Bank) (s : Symbol)
deriving DecidableEq

/-- The identity of a value that is equal to those of the same sort and number, name or symbol. -/
def identity? : Value → Option Identity
  | .none => some (.text "none" "")
  | .str s => some (.text "str" s)
  | .zero => some (.text "zero" "")
  | .any => some (.text "any" "")
  | .marker n => some (.text "marker" n)
  | .atom n => some (.text "atom" n)
  | .prim b s _ => some (.symbol "prim" b s)
  | .symbol s => some (.symbol "symbol" .standard s)
  | .logicVar n => some (.text "variable" n)
  | .restrictedVar n _ => some (.text "restricted" n)
  | .filteredVar n _ => some (.text "filtered" n)
  | .lambda n => some (.number "lambda" n)
  | .graph n _ => some (.number "graph" n)
  | .function n _ => some (.number "function" n)
  | .deferred n _ => some (.number "deferred" n)
  | .foreign n => some (.text "foreign" n)
  | .machine _ n _ => some (.number "machine" n)
  | .exported n _ _ _ => some (.number "exported" n)
  | .direct _ n _ => some (.number "direct" n)
  | .term k t => some (.text k t)
  | .thing l => some (.text "thing" l)
  | .wrapped e => some (.text "wrapped" e.text)
  | _ => Option.none

/-- Whether a value on the left of a comparison says by itself what it equals, even arrays. -/
def decidesEquality : Value → Bool
  | .prim .. | .type .. | .abstract .. | .symbol _ | .literal _ => true
  | _ => false

def sameNumber (a b : Value) : Fallible Bool :=
  if a.isTyped || b.isTyped then do (← Tensor.compareElements .eq a b).truth
  else .ok (Number.isPlain a && Number.isPlain b && Number.equal a b)

mutual

def same (a b : Value) : Fallible Bool :=
  match a with
  | .tuple xs => match b with
    | .tuple ys => sameAll xs ys
    | b => sameNumber (.tuple xs) b
  | .list xs => match b with
    | .list ys => sameAll xs ys
    | b => sameNumber (.list xs) b
  | .dict xs => match b with
    | .dict ys => if xs.length = ys.length then sameFields xs ys else .ok false
    | _ => .ok false
  | .set xs => match b with
    | .set ys => if xs.length = ys.length then sameMembers xs ys else .ok false
    | _ => .ok false
  | .slice p q r => match b with
    | .slice x y z => do
      if ← same p x then (if ← same q y then same r z else pure false) else pure false
    | _ => .ok false
  | .type n xs => match b with
    | .type k ys => if n = k then sameOption xs ys else .ok false
    | _ => .ok false
  | .abstract xs _ => match b with
    | .abstract ys _ => if xs.length = ys.length then sameFields xs ys else .ok false
    | _ => .ok false
  | .record .. | .closure .. | .fork _ | .exception .. | .untested _ => .ok false
  | .literal x => match b with
    | .literal y => same x y
    | _ => .ok false
  | a => match identity? a, identity? b with
    | some x, some y => .ok (x = y)
    | _, _ => if decidesEquality a then .ok false else sameNumber a b

def sameOption : Option (List Value) → Option (List Value) → Fallible Bool
  | some xs, some ys => sameAll xs ys
  | Option.none, Option.none => .ok true
  | _, _ => .ok false

def sameAll : List Value → List Value → Fallible Bool
  | [], [] => .ok true
  | a :: as, b :: bs => do
    if ← same a b then sameAll as bs else pure false
  | _, _ => .ok false

/-- Whether every field of the first list is in the second with an equal value. -/
def sameFields : List (Value × Value) → List (Value × Value) → Fallible Bool
  | [], _ => .ok true
  | (k, v) :: rest, others => do
    if ← hasField (same k) (same v) others then sameFields rest others else pure false

/-- Whether every item of the first list is in the second. -/
def sameMembers : List Value → List Value → Fallible Bool
  | [], _ => .ok true
  | v :: rest, others => do
    if ← hasItem (same v) others then sameMembers rest others else pure false

end

def agrees (a b : Value) : Bool :=
  match same a b with
  | .ok r => r
  | .error _ => false

/-! ## Keys -/

mutual

/-- Whether a value can be a key: one that holds changeable parts cannot. -/
def isHashable : Value → Bool
  | .list _ | .dict _ | .set _ | .slice .. | .array .. => false
  | .tuple xs => allHashable xs
  | .type _ (some xs) => allHashable xs
  | .abstract parts _ => allPairsHashable parts
  | .literal v => isHashable v
  | _ => true

def allHashable : List Value → Bool
  | [] => true
  | v :: vs => v.isHashable && allHashable vs

def allPairsHashable : List (Value × Value) → Bool
  | [] => true
  | (_, v) :: rest => v.isHashable && allPairsHashable rest

end

end DiffLang.Value
