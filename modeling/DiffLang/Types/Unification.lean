import DiffLang.Types

/-!
# Unification

Makes two terms equal by giving values to variables. Sides that are equal already need nothing; a
variable on the left is given the right side, or else one on the right the left side; tuples and
lists agree item by item, types by name and elements. A variable may occur in what it is given.
Some variables take only certain values, which is checked at the end.
-/

namespace DiffLang.Unification

/-- What variables are given, the earliest first. -/
abbrev Substitution := List (Value × Value)

def isVariable : Value → Bool
  | .logicVar _ | .restrictedVar .. | .filteredVar .. => true
  | _ => false

variable (s : Substitution)

def value? (v : Value) : Option Value :=
  (s.find? fun (k, _) => k.agrees v).map (·.2)

/-- Follows variables to what they are given, as far as that is a variable. -/
def walk : Nat → Value → Value
  | 0, v => v
  | fuel + 1, v =>
    if isVariable v then
      match value? s v with
      | some w => walk fuel w
      | none => v
    else v

def sequence? : Value → Option (List Value)
  | .tuple vs | .list vs => some vs
  | _ => none

mutual

/-- Unifies two terms that nest at most so deep. Two terms that do not unify give nothing. -/
def unifyWithin : Nat → Value → Value → Substitution → Fallible (Option Substitution)
  | 0, _, _, _ => .error .tooDeep
  | fuel + 1, a, b, s => do
    let a := walk s (s.length + 1) a
    let b := walk s (s.length + 1) b
    if ← Value.same a b then pure (some s)
    else if isVariable a then pure (some (s ++ [(a, b)]))
    else if isVariable b then pure (some (s ++ [(b, a)]))
    else
      match sequence? a, sequence? b with
      | some xs, some ys => unifyAll fuel xs ys s
      | _, _ =>
        match a, b with
        | .type n (some xs), .type m (some ys) =>
          if n = m then unifyAll fuel xs ys s else pure none
        | _, _ => pure none

def unifyAll : Nat → List Value → List Value → Substitution → Fallible (Option Substitution)
  | _, [], [], s => .ok (some s)
  | 0, _ :: _, _ :: _, _ => .error .tooDeep
  | fuel + 1, a :: as, b :: bs, s => do
    match ← unifyWithin fuel a b s with
    | some s => unifyAll fuel as bs s
    | none => pure none
  | _, _, _, _ => .ok none

end

def depth : Nat := 10000

def isOfKind (kind : String) (v : Value) : Bool :=
  match kind, v with
  | "int", .int _ | "int", .bool _ | "str", .str _ | "tuple", .tuple _ | "Type", .type .. => true
  | _, _ => false

def allows (k v : Value) : Fallible Bool :=
  match k with
  | .restrictedVar _ legal =>
    if v.isHashable then Value.hasItem (Value.same v) legal else .error .typeMismatch
  | .filteredVar _ kind => .ok (isOfKind kind v)
  | _ => .ok true

def allowsAll : Substitution → Fallible Bool
  | [] => .ok true
  | (k, v) :: rest => do
    if ← allows k v then allowsAll rest else pure false

def unify (a b : Value) : Fallible (Option Substitution) := do
  match ← unifyWithin depth a b [] with
  | none => pure none
  | some s => pure (if ← allowsAll s then some s else none)

mutual

def reifyWithin : Nat → Value → Fallible Value
  | 0, _ => .error .tooDeep
  | fuel + 1, v => do
    if isVariable v then
      match value? s v with
      | some w => reifyWithin fuel w
      | none => pure v
    else match v with
      | .tuple vs => do pure (.tuple (← reifyAll fuel vs))
      | .list vs => do pure (.list (← reifyAll fuel vs))
      | .type n (some vs) => do pure (.type n (some (← reifyAll fuel vs)))
      | v => pure v

def reifyAll : Nat → List Value → Fallible (List Value)
  | _, [] => .ok []
  | 0, _ :: _ => .error .tooDeep
  | fuel + 1, v :: vs => do
    pure ((← reifyWithin fuel v) :: (← reifyAll fuel vs))

end

def reify (v : Value) : Fallible Value := reifyWithin s depth v

end DiffLang.Unification
