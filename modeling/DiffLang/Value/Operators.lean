import DiffLang.Value.StructuralMap

/-!
# Operators on values

Arithmetic operators beyond numbers: texts and sequences are joined and repeated, records and
partial applications are combined part by part, a primitive or a function goes only with itself.
The generic zero is neutral on the left of an addition.
-/

namespace DiffLang.Value

def repeated (xs : List Value) (n : Int) : List Value :=
  if xs.isEmpty then [] else (List.replicate n.toNat xs).flatten

/-- A value combined with itself is itself; with anything else it fails. -/
def idempotent (a b : Value) : Fallible Value := do
  if ← same a b then pure a
  else throw (.because .value ("Expected two identical instances, but got: `" ++ a.text ++
    "` and `" ++ b.text ++ "`"))

def meetsArray : Value → Bool
  | .tuple _ | .list _ | .str _ => true
  | v => v.isTyped || Number.isPlain v

/-- How often a sequence of some length may be repeated: the result has to fit into memory. -/
def checkRepetition (length : Nat) (n : Int) : Fallible Unit :=
  if !(ElementType.int 64).holds n then .error .overflow
  else if length * n.toNat > Nat.pow 2 33 then .error (.plain .memory)
  else .ok ()

def repeatedSequence (n : Int) : Value → Fallible Value
  | .tuple xs => do checkRepetition xs.length n; pure (.tuple (repeated xs n))
  | .list xs => do checkRepetition xs.length n; pure (.list (repeated xs n))
  | .str s => do
    checkRepetition s.length n
    pure (.str (if s = "" then s else String.join (List.replicate n.toNat s)))
  | _ => .error .typeMismatch

def repetition? : BinaryOp → Value → Value → Option (Value × Value)
  | .mul, .scalar t n, .tuple xs | .mul, .tuple xs, .scalar t n => some (.tuple xs, .scalar t n)
  | .mul, .scalar t n, .list xs | .mul, .list xs, .scalar t n => some (.list xs, .scalar t n)
  | .mul, .scalar t n, .str s | .mul, .str s, .scalar t n => some (.str s, .scalar t n)
  | _, _, _ => Option.none

/-- An operator of which an operand is typed. A whole number repeats a text or a sequence; all else
is done element by element. -/
def binaryTyped (op : BinaryOp) (a b : Value) : Fallible Value :=
  match repetition? op a b with
  | some (xs, .scalar (.int _) (.int n)) | some (xs, .scalar (.uint _) (.int n)) =>
    repeatedSequence n xs
  | some _ => .error .typeMismatch
  | Option.none =>
    if meetsArray a && meetsArray b then Tensor.binary op a b else .error .typeMismatch

def binaryLeaf (op : BinaryOp) (a b : Value) : Fallible Value :=
  match a with
  | .prim .. => idempotent a b
  | .machine .. | .direct .. => if op = .add then .ok a else idempotent a b
  | .zero => if op = .add then .ok b else .error .typeMismatch
  | _ =>
    if a.isTyped || b.isTyped then binaryTyped op a b
    else if Number.isPlain a && Number.isPlain b then Number.binary op a b
    else match op, a, b with
      | .add, .str x, .str y => .ok (.str (x ++ y))
      | .add, .tuple x, .tuple y => .ok (.tuple (x ++ y))
      | .add, .list x, .list y => .ok (.list (x ++ y))
      | .mul, _, _ =>
        match Number.whole? b, Number.whole? a with
        | some n, _ => repeatedSequence n a
        | _, some n => repeatedSequence n b
        | _, _ => .error .typeMismatch
      | _, _, _ => .error .typeMismatch

def binaryLeaves (op : BinaryOp) : List Value → Fallible Value
  | [a, b] => binaryLeaf op a b
  | _ => .error .typeMismatch

def binary (op : BinaryOp) (a b : Value) : Fallible Value :=
  match a with
  | .record .. | .closure .. => StructuralMap.map (binaryLeaves op) Option.none a [b]
  | _ => binaryLeaf op a b

def negative (v : Value) : Fallible Value :=
  match v with
  | .float x => .ok (.float (-x))
  | .int n => .ok (.int (-n))
  | .bool b => .ok (.int (if b then -1 else 0))
  | .complex a b => .ok (.complex (-a) (-b))
  | v => if v.isTyped then Tensor.negate v else .error .typeMismatch

/-- Whether a comparison of two values holds, as a value: arrays are compared element by
element. -/
def compareEq (a b : Value) : Fallible Value := do
  if decidesEquality a then pure (.bool (← same a b))
  else
    match a, b with
    | .scalar .., .str _ | .str _, .scalar .. | .scalar .., .none | .none, .scalar .. =>
      pure (.bool false)
    | _, _ =>
      if a.isTyped || b.isTyped then Tensor.compareElements .eq a b
      else pure (.bool (← same a b))

mutual

/-- The order of two values of one sort, or a failure if they have none. `lt` is asked for when
`less` is set, else `gt`. -/
def ordered (less : Bool) (a b : Value) : Fallible Bool :=
  match a with
  | .str x => match b with
    | .str y => .ok (if less then x < y else y < x)
    | _ => .error .typeMismatch
  | .tuple xs => match b with
    | .tuple ys => orderedAll less xs ys
    | _ => .error .typeMismatch
  | .list xs => match b with
    | .list ys => orderedAll less xs ys
    | _ => .error .typeMismatch
  | a =>
    if a.isTyped || b.isTyped then
      if meetsArray a && meetsArray b then do
        (← Tensor.compareElements (if less then .lt else .gt) a b).truth
      else .error .typeMismatch
    else if Number.isPlain a && Number.isPlain b then
      match a, b with
      | .complex .., _ | _, .complex .. => .error .typeMismatch
      | _, _ => .ok (Number.holds (if less then .lt else .gt) (Number.compare? a b))
    else .error .typeMismatch

/-- The order of two lists, decided by the first items that differ. -/
def orderedAll (less : Bool) : List Value → List Value → Fallible Bool
  | [], [] => .ok false
  | [], _ :: _ => .ok less
  | _ :: _, [] => .ok (!less)
  | x :: xs, y :: ys => do
    if ← same x y then orderedAll less xs ys else ordered less x y

end

def compareOrder (less : Bool) (a b : Value) : Fallible Value := do
  if (a.isTyped || b.isTyped) && meetsArray a && meetsArray b then
    Tensor.compareElements (if less then .lt else .gt) a b
  else pure (.bool (← ordered less a b))

end DiffLang.Value
