import DiffLang.Report

/-!
# Reports on values

What operations and operators give on values, and the texts and types of values.
-/

namespace DiffLang.Report

def primitive (name : String) (args : List Data) : Run Data := do
  let args ← plainValues args
  let name := Operation.ofName name
  if ["grad1", "grad2", "grad3"].contains name then throw .typeMismatch
  if !Primitive.isDefined name then throw .missingKey
  value (← Primitive.call Engine.top name args)

/-! ## Operators -/

inductive Operator where
  | arithmetic (op : BinaryOp)
  | equal
  /-- The union of two records of one tag; the fields of the second win. -/
  | union

def unionOf : Value → Value → Fallible Value
  | .record t fs, .record u gs =>
    if t = u then
      .ok (.record t (gs.foldl (fun acc (k, v) =>
        Session.put (fun a b => a.innerText = b.innerText) k v acc) fs))
    else .error .broken
  | .bool a, .bool b => .ok (.bool (a || b))
  | a, b =>
    match Number.whole? a, Number.whole? b with
    | some m, some n =>
      if m ≥ 0 ∧ n ≥ 0 then .ok (.nat (m.toNat ||| n.toNat)) else .error .typeMismatch
    | _, _ => .error .typeMismatch

def Operator.apply : Operator → List Value → Fallible Value
  | .arithmetic op, [a, b] => Value.binary op a b
  | .equal, [a, b] => Value.compareEq a b
  | .union, [a, b] => unionOf a b
  | _, _ => .error .typeMismatch

def operator (op : Operator) (args : List Data) : Run Data := do
  let args ← plainValues args
  value (← Run.lift (op.apply args))

def structuralMap (leaf : List Value → Fallible Value) (args : List Data) : Run Data := do
  match ← plainValues args with
  | [] => throw .outOfRange
  | v :: others => value (← Run.lift (StructuralMap.map leaf none v others))

/-! ## Texts and types -/

def valueTexts (values : List Data) : Run Data := do
  let vs ← plainValues values
  pure (.texts (vs.map Value.text))

def valueTypes (values : List Data) : Run Data := do
  let ds ← values.mapM fun d => valueStep do
    Run.lift (Types.typeOf (← plainValue d))
  pure (.list ds)

/-! ## Records -/

def unsettable (target name : Value) : Failure :=
  match target with
  | .record .. => .because .attribute
      s!"Cannot set attribute '{name.text}' of {target.text} -- Records are read-only."
  | _ => .missingAttribute

def sameRecordType : Value → Value → Bool
  | .record _ fs, .record _ gs =>
    fs.length = gs.length && fs.all fun (k, _) => gs.any fun (j, _) => j.innerText = k.innerText
  | _, _ => false

def uniqueValues : Data :=
  .texts ([Value.zero, .any, .marker "VALUE", .marker "ERROR", .marker "FN", .marker "OUT",
    .marker "NO_VALUE"].map Value.text)

end DiffLang.Report
