import DiffLang.Gradient
import DiffLang.Types
import DiffLang.Value.Matrix

/-!
# Primitives

What the builtin operations do to values. Arithmetic and the operators of differentiation map over
the structure of their arguments; the others take them as they are. A primitive that is given a
function calls it, and the augmented form of a function is looked up where the function came from:
both are asked of a host.
-/

namespace DiffLang

/-- What primitives ask of the rest of the system. -/
structure Host where
  call : Value → List Value → Run Value
  get : Home → Value → Run Value
  display : String → Graph.GraphId → Run Unit

namespace Primitive

/-! ## Functions as values -/

/-- A function of the language behind a value, with the place it was handed out by. -/
structure Origins where
  home : Home
  lambda : TermId
  primal : Option Symbol

def originsOf (s : Session) : Value → Option Origins
  | .machine id _ _ =>
    (s.machineFunctions[id]?).bind fun f =>
      f.lambda.map fun l => ⟨.stage f.stage, l, f.primal⟩
  | .direct id _ _ =>
    (s.directFunctions[id]?).map fun f =>
      ⟨.environment f.home, f.lambda, (s.lambda? f.lambda).bind Lambda.primal⟩
  | _ => none

def isInert : Value → Bool
  | .int _ | .float _ | .bool _ | .str _ | .none | .zero | .array .. | .scalar .. => true
  | _ => false

/-! ## Differentiation -/

variable (host : Host)

/-- The augmented form of a function that has `captured` arguments already. -/
def augmentFunction (v : Value) (captured : Nat) : Run Value := do
  match v with
  | .prim _ op home =>
    match home with
    | some h => host.get h (.lambda (← Gradient.find Gradient.depth op captured))
    | none => throw .missingAttribute
  | v =>
    match originsOf (← get) v with
    | some o =>
      let ref ← Program.refOf o.lambda
      host.get o.home (.lambda (← Gradient.find Gradient.depth ref.sym captured))
    | none => throw (.because .type s!"J_fn applied on wrong type: {v.text}")

def augment : List Value → Run Value
  | [v] => do
    match v with
    | .prim .. | .machine .. | .direct .. => augmentFunction host v 0
    | v =>
      if isInert v then pure v
      else throw (.because .type s!"Invalid argument for J: {v.text}")
  | _ => throw .typeMismatch

def augmentClosure (fn : Value) (args : List Value) (mapped : Run Value) : Run Value := do
  pure (.closure (← augmentFunction host fn args.length) (StructuralMap.items (← mapped)))

def restoreFunction (v : Value) : Run Value := do
  match originsOf (← get) v with
  | some ⟨home, _, some primal⟩ =>
    let w ← host.get home (.symbol primal)
    match w with
    | .prim .. | .machine .. | .direct .. => pure w
    | w =>
      let t ← Run.lift (Types.typeOf w)
      throw (.because .exception
        s!"Should be Function, but found: {w.text}, type {t.text}, for {primal.text}")
  | _ => throw .broken

/-- Undoes the augmentation of a value without structure. -/
def restore : List Value → Run Value
  | [v] => do
    match v with
    | .prim .. => throw (.because .exception "Primitives have no primals.")
    | .machine .. | .direct .. => restoreFunction host v
    | v =>
      if isInert v then pure v
      else throw (.because .type s!"Invalid argument for Jinv: {v.text} ({v.sortText})")
  | _ => throw .typeMismatch

def zeroLeaf : List Value → Run Value
  | [v] =>
    match v with
    | .int _ | .float _ | .bool _ => pure (.int 0)
    | .scalar (.int 64) _ | .scalar (.float 64) _ => pure (.int 0)
    | .prim .. | .machine .. | .direct .. | .none | .zero => pure v
    | v => throw (.because .type s!"Cannot create a zero conformant with {v.text}")
  | _ => throw .typeMismatch

def zeroClosure (_ : Value) (_ : List Value) (mapped : Run Value) : Run Value := mapped

/-! ## Arithmetic -/

def binaryLeaf (op : BinaryOp) : List Value → Run Value
  | [a, b] => Run.lift (Value.binary op a b)
  | _ => throw .typeMismatch

def unaryLeaf (f : Value → Fallible Value) : List Value → Run Value
  | [a] => Run.lift (f a)
  | _ => throw .typeMismatch

structure Mapping where
  leaf : List Value → Run Value
  onClosure : Option (Value → List Value → Run Value → Run Value) := none

def mappings : List (String × Mapping) :=
  [("add", ⟨binaryLeaf .add, none⟩),
   ("subtract", ⟨binaryLeaf .sub, none⟩),
   ("multiply", ⟨binaryLeaf .mul, none⟩),
   ("divide", ⟨binaryLeaf .div, none⟩),
   ("power", ⟨binaryLeaf .pow, none⟩),
   ("unary_subtract", ⟨unaryLeaf Value.negative, none⟩),
   ("exp", ⟨unaryLeaf (Tensor.elementary Float.exp), none⟩),
   ("log", ⟨unaryLeaf (Tensor.elementary Float.log), none⟩),
   ("J", ⟨augment host, some (augmentClosure host)⟩),
   ("Jinv", ⟨restore host, none⟩),
   ("zeros_like", ⟨zeroLeaf, some zeroClosure⟩)]

/-- An operation that maps over the structure of its first argument. -/
def mapped (m : Mapping) : List Value → Run Value
  | [] => throw .outOfRange
  | v :: rest => StructuralMap.map m.leaf m.onClosure v rest

/-! ## Sequences and attributes -/

def below (v : Value) : Fallible Value :=
  match v.index? with
  | some n => .ok (.list ((List.range n.toNat).map .nat))
  | none => .error .typeMismatch

def product (a b : Value) : Fallible Value :=
  if (a.isTyped || b.isTyped) && Value.meetsArray a && Value.meetsArray b then
    Tensor.matrixProduct a b
  else .error .typeMismatch

/-- The sum of the elements of a value; one that is no sequence of numbers is its own sum. -/
def total : Value → Fallible Value
  | .none => .ok .none
  | .zero => .ok .zero
  | v => Tensor.sum v

def transposed : Value → Fallible Value
  | .array t shape data => .ok (Tensor.transpose t shape data)
  | .scalar t v => .ok (.scalar t v)
  | _ => .error .missingAttribute

def shapeOf : Value → Fallible Value
  | .array _ shape _ => .ok (.tuple (shape.map .nat))
  | .scalar .. => .ok (.tuple [])
  | _ => .error .missingAttribute

def spreadOut (v : Value) : Fallible Value := do
  pure (.tuple (← Tensor.broadcast (← v.walk)))

def closureOf (fn args : Value) : Fallible Value := do pure (.closure fn (← args.walk))

def pairs (items : List Value) : List Value :=
  items.zipIdx.map fun (v, i) => .tuple [.nat i, v]

def numbered (v : Value) : Fallible Value :=
  match v with
  | .str _ => .ok (.str "<enumerate object at 0x0>")
  | v => do v.rebuild (pairs (← v.walk))

def pairOf (v : Value) : Fallible (Value × Value) := do
  match v with
  | .tuple [a, b] | .list [a, b] => pure (a, b)
  | v =>
    match ← v.walk with
    | [a, b] => pure (a, b)
    | _ => throw .badValue

def replaced (t i v : Value) : Fallible Value := do
  let items ← (← (← numbered t).walk).mapM fun p => do
    let (j, w) ← pairOf p
    pure (if ← (← Value.compareEq i j).truth then v else w)
  t.rebuild items

def attributeOf (v name : Value) : Fallible Value :=
  match name with
  | .str n => v.member n
  | _ => .error .typeMismatch

def withAttribute (v name w : Value) : Fallible Value :=
  match v with
  | .record tag fields =>
    -- fields of these names take the place of the record's own way to be varied and copied
    if ["__variant__", "__getstate__"].any fun n => (StructuralMap.textField? n fields).isSome then
      .error .typeMismatch
    else if name.isHashable then
      .ok (.record tag (Session.put (fun a b => a.innerText = b.innerText) name w fields))
    else .error .typeMismatch
  | v =>
    match name with
    | .str n =>
      match v with
      | .closure fn args =>
        match n, w with
        | "fn", w => .ok (.closure w args)
        | "args", .tuple ws => .ok (.closure fn ws)
        | _, _ => .ok v
      | .type k es =>
        match n, w with
        | "name", .str k' => .ok (.type k' es)
        | "elem_types", .tuple ws => .ok (.type k (some ws))
        | _, _ => .ok v
      | .prim .. | .machine .. | .direct .. | .atom _ | .exception .. | .symbol _ | .zero
      | .any | .marker _ | .function .. | .deferred .. | .exported .. | .thing _ => .ok v
      | _ => .error .missingAttribute
    | _ => .error .typeMismatch

/-! ## Functions as arguments -/

def mapOver (f xs : Value) : Run Value := do
  let items ← Run.lift xs.walk
  match xs with
  | .str _ => pure (.str "<map object at 0x0>")
  | .array .. | .record .. => throw .typeMismatch
  | xs =>
    let items ← items.mapM fun x => host.call f [x]
    Run.lift (xs.rebuild items)

def combine (f xs : Value) : Run Value := do
  let first ← Run.lift (xs.item (.int 0))
  let rest ← Run.lift (do (← xs.item (.slice (.int 1) .none .none)).walk)
  rest.foldlM (fun v x => host.call f [v, x]) first

def choose (c t f : Value) : Run Value := do
  pure (if ← Run.lift c.truth then t else f)

def branch (c t f : Value) : Run Value := do
  if ← Run.lift c.truth then host.call t [] else host.call f []

/-! ## Effects -/

def fail : Value → Failure
  | .foreign n =>
    if Foreign.failures.contains n then { kind := .ofLabel n, stated := true }
    else .typeMismatch
  | v => .raising v

def print (v : Value) : Run Value := do
  modify fun s => { s with printed := s.printed ++ v.text ++ "\n" }
  pure .none

def requireTrue (c message : Value) : Run Value := do
  if ← Run.lift c.truth then pure .none
  else throw { kind := .assertion, args := [message], stated := true }

/-- Joins sequences of one sort. There is nothing that can join them, so this only tells which
way it fails. -/
def joined (vs : List Value) : Failure :=
  let isList : Value → Bool
    | .list _ => true
    | _ => false
  let isTuple : Value → Bool
    | .tuple _ => true
    | _ => false
  if vs.isEmpty then .outOfRange
  else if vs.all isList || vs.all isTuple then .typeMismatch
  else .broken

def pause : Value := .thing "Breakpoint"

/-! ## All operations -/

def lift1 (f : Value → Fallible Value) (x : Value) : Run Value := Run.lift (f x)

def lift2 (f : Value → Value → Fallible Value) (x y : Value) : Run Value := Run.lift (f x y)

def unary : List (String × (Value → Run Value)) :=
  [("transpose", lift1 transposed),
   ("sum", lift1 total),
   ("broadcast", lift1 spreadOut),
   ("len", lift1 fun x => do pure (.nat (← x.size))),
   ("range", lift1 below),
   ("closure_fn", lift1 fun x => x.member "fn"),
   ("closure_args", lift1 fun x => x.member "args"),
   ("partial", fun x => pure (.closure x [])),
   ("first", lift1 fun x => x.item (.int 0)),
   ("second", lift1 fun x => x.item (.int 1)),
   ("enumerate", lift1 numbered),
   ("identity", pure),
   ("raise_exception", fun x => throw (fail x)),
   ("Exception", fun x => pure (.exception .exception [x])),
   ("print", print),
   ("type", lift1 Types.typeOf),
   ("shape", lift1 shapeOf),
   ("slice", fun x => pure (.slice x .none .none)),
   ("breakpoint", fun _ => pure pause)]

def binary : List (String × (Value → Value → Run Value)) :=
  [("dot", lift2 product),
   ("equal", lift2 Value.compareEq),
   ("less", lift2 (Value.compareOrder true)),
   ("greater", lift2 (Value.compareOrder false)),
   ("fit", lift2 Tensor.fit),
   ("Closure", lift2 closureOf),
   ("index", lift2 Value.item),
   ("getattr", lift2 attributeOf),
   ("map", mapOver host),
   ("reduce", combine host),
   ("assert_true", requireTrue),
   ("slice", fun x y => pure (.slice x y .none))]

def ternary : List (String × (Value → Value → Value → Run Value)) :=
  [("setslice", fun x y z => Run.lift (replaced x y z)),
   ("setattr", fun x y z => Run.lift (withAttribute x y z)),
   ("switch", choose),
   ("if", branch host),
   ("slice", fun x y z => pure (.slice x y z))]

def variadic : List (String × (List Value → Run Value)) :=
  [("mktuple", fun xs => pure (.tuple xs)),
   ("mklist", fun xs => pure (.list xs)),
   ("concat", fun xs => throw (joined xs)),
   ("partial", fun xs => match xs with
     | [] => throw .typeMismatch
     | fn :: args => pure (.closure fn args)),
   ("breakpoint", fun xs => if xs.isEmpty then pure pause else throw .typeMismatch)]

def plain (name : String) (args : List Value) : Run Value :=
  let other := match variadic.lookup name with
    | some f => f args
    | none => throw .typeMismatch
  match args with
  | [x] => match unary.lookup name with
    | some f => f x
    | none => other
  | [x, y] => match (binary host).lookup name with
    | some f => f x y
    | none => other
  | [x, y, z] => match (ternary host).lookup name with
    | some f => f x y z
    | none => other
  | _ => other

def call (name : String) (args : List Value) : Run Value :=
  match (mappings host).lookup name with
  | some m => mapped m args
  | none => plain host name args

def isDefined (name : String) : Bool := (Operation.params? name).isSome

end Primitive

end DiffLang
