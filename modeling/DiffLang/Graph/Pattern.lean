import DiffLang.Graph.Store
import DiffLang.Value.Equality

/-!
# Patterns on graphs

A pattern describes a node and what it is computed from. One item of an application may stand for
a whole run of inputs. Matching tells which nodes it looked at, whether it succeeds or not: when
none of them changes, matching again gives the same answer.
-/

namespace DiffLang.Graph

/-- What a variable of a pattern may stand for. -/
inductive Condition where
  | anything
  | constant
  | function
  /-- A constant that is a global name and not a builtin operation. -/
  | globalName

inductive Pattern where
  | hole (name : String) (condition : Condition)
  | value (v : Value)
  | apply (items : List Pattern)
  /-- As an item of an application: a run of inputs that all meet a condition. -/
  | many (name : String) (condition : Condition)

/-- What a variable of a pattern stands for. -/
inductive Binding where
  | one (n : Option NodeId)
  | run (ns : List (Option NodeId))

abbrev Bindings := List (String × Binding)

/-- The outcome of matching: the nodes looked at, and the bindings if it succeeds. -/
structure Match where
  touched : List NodeId
  bindings : Option Bindings

inductive Subject where
  | node (n : Option NodeId)
  | run (ns : List (Option NodeId))

/-- Whether a node meets a condition. A missing node can only meet the weakest one. -/
def Condition.holds (s : Store) (c : Condition) (n : Option NodeId) : Fallible Bool :=
  match c, n with
  | .anything, _ => .ok true
  | _, none => .error .missingAttribute
  | .constant, some n => .ok (s.node n).isConstant
  | .function, some n => .ok (s.node n).graph?.isSome
  | .globalName, some n => .ok ((s.node n).isGlobal && !(s.node n).isBuiltin)

def clamp (n : Nat) (i : Int) : Nat :=
  if i < 0 then (n + i).toNat else min i.toNat n

def between {α : Type} (xs : List α) (lo hi : Int) : List α :=
  (xs.take (clamp xs.length hi)).drop (clamp xs.length lo)

def Pattern.isMany : Pattern → Bool
  | .many .. => true
  | _ => false

/-- The parts of an application, with the run that an item of the pattern stands for taken
together. -/
def group (items : List Pattern) (parts : List (Option NodeId)) : List Subject :=
  match items.findIdx? Pattern.isMany with
  | none => parts.map .node
  | some i =>
    let tail := items.length - i - 1
    let last : Int := (parts.length : Int) - tail
    (parts.take i).map .node ++ .run (between parts i last) ::
      (between parts last parts.length).map .node

def Subject.touched : Subject → List NodeId
  | .node n => n.toList
  | .run _ => []

def Condition.holdsAll (s : Store) (c : Condition) : List (Option NodeId) → Fallible Bool
  | [] => .ok true
  | n :: ns => do if ← c.holds s n then c.holdsAll s ns else pure false

mutual

def matchPattern (s : Store) (p : Pattern) (subject : Subject) (u : Bindings) :
    Fallible Match :=
  let touched := subject.touched
  match p, subject with
  | .apply items, .node n =>
    match n with
    | none => .error .missingAttribute
    | some n =>
      match (s.node n).application? with
      | none => .ok ⟨touched, none⟩
      | some parts =>
        let subjects := group items parts
        if subjects.length ≠ items.length then .ok ⟨touched, none⟩
        else matchItems s items subjects touched u
  | .hole name c, .node n => do
    if ← c.holds s n then pure ⟨touched, some (u ++ [(name, .one n)])⟩ else pure ⟨touched, none⟩
  | .many name c, .run ns => do
    if ← c.holdsAll s ns then pure ⟨touched, some (u ++ [(name, .run ns)])⟩
    else pure ⟨touched, none⟩
  | .value v, .node n =>
    match n with
    | none => .error .missingAttribute
    | some n =>
      match (s.node n).value with
      | some w => do if ← v.same w then pure ⟨touched, some u⟩ else pure ⟨touched, none⟩
      | none => .ok ⟨touched, none⟩
  | _, _ => .ok ⟨touched, none⟩

/-- Matches the items of an application in order, until one fails. -/
def matchItems (s : Store) (ps : List Pattern) (subjects : List Subject)
    (touched : List NodeId) (u : Bindings) : Fallible Match :=
  match ps, subjects with
  | p :: ps, x :: xs => do
    let m ← matchPattern s p x u
    let touched := touched ++ m.touched
    match m.bindings with
    | none => pure ⟨touched, none⟩
    | some u => matchItems s ps xs touched u
  | _, _ => .ok ⟨touched, some u⟩

end

/-- Matches a pattern with a node. The nodes looked at are listed once. -/
def Pattern.matches (p : Pattern) (s : Store) (n : NodeId) : Fallible Match := do
  let m ← matchPattern s p (.node (some n)) []
  pure ⟨m.touched.eraseDups, m.bindings⟩

/-! ## Rules -/

inductive Rule where
  | multiplyByOneLeft
  | multiplyByOneRight
  | dropCopy
  | evalConstant
  | resolveGlobal
  | inline
  | expandPartial
  | indexIntoTuple
deriving DecidableEq

namespace Rule

def all : List Rule :=
  [.multiplyByOneLeft, .multiplyByOneRight, .dropCopy, .evalConstant, .resolveGlobal, .inline,
   .expandPartial, .indexIntoTuple]

def name : Rule → String
  | .multiplyByOneLeft => "multiply_by_one_l"
  | .multiplyByOneRight => "multiply_by_one_r"
  | .dropCopy => "drop_copy"
  | .evalConstant => "eval_constant"
  | .resolveGlobal => "resolve_global"
  | .inline => "inline"
  | .expandPartial => "expand_partial_app"
  | .indexIntoTuple => "index_into_tuple"

def ofName? (n : String) : Option Rule := all.find? fun r => r.name = n

def operation (name : String) : Pattern := .value (.symbol (.builtin name))

def pattern : Rule → Pattern
  | .multiplyByOneLeft =>
    .apply [operation "multiply", .value (.float 1), .hole "X" .anything]
  | .multiplyByOneRight =>
    .apply [operation "multiply", .hole "X" .anything, .value (.float 1)]
  | .dropCopy => .apply [operation "identity", .hole "X" .anything]
  | .evalConstant => .apply [.hole "V1" .constant, .many "V2" .constant]
  | .resolveGlobal => .hole "GV" .globalName
  | .inline => .apply [.hole "L" .function, .many "X" .anything]
  | .expandPartial =>
    .apply [.apply [operation "partial", .hole "X" .anything, .many "Y" .anything],
      .many "Z" .anything]
  | .indexIntoTuple =>
    .apply [operation "index", .apply [operation "mktuple", .many "X" .anything],
      .hole "V" .constant]

end Rule

end DiffLang.Graph
