import DiffLang.Term.Reading

/-!
# The names of a program text

Which names a piece of text looks up, and which it sets, read off the text alone. A loop is read
twice, and what the first reading learns about the names is what the second one relies on; both are
described by these lists.

Inside a backpropagator (`g`) a call of `GRAD` is a form of its own, whose name is not looked up.
-/

namespace DiffLang.Reading

open Source

def without (R B : List String) : List String := R.filter fun n => !B.contains n

@[simp] theorem mem_without {n : String} {R B : List String} :
    n ∈ without R B ↔ n ∈ R ∧ n ∉ B := by
  simp [without]

theorem without_nil (R : List String) : without R [] = R := by
  simp [without]

def groupsGradients (g : Bool) : Expr → Bool
  | .name _ "GRAD" => g
  | _ => false

mutual

def namesOf (g : Bool) : Expr → List String
  | .name _ id => [id]
  | .constant .. | .other .. => []
  | .binary _ _ left right => namesOf g left ++ namesOf g right
  | .unary _ _ operand => namesOf g operand
  | .compare _ left _ rights => namesOf g left ++ namesOfFirst g rights
  | .call _ fn args _ => namesOfAll g args ++ if groupsGradients g fn then [] else namesOf g fn
  | .attribute _ object _ => namesOf g object
  | .subscript _ object index => namesOf g object ++ namesOf g index
  | .slice _ lower upper step => namesOfOption g lower ++ namesOfOption g upper ++ namesOfOption g step
  | .tuple _ items => namesOfAll g items
  | .lambda _ params body => without (namesOf g body) ("#lambda" :: params.names)

def namesOfAll (g : Bool) : List Expr → List String
  | [] => []
  | e :: es => namesOf g e ++ namesOfAll g es

def namesOfFirst (g : Bool) : List Expr → List String
  | [] => []
  | e :: _ => namesOf g e

def namesOfOption (g : Bool) : Option Expr → List String
  | none => []
  | some e => namesOf g e

end

mutual

def patternNames : Expr → List String
  | .tuple _ items => patternsNames items
  | .name _ id => [id]
  | _ => []

def patternsNames : List Expr → List String
  | [] => []
  | e :: es => patternNames e ++ patternsNames es

end

def targetNames : Expr → List String
  | .tuple pos items => patternNames (.tuple pos items)
  | .name _ id => [id]
  | .subscript _ object _ | .attribute _ object _ => (plainName? object).toList
  | _ => []

/-- What a statement leaves noted about the function: a name was set, or the function has
returned. -/
inductive Note where
  | sets (n : String)
  | returns
deriving DecidableEq

def namesSet (ns : List Note) : List String :=
  ns.filterMap fun
    | .sets n => some n
    | .returns => none

@[simp] theorem mem_namesSet {n : String} {ns : List Note} : n ∈ namesSet ns ↔ .sets n ∈ ns := by
  unfold namesSet
  rw [List.mem_filterMap]
  constructor
  · rintro ⟨m, hm, h⟩
    cases m with
    | sets k =>
      injection h with h
      rwa [h] at hm
    | returns => cases h
  · exact fun h => ⟨_, h, rfl⟩

/-- What a conditional leaves noted, by one of its branches: what is set in branches that return is
forgotten. -/
def branchNotes (ns : List Note) : List Note := if .returns ∈ ns then [.returns] else ns

mutual

def notesBy : Stmt → List Note
  | .assign _ [target] _ => (targetNames target).map .sets
  | .augment _ target .. => (plainName? target).toList.map .sets
  | .ret .. | .raise .. => [.returns]
  | .branch _ _ body _ => branchNotes (notesByAll body)
  | .whileLoop _ _ body | .forLoop _ _ _ body _ => (namesSet (notesByAll body)).map .sets
  | _ => []

def notesByAll : List Stmt → List Note
  | [] => []
  | s :: rest => notesBy s ++ notesByAll rest

end

def setByAll (body : List Stmt) : List String := namesSet (notesByAll body)

def boundBy : Stmt → List String
  | .define _ name .. => [name]
  | s => namesSet (notesBy s)

def boundByAll (body : List Stmt) : List String := body.flatMap boundBy

def namesOfAssign (g : Bool) (value : Expr) : Expr → List String
  | .subscript _ object index => namesOf g value ++ namesOf g object ++ namesOf g index
  | .attribute _ object _ => namesOf g object ++ namesOf g value
  | _ => namesOf g value

mutual

def namesIn (g : Bool) : Stmt → List String
  | .assign _ [target] value => namesOfAssign g value target
  | .augment _ target _ value => namesOf g value ++ (plainName? target).toList
  | .expr _ value => namesOf g value
  | .ret _ value | .raise _ value => namesOfOption g value
  | .define _ name params _ body => without (namesInAll g body) (name :: params.names)
  | .branch _ test body orelse => namesInAll g body ++ namesInAll g orelse ++ namesOf g test
  | .whileLoop _ test body => namesOf g test ++ namesInAll g body ++ setByAll body
  | .forLoop _ _ iter body _ => namesInAll g body ++ setByAll body ++ namesOf g iter
  | _ => []

/-- The names that statements look up, of those that no statement before them has set. -/
def namesInAll (g : Bool) : List Stmt → List String
  | [] => []
  | s :: rest => namesIn g s ++ without (namesInAll g rest) (boundBy s)

end

theorem namesSet_subset_boundBy : ∀ s : Stmt, namesSet (notesBy s) ⊆ boundBy s
  | .define .. => by simp [notesBy, namesSet]
  | .assign .. | .augment .. | .expr .. | .forLoop .. | .whileLoop .. | .branch .. | .ret ..
  | .raise .. | .other .. => List.Subset.refl _

theorem setByAll_subset_boundByAll (body : List Stmt) : setByAll body ⊆ boundByAll body := by
  induction body with
  | nil => simp [setByAll, notesByAll, namesSet]
  | cons s rest ih =>
    intro n hn
    rw [setByAll, mem_namesSet, notesByAll, List.mem_append] at hn
    rcases hn with hn | hn
    · exact List.mem_append.mpr (.inl (namesSet_subset_boundBy s (mem_namesSet.mpr hn)))
    · exact List.mem_append.mpr (.inr (ih (mem_namesSet.mpr hn)))

/-! ## Functions -/

/-- What a text says about a function: its parameters, and the names that it looks up around it. -/
structure Header where
  params : Params
  outside : List String

mutual

/-- The functions of an expression, in the order in which they are made. -/
def functionsOf (g : Bool) : Expr → List Header
  | .name .. | .constant .. | .other .. => []
  | .binary _ _ left right => functionsOf g left ++ functionsOf g right
  | .unary _ _ operand => functionsOf g operand
  | .compare _ left _ rights => functionsOf g left ++ functionsOfFirst g rights
  | .call _ fn args _ => functionsOfAll g args ++ functionsOf g fn
  | .attribute _ object _ => functionsOf g object
  | .subscript _ object index => functionsOf g object ++ functionsOf g index
  | .slice _ lower upper step =>
    functionsOfOption g lower ++ functionsOfOption g upper ++ functionsOfOption g step
  | .tuple _ items => functionsOfAll g items
  | .lambda pos params body => functionsOf g body ++ [⟨params, namesOf g (.lambda pos params body)⟩]

def functionsOfAll (g : Bool) : List Expr → List Header
  | [] => []
  | e :: es => functionsOf g e ++ functionsOfAll g es

def functionsOfFirst (g : Bool) : List Expr → List Header
  | [] => []
  | e :: _ => functionsOf g e

def functionsOfOption (g : Bool) : Option Expr → List Header
  | none => []
  | some e => functionsOf g e

end

def functionsOfAssign (g : Bool) (value : Expr) : Expr → List Header
  | .subscript _ object index => functionsOf g value ++ functionsOf g object ++ functionsOf g index
  | .attribute _ object _ => functionsOf g object ++ functionsOf g value
  | _ => functionsOf g value

mutual

def functionsIn (g : Bool) : Stmt → List Header
  | .assign _ [target] value => functionsOfAssign g value target
  | .augment _ _ _ value | .expr _ value => functionsOf g value
  | .ret _ value | .raise _ value => functionsOfOption g value
  | .define pos name params decorated body =>
    functionsInAll g body ++ [⟨params, namesIn g (.define pos name params decorated body)⟩]
  | .branch _ test body orelse =>
    functionsInAll g body ++ functionsInAll g orelse ++ functionsOf g test
  | .whileLoop _ test body => functionsOf g test ++ functionsInAll g body
  | .forLoop _ _ iter body _ => functionsInAll g body ++ functionsOf g iter
  | _ => []

def functionsInAll (g : Bool) : List Stmt → List Header
  | [] => []
  | st :: rest => functionsIn g st ++ functionsInAll g rest

end

end DiffLang.Reading
