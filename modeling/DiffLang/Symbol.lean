/-!
# Symbols

A symbol names a variable, a function or a builtin operation. It is either a plain label or a
relation to another symbol: the gradient of `f` is the symbol that stands in the relation `↑` to
`f`. Both kinds live in a namespace and carry a version, so that two writes to one variable give
two symbols. Equality is equality of all four parts.
-/

namespace DiffLang

/-- The space in which a symbol lives: a public name, or a private space known by its number. -/
inductive Namespace where
  | named (text : String)
  | hidden (number : Nat)
deriving DecidableEq, Inhabited

/-- A variable name with its namespace and version. -/
inductive Symbol where
  | plain (label : String) (space : Namespace) (version : Nat)
  | derived (relation : String) (base : Symbol) (space : Namespace) (version : Nat)
deriving DecidableEq, Inhabited

namespace Namespace

def builtin : Namespace := .named "global::builtin"

def builtinBackprop : Namespace := .named "global::builtin_bprop"

def null : Namespace := .named "null"

/-- Whether symbols of this namespace are resolved outside the function that mentions them. -/
def isGlobal : Namespace → Bool
  | .named text => text.startsWith "global:"
  | .hidden _ => false

end Namespace

namespace Symbol

def space : Symbol → Namespace
  | .plain _ s _ => s
  | .derived _ _ s _ => s

def version : Symbol → Nat
  | .plain _ _ v => v
  | .derived _ _ _ v => v

def relation? : Symbol → Option String
  | .plain .. => none
  | .derived r .. => some r

/-- The text `#n` that tells later versions apart. The first version has none. -/
def versionMark (version : Nat) : String :=
  if version > 1 then s!"#{version}" else ""

def text : Symbol → String
  | .plain label _ v => label ++ versionMark v
  | .derived relation base _ v => relation ++ base.text ++ versionMark v

/-- The text of a symbol without any version. -/
def stem : Symbol → String
  | .plain label _ _ => label
  | .derived relation base _ _ => relation ++ base.stem

def root : Symbol → String
  | .plain label _ _ => label
  | .derived _ base _ _ => base.root

/-- Whether the symbol is resolved outside the function that mentions it. -/
def isGlobal (s : Symbol) : Bool := s.space.isGlobal

def isBuiltin (s : Symbol) : Bool := s.space = .builtin

def builtin (name : String) : Symbol := .plain name .builtin 1

end Symbol

/-! ## Relations

Each relation is one character, or two for a temporary that stands for a derived variable.
-/

namespace Relation

def thenBranch : String := "✓"
def elseBranch : String := "✗"
def loopTest : String := "⤾"
def loopBody : String := "⥁"
def anonymous : String := "λ"
def augmented : String := "↑"
def backprop : String := "♦"
def backpropClosure : String := "♢"
def sensitivity : String := "∇"
def nothing : String := "×"
def temporary : String := "◯"
def normal : String := "α"
def temporarySensitivity : String := temporary ++ sensitivity
def temporaryBackprop : String := temporary ++ backpropClosure
def temporaryLet : String := temporary ++ "let"

end Relation

end DiffLang
