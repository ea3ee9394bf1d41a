import DiffLang.Symbol

/-!
# Values

The language is dynamically typed, so one type holds everything a program, a primitive or an
analysis can pass around: numbers and texts, sequences, arrays with an element type, records,
partial applications, primitives, compiled functions, types, abstract values and exceptions.
What has an identity of its own (a graph, a compiled function) is held by number, next to the
name it is shown under.
-/

namespace DiffLang

inductive ElementType where
  | bool
  | int (bits : Nat)
  | uint (bits : Nat)
  | float (bits : Nat)
  | object
  | other (name : String)
deriving DecidableEq

def ElementType.name : ElementType → String
  | .bool => "bool"
  | .int b => s!"int{b}"
  | .uint b => s!"uint{b}"
  | .float b => s!"float{b}"
  | .object => "object"
  | .other n => n

inductive Kind where
  | assertion
  | attribute
  | endOfInput
  | exception
  | importing
  | index
  | key
  | memory
  | missingFile
  | missingModule
  | name
  | notImplemented
  | overflow
  | recursion
  | runtime
  | stop
  | syntaxError
  | type
  | unboundLocal
  | value
  | wrapped
  | zeroDivision
  | other (label : String)
deriving DecidableEq

def Kind.label : Kind → String
  | .assertion => "AssertionError"
  | .attribute => "AttributeError"
  | .endOfInput => "EOFError"
  | .exception => "Exception"
  | .importing => "ImportError"
  | .index => "IndexError"
  | .key => "KeyError"
  | .memory => "MemoryError"
  | .missingFile => "FileNotFoundError"
  | .missingModule => "ModuleNotFoundError"
  | .name => "NameError"
  | .notImplemented => "NotImplementedError"
  | .overflow => "OverflowError"
  | .recursion => "RecursionError"
  | .runtime => "RuntimeError"
  | .stop => "StopIteration"
  | .syntaxError => "MyiaSyntaxError"
  | .type => "TypeError"
  | .unboundLocal => "UnboundLocalError"
  | .value => "ValueError"
  | .wrapped => "WrappedException"
  | .zeroDivision => "ZeroDivisionError"
  | .other label => label

def Kind.ofLabel (label : String) : Kind :=
  let known : List Kind :=
    [.assertion, .attribute, .endOfInput, .exception, .importing, .index, .key, .memory,
     .missingFile, .missingModule, .name, .notImplemented, .overflow, .recursion, .runtime,
     .stop, .syntaxError, .type, .unboundLocal, .value, .wrapped, .zeroDivision]
  (known.find? fun k => k.label = label).getD (.other label)

/-- A family of primitives: those that compute, those that compute on abstract values, and those
that compute one property of a result. -/
inductive Bank where
  | standard
  | abstract
  | projector (property : Symbol) (label : String)
deriving DecidableEq

/-- Where a function was handed out: a stage of compilation, or an environment. -/
inductive Home where
  | stage (id : Nat)
  | environment (id : Nat)

inductive Value where
  | none
  | bool (b : Bool)
  | int (n : Int)
  | float (x : Float)
  | complex (re im : Float)
  | str (s : String)
  | tuple (items : List Value)
  | list (items : List Value)
  | dict (items : List (Value × Value))
  | set (items : List Value)
  | slice (start stop step : Value)
  | array (element : ElementType) (shape : List Nat) (data : List Value)
  | scalar (element : ElementType) (v : Value)
  /-- The generic zero, neutral on the left of an addition. -/
  | zero
  | any
  /-- A constant that is only equal to itself. -/
  | marker (name : String)
  | atom (name : String)
  | record (tag : String) (fields : List (Value × Value))
  /-- A function together with its first arguments. -/
  | closure (fn : Value) (args : List Value)
  /-- A primitive. One that was handed out remembers by whom. -/
  | prim (bank : Bank) (op : Symbol) (home : Option Home)
  | type (name : String) (elements : Option (List Value))
  | abstract (parts : List (Value × Value)) (depth : Nat)
  | fork (paths : List Value)
  | exception (kind : Kind) (args : List Value)
  | wrapped (error : Value)
  | symbol (s : Symbol)
  | logicVar (name : String)
  | restrictedVar (name : String) (legal : List Value)
  | filteredVar (name : String) (kind : String)
  | untested (v : Value)
  | literal (v : Value)
  /-- A function of the term language, by the number of its node. -/
  | lambda (node : Nat)
  | graph (id : Nat) (tag : Symbol)
  | function (id : Nat) (name : String)
  | deferred (id : Nat) (name : String)
  | foreign (name : String)
  | machine (id graph : Nat) (tag : Symbol)
  | exported (id graph : Nat) (tag : Symbol) (stage : Nat)
  | direct (id lambda : Nat) (ref : Symbol)
  | term (kind text : String)
  | thing (label : String)

namespace Value

def nat (n : Nat) : Value := .int n

def valueKey : Value := .marker "VALUE"

def errorKey : Value := .marker "ERROR"

/-- Whether universes map over the parts of the value. -/
def isStructure : Value → Bool
  | .list _ | .tuple _ | .record .. | .closure .. => true
  | _ => false

end Value

end DiffLang
