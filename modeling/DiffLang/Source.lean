import DiffLang.Value

/-!
# Program text as a tree

The surface language: expressions and statements with their places in the text. Forms that the
language does not have are kept by name, so that the reader can say which one it met and where.
-/

namespace DiffLang.Source

/-- A place in a text: line from 1, column from 0. -/
structure Pos where
  line : Nat
  column : Nat
deriving DecidableEq, Inhabited

/-- The parameters of a function, and which unsupported kinds of parameter it has besides. Those that
cannot be given by name are neither bound nor refused. -/
structure Params where
  names : List String
  positionalOnly : List String := []
  variadic : Bool := false
  keywordOnly : Bool := false
  defaults : Bool := false
deriving Inhabited

inductive Expr where
  | name (pos : Pos) (id : String)
  | constant (pos : Pos) (v : Value)
  | binary (pos : Pos) (op : String) (left right : Expr)
  | unary (pos : Pos) (op : String) (operand : Expr)
  | compare (pos : Pos) (left : Expr) (ops : List String) (rights : List Expr)
  | call (pos : Pos) (fn : Expr) (args : List Expr) (keywords : Bool)
  | attribute (pos : Pos) (object : Expr) (name : String)
  | subscript (pos : Pos) (object index : Expr)
  | slice (pos : Pos) (lower upper step : Option Expr)
  | tuple (pos : Pos) (items : List Expr)
  | lambda (pos : Pos) (params : Params) (body : Expr)
  | other (pos : Pos) (kind : String)
deriving Inhabited

inductive Stmt where
  | assign (pos : Pos) (targets : List Expr) (value : Expr)
  | augment (pos : Pos) (target : Expr) (op : String) (value : Expr)
  | expr (pos : Pos) (value : Expr)
  | forLoop (pos : Pos) (target iter : Expr) (body : List Stmt) (hasElse : Bool)
  | whileLoop (pos : Pos) (test : Expr) (body : List Stmt)
  | branch (pos : Pos) (test : Expr) (body orelse : List Stmt)
  | define (pos : Pos) (name : String) (params : Params) (decorators : List Expr)
      (body : List Stmt)
  | ret (pos : Pos) (value : Option Expr)
  | raise (pos : Pos) (value : Option Expr)
  | other (pos : Pos) (kind : String)
deriving Inhabited

end DiffLang.Source
