/-!
# Builtin operations

The operations of the language by name, and the parameters of those that compute on values.
-/

namespace DiffLang

namespace Operation

/-- The names of all operations, with or without an implementation. -/
def names : List String :=
  ["add", "subtract", "multiply", "divide", "power", "log", "exp", "dot", "transpose", "sum",
   "bitwise_or", "bitwise_and", "bitwise_xor", "unary_add", "unary_subtract", "bitwise_not",
   "negate", "less", "greater", "less_equal", "greater_equal", "equal", "index", "getattr",
   "setattr", "setslice", "identity", "Closure", "closure_fn", "closure_args", "partial",
   "mktuple", "mklist", "fit", "broadcast", "fill", "zeros_like", "ones_like", "J", "Jinv",
   "grad1", "grad2", "grad3", "myia_builtins", "raise_exception", "Exception", "print", "len",
   "range", "enumerate", "map", "reduce", "filter", "switch", "if", "first", "second", "concat",
   "slice", "assert_true", "type", "shape", "breakpoint"]

/-- The operation that a name in a program stands for: one that is a word of the surface language
is written with a mark after it. -/
def ofName (name : String) : String := if name = "if_" then "if" else name

def signatures : List (String × List String) :=
  [("add", ["x", "y"]),
   ("subtract", ["x", "y"]),
   ("multiply", ["x", "y"]),
   ("divide", ["x", "y"]),
   ("dot", ["x", "y"]),
   ("transpose", ["x"]),
   ("unary_subtract", ["x"]),
   ("power", ["x", "y"]),
   ("exp", ["x"]),
   ("log", ["x"]),
   ("sum", ["xs"]),
   ("equal", ["x", "y"]),
   ("less", ["x", "y"]),
   ("greater", ["x", "y"]),
   ("broadcast", ["arrs"]),
   ("fit", ["arr", "shp"]),
   ("len", ["t"]),
   ("range", ["t"]),
   ("Closure", ["fn", "args"]),
   ("closure_fn", ["clos"]),
   ("closure_args", ["clos"]),
   ("partial", ["fn"]),
   ("mktuple", []),
   ("mklist", []),
   ("index", ["t", "i"]),
   ("setslice", ["t", "i", "v"]),
   ("first", ["t"]),
   ("second", ["t"]),
   ("getattr", ["obj", "attr"]),
   ("setattr", ["obj", "attr", "value"]),
   ("map", ["f", "xs"]),
   ("reduce", ["f", "xs"]),
   ("enumerate", ["xs"]),
   ("switch", ["cond", "t", "f"]),
   ("if", ["cond", "t", "f"]),
   ("identity", ["x"]),
   ("raise_exception", ["x"]),
   ("Exception", ["x"]),
   ("print", ["x"]),
   ("J", ["x"]),
   ("Jinv", ["x"]),
   ("zeros_like", ["x"]),
   ("assert_true", ["x", "msg"]),
   ("type", ["x"]),
   ("shape", ["x"]),
   ("concat", []),
   ("slice", ["start", "stop", "step"]),
   ("breakpoint", ["mode"])]

def params? (name : String) : Option (List String) := signatures.lookup name

end Operation

end DiffLang
