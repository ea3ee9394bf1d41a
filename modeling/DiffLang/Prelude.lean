import DiffLang.Source.Parser

/-!
# The prelude

Functions of the library that are written in the language itself: gradients of functions of one
to three arguments, the backpropagators of the builtin operations, and the shapes of their
results. Each stands at a line of its chapter of the prelude; places in the prelude are given by
those lines.

A backpropagator takes the arguments of the operation and the sensitivity of its result. It ends
in `GRAD`, which groups the sensitivities of the arguments that a partial application supplied.
-/

namespace DiffLang.Prelude

/-- A function of the prelude: the line it stands on, and its text. -/
structure Entry where
  line : Nat
  text : String

def Entry.statement? (e : Entry) : Option Source.Stmt :=
  match Source.parse e.text e.line with
  | some [s] => some s
  | _ => none

def nameOf : Source.Stmt → Option String
  | .define _ name _ _ _ => some name
  | _ => none

def read (chapter : List Entry) : List (String × Source.Stmt) :=
  chapter.filterMap fun e => do
    let s ← e.statement?
    pure (← nameOf s, s)

/-! ## Gradients of functions -/

def gradientsUrl : String := "prelude/gradients"

/-- The gradient of a function of `n` parameters, by its first one. -/
def gradientEntry (line n : Nat) (names : List String) : Entry :=
  let params := ", ".intercalate names
  let args := ", ".intercalate (names.map fun x => s!"J({x})")
  { line
    text := String.intercalate "\n"
      [s!"def grad{n}(fn):",
       "    jfn = J(fn)",
       "",
       s!"    def g({params}):",
       s!"        _, bprop = jfn({args})",
       "        return bprop(1.0)[1]",
       "    return g"] }

def gradients : List Entry :=
  [gradientEntry 424 1 ["x"], gradientEntry 434 2 ["x", "y"], gradientEntry 444 3 ["x", "y", "z"]]

/-! ## Backpropagators -/

def backpropagatorsUrl : String := "prelude/backpropagators"

def short (line : Nat) (head body : String) : Entry :=
  { line, text := s!"def {head}:\n    return {body}" }

def long (line : Nat) (head : String) (body : List String) : Entry :=
  { line, text := "\n".intercalate (s!"def {head}:" :: body.map ("    " ++ ·)) }

def backpropagators : List Entry :=
  [short 107 "bprop_zeros_like(x, d)" "GRAD(zeros_like(x))",
   short 112 "bprop_J(x, d)" "GRAD(Jinv(d))",
   short 117 "bprop_Jinv(x, d)" "GRAD(J(d))",
   long 127 "bprop_add(x, y, dz)"
    ["# The sensitivity of a sum is that of both of its terms.",
     "",
     "return GRAD(dz, dz)"],
   short 134 "bprop_subtract(x, y, dz)" "GRAD(dz, -dz)",
   short 139 "bprop_multiply(x, y, dz)" "GRAD(dz * y, dz * x)",
   short 144 "bprop_divide(x, y, dz)" "GRAD(dz / y, -dz * x / (y * y))",
   long 149 "bprop_power(x, y, dz)"
    ["# The sensitivity of the exponent is only meaningful for a positive base.",
     "",
     "",
     "",
     "return GRAD(dz * y * x ** (y - 1),",
     "            dz * log(x) * x ** y)"],
   short 159 "bprop_unary_subtract(x, dz)" "GRAD(-dz)",
   short 164 "bprop_dot(x, y, dz)" "GRAD(dz @ transpose(y), transpose(x) @ dz)",
   short 169 "bprop_transpose(x, dz)" "GRAD(transpose(dz))",
   short 174 "bprop_exp(x, dz)" "GRAD(dz * exp(x))",
   short 179 "bprop_log(x, dz)" "GRAD(dz / x)",
   long 184 "bprop_sum(xs, dz)"
    ["_, bdz = broadcast((xs, dz))",
     "return GRAD(bdz)"],
   long 191 "bprop_shape(arr, dz)"
    ["# A shape does not vary with the elements.",
     "",
     "return GRAD(zeros_like(arr))"],
   long 198 "bprop_fit(arr, shp, dz)"
    ["return GRAD(fit(dz, shape(arr)),",
     "            zeros_like(shp))"],
   short 209 "bprop_equal(x, y, dz)" "GRAD(False, False)",
   short 214 "bprop_greater(x, y, dz)" "GRAD(False, False)",
   short 219 "bprop_less(x, y, dz)" "GRAD(False, False)",
   long 224 "bprop_switch(c, t, f, dz)"
    ["# The branch that was not taken gets a zero of its own shape.",
     "",
     "",
     "",
     "",
     "if c:",
     "    return GRAD(",
     "        zeros_like(Jinv(c)),",
     "        dz,",
     "        zeros_like(Jinv(f))",
     "    )",
     "else:",
     "    return GRAD(",
     "        zeros_like(Jinv(c)),",
     "        zeros_like(Jinv(t)),",
     "        dz",
     "    )"],
   short 245 "bprop_identity(v, dz)" "GRAD(dz)",
   short 255 "bprop_Closure(fn, args, dz)" "GRAD(closure_fn(dz), closure_args(dz))",
   short 260 "bprop_closure_fn(clos, dz)"
    "GRAD(Closure(dz, Jinv(zeros_like(closure_args(clos)))))",
   short 265 "bprop_closure_args(clos, dz)" "GRAD(Closure(Jinv(closure_fn(clos)), dz))",
   long 270 "bprop_index(tup, idx, dz)"
    ["rval = zeros_like(tup)",
     "rval[idx] = dz",
     "return GRAD(rval, 0)"],
   long 277 "bprop_setslice(tup, idx, value, dz)"
    ["dtup = setslice(dz, idx, zeros_like(tup[idx]))",
     "return GRAD(dtup, 0, dz[idx])"],
   short 283 "bprop_len(xs, dz)" "GRAD(zeros_like(Jinv(xs)))",
   short 288 "bprop_range(n, dz)" "GRAD(0)",
   long 293 "bprop_map(f, xs, dz)"
    ["",
     "",
     "results = map(f, xs)",
     "bprops = map(second, results)",
     "# Every sensitivity goes through the backpropagator of the first element.",
     "",
     "",
     "d = map(bprops[0], dz)",
     "df = reduce(add, map(first, d))",
     "dxs = map(second, d)",
     "return GRAD(df, dxs)"],
   short 308 "bprop_enumerate(xs, dz)" "GRAD(map(second, dz))",
   long 313 "bprop_getattr(rec, field, dz)"
    ["rval = zeros_like(Jinv(rec))",
     "rval = setattr(rval, field, dz)",
     "return GRAD(rval, 0)"],
   long 320 "bprop_setattr(rec, field, value, dz)"
    ["drec = setattr(dz, field, zeros_like(getattr(rec, field)))",
     "return GRAD(drec, 0, getattr(dz, field))"]]

def backpropagatorNames : List String :=
  ["zeros_like", "J", "Jinv", "switch", "first", "second", "Closure", "closure_fn",
   "closure_args", "reduce", "add", "exp", "log", "transpose", "broadcast", "shape", "fit",
   "setslice"]

/-! ## Shapes -/

def shapesUrl : String := "prelude/shapes"

def shapes : List Entry :=
  [short 17 "proj_identity(x)" "shape(x)",
   long 27 "proj_add(x, y)"
    ["if shape(x) == shape(y):",
     "    return shape(x)",
     "else:",
     "    raise Exception('Shape error (add).')"],
   long 35 "proj_subtract(x, y)"
    ["if shape(x) == shape(y):",
     "    return shape(x)",
     "else:",
     "    raise Exception('Shape error (subtract).')"],
   long 43 "proj_dot(x, y)"
    ["a, b = shape(x)",
     "c, d = shape(y)",
     "if b == c:",
     "    return a, d",
     "else:",
     "    raise Exception('Shape error (dot).')"],
   long 53 "proj_greater(x, y)" ["raise Exception('No shape (greater).')"],
   long 58 "proj_less(x, y)" ["raise Exception('No shape (less).')"],
   long 63 "proj_switch(cond, x, y)" ["raise Exception('No shape (switch).')"]]

end DiffLang.Prelude
