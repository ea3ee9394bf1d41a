/-!
# Names of the surrounding system

The names that a program may use without defining them: functions, sorts of values, and sorts of
failures. The compiler knows a few of them as operations; the others it only passes on.
-/

namespace DiffLang.Foreign

def functions : List String :=
  ["abs", "all", "any", "ascii", "bin", "breakpoint", "callable", "chr", "compile", "delattr",
   "dir", "divmod", "eval", "exec", "format", "getattr", "globals", "hasattr", "hash", "hex",
   "id", "input", "isinstance", "issubclass", "iter", "len", "locals", "max", "min", "next",
   "oct", "open", "ord", "pow", "print", "repr", "round", "setattr", "sorted", "sum", "vars",
   "__import__", "__build_class__", "aiter", "anext"]

def sorts : List String :=
  ["bool", "bytearray", "bytes", "classmethod", "complex", "dict", "enumerate", "filter",
   "float", "frozenset", "int", "list", "map", "memoryview", "object", "property", "range",
   "reversed", "set", "slice", "staticmethod", "str", "super", "tuple", "type", "zip"]

def failures : List String :=
  ["ArithmeticError", "AssertionError", "AttributeError", "BaseException", "BlockingIOError",
   "BrokenPipeError", "BufferError", "ChildProcessError", "ConnectionError", "EOFError",
   "EnvironmentError", "Exception", "FileExistsError", "FileNotFoundError",
   "FloatingPointError", "GeneratorExit", "IOError", "ImportError", "IndentationError",
   "IndexError", "InterruptedError", "IsADirectoryError", "KeyError", "KeyboardInterrupt",
   "LookupError", "MemoryError", "ModuleNotFoundError", "NameError", "NotADirectoryError",
   "NotImplementedError", "OSError", "OverflowError", "PermissionError", "ProcessLookupError",
   "RecursionError", "ReferenceError", "RuntimeError", "StopAsyncIteration", "StopIteration",
   "SyntaxError", "SystemError", "SystemExit", "TabError", "TimeoutError", "TypeError",
   "UnboundLocalError", "UnicodeError", "ValueError", "Warning", "ZeroDivisionError"]

def isName (name : String) : Bool :=
  functions.contains name || sorts.contains name || failures.contains name

def isSort (name : String) : Bool := sorts.contains name || failures.contains name

end DiffLang.Foreign
