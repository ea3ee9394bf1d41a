import DiffLang.Operation
import DiffLang.Prelude
import DiffLang.Program

/-!
# The session a program starts in

Before any program is read, the prelude's gradients and shapes are, and the names that the
prelude uses are known.
-/

namespace DiffLang.Library

open Session

def primitive (name : String) : Value := .prim .standard (.builtin name) none

def gradientNames : Globals := Operation.signatures.map fun (n, _) => (n, primitive n)

def backpropagatorNames : Globals :=
  Prelude.backpropagatorNames.map fun n => (n, primitive n)

def shapeNames : Globals := [("shape", .prim .abstract (.builtin "shape") none)]

def spaceOf (url : String) : Namespace := .named ("global:" ++ url)

def readChapter (url : String) (names : Globals) (chapter : List Prelude.Entry) : Run Unit := do
  Program.addSource (spaceOf url) names
  for (_, statement) in Prelude.read chapter do
    let _ ← Program.readText url 1 [statement]

def setUp : Run Unit := do
  readChapter Prelude.gradientsUrl gradientNames Prelude.gradients
  Program.addSource (spaceOf Prelude.backpropagatorsUrl) backpropagatorNames
  readChapter Prelude.shapesUrl shapeNames Prelude.shapes

def session : Session := (Run.go setUp Session.initial).2

def function? (s : Session) (url name : String) : Option Value :=
  (s.registry.find? fun (k, _) => sameKey k (.symbol (.plain name (spaceOf url) 1))).map (·.2)

end DiffLang.Library
