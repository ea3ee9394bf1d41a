import DiffLang.View

/-!
# Printing views

A view is printed as a message for a program that shows it: one line with the text of the view.
-/

namespace DiffLang.Viewer

def message (h : Html) : String :=
  (Data.record [("format", .text "html"), ("content", .text h.write), ("parent", .text "/")]).write
    true ++ "\n"

def print (text : String) : Run Unit := modify fun s => { s with printed := s.printed ++ text }

def display (label : String) (g : Graph.GraphId) : Run Unit := do
  let v : Viewer := { session := ← get, options := {} }
  let h ← Run.lift (v.graph g)
  print (message (.div ["multi-print"] [v.textView 0 label, h]))

mutual

def needsStyle : Value → Bool
  | .tuple vs | .list vs | .set vs => anyNeedsStyle vs
  | .dict ps | .abstract ps _ => anyPairNeedsStyle ps
  | .record .. | .closure .. | .prim .. | .machine .. | .direct .. | .symbol _ | .literal _
  | .lambda _ | .graph .. => true
  | _ => false

def anyNeedsStyle : List Value → Bool
  | [] => false
  | v :: vs => needsStyle v || anyNeedsStyle vs

def anyPairNeedsStyle : List (Value × Value) → Bool
  | [] => false
  | (k, v) :: rest => needsStyle k || needsStyle v || anyPairNeedsStyle rest

end

def page (v : Viewer) (w : Value) : Fallible String := do
  let h ← v.valueAt 0 w
  let styles := if needsStyle w then [Html.style, Html.style] else [Html.style]
  pure (Html.page styles h)

end DiffLang.Viewer
