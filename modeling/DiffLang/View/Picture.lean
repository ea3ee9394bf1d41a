import DiffLang.Data
import DiffLang.Graph.Picture
import DiffLang.Html

/-!
# Views of graphs

A picture of a graph as elements that a drawing program lays out: one per box and one per arrow,
each described by a record.
-/

namespace DiffLang.Graph.Picture

def idName (id : Nat) : Data := .text s!"X{id}"

def ofBox (b : Box) : Data :=
  let parent := (b.parent.map fun p => ("parent", idName p)).toList
  .record [("data", .record ([("id", idName b.id), ("label", .text b.label)] ++ parent)),
    ("classes", .text b.kind)]

def ofArrow (a : Arrow) : Data :=
  .record [("data", .record [("id", idName a.id), ("label", .text a.label),
    ("source", idName a.source), ("target", idName a.target)])]

def layout : Data :=
  .record [("layout", .record [("name", .text "dagre"), ("rankDir", .text "TB")])]

def view (p : Picture) : Html :=
  let part (name : String) (d : Data) : Html := .tag name [.text (d.write true)]
  .tag "cytoscape-graph" (Html.style :: part "options" layout ::
    (p.boxes.map fun b => part "element" (ofBox b)) ++
    p.arrows.map fun a => part "element" (ofArrow a))

end DiffLang.Graph.Picture
