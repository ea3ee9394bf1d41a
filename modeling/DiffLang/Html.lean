/-!
# HTML

A view is a tree of elements and texts. An element has a name, classes, other attributes and
children. Writing a tree down is the only place where it becomes a string, and everything that is
not markup is escaped there.
-/

namespace DiffLang

inductive Attribute where
  | text (s : String)
  | number (n : Int)
  | flag (b : Bool)

inductive Html where
  | text (s : String)
  | element (name : String) (classes : List String) (attributes : List (String × Attribute))
      (children : List Html)

namespace Html

/-! ## Elements -/

def tag (name : String) (children : List Html) : Html := .element name [] [] children

def div (classes : List String) (children : List Html) : Html := .element "div" classes [] children

def span (classes : List String) (s : String) : Html := .element "span" classes [] [.text s]

def withClass (c : String) : Html → Html
  | .element name classes attributes children => .element name (classes ++ [c]) attributes children
  | h => h

inductive Direction where
  | across
  | down

def Direction.letter : Direction → String
  | .across => "h"
  | .down => "v"

def titledBox (before after : Option String) (contents : List Html) (box : Direction := .across)
    (inside : Direction := .across) : Html :=
  let title (t : Option String) : List Html :=
    (t.map fun s => div ["hrepr-title"] [.text s]).toList
  div ["hrepr-titled-" ++ box.letter]
    (title before ++ [div ["hrepr-contents-" ++ inside.letter] contents] ++ title after)

def objectTable (rows : List Html) : Html := .element "table" ["hrepr-object-table"] [] rows

def tabs (views : List (Html × Html)) : Html :=
  tag "tabbed-view" (views.map fun (t, pane) => tag "view" [tag "tab" [t], tag "pane" [pane]])

/-! ## Text -/

def escapeChar : Char → String
  | '&' => "&amp;"
  | '<' => "&lt;"
  | '>' => "&gt;"
  | '"' => "&quot;"
  | '\'' => "&#x27;"
  | c => c.toString

def escape (s : String) : String := String.join (s.toList.map escapeChar)

/-- An attribute as it is written. A flag that is not set is left out. -/
def writeAttribute : String × Attribute → String
  | (k, .text s) => s!" {k}=\"{escape s}\""
  | (k, .number n) => s!" {k}=\"{n}\""
  | (k, .flag true) => " " ++ k
  | (_, .flag false) => ""

def writeAttributes (classes : List String) (attributes : List (String × Attribute)) : String :=
  (if classes.isEmpty then "" else writeAttribute ("class", .text (" ".intercalate classes))) ++
  String.join (attributes.map writeAttribute)

mutual

def write : Html → String
  | .text s => escape s
  | .element name classes attributes children =>
    s!"<{name}{writeAttributes classes attributes}>" ++ writeAll children ++ s!"</{name}>"

def writeAll : List Html → String
  | [] => ""
  | h :: hs => write h ++ writeAll hs

end

/-- The style sheet that every page starts with. What it says is not part of a view. -/
def style : Html := tag "style" []

def page (styles : List Html) (body : Html) : String :=
  "<!DOCTYPE html><html><head>" ++
  "<meta http-equiv=\"Content-type\" content=\"text/html\" charset=\"UTF-8\" />" ++
  writeAll styles ++ "</head><body>" ++ write body ++ "</body></html>"

end Html

end DiffLang
