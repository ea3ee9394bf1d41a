import DiffLang.View

/-!
# Views of where terms come from

A term is shown together with what it was made from, step by step back to the program text, each
step under the name of the transformation that made it.
-/

namespace DiffLang.Viewer

/-- The view of one step. A term is shown next to its trace, which is not kept. -/
def subject (v : Viewer) (depth : Nat) : Subject → Fallible Html
  | .term t => do
    let h ← v.termAt depth t
    pure (Html.tabs [(.text "node", h), (.text "trace", plain "NoneType" "None")])
  | .place l => .ok (location l)
  | .node n => v.node depth n
  | .nothing => .ok (plain "NoneType" "None")

/-- The views of the steps back from a subject, each with the name of its transformation. Nodes are
made after what they are about, so as many steps as there are nodes are enough. -/
def steps (v : Viewer) (depth : Nat) : Nat → Subject → Fallible (List (String × Html))
  | fuel, s => do
    let h ← v.subject depth s
    let origin := match s with
      | .term t => v.session.origin t.id
      | _ => none
    match origin, fuel with
    | some o, fuel + 1 => pure ((o.transform, h) :: (← steps v depth fuel o.subject))
    | _, _ => pure [("orig", h)]

/-- The view of a term with the steps that led to it, the first step first. -/
def history (v : Viewer) (t : Term) : Fallible Html := do
  let views ← v.steps 1 v.session.origins.size (.term t)
  pure (Html.tabs (views.reverse.map fun (name, h) => (.text name, h)))

end DiffLang.Viewer
