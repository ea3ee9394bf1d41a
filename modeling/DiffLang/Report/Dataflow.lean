import DiffLang.Dataflow.Propagation
import DiffLang.Report.Running

/-!
# Reports on dataflow

The facts of all nodes after the visit to a function, and after each further fact that is stated.
-/

namespace DiffLang.Report

open Dataflow

def mergeTexts (pairs : List (String × List String)) : List (String × List String) :=
  pairs.foldl (fun acc (k, vs) =>
    Session.put (· == ·) k ((acc.lookup k).getD [] ++ vs) acc) []

def sortedTexts (ts : List String) : List String := (ts.eraseDups).mergeSort (· ≤ ·)

def ofTrack (s : Session) (f : Flow) (track : Track) : Data :=
  let pairs := (f.entries.filter fun e => e.track = track).map fun e =>
    ((Fact.ofTerm e.node).text s, e.facts.map (Fact.text s))
  let merged := (mergeTexts pairs).filter fun (_, vs) => !vs.isEmpty
  .list ((merged.mergeSort fun a b => a.1 ≤ b.1).map fun (k, vs) =>
    .list [.text k, .texts (sortedTexts vs)])

def ofFlow (s : Session) (f : Flow) : Data :=
  .record (f.tracks.map fun t => (t.name, ofTrack s f t))

def factOf (d : Data) : Fallible Fact :=
  match d with
  | .text "value" => .ok needValue
  | .text "type" => .ok (needProperty "type")
  | .text "shape" => .ok (needProperty "shape")
  | d => do pure (.value (← Value.ofPlainData d))

def nodeAt (l : Lambda) (d : Data) : Fallible Term :=
  match d with
  | .int i => do
    match l.params[← Value.place l.params.length i]? with
    | some p => .ok (.ident p)
    | none => .error .outOfRange
  | _ => .ok l.body

/-- A fact to state: where, on which track, and what. -/
structure Statement where
  place : Data
  track : String
  fact : Data

def dataflow (m : Subject) (tracks : List String) (always : List Data)
    (statements : List Statement) : Run Data := do
  let (_, v) ← m.enter
  let id ← readEntry v
  let l ← Session.getLambda id
  let needs ← Run.lift (always.mapM factOf)
  let f ← Run.lift (start (tracks.filterMap Track.ofName?) needs)
  match ← (visit (Session.lambdaTerm id l)).run f with
  | (.error e, _) => throw e
  | (.ok (), f) =>
    let first := ofFlow (← get) f
    let (_, ds) ← statements.foldlM (fun (f, ds) st => do
      let act : Analysis Unit := do
        let t ← Analysis.ofFallible (nodeAt l st.place)
        let x ← Analysis.ofFallible (factOf st.fact)
        match Track.ofName? st.track with
        | some track => propagate t track x
        | none => throw .missingKey
      match ← act.run f with
      | (.ok (), f) => do
        let d := ofFlow (← get) f
        pure (f, ds ++ [d])
      | (.error e, f) => pure (f, ds ++ [ofFailure e])) (f, ([] : List Data))
    pure (.list (first :: ds))

end DiffLang.Report
