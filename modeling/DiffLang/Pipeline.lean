import DiffLang.Session

/-!
# Pipelines

A pipeline is a path of named steps, each of which builds something from its settings and from
what the step before it built. Steps with the same settings are built once, and paths with a
common start share it. Settings are given for all steps together, under keys that start with the
name of the step.
-/

namespace DiffLang.Pipeline

open Session (put)

/-! ## Signatures -/

mutual

/-- What is compared of a setting: dictionaries by their pairs in any order, lists like tuples. -/
def signature : Value → Value
  | .dict items => .set (signaturePairs items)
  | .tuple items | .list items => .tuple (signatures items)
  | .set items => .set (signatures items)
  | v => v

def signatures : List Value → List Value
  | [] => []
  | v :: vs => signature v :: signatures vs

def signaturePairs : List (Value × Value) → List Value
  | [] => []
  | (k, v) :: rest => .tuple [signature k, signature v] :: signaturePairs rest

end

mutual

def isComparable : Value → Bool
  | .set items | .tuple items => allComparable items
  | v => v.isHashable

def allComparable : List Value → Bool
  | [] => true
  | v :: vs => isComparable v && allComparable vs

end

/-- For each of several settings, the position of the first that it is not told apart from. -/
def firstAlike (seen : List (Nat × Value)) : Nat → List Value → Fallible (List Nat)
  | _, [] => .ok []
  | i, v :: vs => do
    let s := signature v
    if !isComparable s then throw .typeMismatch
    match seen.find? fun (_, t) => t.agrees s with
    | some (j, _) => do pure (j :: (← firstAlike seen (i + 1) vs))
    | none => do pure (i :: (← firstAlike (seen ++ [(i, s)]) (i + 1) vs))

/-! ## Building -/

/-- A setting of a step: a value, or what another step built. -/
inductive Setting where
  | value (v : Value)
  | built (id : Nat)

structure Product where
  step : String
  settings : List (String × Setting)
  table : Nat
deriving Inhabited

abbrev Settings := List (String × Setting)

/-- The settings of each step, what has been built for which path, and the names kept with it. What
was given for a step may be no settings at all. -/
structure State where
  settings : List (String × Option Settings) := []
  products : Array Product := #[]
  paths : List (List String × (Nat × List String)) := []
  tables : Array (List String) := #[]

abbrev Building := StateT State Fallible

def insertName (ns : List String) (n : String) : List String :=
  if ns.contains n then ns else ns ++ [n]

def Setting.same : Setting → Setting → Bool
  | .built a, .built b => a = b
  | .value v, .value w => (signature v).agrees (signature w)
  | _, _ => false

def Setting.isComparable : Setting → Bool
  | .built _ => true
  | .value v => Pipeline.isComparable (signature v)

/-- Whether two lists of settings are the same, in any order. -/
def sameSettings (xs ys : Settings) : Bool :=
  xs.length = ys.length && xs.all fun (k, s) =>
    match ys.lookup k with
    | some t => s.same t
    | none => false

def build (step : String) (settings : Settings) (table : Nat) : Building Nat := do
  if !settings.all fun (_, s) => s.isComparable then throw .typeMismatch
  let st ← get
  match st.products.findIdx? fun p => p.step = step && sameSettings p.settings settings with
  | some i => pure i
  | none =>
    set { st with products := st.products.push { step, settings, table } }
    pure st.products.size

def note (table : Nat) (names : List String) : Building Unit :=
  modify fun st =>
    { st with tables := st.tables.modify table fun t => names.foldl insertName t }

def settingsOf (step : String) : Building Settings := do
  match (← get).settings.lookup step with
  | some (some own) => pure own
  | some none => throw .typeMismatch
  | none => pure []

/-- What comes before a step is one of its settings, if it has any of its own also from then on. -/
def settingsAfter (step : String) (parent : Nat) : Building Settings := do
  let own := put (· == ·) "parent" (.built parent) (← settingsOf step)
  modify fun st =>
    let settings := st.settings.map fun (k, s) => if k = step then (k, some own) else (k, s)
    { st with settings }
  pure own

variable (steps : List String)

def finish (table : Nat) (step : String) (before : List String) (settings : Settings) :
    Building Nat := do
  if !steps.contains step then throw .missingKey
  let i ← build step settings table
  note table [step]
  modify fun st =>
    let products := st.products.modify i fun x => { x with table }
    let paths := st.paths ++ [(step :: before, (i, st.tables.getD table []))]
    { st with products, paths }
  pure i

/-- Builds the last step of a path that is given backwards, after the steps before it. -/
def follow (table : Nat) (step : String) (before : List String) : Building Nat := do
  match (← get).paths.lookup (step :: before) with
  | some (i, names) => note table names; pure i
  | none =>
    let settings ← match before with
      | [] => settingsOf step
      | b :: rest => do settingsAfter step (← follow table b rest)
    finish steps table step before settings

def namedSettings? : Value → Option Settings
  | .dict items => items.mapM fun (n, v) =>
    match n with
    | .str n => some (n, .value v)
    | _ => none
  | _ => none

/-- The settings of each step. A key is the name of a step, with all its settings, or the name of a
step and of one setting, with an underscore between them. -/
def distribute : List (String × Value) → List (String × Option Settings) →
    Fallible (List (String × Option Settings))
  | [], acc => .ok acc
  | (k, v) :: rest, acc => do
    if steps.contains k then distribute rest (put (· == ·) k (namedSettings? v) acc)
    else
      match k.splitOn "_" with
      | step :: name :: names =>
        if !steps.contains step then throw .badValue
        let key := "_".intercalate (name :: names)
        match (acc.lookup step).getD (some []) with
        | none => throw .typeMismatch
        | some own =>
          distribute rest (put (· == ·) step (some (put (· == ·) key (.value v) own)) acc)
      | _ => throw .badValue

/-- How what a step built is shown: the step, with its settings in order. -/
def describe (products : Array Product) : Nat → Nat → String
  | 0, _ => ""
  | fuel + 1, i =>
    let p := products.getD i default
    let sorted := p.settings.mergeSort fun a b => a.1 ≤ b.1
    let parts := sorted.map fun (k, s) =>
      k ++ "=" ++ match s with
        | .value v => v.text
        | .built j => describe products fuel j
    p.step ++ "(" ++ ", ".intercalate parts ++ ")"

/-- A pipeline after it was built: its name, its last step as it is shown, and the names of
everything that can be reached from there. -/
structure Built where
  name : String
  text : String
  names : List String

def buildAll (pipelines : List (String × String)) (config : List (String × Value)) :
    Fallible (List Built) := do
  let settings ← distribute steps config []
  let work : Building (List (String × Nat)) := pipelines.mapM fun (name, path) => do
    let table ← modifyGet fun st => (st.tables.size, { st with tables := st.tables.push [] })
    match (path.splitOn "->").reverse with
    | step :: before => pure (name, ← follow steps table step before)
    | [] => throw .badValue
  let (ends, st) ← work.run { settings }
  let names := ends.map Prod.fst
  let tables := ends.foldl (fun (ts : Array (List String)) (_, i) =>
    ts.modify (st.products.getD i default).table fun t =>
      names.foldl insertName t) st.tables
  pure (ends.map fun (name, i) =>
    { name, text := describe st.products (st.products.size + 1) i
      names := (tables.getD (st.products.getD i default).table []).mergeSort fun a b => a ≤ b })

end DiffLang.Pipeline
