import DiffLang.Value.Equality

/-!
# Mapping over the structure of values

A function of several arguments is applied leaf by leaf to values of one structure: tuples and
lists of equal length, records with the same tag and fields, partial applications with the same
number of arguments. An array is mapped element by element; its result takes the element type of
what the function gives on the first elements.
-/

namespace DiffLang

universe u

variable {m : Type → Type u} [Monad m] [MonadExcept Failure m]

/-- A failure of a computation on values, in any computation that can fail. -/
def Fallible.raise {α : Type} : Fallible α → m α
  | .ok a => pure a
  | .error f => throw f

namespace StructuralMap

def nonconformant (a b : Value) : Failure :=
  .because .type ("Arguments to 'structural_map' do not have the same properties: `" ++
    a.text ++ "` and `" ++ b.text ++ "` are not conformant.")

def requireAll (first : Value) (test : Value → Bool) (others : List Value) : Fallible Unit :=
  match others.find? fun o => !test o with
  | some o => .error (nonconformant first o)
  | none => .ok ()

def items : Value → List Value
  | .tuple xs | .list xs => xs
  | .closure _ xs => xs
  | _ => []

def function : Value → Value
  | .closure f _ => f
  | v => v

def fields : Value → List (Value × Value)
  | .record _ fs => fs
  | _ => []

def sameSort (a b : Value) : Bool := a.sortPath = b.sortPath

def field? (name : Value) (v : Value) : Option Value :=
  ((fields v).find? fun (k, _) => k.text = name.text).map Prod.snd

def sameFields (a b : Value) : Bool :=
  match a, b with
  | .record t fs, .record u gs =>
    t = u && fs.length = gs.length && fs.all fun (k, _) => (field? k (.record u gs)).isSome
  | _, _ => false

/-- What a record answers for itself to a name, whatever its fields. -/
def ownPart (tag : String) (fs : List (Value × Value)) : String → Option Value
  | "__tag__" => some (.atom tag)
  | "__class__" => some (.term "type" "<class 'myia.lib.Record'>")
  | "__dict__" => some (.dict (fs ++ [(.str "__tag__", .atom tag)]))
  | "__weakref__" => some .none
  | _ => none

def textField? (name : String) (fs : List (Value × Value)) : Option Value :=
  fs.findSome? fun
    | (.str s, v) => if s = name then some v else none
    | _ => none

/-- What a record answers to a name: a part of its own, or its field. -/
def named (tag : String) (fs : List (Value × Value)) (name : String) : Fallible Value :=
  match ownPart tag fs name <|> textField? name fs with
  | some v => .ok v
  | none => .error .missingAttribute

/-- What a record answers to the key of a field. Only texts are names. -/
def fieldOf (key : Value) (v : Value) : Fallible Value :=
  match key, v with
  | .str name, .record tag fs => named tag fs name
  | _, _ => .error .typeMismatch

def arrays (args : List Value) : Fallible (List Tensor.Raw) :=
  args.mapM Tensor.ofValue

def resultElement (v : Value) : Fallible ElementType := do
  pure (← Tensor.ofValue v).element

/-- Maps element by element. The function is tried on the first elements, which keep their type,
to learn the number and the types of its results; then it is applied to all of them as plain
numbers. -/
def elementwise (leaf : List Value → m Value) (args : List Value) : m Value := do
  let arrs ← Fallible.raise (arrays args)
  if arrs.any fun a => a.data.isEmpty then throw .badValue
  let trial ← leaf (arrs.map fun a => Tensor.single a.element (a.data.headD .none))
  let shape ← Fallible.raise (Tensor.joinShapes (arrs.map fun a => a.shape))
  let columns := (arrs.map fun a => (Tensor.spread shape a).toArray)
  let results ← (List.range (Tensor.count shape)).mapM fun i =>
    leaf (columns.map fun c => c.getD i .none)
  let collect (t : ElementType) (vs : List Value) : m Value := do
    pure (.array t shape (← Fallible.raise (vs.mapM (Tensor.cast t))))
  match trial with
  | .tuple outs =>
    let columns ← (outs.zip (List.range outs.length)).mapM fun (out, k) => do
      collect (← Fallible.raise (resultElement out))
        (results.map fun r => (items r).getD k .none)
    pure (.tuple columns)
  | out => collect (← Fallible.raise (resultElement out)) results

/-- Adds what each value holds at a position: the items of the sequences, read in parallel. -/
def heads (rest : List (List Value)) : List Value := rest.map fun xs => xs.headD .none

def tails (rest : List (List Value)) : List (List Value) := rest.map fun xs => xs.drop 1

mutual

/-- Maps over the structure of a value and of others like it. For a partial application,
`onClosure` may take over; it gets the function, the arguments, and the mapped arguments. -/
def map (leaf : List Value → m Value)
    (onClosure : Option (Value → List Value → m Value → m Value))
    (v : Value) (others : List Value) : m Value :=
  match v with
  | .tuple xs => do
    Fallible.raise (requireAll (.tuple xs) (sameSort (.tuple xs)) others)
    Fallible.raise (requireAll (.tuple xs) (fun o => (items o).length = xs.length) others)
    pure (.tuple (← mapItems leaf onClosure xs (others.map items)))
  | .list xs => do
    Fallible.raise (requireAll (.list xs) (sameSort (.list xs)) others)
    Fallible.raise (requireAll (.list xs) (fun o => (items o).length = xs.length) others)
    pure (.list (← mapItems leaf onClosure xs (others.map items)))
  | .array e s d => elementwise leaf (.array e s d :: others)
  | .record t fs => do
    -- a field of this name takes the place of the record's own way to be mapped
    if (textField? "__map__" fs).isSome then throw .typeMismatch
    Fallible.raise (requireAll (.record t fs) (sameSort (.record t fs)) others)
    Fallible.raise (requireAll (.record t fs) (sameFields (.record t fs)) others)
    pure (.record t (← mapFields leaf onClosure fs others))
  | .closure f xs =>
    match onClosure with
    | some g => do
      if !others.isEmpty then throw .typeMismatch
      g f xs (do pure (.tuple (← mapItems leaf onClosure xs [])))
    | none => do
      Fallible.raise (requireAll (.closure f xs) (sameSort (.closure f xs)) others)
      Fallible.raise (requireAll (.closure f xs) (fun o => (items o).length = xs.length) others)
      let g ← map leaf onClosure f (others.map function)
      pure (.closure g (← mapItems leaf onClosure xs (others.map items)))
  | v => leaf (v :: others)

def mapItems (leaf : List Value → m Value)
    (onClosure : Option (Value → List Value → m Value → m Value))
    (xs : List Value) (rest : List (List Value)) : m (List Value) :=
  match xs with
  | [] => pure []
  | x :: xs => do
    let y ← map leaf onClosure x (heads rest)
    pure (y :: (← mapItems leaf onClosure xs (tails rest)))

/-- Maps over the fields of a record and of others, found by name. -/
def mapFields (leaf : List Value → m Value)
    (onClosure : Option (Value → List Value → m Value → m Value))
    (fs : List (Value × Value)) (others : List Value) : m (List (Value × Value)) :=
  match fs with
  | [] => pure []
  | (k, v) :: rest => do
    let w ← map leaf onClosure v (← Fallible.raise (others.mapM (fieldOf k)))
    pure ((k, w) :: (← mapFields leaf onClosure rest others))

end

end StructuralMap

end DiffLang
