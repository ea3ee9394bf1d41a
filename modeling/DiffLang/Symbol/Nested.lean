/-!
# Names in nested scopes

A name is looked up in the innermost scope first and then outwards. A name that is only found
outside is free in the innermost scope.
-/

namespace DiffLang.Nested

/-- What a name stands for, and whether it is free: not found in the innermost scope, but in one
around it. -/
def find? {α : Type} (own : List (String × α)) (outer : List (List (String × α)))
    (name : String) : Option (Bool × α) :=
  match own.lookup name with
  | some a => some (false, a)
  | none => (outer.findSome? (List.lookup name)).map (true, ·)

end DiffLang.Nested
