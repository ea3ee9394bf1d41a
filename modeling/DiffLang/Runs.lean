/-!
# Runs

A list is split into runs of neighbours of the same class. The class of a run is that of its first
item; the runs joined give the list back.
-/

namespace DiffLang.Runs

variable {m : Type → Type} [Monad m] {κ α : Type}

/-- Goes on with a run of a class, whose items so far are given backwards. A run without items is
left out. -/
def extend (same : κ → κ → m Bool) (c : κ) (run : List α) : List (κ × α) → m (List (κ × List α))
  | [] => pure (finish c run)
  | (d, a) :: rest => do
    if ← same c d then extend same c (a :: run) rest
    else pure (finish c run ++ (← extend same d [a] rest))
where
  finish (c : κ) (run : List α) : List (κ × List α) :=
    if run.isEmpty then [] else [(c, run.reverse)]

/-- The runs of a list of items with their classes. The class before the first item is given. -/
def split (same : κ → κ → m Bool) (start : κ) (items : List (κ × α)) : m (List (κ × List α)) :=
  extend same start [] items

end DiffLang.Runs
