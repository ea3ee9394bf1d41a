import DiffLang.Proofs.Steps
import DiffLang.Term.Reading

/-!
# Quiet steps of the reader

What the reader's own ways of running a computation do: at a place of the text, in another scope,
and those that fail. Most other steps only number a node and note where it comes from. `Quiet` says
that nothing else of the session has changed, so that what follows need not look at numbers and
places.
-/

namespace DiffLang.Reading

open Run Session

variable {α : Type} {o : Option Origin} {sc sc' : Scope} {s s1 s' : Session} {a : α}

variable {act : Reader α}

@[simp] theorem steps_located {pos : Source.Pos} :
    Steps (located pos act) o sc s a sc' s' ↔
      Steps act (some ⟨.place (sc.place pos), "parse"⟩) sc s a sc' s' :=
  Iff.rfl

@[simp] theorem steps_inScope {p p' : Scope} :
    Steps (inScope p act) o sc s (a, p') sc' s' ↔ Steps act o p s a p' s' ∧ sc = sc' := by
  show Returns (act p >>= fun r => pure (r, sc)) o s ((a, p'), sc') s' ↔ _
  simp only [returns_bind, returns_pure, Prod.mk.injEq]
  constructor
  · rintro ⟨_, _, hx, ⟨rfl, rfl⟩, rfl⟩
    exact ⟨hx, rfl⟩
  · rintro ⟨hx, rfl⟩
    exact ⟨_, _, hx, ⟨rfl, rfl⟩, rfl⟩

variable {l : Option Location} {t : Term}

@[simp] theorem returns_findLocation :
    Returns (findLocation t) o s l s' ↔ s.placeOf s.origins.size (.term t) = l ∧ s = s' := by
  unfold findLocation
  simp only [returns_bind, returns_get, returns_pure]
  constructor
  · rintro ⟨_, _, ⟨rfl, rfl⟩, hl, hs⟩
    exact ⟨hl, hs⟩
  · rintro ⟨hl, hs⟩
    exact ⟨_, _, ⟨rfl, rfl⟩, hl, hs⟩

theorem steps_of_aboutPlaceOf
    (h : Steps (aboutPlaceOf t act) o sc s a sc' s') : ∃ o', Steps act o' sc s a sc' s' := by
  unfold Steps aboutPlaceOf at h
  rw [returns_bind] at h
  obtain ⟨l, s1, hl, h⟩ := h
  rw [returns_findLocation] at hl
  rw [returns_about] at h
  rw [← hl.2] at h
  exact ⟨_, h⟩

theorem not_returns_syntaxFailure {text : String} :
    ¬ Returns (syntaxFailure text l : Run α) o s a s' := by
  unfold syntaxFailure
  intro h
  cases l with
  | some | none =>
    simp only [returns_bind, returns_throw] at h
    obtain ⟨_, _, _, h⟩ := h
    exact h

@[simp] theorem returns_syntaxFailure {text : String} :
    Returns (syntaxFailure text l : Run α) o s a s' ↔ False :=
  iff_of_false not_returns_syntaxFailure id

@[simp] theorem returns_unrecognized {kind : String} :
    Returns (unrecognized kind l : Run α) o s a s' ↔ False :=
  iff_of_false not_returns_syntaxFailure id

theorem returns_currentLocation (h : Returns currentLocation o s l s') : s' = s := by
  unfold currentLocation at h
  rw [returns_bind] at h
  obtain ⟨o', s1, ho, h⟩ := h
  rw [returns_read] at ho
  obtain ⟨-, rfl⟩ := ho
  split at h
  · exact (returns_throw.mp h).elim
  · rw [returns_get_bind, returns_pure] at h
    exact h.2.symm

/-! ## Steps that only make nodes -/

/-- Two sessions differ only in the places of their nodes, and no number is given back. -/
structure Quiet (s s' : Session) : Prop where
  rest : s' = { s with origins := s'.origins }
  size : s.origins.size ≤ s'.origins.size

theorem Quiet.refl (s : Session) : Quiet s s := ⟨rfl, le_rfl⟩

theorem Quiet.trans (h : Quiet s s1) (h' : Quiet s1 s') : Quiet s s' := by
  refine ⟨?_, h.size.trans h'.size⟩
  rw [h'.rest, h.rest]

theorem Quiet.noted (s : Session) (o : Option Origin) : Quiet s (noted s o) :=
  ⟨rfl, by simp⟩

theorem Quiet.setOrigin {id : TermId} {r : Option Origin} {a : Unit}
    (h : Returns (setOrigin id r) o s a s') : Quiet s s' := by
  unfold Session.setOrigin at h
  rw [returns_modify] at h
  subst h
  exact ⟨rfl, by simp⟩

theorem Quiet.currentLocation (h : Returns currentLocation o s l s') :
    Quiet s s' := by
  rw [returns_currentLocation h]
  exact Quiet.refl s

theorem returns_literal {v : Value} :
    Returns (literal v) o s t s' ↔ Term.literal s.origins.size v = t ∧ noted s o = s' :=
  returns_numbered fun i => Term.literal i v

theorem returns_builtin {name : String} :
    Returns (builtin name) o s t s' ↔
      Term.ident ⟨s.origins.size, .builtin name⟩ = t ∧ noted s o = s' :=
  returns_symbolTerm

theorem returns_operator {op : String} (h : Returns (operator op) o s t s') :
    ∃ name i, operation? op = some name ∧ t = .ident ⟨i, .builtin name⟩ ∧ Quiet s s' := by
  unfold operator at h
  split at h
  next name hname =>
    rw [returns_builtin] at h
    obtain ⟨rfl, rfl⟩ := h
    exact ⟨name, _, hname, rfl, Quiet.noted s o⟩
  · exact (returns_throw.mp h).elim

theorem returns_copy {x y : Ident} {keep : Bool} (h : Returns (copy x keep) o s y s') :
    y.sym = x.sym ∧ Quiet s s' := by
  unfold copy at h
  simp only [returns_bind, returns_ident] at h
  obtain ⟨_, _, ⟨rfl, rfl⟩, h⟩ := h
  split at h
  · rw [returns_get_bind] at h
    split at h
    · simp only [returns_bind, returns_pure] at h
      obtain ⟨_, s1, h1, rfl, rfl⟩ := h
      exact ⟨rfl, (Quiet.noted s o).trans (Quiet.setOrigin h1)⟩
    · rw [returns_pure] at h
      obtain ⟨rfl, rfl⟩ := h
      exact ⟨rfl, Quiet.noted s o⟩
  · rw [returns_pure] at h
    obtain ⟨rfl, rfl⟩ := h
    exact ⟨rfl, Quiet.noted s o⟩

/-! ## Lists -/

/-- Going through a list, each step of which returns nothing and changes nothing. -/
theorem steps_forIn_still {f : α → PUnit → Reader (ForInStep PUnit)} {r : PUnit}
    (hf : ∀ a u sc s r sc' s', Steps (f a u) o sc s r sc' s' → sc' = sc ∧ s' = s) :
    ∀ {xs : List α} {u : PUnit} {sc : Scope} {s : Session},
      Steps (forIn xs u f) o sc s r sc' s' → sc' = sc ∧ s' = s
  | [], u, sc, s, h => by
    rw [List.forIn_nil, steps_pure] at h
    exact ⟨h.2.1.symm, h.2.2.symm⟩
  | x :: xs, u, sc, s, h => by
    rw [List.forIn_cons, steps_bind] at h
    obtain ⟨r1, sc1, s1, h1, h2⟩ := h
    obtain ⟨rfl, rfl⟩ := hf _ _ _ _ _ _ _ h1
    cases r1 with
    | done =>
      rw [steps_pure] at h2
      exact ⟨h2.2.1.symm, h2.2.2.symm⟩
    | yield => exact steps_forIn_still hf h2

end DiffLang.Reading
