import DiffLang.Dataflow.Propagation
import DiffLang.Proofs.Returns

/-!
# Nodes, facts and listeners

What the facts and the listeners of a node are after each change of an analysis. They belong to the
point that a term stands for: terms that are one node have the same facts and listeners.
-/

namespace DiffLang.Dataflow

@[simp] theorem samePoint_iff {a b : Term} : samePoint a b = true ↔ pointOf a = pointOf b :=
  decide_eq_true_iff

namespace Flow

variable {f : Flow} {t n : Term} {tr u : Track} {x : Fact} {l : Listener}

/-! ## Lists with one item for each key -/

section Keyed

variable {α β : Type} {p q : α → Bool} {g : α → α}

theorem find?_modifyFirst_of_eq (hg : ∀ a, p (g a) = p a) (items : List α) :
    (modifyFirst p g items).find? p = (items.find? p).map g := by
  induction items with
  | nil => rfl
  | cons a items ih =>
    rw [modifyFirst]
    split
    next h => simp [h, hg]
    next h => simp [h, ih]

theorem find?_modifyFirst_of_disjoint (hq : ∀ a, q (g a) = q a) (hpq : ∀ a, p a = true → q a = false)
    (items : List α) : (modifyFirst p g items).find? q = items.find? q := by
  induction items with
  | nil => rfl
  | cons a items ih =>
    rw [modifyFirst]
    split
    next h => simp [hq, hpq a h]
    next h => simp only [List.find?_cons, ih]

theorem any_modifyFirst (hq : ∀ a, q (g a) = q a) (items : List α) :
    (modifyFirst p g items).any q = items.any q := by
  induction items with
  | nil => rfl
  | cons a items ih =>
    rw [modifyFirst]
    split
    next h => simp [hq]
    next h => simp [ih]

end Keyed

/-! ## Visited nodes -/

theorem isVisited_congr (h : pointOf t = pointOf n) : f.isVisited t = f.isVisited n := by
  unfold isVisited samePoint
  rw [h]

theorem listeners_congr (h : pointOf t = pointOf n) : f.listeners t = f.listeners n := by
  unfold listeners samePoint
  rw [h]

theorem facts_congr (h : pointOf t = pointOf n) : f.facts tr t = f.facts tr n := by
  unfold facts Entry.isOf samePoint
  rw [h]

def withVisited (f : Flow) (t : Term) : Flow := { f with visited := f.visited ++ [{ node := t }] }

theorem isVisited_withVisited :
    (f.withVisited t).isVisited n = true ↔ f.isVisited n = true ∨ pointOf t = pointOf n := by
  simp [withVisited, isVisited]

theorem listeners_withVisited : (f.withVisited t).listeners n = f.listeners n := by
  unfold listeners withVisited
  rw [List.find?_append]
  cases hfind : f.visited.find? fun v => samePoint v.node n with
  | some v => rfl
  | none =>
    simp only [Option.none_or, List.find?_singleton]
    split <;> rfl

@[simp] theorem isVisited_listen : (f.listen t l).isVisited n = f.isVisited n := by
  unfold isVisited listen
  rw [any_modifyFirst]
  exact fun _ => rfl

theorem listeners_listen (h : f.isVisited t = true) :
    (f.listen t l).listeners n =
      if pointOf t = pointOf n then f.listeners n ++ [l] else f.listeners n := by
  split
  next heq =>
    rw [← listeners_congr heq, ← listeners_congr heq]
    unfold listeners listen
    rw [find?_modifyFirst_of_eq (by intro; rfl)]
    obtain ⟨v, hv⟩ := Option.isSome_iff_exists.mp (List.find?_isSome.mpr (List.any_eq_true.mp h))
    rw [hv]
    rfl
  next hne =>
    unfold listeners listen
    dsimp only
    rw [find?_modifyFirst_of_disjoint (by intro; rfl)]
    intro v hv
    rw [samePoint_iff] at hv
    simpa [samePoint, hv] using hne

/-! ## Facts -/

theorem facts_touch : (f.touch u t).facts tr n = f.facts tr n := by
  unfold touch
  split
  · rfl
  · unfold facts
    rw [List.find?_append]
    cases f.entries.find? (Entry.isOf tr n) with
    | some e => rfl
    | none =>
      simp only [Option.none_or, List.find?_singleton]
      split <;> rfl

theorem any_isOf_touch : (f.touch u t).entries.any (Entry.isOf u t) = true := by
  unfold touch
  split
  next h => exact h
  · simp [Entry.isOf, samePoint]

theorem facts_addFact :
    (f.addFact u t x).facts tr n =
      if u = tr ∧ pointOf t = pointOf n then f.facts tr n ++ [x] else f.facts tr n := by
  rw [show f.facts tr n = (f.touch u t).facts tr n from facts_touch.symm]
  unfold addFact
  split
  next heq =>
    obtain ⟨rfl, heq⟩ := heq
    rw [← facts_congr heq, ← facts_congr heq]
    unfold facts
    rw [find?_modifyFirst_of_eq (by intro; rfl)]
    obtain ⟨e, he⟩ := Option.isSome_iff_exists.mp
      (List.find?_isSome.mpr (List.any_eq_true.mp (any_isOf_touch (f := f))))
    rw [he]
    rfl
  next hne =>
    unfold facts
    dsimp only
    rw [find?_modifyFirst_of_disjoint (by intro; rfl)]
    intro e he
    simp only [Entry.isOf, Bool.and_eq_true, decide_eq_true_eq, samePoint_iff] at he
    obtain ⟨rfl, he⟩ := he
    by_cases htr : e.track = tr
    · simpa [Entry.isOf, samePoint, he, htr] using fun h => hne ⟨htr, h⟩
    · simp [Entry.isOf, htr]

@[simp] theorem touch_visited : (f.touch u t).visited = f.visited := by
  unfold touch
  split <;> rfl

@[simp] theorem touch_always : (f.touch u t).always = f.always := by
  unfold touch
  split <;> rfl

@[simp] theorem touch_arguments : (f.touch u t).arguments = f.arguments := by
  unfold touch
  split <;> rfl

@[simp] theorem touch_meetings : (f.touch u t).meetings = f.meetings := by
  unfold touch
  split <;> rfl

@[simp] theorem touch_tracks : (f.touch u t).tracks = f.tracks := by
  unfold touch
  split <;> rfl

end Flow

/-! ## What analyses do -/

namespace Analysis

variable {α β : Type} {f f' : Flow} {s s' : Session} {r : Except Failure α}

def Gives (act : Analysis α) (f : Flow) (s : Session) (a : α) (f' : Flow) (s' : Session) : Prop :=
  act f s = ((.ok a, f'), s')

def Fails (act : Analysis α) (f : Flow) (s : Session) (e : Failure) (f' : Flow) (s' : Session) :
    Prop :=
  act f s = ((.error e, f'), s')

theorem outcome_eq {r' : Except Failure α} :
    (((r, f), s) : (Except Failure α × Flow) × Session) = ((r', f'), s') ↔
      r = r' ∧ f = f' ∧ s = s' := by
  simp [and_assoc]

variable {a : α} {act : Analysis α} {s1 : Session}

theorem gives_of_apply {f1 : Flow} (h : act f s = ((r, f1), s1)) :
    Gives act f s a f' s' ↔ r = .ok a ∧ f1 = f' ∧ s1 = s' := by
  unfold Gives
  rw [h]
  exact outcome_eq

variable {e : Failure}

theorem fails_of_apply {f1 : Flow} (h : act f s = ((r, f1), s1)) :
    Fails act f s e f' s' ↔ r = .error e ∧ f1 = f' ∧ s1 = s' := by
  unfold Fails
  rw [h]
  exact outcome_eq

theorem bind_apply (x : Analysis α) (k : α → Analysis β) (f : Flow) (s : Session) :
    (x >>= k) f s = match x f s with
      | ((.ok a, f1), s1) => k a f1 s1
      | ((.error e, f1), s1) => ((.error e, f1), s1) := by
  show (match x f s with | ((r, f1), s1) => ExceptT.bindCont k r f1 s1) = _
  rcases x f s with ⟨⟨r | a, f1⟩, s1⟩ <;> rfl

@[simp] theorem gives_pure {b : α} : Gives (pure a) f s b f' s' ↔ a = b ∧ f = f' ∧ s = s' := by
  rw [gives_of_apply rfl, Except.ok.injEq]

@[simp] theorem fails_pure : ¬ Fails (pure a) f s e f' s' := by
  simp [fails_of_apply (show (pure a : Analysis α) f s = ((.ok a, f), s) from rfl)]

@[simp] theorem gives_throw : ¬ Gives (throw e) f s a f' s' := by
  simp [gives_of_apply (show (throw e : Analysis α) f s = ((.error e, f), s) from rfl)]

@[simp] theorem fails_throw {e' : Failure} :
    Fails (throw e : Analysis α) f s e' f' s' ↔ e = e' ∧ f = f' ∧ s = s' := by
  rw [fails_of_apply rfl, Except.error.injEq]

@[simp] theorem gives_bind {x : Analysis α} {k : α → Analysis β} {b : β} :
    Gives (x >>= k) f s b f' s' ↔
      ∃ a f1 s1, Gives x f s a f1 s1 ∧ Gives (k a) f1 s1 b f' s' := by
  have happly := bind_apply x k f s
  rcases hx : x f s with ⟨⟨e | a, f1⟩, s1⟩
  · rw [hx] at happly
    simp [gives_of_apply hx, gives_of_apply happly]
  · rw [hx] at happly
    unfold Gives at *
    rw [happly, hx]
    constructor
    · intro h
      exact ⟨a, f1, s1, rfl, h⟩
    · rintro ⟨a, f1, s1, h, hk⟩
      cases h
      exact hk

@[simp] theorem fails_bind {x : Analysis α} {k : α → Analysis β} :
    Fails (x >>= k) f s e f' s' ↔
      Fails x f s e f' s' ∨ ∃ a f1 s1, Gives x f s a f1 s1 ∧ Fails (k a) f1 s1 e f' s' := by
  have happly := bind_apply x k f s
  rcases hx : x f s with ⟨⟨e | a, f1⟩, s1⟩
  · rw [hx] at happly
    simp [gives_of_apply hx, fails_of_apply hx, fails_of_apply happly]
  · rw [hx] at happly
    unfold Fails Gives at *
    rw [happly, hx]
    constructor
    · intro h
      exact .inr ⟨a, f1, s1, rfl, h⟩
    · rintro (h | ⟨a, f1, s1, h, hk⟩)
      · cases h
      · cases h
        exact hk

@[simp] theorem gives_flow {a : Flow} : Gives flow f s a f' s' ↔ f = a ∧ f = f' ∧ s = s' := by
  rw [gives_of_apply rfl, Except.ok.injEq]

@[simp] theorem gives_change {g : Flow → Flow} {a : Unit} :
    Gives (change g) f s a f' s' ↔ g f = f' ∧ s = s' := by
  simp [gives_of_apply (show change g f s = ((.ok (), g f), s) from rfl)]

@[simp] theorem gives_ofFallible {x : Fallible α} :
    Gives (ofFallible x) f s a f' s' ↔ x = .ok a ∧ f = f' ∧ s = s' := by
  cases x with
  | ok | error => simp [ofFallible]

@[simp] theorem fails_ofFallible {x : Fallible α} :
    Fails (ofFallible x) f s e f' s' ↔ x = .error e ∧ f = f' ∧ s = s' := by
  cases x with
  | ok | error => simp [ofFallible]

@[simp] theorem gives_getThe {a : Session} :
    Gives (getThe Session) f s a f' s' ↔ s = a ∧ f = f' ∧ s = s' := by
  rw [gives_of_apply rfl, Except.ok.injEq]

@[simp] theorem fails_getThe : ¬ Fails (getThe Session) f s e f' s' := by
  rw [fails_of_apply (show (getThe Session : Analysis Session) f s = ((.ok s, f), s) from rfl)]
  exact fun h => nomatch h.1

@[simp] theorem gives_lift {act : Run α} :
    Gives (lift act) f s a f' s' ↔ act.Returns none s a s' ∧ f = f' := by
  rw [gives_of_apply (show lift act f s = (((act none s).1, f), (act none s).2) from rfl)]
  unfold Run.Returns
  rw [Prod.ext_iff]
  exact ⟨fun ⟨h, hf, hs⟩ => ⟨⟨h, hs⟩, hf⟩, fun ⟨⟨h, hs⟩, hf⟩ => ⟨h, hf, hs⟩⟩

@[simp] theorem fails_lift {act : Run α} :
    Fails (lift act) f s e f' s' ↔ act none s = (.error e, s') ∧ f = f' := by
  rw [fails_of_apply (show lift act f s = (((act none s).1, f), (act none s).2) from rfl),
    Prod.ext_iff]
  exact ⟨fun ⟨h, hf, hs⟩ => ⟨⟨h, hs⟩, hf⟩, fun ⟨⟨h, hs⟩, hf⟩ => ⟨h, hf, hs⟩⟩

/-- An analysis leaves the session as it is and returns what satisfies `Q`, or it fails, but not for a
missing key. -/
def Spec (act : Analysis α) (f : Flow) (s : Session) (Q : α → Flow → Prop) : Prop :=
  (∀ a f' s', Gives act f s a f' s' → s' = s ∧ Q a f') ∧
    ∀ e f' s', Fails act f s e f' s' → e.kind ≠ .key

section Spec

variable {Q : β → Flow → Prop} {k : α → Analysis β}

theorem spec_pure {b : β} (h : Q b f) : Spec (pure b) f s Q := by
  refine ⟨fun b' f' s' hg => ?_, fun e f' s' hf => (fails_pure hf).elim⟩
  obtain ⟨rfl, rfl, rfl⟩ := gives_pure.mp hg
  exact ⟨rfl, h⟩

theorem spec_throw (h : e.kind ≠ .key) : Spec (throw e : Analysis β) f s Q := by
  refine ⟨fun b f' s' hg => (gives_throw hg).elim, fun e' f' s' hf => ?_⟩
  rwa [← (fails_throw.mp hf).1]

theorem spec_flow {k : Flow → Analysis β} (h : Spec (k f) f s Q) : Spec (flow >>= k) f s Q := h

theorem spec_change {g : Flow → Flow} {k : Unit → Analysis β} (h : Spec (k ()) (g f) s Q) :
    Spec (change g >>= k) f s Q := h

theorem spec_getThe {k : Session → Analysis β} (h : Spec (k s) f s Q) :
    Spec (getThe Session >>= k) f s Q := h

theorem spec_ofFallible {x : Fallible α} (hok : ∀ a, x = .ok a → Spec (k a) f s Q)
    (herror : ∀ e, x = .error e → e.kind ≠ .key) : Spec (ofFallible x >>= k) f s Q := by
  cases x with
  | ok a => exact hok a rfl
  | error e => exact spec_throw (herror e rfl)

theorem spec_getLambda {id : TermId} {k : Lambda → Analysis β}
    (h : ∀ l, s.lambda? id = some l → Spec (k l) f s Q) :
    Spec (lift (Session.getLambda id) >>= k) f s Q := by
  refine ⟨fun b f' s' hg => ?_, fun e f' s' hf => ?_⟩
  · obtain ⟨l, _, _, hl, hg⟩ := gives_bind.mp hg
    rw [gives_lift, Run.returns_getLambda] at hl
    obtain ⟨⟨hl, rfl⟩, rfl⟩ := hl
    exact (h l hl).1 _ _ _ hg
  · rcases fails_bind.mp hf with hf | ⟨l, _, _, hl, hf⟩
    · obtain ⟨hf, -⟩ := fails_lift.mp hf
      unfold Session.getLambda at hf
      rw [Run.bind_apply, show (get : Run Session) none s = (.ok s, s) from rfl] at hf
      cases hl : s.lambda? id with
      | some l =>
        simp only [hl] at hf
        cases hf
      | none =>
        simp only [hl] at hf
        cases hf
        decide
    · rw [gives_lift, Run.returns_getLambda] at hl
      obtain ⟨⟨hl, rfl⟩, rfl⟩ := hl
      exact (h l hl).2 _ _ _ hf

end Spec

end Analysis

end DiffLang.Dataflow
