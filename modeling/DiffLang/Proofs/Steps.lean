import DiffLang.Proofs.Returns

/-!
# Computations with a state of their own

Some computations in a session carry a state besides: the reader has a scope, and the transformation
of a function has the variables it has made. `Steps act o st s a st' s'` says that such a computation,
started in the state `st` and the session `s`, returns `a` and leaves the state `st'` and the session
`s'`. As for plain computations, every way of composing them has one lemma here.
-/

namespace DiffLang.Run

open Session

variable {σ α β : Type} {o : Option Origin} {st st' : σ} {s s' : Session} {a : α}

/-- A computation with a state of its own returns a value and leaves a state and a session. -/
def Steps (act : StateT σ Run α) (o : Option Origin) (st : σ) (s : Session) (a : α) (st' : σ)
    (s' : Session) : Prop :=
  Returns (act st) o s (a, st') s'

@[simp] theorem steps_pure {b : α} :
    Steps (pure a) o st s b st' s' ↔ a = b ∧ st = st' ∧ s = s' := by
  show Returns (pure (a, st)) o s (b, st') s' ↔ _
  rw [returns_pure, Prod.mk.injEq, and_assoc]

theorem steps_pure_self : Steps (pure a) o st s a st s := steps_pure.mpr ⟨rfl, rfl, rfl⟩

variable {f : α → StateT σ Run β} {ys : List β}

@[simp] theorem steps_bind {x : StateT σ Run α} {b : β} :
    Steps (x >>= f) o st s b st' s' ↔
      ∃ a st1 s1, Steps x o st s a st1 s1 ∧ Steps (f a) o st1 s1 b st' s' := by
  show Returns (x st >>= fun p => f p.1 p.2) o s (b, st') s' ↔ _
  rw [returns_bind]
  constructor
  · rintro ⟨⟨a, st1⟩, s1, hx, hf⟩
    exact ⟨a, st1, s1, hx, hf⟩
  · rintro ⟨a, st1, s1, hx, hf⟩
    exact ⟨(a, st1), s1, hx, hf⟩

@[simp] theorem steps_get {a : σ} :
    Steps (get : StateT σ Run σ) o st s a st' s' ↔ st = a ∧ st = st' ∧ s = s' := by
  show Returns (pure (st, st)) o s (a, st') s' ↔ _
  rw [returns_pure, Prod.mk.injEq, and_assoc]

@[simp] theorem steps_set {t : σ} {a : PUnit} :
    Steps (set t : StateT σ Run PUnit) o st s a st' s' ↔ t = st' ∧ s = s' := by
  show Returns (pure (PUnit.unit, t)) o s (a, st') s' ↔ _
  rw [returns_pure, Prod.mk.injEq]
  simp

@[simp] theorem steps_modify {f : σ → σ} {a : PUnit} :
    Steps (modify f : StateT σ Run PUnit) o st s a st' s' ↔ f st = st' ∧ s = s' := by
  show Returns (pure (PUnit.unit, f st)) o s (a, st') s' ↔ _
  rw [returns_pure, Prod.mk.injEq]
  simp

@[simp] theorem steps_lift {x : Run α} :
    Steps (liftM x : StateT σ Run α) o st s a st' s' ↔ Returns x o s a s' ∧ st = st' := by
  show Returns (x >>= fun a => pure (a, st)) o s (a, st') s' ↔ _
  simp only [returns_bind, returns_pure, Prod.mk.injEq]
  constructor
  · rintro ⟨_, _, hx, ⟨rfl, rfl⟩, rfl⟩
    exact ⟨hx, rfl⟩
  · rintro ⟨hx, rfl⟩
    exact ⟨_, _, hx, ⟨rfl, rfl⟩, rfl⟩

@[simp] theorem steps_throw {e : Failure} :
    Steps (throw e : StateT σ Run α) o st s a st' s' ↔ False := by
  refine ⟨fun h => ?_, False.elim⟩
  have h' : Returns (throw e >>= fun a => pure (a, st) : Run (α × σ)) o s (a, st') s' := h
  rw [returns_bind] at h'
  obtain ⟨_, _, h', _⟩ := h'
  exact returns_throw.mp h'

/-! The first step of a computation that only looks at the state or changes it. -/

section First

variable {b : β}

theorem steps_get_bind {f : σ → StateT σ Run β} :
    Steps (get >>= f) o st s b st' s' ↔ Steps (f st) o st s b st' s' :=
  Iff.rfl

theorem steps_set_bind {t : σ} {f : PUnit → StateT σ Run β} :
    Steps (set t >>= f) o st s b st' s' ↔ Steps (f ⟨⟩) o t s b st' s' :=
  Iff.rfl

theorem steps_modify_bind {g : σ → σ} {f : PUnit → StateT σ Run β} :
    Steps (modify g >>= f) o st s b st' s' ↔ Steps (f ⟨⟩) o (g st) s b st' s' :=
  Iff.rfl

end First

theorem steps_mapM_nil : Steps ([].mapM f) o st s ys st' s' ↔ [] = ys ∧ st = st' ∧ s = s' := by
  rw [List.mapM_nil, steps_pure]

theorem steps_mapM_cons {x : α} {xs : List α} :
    Steps ((x :: xs).mapM f) o st s ys st' s' ↔ ∃ y st1 s1, Steps (f x) o st s y st1 s1 ∧
      ∃ rest, Steps (xs.mapM f) o st1 s1 rest st' s' ∧ y :: rest = ys := by
  simp only [List.mapM_cons, steps_bind, steps_pure]
  constructor
  · rintro ⟨y, st1, s1, hy, rest, _, _, hrest, rfl, rfl, rfl⟩
    exact ⟨y, st1, s1, hy, rest, hrest, rfl⟩
  · rintro ⟨y, st1, s1, hy, rest, hrest, rfl⟩
    exact ⟨y, st1, s1, hy, rest, st', s', hrest, rfl, rfl, rfl⟩

/-- A computation of which only the value is kept. -/
theorem returns_run' {act : StateT σ Run α} :
    Returns (StateT.run' act st) o s a s' ↔ ∃ st', Steps act o st s a st' s' := by
  unfold StateT.run'
  rw [returns_map]
  constructor
  · rintro ⟨⟨_, st'⟩, h, rfl⟩
    exact ⟨st', h⟩
  · rintro ⟨st', h⟩
    exact ⟨(a, st'), h, rfl⟩

/-! ## What computations keep -/

/-- A computation that returns leaves a session that stands in a relation to the one before. -/
def KeepsIn (R : Session → Session → Prop) (act : StateT σ Run α) : Prop :=
  ∀ ⦃o : Option Origin⦄ ⦃st : σ⦄ ⦃s : Session⦄ ⦃a : α⦄ ⦃st' : σ⦄ ⦃s' : Session⦄,
    Steps act o st s a st' s' → R s s'

section KeepsIn

variable {R : Session → Session → Prop}

theorem keepsIn_throw (e : Failure) : KeepsIn R (throw e : StateT σ Run α) :=
  fun _ _ _ _ _ _ h => (steps_throw.mp h).elim

theorem keepsIn_lift {x : Run α} (h : Keeps R x) : KeepsIn R (liftM x : StateT σ Run α) :=
  fun _ _ _ _ _ _ hx => h _ _ _ _ (steps_lift.mp hx).1

theorem keeps_run' {act : StateT σ Run α} (h : KeepsIn R act) : Keeps R (StateT.run' act st) := by
  intro o s a s' hr
  obtain ⟨st', hsteps⟩ := returns_run'.mp hr
  exact h hsteps

variable [IsPreorder Session R]

theorem keepsIn_pure (a : α) : KeepsIn R (pure a : StateT σ Run α) := by
  intro o st s b st' s' h
  rw [(steps_pure.mp h).2.2]
  exact refl s'

theorem keepsIn_get : KeepsIn R (get : StateT σ Run σ) := by
  intro o st s b st' s' h
  rw [(steps_get.mp h).2.2]
  exact refl s'

theorem keepsIn_set (t : σ) : KeepsIn R (set t : StateT σ Run PUnit) := by
  intro o st s b st' s' h
  rw [(steps_set.mp h).2]
  exact refl s'

theorem keepsIn_modify (f : σ → σ) : KeepsIn R (modify f : StateT σ Run PUnit) := by
  intro o st s b st' s' h
  rw [(steps_modify.mp h).2]
  exact refl s'

theorem KeepsIn.bind {x : StateT σ Run α} (hx : KeepsIn R x) (hf : ∀ a, KeepsIn R (f a)) :
    KeepsIn R (x >>= f) := by
  intro o st s b st' s' h
  obtain ⟨a, st1, s1, h1, h2⟩ := steps_bind.mp h
  exact IsTrans.trans _ _ _ (hx h1) (hf a h2)

theorem keepsIn_mapM (hf : ∀ a, KeepsIn R (f a)) :
    ∀ xs : List α, KeepsIn R (xs.mapM f)
  | [] => by
    rw [List.mapM_nil]
    exact keepsIn_pure _
  | x :: xs => by
    rw [List.mapM_cons]
    exact (hf x).bind fun _ => (keepsIn_mapM hf xs).bind fun _ => keepsIn_pure _

theorem keepsIn_foldlM {f : β → α → StateT σ Run β} (hf : ∀ b a, KeepsIn R (f b a)) :
    ∀ (xs : List α) (b : β), KeepsIn R (xs.foldlM f b)
  | [], b => by
    rw [List.foldlM_nil]
    exact keepsIn_pure _
  | x :: xs, b => by
    rw [List.foldlM_cons]
    exact (hf b x).bind fun c => keepsIn_foldlM hf xs c

end KeepsIn

end DiffLang.Run
