import DiffLang.Session
import Mathlib.Order.Nat

/-!
# Computations that return

`Returns act o s a s'` says that a computation, started in the session `s` with its nodes being
about `o`, returns `a` and leaves the session `s'`. Every way of composing computations has one
lemma here that takes the fact apart; what a longer computation does is read off by rewriting with
them, and never by unfolding the monad.
-/

namespace DiffLang.Run

def Returns {α : Type} (act : Run α) (o : Option Origin) (s : Session) (a : α) (s' : Session) :
    Prop :=
  act o s = (Except.ok a, s')

variable {α β : Type} {o : Option Origin} {s s' s1 : Session} {act : Run α} {b : α}

theorem Returns.unique {a : α} {s2 : Session} (h1 : Returns act o s a s1)
    (h2 : Returns act o s b s2) : a = b ∧ s1 = s2 := by
  unfold Returns at h1 h2
  rw [h1] at h2
  injection h2 with hv hs
  injection hv with hv
  exact ⟨hv, hs⟩

/-- A computation that does not fail returns something. -/
theorem exists_returns (act : Run α) (o : Option Origin) (s : Session)
    (h : (act o s).1.isOk = true) :
    ∃ a s', Returns act o s a s' := by
  rcases hr : act o s with ⟨_ | a, s'⟩
  · rw [hr] at h
    simp [Except.isOk, Except.toBool] at h
  · exact ⟨a, s', hr⟩

theorem exists_returns_and (act : Run α) (o : Option Origin) (s : Session) {p : Session → Prop}
    (h : (act o s).1.isOk = true) (hp : p (act o s).2) : ∃ a s', Returns act o s a s' ∧ p s' := by
  obtain ⟨a, s', hr⟩ := exists_returns act o s h
  rw [show act o s = _ from hr] at hp
  exact ⟨a, s', hr, hp⟩

theorem returns_of_apply {a : α} (h : act o s = (.ok a, s1)) :
    Returns act o s b s' ↔ a = b ∧ s1 = s' := by
  unfold Returns
  rw [h, Prod.mk.injEq, Except.ok.injEq]

@[simp] theorem returns_pure {a : α} : Returns (pure a) o s b s' ↔ a = b ∧ s = s' :=
  returns_of_apply rfl

theorem returns_pure_self {a : α} : Returns (pure a) o s a s := returns_pure.mpr ⟨rfl, rfl⟩

theorem bind_apply (x : Run α) (f : α → Run β) (o : Option Origin) (s : Session) :
    (x >>= f) o s = match x o s with
      | (.ok a, s1) => f a o s1
      | (.error e, s1) => (.error e, s1) := by
  show (match x o s with | (r, s1) => ExceptT.bindCont (fun a => f a o) r s1) = _
  rcases x o s with ⟨r | a, s1⟩ <;> rfl

@[simp] theorem returns_bind {x : Run α} {f : α → Run β} {b : β} :
    Returns (x >>= f) o s b s' ↔ ∃ a s1, Returns x o s a s1 ∧ Returns (f a) o s1 b s' := by
  unfold Returns
  rw [bind_apply]
  constructor
  · intro h
    rcases hx : x o s with ⟨e | a, s1⟩
    · rw [hx] at h
      injection h with hv _
      cases hv
    · rw [hx] at h
      exact ⟨a, s1, rfl, h⟩
  · rintro ⟨a, s1, hx, hf⟩
    rw [hx]
    exact hf

@[simp] theorem returns_map {x : Run α} {f : α → β} {b : β} :
    Returns (f <$> x) o s b s' ↔ ∃ a, Returns x o s a s' ∧ f a = b := by
  rw [← bind_pure_comp, returns_bind]
  simp only [returns_pure]
  constructor
  · rintro ⟨a, s1, hx, hb, rfl⟩
    exact ⟨a, hx, hb⟩
  · rintro ⟨a, hx, hb⟩
    exact ⟨a, s', hx, hb, rfl⟩

@[simp] theorem returns_throw {e : Failure} {a : α} :
    Returns (throw e : Run α) o s a s' ↔ False := by
  refine ⟨fun h => ?_, False.elim⟩
  injection h with hv _
  cases hv

@[simp] theorem returns_get {a : Session} :
    Returns (get : Run Session) o s a s' ↔ s = a ∧ s = s' :=
  returns_of_apply rfl

theorem returns_get_bind {f : Session → Run β} {b : β} :
    Returns (get >>= f) o s b s' ↔ Returns (f s) o s b s' :=
  Iff.rfl

@[simp] theorem returns_read {a : Option Origin} :
    Returns (read : Run (Option Origin)) o s a s' ↔ o = a ∧ s = s' :=
  returns_of_apply rfl

@[simp] theorem returns_modifyGet {f : Session → α × Session} {a : α} :
    Returns (modifyGet f : Run α) o s a s' ↔ f s = (a, s') :=
  (returns_of_apply rfl).trans (@Prod.ext_iff _ _ (f s) (a, s')).symm

variable {a : Unit} {t body : Term} {g : GeneratorId} {id : TermId} {sym base : Symbol}
  {args : List Term} {version : Option Nat} {relation : String}

@[simp] theorem returns_modify {f : Session → Session} :
    Returns (modify f : Run Unit) o s a s' ↔ f s = s' :=
  (returns_of_apply rfl).trans (and_iff_right rfl)

@[simp] theorem returns_set {t : Session} :
    Returns (set t : Run Unit) o s a s' ↔ t = s' :=
  (returns_of_apply rfl).trans (and_iff_right rfl)

@[simp] theorem returns_about {subject : Subject} {transform : String} {a : α} :
    Returns (Run.about subject transform act) o s a s' ↔
      Returns act (some ⟨subject, transform⟩) s a s' :=
  Iff.rfl

/-- An attempt returns whatever comes of the computation. -/
theorem returns_attempt {r : Except Failure α} :
    Returns (Run.attempt act) o s r s' ↔ act o s = (r, s') := by
  show (Except.ok (act o s).1, (act o s).2) = (Except.ok r, s') ↔ _
  rw [Prod.mk.injEq, Except.ok.injEq]
  exact ⟨fun h => Prod.ext h.1 h.2, fun h => ⟨congrArg Prod.fst h, congrArg Prod.snd h⟩⟩

@[simp] theorem returns_lift {x : Fallible α} {a : α} :
    Returns (Run.lift x) o s a s' ↔ x = .ok a ∧ s = s' := by
  cases x with
  | ok | error => simp [Run.lift]

theorem returns_mapM_length {f : α → Run β} {xs : List α} {ys : List β}
    (h : Returns (xs.mapM f) o s ys s') : ys.length = xs.length := by
  induction xs generalizing ys s s' with
  | nil =>
    rw [List.mapM_nil] at h
    obtain ⟨rfl, _⟩ := returns_pure.mp h
    rfl
  | cons x xs ih =>
    simp only [List.mapM_cons, returns_bind, returns_pure] at h
    obtain ⟨y, _, _, ys, _, hys, rfl, _⟩ := h
    rw [List.length_cons, List.length_cons, ih hys]

/-! ## What computations keep

A relation that holds between the session before and after every step holds before and after the
whole, if it is reflexive and transitive. -/

/-- A computation that returns leaves a session that stands in a relation to the one before. -/
def Keeps (R : Session → Session → Prop) (act : Run α) : Prop :=
  ∀ (o : Option Origin) (s : Session) (a : α) (s' : Session), Returns act o s a s' → R s s'

section Keeps

variable {R : Session → Session → Prop}

theorem keeps_throw (e : Failure) : Keeps R (throw e : Run α) := by
  intro o s b s' h
  exact (returns_throw.mp h).elim

theorem keeps_about {subject : Subject} {transform : String} {act : Run α} (h : Keeps R act) :
    Keeps R (Run.about subject transform act) := by
  intro o s a s' hr
  exact h _ s a s' (returns_about.mp hr)

variable [IsPreorder Session R]

theorem keeps_pure (a : α) : Keeps R (pure a) := by
  intro o s b s' h
  rw [returns_pure] at h
  rw [h.2]
  exact refl s'

theorem Keeps.bind {x : Run α} {f : α → Run β} (hx : Keeps R x) (hf : ∀ a, Keeps R (f a)) :
    Keeps R (x >>= f) := by
  intro o s b s' h
  rw [returns_bind] at h
  obtain ⟨a, s1, h1, h2⟩ := h
  exact IsTrans.trans _ _ _ (hx o s a s1 h1) (hf a o s1 b s' h2)

theorem keeps_mapM {f : α → Run β} (hf : ∀ a, Keeps R (f a)) :
    ∀ xs : List α, Keeps R (xs.mapM f)
  | [] => by
    rw [List.mapM_nil]
    exact keeps_pure _
  | x :: xs => by
    rw [List.mapM_cons]
    exact (hf x).bind fun _ => (keeps_mapM hf xs).bind fun _ => keeps_pure _

end Keeps

/-- A computation leaves a session that stands in a relation to the one before, whether it returns
or fails. -/
def Leaves (R : Session → Session → Prop) (act : Run α) : Prop :=
  ∀ (o : Option Origin) (s : Session) (r : Except Failure α) (s' : Session),
    act o s = (r, s') → R s s'

section Leaves

variable {R : Session → Session → Prop} [IsPreorder Session R]

theorem leaves_throw (e : Failure) : Leaves R (throw e : Run α) := by
  intro o s r s' h
  obtain rfl := congrArg Prod.snd h
  exact refl s

theorem leaves_pure (a : α) : Leaves R (pure a) := by
  intro o s r s' h
  obtain rfl := congrArg Prod.snd h
  exact refl s

theorem Leaves.bind {x : Run α} {f : α → Run β} (hx : Leaves R x) (hf : ∀ a, Leaves R (f a)) :
    Leaves R (x >>= f) := by
  intro o s r s' h
  rw [bind_apply] at h
  rcases hxs : x o s with ⟨e | a, s1⟩
  · rw [hxs] at h
    obtain rfl := congrArg Prod.snd h
    exact hx o s _ s1 hxs
  · rw [hxs] at h
    exact IsTrans.trans _ _ _ (hx o s _ s1 hxs) (hf a o s1 r s' h)

omit [IsPreorder Session R] in
/-- A computation that is only tried leaves what it leaves. -/
theorem leaves_attempt {x : Run α} (hx : Leaves R x) : Leaves R (Run.attempt x) := by
  intro o s r s' h
  obtain rfl := congrArg Prod.snd h
  exact hx o s _ _ rfl

theorem leaves_mapM {f : α → Run β} (hf : ∀ a, Leaves R (f a)) :
    ∀ xs : List α, Leaves R (xs.mapM f)
  | [] => by
    rw [List.mapM_nil]
    exact leaves_pure _
  | x :: xs => by
    rw [List.mapM_cons]
    exact (hf x).bind fun _ => (leaves_mapM hf xs).bind fun _ => leaves_pure _

end Leaves

/-- The sessions after one that satisfies an invariant do so too. -/
def Stays (Inv : Session → Prop) (s s' : Session) : Prop := Inv s → Inv s'

instance {Inv : Session → Prop} : IsPreorder Session (Stays Inv) where
  refl _ h := h
  trans _ _ _ h h' hs := h' (h hs)

/-! ## Nodes, symbols and functions

Making a node only notes where it comes from; asking a generator only changes that generator. -/

open Session

def noted (s : Session) (o : Option Origin) : Session := { s with origins := s.origins.push o }

@[simp] theorem noted_lambda? (id : TermId) : (noted s o).lambda? id = s.lambda? id := rfl
@[simp] theorem noted_size : (noted s o).origins.size = s.origins.size + 1 :=
  Array.size_push _

@[simp] theorem returns_newId {i : TermId} :
    Returns newId o s i s' ↔ s.origins.size = i ∧ noted s o = s' := by
  unfold newId noted
  simp only [returns_bind, returns_read, returns_modifyGet, Prod.mk.injEq]
  constructor
  · rintro ⟨_, _, ⟨rfl, rfl⟩, hi, hs⟩
    exact ⟨hi, hs⟩
  · rintro ⟨hi, hs⟩
    exact ⟨_, _, ⟨rfl, rfl⟩, hi, hs⟩

theorem returns_numbered (f : TermId → α) {a : α} :
    Returns (do pure (f (← newId))) o s a s' ↔ f s.origins.size = a ∧ noted s o = s' := by
  simp only [returns_bind, returns_newId, returns_pure]
  constructor
  · rintro ⟨_, _, ⟨rfl, rfl⟩, ha, hs⟩
    exact ⟨ha, hs⟩
  · rintro ⟨ha, hs⟩
    exact ⟨_, _, ⟨rfl, rfl⟩, ha, hs⟩

@[simp] theorem returns_ident {x : Ident} :
    Returns (ident sym) o s x s' ↔
      (⟨s.origins.size, sym⟩ : Ident) = x ∧ noted s o = s' :=
  returns_numbered fun i => (⟨i, sym⟩ : Ident)

@[simp] theorem returns_symbolTerm :
    Returns (symbolTerm sym) o s t s' ↔
      Term.ident ⟨s.origins.size, sym⟩ = t ∧ noted s o = s' := by
  unfold symbolTerm
  simp only [returns_bind, returns_ident, returns_pure]
  constructor
  · rintro ⟨_, _, ⟨rfl, rfl⟩, ht, hs⟩
    exact ⟨ht, hs⟩
  · rintro ⟨ht, hs⟩
    exact ⟨_, _, ⟨rfl, rfl⟩, ht, hs⟩

@[simp] theorem returns_apply {fn : Term} :
    Returns (Session.apply fn args) o s t s' ↔
      Term.apply s.origins.size fn args = t ∧ noted s o = s' :=
  returns_numbered fun i => Term.apply i fn args

@[simp] theorem returns_tuple {items : List Term} :
    Returns (Session.tuple items) o s t s' ↔
      Term.tuple s.origins.size items = t ∧ noted s o = s' :=
  returns_numbered fun i => Term.tuple i items

@[simp] theorem returns_closure {fn : Term} :
    Returns (Session.closure fn args) o s t s' ↔
      Term.closure s.origins.size fn args = t ∧ noted s o = s' :=
  returns_numbered fun i => Term.closure i fn args

@[simp] theorem returns_binding {bindings : List (Term × Term)} :
    Returns (Session.bind bindings body) o s t s' ↔
      Term.bind s.origins.size bindings body = t ∧ noted s o = s' :=
  returns_numbered fun i => Term.bind i bindings body

def afterPlain (s : Session) (g : GeneratorId) (label : String) (version : Option Nat) :
    Session :=
  let new := ((s.generators.getD g default).plain label version).2
  { s with generators := s.generators.setIfInBounds g new }

@[simp] theorem returns_freshPlain {label : String} {x : Symbol} :
    Returns (freshPlain g label version) o s x s' ↔
      ((s.generators.getD g default).plain label version).1 = x ∧
        afterPlain s g label version = s' := by
  unfold freshPlain generate afterPlain
  simp only [returns_modifyGet, Prod.mk.injEq]

def afterDerived (s : Session) (g : GeneratorId) (base : Symbol) (relation : String)
    (version : Option Nat) : Session :=
  let new := ((s.generators.getD g default).derive base relation version).2
  { s with generators := s.generators.setIfInBounds g new }

@[simp] theorem returns_freshDerived {x : Symbol} :
    Returns (freshDerived g base relation version) o s x s' ↔
      ((s.generators.getD g default).derive base relation version).1 = x ∧
        afterDerived s g base relation version = s' := by
  unfold freshDerived generate afterDerived
  simp only [returns_modifyGet, Prod.mk.injEq]

@[simp] theorem afterDerived_lambda? (g : GeneratorId) (base : Symbol) (relation : String)
    (version : Option Nat) (id : TermId) :
    (afterDerived s g base relation version).lambda? id = s.lambda? id := rfl

@[simp] theorem returns_getLambda {l : Lambda} :
    Returns (getLambda id) o s l s' ↔ s.lambda? id = some l ∧ s = s' := by
  unfold getLambda
  simp only [returns_bind, returns_get]
  constructor
  · rintro ⟨_, _, ⟨rfl, rfl⟩, h⟩
    split at h
    next l' hl =>
      rw [returns_pure] at h
      exact ⟨by rw [hl, h.1], h.2⟩
    · exact absurd h (by simp)
  · rintro ⟨hl, rfl⟩
    refine ⟨_, _, ⟨rfl, rfl⟩, ?_⟩
    rw [hl]
    simp

def withLambda (s : Session) (id : TermId) (l : Lambda) : Session :=
  { s with lambdas := (id, l) :: s.lambdas }

@[simp] theorem returns_newLambda {params : List Ident} {generator : Option GeneratorId} :
    Returns (newLambda params body generator) o s id s' ↔
      s.origins.size = id ∧
        withLambda (noted s o) s.origins.size { params, body, generator } = s' := by
  unfold newLambda
  simp only [returns_bind, returns_newId, returns_modify, returns_pure]
  constructor
  · rintro ⟨_, _, ⟨rfl, rfl⟩, _, _, rfl, rfl, rfl⟩
    exact ⟨rfl, rfl⟩
  · rintro ⟨rfl, rfl⟩
    exact ⟨_, _, ⟨rfl, rfl⟩, (), _, rfl, rfl, rfl⟩

@[simp] theorem withLambda_lambda? (id : TermId) (l : Lambda) :
    (withLambda s id l).lambda? id = some l := by
  simp [withLambda, lambda?]

def changed (s : Session) (id : TermId) (f : Lambda → Lambda) : Session :=
  { s with lambdas := s.lambdas.map fun (i, l) => if i = id then (i, f l) else (i, l) }

@[simp] theorem changed_lambda? (id i : TermId) (f : Lambda → Lambda) :
    (changed s id f).lambda? i = (s.lambda? i).map fun l => if i = id then f l else l := by
  unfold changed lambda?
  dsimp only
  induction s.lambdas with
  | nil => simp
  | cons p rest ih =>
    obtain ⟨j, l⟩ := p
    have hmap : (if j = id then (j, f l) else (j, l)) = (j, if j = id then f l else l) := by
      split <;> rfl
    rw [List.map_cons]
    dsimp only
    rw [hmap, List.lookup_cons, List.lookup_cons]
    by_cases hij : i = j
    · subst hij
      simp
    · have hne : (i == j) = false := by simpa using hij
      rw [hne]
      exact ih

def registered (s : Session) (ref : Ident) (id : TermId) : Session :=
  let s := changed s id fun l => { l with ref := some ref }
  { s with registry := put sameKey (.symbol ref.sym) (.lambda id) s.registry }

@[simp] theorem returns_associate {ref : Ident} :
    Returns (associate ref (.lambda id)) o s a s' ↔ registered s ref id = s' := by
  unfold associate modifyLambda registered changed
  simp only [returns_bind, returns_modify]
  constructor
  · rintro ⟨_, _, rfl, rfl⟩
    rfl
  · rintro rfl
    exact ⟨(), _, rfl, rfl⟩

@[simp] theorem registered_lambda? (ref : Ident) (id i : TermId) :
    (registered s ref id).lambda? i =
      (s.lambda? i).map fun l => if i = id then { l with ref := some ref } else l :=
  changed_lambda? id i fun l => { l with ref := some ref }

/-! ## What making things keeps -/

/-- A relation between sessions that is kept when nodes, symbols and functions are made. -/
class Making (R : Session → Session → Prop) : Prop extends IsPreorder Session R where
  noted : ∀ s o, R s (noted s o)
  plain : ∀ s g label, R s (afterPlain s g label none)
  function : ∀ s o l, l.ref = none → R s (withLambda (Run.noted s o) s.origins.size l)

section Making

variable {R : Session → Session → Prop} [Making R]

theorem keeps_newId : Keeps R newId := by
  intro o s i s' h
  rw [returns_newId] at h
  rw [← h.2]
  exact Making.noted s o

theorem keeps_numbered (f : TermId → α) : Keeps R (do pure (f (← newId))) :=
  keeps_newId.bind fun _ => keeps_pure _

theorem keeps_freshPlain {label : String} : Keeps R (freshPlain g label) := by
  intro o s x s' h
  rw [returns_freshPlain] at h
  rw [← h.2]
  exact Making.plain s g label

theorem keeps_getLambda (id : TermId) : Keeps R (getLambda id) := by
  intro o s l s' h
  rw [returns_getLambda] at h
  rw [← h.2]
  exact refl s

theorem keeps_newLambda (params : List Ident) (body : Term) (generator : Option GeneratorId) :
    Keeps R (newLambda params body generator) := by
  intro o s id s' h
  rw [returns_newLambda] at h
  rw [← h.2]
  exact Making.function s o _ rfl

theorem keeps_freshNothing : Keeps R freshNothing :=
  keeps_freshPlain.bind fun x => keeps_numbered fun i => (⟨i, x⟩ : Ident)

end Making

/-- A relation that is kept when symbols in a relation to others are made, too. -/
class Deriving (R : Session → Session → Prop) : Prop extends Making R where
  derived : ∀ s g base relation, R s (afterDerived s g base relation none)

theorem keeps_freshDerived {R : Session → Session → Prop} [Deriving R] :
    Keeps R (freshDerived g base relation) := by
  intro o s x s' h
  rw [returns_freshDerived] at h
  rw [← h.2]
  exact Deriving.derived s g base relation

end DiffLang.Run

namespace DiffLang

/-! ## Values that can be compared -/

mutual

/-- Whether two values are equal, for numbers, truth values, exceptions and tuples of these. -/
def identical : Value → Value → Bool
  | .int m, .int n => m == n
  | .bool a, .bool b => a == b
  | .exception k xs, .exception l ys => k == l && identicalAll xs ys
  | .tuple xs, .tuple ys => identicalAll xs ys
  | _, _ => false

def identicalAll : List Value → List Value → Bool
  | [], [] => true
  | v :: vs, w :: ws => identical v w && identicalAll vs ws
  | _, _ => false

end

mutual

theorem eq_of_identical (v w : Value) (h : identical v w = true) : v = w := by
  unfold identical at h
  split at h
  · rw [eq_of_beq h]
  · rw [eq_of_beq h]
  next xs _ ys =>
    rw [Bool.and_eq_true] at h
    rw [eq_of_beq h.1, eq_of_identicalAll xs ys h.2]
  next xs ys => rw [eq_of_identicalAll xs ys h]
  · cases h

theorem eq_of_identicalAll (vs ws : List Value) (h : identicalAll vs ws = true) : vs = ws := by
  unfold identicalAll at h
  split at h
  · rfl
  next v vs w ws =>
    rw [Bool.and_eq_true] at h
    rw [eq_of_identical v w h.1, eq_of_identicalAll vs ws h.2]
  · cases h

end

theorem eq_some_of_identical {r : Option Value} {v : Value} (h : r.any (identical v) = true) :
    r = some v := by
  cases r with
  | none => cases h
  | some w => rw [eq_of_identical v w h]

theorem toOption_eq_some {x : Fallible Value} {v : Value} : x.toOption = some v ↔ x = .ok v := by
  cases x <;> simp [Except.toOption]

end DiffLang
