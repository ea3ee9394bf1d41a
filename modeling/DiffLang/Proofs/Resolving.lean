import DiffLang.Program
import DiffLang.Proofs.Returns

/-!
# Looking up what names stand for

Following a name to its value changes nothing in the session (`leaves_acquire`). So all that looking
up a name can do is to register what it stands for, and a name that is registered is found without
any change (`returns_resolve`).
-/

namespace DiffLang.Program

open Run Session StructuralMap

variable {R : Session → Session → Prop} [IsPreorder Session R] {α : Type}

/-! ## Structural maps -/

theorem leaves_raise (x : Fallible α) : Leaves R (x.raise : Run α) := by
  cases x with
  | ok a => exact leaves_pure a
  | error e => exact leaves_throw e

theorem leaves_guard {c : Prop} [Decidable c] {e : Failure} {f : PUnit → Run α}
    (hf : Leaves R (f ())) :
    Leaves R (if c then (do let r ← (throw e : Run PUnit); f r) else f ()) := by
  split
  · exact (leaves_throw e).bind fun _ => hf
  · exact hf

variable {leaf : List Value → Run Value}

theorem leaves_elementwise (hleaf : ∀ vs, Leaves R (leaf vs))
    (args : List Value) : Leaves R (elementwise leaf args) := by
  unfold elementwise
  refine (leaves_raise _).bind fun arrs => leaves_guard ?_
  refine (hleaf _).bind fun trial => (leaves_raise _).bind fun shape => ?_
  refine (leaves_mapM (fun _ => hleaf _) _).bind fun results => ?_
  have hcollect : ∀ (t : ElementType) (vs : List Value), Leaves R (do
      pure (.array t shape (← Fallible.raise (vs.mapM (Tensor.cast t)))) : Run Value) :=
    fun t vs => (leaves_raise _).bind fun _ => leaves_pure _
  split
  next outs =>
    refine (leaves_mapM (fun _ => ?_) _).bind fun _ => leaves_pure _
    exact (leaves_raise _).bind fun _ => hcollect _ _
  · exact (leaves_raise _).bind fun _ => hcollect _ _

mutual

theorem leaves_map (hleaf : ∀ vs, Leaves R (leaf vs)) (v : Value) (others : List Value) :
    Leaves R (map leaf none v others) := by
  cases v with
  | tuple xs | list xs =>
    rw [map]
    exact (leaves_raise _).bind fun _ => (leaves_raise _).bind fun _ =>
      (leaves_mapItems hleaf xs _).bind fun _ => leaves_pure _
  | record t fs =>
    rw [map]
    exact leaves_guard <| (leaves_raise _).bind fun _ => (leaves_raise _).bind fun _ =>
      (leaves_mapFields hleaf fs _).bind fun _ => leaves_pure _
  | closure f xs =>
    rw [map]
    exact (leaves_raise _).bind fun _ => (leaves_raise _).bind fun _ =>
      (leaves_map hleaf f _).bind fun _ =>
        (leaves_mapItems hleaf xs _).bind fun _ => leaves_pure _
  | array e s d =>
    rw [map]
    exact leaves_elementwise hleaf _
  | _ => exact hleaf _

theorem leaves_mapItems (hleaf : ∀ vs, Leaves R (leaf vs)) :
    ∀ (xs : List Value) (rest : List (List Value)), Leaves R (mapItems leaf none xs rest)
  | [], _ => by
    rw [mapItems]
    exact leaves_pure _
  | x :: xs, _ => by
    rw [mapItems]
    exact (leaves_map hleaf x _).bind fun _ =>
      (leaves_mapItems hleaf xs _).bind fun _ => leaves_pure _

theorem leaves_mapFields (hleaf : ∀ vs, Leaves R (leaf vs)) :
    ∀ (fs : List (Value × Value)) (others : List Value), Leaves R (mapFields leaf none fs others)
  | [], _ => by
    rw [mapFields]
    exact leaves_pure _
  | (k, v) :: fs, _ => by
    rw [mapFields]
    exact (leaves_raise _).bind fun _ => (leaves_map hleaf v _).bind fun _ =>
      (leaves_mapFields hleaf fs _).bind fun _ => leaves_pure _

end

/-! ## Names -/

instance : IsPreorder Session Eq where
  refl := Eq.refl
  trans _ _ _ := Eq.trans

theorem keeps_get : Keeps R (get : Run Session) := by
  intro o s a s' h
  rw [(returns_get.mp h).2]
  exact refl s'

theorem leaves_get : Leaves R (get : Run Session) := by
  intro o s r s' h
  obtain rfl := congrArg Prod.snd h
  exact refl s

theorem leaves_acquire (fuel : Nat) (v : Value) : Leaves Eq (acquire fuel v) := by
  induction fuel generalizing v with
  | zero =>
    rw [acquire]
    exact leaves_throw _
  | succ fuel ih =>
    cases v with
    | symbol x =>
      rw [acquire]
      split
      · exact leaves_pure _
      · split
        · refine leaves_get.bind fun st => ?_
          split
          · exact leaves_throw _
          next globals hglobals =>
            -- whatever the name is found as, it is acquired in turn
            repeat' split
            all_goals first | exact ih _ | exact leaves_throw _
        · exact leaves_pure _
    | deferred id _ =>
      rw [acquire]
      refine leaves_get.bind fun st => ?_
      split
      · exact leaves_pure _
      · exact leaves_throw _
    | tuple xs | list xs | record t fs | closure f xs =>
      refine leaves_map (fun vs => ?_) _ []
      split
      next x => exact ih x
      · exact leaves_throw _
    | _ => exact leaves_pure _

variable {x : Symbol} {v : Value} {s s' : Session}

theorem sameKey_symbol {k : Value} : sameKey k (.symbol x) = true ↔ k = .symbol x := by
  cases k with
  | symbol y => simp [sameKey]
  | _ => simp [sameKey]

def Means (s : Session) (x : Symbol) (v : Value) : Prop :=
  (s.registry.find? fun (k, _) => sameKey k (.symbol x)).map Prod.snd = some v

theorem find?_put {y : Symbol} : ∀ l : List (Value × Value),
    ((put sameKey (.symbol x) v l).find? fun (k, _) => sameKey k (.symbol y)).map Prod.snd =
      if x = y then some v else (l.find? fun (k, _) => sameKey k (.symbol y)).map Prod.snd
  | [] => by
    by_cases h : x = y
    · simp [put, h, sameKey]
    · simp [put, h, sameKey]
  | (k, w) :: l => by
    rw [put]
    split
    next hk =>
      obtain rfl := sameKey_symbol.mp hk
      by_cases h : x = y
      · simp [h, sameKey]
      · simp [h, sameKey]
    next hk =>
      by_cases h : sameKey k (.symbol y) = true
      · have hne : x ≠ y := by
          rintro rfl
          exact hk h
        simp [h, hne]
      · simp [h, find?_put l]

def Known (s : Session) (x : Symbol) : Prop :=
  (s.registry.find? fun (k, _) => sameKey k (.symbol x)).isSome = true

theorem Means.same (h : Means s x v) (hr : s'.registry = s.registry) : Means s' x v := by
  rw [Means, hr]
  exact h

theorem Means.known (h : Means s x v) : Known s x := by
  obtain ⟨_, hfind, -⟩ := Option.map_eq_some_iff.mp h
  exact Option.isSome_of_mem hfind

theorem means_registered (s : Session) (ref : Ident) (id : TermId) :
    Means (registered s ref id) ref.sym (.lambda id) :=
  (find?_put _).trans (if_pos rfl)

theorem Means.registered (h : Means s x v) {ref : Ident}
    (hne : ref.sym ≠ x) (id : TermId) : Means (registered s ref id) x v :=
  (find?_put _).trans ((if_neg hne).trans h)

/-- Looking up a symbol registers what it stands for, if it is not registered yet. -/
theorem returns_resolve {o : Option Origin} (h : Returns (resolve (.symbol x)) o s v s') :
    (Known s x ∧ s = s') ∨
      (¬ Known s x ∧ { s with registry := put sameKey (.symbol x) v s.registry } = s') := by
  unfold resolve at h
  rw [if_pos (by rfl), returns_bind] at h
  obtain ⟨_, _, hget, h⟩ := h
  rw [returns_get] at hget
  obtain ⟨rfl, rfl⟩ := hget
  split at h
  next k w hfind =>
    rw [returns_pure] at h
    exact .inl ⟨by rw [Known, hfind]; rfl, h.2⟩
  next hnone =>
    rw [returns_bind] at h
    obtain ⟨w, s1, hw, h⟩ := h
    obtain rfl := leaves_acquire _ _ _ _ _ _ hw
    simp only [returns_bind, returns_modify, returns_pure] at h
    obtain ⟨_, _, rfl, rfl, rfl⟩ := h
    exact .inr ⟨by simp [Known, hnone], rfl⟩

theorem resolve_error {e : Failure} {o : Option Origin}
    (h : resolve (.symbol x) o s = (.error e, s')) : s = s' := by
  unfold resolve at h
  rw [if_pos (by rfl), bind_apply, show (get : Run Session) o s = (.ok s, s) from rfl] at h
  cases hfind : s.registry.find? fun (k, _) => sameKey k (.symbol x) with
  | some found =>
    simp only [hfind] at h
    cases h
  | none =>
    simp only [hfind] at h
    rw [bind_apply] at h
    rcases hw : acquire 1000 (.symbol x) o s with ⟨e' | w, s1⟩
    · rw [hw] at h
      obtain rfl := congrArg Prod.snd h
      exact leaves_acquire _ _ _ _ _ _ hw
    · rw [hw] at h
      cases h

end DiffLang.Program
