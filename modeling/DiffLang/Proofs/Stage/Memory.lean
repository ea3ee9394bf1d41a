import DiffLang.Proofs.Resolving
import DiffLang.Stage

/-!
# What a stage remembers of a failure

A stage of rewritten graphs remembers a graph before its passes run, so that a graph that refers to
itself is found. Resolving names takes nothing away from what stages remember
(`leaves_resolveNames`). So a pass that fails leaves its graph behind: the first question fails, and
from then on the same question is answered, with a graph whose passes have not been finished
(`lookUp_after_failed_pass`).
-/

namespace DiffLang.Stage

open Run Session Graph

variable {host : Host} {id : StageId} {key v w : Value} {o : Option Origin} {s s' : Session}

def remembered (s : Session) (id : StageId) (key : Value) : Option (Value × Value) :=
  (s.stages[id]?).bind fun st => st.cache.find? fun (k, _) => sameKey k key

/-- Whatever a stage had an answer for still has one. -/
def Retains (s s' : Session) : Prop :=
  ∀ id key, (remembered s id key).isSome → (remembered s' id key).isSome

instance : IsPreorder Session Retains where
  refl _ _ _ h := h
  trans _ _ _ h h' id key hk := h' id key (h id key hk)

theorem retains_of_stages_eq (h : s'.stages = s.stages) : Retains s s' := by
  intro id key hk
  rwa [remembered, h]

theorem get_bind {β : Type} (f : Session → Run β) :
    ((MonadState.get : Run Session) >>= f) o s = f s o s := rfl

/-! ## Questions -/

/-- A question that has an answer is answered, and nothing else happens. -/
theorem returns_lookUp_remembered {k : Value} (hkey : Program.isKey key = true)
    (hr : remembered s id key = some (k, w)) (fuel : Nat) :
    Returns (lookUp host (fuel + 1) id key) o s w s := by
  rw [lookUp, if_pos hkey, returns_bind]
  refine ⟨s, s, returns_get.mpr ⟨rfl, rfl⟩, ?_⟩
  rw [remembered] at hr
  simp [hr]

/-- A question without an answer fails as what is made for it does. -/
theorem lookUp_error {e : Failure} {fuel : Nat} (hkey : Program.isKey key = true)
    (hr : remembered s id key = none) (h : acquire host fuel id key o s = (.error e, s')) :
    lookUp host (fuel + 1) id key o s = (.error e, s') := by
  rw [remembered] at hr
  rw [lookUp, if_pos hkey, get_bind]
  simp only [hr]
  rw [bind_apply, h]

theorem sameKey_self (hkey : Program.isKey key = true) : sameKey key key = true := by
  cases key with
  | symbol x | function f _ | lambda l => simp [sameKey]
  | _ => cases hkey

theorem find?_put_self (hkey : Program.isKey key = true) : ∀ l : List (Value × Value),
    ((put sameKey key v l).find? fun (k, _) => sameKey k key).isSome
  | [] => by simp [put, sameKey_self hkey]
  | (k, w) :: l => by
    rw [put]
    split
    next hk => simp [hk]
    next hk => simpa [hk] using find?_put_self hkey l

theorem remembered_remember (hkey : Program.isKey key = true) (hid : id < s.stages.size)
    (h : Returns (remember id key v) o s () s') : (remembered s' id key).isSome := by
  unfold remember at h
  rw [returns_modify] at h
  obtain rfl := h
  rw [remembered, Array.getElem?_modify, if_pos rfl, Array.getElem?_eq_getElem hid]
  exact find?_put_self hkey _

/-! ## Passes -/

theorem leaves_forIn {R : Session → Session → Prop} [IsPreorder Session R] {α β : Type}
    {f : α → β → Run (ForInStep β)} (hf : ∀ a b, Leaves R (f a b)) :
    ∀ (xs : List α) (b : β), Leaves R (forIn xs b f)
  | [], b => by
    rw [List.forIn_nil]
    exact leaves_pure b
  | x :: xs, b => by
    rw [List.forIn_cons]
    refine (hf x b).bind fun r => ?_
    cases r with
    | done b => exact leaves_pure b
    | «yield» b => exact leaves_forIn hf xs b

theorem leaves_newNode (n : Node) : Leaves Retains (newNode n) := by
  intro o s r s' h
  obtain rfl := congrArg Prod.snd h
  exact retains_of_stages_eq rfl

theorem leaves_update (f : Store → Fallible Store) : Leaves Retains (update f) := by
  intro o s r s' h
  rw [update, get_bind] at h
  cases hf : f s.store with
  | error | ok =>
    rw [hf] at h
    obtain rfl := congrArg Prod.snd h
    exact retains_of_stages_eq rfl

/-- Following the names of a graph takes away no answer that the surroundings do not take away. -/
theorem leaves_resolveNames (hget : ∀ home v, Leaves Retains (host.get home v)) (graphs : StageId) :
    ∀ (fuel : Nat) (g : GraphId), Leaves Retains (resolveNames host graphs fuel g)
  | 0, _ => by
    rw [resolveNames]
    exact leaves_throw _
  | fuel + 1, g => by
    rw [resolveNames]
    refine Program.leaves_get.bind fun s => (leaves_forIn (fun n found => ?_) _ _).bind
      fun found => (leaves_forIn (fun r u => ?_) _ _).bind fun _ => leaves_pure _
    · refine Program.leaves_get.bind fun s => ?_
      split
      · split
        · exact (hget _ _).bind fun v => (leaves_newNode _).bind fun m => leaves_pure _
        · exact leaves_pure _
      · exact leaves_pure _
    · refine (leaves_update _).bind fun _ => ?_
      split
      · exact (leaves_resolveNames hget graphs fuel _).bind fun _ => leaves_pure _
      · exact leaves_pure _

/-! ## Failures -/

/-- If rewriting a graph fails, then because of the passes. They began with the graph as the answer to
the question that it was made for. -/
theorem rewrite_fails {passes : List Pass} {duplicate : Bool} {n : Neighbours} {g g' : GraphId}
    {tag : Symbol} {e : Failure} {s₂ : Session} (hkey : Program.isKey key = true)
    (hgraph : Returns (workingGraph duplicate g) o s g' s₂)
    (hfail : rewrite host id n passes duplicate key g tag o s = (.error e, s')) :
    ∃ s₃, Returns (remember id key (.graph g' tag)) o s₂ () s₃ ∧
      passes.forM (runPass host n g') o s₃ = (.error e, s') := by
  obtain ⟨s₃, hremember⟩ : ∃ s₃, Returns (remember id key (.graph g' tag)) o s₂ () s₃ := ⟨_, rfl⟩
  refine ⟨s₃, hremember, ?_⟩
  rw [rewrite, bind_apply, hgraph] at hfail
  simp only [if_pos hkey] at hfail
  rw [bind_apply, hremember] at hfail
  simp only [bind_apply] at hfail
  rcases hrun : passes.forM (runPass host n g') o s₃ with ⟨_ | _, s₄⟩
  · rw [hrun] at hfail
    cases hfail
    rfl
  · rw [hrun] at hfail
    cases hfail

/-- A pass that fails leaves its graph as the answer to the question that it was made for. -/
theorem lookUp_after_failed_pass {passes : List Pass} {duplicate : Bool} {parent : StageId}
    {n : Neighbours} {cache : List (Value × Value)} {fuel : Nat} {g g' : GraphId} {tag : Symbol}
    {e : Failure} {s₁ s₂ s₄ : Session} (hkey : Program.isKey key = true)
    (hstage : s.stages[id]? = some ⟨.rewritten passes duplicate, parent, n, cache⟩)
    (hnew : remembered s id key = none)
    (hparent : Returns (lookUp host (fuel + 1) parent key) o s (.graph g tag) s₁)
    (hgraph : Returns (workingGraph duplicate g) o s₁ g' s₂) (hid : id < s₂.stages.size)
    (hpasses : Leaves Retains (passes.forM (runPass host n g')))
    (hfail : rewrite host id n passes duplicate key g tag o s₁ = (.error e, s₄)) :
    lookUp host (fuel + 3) id key o s = (.error e, s₄) ∧
      ∃ w, ∀ o' fuel', Returns (lookUp host (fuel' + 1) id key) o' s₄ w s₄ := by
  constructor
  · refine lookUp_error hkey hnew ?_
    rw [acquire, get_bind]
    simp only [hstage]
    rw [bind_apply, hparent]
    exact hfail
  · -- the answer was there before the passes, and they have not taken it away
    obtain ⟨s₃, hremember, hfail⟩ := rewrite_fails hkey hgraph hfail
    have hsome := hpasses o s₃ _ s₄ hfail id key (remembered_remember hkey hid hremember)
    obtain ⟨⟨k, w⟩, hr⟩ := Option.isSome_iff_exists.mp hsome
    exact ⟨w, fun o' fuel' => returns_lookUp_remembered hkey hr fuel'⟩

/-- Surroundings in which nothing has a meaning. -/
def silent : Host := ⟨fun _ _ => throw .missingKey, fun _ _ => throw .missingKey,
  fun _ _ => throw .missingKey⟩

/-- The name of a function, and a name that stands for nothing. -/
def outer : Symbol := .plain "f" (.named "global:") 0
def nowhere : Symbol := .plain "nowhere" (.named "global:") 0

/-- A function that gives what `nowhere` stands for, known as a graph, and a stage that resolves
names. -/
def unresolvable : Session :=
  { Session.initial with
    registry := [(.symbol outer, .graph 0 outer)]
    store := ⟨#[⟨none, nowhere, some (.symbol nowhere), none, [], [(.output, .graph 0)]⟩],
      #[⟨none, outer, 0, [], true, some 0, none⟩]⟩
    stages := #[⟨.program, 0, default, []⟩, ⟨.rewritten firstPasses true, 0, default, []⟩] }

theorem lookUp_after_failed_pass_unresolvable : ∃ e s' w,
    lookUp silent 4 1 (.symbol outer) none unresolvable = (.error e, s') ∧
      ∀ o fuel, Returns (lookUp silent (fuel + 1) 1 (.symbol outer)) o s' w s' := by
  have hpasses : Leaves Retains (firstPasses.forM (runPass silent default 1)) :=
    (leaves_resolveNames (fun _ _ => leaves_throw _) _ _ _).bind fun _ => leaves_pure _
  have hparent : Returns (lookUp silent 2 0 (.symbol outer)) none unresolvable (.graph 0 outer)
    unresolvable := rfl
  have hgraph : Returns (workingGraph true 0) none unresolvable 1
    (workingGraph true 0 none unresolvable).2 := rfl
  have hfails : (rewrite silent 1 default firstPasses true (.symbol outer) 0 outer none
    unresolvable).1.isOk = false := by decide +kernel
  rcases hfail : rewrite silent 1 default firstPasses true (.symbol outer) 0 outer none unresolvable
    with ⟨e | a, s₄⟩
  · obtain ⟨hfirst, w, hagain⟩ := lookUp_after_failed_pass (by rfl) (by rfl) (by rfl) hparent hgraph
      (by decide +kernel) hpasses hfail
    exact ⟨e, s₄, w, hfirst, hagain⟩
  · rw [hfail] at hfails
    cases hfails

end DiffLang.Stage
