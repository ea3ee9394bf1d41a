import DiffLang.Proofs.Dataflow.Nodes
import DiffLang.Proofs.Resolving

/-!
# Tasks and runs

What each task does to the facts and listeners of an analysis, and how what tasks keep is carried
through a run. A run is described by the tasks it performs (`performed`): what listeners were told is
part of it, and of nothing that an analysis holds at its end.
-/

namespace DiffLang.Dataflow

open Analysis

/-- Nothing has changed that belongs to nodes: which are visited, their listeners and their facts. -/
structure Same (f f' : Flow) : Prop where
  tracks : f'.tracks = f.tracks
  always : f'.always = f.always
  visited : f'.visited = f.visited
  facts : ∀ tr n, f'.facts tr n = f.facts tr n

namespace Same

variable {f f' f'' : Flow}

theorem refl (f : Flow) : Same f f := ⟨rfl, rfl, rfl, fun _ _ => rfl⟩

theorem trans (h : Same f f') (h' : Same f' f'') : Same f f'' :=
  ⟨h'.tracks.trans h.tracks, h'.always.trans h.always, h'.visited.trans h.visited,
    fun tr n => (h'.facts tr n).trans (h.facts tr n)⟩

theorem touch (f : Flow) (u : Track) (t : Term) : Same f (f.touch u t) :=
  ⟨Flow.touch_tracks, Flow.touch_always, Flow.touch_visited, fun _ _ => Flow.facts_touch⟩

theorem touchAll (u : Track) (ts : List Term) (f : Flow) :
    Same f (ts.foldl (fun f a => f.touch u a) f) := by
  induction ts generalizing f with
  | nil => exact refl f
  | cons t ts ih => exact (touch f u t).trans (ih _)

theorem isVisited (h : Same f f') (t : Term) : f'.isVisited t = f.isVisited t := by
  unfold Flow.isVisited
  rw [h.visited]

theorem listeners (h : Same f f') (t : Term) : f'.listeners t = f.listeners t := by
  unfold Flow.listeners
  rw [h.visited]

end Same

namespace Task

variable {f f' : Flow} {s s' : Session} {more : List Task} {t : Term} {tr : Track} {x : Fact}
variable {l : Listener}

/-! ## What tasks do -/

theorem gives_visit (h : Gives (perform (.visit t)) f s more f' s') :
    (f.isVisited t = true ∧ more = [] ∧ f' = f ∧ s' = s) ∨
      (f.isVisited t = false ∧ visiting t f.always = .ok more ∧ f' = f.withVisited t ∧ s' = s) := by
  simp only [perform, gives_bind, gives_flow] at h
  obtain ⟨_, _, _, ⟨rfl, rfl, rfl⟩, h⟩ := h
  split at h
  next hv =>
    obtain ⟨rfl, rfl, rfl⟩ := gives_pure.mp h
    exact .inl ⟨hv, rfl, rfl, rfl⟩
  next hv =>
    simp only [gives_bind, gives_change, gives_ofFallible] at h
    obtain ⟨_, _, _, ⟨rfl, rfl⟩, h, rfl, rfl⟩ := h
    exact .inr ⟨by simpa using hv, h, rfl, rfl⟩

theorem gives_state (h : Gives (perform (.state t tr x)) f s more f' s') :
    s' = s ∧ ((f' = f.touch tr t ∧ more = [] ∧ ∃ y ∈ f.facts tr t, y.same x = true) ∨
      (f.isVisited t = true ∧ more = [.tell t 0 tr x] ∧ f' = (f.touch tr t).addFact tr t x)) := by
  rw [perform] at h
  dsimp only at h
  split at h
  · simp at h
  · simp only [gives_bind, gives_change, gives_flow] at h
    obtain ⟨_, _, _, ⟨rfl, rfl⟩, _, _, _, ⟨rfl, rfl, rfl⟩, h⟩ := h
    split at h
    next hany =>
      obtain ⟨rfl, rfl, rfl⟩ := gives_pure.mp h
      rw [Flow.facts_touch, List.any_eq_true] at hany
      exact ⟨rfl, .inl ⟨rfl, rfl, hany⟩⟩
    · simp only [gives_bind, gives_change] at h
      obtain ⟨_, _, _, ⟨rfl, rfl⟩, h⟩ := h
      split at h
      next hv =>
        obtain ⟨rfl, rfl, rfl⟩ := gives_pure.mp h
        rw [(Same.touch f tr t).isVisited] at hv
        exact ⟨rfl, .inr ⟨hv, rfl, rfl⟩⟩
      · exact (gives_throw h).elim

theorem gives_tell {i : Nat} (h : Gives (perform (.tell t i tr x)) f s more f' s') :
    f' = f ∧ s' = s ∧ (((f.listeners t)[i]? = none ∧ more = []) ∨
      ∃ l, (f.listeners t)[i]? = some l ∧ more = [.hear l tr x, .tell t (i + 1) tr x]) := by
  simp only [perform, gives_bind, gives_flow] at h
  obtain ⟨_, _, _, ⟨rfl, rfl, rfl⟩, h⟩ := h
  split at h
  next hnone =>
    obtain ⟨rfl, rfl, rfl⟩ := gives_pure.mp h
    exact ⟨rfl, rfl, .inl ⟨hnone, rfl⟩⟩
  next l hl =>
    obtain ⟨rfl, rfl, rfl⟩ := gives_pure.mp h
    exact ⟨rfl, rfl, .inr ⟨l, hl, rfl⟩⟩

theorem gives_listen (h : Gives (perform (.listen t l)) f s more f' s') :
    f.isVisited t = true ∧ f' = f.listen t l ∧ s' = s ∧
      more = f.tracks.map fun u => .catchUp t l u := by
  simp only [perform, gives_bind, gives_flow] at h
  obtain ⟨_, _, _, ⟨rfl, rfl, rfl⟩, h⟩ := h
  split at h
  · simp at h
  next hv =>
    simp only [gives_bind, gives_change, gives_pure] at h
    obtain ⟨_, _, _, ⟨rfl, rfl⟩, rfl, rfl, rfl⟩ := h
    exact ⟨by simpa using hv, rfl, rfl, rfl⟩

theorem gives_catchUp (h : Gives (perform (.catchUp t l tr)) f s more f' s') :
    f' = f.touch tr t ∧ s' = s ∧ more = (f.facts tr t).flatMap fun x =>
      [.hear l tr x, .unchanged t tr (f.facts tr t).length] := by
  simp only [perform, gives_bind, gives_change, gives_flow, gives_pure] at h
  obtain ⟨_, _, _, ⟨rfl, rfl⟩, _, _, _, ⟨rfl, rfl, rfl⟩, rfl, rfl, rfl⟩ := h
  rw [Flow.facts_touch]
  exact ⟨rfl, rfl, rfl⟩

/-! ## Runs -/

/-- The tasks that are performed until none is left, in their order. A task that fails is not
performed. -/
def performed : Nat → List Task → Flow → Session → List Task
  | _, [], _, _ => []
  | 0, _ :: _, _, _ => []
  | fuel + 1, task :: rest, f, s =>
    match task.perform f s with
    | ((.ok more, f'), s') => task :: performed fuel (more ++ rest) f' s'
    | ((.error e, f'), s') =>
      match if e.kind = .key then afterGlobal rest else none with
      | some rest => performed fuel rest f' s'
      | none => []

theorem gives_attempt {α : Type} {act : Analysis α} {r : Except Failure α} :
    Gives (attempt act) f s r f' s' ↔ act f s = ((r, f'), s') := by
  rw [gives_of_apply (show attempt act f s = ((.ok (act f s).1.1, (act f s).1.2), (act f s).2)
    from rfl), Except.ok.injEq, Prod.ext_iff, Prod.ext_iff]
  exact and_assoc.symm

theorem performAll_induction {P : List Task → List Task → Flow → Session → Prop}
    (hstep : ∀ {h task rest f s more f' s'}, P h (task :: rest) f s →
      Gives task.perform f s more f' s' → P (h ++ [task]) (more ++ rest) f' s')
    (hskip : ∀ {h task rest f s e f' s' rest'}, P h (task :: rest) f s →
      Fails task.perform f s e f' s' → e.kind = .key → afterGlobal rest = some rest' →
      P h rest' f' s')
    (fuel : Nat) {tasks : List Task} {h : List Task} (hP : P h tasks f s)
    (hrun : Gives (performAll fuel tasks) f s () f' s') :
    P (h ++ performed fuel tasks f s) [] f' s' := by
  induction fuel generalizing tasks h f s with
  | zero =>
    cases tasks with
    | nil =>
      rw [performAll] at hrun
      obtain ⟨_, rfl, rfl⟩ := gives_pure.mp hrun
      simpa [performed] using hP
    | cons task rest =>
      rw [performAll] at hrun
      exact (gives_throw hrun).elim
  | succ fuel ih =>
    cases tasks with
    | nil =>
      rw [performAll] at hrun
      obtain ⟨_, rfl, rfl⟩ := gives_pure.mp hrun
      simpa [performed] using hP
    | cons task rest =>
      rw [performAll, gives_bind] at hrun
      obtain ⟨r, f1, s1, hr, hrun⟩ := hrun
      rw [gives_attempt] at hr
      rw [performed, hr]
      cases r with
      | ok more =>
        have := ih (hstep hP hr) hrun
        simpa using this
      | error e =>
        dsimp only at hrun ⊢
        cases hafter : if e.kind = .key then afterGlobal rest else none with
        | some rest' =>
          rw [hafter] at hrun
          split at hafter
          next hkey => exact ih (hskip hP hr hkey hafter) hrun
          · cases hafter
        | none =>
          rw [hafter] at hrun
          exact (gives_throw hrun).elim

end Task

end DiffLang.Dataflow
