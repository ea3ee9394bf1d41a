import DiffLang.Proofs.Dataflow.Readiness

/-!
# Every listener hears every fact

While listeners are told of facts, further listeners and further facts are added, to the same nodes
as well. What keeps a run from losing any of them: for each listener of a node and each fact of the
node, the listener has been told, or one of the tasks that are left will tell it (`Pending`). A fact
that a listener passes on to another node holds there, or one of the tasks that are left states it.

Main statement: `delivers_step`. Both are kept by every task that does not fail; at the end of a run
no task is left.
-/

namespace DiffLang.Dataflow

open Analysis Dataflow.Task List Flow

def Holds (f : Flow) (tr : Track) (t : Term) (x : Fact) : Prop :=
  x ∈ f.facts tr t ∨ ∃ y ∈ f.facts tr t, y.same x = true

def Listener.passesTo : Listener → Track → Option Term
  | .forward b, _ => some b
  | .backward b, tr => if tr.isBidirectional then some b else none
  | _, _ => none

/-- Some task will tell the `i`-th listener of a node of a fact. -/
inductive Pending (tasks : List Task) (n : Term) (i : Nat) (l : Listener) (tr : Track) (x : Fact) :
    Prop
  | hear (h : .hear l tr x ∈ tasks)
  | tell {n' : Term} {j : Nat} (hn : pointOf n' = pointOf n) (hj : j ≤ i)
    (h : .tell n' j tr x ∈ tasks)
  | catchUp {n' : Term} (hn : pointOf n' = pointOf n) (h : .catchUp n' l tr ∈ tasks)

/-- After some tasks, and with others left to do, listeners have been told of all facts, and have
passed on what they pass on. -/
structure Delivers (history tasks : List Task) (f : Flow) : Prop where
  told : ∀ {n i l tr x}, (f.listeners n)[i]? = some l → tr ∈ f.tracks → x ∈ f.facts tr n →
    .hear l tr x ∈ history ∨ Pending tasks n i l tr x
  passed : ∀ {l tr x b}, .hear l tr x ∈ history → l.passesTo tr = some b →
    Holds f tr b x ∨ .state b tr x ∈ tasks

variable {f f' : Flow} {s s' : Session} {task : Task} {rest more history : List Task}
variable {n t b : Term} {i : Nat} {l : Listener} {tr : Track} {x : Fact}

theorem Pending.mono {tasks tasks' : List Task} (h : Pending tasks n i l tr x)
    (hsub : tasks ⊆ tasks') : Pending tasks' n i l tr x := by
  cases h with
  | hear h => exact .hear (hsub h)
  | tell hn hj h => exact .tell hn hj (hsub h)
  | catchUp hn h => exact .catchUp hn (hsub h)

theorem Pending.step (hp : Pending (task :: rest) n i l tr x) (hl : (f.listeners n)[i]? = some l)
    (hx : x ∈ f.facts tr n) (h : Gives task.perform f s more f' s') :
    .hear l tr x = task ∨ Pending (more ++ rest) n i l tr x := by
  have hrest : ∀ {task'}, task' ∈ rest → task' ∈ more ++ rest := mem_append_right more
  have hmore : ∀ {task'}, task' ∈ more → task' ∈ more ++ rest := mem_append_left rest
  cases hp with
  | hear hmem =>
    rcases mem_cons.mp hmem with heq | hmem
    · exact .inl heq
    · exact .inr (.hear (hrest hmem))
  | @tell n' j hn hj hmem =>
    rcases mem_cons.mp hmem with rfl | hmem
    · obtain ⟨-, -, hcase⟩ := gives_tell h
      rw [listeners_congr hn] at hcase
      rcases hcase with ⟨hnone, -⟩ | ⟨l', hl', rfl⟩
      · -- the listeners end before the one that was to be told
        have hlen := List.getElem?_eq_none_iff.mp hnone
        rw [getElem?_eq_none (Nat.le_trans hlen hj)] at hl
        cases hl
      · rcases Nat.lt_or_eq_of_le hj with hj | rfl
        · exact .inr (.tell hn hj (hmore (by simp)))
        · rw [hl] at hl'
          cases hl'
          exact .inr (.hear (hmore (by simp)))
    · exact .inr (.tell hn hj (hrest hmem))
  | @catchUp n' hn hmem =>
    rcases mem_cons.mp hmem with rfl | hmem
    · obtain ⟨-, -, rfl⟩ := gives_catchUp h
      rw [← facts_congr hn] at hx
      refine .inr (.hear (hmore (mem_flatMap.mpr ⟨x, hx, ?_⟩)))
      simp
    · exact .inr (.catchUp hn (hrest hmem))

/-- A task takes no fact and no listener away. -/
theorem subset_perform (h : Gives task.perform f s more f' s') (n : Term) :
    (∀ tr, f.facts tr n ⊆ f'.facts tr n) ∧ f.listeners n ⊆ f'.listeners n := by
  cases hc : task.changesNodes with
  | false =>
    have hsame := (same_perform hc h).1
    exact ⟨fun tr => hsame.facts tr n ▸ List.Subset.refl _, hsame.listeners n ▸ List.Subset.refl _⟩
  | true =>
    cases task with
    | visit t =>
      rcases gives_visit h with ⟨-, -, rfl, -⟩ | ⟨-, -, rfl, -⟩
      · exact ⟨fun _ => List.Subset.refl _, List.Subset.refl _⟩
      · rw [listeners_withVisited]
        exact ⟨fun _ => List.Subset.refl _, List.Subset.refl _⟩
    | state t u y =>
      have htouch := (Same.touch f u t).listeners n
      obtain ⟨-, ⟨rfl, -⟩ | ⟨-, -, rfl⟩⟩ := gives_state h
      · simp only [facts_touch, htouch]
        exact ⟨fun _ => List.Subset.refl _, List.Subset.refl _⟩
      · refine ⟨fun tr => ?_, htouch ▸ List.Subset.refl _⟩
        rw [facts_addFact, facts_touch]
        split
        · exact subset_append_left _ _
        · exact List.Subset.refl _
    | listen t k =>
      obtain ⟨hv, rfl, -⟩ := gives_listen h
      refine ⟨fun _ => List.Subset.refl _, ?_⟩
      rw [listeners_listen hv]
      split
      · exact subset_append_left _ _
      · exact List.Subset.refl _
    | _ => cases hc

/-- A listener and a fact that come together at a node were there before, or the task that brought
one of them leaves another one that tells the listener. -/
theorem old_or_pending (h : Gives task.perform f s more f' s')
    (hl : (f'.listeners n)[i]? = some l) (htr : tr ∈ f.tracks) (hx : x ∈ f'.facts tr n) :
    ((f.listeners n)[i]? = some l ∧ x ∈ f.facts tr n) ∨ Pending more n i l tr x := by
  cases hc : task.changesNodes with
  | false =>
    have hsame := (same_perform hc h).1
    rw [hsame.listeners] at hl
    rw [hsame.facts] at hx
    exact .inl ⟨hl, hx⟩
  | true =>
    cases task with
    | visit t =>
      rcases gives_visit h with ⟨-, -, rfl, -⟩ | ⟨-, -, rfl, -⟩
      · exact .inl ⟨hl, hx⟩
      · rw [listeners_withVisited] at hl
        exact .inl ⟨hl, hx⟩
    | state t u y =>
      obtain ⟨-, ⟨rfl, -⟩ | ⟨-, rfl, rfl⟩⟩ := gives_state h
      · rw [(Same.touch f u t).listeners] at hl
        rw [facts_touch] at hx
        exact .inl ⟨hl, hx⟩
      · have hlisteners : ((f.touch u t).addFact u t y).listeners n = f.listeners n :=
          (Same.touch f u t).listeners n
        rw [hlisteners] at hl
        rw [facts_addFact, facts_touch] at hx
        split at hx
        next heq =>
          obtain ⟨rfl, hpoint⟩ := heq
          rcases mem_append.mp hx with hx | hx
          · exact .inl ⟨hl, hx⟩
          · obtain rfl := mem_singleton.mp hx
            exact .inr (.tell hpoint (Nat.zero_le i) (by simp))
        · exact .inl ⟨hl, hx⟩
    | listen t k =>
      obtain ⟨hv, rfl, -, rfl⟩ := gives_listen h
      rw [listeners_listen hv] at hl
      split at hl
      next hpoint =>
        rcases Nat.lt_or_ge i (f.listeners n).length with hi | hi
        · rw [getElem?_append_left hi] at hl
          exact .inl ⟨hl, hx⟩
        · rw [getElem?_append_right hi] at hl
          obtain rfl := mem_singleton.mp (mem_of_getElem? hl)
          exact .inr (.catchUp hpoint (mem_map.mpr ⟨tr, htr, rfl⟩))
      · exact .inl ⟨hl, hx⟩
    | _ => cases hc

theorem holds_of_state (h : Gives (perform (.state b tr x)) f s more f' s') : Holds f' tr b x := by
  obtain ⟨-, ⟨rfl, -, hy⟩ | ⟨-, -, rfl⟩⟩ := gives_state h
  · right
    rw [facts_touch]
    exact hy
  · left
    rw [facts_addFact, if_pos ⟨rfl, rfl⟩]
    simp

theorem state_of_hear (h : Gives (perform (.hear l tr x)) f s more f' s')
    (hb : l.passesTo tr = some b) : .state b tr x ∈ more := by
  cases l with
  | forward target =>
    cases hb
    obtain ⟨rfl, -⟩ := gives_pure.mp h
    simp
  | backward target =>
    unfold Listener.passesTo at hb
    dsimp only at hb
    split at hb
    next hdirection =>
      cases hb
      obtain ⟨rfl, -⟩ := gives_pure.mp h
      simp [hdirection]
    · cases hb
  | _ => cases hb

/-- A task that does not fail loses no fact on the way to a listener, and none that is passed on. -/
theorem delivers_step (hd : Delivers history (task :: rest) f)
    (h : Gives task.perform f s more f' s') :
    Delivers (history ++ [task]) (more ++ rest) f' where
  told := by
    intro n i l tr x hl htr hx
    rw [(frame_perform h).1] at htr
    rcases old_or_pending h hl htr hx with ⟨hl, hx⟩ | hp
    · rcases hd.told hl htr hx with hheard | hp
      · exact .inl (mem_append_left _ hheard)
      · exact (hp.step hl hx h).imp_left fun heq => by simp [heq]
    · exact .inr (hp.mono (subset_append_left more rest))
  passed := by
    intro l tr x b hheard hb
    rcases mem_append.mp hheard with hheard | hheard
    · rcases hd.passed hheard hb with hholds | hstate
      · left
        have hsub := (subset_perform h b).1 tr
        exact hholds.imp (fun hx => hsub hx) fun ⟨y, hy, hsame⟩ => ⟨y, hsub hy, hsame⟩
      · rcases mem_cons.mp hstate with rfl | hstate
        · exact .inl (holds_of_state h)
        · exact .inr (mem_append_right more hstate)
    · obtain rfl := mem_singleton.mp hheard
      exact .inr (mem_append_left rest (state_of_hear h hb))

end DiffLang.Dataflow
