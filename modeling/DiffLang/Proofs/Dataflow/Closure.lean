import DiffLang.Proofs.Dataflow.Delivery
import DiffLang.Proofs.Dataflow.Visits
import DiffLang.Proofs.Reading.Texts

/-!
# An analysis is closed

When visits of functions end without a failure, every fact has arrived wherever it flows: at all
nodes that are linked with its own, and at all listeners. The same holds after every further fact
that is stated. A failure ends a run, except for the missing key of a global name that stands for
nothing, so nothing is left undone when a run ends without one.

Main statement: `closed_of_analysed`.
-/

namespace DiffLang.Dataflow

open Analysis Session Dataflow.Task List

variable {f f' : Flow} {s s' : Session} {task : Task} {rest more history tasks : List Task}

namespace Task

/-! ## Links go both ways -/

theorem good_all (hq : task.isQuiet = true) (h : Gives task.perform f s more f' s') :
    Good s.lambda? (fun _ => True) more :=
  (good_perform (flowReady_all f) (fun _ => rfl) hq (ready_all hq) h).1

theorem both_visiting {t : Term} {always : List Fact} (h : visiting t always = .ok more) :
    Both more := by
  cases t with
  | bind i bindings body =>
    cases h
    refine both_append (both_append (both_of_forall (by simp)) ?_) (both_of_forall (by simp))
    exact both_append (a := [.visit body]) (both_of_forall (by simp)) (both_link body _)
  | apply | closure | lambda | tuple | literal => cases h; exact both_of_forall (by simp)
  | ident x =>
    cases h
    refine both_append (both_of_forall fun a b => ?_) (both_of_forall (by simp))
    split
    · simp
    · split <;> simp
  | sequence | assign | group => cases h

/-- Whatever a task leads to, links go both ways. -/
theorem both_perform (h : Gives task.perform f s more f' s') : Both more := by
  cases hq : task.isQuiet with
  | true => exact (good_all hq h).both
  | false =>
    cases task with
    | visit t =>
      rcases gives_visit h with ⟨-, rfl, -, -⟩ | ⟨-, hvisiting, -, -⟩
      · exact both_of_forall (by simp)
      · exact both_visiting hvisiting
    | visitGlobal t x =>
      simp only [perform, gives_bind, gives_pure] at h
      obtain ⟨_, _, _, -, _, _, _, -, _, _, _, -, rfl, -, -⟩ := h
      exact both_of_forall (by simp)
    | leaveGlobal =>
      obtain ⟨rfl, -, -⟩ := gives_pure.mp h
      exact both_of_forall (by simp)
    | _ => cases hq

end Task

/-! ## What holds of an analysis underway -/

/-- After some tasks, and with others left to do: facts are delivered, the listeners that were added
are there, and links go both ways. -/
structure Consistent (history tasks : List Task) (f : Flow) : Prop where
  delivers : Delivers history tasks f
  registered : ∀ {n l}, .listen n l ∈ history → l ∈ f.listeners n
  both : Both (history ++ tasks)

theorem Consistent.step (hc : Consistent history (task :: rest) f)
    (h : Gives task.perform f s more f' s') : Consistent (history ++ [task]) (more ++ rest) f' where
  delivers := delivers_step hc.delivers h
  registered := by
    intro n l hl
    rcases mem_append.mp hl with hl | hl
    · exact (subset_perform h n).2 (hc.registered hl)
    · obtain rfl := mem_singleton.mp hl
      obtain ⟨hv, rfl, -⟩ := gives_listen h
      rw [Flow.listeners_listen hv, if_pos rfl]
      simp
  both := by
    intro a b hab
    have hold : ∀ {task'}, task' ∈ history ++ task :: rest →
        task' ∈ history ++ [task] ++ (more ++ rest) := by grind
    have hcases : .listen a (.forward b) ∈ history ++ task :: rest ∨
        .listen a (.forward b) ∈ more := by grind
    rcases hcases with hab | hab
    · exact hold (hc.both a b hab)
    · exact mem_append_right _ (mem_append_left _ (both_perform h a b hab))

/-- Tasks may be left out that tell nothing, state nothing and add no listeners. -/
theorem Consistent.skip {t : Term} {x : Symbol}
    (hc : Consistent history (.visitGlobal t x :: .leaveGlobal :: rest) f) :
    Consistent history rest f where
  delivers := by
    have hmem : ∀ {task}, task ∈ Task.visitGlobal t x :: .leaveGlobal :: rest →
        task.isQuiet = true → task ∈ rest := by
      intro task hmem hq
      rcases mem_cons.mp hmem with rfl | hmem
      · cases hq
      · rcases mem_cons.mp hmem with rfl | hmem
        · cases hq
        · exact hmem
    constructor
    · intro n i l tr x hl htr hx
      refine (hc.delivers.told hl htr hx).imp_right fun hp => ?_
      cases hp with
      | hear h => exact .hear (hmem h rfl)
      | tell hn hj h => exact .tell hn hj (hmem h rfl)
      | catchUp hn h => exact .catchUp hn (hmem h rfl)
    · intro l tr x b hheard hb
      exact (hc.delivers.passed hheard hb).imp_right fun h => hmem h rfl
  registered := hc.registered
  both := by
    intro a b hab
    have hback := hc.both a b (by
      rw [mem_append] at hab ⊢
      exact hab.imp_right fun h => mem_cons_of_mem _ (mem_cons_of_mem _ h))
    simpa using hback

theorem Consistent.add (hc : Consistent history [] f) (task : Task)
    (h : ∀ n l, task ≠ .listen n l) : Consistent history [task] f where
  delivers :=
    ⟨fun hl htr hx => (hc.delivers.told hl htr hx).imp_right fun hp => hp.mono (by simp),
      fun hheard hb => (hc.delivers.passed hheard hb).imp_right fun h => absurd h not_mem_nil⟩
  registered := hc.registered
  both := by
    intro a b hab
    rcases mem_append.mp hab with hab | hab
    · exact mem_append_left _ (by simpa using hc.both a b (by simpa using hab))
    · exact absurd (mem_singleton.mp hab).symm (h _ _)

/-! ## Runs -/

theorem afterGlobal_quiet (h : ∀ task ∈ tasks, task.isQuiet = true) : afterGlobal tasks = none := by
  induction tasks with
  | nil => rfl
  | cons task rest ih =>
    have hrest := ih fun task' hmem => h task' (mem_cons_of_mem _ hmem)
    have hq := h task (by simp)
    cases task with
    | leaveGlobal => cases hq
    | _ => exact hrest

theorem Consistent.propagate {fuel : Nat} (hc : Consistent history tasks f)
    (hq : ∀ task ∈ tasks, task.isQuiet = true) (h : Gives (performAll fuel tasks) f s () f' s') :
    Consistent (history ++ performed fuel tasks f s) [] f' ∧ f'.tracks = f.tracks := by
  let P : List Task → List Task → Flow → Session → Prop := fun history tasks g _ =>
    Consistent history tasks g ∧ g.tracks = f.tracks ∧ ∀ task ∈ tasks, task.isQuiet = true
  have hrun := performAll_induction (P := P) ?_ ?_ fuel ⟨hc, rfl, hq⟩ h
  · exact ⟨hrun.1, hrun.2.1⟩
  · intro history task rest g s more g' s' ⟨hc, htracks, hq⟩ h
    obtain ⟨hqtask, hqrest⟩ := forall_mem_cons.mp hq
    refine ⟨hc.step h, (frame_perform h).1.trans htracks, fun task' hmem => ?_⟩
    exact (mem_append.mp hmem).elim ((good_all hqtask h).quiet task') (hqrest task')
  · intro history task rest g s e g' s' rest' ⟨hc, htracks, hq⟩ h he hafter
    rw [afterGlobal_quiet (forall_mem_cons.mp hq).2] at hafter
    cases hafter

theorem Underway.add {look : TermId → Option Lambda} (hu : Underway look [] f s) (task : Task)
    (hr : task.Ready look (f.isVisited · = true)) (hp : Paired [task]) : Underway look [task] f s :=
  ⟨hu.lambdas, hu.always, hu.flow, ⟨hr, trivial⟩, fun hl hv t ht =>
    also_mono (fun _ h => h) (nil_subset _) (hu.complete hl hv t ht), hp⟩

theorem Consistent.run {fuel : Nat} {look : TermId → Option Lambda}
    (hmade : ∀ {id l}, look id = some l → Reading.Made l) (hc : Consistent history tasks f)
    (hu : Underway look tasks f s) (h : Gives (performAll fuel tasks) f s () f' s') :
    Consistent (history ++ performed fuel tasks f s) [] f' ∧ f'.tracks = f.tracks ∧
      Underway look [] f' s' := by
  let P : List Task → List Task → Flow → Session → Prop := fun history tasks g s =>
    Consistent history tasks g ∧ g.tracks = f.tracks ∧ Underway look tasks g s
  refine performAll_induction (P := P) ?_ ?_ fuel ⟨hc, rfl, hu⟩ h
  · intro history task rest g s more g' s' ⟨hc, htracks, hu⟩ h
    exact ⟨hc.step h, (frame_perform h).1.trans htracks, underway_step hmade hu h⟩
  · intro history task rest g s e g' s' rest' ⟨hc, htracks, hu⟩ h he hafter
    obtain ⟨hu', rfl, t, x, rfl, rfl⟩ := underway_skip hu h he hafter
    exact ⟨hc.skip, htracks, hu'⟩

/-! ## Analyses -/

/-- What has been done with an analysis: functions of a program that was read are visited and facts are
stated, in any order as long as the facts are `plain` ones about visited nodes. The tasks that were
performed are given in their order. -/
inductive Analysed (tracks : List Track) (always : List Fact) :
    (plain : Bool) → List Task → Flow → Session → Prop
  | start {f : Flow} {s : Session} (hs : Reading.Loaded s) (hstart : start tracks always = .ok f) :
    Analysed tracks always true [] f s
  | visit {f f' : Flow} {s s' : Session} {history : List Task} {id : TermId} {l : Lambda}
    (ha : Analysed tracks always true history f s) (hl : s.lambda? id = some l)
    (h : Gives (visit (lambdaTerm id l)) f s () f' s') :
    Analysed tracks always true (history ++ performed patience [.visit (lambdaTerm id l)] f s) f' s'
  | propagate {plain : Bool} {f f' : Flow} {s s' : Session} {history : List Task} {t : Term}
    {tr : Track} {x : Fact} (ha : Analysed tracks always plain history f s)
    (h : Gives (propagate t tr x) f s () f' s') :
    Analysed tracks always (plain && (f.isVisited t && x.isPlain))
      (history ++ performed patience [.state t tr x] f s) f' s'

variable {tracks : List Track} {always : List Fact} {plain : Bool}

theorem eq_of_start (hstart : start tracks always = .ok f) :
    f = { tracks := tracks.eraseDups, always } := by
  unfold start at hstart
  split at hstart <;> cases hstart
  rfl

theorem underway_start (halways : ∀ x ∈ always, x.isPlain = true)
    (hstart : start tracks always = .ok f) : Underway s.lambda? [] f s := by
  obtain rfl := eq_of_start hstart
  refine ⟨fun _ => rfl, halways, ?_, trivial, fun _ hv => ?_, trivial⟩
  · refine ⟨fun hx => ?_, fun hl => ?_, fun ha => ?_, fun hm => ?_⟩
    · exact absurd hx not_mem_nil
    · exact absurd hl not_mem_nil
    · simp at ha
    · simp at hm
  · cases hv

theorem consistent_start (hstart : start tracks always = .ok f) :
    Consistent [] [] f ∧ f.tracks = tracks.eraseDups := by
  obtain rfl := eq_of_start hstart
  refine ⟨⟨⟨fun hl => ?_, fun h => absurd h not_mem_nil⟩, fun h => absurd h not_mem_nil,
    both_of_forall (by simp)⟩, rfl⟩
  cases hl

theorem consistent_of_analysed (halways : ∀ x ∈ always, x.isPlain = true)
    (h : Analysed tracks always plain history f s) :
    Consistent history [] f ∧ f.tracks = tracks.eraseDups ∧ (plain = true →
      ∃ look, (∀ {id l}, look id = some l → Reading.Made l) ∧ Underway look [] f s) := by
  induction h with
  | start hs hstart =>
    obtain ⟨hc, htracks⟩ := consistent_start hstart
    exact ⟨hc, htracks, fun _ => ⟨_, hs.made.2, underway_start halways hstart⟩⟩
  | visit ha hl h ih =>
    obtain ⟨hc, htracks, hplain⟩ := ih
    obtain ⟨look, hmade, hu⟩ := hplain rfl
    have hr := hu.add (.visit _) (.inr ⟨_, _, hu.lambdas _ ▸ hl, rfl⟩) trivial
    obtain ⟨hc', htracks', hu'⟩ := (hc.add _ (by simp)).run hmade hr h
    exact ⟨hc', htracks'.trans htracks, fun _ => ⟨look, hmade, hu'⟩⟩
  | @propagate plain f f' s s' history t tr x ha h ih =>
    obtain ⟨hc, htracks, hplain⟩ := ih
    unfold propagate at h
    obtain ⟨_, _, _, hflow, h⟩ := gives_bind.mp h
    obtain ⟨rfl, rfl, rfl⟩ := gives_flow.mp hflow
    split at h
    · simp at h
    · have hadd := hc.add (.state t tr x) (by simp)
      obtain ⟨hc', htracks'⟩ := hadd.propagate (by simp [isQuiet]) h
      refine ⟨hc', htracks'.trans htracks, fun hx => ?_⟩
      simp only [Bool.and_eq_true] at hx
      obtain ⟨hp, hv, hx⟩ := hx
      obtain ⟨look, hmade, hu⟩ := hplain hp
      have hr := hu.add (.state t tr x) ⟨hv, .of_isPlain hx⟩ trivial
      exact ⟨look, hmade, (hadd.run hmade hr h).2.2⟩

/-- Whenever visits of functions, and facts that are stated, end without a failure: for
every link from one node to another, all facts of the first hold of the second, and on tracks that
go both ways also all facts of the second of the first; and every listener that was added to a node
has been told of every fact of the node. -/
theorem closed_of_analysed (halways : ∀ x ∈ always, x.isPlain = true)
    (h : Analysed tracks always plain history f s) :
    (∀ a b, .listen a (.forward b) ∈ history → ∀ tr ∈ tracks,
      (∀ x ∈ f.facts tr a, Holds f tr b x) ∧
        (tr.isBidirectional = true → ∀ x ∈ f.facts tr b, Holds f tr a x)) ∧
      ∀ n l, .listen n l ∈ history → ∀ tr ∈ tracks, ∀ x ∈ f.facts tr n,
        .hear l tr x ∈ history := by
  obtain ⟨hc, htracks, -⟩ := consistent_of_analysed halways h
  have htold : ∀ n l, .listen n l ∈ history → ∀ tr ∈ tracks, ∀ x ∈ f.facts tr n,
      .hear l tr x ∈ history := by
    intro n l hl tr htr x hx
    obtain ⟨i, hi⟩ := mem_iff_getElem?.mp (hc.registered hl)
    have htr : tr ∈ f.tracks := by
      rw [htracks]
      exact mem_eraseDups.mpr htr
    rcases hc.delivers.told hi htr hx with hheard | hp
    · exact hheard
    · cases hp with
      | hear h => exact absurd h not_mem_nil
      | tell _ _ h => exact absurd h not_mem_nil
      | catchUp _ h => exact absurd h not_mem_nil
  have hpassed : ∀ {l tr x b}, .hear l tr x ∈ history → l.passesTo tr = some b → Holds f tr b x := by
    intro l tr x b hheard hb
    exact (hc.delivers.passed hheard hb).resolve_right not_mem_nil
  refine ⟨fun a b hab tr htr => ⟨fun x hx => ?_, fun hdir x hx => ?_⟩, htold⟩
  · exact hpassed (htold a _ hab tr htr x hx) rfl
  · have hback : .listen b (.backward a) ∈ history := by simpa using hc.both a b (by simpa using hab)
    exact hpassed (htold b _ hback tr htr x hx) (if_pos hdir)

/-- The text `def f(n): def g(x): return x; return g(n)`: the value of `n` flows through a call. -/
def callingText : Source.Stmt :=
  let at_ : Source.Pos := ⟨1, 0⟩
  .define at_ "f" { names := ["n"] } []
    [.define at_ "g" { names := ["x"] } [] [.ret at_ (some (.name at_ "x"))],
     .ret at_ (some (.call at_ (.name at_ "g") [.name at_ "n"] false))]

def callingSession : Session := (Program.readText "text" 1 [callingText] none none initial).2

def callingFunction : Lambda := (callingSession.lambda? 14).getD default

theorem gives_of_isOk (act : Analysis Unit) (h : (act f s).1.1.isOk = true) :
    Gives act f s () (act f s).1.2 (act f s).2 := by
  rcases hact : act f s with ⟨⟨e | ⟨⟩, f'⟩, s'⟩
  · rw [hact] at h
    cases h
  · exact hact

theorem closed_of_analysed_calling :
    ∃ plain history f s, Analysed [.value, .needs] [] plain history f s ∧
      history.countP (fun task => task.isQuiet && !task.isSingle) = 4 ∧
      f.visited.countP (fun v =>
        (f.facts .value v.node).any fun y => y.same (.value (.literal (.int 3)))) = 4 ∧
      (∀ a b, .listen a (.forward b) ∈ history → ∀ tr ∈ [Track.value, .needs],
        (∀ x ∈ f.facts tr a, Holds f tr b x) ∧
          (tr.isBidirectional = true → ∀ x ∈ f.facts tr b, Holds f tr a x)) ∧
      ∀ n l, .listen n l ∈ history → ∀ tr ∈ [Track.value, .needs], ∀ x ∈ f.facts tr n,
        .hear l tr x ∈ history := by
  obtain ⟨v, s', hread⟩ := Run.exists_returns (Program.readText "text" 1 [callingText] none) none
    initial (by decide +kernel)
  have hs : callingSession = s' := by
    unfold callingSession
    rw [hread]
  have hloaded : Reading.Loaded callingSession := hs ▸ .read (.empty Growth.sound_initial rfl) hread
  have hl : callingSession.lambda? 14 = some callingFunction := by
    have hsome : (callingSession.lambda? 14).isSome = true := by decide +kernel
    unfold callingFunction
    cases hlambda : callingSession.lambda? 14 with
    | none => rw [hlambda] at hsome; cases hsome
    | some l => rfl
  have hvisit := (Analysed.start hloaded
    (show start [.value, .needs] [] = .ok { tracks := [.value, .needs] } from rfl)).visit hl
    (gives_of_isOk _ (by decide +kernel))
  -- what is stated of the parameter flows on to the call
  have ha := hvisit.propagate (gives_of_isOk (propagate (.ident ⟨0, .plain "n" (.hidden 1) 1⟩) .value
    (.value (.literal (.int 3)))) (by decide +kernel))
  exact ⟨_, _, _, _, ha, by decide +kernel, by decide +kernel, closed_of_analysed (by simp) ha⟩

end DiffLang.Dataflow
