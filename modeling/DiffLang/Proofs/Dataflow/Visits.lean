import DiffLang.Proofs.Dataflow.Readiness
import DiffLang.Proofs.Reading.Scopes

/-!
# Nodes are visited before they are used

A missing key is no failure while a global name is visited: it ends the visit, and whatever was still
to be done for it is dropped. This would lose facts if a node could be met there that has not been
visited. It cannot: the visits that a task relies on always stand before it, and a function's
parameters and body are visited before anything can flow to them (`Underway`). So the only key that
is ever missing is that of a global name which stands for nothing, and nothing is dropped with it.

This rests on the parameters of functions being local names, and on functions standing at the top of
a program only, as the reader makes them.

Main statements: `underway_step` and `underway_skip`.
-/

namespace DiffLang.Dataflow

open Analysis Session Scoping Dataflow.Task List
open Reading (Made)

variable {look : TermId → Option Lambda} {V : Term → Prop} {f f' : Flow} {s s' : Session}
variable {task : Task} {rest more : List Task} {t : Term}

variable {always : List Fact} {e : Failure} {params : List Ident} {body u : Term}

namespace Task

/-! ## Missing keys -/

theorem importValue_error {v : Value} (h : importValue s v = .error e) :
    e.kind ≠ .key := by
  unfold importValue at h
  split at h
  · split at h
    · cases h
    · cases h; decide
  · cases h
  · cases h
  · split at h
    · cases h
    · cases h; decide
  · cases h; decide

theorem visiting_error (h : visiting t always = .error e) :
    e.kind ≠ .key := by
  cases t with
  | sequence i steps =>
    cases h
    simp [Failure.because]
  | assign | group =>
    cases h
    decide
  | _ => cases h

/-- A task that finds the nodes it needs misses a key only if it visits a global name, and changes
nothing then. -/
theorem missing_key (hr : task.Ready look (f.isVisited · = true))
    (h : Fails task.perform f s e f' s') (he : e.kind = .key) :
    f' = f ∧ s' = s ∧ ∃ t x, task = .visitGlobal t x := by
  have hnever : ∀ {Q}, Spec task.perform f s Q → False := fun hs => hs.2 _ _ _ h he
  cases hq : task.isQuiet with
  | true =>
    cases hc : task.changesNodes with
    | false =>
      exact (hnever (spec_perform (flowReady_all f) (fun _ => rfl) hq hc (ready_all hq))).elim
    | true =>
      cases task with
      | state t tr x =>
        refine (hnever (Q := fun _ _ => True) ?_).elim
        rw [perform]
        dsimp only
        split
        · exact spec_throw (by decide)
        · refine spec_change (spec_flow ?_)
          split
          · exact spec_pure trivial
          · rw [if_pos (((Same.touch f tr t).isVisited t).trans hr.1)]
            exact spec_change (spec_pure trivial)
      | listen t l =>
        refine (hnever (Q := fun _ _ => True) (spec_flow ?_)).elim
        rw [if_neg (by simpa using hr.1)]
        exact spec_change (spec_pure trivial)
      | visit t => cases hq
      | _ => cases hc
  | false =>
    cases task with
    | visitGlobal t y =>
      simp only [perform, fails_bind, fails_lift, gives_lift, fails_getThe, gives_getThe,
        fails_ofFallible, gives_ofFallible, fails_pure, false_or, and_false, exists_false,
        or_false] at h
      rcases h with ⟨h, rfl⟩ | ⟨v, _, _, ⟨hv, rfl⟩, _, _, _, ⟨rfl, rfl, rfl⟩, himport, -, -⟩
      · exact ⟨rfl, (Program.resolve_error h).symm, t, y, rfl⟩
      · exact absurd he (importValue_error himport)
    | visit t =>
      refine (hnever (Q := fun _ _ => True) (spec_flow ?_)).elim
      split
      · exact spec_pure trivial
      · refine spec_change ?_
        cases hvisiting : visiting t f.always with
        | ok more => exact spec_pure trivial
        | error e => exact spec_throw (visiting_error hvisiting)
    | leaveGlobal => exact (hnever (Q := fun _ _ => True) (spec_pure trivial)).elim
    | _ => cases hq

/-! ## Orders of tasks -/

theorem opening_quiet (hq : task.isQuiet = true) : opening (task :: rest) = opening rest := by
  cases task with
  | visit | visitGlobal | leaveGlobal => cases hq
  | _ => rfl

theorem paired_append (h : ∀ t x, Task.visitGlobal t x ∉ more) (hrest : Paired rest) :
    Paired (more ++ rest) := by
  induction more with
  | nil => exact hrest
  | cons task more ih =>
    have ih := ih fun t x hmem => h t x (mem_cons_of_mem _ hmem)
    cases task with
    | visitGlobal t x => exact (h t x (by simp)).elim
    | _ => exact ih

theorem Paired.of_quiet (hq : task.isQuiet = true) (h : Paired (task :: rest)) : Paired rest := by
  cases task with
  | visitGlobal t x => cases hq
  | _ => exact h

theorem visits_quiet (hq : task.isQuiet = true) : task.visits = [] := by
  cases task with
  | visit t => cases hq
  | _ => rfl

theorem opening_append (h : ∀ task ∈ more, task.isQuiet = true) :
    opening (more ++ rest) = opening rest := by
  induction more with
  | nil => rfl
  | cons task more ih =>
    obtain ⟨hq, h⟩ := forall_mem_cons.mp h
    rw [cons_append, opening_quiet hq]
    exact ih h

theorem Good.allReady (h : Good look V more) (hrest : AllReady look V rest) :
    AllReady look V (more ++ rest) :=
  .append (.of_forall h.ready) (hrest.mono fun _ => also_left)

theorem AllReady.visits {ts : List Term} {tasks : List Task} (hts : ∀ t ∈ ts, Proper look t)
    (h : AllReady look (also V ts) tasks) : AllReady look V (ts.map .visit ++ tasks) := by
  refine .append (.of_forall ?_) (h.mono fun t => also_mono (fun _ ht => ht) ?_)
  · intro task hmem
    obtain ⟨t, ht, rfl⟩ := mem_map.mp hmem
    exact hts t ht
  · intro t ht
    rw [flatMap_map, mem_flatMap]
    refine ⟨t, ht, ?_⟩
    unfold Task.visits
    split <;> simp_all

end Task

/-! ## Terms -/

theorem lifted_patternVariables (h : Lifted t) : ∀ v ∈ patternVariables t, Lifted v := by
  induction h with
  | @intro t hl hc ih =>
    intro v hv
    cases t with
    | tuple i items =>
      rw [patternVariables_tuple] at hv
      obtain ⟨u, hu, hv⟩ := mem_flatMap.mp hv
      exact ih u hu v hv
    | _ =>
      obtain rfl := mem_singleton.mp hv
      exact .intro hl hc

theorem eq_lambda_of_pointOf {id : TermId} (h : pointOf t = pointOf (.lambda id params body)) :
    ∃ params' body', t = .lambda id params' body' := by
  cases t with
  | lambda i params' body' =>
    injection h with _ h
    exact ⟨params', body', by rw [show i = id from h]⟩
  | literal i v =>
    change literalPoint i v = .node "LambdaNode" id at h
    unfold literalPoint at h
    split at h
    all_goals simp at h
  | ident x => cases h
  | bind | apply | sequence | tuple | closure | assign | group => simp [pointOf, Term.sortName] at h

/-! ## Runs -/

/-- The tasks that are left find the nodes that they need, and the functions that have been visited
have their parameters and bodies visited before anything else happens. -/
structure Underway (look : TermId → Option Lambda) (tasks : List Task) (f : Flow) (s : Session) :
    Prop where
  lambdas : ∀ id, s.lambda? id = look id
  always : ∀ x ∈ f.always, x.isPlain = true
  flow : FlowReady look (f.isVisited · = true) f
  ready : AllReady look (f.isVisited · = true) tasks
  complete : ∀ {id l}, look id = some l → f.isVisited (lambdaTerm id l) = true →
    ∀ t ∈ functionNodes l, also (f.isVisited · = true) (opening tasks) t
  paired : Paired tasks

theorem Underway.quiet (hu : Underway look (task :: rest) f s) (hq : task.isQuiet = true)
    (h : Gives task.perform f s more f' s') : Underway look (more ++ rest) f' s' := by
  obtain ⟨hgood, hflow, hvisited⟩ := good_perform hu.flow hu.lambdas hq hu.ready.1 h
  obtain ⟨-, halways, hlambdas⟩ := frame_perform h
  have hrest : AllReady look (f.isVisited · = true) rest := by
    refine hu.ready.2.mono fun t ht => ?_
    rw [visits_quiet hq] at ht
    simpa [also] using ht
  refine ⟨fun id => ?_, halways ▸ hu.always, ?_, ?_, ?_, ?_⟩
  · rw [lambda?, hlambdas]
    exact hu.lambdas id
  · rw [hvisited]
    exact hflow
  · rw [hvisited]
    exact hgood.allReady hrest
  · intro id l hl hv
    rw [hvisited] at hv ⊢
    rw [opening_append hgood.quiet]
    have := hu.complete hl hv
    rwa [opening_quiet hq] at this
  · exact paired_append (fun t x hmem => by cases hgood.quiet _ hmem) (hu.paired.of_quiet hq)

theorem mem_opening_visit (h : u ∈ opening (.visit t :: rest)) :
    u = t ∨ (u ∈ opening rest ∧ ∃ x, t = .ident x ∧ x.sym.isGlobal = false) := by
  cases t with
  | ident x =>
    unfold opening at h
    rcases mem_cons.mp h with rfl | h
    · exact .inl rfl
    · split at h
      · exact absurd h not_mem_nil
      next hx => exact .inr ⟨h, x, rfl, by simpa using hx⟩
  | _ => exact .inl (mem_singleton.mp h)

theorem mem_visits_visit (h : u ∈ (Task.visit t).visits) :
    u = t ∨ ∃ id params body, t = .lambda id params body ∧ u ∈ params.map Term.ident ++ [body] := by
  cases t with
  | lambda id params body =>
    rcases mem_cons.mp h with rfl | h
    · exact .inl rfl
    · exact .inr ⟨id, params, body, rfl, h⟩
  | _ => exact .inl (mem_singleton.mp h)

theorem Proper.eq_lambdaTerm {id : TermId} (h : Proper look (.lambda id params body)) :
    ∃ l, look id = some l ∧ l.params = params ∧ l.body = body := by
  rcases h with h | ⟨id', l, hl, heq⟩
  · exact (h.ne_lambda id params body rfl).elim
  · cases heq
    exact ⟨l, hl, rfl, rfl⟩

theorem Underway.again (hu : Underway look (.visit t :: rest) f s) (hv : f.isVisited t = true) :
    Underway look rest f s := by
  have hpoint : ∀ {u}, pointOf t = pointOf u → f.isVisited u = true := fun hp =>
    (Flow.isVisited_congr hp).symm.trans hv
  refine ⟨hu.lambdas, hu.always, hu.flow, hu.ready.2.mono ?_, ?_, hu.paired⟩
  · rintro u (hu' | ⟨w, hw, hp⟩)
    · exact hu'
    rcases mem_visits_visit hw with rfl | ⟨id, params, body, rfl, hnode⟩
    · exact hpoint hp
    -- the parameters and the body of a function are visited when it is met again
    obtain ⟨l, hl, rfl, rfl⟩ := Proper.eq_lambdaTerm hu.ready.1
    rw [← Flow.isVisited_congr hp]
    rcases hu.complete hl hv w hnode with hw | ⟨v, hv, hp⟩
    · exact hw
    · obtain rfl := mem_singleton.mp hv
      exact hpoint hp
  · intro id l hl hvisited u hu'
    rcases hu.complete hl hvisited u hu' with h | ⟨w, hw, hp⟩
    · exact also_left h
    · rcases mem_opening_visit hw with rfl | ⟨hw, -⟩
      · exact also_left (hpoint hp)
      · exact .inr ⟨w, hw, hp⟩

theorem allReady_bindings {bindings : List (Term × Term)} {tail : List Task}
    (hb : ∀ b ∈ bindings, Lifted b.1 ∧ Lifted b.2)
    (htail : ∀ X : Term → Prop, (∀ u, V u → X u) → AllReady look X tail) :
    AllReady look V ((bindings.flatMap fun (target, value) =>
      .visit value :: (patternVariables target).map .visit ++ [.bindTo target value]) ++ tail) := by
  induction bindings generalizing V with
  | nil => exact htail V fun _ h => h
  | cons b bindings ih =>
    obtain ⟨target, value⟩ := b
    obtain ⟨ht, hv⟩ := hb (target, value) (by simp)
    rw [flatMap_cons, append_assoc]
    change AllReady look V ((value :: patternVariables target).map Task.visit ++
      [.bindTo target value] ++ _)
    rw [append_assoc]
    refine .visits ?_ ?_
    · intro u hu
      rcases mem_cons.mp hu with rfl | hu
      · exact .inl hv
      · exact .inl (lifted_patternVariables ht u hu)
    · refine Good.allReady (good_cons rfl (fun u hu => also_of_mem hu) good_nil) ?_
      exact ih (fun b hb' => hb b (mem_cons_of_mem _ hb')) fun X hX =>
        htail X fun u hu => hX u (also_left hu)

theorem allReady_visiting (hmade : ∀ {id l}, look id = some l → Made l) (hp : Proper look t)
    (halways : ∀ x ∈ always, x.isPlain = true)
    (h : visiting t always = .ok more) (hV : ∀ u, pointOf t = pointOf u → V u)
    (hrest : AllReady look (also V (Task.visit t).visits) rest) :
    AllReady look V (more ++ rest) := by
  have hdemand : ∀ X : Term → Prop, X t → ∀ xs, (∀ x ∈ xs, x ∈ always ∨ x.isPlain = true) →
      (Task.demand t xs).Ready look X := by
    intro X hX xs hxs
    refine ⟨hX, fun x hx => ?_⟩
    exact .of_isPlain ((hxs x hx).elim (halways x) id)
  have hself : V t := hV t rfl
  have hlifted : (∀ id params body, t ≠ .lambda id params body) → Lifted t := by
    intro hne
    rcases hp with hp | ⟨id, l, -, rfl⟩
    · exact hp
    · exact (hne id l.params l.body rfl).elim
  -- only a function brings more nodes than itself to the tasks after it
  have hafter : (∀ id params body, t ≠ .lambda id params body) →
      ∀ X : Term → Prop, (∀ u, V u → X u) → AllReady look X rest := by
    refine fun hne X hX => hrest.mono fun u hu => ?_
    rcases hu with hu | ⟨w, hw, hpoint⟩
    · exact hX u hu
    · rcases mem_visits_visit hw with rfl | ⟨id, params, body, rfl, -⟩
      · exact hX u (hV u hpoint)
      · exact (hne id params body rfl).elim
  -- the parts are visited first
  have hparts (hne : ∀ id params body, t ≠ .lambda id params body) {tasks : List Task}
      (hgood : Good look (also V t.children) tasks) :
      AllReady look V (t.children.map .visit ++ (tasks ++ rest)) :=
    .visits (fun u hu => .inl ((hlifted hne).child hu))
      (Good.allReady hgood (hafter hne _ fun _ => also_left))
  cases t with
  | apply i fn args =>
    cases h
    rw [append_assoc]
    refine hparts (by simp) ?_
    refine good_cons rfl ?_ (good_cons rfl ⟨also_of_mem mem_cons_self, ?_⟩
      (good_cons rfl (hdemand _ (also_left hself) _ fun x hx => .inl hx) good_nil))
    · intro u hu
      rcases mem_append.mp hu with hu | hu
      · exact also_of_mem hu
      · rcases mem_cons.mp hu with rfl | hu
        · exact also_left hself
        · exact also_of_mem (mem_cons_of_mem _ hu)
    · intro x hx
      obtain rfl := mem_singleton.mp hx
      exact .of_isPlain rfl
  | closure i fn args =>
    cases h
    rw [append_assoc]
    refine hparts (by simp) ?_
    refine good_cons rfl ?_ (good_cons rfl ⟨also_left hself, fun u hu => also_of_mem hu⟩ good_nil)
    intro u hu
    rcases mem_append.mp hu with hu | hu
    · exact also_of_mem hu
    · obtain rfl := mem_singleton.mp hu
      exact also_left hself
  | tuple i items =>
    cases h
    rw [append_assoc]
    refine hparts (by simp) ?_
    refine good_cons rfl ⟨also_left hself, fun u hu => also_of_mem hu⟩
      (good_cons rfl (hdemand _ (also_left hself) _ fun x hx => ?_) good_nil)
    rcases mem_cons.mp hx with rfl | hx
    · exact .inr rfl
    · exact .inl hx
  | lambda i params body =>
    cases h
    obtain ⟨l, hl, rfl, rfl⟩ := hp.eq_lambdaTerm
    rw [show ((l.params.map fun p => Task.visit (.ident p)) ++
      [.visit l.body, .state (.lambda i l.params l.body) .value (.ofTerm (.lambda i l.params l.body))]
      ++ rest) = (functionNodes l).map Task.visit ++
      ([.state (.lambda i l.params l.body) .value (.value (.lambda i))] ++ rest) by
        simp [functionNodes, Fact.ofTerm]]
    refine .visits (fun u hu => ?_) (Good.allReady ?_ (hrest.mono fun u hu => ?_))
    · rcases mem_append.mp hu with hu | hu
      · obtain ⟨p, -, rfl⟩ := mem_map.mp hu
        exact .inl (lifted_ident p)
      · obtain rfl := mem_singleton.mp hu
        exact .inl (hmade hl).orderly.lifted
    · refine good_cons rfl ⟨also_left hself, fun l' hl' u hu => ?_⟩ good_nil
      rw [hl] at hl'
      cases hl'
      exact also_of_mem hu
    · rcases hu with hu | ⟨w, hw, hp⟩
      · exact also_left hu
      · rcases mem_cons.mp hw with rfl | hw
        · exact also_left (hV u hp)
        · exact .inr ⟨w, hw, hp⟩
  | bind i bindings body =>
    cases h
    have hl := hlifted (by simp)
    have hchild : ∀ b ∈ bindings, b.1 ∈ (Term.bind i bindings body).children ∧
        b.2 ∈ (Term.bind i bindings body).children := by
      intro b hb
      constructor
      all_goals
        refine mem_append_left _ (mem_flatMap.mpr ⟨b, hb, ?_⟩)
        simp
    rw [append_assoc, append_assoc]
    refine allReady_bindings
      (fun b hb => ⟨hl.child (hchild b hb).1, hl.child (hchild b hb).2⟩) fun X hX => ?_
    change AllReady look X ([body].map Task.visit ++ (link body (.bind i bindings body) ++
      [.demand (.bind i bindings body) always] ++ rest))
    refine .visits (fun u hu => ?_) (Good.allReady (good_append ?_ ?_)
      (hafter (by simp) _ fun u hu => also_left (hX u hu)))
    · obtain rfl := mem_singleton.mp hu
      exact .inl (hl.child (mem_append_right _ (by simp)))
    · exact good_link (also_of_mem (by simp)) (also_left (hX _ hself))
    · exact good_cons rfl (hdemand _ (also_left (hX _ hself)) _ fun x hx => .inl hx) good_nil
  | ident x =>
    have hlast : AllReady look V ([.demand (.ident x) always] ++ rest) :=
      Good.allReady (good_cons rfl (hdemand _ hself _ fun x hx => .inl hx) good_nil)
        (hafter (by simp) V fun _ h => h)
    cases h
    rw [append_assoc]
    split
    · exact Good.allReady (good_cons rfl ⟨hself, trivial⟩ good_nil) hlast
    · split
      · refine .append (.of_forall ?_) (hlast.mono fun _ => also_left)
        intro task hmem
        simp only [mem_cons, not_mem_nil, or_false] at hmem
        rcases hmem with rfl | rfl
        · exact hself
        · trivial
      · exact hlast
  | literal i v =>
    cases h
    exact Good.allReady (good_cons rfl ⟨hself, trivial⟩
      (good_cons rfl (hdemand _ hself _ fun x hx => .inl hx) good_nil))
      (hafter (by simp) V fun _ h => h)
  | sequence | assign | group => cases h

theorem paired_visiting (h : visiting t always = .ok more)
    (hrest : Paired rest) : Paired (more ++ rest) := by
  cases t with
  | ident x =>
    cases h
    rw [append_assoc]
    split
    · exact hrest
    · split <;> exact hrest
  | apply | closure | lambda =>
    cases h
    exact paired_append (by simp) hrest
  | bind i bindings body =>
    cases h
    exact paired_append (by simp [link]) hrest
  | tuple i items =>
    cases h
    exact paired_append (by simp) hrest
  | literal i v =>
    cases h
    exact hrest
  | sequence | assign | group => cases h

theorem opening_visiting_local {x : Ident} (hx : x.sym.isGlobal = false)
    (h : visiting (.ident x) always = .ok more) : opening (more ++ rest) = opening rest := by
  cases h
  rw [hx, append_assoc]
  split <;> rfl

/-- The visits of a function's parameters and body come first. -/
theorem mem_opening_function {tasks : List Task}
    (hlocal : ∀ p ∈ params, p.sym.isGlobal = false) (hu : u ∈ params.map Term.ident ++ [body]) :
    u ∈ opening ((params.map fun p => Task.visit (.ident p)) ++ .visit body :: tasks) := by
  induction params with
  | nil =>
    obtain rfl := mem_singleton.mp hu
    cases u with
    | ident x => exact mem_cons_self
    | _ => exact mem_singleton_self _
  | cons p params ih =>
    rw [map_cons, cons_append, opening, hlocal p (by simp)]
    rw [map_cons, cons_append] at hu
    rcases mem_cons.mp hu with rfl | hu
    · exact mem_cons_self
    · exact mem_cons_of_mem _ (ih (fun q hq => hlocal q (mem_cons_of_mem _ hq)) hu)

theorem FlowReady.withVisited (hf : FlowReady look V f) (t : Term) :
    FlowReady look V (f.withVisited t) :=
  { hf with listeners := fun hl => hf.listeners (Flow.listeners_withVisited ▸ hl) }

theorem Underway.first (hmade : ∀ {id l}, look id = some l → Made l)
    (hu : Underway look (.visit t :: rest) f s) (h : visiting t f.always = .ok more) :
    Underway look (more ++ rest) (f.withVisited t) s := by
  have hold : ∀ u, f.isVisited u = true → (f.withVisited t).isVisited u = true := fun u hu =>
    Flow.isVisited_withVisited.mpr (.inl hu)
  have hnew : ∀ u, pointOf t = pointOf u → (f.withVisited t).isVisited u = true := fun u hp =>
    Flow.isVisited_withVisited.mpr (.inr hp)
  refine ⟨hu.lambdas, hu.always, (hu.flow.withVisited t).mono hold, ?_, ?_,
    paired_visiting h hu.paired⟩
  · exact allReady_visiting hmade hu.ready.1 hu.always h hnew
      (hu.ready.2.mono fun u => also_mono hold (List.Subset.refl _))
  · intro id l hl hv u hnode
    rcases Flow.isVisited_withVisited.mp hv with hv | hp
    · -- a function that was visited before
      rcases hu.complete hl hv u hnode with h' | ⟨w, hw, hp⟩
      · exact also_left (hold u h')
      · rcases mem_opening_visit hw with rfl | ⟨hw', x, rfl, hx⟩
        · exact also_left (hnew u hp)
        · rw [opening_visiting_local hx h]
          exact .inr ⟨w, hw', hp⟩
    · -- the function that is visited now
      obtain ⟨params, body, rfl⟩ := eq_lambda_of_pointOf hp
      obtain ⟨l', hl', rfl, rfl⟩ := Proper.eq_lambdaTerm hu.ready.1
      rw [hl] at hl'
      cases hl'
      cases h
      rw [append_assoc]
      exact also_of_mem (mem_opening_function (hmade hl).isGlobal hnode)

theorem importValue_proper {v : Value} {target : Term} (h : importValue s v = .ok target) :
    (∃ id l, s.lambda? id = some l ∧ target = lambdaTerm id l) ∨ ∃ x, target = .ident x := by
  unfold importValue at h
  split at h
  next id =>
    split at h
    next l hl =>
      cases h
      exact .inl ⟨id, l, hl, rfl⟩
    · cases h
  · cases h
    exact .inr ⟨_, rfl⟩
  · cases h
    exact .inr ⟨_, rfl⟩
  · split at h
    · cases h
      exact .inr ⟨_, rfl⟩
    · cases h
  · cases h

theorem Task.Paired.eq_leaveGlobal {x : Symbol} (h : Paired (.visitGlobal t x :: rest)) :
    ∃ rest', rest = .leaveGlobal :: rest' ∧ Paired rest' := by
  cases rest with
  | nil => exact h.elim
  | cons task rest' =>
    cases task with
    | leaveGlobal => exact ⟨rest', rfl, h⟩
    | _ => exact h.elim

theorem Underway.global {x : Symbol} (hu : Underway look (.visitGlobal t x :: rest) f s)
    (h : Gives (perform (.visitGlobal t x)) f s more f' s') :
    Underway look (more ++ rest) f' s' := by
  have hlambdas : ∀ id, s'.lambda? id = look id := fun id => by
    rw [lambda?, (frame_perform h).2.2]
    exact hu.lambdas id
  simp only [perform, gives_bind, gives_lift, gives_getThe, gives_ofFallible, gives_pure] at h
  obtain ⟨v, _, _, ⟨-, rfl⟩, _, _, _, ⟨rfl, rfl, rfl⟩, target, _, _, ⟨himport, rfl, rfl⟩,
    rfl, rfl, rfl⟩ := h
  obtain ⟨rest, rfl, hpaired⟩ := hu.paired.eq_leaveGlobal
  refine ⟨hlambdas, hu.always, hu.flow, ?_, fun hl hv u hnode => ?_, hpaired⟩
  · rcases importValue_proper himport with ⟨id, l, hl, rfl⟩ | ⟨y, rfl⟩
    · have hl : look id = some l := by rw [← hlambdas id, hl]
      refine ⟨.inr ⟨id, l, hl, rfl⟩, ⟨also_left hu.ready.1, fun l' hl' u hnode => ?_⟩, ?_⟩
      · rw [hl] at hl'
        cases hl'
        exact also_of_mem (mem_cons_of_mem _ hnode)
      · exact hu.ready.2.mono fun u => also_mono (fun _ h => also_left h) (List.Subset.refl _)
    · refine ⟨.inl (lifted_ident y), ⟨also_left hu.ready.1, trivial⟩, ?_⟩
      exact hu.ready.2.mono fun u => also_mono (fun _ h => also_left h) (List.Subset.refl _)
  · rcases hu.complete hl hv u hnode with h | ⟨w, hw, -⟩
    · exact also_left h
    · exact absurd hw not_mem_nil

/-- Whatever task is performed, those that are left find the nodes that they need. -/
theorem underway_step (hmade : ∀ {id l}, look id = some l → Made l)
    (hu : Underway look (task :: rest) f s) (h : Gives task.perform f s more f' s') :
    Underway look (more ++ rest) f' s' := by
  cases hq : task.isQuiet with
  | true => exact hu.quiet hq h
  | false =>
    cases task with
    | visit t =>
      rcases gives_visit h with ⟨hv, rfl, rfl, rfl⟩ | ⟨-, hvisiting, rfl, rfl⟩
      · exact hu.again hv
      · exact hu.first hmade hvisiting
    | visitGlobal t x => exact hu.global h
    | leaveGlobal =>
      obtain ⟨rfl, rfl, rfl⟩ := gives_pure.mp h
      refine ⟨hu.lambdas, hu.always, hu.flow, hu.ready.2.mono fun t ht => ?_, hu.complete, hu.paired⟩
      simpa [also, Task.visits] using ht
    | _ => cases hq

/-- A missing key ends the visit of a global name that stands for nothing. Only the end of the visit
is passed over, and nothing else. -/
theorem underway_skip {rest' : List Task} (hu : Underway look (task :: rest) f s)
    (h : Fails task.perform f s e f' s') (he : e.kind = .key) (hafter : afterGlobal rest = some rest') :
    Underway look rest' f' s' ∧ f' = f ∧ ∃ t x, task = .visitGlobal t x ∧
      rest = .leaveGlobal :: rest' := by
  obtain ⟨rfl, rfl, t, x, rfl⟩ := missing_key hu.ready.1 h he
  obtain ⟨rest, rfl, hpaired⟩ := hu.paired.eq_leaveGlobal
  cases hafter
  refine ⟨⟨hu.lambdas, hu.always, hu.flow, hu.ready.2.2.mono fun t ht => ?_, fun hl hv u hnode => ?_,
    hpaired⟩, rfl, t, x, rfl, rfl⟩
  · simpa [also, Task.visits] using ht
  · rcases hu.complete hl hv u hnode with h | ⟨w, hw, -⟩
    · exact also_left h
    · exact absurd hw not_mem_nil

end DiffLang.Dataflow
