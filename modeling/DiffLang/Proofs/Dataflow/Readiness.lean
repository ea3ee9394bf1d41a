import DiffLang.Proofs.Dataflow.Runs
import DiffLang.Proofs.Reading.Bound

/-!
# Nodes that tasks need

A fact can be stated only of a node that has been visited, and a listener can be added only to such a
node. Each task, listener and fact may lead to some nodes; where these are there, performing a task
leads to tasks, listeners and facts of which the same holds. The tasks visit nothing, and where one
of them makes facts flow from one node to another, another one makes them flow back.

Main statements: `spec_perform`, for the tasks that neither visit nodes nor change what is known of
them, and `good_perform`, for all tasks that visit nothing.
-/

namespace DiffLang.Dataflow

open Analysis Session Scoping Dataflow.Task List

/-! ## What has to be visited -/

/-- A term that can be visited: a function of the program, or a term with no function inside. -/
def Proper (look : TermId → Option Lambda) (t : Term) : Prop :=
  Lifted t ∨ ∃ id l, look id = some l ∧ t = lambdaTerm id l

def also (V : Term → Prop) (ts : List Term) : Term → Prop :=
  fun t => V t ∨ ∃ u ∈ ts, pointOf u = pointOf t

def functionNodes (l : Lambda) : List Term := l.params.map .ident ++ [l.body]

def Fact.Prepared (look : TermId → Option Lambda) (V : Term → Prop) : Fact → Prop
  | .value (.lambda id) => ∀ l, look id = some l → ∀ t ∈ functionNodes l, V t
  | .term (.tuple _ items) => ∀ t ∈ items, V t
  | .term (.closure _ fn args) => ∀ t ∈ fn :: args, V t
  | _ => True

def operands : Term → List Term
  | .apply _ _ args => args
  | _ => []

def Listener.Ready (V : Term → Prop) : Listener → Prop
  | .forward b | .backward b => V b
  | .call _ site _ => ∀ t ∈ site :: operands site, V t
  | .bind pattern => ∀ t ∈ patternVariables pattern, V t
  | .choose args site => ∀ t ∈ site :: args, V t
  | .position _ site | .contents _ site | .typed _ _ site => V site
  | .need _ site => ∀ t ∈ operands site, V t

namespace Task

def Ready (look : TermId → Option Lambda) (V : Term → Prop) : Task → Prop
  | .visit t => Proper look t
  | .visitGlobal t _ => V t
  | .state t _ x => V t ∧ x.Prepared look V
  | .demand t xs => V t ∧ ∀ x ∈ xs, x.Prepared look V
  | .tell _ _ _ x => x.Prepared look V
  | .hear l _ x => l.Ready V ∧ x.Prepared look V
  | .listen t l => V t ∧ l.Ready V
  | .catchUp _ l _ => l.Ready V
  | .linkItem ts _ site | .linkArgument ts _ site => ∀ t ∈ site :: ts, V t
  | .watchCall fn args site _ => ∀ t ∈ fn :: args ++ site :: operands site, V t
  | .bindTo target value => ∀ t ∈ value :: patternVariables target, V t
  | .operate _ _ args site => ∀ t ∈ args ++ site :: operands site, V t
  | .typeRule _ _ _ site => V site
  | .leaveGlobal | .unchanged .. | .sameTuples .. | .samePositions .. => True

def visits : Task → List Term
  | .visit (.lambda id params body) => .lambda id params body :: params.map .ident ++ [body]
  | .visit t => [t]
  | _ => []

/-- Each task finds the nodes that it needs, if the visits before it are made. -/
def AllReady (look : TermId → Option Lambda) : (Term → Prop) → List Task → Prop
  | _, [] => True
  | V, task :: rest => task.Ready look V ∧ AllReady look (also V task.visits) rest

/-- The visits of local names that tasks begin with, up to the first visit of anything else. -/
def opening : List Task → List Term
  | [] => []
  | .visit (.ident x) :: rest => .ident x :: if x.sym.isGlobal then [] else opening rest
  | .visit t :: _ => [t]
  | .visitGlobal .. :: _ => []
  | _ :: rest => opening rest

/-- Every visit of a global name is followed by its end. -/
def Paired : List Task → Prop
  | [] => True
  | .visitGlobal .. :: .leaveGlobal :: rest => Paired rest
  | .visitGlobal .. :: _ => False
  | _ :: rest => Paired rest

end Task

def Meeting.Ready (V : Term → Prop) (m : Meeting) : Prop := ∀ t ∈ m.tuples, ∀ c ∈ t.children, V c

/-- What an analysis holds leads only to nodes that are there. -/
structure FlowReady (look : TermId → Option Lambda) (V : Term → Prop) (f : Flow) : Prop where
  facts : ∀ {tr n x}, x ∈ f.facts tr n → x.Prepared look V
  listeners : ∀ {n l}, l ∈ f.listeners n → l.Ready V
  arguments : ∀ {args}, args ∈ f.arguments → ∀ a ∈ args, V a
  meetings : ∀ {m}, m ∈ f.meetings → m.Ready V

variable {look : TermId → Option Lambda} {V W : Term → Prop}

/-! ## More nodes -/

variable {t : Term} {ts us : List Term}

theorem also_left (h : V t) : also V ts t := .inl h

theorem also_of_mem (h : t ∈ ts) : also V ts t := .inr ⟨t, h, rfl⟩

theorem also_mono (hV : ∀ t, V t → W t) (hts : ts ⊆ us) (h : also V ts t) : also W us t :=
  h.imp (hV t) fun ⟨u, hu, hp⟩ => ⟨u, hts hu, hp⟩

theorem also_append (h : also V (ts ++ us) t) : also (also V ts) us t := by
  rcases h with h | ⟨u, hu, hp⟩
  · exact .inl (.inl h)
  · rcases mem_append.mp hu with hu | hu
    · exact .inl (.inr ⟨u, hu, hp⟩)
    · exact .inr ⟨u, hu, hp⟩

theorem Fact.Prepared.mono {x : Fact} (h : x.Prepared look V) (hV : ∀ t, V t → W t) :
    x.Prepared look W := by
  cases x with
  | value v =>
    cases v with
    | lambda id => exact fun l hl t ht => hV t (h l hl t ht)
    | _ => trivial
  | term t =>
    cases t with
    | tuple i items => exact fun t ht => hV t (h t ht)
    | closure i fn args => exact fun t ht => hV t (h t ht)
    | _ => trivial

theorem Listener.Ready.mono {l : Listener} (h : l.Ready V) (hV : ∀ t, V t → W t) : l.Ready W := by
  cases l with
  | forward b => exact hV b h
  | backward b => exact hV b h
  | call | bind | choose => exact fun t ht => hV t (h t ht)
  | position cell site => exact hV site h
  | contents cell site => exact hV site h
  | typed op args site => exact hV site h
  | need op site => exact fun t ht => hV t (h t ht)

variable {f f' : Flow} {s s' : Session} {more : List Task} {tr : Track} {x : Fact}
variable {l : Listener}

theorem FlowReady.mono (hf : FlowReady look V f) (hV : ∀ t, V t → W t) : FlowReady look W f where
  facts hx := (hf.facts hx).mono hV
  listeners hl := (hf.listeners hl).mono hV
  arguments hargs a ha := hV a (hf.arguments hargs a ha)
  meetings hm t ht c hc := hV c (hf.meetings hm t ht c hc)

theorem FlowReady.same (hf : FlowReady look V f) (h : Same f f')
    (ha : ∀ {args}, args ∈ f'.arguments → ∀ a ∈ args, V a)
    (hm : ∀ {m}, m ∈ f'.meetings → m.Ready V) : FlowReady look V f' where
  facts hx := hf.facts (h.facts _ _ ▸ hx)
  listeners hl := hf.listeners (h.listeners _ ▸ hl)
  arguments := ha
  meetings := hm

theorem FlowReady.touch (hf : FlowReady look V f) (u : Track) (t : Term) :
    FlowReady look V (f.touch u t) := by
  refine hf.same (.touch f u t) ?_ ?_
  · rw [Flow.touch_arguments]
    exact hf.arguments
  · rw [Flow.touch_meetings]
    exact hf.meetings

theorem FlowReady.touchAll (hf : FlowReady look V f) (u : Track) (ts : List Term) :
    FlowReady look V (ts.foldl (fun f a => f.touch u a) f) := by
  induction ts generalizing f with
  | nil => exact hf
  | cons t ts ih => exact ih (hf.touch u t)

theorem FlowReady.addFact (hf : FlowReady look V f) (hx : x.Prepared look V)
    (u : Track) : FlowReady look V (f.addFact u t x) where
  facts := by
    intro tr n y hy
    rw [Flow.facts_addFact] at hy
    split at hy
    · rcases mem_append.mp hy with hy | hy
      · exact hf.facts hy
      · rw [mem_singleton.mp hy]
        exact hx
    · exact hf.facts hy
  listeners := hf.listeners
  arguments := hf.arguments
  meetings := hf.meetings

theorem FlowReady.listen (hf : FlowReady look V f) (hv : f.isVisited t = true)
    (hl : l.Ready V) : FlowReady look V (f.listen t l) where
  facts := hf.facts
  listeners := by
    intro n k hk
    rw [Flow.listeners_listen hv] at hk
    split at hk
    · rcases mem_append.mp hk with hk | hk
      · exact hf.listeners hk
      · rw [mem_singleton.mp hk]
        exact hl
    · exact hf.listeners hk
  arguments := hf.arguments
  meetings := hf.meetings

theorem FlowReady.cell (hf : FlowReady look V f) (cell : Nat) :
    ∀ a ∈ (f.arguments[cell]?).getD [], V a := by
  cases hcell : f.arguments[cell]? with
  | none => exact fun a ha => absurd ha not_mem_nil
  | some args => exact hf.arguments (Array.mem_of_getElem? hcell)

def Fact.isPlain : Fact → Bool
  | .value (.lambda _) | .term _ => false
  | .value _ => true

theorem Fact.Prepared.of_isPlain (h : x.isPlain = true) : x.Prepared look V := by
  cases x with
  | value v =>
    cases v with
    | lambda id => cases h
    | _ => trivial
  | term t => cases h

def Demand.facts : Demand → List Fact
  | .nothing => []
  | .each needs => needs.flatten

theorem plain_demands : ∀ row ∈ demands, ∀ d ∈ row.2, ∀ y ∈ d.2.facts, y.isPlain = true := by
  decide

namespace Task

variable {task : Task} {tasks a b : List Task} {α : Type} {xs : List α} {site : Term} {op : Symbol}

theorem Ready.mono (h : task.Ready look V) (hV : ∀ t, V t → W t) :
    task.Ready look W := by
  cases task with
  | visit t => exact h
  | visitGlobal t y => exact hV t h
  | leaveGlobal => trivial
  | state t tr x => exact ⟨hV t h.1, h.2.mono hV⟩
  | demand t xs => exact ⟨hV t h.1, fun x hx => (h.2 x hx).mono hV⟩
  | tell t i tr x => exact Fact.Prepared.mono h hV
  | hear l tr x => exact ⟨h.1.mono hV, h.2.mono hV⟩
  | listen t l => exact ⟨hV t h.1, h.2.mono hV⟩
  | catchUp t l tr => exact Listener.Ready.mono h hV
  | unchanged | sameTuples | samePositions => trivial
  | linkItem | linkArgument | watchCall | bindTo | operate => exact fun t ht => hV t (h t ht)
  | typeRule ins out args site => exact hV site h

theorem AllReady.mono (h : AllReady look V tasks) (hV : ∀ t, V t → W t) :
    AllReady look W tasks := by
  induction tasks generalizing V W with
  | nil => trivial
  | cons task rest ih =>
    exact ⟨h.1.mono hV, ih h.2 fun t => also_mono hV (List.Subset.refl _)⟩

/-- Tasks that need no visits first. -/
theorem AllReady.of_forall (h : ∀ task ∈ tasks, task.Ready look V) :
    AllReady look V tasks := by
  induction tasks generalizing V with
  | nil => trivial
  | cons task rest ih =>
    refine ⟨h task (by simp), ih fun task' hmem => ?_⟩
    exact (h task' (mem_cons_of_mem _ hmem)).mono fun _ => also_left

theorem AllReady.append {rest : List Task} (h : AllReady look V tasks)
    (hrest : AllReady look (also V (tasks.flatMap visits)) rest) :
    AllReady look V (tasks ++ rest) := by
  induction tasks generalizing V with
  | nil =>
    refine hrest.mono fun t ht => ?_
    simpa [also] using ht
  | cons task tasks ih =>
    refine ⟨h.1, ih h.2 (hrest.mono fun t ht => ?_)⟩
    rw [flatMap_cons] at ht
    exact also_append ht

/-! ## Tasks that visit nothing -/

def isQuiet : Task → Bool
  | .visit _ | .visitGlobal .. | .leaveGlobal => false
  | _ => true

def changesNodes : Task → Bool
  | .visit _ | .state .. | .listen .. => true
  | _ => false

/-- Whether a task has nothing to do with visits, and makes no facts flow from node to node. -/
def isSingle : Task → Bool
  | .listen _ (.forward _) => false
  | task => task.isQuiet

/-- Where a node passes its facts on to another one, the other one passes them back. -/
def Both (tasks : List Task) : Prop :=
  ∀ a b, .listen a (.forward b) ∈ tasks → .listen b (.backward a) ∈ tasks

/-- Tasks that have nothing to do with visits, find the nodes that they need, and make facts flow
both ways. -/
structure Good (look : TermId → Option Lambda) (V : Term → Prop) (tasks : List Task) : Prop where
  quiet : ∀ task ∈ tasks, task.isQuiet = true
  ready : ∀ task ∈ tasks, task.Ready look V
  both : Both tasks

theorem both_append (ha : Both a) (hb : Both b) : Both (a ++ b) := by
  intro t u h
  rcases mem_append.mp h with h | h
  · exact mem_append_left _ (ha t u h)
  · exact mem_append_right _ (hb t u h)

theorem both_of_forall (h : ∀ a b, .listen a (.forward b) ∉ tasks) :
    Both tasks :=
  fun a b hab => (h a b hab).elim

theorem both_link (a b : Term) : Both (link a b) := by
  intro t u h
  simp only [link, mem_cons, Task.listen.injEq, Listener.forward.injEq, reduceCtorEq, and_false,
    not_mem_nil, or_false] at h
  obtain ⟨rfl, rfl⟩ := h
  simp [link]

theorem good_nil : Good look V [] := ⟨by simp, by simp, both_of_forall (by simp)⟩

theorem good_append (ha : Good look V a) (hb : Good look V b) :
    Good look V (a ++ b) where
  quiet task h := (mem_append.mp h).elim (ha.quiet task) (hb.quiet task)
  ready task h := (mem_append.mp h).elim (ha.ready task) (hb.ready task)
  both := both_append ha.both hb.both

theorem good_cons (hs : task.isSingle = true)
    (hr : task.Ready look V) (h : Good look V tasks) : Good look V (task :: tasks) := by
  refine good_append (a := [task]) ⟨?_, by simpa using hr, both_of_forall fun a b hab => ?_⟩ h
  · unfold isSingle at hs
    split at hs
    · cases hs
    · simpa using hs
  · rw [← mem_singleton.mp hab] at hs
    cases hs

theorem good_flatMap {g : α → List Task} (h : ∀ x ∈ xs, Good look V (g x)) :
    Good look V (xs.flatMap g) := by
  induction xs with
  | nil => exact good_nil
  | cons x xs ih =>
    rw [flatMap_cons]
    exact good_append (h x (by simp)) (ih fun y hy => h y (mem_cons_of_mem _ hy))

theorem good_map {g : α → Task} (hs : ∀ x, (g x).isSingle = true)
    (hr : ∀ x ∈ xs, (g x).Ready look V) : Good look V (xs.map g) := by
  rw [map_eq_flatMap]
  exact good_flatMap fun x hx => good_cons (hs x) (hr x hx) good_nil

theorem good_link {a b : Term} (ha : V a) (hb : V b) : Good look V (link a b) where
  quiet := by simp [link, isQuiet]
  ready := by
    rintro task (_ | ⟨_, _ | ⟨_, ⟨⟩⟩⟩)
    · exact ⟨ha, hb⟩
    · exact ⟨hb, ha⟩
  both := both_link a b

/-! ## What tasks lead to -/

/-- The tasks that a task leads to, and the state that it leaves. -/
structure Led (look : TermId → Option Lambda) (V : Term → Prop) (f : Flow) (more : List Task)
    (f' : Flow) : Prop where
  good : Good look V more
  same : Same f f'
  flow : FlowReady look V f'

theorem spec_good (hf : FlowReady look V f) (h : Good look V more) :
    Spec (pure more) f s (Led look V f) :=
  spec_pure ⟨h, .refl f, hf⟩

theorem same_of_arguments (f : Flow) (arguments : Array (List Term)) :
    Same f { f with arguments } :=
  ⟨rfl, rfl, rfl, fun _ _ => rfl⟩

theorem same_of_meetings (f : Flow) (meetings : Array Meeting) : Same f { f with meetings } :=
  ⟨rfl, rfl, rfl, fun _ _ => rfl⟩

theorem spec_linkCall {cell : Nat} {entered : Bool} (hf : FlowReady look V f)
    (hlook : ∀ id, s.lambda? id = look id) (hl : ∀ t ∈ site :: operands site, V t)
    (hx : x.Prepared look V) : Spec (linkCall cell site entered x) f s (Led look V f) := by
  have hsite : V site := hl site (by simp)
  have hargs := hf.cell cell
  have hthrow : ∀ x, Spec (do throw (notFunction (← getThe Session) x)) f s (Led look V f) :=
    fun x => spec_getThe (spec_throw (by simp [notFunction, Failure.because]))
  unfold linkCall
  refine spec_flow ?_
  split
  next id =>
    refine spec_getLambda fun fn hfn => spec_good hf (good_append ?_ (good_flatMap ?_))
    all_goals have hnodes := hx fn ((hlook id).symm.trans hfn)
    · split
      · exact good_link (hnodes _ (by simp [functionNodes])) hsite
      · exact good_nil
    · intro ap hap
      have ⟨ha, hp⟩ := of_mem_zip hap
      refine good_link (hargs _ ha) (hnodes _ ?_)
      simpa [functionNodes] using .inl hp
  next i fn captured =>
    have hall : ∀ a ∈ captured ++ (f.arguments[cell]?).getD [], V a := by
      intro a ha
      rcases mem_append.mp ha with ha | ha
      · exact hx a (mem_cons_of_mem _ ha)
      · exact hargs a ha
    refine spec_change (spec_pure ⟨good_cons rfl ?_ good_nil, same_of_arguments _ _,
      hf.same (same_of_arguments _ _) ?_ hf.meetings⟩)
    · intro t ht
      rcases mem_append.mp ht with ht | ht
      · rcases mem_cons.mp ht with rfl | ht
        · exact hx _ (by simp)
        · exact hall t ht
      · exact hl t ht
    · intro args hmem
      rcases Array.mem_or_eq_of_mem_setIfInBounds hmem with hmem | rfl
      · exact hf.arguments hmem
      · exact hall
  · exact spec_good hf (good_cons rfl ⟨hsite, trivial⟩ good_nil)
  · split
    · split
      · refine spec_flow (spec_good hf ?_)
        split
        · refine good_map (fun _ => rfl) fun u _ t ht => ?_
          rcases mem_append.mp ht with ht | ht
          · exact hargs t ht
          · exact hl t ht
        · exact good_nil
      · exact hthrow _
    · exact hthrow _

theorem mem_modify {a : Array α} {i : Nat} {g : α → α} {m : α} (h : m ∈ a.modify i g) :
    m ∈ a ∨ ∃ m0 ∈ a, m = g m0 := by
  obtain ⟨j, hj⟩ := Array.mem_iff_getElem?.mp h
  rw [Array.getElem?_modify] at hj
  split at hj
  · obtain ⟨m0, hm0, rfl⟩ := Option.map_eq_some_iff.mp hj
    exact .inr ⟨m0, Array.mem_of_getElem? hm0, rfl⟩
  · exact .inl (Array.mem_of_getElem? hj)

theorem spec_meet {cell : Nat} {g : Meeting → Meeting} {k : Meeting → List Task}
    (hf : FlowReady look V f) (hg : ∀ m, m.Ready V → (g m).Ready V)
    (hk : ∀ m, m.Ready V → Good look V (k m)) :
    Spec (do changeMeeting cell g; pure (k (← meeting cell))) f s (Led look V f) := by
  have hmet : ∀ m ∈ f.meetings.modify cell g, m.Ready V := by
    intro m hm
    rcases mem_modify hm with hm | ⟨m0, hm0, rfl⟩
    · exact hf.meetings hm
    · exact hg m0 (hf.meetings hm0)
  refine spec_change (spec_flow (spec_pure ⟨hk _ ?_, same_of_meetings _ _,
    hf.same (same_of_meetings _ _) hf.arguments (fun hm => hmet _ hm)⟩))
  cases hcell : (f.meetings.modify cell g)[cell]? with
  | none => exact fun t ht => absurd ht not_mem_nil
  | some m => exact hmet m (Array.mem_of_getElem? hcell)

theorem patternVariables_tuple (i : TermId) (items : List Term) :
    patternVariables (.tuple i items) = items.flatMap patternVariables := by
  rw [patternVariables]
  induction items with
  | nil => rfl
  | cons t ts ih => rw [patternVariables.go, flatMap_cons, ih]

theorem patternVariables_subset {i : TermId} {targets : List Term} (h : t ∈ targets) :
    patternVariables t ⊆ patternVariables (.tuple i targets) := by
  intro v hv
  rw [patternVariables_tuple]
  exact mem_flatMap.mpr ⟨t, h, hv⟩

theorem prepared_needsOf {n : Nat} {ys : List Fact} (h : ys ∈ needsOf op n x) :
    ∀ y ∈ ys, y.Prepared look V := by
  have hrows : ∀ name, ∀ row ∈ (demands.lookup name).getD [], ∀ y ∈ row.2.facts, y.isPlain = true := by
    intro name row hrow y hy
    cases hlookup : demands.lookup name with
    | none =>
      rw [hlookup] at hrow
      exact absurd hrow not_mem_nil
    | some rows =>
      rw [hlookup] at hrow
      obtain ⟨before, after, hmem, -⟩ := lookup_eq_some_iff.mp hlookup
      exact plain_demands (name, rows) (by rw [hmem]; simp) row hrow y hy
  intro y hy
  refine Fact.Prepared.of_isPlain ?_
  unfold needsOf at h
  dsimp only at h
  split at h
  next z needs hfind =>
    have hrow := mem_of_find?_eq_some hfind
    have hy : y ∈ (Demand.each needs).facts := mem_flatten.mpr ⟨ys, h, hy⟩
    split at hrow
    next name _ _ =>
      split at hrow
      · exact hrows name _ hrow y hy
      · exact absurd hrow not_mem_nil
    · exact absurd hrow not_mem_nil
  · exact absurd h not_mem_nil
  · obtain rfl := eq_of_mem_replicate h
    obtain rfl := mem_singleton.mp hy
    rfl

theorem spec_hearing (hf : FlowReady look V f) (hlook : ∀ id, s.lambda? id = look id)
    (hl : l.Ready V) (hx : x.Prepared look V) : Spec (hearing l tr x) f s (Led look V f) := by
  unfold hearing
  cases l with
  | forward target => exact spec_good hf (good_cons rfl ⟨hl, hx⟩ good_nil)
  | backward target =>
    refine spec_good hf ?_
    split
    · exact good_cons rfl ⟨hl, hx⟩ good_nil
    · exact good_nil
  | call cell site entered => exact spec_linkCall hf hlook hl hx
  | bind pattern =>
    dsimp only
    split
    next i items j targets =>
      refine spec_good hf (good_map (fun _ => rfl) fun tv htv => ?_)
      have ⟨ht, hv⟩ := of_mem_zip htv
      intro u hu
      rcases mem_cons.mp hu with rfl | hu
      · exact hx _ hv
      · exact hl u (patternVariables_subset ht hu)
    · exact spec_good hf (good_map (fun _ => rfl) fun t ht => ⟨hl t ht, trivial⟩)
  | choose args site =>
    dsimp only
    unfold choose
    split
    · exact spec_good hf (good_cons rfl hl good_nil)
    · split
      · exact spec_good hf (good_cons rfl hl good_nil)
      · split
        · exact spec_good hf (good_cons rfl hl (good_cons rfl hl good_nil))
        · exact spec_throw (by simp [Failure.because])
  | position cell site =>
    dsimp only
    split
    next v =>
      refine spec_meet hf (fun m hm => ?_) (fun m hm => good_flatMap fun t ht => ?_)
      · split
        · exact hm
        · exact hm
      · refine good_cons rfl ?_ (good_cons rfl trivial good_nil)
        exact forall_mem_cons.mpr ⟨hl, hm t ht⟩
    · exact spec_good hf good_nil
  | contents cell site =>
    dsimp only
    split
    next i items =>
      refine spec_meet hf (fun m hm => ?_) (fun m hm => good_flatMap fun v _ => ?_)
      · split
        · exact hm
        · intro t ht
          rcases mem_append.mp ht with ht | ht
          · exact hm t ht
          · obtain rfl := mem_singleton.mp ht
            exact hx
      · refine good_cons rfl ?_ (good_cons rfl trivial good_nil)
        exact forall_mem_cons.mpr ⟨hl, hx⟩
    · exact spec_good hf good_nil
  | typed op args site =>
    dsimp only
    split
    · exact spec_good hf (good_map (fun _ => rfl) fun _ _ => hl)
    · exact spec_good hf good_nil
  | need op site =>
    dsimp only
    split
    next i fn args =>
      refine spec_good hf (good_flatMap fun an han => good_map (fun _ => rfl) fun y hy => ?_)
      have ⟨ha, hn⟩ := of_mem_zip han
      exact ⟨hl _ ha, prepared_needsOf hn y hy⟩
    · exact spec_good hf good_nil

theorem spec_operating {args : List Term} (hf : FlowReady look V f)
    (hr : ∀ t ∈ args ++ site :: operands site, V t) :
    Spec (operating tr op args site) f s (Led look V f) := by
  have hsite : V site := hr site (by simp)
  have hargs : ∀ a ∈ args, V a := fun a ha => hr a (mem_append_left _ ha)
  have hboth : ∀ t ∈ site :: args, V t := forall_mem_cons.mpr ⟨hsite, hargs⟩
  unfold operating
  split
  · exact spec_good hf (good_cons rfl hboth good_nil)
  · split
    next a rest => exact spec_good hf (good_cons rfl ⟨hargs a (by simp), hboth⟩ good_nil)
    · exact spec_throw (by decide)
  · split
    next dat idx =>
      refine spec_flow (spec_change (spec_pure ⟨good_cons rfl ⟨hargs idx (by simp), hsite⟩
        (good_cons rfl ⟨hargs dat (by simp), hsite⟩ good_nil), same_of_meetings _ _,
        hf.same (same_of_meetings _ _) hf.arguments fun hm => ?_⟩))
      rcases Array.mem_push.mp hm with hm | rfl
      · exact hf.meetings hm
      · exact fun t ht => absurd ht not_mem_nil
    · exact spec_throw (by decide)
  · refine spec_good hf (good_cons rfl ⟨hsite, fun t ht => hr t ?_⟩ good_nil)
    exact mem_append_right _ (mem_cons_of_mem _ ht)
  · split
    · exact spec_good hf (good_map (fun _ => rfl) fun a ha => ⟨hargs a ha, hsite⟩)
    · exact spec_good hf (good_cons rfl ⟨hsite, trivial⟩ good_nil)

theorem place_error {n : Nat} {k : Int} {e : Failure} (h : Value.place n k = .error e) :
    e = .outOfRange := by
  unfold Value.place at h
  split at h
  · split at h
    · cases h
    · cases h; rfl
  · split at h
    · cases h
    · cases h; rfl

theorem itemAt_spec (items : List Term) (v : Value) :
    (∀ t, itemAt items v = .ok t → t ∈ items) ∧
      ∀ e, itemAt items v = .error e → e.kind ≠ .key := by
  unfold itemAt
  split
  · refine ⟨nofun, ?_⟩
    rintro e ⟨⟩
    decide
  next k _ =>
    cases hplace : Value.place items.length k with
    | error e' =>
      refine ⟨nofun, ?_⟩
      rintro e ⟨⟩
      rw [place_error hplace]
      decide
    | ok j =>
      dsimp only [Bind.bind, Except.bind]
      split
      next t ht =>
        refine ⟨?_, nofun⟩
        rintro t' ⟨⟩
        exact mem_of_getElem? ht
      · refine ⟨nofun, ?_⟩
        rintro e ⟨⟩
        decide

theorem spec_perform (hf : FlowReady look V f) (hlook : ∀ id, s.lambda? id = look id)
    (hq : task.isQuiet = true) (hc : task.changesNodes = false) (hr : task.Ready look V) :
    Spec task.perform f s (Led look V f) := by
  have hmeanwhile : changedMeanwhile.kind ≠ .key := by decide
  cases task with
  | visit | visitGlobal | leaveGlobal => cases hq
  | state | listen => cases hc
  | demand t xs =>
    refine spec_flow (spec_good hf ?_)
    split
    · exact good_map (fun _ => rfl) fun x hx => ⟨hr.1, hr.2 x hx⟩
    · exact good_nil
  | tell t i tr x =>
    refine spec_flow ?_
    split
    · exact spec_good hf good_nil
    next l hl =>
      exact spec_good hf (good_cons rfl ⟨hf.listeners (mem_of_getElem? hl), hr⟩
        (good_cons rfl hr good_nil))
  | hear l tr x =>
    rw [perform]
    split
    · exact spec_hearing hf hlook hr.1 hr.2
    · exact spec_good hf good_nil
  | catchUp t l tr =>
    have hft := hf.touch tr t
    refine spec_change (spec_flow (spec_pure ⟨good_flatMap fun x hx => ?_, .touch f tr t, hft⟩))
    exact good_cons rfl ⟨hr, hft.facts hx⟩ (good_cons rfl trivial good_nil)
  | unchanged | sameTuples | samePositions =>
    refine spec_flow ?_
    split
    · exact spec_good hf good_nil
    · exact spec_throw hmeanwhile
  | linkItem items v site =>
    obtain ⟨hok, herror⟩ := itemAt_spec items v
    refine spec_ofFallible (fun t ht => spec_good hf (good_link ?_ (hr site (by simp)))) herror
    exact hr t (mem_cons_of_mem _ (hok t ht))
  | linkArgument args i site =>
    rw [perform]
    split
    next a ha =>
      refine spec_good hf (good_link (hr a ?_) (hr site (by simp)))
      exact mem_cons_of_mem _ (mem_of_getElem? ha)
    · exact spec_throw (by decide)
  | watchCall fn args site entered =>
    refine spec_flow (spec_change (spec_pure ⟨good_cons rfl ⟨hr fn (by simp), fun t ht =>
      hr t (mem_append_right _ ht)⟩ good_nil, same_of_arguments _ _,
      hf.same (same_of_arguments _ _) ?_ hf.meetings⟩))
    intro args' hmem
    rcases Array.mem_push.mp hmem with hmem | rfl
    · exact hf.arguments hmem
    · exact fun a ha => hr a (mem_append_left _ (mem_cons_of_mem _ ha))
  | bindTo target value =>
    unfold perform
    dsimp only
    split
    · exact spec_good hf (good_cons rfl ⟨hr value (by simp), fun t ht =>
        hr t (mem_cons_of_mem _ ht)⟩ good_nil)
    next hne =>
      refine spec_good hf (good_link (hr value (by simp)) (hr target (mem_cons_of_mem _ ?_)))
      unfold patternVariables
      split
      next i items => exact (hne i items rfl).elim
      · simp
  | operate tr op args site => exact spec_operating hf hr
  | typeRule ins out args site =>
    refine spec_change (spec_flow (spec_pure ⟨?_, .touchAll _ _ f, hf.touchAll _ _⟩))
    split
    · exact good_cons rfl ⟨hr, trivial⟩ good_nil
    · exact good_nil

/-- A task that visits nothing leads to tasks that visit nothing and find the nodes that they
need. -/
theorem good_perform (hf : FlowReady look V f) (hlook : ∀ id, s.lambda? id = look id)
    (hq : task.isQuiet = true) (hr : task.Ready look V) (h : Gives task.perform f s more f' s') :
    Good look V more ∧ FlowReady look V f' ∧ f'.isVisited = f.isVisited := by
  cases hc : task.changesNodes with
  | false =>
    obtain ⟨hgood, hsame, hf'⟩ := ((spec_perform hf hlook hq hc hr).1 _ _ _ h).2
    exact ⟨hgood, hf', funext hsame.isVisited⟩
  | true =>
    cases task with
    | state t tr x =>
      have htouch := funext (Same.touch f tr t).isVisited
      obtain ⟨-, ⟨rfl, rfl, -⟩ | ⟨-, rfl, rfl⟩⟩ := gives_state h
      · exact ⟨good_nil, hf.touch tr t, htouch⟩
      · exact ⟨good_cons rfl hr.2 good_nil, (hf.touch tr t).addFact hr.2 tr, htouch⟩
    | listen t l =>
      obtain ⟨hv, rfl, -, rfl⟩ := gives_listen h
      exact ⟨good_map (fun _ => rfl) fun _ _ => hr.2, hf.listen hv hr.2,
        funext fun _ => Flow.isVisited_listen⟩
    | visit t => cases hq
    | _ => cases hc

/-! ## Without a look at nodes -/

theorem Fact.prepared_all (x : Fact) : x.Prepared look fun _ => True := by
  cases x with
  | value v => cases v <;> simp [Fact.Prepared]
  | term t => cases t <;> simp [Fact.Prepared]

theorem Listener.ready_all (l : Listener) : l.Ready fun _ => True := by
  cases l <;> simp [Listener.Ready]

theorem ready_all (hq : task.isQuiet = true) : task.Ready look fun _ => True := by
  cases task with
  | visit t => cases hq
  | _ => simp [Ready, Fact.prepared_all, Listener.ready_all]

theorem flowReady_all (f : Flow) : FlowReady look (fun _ => True) f :=
  ⟨fun _ => Fact.prepared_all _, fun _ => Listener.ready_all _, by simp, by simp [Meeting.Ready]⟩

theorem same_perform (hc : task.changesNodes = false)
    (h : Gives task.perform f s more f' s') : Same f f' ∧ s'.lambdas = s.lambdas := by
  cases hq : task.isQuiet with
  | true =>
    obtain ⟨rfl, hled⟩ :=
      (spec_perform (flowReady_all f) (fun _ => rfl) hq hc (ready_all hq)).1 _ _ _ h
    exact ⟨hled.same, rfl⟩
  | false =>
    cases task with
    | visitGlobal t y =>
      simp only [perform, gives_bind, gives_lift, gives_getThe, gives_ofFallible, gives_pure] at h
      obtain ⟨v, _, s1, ⟨hv, rfl⟩, _, _, _, ⟨rfl, rfl, rfl⟩, target, _, _, ⟨_, rfl, rfl⟩, _, rfl, rfl⟩ := h
      refine ⟨.refl _, ?_⟩
      rcases Program.returns_resolve hv with ⟨_, rfl⟩ | ⟨_, rfl⟩ <;> rfl
    | leaveGlobal =>
      obtain ⟨_, rfl, rfl⟩ := gives_pure.mp h
      exact ⟨.refl _, rfl⟩
    | visit t => cases hc
    | _ => cases hq

theorem frame_perform (h : Gives task.perform f s more f' s') :
    f'.tracks = f.tracks ∧ f'.always = f.always ∧ s'.lambdas = s.lambdas := by
  cases hc : task.changesNodes with
  | false =>
    obtain ⟨hsame, hlambdas⟩ := same_perform hc h
    exact ⟨hsame.tracks, hsame.always, hlambdas⟩
  | true =>
    cases task with
    | visit t => rcases gives_visit h with ⟨-, -, rfl, rfl⟩ | ⟨-, -, rfl, rfl⟩ <;> exact ⟨rfl, rfl, rfl⟩
    | state t tr x =>
      obtain ⟨rfl, ⟨rfl, -⟩ | ⟨-, -, rfl⟩⟩ := gives_state h
      all_goals exact ⟨Flow.touch_tracks, Flow.touch_always, rfl⟩
    | listen t l =>
      obtain ⟨-, rfl, rfl, -⟩ := gives_listen h
      exact ⟨rfl, rfl, rfl⟩
    | _ => cases hc

end Task

end DiffLang.Dataflow
