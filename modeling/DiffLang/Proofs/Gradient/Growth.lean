import DiffLang.Gradient
import DiffLang.Proofs.Reading.Texts
import DiffLang.Proofs.Term.NormalForm

/-!
# Sessions while gradients are found

Finding the gradient of a function may take reading it, converting it, and finding the gradients of
the functions inside it. All of this only adds to a session (`keeps_find`), and what is found is known
by a global name (`find_global`).
-/

namespace DiffLang.Gradient

open Run Session

/-! ## Making variables and code -/

section Making

variable {R : Session → Session → Prop}

theorem keepsIn_about {α : Type} {t : Term} {transform : String} {act : Grad α}
    (h : KeepsIn R act) : KeepsIn R (about t transform act) :=
  fun _ _ _ _ _ _ hs => h hs

variable [Deriving R]

theorem keepsIn_derive (base : Symbol) (relation : String) : KeepsIn R (derive base relation) := by
  unfold derive
  refine keepsIn_get.bind fun st => ?_
  split
  · exact (keepsIn_lift keeps_freshDerived).bind fun x =>
      keepsIn_lift (keeps_numbered fun i => (⟨i, x⟩ : Ident))
  · exact keepsIn_throw _

theorem keepsIn_plain (label : String) : KeepsIn R (plain label) := by
  unfold plain
  refine keepsIn_get.bind fun st => ?_
  split
  · exact (keepsIn_lift keeps_freshPlain).bind fun x =>
      keepsIn_lift (keeps_numbered fun i => (⟨i, x⟩ : Ident))
  · exact keepsIn_throw _

theorem keepsIn_tuple (ts : List Term) : KeepsIn R (liftM (tuple ts) : Grad Term) :=
  keepsIn_lift (keeps_numbered fun i => Term.tuple i ts)

theorem keepsIn_apply (f : Term) (ts : List Term) : KeepsIn R (liftM (apply f ts) : Grad Term) :=
  keepsIn_lift (keeps_numbered fun i => Term.apply i f ts)

theorem keepsIn_closure (f : Term) (ts : List Term) :
    KeepsIn R (liftM (closure f ts) : Grad Term) :=
  keepsIn_lift (keeps_numbered fun i => Term.closure i f ts)

theorem keepsIn_binding (bs : List (Term × Term)) (t : Term) :
    KeepsIn R (liftM (Session.bind bs t) : Grad Term) :=
  keepsIn_lift (keeps_numbered fun i => Term.bind i bs t)

theorem keepsIn_builtin (name : String) : KeepsIn R (liftM (builtin name) : Grad Term) :=
  keepsIn_lift (keeps_numbered fun i => Term.ident ⟨i, .builtin name⟩)

theorem keepsIn_zero : KeepsIn R (liftM zero : Grad Term) :=
  keepsIn_lift (keeps_numbered fun i => Term.literal i .zero)

mutual

theorem keepsIn_mapPattern {f : Term → Grad Term} (hf : ∀ t, KeepsIn R (f t)) (t : Term) :
    KeepsIn R (mapPattern f t) := by
  cases t with
  | tuple id items =>
    rw [mapPattern]
    exact (keepsIn_mapPatterns hf items).bind fun ts => keepsIn_tuple ts
  | _ => exact hf _

theorem keepsIn_mapPatterns {f : Term → Grad Term} (hf : ∀ t, KeepsIn R (f t)) :
    ∀ ts : List Term, KeepsIn R (mapPattern.go f ts)
  | [] => by
    rw [mapPattern.go]
    exact keepsIn_pure _
  | t :: ts => by
    rw [mapPattern.go]
    exact (keepsIn_mapPattern hf t).bind fun _ =>
      (keepsIn_mapPatterns hf ts).bind fun _ => keepsIn_pure _

end

theorem keepsIn_taggedSymbol (x : Ident) : KeepsIn R (taggedSymbol x) := by
  unfold taggedSymbol
  refine keepsIn_about ?_
  split
  on_goal 1 => refine (keepsIn_throw _).bind fun _ => ?_
  all_goals
    refine (keepsIn_derive _ _).bind fun new => keepsIn_get.bind fun st => ?_
    split
    · exact keepsIn_pure _
    · exact (keepsIn_set _).bind fun _ => keepsIn_pure _

theorem keepsIn_taggedLeaf (t : Term) : KeepsIn R (taggedLeaf t) := by
  unfold taggedLeaf
  split
  next x => exact (keepsIn_taggedSymbol x).bind fun _ => keepsIn_pure _
  · exact keepsIn_about (keepsIn_throw _)

theorem keepsIn_taggedVariable (t : Term) : KeepsIn R (taggedVariable t) := by
  unfold taggedVariable
  split
  · exact keepsIn_about (keepsIn_mapPattern keepsIn_taggedLeaf _)
  · exact keepsIn_taggedLeaf _

theorem keepsIn_taggedExpr (t : Term) : KeepsIn R (taggedExpr t) := by
  unfold taggedExpr
  refine keepsIn_about ?_
  split
  · exact keepsIn_pure _
  next x =>
    split
    · exact (keepsIn_builtin _).bind fun _ => keepsIn_apply _ _
    · exact (keepsIn_taggedSymbol x).bind fun _ => keepsIn_pure _
  · exact keepsIn_throw _

theorem keepsIn_newSensitivity (t : Term) : KeepsIn R (newSensitivity t) := by
  unfold newSensitivity
  refine keepsIn_about ?_
  split
  · exact (keepsIn_derive _ _).bind fun _ => (keepsIn_modify _).bind fun _ =>
      keepsIn_pure _
  · exact keepsIn_throw _

theorem keepsIn_sensitivityLeaf (t : Term) : KeepsIn R (sensitivityLeaf t) := by
  unfold sensitivityLeaf
  refine keepsIn_about ?_
  split
  · refine keepsIn_get.bind fun st => ?_
    split
    · exact keepsIn_pure _
    · exact keepsIn_zero
  · exact keepsIn_throw _

theorem keepsIn_sensitivity (t : Term) : KeepsIn R (sensitivity t) := by
  unfold sensitivity
  split
  · refine keepsIn_about ((keepsIn_mapPattern keepsIn_sensitivityLeaf _).bind fun r => ?_)
    split
    · split
      · exact keepsIn_zero
      · exact keepsIn_pure _
    · exact keepsIn_pure _
  · exact keepsIn_sensitivityLeaf _

theorem keepsIn_startAtZero (t : Term) : KeepsIn R (startAtZero t) := by
  unfold startAtZero
  refine keepsIn_about ((keepsIn_newSensitivity t).bind fun new =>
    (keepsIn_taggedVariable t).bind fun r => ?_)
  split
  · exact (keepsIn_builtin _).bind fun _ => (keepsIn_builtin _).bind fun _ =>
      (keepsIn_apply _ _).bind fun _ => (keepsIn_apply _ _).bind fun _ =>
        (keepsIn_modify _).bind fun _ => keepsIn_pure _
  · exact keepsIn_throw _

theorem keepsIn_shapedLeaf (t : Term) : KeepsIn R (shapedLeaf t) := by
  unfold shapedLeaf
  refine keepsIn_about ?_
  split
  · refine keepsIn_get.bind fun st => ?_
    split
    · exact keepsIn_pure _
    · exact (keepsIn_startAtZero _).bind fun _ => keepsIn_pure _
  · exact keepsIn_throw _

theorem keepsIn_shapedSensitivity (t : Term) : KeepsIn R (shapedSensitivity t) := by
  unfold shapedSensitivity
  split
  · exact keepsIn_about (keepsIn_mapPattern keepsIn_shapedLeaf _)
  · exact keepsIn_shapedLeaf _

theorem keepsIn_backpropagator (t : Term) : KeepsIn R (backpropagator t) := by
  unfold backpropagator
  refine keepsIn_about ?_
  split
  · refine (keepsIn_derive _ _).bind fun new => keepsIn_get.bind fun st => ?_
    split
    · exact keepsIn_pure _
    · exact (keepsIn_set _).bind fun _ => keepsIn_pure _
  · refine (keepsIn_plain _).bind fun base => (keepsIn_derive _ _).bind fun new =>
      keepsIn_get.bind fun st => ?_
    split
    · exact keepsIn_pure _
    · exact (keepsIn_set _).bind fun _ => keepsIn_pure _
  · exact keepsIn_throw _

theorem keepsIn_accumulate (leaf value : Term) : KeepsIn R (accumulate leaf value) := by
  unfold accumulate
  refine keepsIn_about ?_
  split
  · exact keepsIn_pure _
  · refine (keepsIn_sensitivity _).bind fun old =>
      (keepsIn_newSensitivity _).bind fun new => ?_
    split
    · exact keepsIn_pure _
    · exact (keepsIn_builtin _).bind fun _ => (keepsIn_apply _ _).bind fun _ =>
        keepsIn_pure _

theorem keepsIn_addLeaf (sum : Sum) (leaf : Term) : KeepsIn R (addLeaf sum leaf) := by
  have hdummy : KeepsIn R (do
      let x : Ident ← freshNothing
      let z ← zero
      pure { sum with left := sum.left ++ [.ident x], right := sum.right ++ [z] } : Grad Sum) :=
    (keepsIn_lift keeps_freshNothing).bind fun _ => keepsIn_zero.bind fun _ =>
      keepsIn_pure _
  unfold addLeaf
  refine keepsIn_about ?_
  split
  · refine keepsIn_get.bind fun st => ?_
    split
    · exact hdummy
    · split
      · exact (keepsIn_derive _ _).bind fun _ => (keepsIn_builtin _).bind fun _ =>
          (keepsIn_shapedSensitivity _).bind fun _ =>
            (keepsIn_apply _ _).bind fun _ =>
              (keepsIn_newSensitivity _).bind fun _ => keepsIn_zero.bind fun _ =>
                keepsIn_pure _
      · exact (keepsIn_sensitivity _).bind fun _ =>
          (keepsIn_newSensitivity _).bind fun _ => keepsIn_pure _
  · exact hdummy

theorem keepsIn_accumulateAll (leaves : List Term) (value : Term) :
    KeepsIn R (accumulateAll leaves value) := by
  unfold accumulateAll
  refine (keepsIn_foldlM keepsIn_addLeaf _ _).bind fun sum => ?_
  refine (keepsIn_about ?_).bind fun total =>
    (keepsIn_tuple _).bind fun _ => keepsIn_pure _
  split
  · exact keepsIn_pure _
  · exact (keepsIn_builtin _).bind fun _ => (keepsIn_tuple _).bind fun _ =>
      keepsIn_apply _ _

theorem keepsIn_leaves (ts : List Term) : KeepsIn R (leaves ts) := by
  unfold leaves
  split
  · exact keepsIn_pure _
  · exact keepsIn_throw _

theorem keepsIn_forward {find : Symbol → Nat → Run Ident} (hfind : ∀ x n, Keeps R (find x n))
    (k v : Term) : KeepsIn R (forward find k v) := by
  unfold forward
  refine keepsIn_about ?_
  split
  · exact (keepsIn_taggedVariable _).bind fun _ =>
      (keepsIn_taggedExpr _).bind fun _ => keepsIn_pure _
  · exact (keepsIn_taggedVariable _).bind fun _ => keepsIn_pure _
  · exact (keepsIn_taggedVariable _).bind fun _ =>
      (keepsIn_mapM keepsIn_taggedExpr _).bind fun _ =>
        (keepsIn_tuple _).bind fun _ => keepsIn_pure _
  · exact (keepsIn_taggedVariable _).bind fun _ =>
      (keepsIn_backpropagator _).bind fun _ => (keepsIn_tuple _).bind fun _ =>
        (keepsIn_taggedExpr _).bind fun _ =>
          (keepsIn_mapM keepsIn_taggedExpr _).bind fun _ =>
            (keepsIn_apply _ _).bind fun _ => keepsIn_pure _
  · split
    next f =>
      have hrest : ∀ args : List Term, KeepsIn R (do
          let ts ← args.mapM taggedExpr
          let augmented : Ident ← find f.sym args.length
          let c ← closure (.ident augmented) ts
          pure [(← taggedVariable k, c)] : Grad (List (Term × Term))) := fun args =>
        (keepsIn_mapM keepsIn_taggedExpr _).bind fun _ =>
          (keepsIn_lift (hfind _ _)).bind fun _ =>
            (keepsIn_closure _ _).bind fun _ =>
              (keepsIn_taggedVariable _).bind fun _ => keepsIn_pure _
      split
      · exact (keepsIn_throw _).bind fun _ => hrest _
      · exact hrest _
    · exact keepsIn_throw _
  · exact keepsIn_throw _

theorem keepsIn_backward (k v : Term) : KeepsIn R (backward k v) := by
  unfold backward
  refine keepsIn_about ((keepsIn_sensitivity _).bind fun old => ?_)
  split
  · exact keepsIn_pure _
  · refine (keepsIn_shapedSensitivity _).bind fun t => ?_
    split
    · exact keepsIn_accumulate _ _
    · exact keepsIn_pure _
    · exact (keepsIn_leaves _).bind fun _ => keepsIn_accumulateAll _ _
    · exact (keepsIn_leaves _).bind fun _ =>
        (keepsIn_backpropagator _).bind fun _ => (keepsIn_apply _ _).bind fun _ =>
          (keepsIn_modify _).bind fun _ => keepsIn_accumulateAll _ _
    · exact (keepsIn_leaves _).bind fun _ => keepsIn_accumulateAll _ _
    · exact keepsIn_throw _

theorem keepsIn_gather {step : Term → Term → Grad (List (Term × Term))}
    (hstep : ∀ k v, KeepsIn R (step k v)) (bs : List (Term × Term)) :
    KeepsIn R (gather step bs) := by
  induction bs with
  | nil =>
    rw [gather]
    exact keepsIn_pure _
  | cons b bs ih =>
    rw [gather]
    exact (hstep b.1 b.2).bind fun _ => ih.bind fun _ => keepsIn_pure _

theorem keepsIn_bodyParts (t : Term) : KeepsIn R (bodyParts t) := by
  unfold bodyParts
  split
  · exact (keepsIn_plain _).bind fun _ => keepsIn_pure _
  · exact keepsIn_pure _
  · exact keepsIn_throw _

end Making

/-! ## Functions -/

open Growth

theorem global_gradient : (Namespace.named "global::grad").isGlobal = true := by decide +kernel

theorem keepsIn_named {α : Type} {base : Symbol} {relation : String} {f : Ident → Grad α}
    (h : ∀ ref : Ident, ref.sym.isGlobal = true → KeepsIn Sure (f ref)) :
    KeepsIn Sure (liftM (freshDerived Fixed.gradient.id base relation) >>= fun x =>
      liftM (ident x) >>= f : Grad α) := by
  intro o st s a st' s' hr hs
  simp only [steps_bind] at hr
  obtain ⟨x, st1, s1, hx, ref, st2, s2, href, hr⟩ := hr
  obtain ⟨hx', rfl⟩ := steps_lift.mp hx
  rw [steps_lift, returns_ident] at href
  obtain ⟨⟨rfl, rfl⟩, rfl⟩ := href
  have hglobal := returns_fixed (f := .gradient) rfl global_gradient hs hx'
  have h1 := (keeps_freshDerived (R := Sure) _ _ _ _ hx' hs).trans (grows_noted _ o)
  exact h1.trans (h _ hglobal hr (h1.sound hs))

theorem keeps_primal (id : TermId) (name : Symbol) :
    Keeps Sure (modifyLambda id fun l => { l with primal := some name }) := by
  intro o s a s' h _
  unfold modifyLambda at h
  rw [returns_modify] at h
  rw [← h]
  exact grows_changed s id (fun l => { l with primal := some name }) (fun _ => rfl)
    fun l r hr => .inl hr

theorem keeps_transform {find : Symbol → Nat → Run Ident} (hfind : ∀ x n, Keeps Sure (find x n))
    (name : Symbol) (l : Lambda) (grouped : Nat) : Keeps Sure (transform find name l grouped) := by
  unfold transform
  refine keeps_named .gradient rfl global_gradient fun augmentedRef haug => ?_
  refine keeps_run' <| (keepsIn_bodyParts _).bind fun parts =>
    (keepsIn_modify _).bind fun _ =>
    (keepsIn_newSensitivity _).bind fun out =>
    (keepsIn_gather (keepsIn_forward hfind) _).bind fun ahead =>
    (keepsIn_gather keepsIn_backward _).bind fun back =>
    (keepsIn_mapM (fun _ => keepsIn_shapedSensitivity _) _).bind fun ends =>
    (keepsIn_tuple _).bind fun first => (keepsIn_tuple _).bind fun ret =>
    keepsIn_get.bind fun st => keepsIn_named fun backRef hback => ?_
  exact (keepsIn_binding _ _).bind fun _ =>
    (keepsIn_lift (keeps_createLambda hback _ _ _)).bind fun _ =>
    (keepsIn_closure _ _).bind fun _ => (keepsIn_derive _ _).bind fun _ =>
    (keepsIn_taggedExpr _).bind fun _ => (keepsIn_tuple _).bind fun _ =>
    (keepsIn_binding _ _).bind fun _ =>
    (keepsIn_mapM keepsIn_taggedSymbol _).bind fun _ =>
    (keepsIn_lift (keeps_createLambda haug _ _ _)).bind fun _ =>
    (keepsIn_lift (keeps_primal _ _)).bind fun _ => keepsIn_pure _

/-! ## Finding gradients -/

theorem keeps_ident {R : Session → Session → Prop} [Making R] {α : Type} {x : Symbol}
    {f : Ident → Run α} (h : ∀ i, Keeps R (f ⟨i, x⟩)) : Keeps R (ident x >>= f) := by
  intro o s a s' hr
  simp only [returns_bind, returns_ident] at hr
  obtain ⟨y, s1, ⟨rfl, rfl⟩, hr⟩ := hr
  exact IsTrans.trans _ _ _ (Making.noted s o) (h _ o _ _ _ hr)

theorem keeps_bareId : Keeps Sure bareId := by
  intro o s i s' h _
  unfold bareId at h
  rw [returns_modifyGet] at h
  injection h with _ h
  rw [← h]
  exact grows_noted s none

theorem keeps_privateGenerator : Keeps Sure privateGenerator :=
  fun _ _ _ _ h _ => (returns_privateGenerator h).2.2.2

theorem grows_registry (s : Session) (registry : List (Value × Value)) :
    Grows s { s with registry } :=
  Grows.of_still le_rfl (Further.of_generators rfl) rfl rfl

theorem keeps_associate {ref : Ident} (href : ref.sym.isGlobal = true) (v : Value) :
    Keeps Sure (associate ref v) := by
  intro o s a s' h _
  cases v with
  | lambda id =>
    rw [returns_associate] at h
    rw [← h]
    exact grows_registered href s id
  | _ =>
    replace h := returns_modify.mp h
    rw [← h]
    exact grows_registry s _

theorem keeps_resolve (x : Symbol) : Keeps Sure (Program.resolve (.symbol x)) := by
  intro o s v s' h _
  rcases Program.returns_resolve h with ⟨-, rfl⟩ | ⟨-, rfl⟩
  · exact Grows.refl s
  · exact grows_registry s _

theorem keeps_readText (url : String) (firstLine : Nat) (stmts : List Source.Stmt)
    (grouping : Option Nat) : Keeps Sure (Program.readText url firstLine stmts grouping) := by
  intro o s v s' h hs
  obtain ⟨-, x, s1, hreg, -, -, hresolve⟩ := Reading.registers_readText hs h
  exact hreg.grows.trans (keeps_resolve x o s1 v s' hresolve (hreg.grows.sound hs))

theorem keeps_ofOperation (op : Symbol) (name : String) (statement : Source.Stmt) (grouped : Nat) :
    Keeps Sure (ofOperation op name statement grouped) := by
  have hglobal : (Symbol.derived Relation.backprop op .builtinBackprop (grouped + 1)).isGlobal =
      true := by
    show Namespace.isGlobal (.named "global::builtin_bprop") = true
    decide +kernel
  unfold ofOperation
  refine keeps_ident fun i => (keeps_readText _ _ _ _).bind fun back =>
    keeps_privateGenerator.bind fun g =>
    (keeps_mapM (fun n => keeps_freshPlain.bind fun x =>
      keeps_numbered fun i => (⟨i, x⟩ : Ident)) _).bind fun params =>
    (keeps_numbered fun i => Term.ident ⟨i, .builtin "J"⟩).bind fun j =>
    (keeps_mapM (fun p =>
      (keeps_numbered fun i => Term.ident ⟨i, .builtin "Jinv"⟩).bind fun jinv =>
        keeps_numbered fun i => Term.apply i jinv [.ident p]) _).bind fun inverses =>
    keeps_bareId.bind fun k =>
    (keeps_numbered fun i => Term.apply i (.ident ⟨k, op⟩) inverses).bind fun call =>
    (keeps_numbered fun i => Term.apply i j [call]).bind fun ahead =>
    (keeps_numbered fun i => Term.closure i _ _).bind fun made =>
    keeps_named .gradient rfl global_gradient fun ref href => ?_
  exact (keeps_numbered fun i => Term.tuple i [ahead, made]).bind fun _ =>
    (keeps_createLambda href _ _ _).bind fun _ =>
    (keeps_primal _ _).bind fun _ => (keeps_associate hglobal _).bind fun _ =>
    keeps_pure _

theorem keeps_ofLambda (id : TermId) : Keeps Sure (Normal.ofLambda id) := by
  unfold Normal.ofLambda
  refine (keeps_getLambda id).bind fun l =>
    (Normal.keeps_nameAll _ _ _).bind fun named =>
    (Normal.keeps_flatten _).bind fun t => ?_
  split
  · split
    · exact keeps_throw _
    next ref =>
      refine keeps_named .normal rfl (by decide +kernel) fun x hx => ?_
      exact (keeps_associate hx _).bind fun _ => keeps_pure _
  · exact keeps_throw _

theorem keeps_ofValue (v : Value) : Keeps Sure (Normal.ofValue v) := by
  unfold Normal.ofValue
  split
  · exact keeps_ofLambda _
  · exact keeps_throw _

theorem keeps_attempt {R : Session → Session → Prop} [IsPreorder Session R] {α β : Type}
    {act : Run α} {f : Except Failure α → Run β} (hact : Keeps R act)
    (hok : ∀ a, Keeps R (f (.ok a))) (herror : ∀ e o s b s', ¬ Returns (f (.error e)) o s b s') :
    Keeps R (Run.attempt act >>= f) := by
  intro o s b s' h
  obtain ⟨r, s1, hr, h⟩ := returns_bind.mp h
  rw [returns_attempt] at hr
  cases r with
  | ok a => exact IsTrans.trans _ _ _ (hact o s a s1 hr) (hok a o s1 b s' h)
  | error e => exact (herror e o s1 b s' h).elim

theorem keeps_noteGradient (entry : (Symbol × Nat) × TermId) :
    Keeps Sure (modify fun s => { s with gradients := s.gradients ++ [entry] }) := by
  intro o s a s' h _
  rw [returns_modify] at h
  rw [← h]
  exact Grows.of_still le_rfl (Further.of_generators rfl) rfl rfl

/-- Finding the gradient of a function only adds to the session. -/
theorem keeps_find : ∀ (fuel : Nat) (ref : Symbol) (grouped : Nat),
    Keeps Sure (find fuel ref grouped)
  | 0, _, _ => by
    rw [find]
    exact keeps_throw _
  | fuel + 1, ref, grouped => by
    have hfind : ∀ x n, Keeps Sure (find.findRef fuel x n) := by
      intro x n
      unfold find.findRef
      refine (keeps_find fuel x n).bind fun id => ?_
      unfold Program.refOf
      refine (keeps_getLambda id).bind fun l => ?_
      split
      · exact keeps_pure _
      · exact keeps_throw _
    rw [find]
    refine Program.keeps_get.bind fun st => ?_
    split
    · exact keeps_pure _
    · have hnote : ∀ id, Keeps Sure (do
          modify fun s => { s with gradients := s.gradients ++ [((ref, grouped), id)] }
          pure id : Run TermId) :=
        fun id => (keeps_noteGradient _).bind fun _ => keeps_pure _
      dsimp only
      split
      · exact (keeps_ofOperation _ _ _ _).bind hnote
      · refine keeps_attempt (keeps_resolve _) (fun v => ?_) fun e o s b s' h => ?_
        · exact (keeps_pure v).bind fun v => (keeps_ofValue v).bind fun n =>
            (keeps_getLambda n).bind fun l =>
              (keeps_transform hfind _ _ _).bind hnote
        · dsimp only at h
          split at h
          · obtain ⟨_, _, hthrow, -⟩ := returns_bind.mp h
            exact returns_throw.mp hthrow
          · obtain ⟨_, _, hthrow, -⟩ := returns_bind.mp h
            exact returns_throw.mp hthrow

theorem find_global {x : Symbol} {n fuel : Nat} {o : Option Origin} {s s' : Session} {y : Ident}
    (hs : Sound s) (h : Returns (do Program.refOf (← find fuel x n)) o s y s') :
    y.sym.isGlobal = true ∧ Grows s s' := by
  obtain ⟨id, s1, hid, h⟩ := returns_bind.mp h
  have hgrows := keeps_find fuel x n o s id s1 hid hs
  unfold Program.refOf at h
  obtain ⟨l, s2, hl, h⟩ := returns_bind.mp h
  rw [returns_getLambda] at hl
  obtain ⟨hl, rfl⟩ := hl
  split at h
  next r hr =>
    rw [returns_pure] at h
    obtain ⟨rfl, rfl⟩ := h
    exact ⟨(hgrows.sound hs).refs id l r hl hr, hgrows⟩
  · exact (returns_throw.mp h).elim

end DiffLang.Gradient
