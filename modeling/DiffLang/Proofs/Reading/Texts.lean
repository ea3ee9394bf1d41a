import DiffLang.Proofs.Reading.Loops

/-!
# Reading whole texts

Every function that is registered while a text is read is closed: it has no unbound variable, and
binds no variable twice.

At the end the function that the text defines is looked up, which registers it unless it is known.
It is known if the text makes any function at all (`read_topStatement`), so this registers no
function of the text.
-/

namespace DiffLang.Reading

open Run Session Growth Freshness Scoping Meaning Source Program

variable {sc sc1 sc2 sc' : Scope} {s s₁ s2 s' : Session} {o : Option Origin} {name : String}
  {g : Bool}

/-! ## Names of functions -/

theorem apply_ident {f : Term} {args : List Term} {x : Ident} :
    ¬ Steps (liftM (apply f args) : Reader Term) o sc s (.ident x) sc' s' := by
  rw [steps_lift, returns_apply]
  rintro ⟨⟨h, -⟩, -⟩
  cases h

theorem expr_ident {e : Expr} {x : Ident} (h : Steps (expr e) o sc s (.ident x) sc' s')
    (hr : Ready sc s) (ht : sc.trial = false) : s'.lambdas = s.lambdas ∨ Program.Known s' x.sym := by
  match e with
  | .name pos id =>
    rw [expr, steps_located] at h
    obtain ⟨y, sc1, s₁, hy, h⟩ := steps_bind.mp h
    obtain ⟨-, hy⟩ := read_occurrence hy hr
    obtain ⟨l, sc2, s2, hl, h⟩ := steps_bind.mp h
    rw [steps_lift] at hl
    have hl : s2.lambdas = s₁.lambdas := by rw [(Quiet.currentLocation hl.1).rest]
    obtain ⟨_, sc3, s3, hset, h⟩ := steps_bind.mp h
    rw [steps_lift] at hset
    have hset : s3.lambdas = s2.lambdas := by rw [(Quiet.setOrigin hset.1).rest]
    rw [steps_pure] at h
    exact .inl (by rw [← h.2.2, hset, hl, hy])
  | .constant pos v =>
    rw [expr, steps_located, steps_lift, returns_literal] at h
    cases h.1.1
  | .binary .. | .attribute .. | .subscript .. =>
    rw [expr, steps_located] at h
    simp only [steps_bind] at h
    obtain ⟨_, _, _, -, _, _, _, -, _, _, _, -, h⟩ := h
    exact absurd h apply_ident
  | .unary pos op operand =>
    rw [expr, steps_located] at h
    simp only [steps_bind] at h
    obtain ⟨_, _, _, -, _, _, _, -, h⟩ := h
    exact absurd h apply_ident
  | .compare pos left ops rights =>
    rw [expr, steps_located] at h
    obtain ⟨_, _, _, -, h⟩ := steps_bind.mp h
    split at h
    · simp only [steps_bind] at h
      obtain ⟨_, _, _, -, _, _, _, -, h⟩ := h
      exact absurd h apply_ident
    · simp at h
  | .call pos fn args keywords =>
    rw [expr, steps_located] at h
    simp only [steps_guard] at h
    obtain ⟨-, h⟩ := h
    simp only [steps_bind] at h
    obtain ⟨_, _, _, -, _, _, _, -, _, _, _, -, h⟩ := h
    split at h
    · obtain ⟨_, _, _, -, h⟩ := steps_bind.mp h
      rw [steps_lift, returns_tuple] at h
      cases h.1.1
    · obtain ⟨_, _, _, -, h⟩ := steps_bind.mp h
      exact absurd h apply_ident
  | .slice pos lower upper step =>
    rw [expr, steps_located] at h
    simp only [steps_bind] at h
    obtain ⟨_, _, _, -, _, _, _, -, _, _, _, -, _, _, _, -, h⟩ := h
    exact absurd h apply_ident
  | .tuple pos items =>
    rw [expr, steps_located] at h
    simp only [steps_bind, steps_pure] at h
    obtain ⟨_, _, _, -, _, _, _, -, h⟩ := h
    cases h.1
  | .lambda pos params body =>
    rw [expr, steps_located] at h
    simp only [steps_bind] at h
    obtain ⟨ref, sc1, s₁, href, p, sc2, s2, hp, ⟨⟨xs, b⟩, p'⟩, sc3, s3, hin, h⟩ := h
    obtain ⟨rfl, hreg, -⟩ := steps_globalName href hr
    obtain ⟨rfl, hreg', -, hready, -⟩ := steps_closureScope hp (hr.grows hreg.grows)
    rw [steps_inScope] at hin
    obtain ⟨hin, rfl⟩ := hin
    simp only [steps_bind, steps_pure] at hin
    obtain ⟨xs', p1, s4, hxs, b', p2, s5, hb, -, -, rfl⟩ := hin
    obtain ⟨h1, -⟩ := read_newVariables hxs hready
    have h2 := read_expr _ body hb h1.ready rfl
    have hgrows := (hreg.trans hreg').trans (h1.registers.trans h2.registers)
    exact .inr (construct_ident h (hr.grows hgrows.grows) ht)
  | .other pos kind =>
    rw [expr] at h
    obtain ⟨_, _, _, -, h⟩ := steps_bind.mp h
    exact absurd h (by simp [unrecognized])

theorem read_topStatement {st : Stmt} {t : Option Term}
    (h : Steps (topStatement st) o sc s t sc' s') (hr : Ready sc s) :
    ((∃ R B D ds, Read R B D (functionsIn sc.grouping.isSome st) ds sc s sc' s') ∧
      ∀ f ∈ definedIn st, Complete f) ∧
      ∀ x, t = some (.ident x) → sc.trial = false →
        s'.lambdas = s.lambdas ∨ Program.Known s' x.sym := by
  unfold topStatement at h
  split at h
  next pos name params decorators body =>
    rw [steps_located] at h
    simp only [steps_bind, steps_lift] at h
    obtain ⟨_, sc1, s1, ⟨hparams, rfl⟩, c, sc2, s2, hc, h⟩ := h
    obtain ⟨rfl, hplain⟩ := returns_checkParams hparams
    obtain ⟨hread, ⟨hends, hall⟩, y, fn, rfl, hknown⟩ :=
      read_defineFunction pos decorators (read_clausesOf _ body) hc hr rfl
    rw [steps_pure] at h
    obtain ⟨rfl, rfl, rfl⟩ := h
    rw [definedIn]
    refine ⟨⟨⟨_, _, _, _, hread⟩, List.forall_mem_cons.mpr ⟨⟨hplain, hends⟩, hall⟩⟩, ?_⟩
    intro x hx ht
    injection hx with hx
    exact .inr (hknown x hx ht)
  next pos e =>
    rw [steps_located] at h
    simp only [steps_bind, steps_pure] at h
    obtain ⟨t, sc1, s1, hexpr, rfl, rfl, rfl⟩ := h
    have hread := read_expr _ e hexpr hr rfl
    rw [functionsIn]
    refine ⟨⟨⟨_, _, _, _, hread⟩, by simp [definedIn]⟩, fun x hx ht => ?_⟩
    injection hx with hx
    subst hx
    exact expr_ident hexpr hr ht
  · obtain ⟨_, _, _, -, h⟩ := steps_bind.mp h
    exact absurd h (by simp [unrecognized])
  · simp at h

theorem read_topStatements {stmts : List Stmt} {ts : List (Option Term)}
    (h : Steps (stmts.mapM topStatement) o sc s ts sc' s') (hr : Ready sc s) :
    (∃ R B D ds, Read R B D (functionsInAll sc.grouping.isSome stmts) ds sc s sc' s') ∧
      ∀ f ∈ definedInAll stmts, Complete f := by
  induction stmts generalizing ts sc s with
  | nil =>
    obtain ⟨-, rfl, rfl⟩ := steps_mapM_nil.mp h
    rw [functionsInAll]
    exact ⟨⟨_, _, _, _, Read.still (Registers.refl s) hr⟩, by simp [definedInAll]⟩
  | cons st stmts ih =>
    obtain ⟨t, sc1, s₁, ht, ts', hts, rfl⟩ := steps_mapM_cons.mp h
    obtain ⟨⟨⟨_, _, _, _, h1⟩, hall⟩, -⟩ := read_topStatement ht hr
    obtain ⟨⟨_, _, _, _, h2⟩, hall'⟩ := ih hts h1.ready
    rw [h1.same.grouping] at h2
    rw [definedInAll, functionsInAll]
    exact ⟨⟨_, _, _, _, h1.append h2 hr⟩, List.forall_mem_append.mpr ⟨hall, hall'⟩⟩

/-! ## Texts -/

theorem steps_mapM_singleton {α β : Type} {f : α → Reader β} {xs : List α} {b : β}
    (h : Steps (xs.mapM f) o sc s [b] sc' s') : ∃ x, xs = [x] ∧ Steps (f x) o sc s b sc' s' := by
  match xs with
  | [] => cases (steps_mapM_nil.mp h).1
  | [x] =>
    obtain ⟨a, sc1, s₁, hx, rest, hrest, ha⟩ := steps_mapM_cons.mp h
    obtain ⟨rfl, rfl, rfl⟩ := steps_mapM_nil.mp hrest
    injection ha with ha
    exact ⟨x, rfl, ha ▸ hx⟩
  | x :: y :: xs =>
    obtain ⟨_, _, _, -, rest, hrest, hlist⟩ := steps_mapM_cons.mp h
    obtain ⟨_, _, _, -, _, -, rfl⟩ := steps_mapM_cons.mp hrest
    cases hlist

variable {url : String} {firstLine : Nat} {stmts : List Stmt} {grouping : Option Nat} {v : Value}

/-- Reading a text registers closed functions, each with the parameters that the text gives it, and the
functions it defines are complete. If it comes to a name, then that is registered, or no functions
were made. -/
theorem registers_readText (hs : Sound s)
    (h : Returns (readText url firstLine stmts grouping) o s v s') :
    (∀ f ∈ definedInAll stmts, Complete f) ∧
      ∃ x s₁, Registers s s₁ ∧ Entered (functionsInAll grouping.isSome stmts) s s₁ ∧ (s₁.lambdas = s.lambdas ∨ Program.Known s₁ x) ∧
      Returns (resolve (.symbol x)) o s₁ v s' := by
  unfold readText at h
  simp only [returns_bind, returns_freshPlain, returns_ident] at h
  obtain ⟨globals, s₁, hglobals, generator, s2, hgenerator, x, s3, ⟨rfl, rfl⟩, dest, s4, ⟨rfl, rfl⟩,
    ⟨results, sc'⟩, s5, hresults, h⟩ := h
  rw [returns_about] at hresults
  have hresults : Steps (stmts.mapM topStatement) _ _ _ results sc' s5 := hresults
  -- the scope at the top of the text
  obtain ⟨hlt, hspace, hsame, hgrows⟩ := returns_globalGenerator hs hglobals
  obtain ⟨hreg, hready⟩ := ready_of_generators
    (p := { url, firstLine, topLevel := true, grouping, generator, globals, dest := _ }) hs
    (Registers.of_grows hgrows hsame) (fun _ => ⟨hlt, hspace⟩) hgenerator
    (Registers.of_grows (grows_afterPlain.trans (grows_noted _ _)) ⟨rfl, rfl⟩) rfl
  have hlambdas := (returns_privateGenerator hgenerator).2.2.1.2.trans hsame.2
  obtain ⟨⟨_, _, _, _, hread⟩, hall⟩ := read_topStatements hresults hready
  simp only at h
  split at h
  next y _ =>
    refine ⟨hall, y.sym, s5, hreg.trans hread.registers, hreg.entered (hread.entered rfl), ?_, h⟩
    obtain ⟨st, -, hst⟩ := steps_mapM_singleton hresults
    exact ((read_topStatement hst hready).2 y rfl rfl).imp_left fun hl => hl.trans hlambdas
  · simp at h
  · simp at h

/-- A session whose functions have all been read from texts. -/
inductive Loaded : Session → Prop
  | empty {s : Session} (hs : Sound s) (h : s.lambdas = []) : Loaded s
  | read {s s' : Session} {o : Option Origin} {url : String} {firstLine : Nat} {stmts : List Stmt}
    {grouping : Option Nat} {v : Value} (hs : Loaded s)
    (h : Returns (readText url firstLine stmts grouping) o s v s') : Loaded s'
  | other {s s' : Session} (hs : Loaded s) (hs' : Sound s') (h : s'.lambdas = s.lambdas) : Loaded s'

/-- Whatever texts are read, the functions are as the reader makes them. -/
theorem Loaded.made (h : Loaded s) : Sound s ∧ ∀ {id l}, s.lambda? id = some l → Made l := by
  induction h with
  | empty hs h =>
    refine ⟨hs, fun hl => ?_⟩
    rw [lambda?, h] at hl
    cases hl
  | @read s s' o url firstLine stmts grouping v _ h ih =>
    obtain ⟨hs, hold⟩ := ih
    obtain ⟨-, x, s₁, hreg, -, -, hresolve⟩ := registers_readText hs h
    have hsound := hreg.grows.sound hs
    have hmade : ∀ {id l}, s₁.lambda? id = some l → Made l := fun {id l} hl => by
      rcases hreg.made id l hl with ⟨l', hl', hcore⟩ | hm
      · exact made_of_core hcore (hold hl')
      · exact hm
    rcases returns_resolve hresolve with ⟨-, rfl⟩ | ⟨-, rfl⟩
    · exact ⟨hsound, hmade⟩
    · exact ⟨⟨hsound.fixed, hsound.globals, hsound.refs⟩, hmade⟩
  | other _ hs' h ih =>
    refine ⟨hs', fun hl => ?_⟩
    rw [lambda?, h] at hl
    exact ih.2 hl

/-- Every function that is registered while a text is read has no unbound variable, and binds no
variable twice. -/
theorem readText_closed {url : String} {firstLine : Nat} {stmts : List Stmt} {grouping : Option Nat}
    {v : Value} (hs : Sound s) (h : Returns (readText url firstLine stmts grouping) o s v s') :
    Sound s' ∧ ∀ k id l, (k, .lambda id) ∈ s'.registry → (k, .lambda id) ∉ s.registry →
      s.lambda? id = none → s'.lambda? id = some l →
      unbound [] (lambdaTerm id l) = .ok [] ∧ (l.params.map (·.sym) ++ binders l.body).Nodup := by
  obtain ⟨-, x, s₁, hreg, -, hx, hresolve⟩ := registers_readText hs h
  have hclosed : ∀ k id l, (k, .lambda id) ∈ s₁.registry → (k, .lambda id) ∉ s.registry →
      s₁.lambda? id = some l → Closed l := by
    intro k id l hk hnew hl
    obtain hold | ⟨-, l', hl', hc⟩ := hreg.closed k id hk
    · exact absurd hold hnew
    · rw [hl] at hl'
      injection hl' with hl'
      rwa [hl']
  have hsound := hreg.grows.sound hs
  rcases returns_resolve hresolve with ⟨-, rfl⟩ | ⟨hunknown, rfl⟩
  · refine ⟨hsound, fun k id l hk hnew _ hl => ?_⟩
    have hc := hclosed k id l hk hnew hl
    exact ⟨hc.bound, hc.distinct⟩
  · -- a name that is looked up in the program: the text made no functions
    have hsame := hx.resolve_right hunknown
    refine ⟨⟨hsound.fixed, hsound.globals, hsound.refs⟩, fun k id l _ _ hnone hl => ?_⟩
    rw [lambda?, ← hsame] at hnone
    have hl : s₁.lambdas.lookup id = some l := hl
    rw [hnone] at hl
    cases hl

/-- A function with a function and a loop inside, both of which use its variables:
the inner function multiplies by one of them, and the loop counts another one down. -/
def nestedText : Stmt :=
  let at_ : Pos := ⟨1, 0⟩
  let n : Expr := .name at_ "n"
  let m : Expr := .name at_ "m"
  .define at_ "f" { names := ["n", "m"] } []
    [.define at_ "g" { names := ["x"] } []
      [.ret at_ (some (.binary at_ "Mult" (.name at_ "x") n))],
     .whileLoop at_ (.compare at_ m ["Gt"] [n])
      [.assign at_ [m] (.binary at_ "Sub" m (.constant at_ (.int 1)))],
     .ret at_ (some (.call at_ (.name at_ "g") [m] false))]

theorem exists_readText_nested :
    ∃ v s', Returns (readText "text" 1 [nestedText] none) none initial v s' ∧
      s'.registry.length = 4 ∧ s'.lambdas.length = 4 :=
  exists_returns_and _ _ _ (by decide +kernel) (by decide +kernel)

theorem readText_closed_nested :
    ∃ v s', Returns (readText "text" 1 [nestedText] none) none initial v s' ∧
      Sound s' ∧ s'.registry.length = 4 ∧ ∀ k id l, (k, .lambda id) ∈ s'.registry →
        s'.lambda? id = some l → unbound [] (lambdaTerm id l) = .ok [] ∧
          (l.params.map (·.sym) ++ binders l.body).Nodup := by
  obtain ⟨v, s', h, hlength, -⟩ := exists_readText_nested
  obtain ⟨hsound, hclosed⟩ := readText_closed sound_initial h
  refine ⟨v, s', h, hsound, hlength, fun k id l hk hl => hclosed k id l hk ?_ rfl hl⟩
  exact List.not_mem_nil

/-- Every function that an accepted text defines, at any depth, is left by a return or an exception on
every way through it, or it is never left and its last statement is an expression. -/
theorem readText_ends (hs : Sound s)
    (h : Returns (readText url firstLine stmts grouping) o s v s') :
    ∀ f ∈ definedInAll stmts, Ends f.2 :=
  fun f hf => ((registers_readText hs h).1 f hf).ends

theorem readText_ends_nested :
    (∃ v s', Returns (readText "text" 1 [nestedText] none) none initial v s') ∧
      (definedInAll [nestedText]).length = 2 ∧ ∀ f ∈ definedInAll [nestedText], Ends f.2 := by
  obtain ⟨v, s', h, -⟩ := exists_readText_nested
  exact ⟨⟨v, s', h⟩, by decide +kernel, readText_ends sound_initial h⟩

/-- A function that falls off its end, after the sum of its parameter and one. -/
def unreturned : Stmt :=
  let at_ : Pos := ⟨1, 0⟩
  .define at_ "f" { names := ["x"] } []
    [.expr at_ (.binary at_ "Add" (.name at_ "x") (.constant at_ (.int 1)))]

theorem readText_unreturned :
    (∃ v s', Returns (readText "text" 1 [unreturned] none) none initial v s') ∧
      ∃ f ∈ definedInAll [unreturned], exitAll f.2 = some false :=
  ⟨exists_returns _ _ _ (by decide +kernel), by decide +kernel⟩

/-- Every function that an accepted text defines, at any depth, has no parameters that gather arguments,
are given by name only or have defaults. And each function of the text, anonymous ones included, has
become a function of its own, whose parameters are variables that it takes from around it, followed
by one for each plain parameter in order. -/
theorem readText_positional (hs : Sound s)
    (h : Returns (readText url firstLine stmts grouping) o s v s') :
    (∀ f ∈ definedInAll stmts, Positional f.1) ∧
      Entered (functionsInAll grouping.isSome stmts) s s' := by
  obtain ⟨hall, x, s₁, -, ⟨ids, hnodup, hnew, hentries⟩, -, hresolve⟩ := registers_readText hs h
  refine ⟨fun f hf => (hall f hf).plain, ids, hnodup, hnew, ?_⟩
  rcases returns_resolve hresolve with ⟨-, rfl⟩ | ⟨-, rfl⟩
  · exact hentries
  · exact hentries.imp fun _ _ he => ⟨he.there, he.made⟩

theorem readText_positional_nested :
    ∃ v s', Returns (readText "text" 1 [nestedText] none) none initial v s' ∧
      (functionsInAll false [nestedText]).map (fun f => (f.params.names, f.outside)) =
        [(["x"], ["n"]), (["n", "m"], [])] ∧
      (∀ f ∈ definedInAll [nestedText], Positional f.1) ∧
      Entered (functionsInAll false [nestedText]) initial s' := by
  obtain ⟨v, s', h, -⟩ := exists_readText_nested
  exact ⟨v, s', h, by decide +kernel, readText_positional sound_initial h⟩

/-- The parameters of an anonymous function. -/
def gathering : Params := { names := ["a"], variadic := true }

/-- The parameters of a function that is defined. -/
def unnameable : Params := { names := ["b"], positionalOnly := ["a"] }

/-- Anonymous functions are not checked: what gathers the other arguments is dropped. And so is a
parameter that cannot be given by name, in definitions too. -/
theorem readText_gathering :
    (¬ Positional gathering ∧ ∃ v s', Returns (readText "text" 1
      [.expr ⟨1, 0⟩ (.lambda ⟨1, 0⟩ gathering (.name ⟨1, 0⟩ "b"))] none) none initial v s') ∧
    ∃ v s', Returns (readText "text" 1 [.define ⟨1, 0⟩ "f" unnameable []
      [.ret ⟨1, 0⟩ (some (.name ⟨1, 0⟩ "a"))]] none) none initial v s' ∧
      s'.lambdas.map (fun l => l.2.params.length) = [unnameable.names.length] ∧
      unnameable.positionalOnly ≠ [] :=
  ⟨⟨by simp [Positional, gathering], exists_returns _ _ _ (by decide +kernel)⟩,
    exists_returns_and _ _ _ (by decide +kernel) (by decide +kernel)⟩

end DiffLang.Reading
