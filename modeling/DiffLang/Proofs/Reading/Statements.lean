import DiffLang.Proofs.Reading.Ends
import DiffLang.Proofs.Reading.Expressions

/-!
# Reading statements

Reading statements looks up the names of their text, makes variables for the names they bind, and
leaves clauses that compute and set what the text says. The branches of a conditional and the
functions inside a function are read in scopes of their own; what they use of the scope around them
is looked up there when they are made.
-/

namespace DiffLang.Reading

open Run Session Growth Freshness Scoping Meaning Source

variable {sc sc1 sc2 sc' : Scope} {s s1 s2 s' : Session} {o : Option Origin} {name : String}
  {R B : List String} {fs : List Header} {ds : List Deed} {g : Bool} {v : Term}

abbrev FollowsStmt (g : Bool) (st : Stmt) : Prop :=
  ∀ ⦃o sc sc' s s' r⦄, Steps (stmt st) o sc s r sc' s' → Ready sc s → sc.grouping.isSome = g →
    Read (namesIn g st) (boundBy st) (notesBy st) (functionsIn g st) (deedsOf r.clauses) sc s sc' s' ∧
      Accepted sc.returnError.isSome st r.clauses

abbrev FollowsBody (g : Bool) (body : List Stmt) : Prop :=
  ∀ ⦃o sc sc' s s' cs⦄, Steps (clausesOf body) o sc s cs sc' s' → Ready sc s →
    sc.grouping.isSome = g →
    Read (namesInAll g body) (boundByAll body) (notesByAll body) (functionsInAll g body) (deedsOf cs)
      sc s sc' s' ∧
      AcceptedAll sc.returnError.isSome body cs

/-! ## Patterns -/

theorem patternSymbols_names (i : TermId) (xs : List Ident) :
    patternSymbols (Pattern.tuple i (xs.map .name)).term = xs.map (·.sym) := by
  rw [Pattern.term, patternSymbols_tuple]
  induction xs with
  | nil => rfl
  | cons x xs ih => simp [Pattern.term.terms, Pattern.term, patternSymbols.go, ih]

mutual

theorem read_pattern (g : Bool) : ∀ e : Expr,
    Follows g (pattern e) [] (patternNames e) ((patternNames e).map .sets) []
      fun k => [.set (patternSymbols k.term)]
  | .tuple pos items => by
    intro o sc sc' s s' k h hr hg
    rw [pattern] at h
    simp only [steps_bind, steps_lift, returns_newId, steps_pure] at h
    obtain ⟨_, _, _, ⟨⟨rfl, rfl⟩, rfl⟩, ts, sc1, s1, hts, rfl, rfl, rfl⟩ := h
    have hq := (Quiet.noted s o).registers
    have h1 := read_patterns g items hts (hr.grows hq.grows) hg
    rw [patternNames]
    simp only [Pattern.term, Pattern.terms_eq_map, patternSymbols_tuple]
    exact Read.after hr hq h1
  | .name pos id => by
    intro o sc sc' s s' k h hr _
    rw [pattern] at h
    simp only [steps_bind, steps_pure] at h
    obtain ⟨x, sc1, s1, hx, rfl, rfl, rfl⟩ := h
    rw [patternNames]
    simp only [Pattern.term, patternSymbols_ident]
    exact read_declare hx hr
  | .constant .. | .binary .. | .unary .. | .compare .. | .call .. | .attribute .. | .subscript ..
  | .slice .. | .lambda .. | .other .. => by
    intro o sc sc' s s' k h hr _
    simp [pattern] at h

theorem read_patterns (g : Bool) : ∀ es : List Expr,
    Follows g (patterns es) [] (patternsNames es) ((patternsNames es).map .sets) []
      fun ks => [.set (patternSymbols.go (ks.map Pattern.term))]
  | [] => by
    intro o sc sc' s s' ks h hr _
    rw [patterns, steps_pure] at h
    obtain ⟨rfl, rfl, rfl⟩ := h
    rw [patternsNames]
    exact (Read.still (Registers.refl s) hr).reshape (List.Perm.refl _) fun _ K h => h
  | e :: es => by
    intro o sc sc' s s' ks h hr hg
    rw [patterns] at h
    simp only [steps_bind, steps_pure] at h
    obtain ⟨k, sc1, s1, hk, ks', sc2, s2, hks, rfl, rfl, rfl⟩ := h
    have h1 := read_pattern g e hk hr hg
    have h2 := read_patterns g es hks h1.ready (h1.same.grouped hg)
    rw [patternsNames]
    rw [List.map_append]
    refine (h1.append h2 hr).reshape ?_ fun _ K _ => trivial
    simp [sets, patternSymbols.go]

end

/-! ## Assignments -/

theorem Read.assign {x : Ident} (h : Read R [] [] fs [.compute v] sc s sc1 s1) (hr : Ready sc s)
    (hx : Steps (declare name) o sc1 s1 x sc' s') :
    Read R [name] [.sets name] fs (deedsOf [.assign (.name x) v]) sc s sc' s' := by
  have h' := (h.append (read_declare hx h.ready) hr).reading (List.append_nil _)
  refine (h'.reshape ?_ fun _ K hK => ?_).rename (by simp) (by simp) (by simp)
  · simp [deedsOf, Clause.deeds, sets, Pattern.term]
  · simpa [deedsOf, Clause.deeds, Pattern.term] using hK

variable {names : List String} {c : Clause}

theorem read_assignAll (ds : List Deed) (h : Read R [] [] fs (ds ++ [.compute v]) sc s sc1 s1)
    (hr : Ready sc s) (hc : Steps (assignAll names v) o sc1 s1 c sc' s') :
    Read R names (names.map .sets) fs (ds ++ deedsOf [c]) sc s sc' s' := by
  unfold assignAll at hc
  simp only [steps_bind, steps_lift, returns_newId, steps_pure] at hc
  obtain ⟨_, _, _, ⟨⟨rfl, rfl⟩, rfl⟩, xs, sc2, s2, hxs, rfl, rfl, rfl⟩ := hc
  have hq := (Quiet.noted s1 o).registers
  have h1 := Read.before hr h hq
  have h' := (h1.append (read_declares hxs h1.ready) hr).reading (List.append_nil _)
  refine (h'.reshape ?_ fun _ K hK => ?_).rename (by simp) (by simp) (by simp)
  · simp [deedsOf, Clause.deeds, sets, patternSymbols_names]
  · simpa [deedsOf, Clause.deeds, patternSymbols_names] using hK

theorem assignAll_last (h : Steps (assignAll names v) o sc s c sc' s') :
    lastAssigns [c] = some true := by
  unfold assignAll at h
  simp only [steps_bind, steps_pure] at h
  obtain ⟨_, _, _, -, _, _, _, -, rfl, -, -⟩ := h
  rfl

variable {n : String} {pos : Pos} {value : Expr} {params : Params} {body : List Stmt} {p' p : Scope}
variable {ref : Ident} {cs : List Clause} {s3 s4 : Session} {orelse : List Stmt} {test : Expr}

theorem plainName?_eq_some {e : Expr} (h : plainName? e = some n) :
    ∃ pos, e = .name pos n := by
  unfold plainName? at h
  split at h
  next pos id =>
    injection h with h
    exact ⟨pos, by rw [h]⟩
  · cases h

theorem read_assign {targets : List Expr} :
    FollowsStmt g (.assign pos targets value) := by
  intro o sc sc' s s' r h hr hg
  rw [stmt.eq_def] at h
  simp only [steps_located] at h
  split at h
  next target =>
    split at h
    next p items =>
      -- several variables
      simp only [steps_bind, steps_pure] at h
      obtain ⟨v, sc1, s1, hv, k, sc2, s2, hk, rfl, rfl, rfl⟩ := h
      have h1 := read_expr g value hv hr hg
      have h2 := read_pattern g _ hk h1.ready (h1.same.grouped hg)
      have h12 := (h1.append h2 hr).reading (List.append_nil _)
      refine ⟨(h12.reshape ?_ fun _ K hK => ?_).rename ?_ ?_ ?_, .simple rfl rfl⟩
      · simp [deedsOf, Clause.deeds, sets]
      · simpa [deedsOf, Clause.deeds] using hK
      · simp [namesIn, namesOfAssign]
      · simp [boundBy, notesBy, targetNames]
      · simp [notesBy, targetNames]
    next p object index =>
      split at h
      next name hname =>
        obtain ⟨q, rfl⟩ := plainName?_eq_some hname
        simp only [steps_bind, steps_lift, steps_pure] at h
        obtain ⟨v, sc1, s1, hv, f, _, s2, ⟨hf, rfl⟩, x, sc3, s3, hx, i, sc4, s4, hi, new, _, s5,
          ⟨hnew, rfl⟩, y, sc6, s6, hy, rfl, rfl, rfl⟩ := h
        obtain ⟨⟨j, rfl⟩, hq⟩ := quiet_builtin hf
        have h1 := Read.before hr (read_expr g value hv hr hg) hq.registers
        have hg1 := h1.same.grouped hg
        have h2 := read_expr g _ hx h1.ready hg1
        have h3 := read_expr g index hi h2.ready (h2.same.grouped hg1)
        have hcall : Read (namesOf g value ++ namesOf g (.name q name) ++ namesOf g index) [] []
            (functionsOf g value ++ functionsOf g (.name q name) ++ functionsOf g index)
            (computes [x, i, v]) sc s sc4 s4 := by
          refine ((h1.and h2 hr).and h3 hr).reshape (List.Perm.refl _) fun _ K hK => ?_
          exact ⟨hK.2.1, hK.2.2.1, hK.1, trivial⟩
        refine ⟨((hcall.operation _ hr hnew).assign hr hy).rename ?_ ?_ ?_, .simple rfl rfl⟩
        · simp [namesIn, namesOfAssign]
        · simp [boundBy, notesBy, targetNames, plainName?]
        · simp [notesBy, targetNames, plainName?]
      · simp at h
    next p name =>
      simp only [steps_bind, steps_pure] at h
      obtain ⟨v, sc1, s1, hv, y, sc2, s2, hy, rfl, rfl, rfl⟩ := h
      refine ⟨((read_expr g value hv hr hg).assign hr hy).rename ?_ ?_ ?_, .simple rfl rfl⟩
      · simp [namesIn, namesOfAssign]
      · simp [boundBy, notesBy, targetNames]
      · simp [notesBy, targetNames]
    next p object attr =>
      split at h
      next name hname =>
        obtain ⟨q, rfl⟩ := plainName?_eq_some hname
        simp only [steps_bind, steps_lift, steps_pure] at h
        obtain ⟨f, _, s1, ⟨hf, rfl⟩, x, sc2, s2, hx, a, _, s3, ⟨ha, rfl⟩, v, sc4, s4, hv, new, _,
          s5, ⟨hnew, rfl⟩, y, sc6, s6, hy, rfl, rfl, rfl⟩ := h
        obtain ⟨⟨j, rfl⟩, hq⟩ := quiet_builtin hf
        have hr1 := hr.grows (Grows.of_quiet hq)
        have h1 := read_expr g _ hx hr1 hg
        have h2 := (h1.and (read_literal ha h1.ready) hr1).reading (List.append_nil _)
        have h3 := read_expr g value hv h2.ready (h2.same.grouped hg)
        have hcall := (h2.and h3 hr1).operation [x, a, v] hr1 hnew
        refine ⟨((Read.after hr hq.registers hcall).assign hr hy).rename ?_ ?_ ?_, .simple rfl rfl⟩
        · simp [namesIn, namesOfAssign]
        · simp [boundBy, notesBy, targetNames, plainName?]
        · simp [notesBy, targetNames, plainName?]
      · simp at h
    · simp at h
  · simp at h

theorem read_augment {target : Expr} {op : String} :
    FollowsStmt g (.augment pos target op value) := by
  intro o sc sc' s s' r h hr hg
  rw [stmt.eq_def] at h
  simp only [steps_located] at h
  split at h
  next p name =>
    simp only [steps_bind, steps_lift, steps_located, steps_pure] at h
    obtain ⟨v, sc1, s1, hv, f, _, s2, ⟨hf, rfl⟩, x, sc3, s3, hx, old, sc4, s4, hold, new, _, s5,
      ⟨hnew, rfl⟩, y, sc6, s6, hy, rfl, rfl, rfl⟩ := h
    obtain ⟨⟨j, op', rfl⟩, hq⟩ := quiet_operator hf
    obtain ⟨rfl, hq', free, hfound⟩ := steps_existing hold
    have h1 := Read.before hr (read_expr g value hv hr hg) hq.registers
    have h2 := Read.before h1.ready (read_occurrence hx h1.ready).1 hq'.registers
    have h12 := (h1.and h2 hr).reading (List.append_nil _)
    -- the variable that was just looked up is one of this function
    have hcall : Read (namesOf g value ++ [name]) [] [] (functionsOf g value) (computes [.ident old, v])
        sc s sc3 s4 := by
      refine { h12 with tidy := fun ht hset => ?_ }
      have hhas : Visible sc name → Has sc3 name := by
        intro hvis
        rw [h12.has]
        rcases hset with hpull | hset
        · exact .inr (.inr ⟨hpull, by simp, hvis⟩)
        · exact .inl (hset name (by simp) hvis)
      obtain ⟨F, hF⟩ := h12.tidy ht hset
      refine ⟨F, hF.free, hF.unpulled, hF.fresh, fun K hK hsub => ⟨⟨?_, straight_ident old⟩,
        (hF.covered K hK hsub).1, trivial⟩, hF.bindings⟩
      have hown : Has sc3 name := by
        cases free with
        | false =>
          obtain ⟨y, hy, -⟩ := hfound.own
          simp [Has, hy]
        | true =>
          have hvis := hfound.not_own.2
          rw [h12.same.visible] at hvis
          exact hhas hvis
      obtain ⟨y, hy, hsym⟩ := hfound.of_has hown
      rw [bound_ident, hsym]
      rcases hF.bindings name y hy with ⟨-, hy⟩ | hy
      · exact hK name (by simp) y hy
      · exact .inr (hsub (by simpa [sets] using hy))
    refine ⟨((hcall.operation _ hr hnew).assign hr hy).rename ?_ ?_ ?_, .simple rfl rfl⟩
    · simp [namesIn, plainName?]
    · simp [boundBy, notesBy, plainName?]
    · simp [notesBy, plainName?]
  · simp at h

/-! ## Expressions and returns -/

theorem read_exprStmt : FollowsStmt g (.expr pos value) := by
  intro o sc sc' s s' r h hr hg
  rw [stmt.eq_def] at h
  simp only [steps_located] at h
  simp only [steps_bind, steps_lift, returns_findLocation, steps_pure] at h
  obtain ⟨t, sc1, s1, ht, _, _, _, ⟨⟨rfl, rfl⟩, rfl⟩, rfl, rfl, rfl⟩ := h
  rw [namesIn, boundBy, notesBy, functionsIn]
  · exact ⟨read_expr g value ht hr hg, .simple rfl rfl⟩
  all_goals simp

theorem read_ret {value : Option Expr} : FollowsStmt g (.ret pos value) := by
  intro o sc sc' s s' r h hr hg
  rw [stmt.eq_def] at h
  simp only [steps_located] at h
  rw [steps_get_bind] at h
  split at h
  · simp at h
  next hopen =>
    simp only [steps_bind, steps_modify] at h
    obtain ⟨_, _, _, ⟨rfl, rfl⟩, h⟩ := h
    cases value with
    | none => simp at h
    | some e =>
      simp only [steps_bind, steps_lift, returns_findLocation, steps_pure] at h
      obtain ⟨t, sc1, s1, ht, _, _, _, ⟨⟨rfl, rfl⟩, rfl⟩, rfl, rfl, rfl⟩ := h
      have h1 := read_returns hr
      have h2 := h1.and (read_expr g e ht h1.ready hg) hr
      rw [namesIn, namesOfOption, boundBy, notesBy, functionsIn, functionsOfOption, hopen]
      · exact ⟨h2, .leaving rfl rfl⟩
      all_goals simp

theorem read_raise {value : Option Expr} : FollowsStmt g (.raise pos value) := by
  intro o sc sc' s s' r h hr hg
  rw [stmt.eq_def] at h
  simp only [steps_located] at h
  rw [steps_get_bind] at h
  split at h
  · simp at h
  next hopen =>
    simp only [steps_bind, steps_modify, steps_lift] at h
    obtain ⟨_, _, _, ⟨rfl, rfl⟩, f, _, s1, ⟨hf, rfl⟩, h⟩ := h
    cases value with
    | none => simp at h
    | some e =>
      simp only [steps_bind, steps_lift, returns_findLocation, steps_pure] at h
      obtain ⟨x, sc1, s1, hx, t, _, s2, ⟨ht, rfl⟩, _, _, _, ⟨⟨rfl, rfl⟩, rfl⟩, rfl, rfl, rfl⟩ := h
      obtain ⟨⟨j, rfl⟩, hq⟩ := quiet_builtin hf
      have h1 := Read.before hr (read_returns hr) hq.registers
      have h2 := h1.and ((read_expr g e hx h1.ready hg).operation [x] h1.ready ht) hr
      rw [namesIn, namesOfOption, boundBy, notesBy, functionsIn, functionsOfOption, hopen]
      · exact ⟨h2, .leaving rfl rfl⟩
      all_goals simp

/-! ## Functions inside functions -/

theorem returns_guard {α : Type} {b : Bool} {text : String} {l : Option Location}
    {f : PUnit → Run α} {a : α} :
    Returns (if b = true then (do let r ← (syntaxFailure text l : Run PUnit); f r) else f ()) o s a
      s' ↔ b = false ∧ Returns (f ()) o s a s' := by
  cases b with
  | true | false => simp

theorem returns_checkParams {a : Unit} (h : Returns (checkParams params) o s a s') :
    s' = s ∧ Positional params := by
  unfold checkParams at h
  simp only [returns_guard] at h
  obtain ⟨h1, h2, h⟩ := h
  split at h
  · simp at h
  next h3 =>
    rw [returns_pure] at h
    exact ⟨h.2.symm, h1, h2, by simpa using h3⟩

/-- Variables are made, and then something is computed that does not look them up: they might as
well be set afterwards. -/
theorem Read.set_last {xs : List Symbol} (h1 : Read [] B [] [] [.set xs] sc s sc1 s1)
    (h2 : Read R [] [] fs ds sc1 s1 sc' s') (hr : Ready sc s) (hsets : sets ds = [])
    (hB : ∀ n ∈ B, n ∉ R) (hK : ∀ K, KnowsOn R sc K → KnowsOn R sc1 K) :
    Read R B [] fs (ds ++ [.set xs]) sc s sc' s' := by
  have h : Read R B [] fs _ sc s sc' s' :=
    (h1.append h2 hr).rename (fun n => by have := hB n; simp; grind) (by simp) (by simp)
  refine { h with tidy := fun ht hset => ?_ }
  have hset1 : Settled R sc1 := by
    refine hset.imp (fun hp => by rw [h1.same.pull]; exact hp) fun hs n hn hv => ?_
    rw [h1.has]
    exact .inl (hs n hn (h1.same.visible.mp hv))
  obtain ⟨F1, hF1⟩ := h1.tidy ht (.inr (by simp))
  obtain ⟨F, hF⟩ := h2.tidy (by rw [h1.same.trial]; exact ht) hset1
  have hboth := hF1.append hF h1.same hr.generator.1 h1.registers.grows.further
    h2.registers.grows.further
  have hperm : sets ([.set xs] ++ ds) = sets (ds ++ [.set xs]) := by simp [sets, hsets]
  refine ⟨F1 ++ F, hboth.free, hboth.unpulled, hperm ▸ hboth.fresh, fun K hknown hsub => ?_, ?_⟩
  · rw [symbols_append, List.append_subset] at hsub
    exact covered_append.mpr ⟨hF.covered K (hK K hknown) hsub.2, trivial⟩
  · rw [← hperm]
    intro n x hx
    exact (hboth.bindings n x hx).imp_left fun h => ⟨by simpa using h.1, h.2⟩

theorem read_defineFunction (pos : Pos) (decorators : List Expr) (hbody : FollowsBody g body)
    (h : Steps (defineFunction name params (grouped (clausesOf body))) o sc s c sc' s')
    (hr : Ready sc s) (hg : sc.grouping.isSome = g) :
    Read (without (namesInAll g body) (name :: params.names)) [name] []
        (functionsIn g (.define pos name params decorators body)) (deedsOf [c]) sc s sc' s' ∧
      (Ends body ∧ ∀ f ∈ definedInAll body, Complete f) ∧ ∃ x fn, c = .assign (.name x) fn ∧
        ∀ y, fn = .ident y → sc.trial = false → Program.Known s' y.sym := by
  unfold defineFunction at h
  rw [steps_get_bind] at h
  simp only [steps_bind] at h
  obtain ⟨ref, sc1, s1, href, x, sc2, s2, hx, p, sc3, s3, hp,
    ⟨⟨xs, body⟩, p'⟩, sc4, s4, hin, fn, sc5, s5, hfn, h⟩ := h
  rw [steps_pure] at h
  obtain ⟨rfl, rfl, rfl⟩ := h
  obtain ⟨rfl, hreg, hglobal⟩ := steps_globalName href hr
  have hr1 := hr.grows hreg.grows
  have h1 := read_newVariable hx hr1
  obtain ⟨rfl, hreg', hinside, hready, hdest⟩ := steps_closureScope hp h1.ready
  simp only [steps_inScope, steps_bind, steps_grouped, steps_lift, steps_pure] at hin
  obtain ⟨⟨xs', p1, s6, hxs, gs, p2, s7, ⟨cs, hcs, rfl⟩, b', _, s8, ⟨hb, rfl⟩, hpair, rfl, rfl⟩,
    rfl⟩ := hin
  injection hpair with hx' hb'
  subst hx' hb'
  -- the parameters, and then the body
  obtain ⟨h2, hfor, -⟩ := read_newVariables hxs hready
  have hgroup : p.grouping.isSome = g := by
    rw [hinside.grouping]
    exact h1.same.grouped hg
  obtain ⟨h3, haccepted⟩ := hbody hcs h2.ready (h2.same.grouped hgroup)
  have hinner := h2.append h3 hready
  obtain ⟨hq, hful⟩ := finish_groups hb
  have hall := hreg'.trans (hinner.registers.trans hq.registers)
  have hglobal' : sc2.trial = false → ref.sym.isGlobal = true := by
    rw [h1.same.trial]
    exact hglobal
  have hentered : sc2.trial = false → Entered _ s2 _ := fun ht =>
    (hreg'.entered (hinner.entered (hinside.trial.trans ht))).before hq.registers
  have h4 := read_closure (f := some ⟨params, _⟩) hinside hdest hglobal' hinner
    (fun _ K hK _ => hful K hK fun r hr => by cases hr) (Same.refl _) (h1.ready.grows hall.grows) hfn
    fun k hk => by obtain rfl := Option.mem_some.mp hk; exact ⟨rfl, hfor⟩
  have hknown : ∀ y, fn = .ident y → sc.trial = false → Program.Known s5 y.sym := fun y hy ht =>
    construct_ident (hy ▸ hfn) (h1.ready.grows hall.grows) (by rw [h1.same.trial]; exact ht)
  refine ⟨Read.after hr hreg ?_, ⟨haccepted.ends hb, haccepted.complete⟩, x, fn, rfl, hknown⟩
  rw [functionsIn, namesIn]
  refine h1.set_last (Read.entering h1.ready hall hentered h4) hr1 rfl (by simp)
    fun K hK n hn y hy => ?_
  obtain ⟨rfl, -⟩ := steps_newVariable hx hr1
  rcases lookup_put_cases hy with ⟨rfl, -⟩ | ⟨-, hold⟩
  · simp at hn
  · exact hK n hn y hold

theorem read_define {decorators : List Expr} (hbody : FollowsBody g body) :
    FollowsStmt g (.define pos name params decorators body) := by
  intro o sc sc' s s' r h hr hg
  rw [stmt.eq_def] at h
  simp only [steps_located] at h
  simp only [steps_bind, steps_lift] at h
  obtain ⟨_, _, _, ⟨hparams, rfl⟩, h⟩ := h
  obtain ⟨rfl, hplain⟩ := returns_checkParams hparams
  simp only [steps_guard] at h
  obtain ⟨-, h⟩ := h
  simp only [steps_bind, steps_pure] at h
  obtain ⟨c, sc1, s1, hc, rfl, rfl, rfl⟩ := h
  obtain ⟨hread, ⟨hends, hall⟩, x, fn, rfl, -⟩ := read_defineFunction pos decorators hbody hc hr hg
  refine ⟨?_, .define hplain hends hall rfl⟩
  rw [namesIn, boundBy, notesBy]
  · exact hread
  all_goals simp

/-! ## Branches -/

def EndsKnown (p : Scope) (result : Option Term) : Prop :=
  ∀ K, Knows p K → Ending K result

/-- A branch that was read in a scope of its own: where it began and ended, and what it does. -/
structure Branch (sc p : Scope) (ref : Ident) (s : Session) (body : List Stmt) (g : Bool)
    (cs : List Clause) (p' : Scope) (s' : Session) : Prop where
  inside : Inside sc p sc.trial true (ownName none ref)
  dest : p.dest = ref
  global : sc.trial = false → ref.sym.isGlobal = true
  read : Read (namesInAll g body) (boundByAll body) (notesByAll body) (functionsInAll g body)
    (deedsOf cs) p s p' s'
  accepted : AcceptedAll p.returnError.isSome body cs

theorem Branch.construct {result : Option Term} {b t : Term} {o' : Option Origin}
    (hb : Branch sc p ref s body g cs p' s1) (hend : EndsKnown p' result)
    (hbody : Returns (finish result (groups cs)) o s2 b s3) (hsame : Same sc sc1)
    (hr : Ready sc1 s2) (h : Steps (construct p' [] b) o' sc1 s3 t sc' s4) :
    Read (namesInAll g body) [] [] [] [.compute t] sc1 s2 sc' s4 := by
  obtain ⟨hq, hful⟩ := finish_groups hbody
  have hread : Read (without (namesInAll g body) []) (boundByAll body) (notesByAll body)
      (functionsInAll g body) (.set (([] : List Ident).map (·.sym)) :: deedsOf cs) p s p' s1 := by
    rw [without_nil]
    exact hb.read.reshape (List.Perm.refl _) fun _ K hK => hK
  have hc := read_closure (f := none) hb.inside hb.dest hb.global hread
    (fun _ K hK hknown => hful K hK (hend _ hknown)) hsame (hr.grows (Grows.of_quiet hq)) h
    (by simp)
  refine Read.after hr hq.registers ?_
  simpa [without_nil] using hc

theorem read_conditional {p1 p2 q1 q2 : Scope} {ref1 ref2 : Ident} {cs1 cs2 : List Clause}
    {end1 end2 : Option Term} {t : Term} {s5 : Session} (h1 : Branch sc p1 ref1 s1 body g cs1 q1 s2)
    (h2 : Branch sc p2 ref2 s3 orelse g cs2 q2 s4) (hend1 : EndsKnown q1 end1)
    (hend2 : EndsKnown q2 end2) (hr : Ready sc s5) (hg : sc.grouping.isSome = g)
    (h : Steps (conditional (q1, groups cs1) (q2, groups cs2) (expr test) end1 end2) o sc s5 t
      sc' s') :
    Read (namesInAll g body ++ namesInAll g orelse ++ namesOf g test) [] [] (functionsOf g test)
      [.compute t] sc s5 sc' s' := by
  unfold conditional at h
  simp only [steps_bind, steps_lift, returns_apply] at h
  obtain ⟨b1, _, s6, ⟨hb1, rfl⟩, f1, sc1, s7, hf1, b2, _, s8, ⟨hb2, rfl⟩, f2, sc2, s9, hf2, f, _,
    s10, ⟨hf, rfl⟩, u, sc3, s11, hu, _, _, s12, ⟨⟨rfl, rfl⟩, rfl⟩, ⟨rfl, rfl⟩, rfl⟩ := h
  obtain ⟨o1, hf1⟩ := steps_of_aboutPlaceOf hf1
  obtain ⟨o2, hf2⟩ := steps_of_aboutPlaceOf hf2
  obtain ⟨⟨j, rfl⟩, hq⟩ := quiet_builtin hf
  have r1 := h1.construct hend1 hb1 (Same.refl _) hr hf1
  have r2 := h2.construct hend2 hb2 r1.same r1.ready hf2
  have r12 := Read.before hr (r1.and r2 hr) hq.registers
  have r3 := read_expr g test hu r12.ready (r12.same.grouped hg)
  refine (r12.and r3 hr).made hr (by simp [sets]) ((Quiet.noted _ _).trans (Quiet.noted _ _)) ?_
  intro K hK
  have hargs : Covered K (computes [u, f1, f2]) := ⟨hK.2.2.1, hK.1, hK.2.1, trivial⟩
  obtain ⟨hb, hn⟩ := @covered_call K s11.origins.size "switch" _ j hargs
  exact ⟨bound_apply.mpr ⟨hb, boundAll_nil⟩, by rw [straight, hn]; rfl⟩

theorem read_branchBody {relation : String} {gs : List (Bool × List Clause)}
    (hbody : FollowsBody g body) (href : Steps (partName relation) o sc s ref sc1 s1)
    (hp : Steps (closureScope none ref) o sc1 s1 p sc2 s2)
    (hin : Steps (inScope p (grouped (clausesOf body))) o sc2 s2 (gs, p') sc' s3) (hr : Ready sc s)
    (hg : sc.grouping.isSome = g) :
    sc = sc' ∧ Registers s s3 ∧ (sc.trial = false → Entered (functionsInAll g body) s s3) ∧
      ∃ cs, gs = groups cs ∧ Branch sc p ref s2 body g cs p' s3 := by
  obtain ⟨rfl, hreg, hglobal⟩ := steps_partName href hr
  obtain ⟨rfl, hreg', hinside, hready, hdest⟩ := steps_closureScope hp (hr.grows hreg.grows)
  rw [steps_inScope, steps_grouped] at hin
  obtain ⟨⟨cs, hcs, rfl⟩, rfl⟩ := hin
  obtain ⟨hread, ha⟩ := hbody hcs hready (by rw [hinside.grouping]; exact hg)
  exact ⟨rfl, (hreg.trans hreg').trans hread.registers, fun ht => (hreg.trans hreg').entered
    (hread.entered (hinside.trial.trans ht)), cs, rfl, hinside, hdest, hglobal, hread, ha⟩

theorem Branch.of_same
    (h : Branch sc p ref s body g cs p' s') (hsame : Same sc sc1) (hb : sc1.bindings = sc.bindings) :
    Branch sc1 p ref s body g cs p' s' := by
  refine ⟨⟨?_, ?_, h.inside.pull, ?_, h.inside.bindings, h.inside.free, h.inside.assigned,
    h.inside.returns, fun hb => h.inside.barred (hsame.returnError ▸ hb)⟩, h.dest, ?_, h.read,
    h.accepted⟩
  · rw [h.inside.outer, hsame.outer, hb]
  · rw [h.inside.trial, hsame.trial]
  · rw [h.inside.grouping, hsame.grouping]
  · rw [hsame.trial]
    exact h.global

theorem Branch.has (h : Branch sc p ref s body g cs p' s') (hn : n ∈ setByAll body) : Has p' n := by
  rw [h.read.has]
  exact .inr (.inl (setByAll_subset_boundByAll body hn))

theorem Branch.mem_assigned (h : Branch sc p ref s body g cs p' s') :
    n ∈ p'.assigned ↔ n ∈ setByAll body := by
  rw [h.read.assigned, h.inside.assigned]
  simp [setByAll]

theorem Branch.returns_iff (h : Branch sc p ref s body g cs p' s') :
    p'.returns = true ↔ .returns ∈ notesByAll body := by
  rw [h.read.returns, h.inside.returns]
  simp

theorem endsKnown_none (p : Scope) : EndsKnown p none := fun _ _ r hr => by cases hr

theorem endsKnown_existing {x : Ident} (hx : Steps (existing name) o p s x p' s')
    (hhas : Has p name) : EndsKnown p (some (.ident x)) := by
  intro K hK r hr
  injection hr with hr
  subst hr
  exact ⟨existing_bound hx hhas hK, straight_ident x⟩

theorem endsKnown_existings {xs : List Ident} {i : TermId}
    (hx : Steps (names.mapM (existing ·)) o p s xs p' s') (hhas : ∀ n ∈ names, Has p n) :
    EndsKnown p (some (.tuple i (xs.map .ident))) := by
  intro K hK r hr
  injection hr with hr
  subst hr
  obtain ⟨-, -, hall⟩ := steps_existings hx
  refine ⟨bound_tuple.mpr (existings_bound hall hhas hK), ?_⟩
  rw [straight, straightAll_idents]

theorem read_branch (hbody : FollowsBody g body) (horelse : FollowsBody g orelse) :
    FollowsStmt g (.branch pos test body orelse) := by
  intro o sc sc' s s' r h hr hg
  rw [stmt.eq_def] at h
  simp only [steps_located, steps_guard] at h
  obtain ⟨-, h⟩ := h
  simp only [steps_bind] at h
  obtain ⟨ref1, sc1, s1, href1, p1, sc2, s2, hp1, ⟨gs1, q1⟩, sc3, s3, hin1, ref2, sc4, s4, href2,
    p2, sc5, s5, hp2, ⟨gs2, q2⟩, sc6, s6, hin2, h⟩ := h
  obtain ⟨rfl, hreg1, hentered1, cs1, rfl, hb1⟩ := read_branchBody hbody href1 hp1 hin1 hr hg
  have hr1 := hr.grows hreg1.grows
  obtain ⟨rfl, hreg2, hentered2, cs2, rfl, hb2⟩ := read_branchBody horelse href2 hp2 hin2 hr1 hg
  have hreg := hreg1.trans hreg2
  have hr2 := hr.grows hreg.grows
  simp only [steps_guard] at h
  obtain ⟨hreturns, hassigned, h⟩ := h
  have hnames : ∀ n ∈ q1.assigned, n ∈ q2.assigned := by
    intro n hn
    have heq : q1.assigned.mergeSort (fun a b => decide (a ≤ b)) =
        q2.assigned.mergeSort fun a b => decide (a ≤ b) := by simpa using hassigned
    have hsorted : n ∈ q2.assigned.mergeSort fun a b => decide (a ≤ b) :=
      heq ▸ List.mem_mergeSort.mpr hn
    exact List.mem_mergeSort.mp hsorted
  have hhas1 : ∀ n ∈ q1.assigned, Has q1 n := fun n hn => hb1.has (hb1.mem_assigned.mp hn)
  have hhas2 : ∀ n ∈ q1.assigned, Has q2 n := fun n hn =>
    hb2.has (hb2.mem_assigned.mp (hnames n hn))
  have hnotes := hb1.returns_iff
  have haccepted : ∀ {cs}, lastAssigns cs = some (!q1.returns) →
      Accepted sc.returnError.isSome (.branch pos test body orelse) cs :=
    .branch hb1.accepted hb2.accepted hb1.inside.barred hnotes
      ((by simpa using hreturns : q1.returns = q2.returns) ▸ hb2.returns_iff)
  rw [namesIn, functionsIn]
  suffices hread : Read _ _ _ (functionsOf g test) (deedsOf r.clauses) sc s6 sc' s' ∧
      lastAssigns r.clauses = some (!q1.returns) from
    ⟨Read.entering hr hreg (fun ht => (hentered1 ht).append (hentered2 ht) hreg1 hreg2) hread.1,
      haccepted hread.2⟩
  split at h
  next hret =>
    simp only [steps_bind, steps_modify, steps_lift, returns_findLocation, steps_pure] at h
    obtain ⟨_, _, _, ⟨rfl, rfl⟩, t, sc7, s7, ht, _, _, _, ⟨⟨rfl, rfl⟩, rfl⟩, rfl, rfl, rfl⟩ := h
    have h1 := read_returns hr2
    have h2 := read_conditional (hb1.of_same h1.same rfl) (hb2.of_same h1.same rfl) (endsKnown_none _)
      (endsKnown_none _) h1.ready hg ht
    refine ⟨(h1.and h2 hr2).rename (fun n => Iff.rfl) (fun n => ?_) fun n => ?_, by rw [hret]; rfl⟩
    · simp [boundBy, notesBy, branchNotes, hnotes.mp hret]
    · simp [notesBy, branchNotes, hnotes.mp hret]
  next hret =>
    have hnot : .returns ∉ notesByAll body := fun hmem => hret (hnotes.mpr hmem)
    have hD : notesBy (.branch pos test body orelse) = notesByAll body := by
      rw [notesBy, branchNotes, if_neg hnot]
    have hmem : ∀ n, n ∈ q1.assigned ↔ .sets n ∈ notesByAll body := fun n => by
      rw [hb1.mem_assigned, setByAll, mem_namesSet]
    have hfinal : ∀ {r : Reading}, Read (namesInAll g body ++ namesInAll g orelse ++ namesOf g test)
        q1.assigned (q1.assigned.map .sets) (functionsOf g test) (deedsOf r.clauses) sc s6 sc' s' →
        Read (namesInAll g body ++ namesInAll g orelse ++ namesOf g test)
          (boundBy (.branch pos test body orelse)) (notesBy (.branch pos test body orelse))
          (functionsOf g test) (deedsOf r.clauses) sc s6 sc' s' := by
      intro r hread
      refine hread.rename (fun n => Iff.rfl) (fun n => ?_) fun n => ?_
      · rw [boundBy, mem_namesSet, hD, hmem]
        simp
      · rw [hD]
        cases n with
        | sets n => simp [hmem]
        | returns => simp [hnot]
    rw [Bool.not_eq_true] at hret
    rw [hret]
    split at h
    next name hone =>
      simp only [steps_bind, steps_pure] at h
      obtain ⟨⟨a, q1'⟩, sc7, s7, ha, ⟨b, q2'⟩, sc8, s8, hb, t, sc9, s9, ht, y, sc10, s10, hy, rfl,
        rfl, rfl⟩ := h
      rw [steps_inScope] at ha hb
      obtain ⟨ha, rfl⟩ := ha
      obtain ⟨hb, rfl⟩ := hb
      have hqa := (steps_existing ha).2.1
      have hqb := (steps_existing hb).2.1
      have hmemName : name ∈ q1.assigned := by simp [hone]
      have hr3 := hr2.grows (Grows.of_quiet (hqa.trans hqb))
      have h1 := read_conditional hb1 hb2 (endsKnown_existing ha (hhas1 name hmemName))
        (endsKnown_existing hb (hhas2 name hmemName)) hr3 hg ht
      have h2 := Read.after hr2 (hqa.trans hqb).registers h1
      refine ⟨hfinal ?_, rfl⟩
      rw [hone]
      exact h2.assign hr2 hy
    next hmany =>
      simp only [steps_bind, steps_lift, returns_newId, steps_pure] at h
      obtain ⟨i, _, _, ⟨⟨rfl, rfl⟩, rfl⟩, ⟨as, q1'⟩, sc7, s7, ha, j, _, _, ⟨⟨rfl, rfl⟩, rfl⟩,
        ⟨bs, q2'⟩, sc8, s8, hb, t, sc9, s9, ht, c, sc10, s10, hc, rfl, rfl, rfl⟩ := h
      rw [steps_inScope] at ha hb
      obtain ⟨ha, rfl⟩ := ha
      obtain ⟨hb, rfl⟩ := hb
      have hqa := (steps_existings ha).2.1
      have hqb := (steps_existings hb).2.1
      have hq := (Quiet.noted s6 _).trans (hqa.trans ((Quiet.noted s7 _).trans hqb))
      have hr3 := hr2.grows (Grows.of_quiet hq)
      have h1 := read_conditional hb1 hb2 (endsKnown_existings ha hhas1)
        (endsKnown_existings hb hhas2) hr3 hg ht
      exact ⟨hfinal (read_assignAll [] (Read.after hr2 hq.registers h1) hr2 hc), assignAll_last hc⟩

end DiffLang.Reading
