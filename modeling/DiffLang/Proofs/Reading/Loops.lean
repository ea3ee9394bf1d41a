import DiffLang.Proofs.Reading.Statements

/-!
# Reading loops

A loop is read on trial first. The trial finds exactly the names that the text of the loop looks up
outside of it and those that it sets, so the second reading, which has a variable for each of them,
reaches for nothing else: the two functions of the loop are closed (`loop_made`).

With loops, all statements are covered: `read_clausesOf` says what reading any body does.
-/

namespace DiffLang.Reading

open Run Session Growth Freshness Scoping Meaning Source List

variable {sc sc1 sc2 sc' : Scope} {s s1 s2 s' : Session} {o : Option Origin} {name : String}
  {R B : List String} {D : List Note} {fs : List Header} {ds : List Deed} {g : Bool}

/-! ## The names of a loop -/

variable {p p' : Scope} {b : Bool} {names : List String} {xs : List Ident}
variable {testName items a item : Ident} {body : List Stmt} {pos : Pos} {K : List Symbol}
variable {i l j k : TermId} {v : Value} {ins args again rest : List Ident} {ns : List Note}
  {target : Expr}

theorem mem_loopNames {n : String} : n ∈ p.loopNames ↔ Free p n ∨ n ∈ p.assigned := by
  unfold Scope.loopNames Free
  simp only [mem_append, mem_filter, Bool.not_eq_true', any_eq_false, beq_iff_eq]
  constructor
  · exact fun h => h.imp_right fun h => h.1
  · intro h
    by_cases hf : n ∈ p.free.map Prod.fst
    · exact .inl hf
    · refine .inr ⟨h.resolve_left hf, fun b hb heq => hf ?_⟩
      exact mem_map.mpr ⟨b, hb, heq⟩

theorem trial_loopNames (hin : Inside sc p b false []) (h : Read R B D fs ds p s p' s') (n : String) :
    n ∈ p'.loopNames ↔ (n ∈ R ∧ (Has sc n ∨ Visible sc n)) ∨ .sets n ∈ D := by
  have hnot : ¬ Has p n := by simp [Has, hin.bindings]
  rw [mem_loopNames, h.free, h.assigned, hin.visible, hin.assigned]
  simp [Free, hin.free, hnot]

theorem settled_loop (hin : Inside sc p b false [])
    (hnames : ∀ n ∈ R, Has sc n ∨ Visible sc n → n ∈ names) : Settled (without R names) p := by
  refine .inr fun n hn hv => ?_
  obtain ⟨hR, hnot⟩ := mem_without.mp hn
  exact absurd (hnames n hR (hin.visible.mp hv)) hnot

theorem Inside.knowsNothing {c : Bool} (h : Inside sc p b c []) : Knows p [] := by
  intro n x hx
  rw [h.bindings] at hx
  cases hx

theorem loop_made {body : Term} (hin : Inside sc p sc.trial false []) (ht : sc.trial = false)
    (hread : Read (without R names) B D fs (.set (xs.map (·.sym)) :: ds) p s p' s')
    (hnames : ∀ n ∈ R, Has sc n ∨ Visible sc n → n ∈ names)
    (hbody : ∀ K, xs.map (·.sym) ⊆ K → Covered K ds → Knows p' (sets ds ++ K) → Fulfils K ds body)
    (g : Option GeneratorId) : Made { params := xs, body, generator := g } := by
  obtain ⟨F, hF⟩ := hread.tidy (by rw [hin.trial]; exact ht) (settled_loop hin hnames)
  have hmade := hF.made hin.free hin.knowsNothing hread.private hbody g
  have hfree : p'.free = [] := by
    rw [hF.free, hin.free, hF.unpulled hin.pull]
    rfl
  rwa [hfree] at hmade

theorem loop_params (hin : Inside sc p sc.trial false []) (ht : sc.trial = false)
    (hread : Read R B D fs (.set (xs.map (·.sym)) :: ds) p s p' s') (hset : Settled R p) :
    (xs.map (·.sym)).Nodup ∧ ∀ x ∈ xs.map (·.sym), x.isGlobal = false := by
  obtain ⟨F, hF⟩ := hread.tidy (by rw [hin.trial]; exact ht) hset
  have hfresh := hF.fresh
  rw [hF.unpulled hin.pull, symbols_nil, nil_append, sets] at hfresh
  exact ⟨(nodup_append.mp hfresh.nodup).1,
    fun x hx => hread.private.isGlobal hfresh (mem_append_left _ hx)⟩

/-- What is computed in a loop's function before anything is set uses its parameters only. -/
theorem loop_bound {t : Term} (hin : Inside sc p sc.trial false []) (ht : sc.trial = false)
    (hread : Read (without R names) B D fs [.set (xs.map (·.sym)), .compute t] p s p' s')
    (hnames : ∀ n ∈ R, Has sc n ∨ Visible sc n → n ∈ names) :
    Bound (xs.map (·.sym)) t ∧ straight t = true ∧ (xs.map (·.sym)).Nodup ∧
      ∀ x ∈ xs.map (·.sym), x.isGlobal = false := by
  obtain ⟨F, hF⟩ := hread.tidy (by rw [hin.trial]; exact ht) (settled_loop hin hnames)
  have hnone := hF.unpulled hin.pull
  have hcov := hF.covered (xs.map (·.sym)) ((hin.knowsNothing.mono (nil_subset _)).on _)
    (by simp [hnone])
  exact ⟨hcov.1.1.mono (append_subset.mpr ⟨List.Subset.refl _, List.Subset.refl _⟩), hcov.1.2,
    loop_params hin ht hread (settled_loop hin hnames)⟩

theorem existings_mem {ys : List Ident} (h : ∀ x ∈ xs, ∃ n ∈ names, ∃ free, Found sc n free x)
    (hnames : ∀ n ∈ names, ∃ y ∈ ys, sc.bindings.lookup n = some y) :
    ∀ x ∈ xs, x.sym ∈ ys.map (·.sym) := by
  intro x hx
  obtain ⟨n, hn, free, hf⟩ := h x hx
  obtain ⟨y, hy, hlook⟩ := hnames n hn
  obtain ⟨z, hz, hsym⟩ := hf.of_has (by simp [Has, hlook])
  rw [hlook] at hz
  injection hz with hz
  rw [hsym, ← hz]
  exact mem_map.mpr ⟨y, hy, rfl⟩

/-- A term over known variables that binds none. -/
abbrev Plain (K : List Symbol) (t : Term) : Prop := Bound K t ∧ straight t = true

theorem steps_registerTest {test loopFn : Term} {initial : List Ident} {u : Unit}
    (h : Steps (registerTest testName test loopFn ins initial) o sc s u sc' s')
    (hok : sc.trial = false → testName.sym.isGlobal = true ∧
      Plain (ins.map (·.sym)) test ∧ Plain (ins.map (·.sym)) loopFn ∧
      (∀ x ∈ initial, x.sym ∈ ins.map (·.sym)) ∧ (ins.map (·.sym)).Nodup ∧
        ∀ x ∈ ins.map (·.sym), x.isGlobal = false) : sc = sc' ∧ Registers s s' := by
  unfold registerTest at h
  simp only [steps_bind, steps_lift, returns_closure, returns_tuple, returns_apply, steps_pure,
    and_assoc, exists_and_left, exists_eq_left'] at h
  obtain ⟨f, _, s1, hf, rfl, stopFn, _, s2, hstopFn, rfl, fn, _, _, hreg, -, rfl, rfl⟩ := h
  obtain ⟨⟨i, rfl⟩, hq1⟩ := quiet_builtin hf
  obtain ⟨⟨j, rfl⟩, hq2⟩ := quiet_builtin hstopFn
  have hquiet := hq1.trans ((Quiet.noted _ o).trans (hq2.trans ((Quiet.noted _ o).trans
    ((Quiet.noted _ o).trans ((Quiet.noted _ o).trans (Quiet.noted _ o))))))
  obtain ⟨-, rfl, hreg', -⟩ := steps_register hreg fun ht => by
    obtain ⟨hglobal, htest, hloop, hinitial, hnodup, hlocals⟩ := hok ht
    have hins : BoundAll (ins.map (·.sym)) (ins.map .ident) :=
      boundAll_idents.mpr fun x hx => .inr (mem_map.mpr ⟨x, hx, rfl⟩)
    have hfinal : BoundAll (ins.map (·.sym)) (initial.map .ident) :=
      boundAll_idents.mpr fun x hx => .inr (hinitial x hx)
    have hmade : ∀ {t : Term}, Bound (ins.map (·.sym)) t → straight t = true → ∀ g,
        Made { params := ins, body := t, generator := g } := fun {t} hb hs g =>
      ⟨⟨hb, by simpa [binders_of_straight t hs] using hnodup⟩, hlocals, .straight hs⟩
    refine ⟨hglobal, hmade ?_ ?_⟩
    · simp only [bound_apply, boundAll_cons, bound_closure, bound_tuple, bound_builtin, boundAll_nil,
        htest.1, hloop.1, hins, hfinal, and_self]
    · simp [straight, straightAll, htest.2, hloop.2, straightAll_idents]
  exact ⟨rfl, hquiet.registers.trans hreg'⟩

/-! ## Scopes of loops -/

theorem steps_onTrial {α : Type} {act : Reader α} {q : Scope}
    (hact : ∀ ⦃o sc sc' s s' a⦄, Steps act o sc s a sc' s' → Ready sc s → sc.grouping.isSome = g →
      ∃ ds cs, Read R B D fs ds sc s sc' s' ∧ AcceptedAll sc.returnError.isSome body cs)
    (h : Steps (onTrial act) o sc s q sc' s') (hr : Ready sc s) (hg : sc.grouping.isSome = g) :
    sc = sc' ∧ Registers s s' ∧ (∃ cs, AcceptedAll true body cs) ∧
      (∀ n, n ∈ q.assigned ↔ .sets n ∈ D) ∧
      ∀ n, n ∈ q.loopNames ↔ (n ∈ R ∧ (Has sc n ∨ Visible sc n)) ∨ .sets n ∈ D := by
  unfold onTrial at h
  simp only [steps_bind, steps_pure, Prod.exists, steps_inScope] at h
  obtain ⟨p, sc1, s1, hp, a, q, _, s2, ⟨ha, rfl⟩, rfl, rfl, rfl⟩ := h
  obtain ⟨rfl, hreg, hin, hready, -⟩ := steps_inner hp hr
  -- that a loop cannot be left changes nothing else about its scope
  have hin' : Inside sc { p with returnError := some "Cannot return in while loops." } true false
      [] :=
    ⟨hin.outer, hin.trial, hin.pull, hin.grouping, hin.bindings, hin.free, hin.assigned,
      hin.returns, fun _ => rfl⟩
  have hready' : Ready { p with returnError := some "Cannot return in while loops." } s1 :=
    ⟨hready.sound, hready.generator, hready.globals, hready.pulled, hready.labelled⟩
  obtain ⟨ds, cs, hread, haccepted⟩ := hact ha hready' (by rw [hin'.grouping]; exact hg)
  refine ⟨rfl, hreg.trans hread.registers, ⟨cs, haccepted⟩, fun n => ?_, trial_loopNames hin' hread⟩
  rw [hread.assigned, hin'.assigned]
  simp

theorem steps_loopScope {α : Type} {ref : Ident} {vars : Reader α} {a : α}
    (h : Steps (loopScope ref vars) o sc s (a, p') sc' s') (hr : Ready sc s) :
    sc = sc' ∧ ∃ p s1, Registers s s1 ∧ Inside sc p sc.trial false [] ∧ Ready p s1 ∧
      Steps vars o p s1 a p' s' := by
  unfold loopScope at h
  rw [steps_get_bind] at h
  simp only [steps_bind, steps_inScope] at h
  obtain ⟨p, sc1, s1, hp, h, rfl⟩ := h
  obtain ⟨rfl, hreg, hin, hready, -⟩ := steps_inner hp hr
  exact ⟨rfl, p, s1, hreg, hin, hready, h⟩

theorem read_loopCall (hglobal : sc.trial = false → testName.sym.isGlobal = true) (hr : Ready sc s)
    (hargs : Steps (names.mapM occurrence) o sc s args sc1 s1) (i : TermId) :
    Read names [] [] [] [.compute (.apply i (.ident testName) (args.map .ident))] sc s sc1
      (noted s1 o) := by
  refine Read.before hr ((read_occurrences hargs hr).reshape (by simp [sets]) fun ht K hK =>
    ⟨⟨?_, ?_⟩, trivial⟩) (Quiet.noted _ _).registers
  · exact bound_apply.mpr ⟨bound_ident.mpr (.inl (hglobal ht)), (covered_computes.mp hK).1⟩
  · rw [straight, straight_ident, straightAll_idents]
    rfl

/-! ## Loops with a test -/

theorem read_round {test : Expr} (hbody : FollowsBody g body)
    ⦃o : Option Origin⦄ ⦃sc sc' : Scope⦄ ⦃s s' : Session⦄ ⦃gs : List (Bool × List Clause)⦄
    (h : Steps (do let _ ← expr test; grouped (clausesOf body)) o sc s gs sc' s') (hr : Ready sc s)
    (hg : sc.grouping.isSome = g) :
    ∃ ds cs, Read (namesOf g test ++ namesInAll g body) (boundByAll body) (notesByAll body)
      (functionsOf g test ++ functionsInAll g body) ds sc s sc' s' ∧ AcceptedAll sc.returnError.isSome body cs := by
  rw [steps_bind] at h
  obtain ⟨t, sc1, s1, ht, h⟩ := h
  rw [steps_grouped] at h
  obtain ⟨cs, hcs, -⟩ := h
  have h1 := read_expr g test ht hr hg
  obtain ⟨h2, ha⟩ := hbody hcs h1.ready (h1.same.grouped hg)
  exact ⟨_, cs, h1.and h2 hr, h1.same.returnError ▸ ha⟩

theorem loop_names (h : ∀ n, n ∈ names ↔ (n ∈ R ∧ (Has sc n ∨ Visible sc n)) ∨ .sets n ∈ ns) :
    names ⊆ R ++ namesSet ns ∧ ∀ n ∈ R ++ namesSet ns, Visible sc n → n ∈ names := by
  constructor
  · intro n hn
    rcases (h n).mp hn with ⟨hR, -⟩ | hset
    · exact mem_append.mpr (.inl hR)
    · exact mem_append.mpr (.inr (mem_namesSet.mpr hset))
  · intro n hn hv
    rcases mem_append.mp hn with hR | hset
    · exact (h n).mpr (.inl ⟨hR, .inr hv⟩)
    · exact (h n).mpr (.inr (mem_namesSet.mp hset))

theorem loop_notes {outs : List String} (h : ∀ n, n ∈ outs ↔ .sets n ∈ ns) :
    (∀ n, n ∈ outs ↔ n ∈ namesSet ((namesSet ns).map .sets)) ∧
      ∀ m, m ∈ outs.map Note.sets ↔ m ∈ (namesSet ns).map .sets := by
  constructor
  · intro n
    simp [h]
  · intro m
    simp [h]

theorem read_while {test : Expr} (hbody : FollowsBody g body) :
    FollowsStmt g (.whileLoop pos test body) := by
  intro o sc sc' s s' r h hr hg
  rw [stmt.eq_def] at h
  simp only [steps_located, steps_bind, steps_lift, steps_inScope, steps_grouped, returns_apply,
    steps_pure, Prod.exists, and_assoc, exists_and_left, exists_eq_left'] at h
  obtain ⟨testName, sc1, s1, htestName, bodyName, sc2, s2, hbodyName, h⟩ := h
  obtain ⟨rfl, hreg1, hglobal1⟩ := steps_partName htestName hr
  obtain ⟨rfl, hreg2, hglobal2⟩ := steps_partName hbodyName (hr.grows hreg1.grows)
  have hreg2 := hreg1.trans hreg2
  -- the trial
  obtain ⟨q, sc1, s3, hq, h⟩ := h
  obtain ⟨rfl, hreg3, ⟨_, haccepted⟩, hassigned, hloop⟩ := steps_onTrial (read_round hbody) hq
    (hr.grows hreg2.grows) hg
  have hreg3 := hreg2.trans hreg3
  have hr3 := hr.grows hreg3.grows
  have hnames : ∀ n ∈ namesOf g test ++ namesInAll g body, Has sc n ∨ Visible sc n →
      n ∈ q.loopNames := fun n hn hv => (hloop n).mpr (.inl ⟨hn, hv⟩)
  have hsub : ∀ n ∈ q.assigned, n ∈ q.loopNames := fun n hn => mem_loopNames.mpr (.inr hn)
  -- the scopes of the two functions
  obtain ⟨ins, p1, sc1, s4, hins, ins2, pp1, sc2, s6, hins2, h⟩ := h
  obtain ⟨rfl, p, s5, hregp, hinp, hreadyp, hins⟩ := steps_loopScope hins hr3
  obtain ⟨hp1, -, hlook⟩ := read_newVariables hins hreadyp
  have hreg4 := hreg3.trans (hregp.trans hp1.registers)
  obtain ⟨rfl, pp, s7, hregpp, hinpp, hreadypp, hins2⟩ := steps_loopScope hins2 (hr.grows hreg4.grows)
  obtain ⟨hpp1, -⟩ := read_newVariables hins2 hreadypp
  obtain ⟨initial, p2, _, s8, hinitial, rfl, t, p3, _, s9, ht, rfl, h⟩ := h
  obtain ⟨rfl, hquiet, hfound⟩ := steps_existings hinitial
  have hreg8 := hregpp.trans (hpp1.registers.trans hquiet.registers)
  -- the test
  have hgp : p1.grouping.isSome = g := hp1.same.grouped (by rw [hinp.grouping]; exact hg)
  have htest := read_expr g test ht (hp1.ready.grows hreg8.grows) hgp
  have hp3 := hp1.append (Read.after hp1.ready hreg8 htest) hreadyp
  -- the body
  obtain ⟨gs, pp2, _, s10, ⟨cs, hcs, rfl⟩, rfl, again, pp3, _, s11, hagain, rfl, h⟩ := h
  have hreg9 := hquiet.registers.trans htest.registers
  have hgpp : pp1.grouping.isSome = g := hpp1.same.grouped (by rw [hinpp.grouping]; exact hg)
  obtain ⟨hbody', -⟩ := hbody hcs (hpp1.ready.grows hreg9.grows) hgpp
  have hpp2 := hpp1.append (Read.after hpp1.ready hreg9 hbody') hreadypp
  have hhas : ∀ n ∈ q.loopNames, Has pp2 n := by
    intro n hn
    rw [hpp2.has]
    exact .inr (.inl (mem_append.mpr (.inl hn)))
  obtain ⟨rfl, hquiet', hfound'⟩ := steps_existings hagain
  obtain ⟨b, _, s13, hb, rfl, loopFn, sc1, s14, hloopFn, h⟩ := h
  obtain ⟨hquiet'', hful⟩ := finish_groups hb
  obtain ⟨o', hloopFn⟩ := steps_of_aboutPlaceOf hloopFn
  obtain ⟨rfl, rfl, hregB, -⟩ := steps_register hloopFn fun htrial => by
    refine ⟨hglobal2 htrial, loop_made hinpp htrial hpp2 (fun n hn => hnames n (by simp [hn])) ?_⟩
    intro K _ hcov hknown
    refine hful K hcov fun r hr => ?_
    injection hr with hr
    subst hr
    refine ⟨bound_apply.mpr ⟨bound_ident.mpr (.inl (hglobal1 htrial)), ?_⟩, ?_⟩
    · exact existings_bound hfound' hhas hknown
    · rw [straight, straight_ident, straightAll_idents]
      rfl
  -- the function of the test
  obtain ⟨u, sc1, s15, hregTest, args, sc2, s16, hargs, c, sc3, s18, hc, rfl, rfl, rfl⟩ := h
  obtain ⟨rfl, hregT⟩ := steps_registerTest hregTest fun htrial => by
    obtain ⟨h1, h2, h3⟩ := loop_bound hinp htrial hp3 fun n hn => hnames n (by simp [hn])
    refine ⟨hglobal1 htrial, ⟨h1, h2⟩, ⟨bound_ident.mpr (.inl (hglobal2 htrial)),
      straight_ident _⟩, existings_mem hfound fun n hn => ?_, h3⟩
    exact (hlook n).resolve_left fun h => h.2 (hsub n hn)
  have hparts := htest.registers.trans hbody'.registers
  have hrest := (hquiet'.trans ((Quiet.noted _ _).trans hquiet'')).registers.trans (hregB.trans hregT)
  have hreg := (hreg4.trans hreg8).trans (hparts.trans hrest)
  have hentered : sc.trial = false → Entered (functionsIn g (.whileLoop pos test body)) s s15 := by
    intro htrial
    have h1 := htest.entered (hp1.same.trial.trans (hinp.trial.trans htrial))
    have h2 := hbody'.entered (hpp1.same.trial.trans (hinpp.trial.trans htrial))
    rw [functionsIn]
    exact ((hreg4.trans hreg8).entered
      (h1.append h2 htest.registers hbody'.registers)).before hrest
  have hr' := hr.grows hreg.grows
  -- the call of the loop
  have hcall := read_loopCall hglobal1 hr' hargs s16.origins.size
  obtain ⟨hsubset, hvisible⟩ := loop_names hloop
  have hset := (read_assignAll [] hcall hr' hc).entering hr hreg hentered
  refine ⟨(hset.reading (append_nil _)).congr (fun n hn => ?_) (fun n hn hv => ?_) (fun n => ?_)
    fun n => ?_, .loop haccepted (assignAll_last hc) (by rw [exit]) (by rw [notesBy])
      (by rw [definedIn]) rfl⟩
  · rw [namesIn, setByAll]
    exact hsubset hn
  · rw [namesIn, setByAll] at hn
    exact hvisible n hn hv
  · rw [boundBy, notesBy]
    · exact (loop_notes hassigned).1 n
    · simp
  · rw [notesBy]
    exact (loop_notes hassigned).2 n

/-! ## Loops over a list -/

theorem read_iterationVariables
    (h : Steps (iterationVariables target names) o sc s (a, items, item, ins) sc' s')
    (hr : Ready sc s) :
    ∃ own rest, ins = a :: items :: rest ∧
      Read [] (own ++ names) [] [] [.set (ins.map (·.sym)), .set [item.sym]] sc s sc' s' ∧
      ∀ n ∈ names, ∃ x ∈ ins, sc'.bindings.lookup n = some x := by
  unfold iterationVariables at h
  simp only [steps_bind] at h
  obtain ⟨a', sc1, s1, ha, items', sc2, s2, hitems, h⟩ := h
  have h1 := read_newVariable ha hr
  have h2 := read_newVariable hitems h1.ready
  cases hname : plainName? target with
  | none =>
    rw [hname] at h
    obtain ⟨_, _, _, h, -⟩ := steps_bind.mp h
    exact (steps_throw.mp h).elim
  | some name =>
    rw [hname] at h
    simp only [steps_bind, steps_pure] at h
    obtain ⟨item', sc3, s3, hitem, rest, sc4, s4, hrest, hall, rfl, rfl⟩ := h
    injection hall with ha' hall
    injection hall with hitems' hall
    injection hall with hitem' hins
    subst ha' hitems' hitem' hins
    have h3 := read_newVariable hitem h2.ready
    obtain ⟨h4, -, hlook⟩ := read_newVariables hrest h3.ready
    have h := ((h1.append h2 hr).append h3 hr).append h4 hr
    refine ⟨["~it~", "~li~", name], rest, rfl, ?_, fun n hn => ?_⟩
    · have hcov : ∀ K, Covered K [.set ((a' :: items' :: rest).map (·.sym)), .set [item'.sym]] :=
        fun _ => trivial
      refine (h.reshape ?_ fun _ K _ => hcov K).rename (by simp) (by simp) (by simp)
      simp only [sets, map_cons, cons_append, nil_append, append_nil]
      refine List.Perm.cons _ (List.Perm.cons _ ?_)
      exact (perm_append_singleton _ _).symm
    · obtain ⟨x, hx, hlook⟩ := (hlook n).resolve_left fun h => h.2 hn
      exact ⟨x, by simp [hx], hlook⟩

theorem bound_nextRound (hglobal : testName.sym.isGlobal = true) (ha : a.sym ∈ K)
    (hitems : items.sym ∈ K) (hagain : BoundAll K (again.map .ident)) :
    Plain K (.apply i (.ident testName) (.apply j (.ident ⟨k, .builtin "add"⟩)
      [.ident a, .literal l v] :: .ident items :: again.map .ident)) := by
  have ha : Bound K (.ident a) := bound_ident.mpr (.inr ha)
  have hitems : Bound K (.ident items) := bound_ident.mpr (.inr hitems)
  have htest : Bound K (.ident testName) := bound_ident.mpr (.inl hglobal)
  constructor
  · simp only [bound_apply, boundAll_cons, htest, ha, hitems, hagain, bound_builtin, bound_literal,
      boundAll_nil, and_self]
  · simp [straight, straightAll, straightAll_idents]

theorem bound_firstRound {list : Ident} (hglobal : testName.sym.isGlobal = true)
    (hargs : BoundAll K (args.map .ident)) :
    Plain ([list.sym] ++ K)
      (.apply i (.ident testName) (.literal l v :: .ident list :: args.map .ident)) := by
  have htest : Bound ([list.sym] ++ K) (.ident testName) := bound_ident.mpr (.inl hglobal)
  have hlist : Bound ([list.sym] ++ K) (.ident list) := bound_ident.mpr (.inr (by simp))
  have hargs := hargs.mono (subset_append_right [list.sym] K)
  constructor
  · simp only [bound_apply, boundAll_cons, htest, hlist, hargs, bound_literal, and_self]
  · simp [straight, straightAll, straightAll_idents]

theorem read_hidden {x : Symbol} {y : Ident} (hr : Ready sc s)
    (hx : Returns (freshPlain sc.generator name) o s x s1) (hy : Returns (ident x) o s1 y s') :
    Read [] [] [] [] [.set [y.sym]] sc s sc s' := by
  rw [returns_freshPlain] at hx
  obtain ⟨rfl, rfl⟩ := hx
  rw [returns_ident] at hy
  obtain ⟨rfl, rfl⟩ := hy
  have hgrows : Grows s (noted (afterPlain s sc.generator name none) o) :=
    grows_afterPlain.trans (grows_noted _ _)
  refine { Read.still (Registers.of_grows hgrows ⟨rfl, rfl⟩) hr with tidy := fun _ _ => ⟨[], ?_⟩ }
  exact ⟨(append_nil _).symm, fun _ => rfl, fresh_singleton (new_afterPlain hr.generator.1),
    fun _ _ _ => trivial, fun n z hz => .inl ⟨by simp, hz⟩⟩

def elementAt (i j : TermId) (items a : Ident) : Term :=
  .apply i (.ident ⟨j, .builtin "index"⟩) [.ident items, .ident a]

theorem bound_elementAt (ha : a.sym ∈ K) (hitems : items.sym ∈ K) :
    Plain K (elementAt i j items a) := by
  have ha : Bound K (.ident a) := bound_ident.mpr (.inr ha)
  have hitems : Bound K (.ident items) := bound_ident.mpr (.inr hitems)
  constructor
  · simp only [elementAt, bound_apply, boundAll_cons, ha, hitems, bound_builtin, boundAll_nil,
      and_self]
  · simp [elementAt, straight, straightAll]

theorem bound_positionTest (ha : a.sym ∈ K) (hitems : items.sym ∈ K) :
    Plain K (.apply i (.ident ⟨j, .builtin "less"⟩)
      [.ident a, .apply k (.ident ⟨l, .builtin "len"⟩) [.ident items]]) := by
  have ha : Bound K (.ident a) := bound_ident.mpr (.inr ha)
  have hitems : Bound K (.ident items) := bound_ident.mpr (.inr hitems)
  constructor
  · simp only [bound_apply, boundAll_cons, ha, hitems, bound_builtin, boundAll_nil, and_self]
  · simp [straight, straightAll]

theorem iteration_deeds
    (h : Read R B D fs (.set ((a :: items :: rest).map (·.sym)) :: .set [item.sym] :: ds) p s p' s')
    (i j : TermId) :
    Read R B D fs (.set ((a :: items :: rest).map (·.sym)) ::
      (deedsOf [.assign (.name item) (elementAt i j items a)] ++ ds)) p s p' s' := by
  refine h.reshape (List.Perm.refl _) fun _ K hK => ⟨bound_elementAt ?_ ?_, hK⟩
  · simp
  · simp

theorem iteration_fulfils {m n : TermId} {b : Term} (id : TermId)
    (hglobal : testName.sym.isGlobal = true) (hins : (a :: items :: rest).map (·.sym) ⊆ K)
    (hcov : Covered K (deedsOf [.assign (.name item) (elementAt m n items a)] ++ ds))
    (hagain : BoundAll (sets (deedsOf [.assign (.name item) (elementAt m n items a)] ++ ds) ++ K)
      (again.map .ident))
    (hful : ∀ K, Covered K ds → Ending (sets ds ++ K) (some (.apply i (.ident testName)
      (.apply j (.ident ⟨k, .builtin "add"⟩) [.ident a, .literal l v] :: .ident items ::
        again.map .ident))) → Fulfils K ds b) :
    Fulfils K (deedsOf [.assign (.name item) (elementAt m n items a)] ++ ds)
      (.bind id [(.ident item, elementAt m n items a)] b) := by
  obtain ⟨h1, h2⟩ := covered_append.mp hcov
  have ha : a.sym ∈ K := hins (by simp)
  have hitems : items.sym ∈ K := hins (by simp)
  have hall : ∀ c ∈ [Clause.assign (.name item) (elementAt m n items a)], c.isAssign = true := by
    simp [Clause.isAssign]
  refine fulfils_bind hall h1 (hful _ h2 fun r hr => ?_)
  injection hr with hr
  subst hr
  refine bound_nextRound hglobal (by simp [ha]) (by simp [hitems]) (hagain.mono ?_)
  intro x hx
  simp only [sets_append, mem_append] at hx ⊢
  grind

theorem read_for {iter : Expr} {hasElse : Bool} (hbody : FollowsBody g body) :
    FollowsStmt g (.forLoop pos target iter body hasElse) := by
  intro o sc sc' s s' r h hr hg
  rw [stmt.eq_def] at h
  simp only [steps_located, steps_guard, steps_bind, steps_lift, steps_inScope, steps_grouped,
    steps_get, returns_apply, returns_literal, returns_binding, steps_pure, Prod.exists, and_assoc,
    exists_and_left, exists_eq_left'] at h
  -- nothing depends on where the statement stands
  generalize (some _ : Option Origin) = o at h
  obtain ⟨-, testName, sc1, s1, htestName, bodyName, sc2, s2, hbodyName, h⟩ := h
  obtain ⟨rfl, hreg1, hglobal1⟩ := steps_partName htestName hr
  obtain ⟨rfl, hreg2, hglobal2⟩ := steps_partName hbodyName (hr.grows hreg1.grows)
  have hreg2 := hreg1.trans hreg2
  -- the trial
  obtain ⟨q, sc1, s3, hq, h⟩ := h
  obtain ⟨rfl, hreg3, ⟨_, haccepted⟩, hassigned, hloop⟩ := steps_onTrial (fun _ _ _ _ _ _ h hr hg => by
    obtain ⟨cs, hcs, -⟩ := steps_grouped.mp h
    exact ⟨_, cs, hbody hcs hr hg⟩) hq (hr.grows hreg2.grows) hg
  have hreg3 := hreg2.trans hreg3
  have hsub : ∀ n ∈ q.assigned, n ∈ q.loopNames := fun n hn => mem_loopNames.mpr (.inr hn)
  -- the scope of the body
  obtain ⟨a, items, item, ins, p1, sc1, s4, hins, initial, p2, _, s6, hinitial, rfl, h⟩ := h
  obtain ⟨rfl, p, s5, hregp, hinp, hreadyp, hins⟩ := steps_loopScope hins (hr.grows hreg3.grows)
  obtain ⟨own, rest, rfl, hp1, hlook⟩ := read_iterationVariables hins hreadyp
  have hreg4 := hreg3.trans (hregp.trans hp1.registers)
  have hnames : ∀ n ∈ namesInAll g body, Has sc n ∨ Visible sc n → n ∈ own ++ q.loopNames :=
    fun n hn hv => mem_append.mpr (.inr ((hloop n).mpr (.inl ⟨hn, hv⟩)))
  obtain ⟨rfl, hquiet1, hfound⟩ := steps_existings hinitial
  -- the test
  obtain ⟨less, _, s7, hless, rfl, len, _, s8, hlen, rfl, h⟩ := h
  obtain ⟨⟨i1, rfl⟩, hquiet2⟩ := quiet_builtin hless
  obtain ⟨⟨i2, rfl⟩, hquiet3⟩ := quiet_builtin hlen
  have hregT := (hquiet1.trans (hquiet2.trans (hquiet3.trans
    ((Quiet.noted _ o).trans (Quiet.noted _ o))))).registers
  -- the body
  obtain ⟨gs, p3, _, s11, ⟨cs, hcs, rfl⟩, rfl, add, _, s12, hadd, rfl, h⟩ := h
  have hgp : p1.grouping.isSome = g := hp1.same.grouped (by rw [hinp.grouping]; exact hg)
  obtain ⟨hbody', -⟩ := hbody hcs (hp1.ready.grows hregT.grows) hgp
  have hp3 := hp1.append (Read.after hp1.ready hregT hbody') hreadyp
  have hhas : ∀ n ∈ q.loopNames, Has p3 n := by
    intro n hn
    rw [hp3.has]
    exact .inr (.inl (mem_append.mpr (.inl (mem_append.mpr (.inr hn)))))
  obtain ⟨⟨i3, rfl⟩, hquiet4⟩ := quiet_builtin hadd
  obtain ⟨again, p4, _, s15, hagain, rfl, b, _, s17, hb, rfl, index, _, s18, hindex, rfl, h⟩ := h
  obtain ⟨rfl, hquiet5, hfound'⟩ := steps_existings hagain
  obtain ⟨hquiet6, hful⟩ := finish_groups hb
  obtain ⟨⟨i4, rfl⟩, hquiet7⟩ := quiet_builtin hindex
  have hregB := (hquiet4.trans ((Quiet.noted _ o).trans ((Quiet.noted _ o).trans
    (hquiet5.trans ((Quiet.noted _ o).trans (hquiet6.trans (hquiet7.trans ((Quiet.noted _ o).trans
      (Quiet.noted _ o))))))))).registers
  -- the functions of the body and of the test
  obtain ⟨loopFn, sc1, s21, hloopFn, u, sc2, s22, hregTest, h⟩ := h
  obtain ⟨o', hloopFn⟩ := steps_of_aboutPlaceOf hloopFn
  obtain ⟨rfl, rfl, hregF, -⟩ := steps_register hloopFn fun htrial => by
    refine ⟨hglobal2 htrial, loop_made hinp htrial
      (iteration_deeds hp3 s18.origins.size i4) hnames ?_⟩
    intro K hins hcov hknown
    exact iteration_fulfils _ (hglobal1 htrial) hins hcov (existings_bound hfound' hhas hknown) hful
  obtain ⟨rfl, hregU⟩ := steps_registerTest hregTest fun htrial => by
    refine ⟨hglobal1 htrial, bound_positionTest (by simp) (by simp),
      ⟨bound_ident.mpr (.inl (hglobal2 htrial)), straight_ident _⟩,
      existings_mem hfound fun n hn => hlook n (hsub n hn), ?_⟩
    exact loop_params hinp htrial hp1 (.inr (by simp))
  have hrest := hregB.trans (hregF.trans hregU)
  have hreg := (hreg4.trans hregT).trans (hbody'.registers.trans hrest)
  have hentered : sc.trial = false → Entered (functionsInAll g body) s s22 := fun htrial =>
    ((hreg4.trans hregT).entered (hbody'.entered (hp1.same.trial.trans
      (hinp.trial.trans htrial)))).before hrest
  have hr' := hr.grows hreg.grows
  -- the call of the loop, on a variable for the list
  obtain ⟨x, _, s23, hx, rfl, listVar, _, s24, hvar, rfl, h⟩ := h
  have hlist := read_hidden hr' hx hvar
  obtain ⟨args, sc1, s26, hargs, list, sc2, s28, hiter, loc, _, s29, hloc, rfl, h⟩ := h
  obtain ⟨c, sc3, s30, hc, rfl, rfl, rfl⟩ := h
  have h1 := read_occurrences hargs (hlist.ready.grows (grows_noted _ _))
  have h2 := Read.after hlist.ready (Quiet.noted _ o).registers (Read.before
    (hlist.ready.grows (grows_noted _ _)) h1 (Quiet.noted _ o).registers)
  have h3 := h2.and (read_expr g iter hiter h2.ready (h2.same.grouped hg)) hlist.ready
  have hcall := Read.before hr' (hlist.set_last h3 hr' (by simp [sets]) (by simp) fun _ hK => hK)
    (Quiet.currentLocation hloc).registers
  obtain ⟨hsubset, hvisible⟩ := loop_names hloop
  rw [functionsIn]
  refine ⟨((read_assignAll [.compute list, .set [listVar.sym]]
    (hcall.reshape ?_ fun ht K hK => ?_) hr' hc).congr (fun n hn => ?_) (fun n hn hv => ?_)
    (fun n => ?_) fun n => ?_).entering hr hreg hentered, .loop haccepted (assignAll_last hc)
      (by rw [exit]) (by rw [notesBy]) (by rw [definedIn]) rfl⟩
  · simp [sets]
  · obtain ⟨hK, -⟩ := covered_append.mp hK
    obtain ⟨hargs, hiter⟩ := covered_append.mp hK
    rw [sets_computes] at hiter
    exact ⟨hiter.1, bound_firstRound (hglobal1 ht) (covered_computes.mp hargs).1, trivial⟩
  · rw [namesIn, setByAll]
    exact append_subset.mpr ⟨List.Subset.trans hsubset (subset_append_left _ _),
      subset_append_right _ _⟩ hn
  · rw [namesIn, setByAll] at hn
    rcases mem_append.mp hn with hn | hn
    · exact mem_append.mpr (.inl (hvisible n hn hv))
    · exact mem_append.mpr (.inr hn)
  · rw [boundBy, notesBy]
    · exact (loop_notes hassigned).1 n
    · simp
  · rw [notesBy]
    exact (loop_notes hassigned).2 n

/-! ## All statements -/

theorem read_other {kind : String} : FollowsStmt g (.other pos kind) := by
  intro o sc sc' s s' r h hr hg
  rw [stmt.eq_def] at h
  obtain ⟨_, _, _, -, h⟩ := steps_bind.mp h
  exact absurd h (by simp [unrecognized])

theorem nothing_left {cs : List Clause} (h : Steps (clausesOf body) o sc s cs sc' s')
    (hleft : sc.returns = true) : body = [] := by
  cases body with
  | nil => rfl
  | cons st rest =>
    rw [clausesOf, steps_get_bind] at h
    obtain ⟨_, _, _, -, h⟩ := steps_bind.mp h
    simp only [steps_guard] at h
    rw [hleft] at h
    cases h.1

mutual

theorem read_stmt (g : Bool) : ∀ st : Stmt, FollowsStmt g st
  | .assign .. => read_assign
  | .augment .. => read_augment
  | .expr .. => read_exprStmt
  | .ret .. => read_ret
  | .raise .. => read_raise
  | .define _ _ _ _ body => read_define (read_clausesOf g body)
  | .branch _ _ body orelse => read_branch (read_clausesOf g body) (read_clausesOf g orelse)
  | .whileLoop _ _ body => read_while (read_clausesOf g body)
  | .forLoop _ _ _ body _ => read_for (read_clausesOf g body)
  | .other .. => read_other

theorem read_clausesOf (g : Bool) : ∀ body : List Stmt, FollowsBody g body
  | [] => by
    intro o sc sc' s s' cs h hr hg
    rw [clausesOf, steps_pure] at h
    obtain ⟨rfl, rfl, rfl⟩ := h
    rw [namesInAll, notesByAll, functionsInAll]
    exact ⟨Read.still (Registers.refl s) hr, .nil⟩
  | st :: rest => by
    intro o sc sc' s s' cs h hr hg
    rw [clausesOf] at h
    rw [steps_get_bind] at h
    simp only [steps_bind] at h
    obtain ⟨r, sc1, s1, hst, h⟩ := h
    simp only [steps_guard] at h
    obtain ⟨-, h⟩ := h
    simp only [steps_bind, steps_pure] at h
    obtain ⟨cs', sc2, s2, hrest, rfl, rfl, rfl⟩ := h
    obtain ⟨h1, ha1⟩ := read_stmt g st hst hr hg
    obtain ⟨h2, ha2⟩ := read_clausesOf g rest hrest h1.ready (h1.same.grouped hg)
    rw [h1.same.returnError] at ha2
    have h := h1.append h2 hr
    rw [namesInAll, notesByAll, functionsInAll, deedsOf_append]
    exact ⟨h, .cons ha1 ha2 fun hret => nothing_left hrest (h1.returns.mpr (.inr hret))⟩

end

end DiffLang.Reading
