import DiffLang.Proofs.Reading.Places
import DiffLang.Proofs.Reading.Texts

/-!
# Every function of a text has places

Whatever the reader makes is read at a position of the text, so it has a place: expressions, statements
and the functions that they define.
-/

namespace DiffLang.Places

open Run Session Growth Freshness Scoping Reading Source List

variable {s s0 s1 s' : Session} {o : Option Origin} {m m' : Nat} {V : Symbol → Prop}

variable {ts : List Term} {body : List Stmt} {gs : List (Bool × List Clause)}

section

variable {α : Type} {R : Session → α → Prop} {x : Reader Term} {f : Term → Reader α}

theorem Yields.after (hts : ∀ t ∈ ts, Neat V s0 t) (hx : Yields m s0 x (Neat V))
    (hf : ∀ s1 t, (∀ u ∈ t :: ts, Neat V s1 u) → Yields m s1 (f t) R) :
    Yields m s0 (x >>= f) R :=
  hx.bind fun s1 t h1 ht => hf s1 t (forall_mem_cons.mpr ⟨ht, h1.terms hts⟩)

theorem Yields.first (hx : Yields m s0 x (Neat V))
    (hf : ∀ s1 t, (∀ u ∈ [t], Neat V s1 u) → Yields m s1 (f t) R) : Yields m s0 (x >>= f) R :=
  hx.after (by simp) hf

end

theorem yields_literal (v : Value) : Yields m s0 (liftM (literal v)) (Neat V) :=
  (makes_node (Term.literal · v) (fun _ => rfl) (fun _ => trivial) fun _ _ hc =>
    absurd hc not_mem_nil).yields

theorem yields_builtin (name : String) : Yields m s0 (liftM (builtin name)) (Neat V) :=
  ((makes_ident (.builtin name)).bind fun _ _ _ hx => makes_pure fun _ hs =>
    neat_ident (hs.placed hx.1)).yields

theorem yields_operator (op : String) : Yields m s0 (liftM (operator op)) (Neat (Own m)) := by
  unfold operator
  split
  · exact yields_builtin _
  · exact Makes.yields fun _ _ _ _ hr => (returns_throw.mp hr).elim

theorem yields_call {f : Term} (hf : Neat V s0 f) (hts : ∀ t ∈ ts, Neat V s0 t) :
    Yields m s0 (liftM (apply f ts)) (Neat V) :=
  (makes_apply hf hts).yields

theorem neat_tuple {i : TermId} (hi : Placed s i) (hts : ∀ t ∈ ts, Neat V s t) :
    Neat V s (.tuple i ts) :=
  .intro hi trivial hts

theorem neat_result {t : Term} (h : Neat V s t) : ∀ r ∈ (some t).toList, Neat V s r :=
  forall_mem_singleton.mpr h

theorem yields_function (name : Option String) {ref : Ident} {act : Reader (List Ident × Term)}
    (href : Placed s0 ref.id) (hact : ∀ {s1 m'}, Yields m' s1 act fun s r =>
      (∀ x ∈ r.1, OwnVariable m' s x) ∧ Neat (Own m') s r.2) :
    Yields m s0 (closureScope name ref >>= fun p => inScope p act >>= fun r =>
      construct r.2 r.1.1 r.1.2) (Neat (Own m)) := by
  refine (yields_closureScope name href).bind fun s1 p h1 hp => ?_
  obtain ⟨⟨m', hne, hapt, hpull⟩, hdest⟩ := hp
  refine (Yields.inScope hapt hact).bind fun s2 r h2 hr => ?_
  obtain ⟨⟨hapt', hsame⟩, hparams, hbody⟩ := hr
  refine yields_construct ⟨hne, hapt', hsame.pull ▸ hpull⟩ ?_ hparams hbody
  rw [hsame.dest, hdest]
  exact (h1.trans h2).placed href

theorem yields_forIn {α : Type} {xs : List α} {f : α → PUnit → Reader (ForInStep PUnit)}
    (hf : ∀ {o a u sc s r sc' s'}, Steps (f a u) o sc s r sc' s' → sc' = sc ∧ s' = s) :
    Yields m s0 (forIn xs PUnit.unit f) fun _ _ => True := by
  rintro sc hsc o s ⟨_, sc'⟩ s' hr hs _
  obtain ⟨rfl, rfl⟩ := steps_forIn_still (fun _ _ _ _ _ _ _ h => hf h) hr
  exact ⟨.refl _, ⟨hs.apt hsc, .refl _⟩, trivial⟩

mutual

theorem yields_expr : ∀ (e : Expr) {s0 : Session} {m : Nat}, Yields m s0 (expr e) (Neat (Own m))
  | .name pos id, s0, m => by
    rw [expr]
    refine .located ((yields_occurrence id).bind fun s1 x _ hx => ?_)
    refine makes_currentLocation.yields.bind fun s2 l h2 hl => ?_
    obtain ⟨l, rfl⟩ := Option.isSome_iff_exists.mp hl
    exact (makes_setOrigin _ l _).yields.bind fun s3 _ h3 _ => yields_pure fun s hs =>
      neat_ident (((h2.trans h3).trans hs).placed hx)
  | .constant pos v, s0, m => by
    rw [expr]
    exact .located (yields_literal v)
  | .binary pos op left right, s0, m => by
    rw [expr]
    exact .located <| (yields_operator op).first fun _ f h => (yields_expr left).after h fun _ l h =>
      (yields_expr right).after h fun _ r h => yields_call (h f (by simp)) fun t ht => h t (by grind)
  | .unary pos op operand, s0, m => by
    rw [expr]
    exact .located <| (yields_operator op).first fun _ f h =>
      (yields_expr operand).after h fun _ x h => yields_call (h f (by simp)) fun t ht => h t (by grind)
  | .compare pos left ops rights, s0, m => by
    rw [expr]
    refine .located ((yields_mapM (fun _ => yields_operator) (fun h => h.term) ops).bind
      fun s1 fs _ hfs => ?_)
    split
    next f _ =>
      exact (yields_expr left).after hfs fun _ l h => (yields_firstExpr rights).after h fun _ r h =>
        yields_call (h f (by simp)) fun t ht => h t (by grind)
    · exact yields_syntaxFailure _ _
  | .call pos fn args keywords, s0, m => by
    rw [expr]
    refine .located (yields_guard ((yields_forIn fun h => ?_).bind fun s1 _ _ _ => ?_))
    · split at h
      · simp only [steps_bind, steps_lift, returns_syntaxFailure, false_and, exists_false,
          and_false] at h
      · obtain ⟨-, rfl, rfl⟩ := steps_pure.mp h
        exact ⟨rfl, rfl⟩
    · refine (yields_exprs args).bind fun s2 xs _ hxs => yields_get.bind fun s3 sc h3 _ => ?_
      have hxs : ∀ t ∈ xs, Neat (Own m) s3 t := h3.terms hxs
      have hfn : ∀ {s4}, Yields m s4 (expr fn) (Neat (Own m)) := yields_expr fn
      split
      next n _ =>
        refine (makes_tuple fun t ht => hxs t (mem_of_mem_take ht)).yields.after hxs
          fun s4 t h => (makes_tuple fun u hu => h u ?_).yields
        exact (mem_cons.mp hu).elim (fun he => he ▸ mem_cons_self ..)
          fun hu => mem_cons_of_mem _ (mem_of_mem_drop hu)
      · exact hfn.after hxs fun _ f h =>
          yields_call (h f (by simp)) fun t ht => h t (mem_cons_of_mem _ ht)
  | .attribute pos object name, s0, m => by
    rw [expr]
    exact .located <| (yields_builtin _).first fun _ f h => (yields_expr object).after h fun _ x h =>
      (yields_literal _).after h fun _ a h => yields_call (h f (by simp)) fun t ht => h t (by grind)
  | .subscript pos object index, s0, m => by
    rw [expr]
    exact .located <| (yields_builtin _).first fun _ f h => (yields_expr object).after h fun _ x h =>
      (yields_expr index).after h fun _ i h => yields_call (h f (by simp)) fun t ht => h t (by grind)
  | .slice pos lower upper step, s0, m => by
    rw [expr]
    exact .located <| (yields_builtin _).first fun _ f h =>
      (yields_exprOr _ lower).after h fun _ a h => (yields_exprOr _ upper).after h fun _ b h =>
      (yields_exprOr _ step).after h fun _ c h => yields_call (h f (by simp)) fun t ht =>
        h t (by grind)
  | .tuple pos items, s0, m => by
    rw [expr]
    exact .located <| makes_newId.yields.bind fun s1 id _ hid => (yields_exprs items).bind
      fun s2 ts h2 hts => yields_pure fun s hs => neat_tuple ((h2.trans hs).placed hid) (hs.terms hts)
  | .lambda pos params body, s0, m => by
    rw [expr]
    refine .located ((yields_globalName _).bind fun s1 ref _ href => ?_)
    refine yields_function _ href (fun {s2 m'} => ?_)
    refine (yields_newVariables params.names).bind fun s3 xs _ hxs => (yields_expr body).bind
      fun s4 b h4 hb => yields_pure fun s hs => ?_
    exact ⟨(h4.trans hs).ownVariables hxs, hs.term hb⟩
  | .other pos kind, s0, m => by
    rw [expr]
    exact yields_get.bind fun _ _ _ _ => yields_unrecognized _ _

theorem yields_exprs : ∀ (es : List Expr) {s0 : Session} {m : Nat},
    Yields m s0 (exprs es) fun s ts => ∀ t ∈ ts, Neat (Own m) s t
  | [], s0, m => by
    rw [exprs]
    exact yields_pure fun _ _ => by simp
  | e :: es, s0, m => by
    rw [exprs]
    exact (yields_expr e).bind fun s1 t _ ht => (yields_exprs es).bind fun s2 ts h2 hts =>
      yields_pure fun s hs => forall_mem_cons.mpr ⟨(h2.trans hs).term ht, hs.terms hts⟩

theorem yields_firstExpr : ∀ (es : List Expr) {s0 : Session} {m : Nat},
    Yields m s0 (firstExpr es) (Neat (Own m))
  | [], s0, m => by
    rw [firstExpr]
    exact yields_throw _
  | e :: es, s0, m => by
    rw [firstExpr]
    exact yields_expr e

theorem yields_exprOr (missing : Value) : ∀ (e : Option Expr) {s0 : Session} {m : Nat},
    Yields m s0 (exprOr missing e) (Neat (Own m))
  | some e, s0, m => by
    rw [exprOr]
    exact yields_expr e
  | none, s0, m => by
    rw [exprOr]
    exact yields_literal missing

end

/-! ## Loops -/

theorem yields_existings (names : List String) :
    Yields m s0 (names.mapM (existing ·)) fun s xs => ∀ x ∈ xs, Placed s x.id :=
  yields_mapM (fun _ n => yields_existing n true) (fun h => h.placed) names

section

variable {α : Type} {Q : Nat → Session → α → Prop} {act : Reader α}

theorem yields_onTrial (h : ∀ {s1 m'}, Yields m' s1 act (Q m')) :
    Yields m s0 (onTrial act) fun _ _ => True := by
  refine (yields_inner true false none).bind fun s1 p _ hp => ?_
  obtain ⟨⟨m', -, hapt, -⟩, -⟩ := hp
  refine (Yields.inScope (p := { p with returnError := some "Cannot return in while loops." })
    { hapt with } h).bind fun s2 r _ _ => ?_
  exact yields_pure fun _ _ => trivial

theorem yields_loopScope (name : Ident) (h : ∀ {s1 m'}, Yields m' s1 act (Q m')) :
    Yields m s0 (loopScope name act) fun s r => ∃ m', m ≠ m' ∧ Apt m' r.2 s ∧ Q m' s r.1 := by
  refine yields_get.bind fun s1 sc _ _ => (yields_inner _ _ _).bind fun s2 p _ hp => ?_
  obtain ⟨⟨m', hne, hapt, -⟩, -⟩ := hp
  exact (Yields.inScope hapt h).mono fun s r hr => ⟨m', hne, hr.1.1, hr.2⟩

end

/-- The test of a loop is a function of the variables `ins`, like the body. -/
theorem yields_registerTest {testName : Ident} {test loopFn : Term} {ins initial : List Ident}
    (hne : m ≠ m') (hname : Placed s0 testName.id) (htest : Neat (Own m') s0 test)
    (hloop : Neat (Own m') s0 loopFn) (hins : ∀ x ∈ ins, OwnVariable m' s0 x)
    (hinitial : ∀ x ∈ initial, Placed s0 x.id) :
    Yields m s0 (registerTest testName test loopFn ins initial) fun _ _ => True := by
  refine (yields_builtin (V := Own m') "switch").bind fun s1 f h1 hf => ?_
  refine (makes_closure (h1.term hloop) (neat_idents fun x hx =>
    h1.placed (hins x hx).1)).yields.bind fun s2 go h2 hgo => ?_
  refine (yields_builtin (V := Own m') "identity").bind fun s3 stopFn h3 hstopFn => ?_
  have h03 := (h1.trans h2).trans h3
  refine (makes_tuple (V := Own m') (neat_idents (h03.idents hinitial))).yields.bind
    fun s4 result h4 hresult => ?_
  refine (makes_closure (h4.term hstopFn) (forall_mem_singleton.mpr hresult)).yields.bind
    fun s5 stop h5 hstop => ?_
  have h25 := (h3.trans h4).trans h5
  refine (yields_call ((h2.trans h25).term hf) (forall_mem_cons.mpr
    ⟨(h03.trans (h4.trans h5)).term htest, forall_mem_cons.mpr
      ⟨h25.term hgo, forall_mem_singleton.mpr hstop⟩⟩)).bind fun s6 chosen h6 hchosen => ?_
  refine (yields_call hchosen (by simp)).bind fun s7 body h7 hbody => ?_
  have h07 := (h03.trans (h4.trans h5)).trans (h6.trans h7)
  exact (yields_register (V := Own m') hne (h07.placed hname) (h07.ownVariables hins)
    hbody).bind fun _ _ _ _ => yields_pure fun _ _ => trivial

/-! ## Statements -/

def NeatReading (m : Nat) (s : Session) (r : Reading) : Prop :=
  ∀ c ∈ r.clauses, NeatClause (Own m) s c

theorem neatClause_name {x : Ident} {v : Term} (hx : OwnVariable m s x) (hv : Neat (Own m) s v) :
    NeatClause (Own m) s (.assign (.name x) v) :=
  ⟨(neatPattern_name hx).1, (neatPattern_name hx).2, hv⟩

theorem neatReading_singleton {c : Clause} (h : NeatClause (Own m) s c) (l : Option Location) :
    NeatReading m s ⟨[c], l⟩ :=
  forall_mem_singleton.mpr h

theorem yields_clause {act : Reader Clause} (h : Yields m s0 act (NeatClause (Own m))) :
    Yields m s0 (do let c ← act; pure ⟨[c], none⟩) (NeatReading m) :=
  h.bind fun _ _ _ hc => yields_pure fun _ hs => neatReading_singleton (hs.neatClause hc) none

theorem yields_set (name : String) {v : Term} (hv : Neat (Own m) s0 v) :
    Yields m s0 (do let x ← declare name; pure ⟨[.assign (.name x) v], none⟩) (NeatReading m) :=
  (yields_declare name).bind fun _ _ h1 hx => yields_pure fun _ hs => neatReading_singleton
    (neatClause_name (hs.ownVariable hx) ((h1.trans hs).term hv)) none

theorem yields_blame {t : Term} (ht : Neat (Own m) s0 t) :
    Yields m s0 (do let l ← (liftM (findLocation t) : Reader (Option Location)); pure ⟨[.term t], l⟩)
      (NeatReading m) := by
  have hfind : Makes s0 (findLocation t) fun _ _ => True := fun o s l s' hr _ _ => by
    obtain ⟨-, rfl⟩ := returns_findLocation.mp hr
    exact ⟨.refl _, trivial⟩
  exact hfind.yields.bind fun _ l h1 _ => yields_pure fun _ hs =>
    neatReading_singleton (c := .term t) ((h1.trans hs).term ht) l

def NeatGroups (m : Nat) (s : Session) (gs : List (Bool × List Clause)) : Prop :=
  ∀ g ∈ gs, ∀ c ∈ g.2, NeatClause (Own m) s c

theorem Kept.neatGroups (h : Kept s s') (hgs : NeatGroups m s gs) : NeatGroups m s' gs :=
  fun g hg c hc => h.neatClause (hgs g hg c hc)

theorem yields_defineFunction (name : String) (params : Params)
    {readBody : Reader (List (Bool × List Clause))}
    (hbody : ∀ {s1 m'}, Yields m' s1 readBody (NeatGroups m')) :
    Yields m s0 (defineFunction name params readBody) (NeatClause (Own m)) := by
  refine yields_get.bind fun s1 sc _ _ => (yields_globalName _).bind fun s2 ref _ href => ?_
  refine (yields_newVariable name).bind fun s3 x h3 hx => ?_
  have hread : ∀ {s1 m'}, Yields m' s1 (do
      let params ← params.names.mapM newVariable
      let gs ← readBody
      let body ← (liftM (finish none gs) : Reader Term)
      pure (params, body)) fun s r =>
        (∀ x ∈ r.1, OwnVariable m' s x) ∧ Neat (Own m') s r.2 := by
    intro s4 m'
    refine (yields_newVariables params.names).bind fun s5 xs _ hxs => hbody.bind fun s6 gs h6 hgs => ?_
    exact (makes_finish (by simp) hgs).yields.bind fun s7 body h7 hbody => yields_pure fun s hs =>
      ⟨((h6.trans h7).trans hs).ownVariables hxs, hs.term hbody⟩
  have hfn := (yields_function (m := m) (some name) (h3.placed href) hread).bind
    (R := NeatClause (Own m)) (f := fun fn => pure (.assign (.name x) fn)) fun s4 fn h4 hfn =>
      yields_pure fun s hs => neatClause_name ((h4.trans hs).ownVariable hx) (hs.term hfn)
  simpa only [bind_assoc] using hfn

abbrev YieldsBody (body : List Stmt) : Prop :=
  ∀ {s0 m}, Yields m s0 (clausesOf body) fun s cs => ∀ c ∈ cs, NeatClause (Own m) s c

theorem YieldsBody.grouped (h : YieldsBody body) :
    Yields m s0 (grouped (clausesOf body)) (NeatGroups m) :=
  h.bind fun _ _ _ hcs => yields_pure fun _ hs => hs.neatGroups (neat_groups hcs)

structure Branch (m : Nat) (s : Session) (p : Reading.Scope) (gs : List (Bool × List Clause))
    (m' : Nat) : Prop where
  inside : Inside m true s p m'
  dest : Placed s p.dest.id
  groups : NeatGroups m' s gs

theorem Kept.branch {p : Reading.Scope} (h : Kept s s') (hb : Branch m s p gs m') :
    Branch m s' p gs m' :=
  ⟨hb.inside.kept h, h.placed hb.dest, h.neatGroups hb.groups⟩

theorem yields_branchScope {α : Type} {R : Session → α → Prop} {relation : String}
    {f : List (Bool × List Clause) × Reading.Scope → Reader α} (hbody : YieldsBody body)
    (hf : ∀ s1 gs p m', Onward s0 s1 → Branch m s1 p gs m' → Yields m s1 (f (gs, p)) R) :
    Yields m s0 (do
      let x ← partName relation
      let p ← closureScope none x
      let r ← inScope p (grouped (clausesOf body))
      f r) R := by
  refine (yields_partName relation).bind fun s1 x h1 hx => ?_
  refine (yields_closureScope none hx).bind fun s2 p h2 hp => ?_
  obtain ⟨⟨m', hne, hapt, hpull⟩, hdest⟩ := hp
  refine (Yields.inScope hapt hbody.grouped).bind fun s3 r h3 hr => ?_
  obtain ⟨⟨hapt', hsame⟩, hgs⟩ := hr
  refine hf s3 r.1 r.2 m' ((h1.trans h2).trans h3) ⟨⟨hne, hapt', hsame.pull ▸ hpull⟩, ?_, hgs⟩
  rw [hsame.dest, hdest]
  exact (h2.trans h3).placed hx

/-- The branches of a conditional become functions. The first gives both their places. -/
theorem yields_conditional {p1 p2 : Reading.Scope} {gs1 gs2 : List (Bool × List Clause)}
    {test : Reader Term} {end1 end2 : Option Term} {m1 m2 : Nat}
    (hb1 : Branch m s0 p1 gs1 m1) (hend1 : ∀ t ∈ end1.toList, Neat (Own m1) s0 t)
    (hb2 : Branch m s0 p2 gs2 m2) (hend2 : ∀ t ∈ end2.toList, Neat (Own m2) s0 t)
    (htest : ∀ {s1}, Yields m s1 test (Neat (Own m))) :
    Yields m s0 (conditional (p1, gs1) (p2, gs2) test end1 end2) (Neat (Own m)) := by
  refine (makes_finish hend1 hb1.groups).yields.bind fun s1 body1 h1 hbody1 => ?_
  have hb1 := h1.branch hb1
  refine (Yields.aboutPlaceOf hbody1.placed (yields_construct (V := Own m) hb1.inside hb1.dest
    (by simp) hbody1)).bind fun s2 f1 h2 hf1 => ?_
  have h02 := h1.trans h2
  refine (makes_finish (h02.terms hend2) (h02.branch hb2).groups).yields.bind
    fun s3 body2 h3 hbody2 => ?_
  have hb2 := (h02.trans h3).branch hb2
  refine (Yields.aboutPlaceOf ((h2.trans h3).placed hbody1.placed) (yields_construct (V := Own m)
    hb2.inside hb2.dest (by simp) hbody2)).bind fun s4 f2 h4 hf2 => ?_
  have hfs : ∀ t ∈ [f1, f2], Neat (Own m) s4 t :=
    forall_mem_cons.mpr ⟨(h3.trans h4).term hf1, forall_mem_singleton.mpr hf2⟩
  exact (yields_builtin _).after hfs fun s5 f h5 => htest.after h5 fun s6 t h6 =>
    (yields_call (h6 f (by simp)) fun u hu => h6 u (by grind)).bind fun s7 chosen _ hchosen =>
      yields_call hchosen (by simp)

theorem yields_returned : Yields m s0 (modify fun s => { s with returns := true }) fun _ _ => True :=
  yields_modify fun _ h => ⟨{ h with }, ⟨rfl⟩⟩

theorem yields_assign (pos : Pos) (targets : List Expr) (value : Expr) :
    Yields m s0 (stmt (.assign pos targets value)) (NeatReading m) := by
  rw [stmt.eq_def]
  refine .located ?_
  split
  next target =>
    split
    · refine (yields_expr value).bind fun s1 v _ hv => (yields_pattern _).bind fun s2 k h2 hk => ?_
      exact yields_pure fun s hs => neatReading_singleton (c := .assign k v)
        ⟨hk.1, hs.term hk.2, (h2.trans hs).term hv⟩ none
    next p object index =>
      split
      next name _ =>
        exact (yields_expr value).first fun _ v h => (yields_builtin _).after h fun _ f h =>
          (yields_expr object).after h fun _ x h => (yields_expr index).after h fun _ i h =>
          (yields_call (h f (by simp)) fun t ht => h t (by grind)).bind fun _ new _ hnew =>
            yields_set name hnew
      · exact yields_syntaxFailure _ _
    next p name => exact (yields_expr value).bind fun _ v _ hv => yields_set name hv
    next p object attr =>
      split
      next name _ =>
        exact (yields_builtin _).first fun _ f h => (yields_expr object).after h fun _ x h =>
          (yields_literal _).after h fun _ a h => (yields_expr value).after h fun _ v h =>
          (yields_call (h f (by simp)) fun t ht => h t (by grind)).bind fun _ new _ hnew =>
            yields_set name hnew
      · exact yields_syntaxFailure _ _
    · exact makes_currentLocation.yields.bind fun _ _ _ _ => yields_throw _
  · exact yields_throw _

theorem yields_augment (pos : Pos) (target : Expr) (op : String) (value : Expr) :
    Yields m s0 (stmt (.augment pos target op value)) (NeatReading m) := by
  rw [stmt.eq_def]
  refine .located ?_
  split
  next p name =>
    refine (yields_expr value).first fun s1 v h => (yields_operator op).after h fun s2 f h => ?_
    refine (yields_occurrence name).bind fun s3 _ h3 _ => ?_
    refine (Yields.located (yields_existing name false)).bind fun s4 old h4 hold => ?_
    have h : ∀ t ∈ [f, v], Neat (Own m) s4 t := (h3.trans h4).terms h
    refine (yields_call (h f (by simp)) (forall_mem_cons.mpr ⟨neat_ident hold, ?_⟩)).bind
      fun s5 new _ hnew => yields_set name hnew
    exact forall_mem_singleton.mpr (h v (by simp))
  · exact yields_syntaxFailure _ _

theorem yields_exprStmt (pos : Pos) (value : Expr) :
    Yields m s0 (stmt (.expr pos value)) (NeatReading m) := by
  rw [stmt.eq_def]
  exact .located ((yields_expr value).bind fun _ _ _ ht => yields_blame ht)

theorem yields_ret (pos : Pos) (value : Option Expr) :
    Yields m s0 (stmt (.ret pos value)) (NeatReading m) := by
  rw [stmt.eq_def]
  refine .located (yields_get.bind fun s1 sc _ _ => ?_)
  split
  · exact yields_syntaxFailure _ _
  · refine yields_returned.bind fun s2 _ _ _ => ?_
    cases value with
    | some e => exact (yields_expr e).bind fun _ _ _ ht => yields_blame ht
    | none => exact yields_unrecognized _ _

theorem yields_raise (pos : Pos) (value : Option Expr) :
    Yields m s0 (stmt (.raise pos value)) (NeatReading m) := by
  rw [stmt.eq_def]
  refine .located (yields_get.bind fun s1 sc _ _ => ?_)
  split
  · exact yields_syntaxFailure _ _
  · refine yields_returned.bind fun s2 _ _ _ => (yields_builtin (V := Own m) _).first fun s3 f h => ?_
    cases value with
    | some e =>
      exact (yields_expr e).after h fun _ x h =>
        (yields_call (h f (by simp)) fun t ht => h t (by grind)).bind fun _ _ _ ht => yields_blame ht
    | none => exact yields_unrecognized _ _

theorem makes_checkParams (params : Params) : Makes s0 (checkParams params) fun _ _ => True :=
  fun o s _ s' hr _ _ => by
    obtain ⟨rfl, -⟩ := returns_checkParams hr
    exact ⟨.refl _, trivial⟩

theorem yields_define (pos : Pos) (name : String) (params : Params) (decorators : List Expr)
    (hbody : YieldsBody body) :
    Yields m s0 (stmt (.define pos name params decorators body)) (NeatReading m) := by
  rw [stmt.eq_def]
  refine .located ((makes_checkParams params).yields.bind fun s1 _ _ _ => yields_guard ?_)
  exact yields_clause (yields_defineFunction name params hbody.grouped)

theorem yields_branch (pos : Pos) (test : Expr) {orelse : List Stmt} (hbody : YieldsBody body)
    (horelse : YieldsBody orelse) :
    Yields m s0 (stmt (.branch pos test body orelse)) (NeatReading m) := by
  rw [stmt.eq_def]
  refine .located (yields_guard (yields_branchScope hbody fun s1 gs1 p1 m1 _ hb1 => ?_))
  refine yields_branchScope horelse fun s2 gs2 p2 m2 h2 hb2 => ?_
  have hb1 := h2.branch hb1
  refine yields_guard ?_
  extract_lets sort cond rest
  refine yields_guard ?_
  dsimp only [rest]
  -- the branches end in what was set in them, or return
  have hcond : ∀ {s end1 end2}, Onward s2 s → (∀ t ∈ end1.toList, Neat (Own m1) s t) →
      (∀ t ∈ end2.toList, Neat (Own m2) s t) → Yields m s (cond end1 end2) (Neat (Own m)) :=
    fun hs hend1 hend2 => yields_conditional (hs.branch hb1) hend1 (hs.branch hb2) hend2
      (yields_expr test)
  split
  · exact yields_returned.bind fun s3 _ h3 _ => (hcond h3 (by simp) (by simp)).bind
      fun _ _ _ ht => yields_blame ht
  · split
    next name _ =>
      refine (Yields.inScope hb1.inside.2.1 (yields_existing name true)).bind fun s3 a h3 ha => ?_
      refine (Yields.inScope (h3.apt hb2.inside.2.1) (yields_existing name true)).bind
        fun s4 b h4 hb => ?_
      refine (hcond (h3.trans h4) ?_ ?_).bind fun s5 t _ ht => yields_set name ht
      · exact neat_result (neat_ident (h4.placed ha.2))
      · exact neat_result (neat_ident hb.2)
    · refine makes_newId.yields.bind fun s3 i h3 hi => ?_
      refine (Yields.inScope (h3.apt hb1.inside.2.1) (yields_existings _)).bind fun s4 as h4 has => ?_
      refine makes_newId.yields.bind fun s5 j h5 hj => ?_
      have h25 := (h3.trans h4).trans h5
      refine (Yields.inScope (h25.apt hb2.inside.2.1) (yields_existings _)).bind fun s6 bs h6 hbs => ?_
      have h46 := h5.trans h6
      refine (hcond (h25.trans h6) ?_ ?_).bind fun s7 t _ ht => ?_
      · exact neat_result (neat_tuple ((h4.trans h46).placed hi) (neat_idents (h46.idents has.2)))
      · exact neat_result (neat_tuple (h6.placed hj) (neat_idents hbs.2))
      · exact yields_clause (yields_assignAll _ ht)

theorem yields_while (pos : Pos) (test : Expr) (hbody : YieldsBody body) :
    Yields m s0 (stmt (.whileLoop pos test body)) (NeatReading m) := by
  rw [stmt.eq_def]
  refine .located ((yields_partName _).bind fun s1 testName _ htest => ?_)
  refine (yields_partName _).bind fun s2 bodyName h2 hname => ?_
  refine (yields_onTrial ((yields_expr test).bind fun _ _ _ _ => hbody.grouped)).bind
    fun s3 trial h3 _ => ?_
  extract_lets outVars inVars
  -- the test and the body are functions with parameters of their own
  refine (yields_loopScope testName (yields_newVariables inVars)).bind fun s4 r1 h4 hr1 => ?_
  obtain ⟨m1, hne1, hp, hins⟩ := hr1
  refine (yields_loopScope bodyName (yields_newVariables inVars)).bind fun s5 r2 h5 hr2 => ?_
  obtain ⟨m2, hne2, hpp, hins2⟩ := hr2
  refine (Yields.inScope (h5.apt hp) (yields_existings outVars)).bind fun s6 r3 h6 hr3 => ?_
  obtain ⟨⟨hp, -⟩, hinitial⟩ := hr3
  refine (Yields.inScope hp (yields_expr test)).bind fun s7 r4 h7 hr4 => ?_
  refine (Yields.inScope ((h6.trans h7).apt hpp) hbody.grouped).bind fun s8 r5 h8 hr5 => ?_
  obtain ⟨⟨hpp, -⟩, hgs⟩ := hr5
  refine (Yields.inScope hpp (yields_existings inVars)).bind fun s9 r6 h9 hr6 => ?_
  have h25 := (h3.trans h4).trans h5
  have h59 := ((h6.trans h7).trans h8).trans h9
  have htest : Placed s9 testName.id := (h2.trans (h25.trans h59)).placed htest
  refine (yields_call (V := Own m2) (neat_ident htest) (neat_idents hr6.2)).bind
    fun s10 next h10 hnext => ?_
  refine (makes_finish (neat_result hnext)
    ((h9.trans h10).neatGroups hgs)).yields.bind fun s11 loopBody h11 hloop => ?_
  have h911 := h10.trans h11
  refine (Yields.aboutPlaceOf hloop.placed (yields_register (V := Own m1) hne2
    ((h25.trans (h59.trans h911)).placed hname)
    ((h59.trans h911).ownVariables hins2) hloop)).bind fun s12 loopFn h12 hfn => ?_
  have h912 := h911.trans h12
  have h712 := (h8.trans h9).trans h912
  refine (yields_registerTest hne1 (h912.placed htest) (h712.term hr4.2) hfn
    ((h5.trans (h59.trans h912)).ownVariables hins)
    ((h7.trans h712).idents hinitial)).bind fun s13 _ h13 _ => ?_
  refine (yields_occurrences inVars).bind fun s14 args h14 hargs => ?_
  refine (yields_call (V := Own m) (neat_ident (((h912.trans h13).trans h14).placed htest))
    (neat_idents hargs)).bind fun s15 value _ hvalue => ?_
  exact yields_clause (yields_assignAll outVars hvalue)

theorem yields_iterationVariables (target : Expr) (names : List String) :
    Yields m s0 (iterationVariables target names) fun s r =>
      (OwnVariable m s r.1 ∧ OwnVariable m s r.2.1 ∧ OwnVariable m s r.2.2.1) ∧
        ∀ x ∈ r.2.2.2, OwnVariable m s x := by
  refine (yields_newVariable _).bind fun s1 i _ hi => (yields_newVariable _).bind fun s2 xs h2 hxs => ?_
  split
  next name _ =>
    refine (yields_newVariable name).bind fun s3 x h3 hx => (yields_newVariables names).bind
      fun s4 ys h4 hys => yields_pure fun s hs => ?_
    have h3 := (h3.trans h4).trans hs
    have hi := (h2.trans h3).ownVariable hi
    have hxs := h3.ownVariable hxs
    exact ⟨⟨hi, hxs, (h4.trans hs).ownVariable hx⟩, forall_mem_cons.mpr ⟨hi,
      forall_mem_cons.mpr ⟨hxs, hs.ownVariables hys⟩⟩⟩
  · exact (yields_throw _).bind fun _ _ _ h => h

section

variable {α : Type} {R : Session → α → Prop} {f : Term → Reader α}

variable {i : Ident}

theorem yields_limit {xs : Ident} (hi : Placed s0 i.id) (hxs : Placed s0 xs.id)
    (hf : ∀ s1 t, Onward s0 s1 → Neat V s1 t → Yields m s1 (f t) R) :
    Yields m s0 (do
      let less ← (liftM (builtin "less") : Reader Term)
      let len ← (liftM (builtin "len") : Reader Term)
      let n ← (liftM (apply len [.ident xs]) : Reader Term)
      let t ← (liftM (apply less [.ident i, n]) : Reader Term)
      f t) R := by
  refine (yields_builtin (V := V) _).bind fun s1 less h1 hless => ?_
  refine (yields_builtin (V := V) _).bind fun s2 len h2 hlen => ?_
  refine (yields_call hlen (forall_mem_singleton.mpr (neat_ident
    ((h1.trans h2).placed hxs)))).bind fun s3 n h3 hn => ?_
  have h23 := h2.trans h3
  refine (yields_call (h23.term hless) (forall_mem_cons.mpr ⟨neat_ident
    ((h1.trans h23).placed hi), forall_mem_singleton.mpr hn⟩)).bind fun s4 t h4 ht => ?_
  exact hf s4 t ((h1.trans h23).trans h4) ht

theorem yields_advance (hi : Placed s0 i.id)
    (hf : ∀ s1 t, Onward s0 s1 → Neat V s1 t → Yields m s1 (f t) R) :
    Yields m s0 (do
      let add ← (liftM (builtin "add") : Reader Term)
      let one ← (liftM (literal (.int 1)) : Reader Term)
      let t ← (liftM (apply add [.ident i, one]) : Reader Term)
      f t) R := by
  refine (yields_builtin (V := V) _).bind fun s1 add h1 hadd => ?_
  refine (yields_literal (V := V) _).bind fun s2 one h2 hone => ?_
  refine (yields_call (h2.term hadd) (forall_mem_cons.mpr ⟨neat_ident ((h1.trans h2).placed hi),
    forall_mem_singleton.mpr hone⟩)).bind fun s3 t h3 ht => ?_
  exact hf s3 t ((h1.trans h2).trans h3) ht

theorem yields_element {xs x : Ident} {body : Term} (hi : Placed s0 i.id) (hxs : Placed s0 xs.id)
    (hx : OwnVariable m' s0 x) (hbody : Neat (Own m') s0 body)
    (hf : ∀ s1 t, Onward s0 s1 → Neat (Own m') s1 t → Yields m s1 (f t) R) :
    Yields m s0 (do
      let index ← (liftM (builtin "index") : Reader Term)
      let element ← (liftM (apply index [.ident xs, .ident i]) : Reader Term)
      let t ← (liftM (Session.bind [(.ident x, element)] body) : Reader Term)
      f t) R := by
  refine (yields_builtin (V := Own m') _).bind fun s1 index h1 hindex => ?_
  refine (yields_call hindex (forall_mem_cons.mpr ⟨neat_ident (h1.placed hxs),
    forall_mem_singleton.mpr (neat_ident (h1.placed hi))⟩)).bind fun s2 element h2 helement => ?_
  have h2 := h1.trans h2
  have hkey := neatPattern_name (h2.ownVariable hx)
  refine (makes_binding (forall_mem_singleton.mpr ⟨hkey.1, hkey.2, helement⟩)
    (h2.term hbody)).yields.bind fun s3 t h3 ht => ?_
  exact hf s3 t (h2.trans h3) ht

end

theorem yields_for (pos : Pos) (target iter : Expr) (hasElse : Bool) (hbody : YieldsBody body) :
    Yields m s0 (stmt (.forLoop pos target iter body hasElse)) (NeatReading m) := by
  rw [stmt.eq_def]
  refine .located (yields_guard ((yields_partName _).bind fun s1 testName _ htest => ?_))
  refine (yields_partName _).bind fun s2 bodyName h2 hname => ?_
  refine (yields_onTrial hbody.grouped).bind fun s3 trial h3 _ => ?_
  extract_lets outVars inVars
  -- here the test and the body share their parameters
  refine (yields_loopScope bodyName (yields_iterationVariables target inVars)).bind
    fun s4 r h4 hr => ?_
  obtain ⟨⟨i, xs, x, ins⟩, p⟩ := r
  obtain ⟨m', hne, hp, ⟨hi, hxs, hx⟩, hins⟩ := hr
  have h24 := h3.trans h4
  have htest : Placed s4 testName.id := (h2.trans h24).placed htest
  refine (Yields.inScope hp (yields_existings outVars)).bind fun s5 r1 h5 hr1 => ?_
  obtain ⟨⟨hp, -⟩, hinitial⟩ := hr1
  refine yields_limit (V := Own m') (h5.placed hi.1) (h5.placed hxs.1) fun s6 t h6 ht => ?_
  refine (Yields.inScope (h6.apt hp) hbody.grouped).bind fun s7 r2 h7 hr2 => ?_
  obtain ⟨⟨hp, -⟩, hgs⟩ := hr2
  have h47 := (h5.trans h6).trans h7
  refine yields_advance (V := Own m') (h47.placed hi.1) fun s8 nextAt h8 hnextAt => ?_
  refine (Yields.inScope (h8.apt hp) (yields_existings inVars)).bind fun s9 r3 h9 hr3 => ?_
  have h79 := h8.trans h9
  have h49 := h47.trans h79
  refine (yields_call (V := Own m') (neat_ident (h49.placed htest)) (forall_mem_cons.mpr
    ⟨h9.term hnextAt, forall_mem_cons.mpr ⟨neat_ident (h49.placed hxs.1),
      neat_idents hr3.2⟩⟩)).bind fun s10 next h10 hnext => ?_
  refine (makes_finish (neat_result hnext) ((h79.trans h10).neatGroups hgs)).yields.bind
    fun s11 loopBody h11 hloop => ?_
  have h411 := h49.trans (h10.trans h11)
  refine yields_element (h411.placed hi.1) (h411.placed hxs.1) (h411.ownVariable hx) hloop
    fun s12 loopBody h12 hloop => ?_
  have h412 := h411.trans h12
  refine (Yields.aboutPlaceOf hloop.placed (yields_register (V := Own m') hne
    ((h24.trans h412).placed hname) (h412.ownVariables hins) hloop)).bind
    fun s13 loopFn h13 hfn => ?_
  have h413 := h412.trans h13
  have h613 := h7.trans (h79.trans ((h10.trans h11).trans (h12.trans h13)))
  refine (yields_registerTest hne (h413.placed htest) (h613.term ht) hfn
    (h413.ownVariables hins)
    ((h6.trans h613).idents hinitial)).bind fun s14 _ h14 _ => ?_
  refine yields_get.bind fun s15 sc h15 hsc => (makes_freshPlain _ _ _).yields.bind
    fun s16 y h16 hy => (makes_ident y).yields.bind fun s17 list h17 hlist => ?_
  have hlist : OwnVariable m s17 list := by
    have hsc := h16.apt hsc
    exact ⟨hlist.1, by rw [Own, hlist.2, hy hsc.there, hsc.space]⟩
  refine (yields_literal (V := Own m) _).bind fun s18 start h18 hstart => ?_
  refine (yields_occurrences inVars).bind fun s19 args h19 hargs => ?_
  have h1719 := h18.trans h19
  have htest := (h413.trans (h14.trans (h15.trans (h16.trans (h17.trans h1719))))).placed htest
  refine (yields_call (V := Own m) (neat_ident htest) (forall_mem_cons.mpr ⟨h19.term hstart,
    forall_mem_cons.mpr ⟨neat_ident (h1719.placed hlist.1), neat_idents hargs⟩⟩)).bind
    fun s20 value h20 hvalue => ?_
  refine (yields_expr iter).bind fun s21 items h21 hitems => ?_
  refine makes_currentLocation.yields.bind fun s22 l h22 _ => ?_
  refine (yields_assignAll outVars ((h21.trans h22).term hvalue)).bind fun s23 c h23 hc => ?_
  refine yields_pure fun s hs => forall_mem_cons.mpr ⟨?_, neatReading_singleton
    (hs.neatClause hc) l⟩
  have h := h22.trans (h23.trans hs)
  exact neatClause_name ((h1719.trans (h20.trans (h21.trans h))).ownVariable hlist) (h.term hitems)

mutual

theorem yields_stmt : ∀ (st : Stmt) {s0 : Session} {m : Nat}, Yields m s0 (stmt st) (NeatReading m)
  | .assign pos targets value, _, _ => yields_assign pos targets value
  | .augment pos target op value, _, _ => yields_augment pos target op value
  | .expr pos value, _, _ => yields_exprStmt pos value
  | .ret pos value, _, _ => yields_ret pos value
  | .raise pos value, _, _ => yields_raise pos value
  | .define pos name params decorators body, _, _ =>
    yields_define pos name params decorators (yields_clausesOf body)
  | .branch pos test body orelse, _, _ =>
    yields_branch pos test (yields_clausesOf body) (yields_clausesOf orelse)
  | .whileLoop pos test body, _, _ => yields_while pos test (yields_clausesOf body)
  | .forLoop pos target iter body hasElse, _, _ =>
    yields_for pos target iter hasElse (yields_clausesOf body)
  | .other pos kind, _, _ => by
    rw [stmt.eq_def]
    exact yields_get.bind fun _ _ _ _ => yields_unrecognized _ _

theorem yields_clausesOf : ∀ body : List Stmt, YieldsBody body
  | [], _, _ => by
    rw [clausesOf]
    exact yields_pure fun _ _ => by simp
  | st :: rest, s0, m => by
    rw [clausesOf]
    refine yields_get.bind fun s1 sc _ _ => (yields_stmt st).bind fun s2 r _ hr => yields_guard ?_
    refine (yields_clausesOf rest).bind fun s3 cs h3 hcs => yields_pure fun s hs c hc => ?_
    rcases mem_append.mp hc with hc | hc
    · exact (h3.trans hs).neatClause (hr c hc)
    · exact hs.neatClause (hcs c hc)

end

/-! ## Texts -/

variable {sc sc' : Reading.Scope}

theorem onward_topStatement {st : Stmt} {t : Option Term} (hsc : Apt m sc s)
    (h : Steps (Program.topStatement st) o sc s t sc' s') : Onward s s' := by
  unfold Program.topStatement at h
  split at h
  next pos name params decorators body =>
    refine Yields.onward (m := m) (Q := fun _ _ => True) ?_ hsc h
    refine (makes_checkParams params).yields.bind fun s1 _ _ _ => ?_
    refine (yields_defineFunction name params (YieldsBody.grouped (yields_clausesOf body))).bind
      fun s2 c _ _ => ?_
    split <;> exact yields_pure fun _ _ => trivial
  next pos e =>
    refine Yields.onward (m := m) (Q := fun _ _ => True) ?_ hsc h
    exact (yields_expr e).bind fun _ _ _ _ => yields_pure fun _ _ => trivial
  · obtain ⟨_, _, _, -, h⟩ := steps_bind.mp h
    exact absurd h (by simp [unrecognized])
  · simp at h

/-- The functions that are there after a text has been read are written, except those that were there
before. -/
theorem onward_readText {url : String} {firstLine : Nat} {stmts : List Stmt} {grouping : Option Nat}
    {v : Value} (h : Returns (Program.readText url firstLine stmts grouping) o s v s') :
    Onward s s' := by
  unfold Program.readText at h
  simp only [returns_bind, returns_freshPlain, returns_ident] at h
  obtain ⟨globals, s1, hglobals, g, s2, hg, x, s3, ⟨-, rfl⟩, dest, s4, ⟨-, rfl⟩, ⟨results, sc'⟩, s5,
    hresults, h⟩ := h
  rw [returns_about] at hresults
  have hresults : Steps (stmts.mapM Program.topStatement) _ _ _ results sc' s5 := hresults
  -- the scope at the top of the text
  obtain ⟨h2, hlt, hhidden, hspace⟩ := onward_privateGenerator hg
  have hplain : Onward s2 (afterPlain s2 g Relation.anonymous none) :=
    .of_further rfl further_afterPlain le_rfl rfl
  have hafter := hplain.trans (onward_noted _ o)
  have htop : Apt s1.hidden { url, firstLine, topLevel := true, grouping, generator := g, globals, dest }
      s2 := ⟨hlt, hspace, hhidden, by simp, by simp⟩
  have hbefore := ((onward_globalGenerator hglobals).trans h2).trans hafter
  simp only at h
  split at h
  next y _ =>
    obtain ⟨st, -, hst⟩ := steps_mapM_singleton hresults
    refine (hbefore.trans (onward_topStatement (hafter.apt htop) hst)).trans ?_
    rcases Program.returns_resolve h with ⟨-, rfl⟩ | ⟨-, rfl⟩
    · exact .refl _
    · exact .of_further rfl (.of_generators rfl) le_rfl rfl
  · simp at h
  · simp at h

end DiffLang.Places
