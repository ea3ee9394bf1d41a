import DiffLang.Proofs.Reading.Bodies

/-!
# Reading expressions

Reading an expression looks up the names of its text and computes one term. Functions inside it are
read in scopes of their own; they are closed, and take what they use of the scope around them as
their first parameters.
-/

namespace DiffLang.Reading

open Run Session Growth Freshness Scoping Meaning Source List

variable {sc sc1 sc2 sc' : Scope} {s s1 s2 s' : Session} {o : Option Origin} {name : String}
  {R B : List String} {D : List Note} {fs gs : List Header} {ds : List Deed} {g : Bool}

/-- What reading something does, in any scope: it looks up the names `R`, makes variables for `B`,
leaves `D` noted, reads the functions `fs`, and does what `deeds` says of the result. -/
def Follows {α : Type} (g : Bool) (act : Reader α) (R B : List String) (D : List Note)
    (fs : List Header) (deeds : α → List Deed) : Prop :=
  ∀ ⦃o : Option Origin⦄ ⦃sc sc' : Scope⦄ ⦃s s' : Session⦄ ⦃a : α⦄, Steps act o sc s a sc' s' →
    Ready sc s → sc.grouping.isSome = g → Read R B D fs (deeds a) sc s sc' s'

variable {t : Term} {K : List Symbol} {i : TermId} {op : String} {ts : List Term} {pos : Pos}
variable {own : Option String} {ref : Ident} {p : Scope} {trial pull : Bool}

theorem Read.made (h : Read R B D fs ds sc s sc' s1) (hr : Ready sc s) (hsets : sets ds = [])
    (hq : Quiet s1 s') (ht : ∀ K, Covered K ds → Bound K t ∧ straight t = true) :
    Read R B D fs [.compute t] sc s sc' s' :=
  Read.before hr (h.reshape (by rw [hsets]; rfl) fun _ K hK => ⟨ht K hK, trivial⟩)
    hq.registers

theorem bound_builtin : Bound K (.ident ⟨i, .builtin name⟩) := by
  refine bound_ident.mpr (.inl ?_)
  show Namespace.isGlobal (.named "global::builtin") = true
  decide +kernel

theorem straight_ident (x : Ident) : straight (.ident x) = true := by simp [straight]

theorem covered_call {j : TermId} (h : Covered K (computes ts)) :
    Bound K (.apply i (.ident ⟨j, .builtin op⟩) ts) ∧
      straight (.apply i (.ident ⟨j, .builtin op⟩) ts) = true := by
  obtain ⟨h1, h2⟩ := covered_computes.mp h
  refine ⟨bound_apply.mpr ⟨bound_builtin, h1⟩, ?_⟩
  rw [straight, straight_ident, h2]
  rfl

theorem covered_tuple
    (h : Covered K (computes ts)) : Bound K (.tuple i ts) ∧ straight (.tuple i ts) = true := by
  obtain ⟨h1, h2⟩ := covered_computes.mp h
  exact ⟨bound_tuple.mpr h1, by rw [straight, h2]⟩

theorem quiet_builtin (h : Returns (builtin op) o s t s') :
    (∃ j, t = .ident ⟨j, .builtin op⟩) ∧ Quiet s s' := by
  rw [returns_builtin] at h
  obtain ⟨rfl, rfl⟩ := h
  exact ⟨⟨_, rfl⟩, Quiet.noted s o⟩

theorem quiet_operator (h : Returns (operator op) o s t s') :
    (∃ j name, t = .ident ⟨j, .builtin name⟩) ∧ Quiet s s' := by
  obtain ⟨name, i, -, rfl, hq⟩ := returns_operator h
  exact ⟨⟨i, name, rfl⟩, hq⟩

theorem read_literal {v : Value} (h : Returns (literal v) o s t s') (hr : Ready sc s) :
    Read [] [] [] [] [.compute t] sc s sc s' := by
  rw [returns_literal] at h
  obtain ⟨rfl, rfl⟩ := h
  exact Read.compute (Quiet.noted s o).registers hr fun K =>
    ⟨bound_literal, by simp [straight]⟩

/-- Two steps one after the other, the first of which makes no variables. -/
theorem Read.and {R1 R2 B2 : List String} {D1 D2 : List Note} {ds1 ds2 : List Deed}
    (h1 : Read R1 [] D1 fs ds1 sc s sc1 s1) (h2 : Read R2 B2 D2 gs ds2 sc1 s1 sc' s')
    (hr : Ready sc s) : Read (R1 ++ R2) B2 (D1 ++ D2) (fs ++ gs) (ds1 ++ ds2) sc s sc' s' := by
  have := h1.append h2 hr
  rwa [without_nil] at this

theorem Same.grouped (h : Same sc sc') (hg : sc.grouping.isSome = g) :
    sc'.grouping.isSome = g := by
  rw [h.grouping]
  exact hg

theorem steps_guard {α : Type} {b : Bool} {text : String} {l : Option Location}
    {f : PUnit → Reader α} {a : α} :
    Steps (if b = true then (do let r ← (liftM (syntaxFailure text l : Run PUnit)); f r)
      else f ()) o sc s a sc' s' ↔ b = false ∧ Steps (f ()) o sc s a sc' s' := by
  cases b with
  | true | false => simp

/-! ## Names -/

theorem read_name {id : String} :
    Follows g (expr (.name pos id)) [id] [] [] [] fun t => [.compute t] := by
  intro o sc sc' s s' t h hr _
  rw [expr, steps_located, steps_bind] at h
  obtain ⟨x, sc1, s1, hx, h⟩ := h
  obtain ⟨h1, -⟩ := read_occurrence hx hr
  simp only [steps_bind, steps_lift, steps_pure] at h
  obtain ⟨l, _, s2, ⟨hl, rfl⟩, h⟩ := h
  have hq := Quiet.currentLocation hl
  cases l with
  | some | none =>
    obtain ⟨_, _, _, ⟨hset, rfl⟩, rfl, rfl, rfl⟩ := h
    exact Read.before hr h1 (hq.trans (Quiet.setOrigin hset)).registers

/-! ## Functions -/

theorem lookup_singleton {m n : String} {x : Ident} :
    List.lookup n [(m, x)] = if n = m then some x else none := by
  by_cases hn : n = m
  · simp [hn]
  · have hne : (n == m) = false := by simpa using hn
    simp [lookup_cons, hn, hne]

theorem Inside.has (h : Inside sc p trial pull (ownName own ref)) {n : String} :
    Has p n ↔ own = some n := by
  unfold Has
  rw [h.bindings]
  cases own with
  | none => simp [ownName]
  | some m =>
    rw [ownName, lookup_singleton]
    grind

theorem Inside.knows (h : Inside sc p trial pull (ownName own ref)) (href : ref.sym.isGlobal = true)
    :
    Knows p [] := by
  intro n x hx
  rw [h.bindings] at hx
  cases own with
  | none => simp [ownName] at hx
  | some m =>
    rw [ownName, lookup_singleton] at hx
    split at hx
    · injection hx with hx
      subst hx
      exact .inl href
    · cases hx

/-- A function whose body was read in a scope of its own, and which is made in the scope around it.
That scope may have changed meanwhile. The function is closed, and the names that are free in it
are those of its body that it does not have itself. -/
theorem read_closure {p' : Scope} {f : Option Header} {xs : List Ident} {body : Term} {params : List String}
    (hin : Inside sc p sc.trial true (ownName own ref)) (hdest : p.dest = ref)
    (href : sc.trial = false → ref.sym.isGlobal = true)
    (hread : Read (without R params) B D fs (.set (xs.map (·.sym)) :: ds) p s p' s1)
    (hbody : sc.trial = false → ∀ K, Covered K ds → Knows p' (sets ds ++ K) → Fulfils K ds body)
    (hsame : Same sc sc1) (hr : Ready sc1 s2) (h : Steps (construct p' xs body) o sc1 s2 t sc' s')
    (hf : ∀ k ∈ f, k.outside = without R (own.toList ++ params) ∧ Forall₂ For k.params.names xs) :
    Read (without R (own.toList ++ params)) [] [] f.toList [.compute t] sc1 s2 sc' s' := by
  have hok : sc1.trial = false → Registrable p'.dest (p'.free.map Prod.snd ++ xs) body := by
    intro ht
    rw [hsame.trial] at ht
    obtain ⟨F, hF⟩ := hread.tidy (by rw [hin.trial]; exact ht) (.inl hin.pull)
    refine ⟨?_, fun g => hF.made hin.free (hin.knows (href ht)) hread.private
      (fun K _ => hbody ht K) g⟩
    rw [hread.same.dest, hdest]
    exact href ht
  have hfree : ∀ n, n ∈ p'.free.map Prod.fst ↔
      n ∈ without R (own.toList ++ params) ∧ (Has sc n ∨ Visible sc n) := by
    intro n
    have hfree := hread.free n
    unfold Free at hfree
    rw [hfree, hin.free, hin.visible, hin.has]
    simp only [map_nil, not_mem_nil, false_or, mem_without, mem_append,
      Option.mem_toList, not_or]
    grind
  have hfits : ∀ k ∈ f, k.Fits (p'.free.map Prod.snd) xs := by
    intro k hk
    obtain ⟨hout, hown⟩ := hf k hk
    refine ⟨fun x hx => ?_, hown⟩
    obtain ⟨b, hb, rfl⟩ := mem_map.mp hx
    exact ⟨b.1, hout ▸ ((hfree b.1).mp (mem_map_of_mem hb)).1,
      hread.ready.labelled (hread.same.pull.trans hin.pull) b hb⟩
  refine (read_construct h hr hok hfits).congr (fun n hn => ((hfree n).mp hn).1) (fun n hn hv => ?_)
    (fun _ => Iff.rfl) fun _ => Iff.rfl
  exact (hfree n).mpr ⟨hn, .inr (hsame.visible.mp hv)⟩

theorem read_lambda {params : Params} {body : Expr}
    (hbody : Follows g (expr body) (namesOf g body) [] [] (functionsOf g body) fun t => [.compute t]) :
    Follows g (expr (.lambda pos params body)) (namesOf g (.lambda pos params body)) [] []
      (functionsOf g (.lambda pos params body)) fun t => [.compute t] := by
  intro o sc sc' s s' t h hr hg
  rw [expr, steps_located] at h
  simp only [steps_bind] at h
  obtain ⟨ref, sc1, s1, href, p, sc2, s2, hp, ⟨⟨xs, b⟩, p'⟩, sc3, s3, hin, h⟩ := h
  obtain ⟨rfl, hreg, hglobal⟩ := steps_globalName href hr
  obtain ⟨rfl, hreg', hinside, hready, hdest⟩ := steps_closureScope hp (hr.grows hreg.grows)
  simp only [steps_inScope, steps_bind, steps_pure] at hin
  obtain ⟨⟨xs', p1, s4, hxs, b', p2, s5, hb, hpair, rfl, rfl⟩, rfl⟩ := hin
  injection hpair with hx hb'
  subst hx hb'
  -- the parameters, and then the body
  obtain ⟨h1, hfor, -⟩ := read_newVariables hxs hready
  have h2 := hbody hb h1.ready (h1.same.grouped (by rw [hinside.grouping]; exact hg))
  have hinner := h1.append h2 hready
  have hall := (hreg.trans hreg').trans hinner.registers
  rw [functionsOf]
  refine Read.entering hr hall (fun ht => (hreg.trans hreg').entered
    (hinner.entered (hinside.trial.trans ht))) ?_
  refine read_closure (f := some _) hinside hdest hglobal hinner (fun _ K hK _ => ?_) (Same.refl _)
    (hr.grows hall.grows) h fun k hk => ?_
  · exact fulfils_straight hK.1.1 hK.1.2 rfl
  · obtain rfl := Option.mem_some.mp hk
    exact ⟨by rw [namesOf]; rfl, hfor⟩

/-! ## Expressions -/

theorem covered_of_append {us : List Term}
    (h : Covered K (computes (ts ++ us))) : Covered K (computes ts) ∧ Covered K (computes us) := by
  unfold computes at h
  rw [map_append] at h
  obtain ⟨h1, h2⟩ := covered_append.mp h
  have hsets : sets (List.map Deed.compute ts) = [] := sets_computes ts
  rw [hsets] at h2
  exact ⟨h1, h2⟩

theorem read_call {fn : Expr} {args : List Expr} {keywords : Bool}
    (hfn : Follows g (expr fn) (namesOf g fn) [] [] (functionsOf g fn) fun t => [.compute t])
    (hargs : Follows g (exprs args) (namesOfAll g args) [] [] (functionsOfAll g args) computes) :
    Follows g (expr (.call pos fn args keywords)) (namesOf g (.call pos fn args keywords)) [] []
      (functionsOf g (.call pos fn args keywords)) fun t => [.compute t] := by
  intro o sc sc' s s' t h hr hg
  rw [expr, steps_located] at h
  simp only [steps_guard] at h
  obtain ⟨-, h⟩ := h
  rw [steps_bind] at h
  obtain ⟨_, sc1, s1, hstar, h⟩ := h
  -- no argument is starred
  obtain ⟨rfl, rfl⟩ : sc1 = sc ∧ s1 = s := by
    refine steps_forIn_still ?_ hstar
    intro a u sc s r sc' s' h
    split at h
    · simp only [steps_bind, steps_lift, returns_syntaxFailure, false_and, exists_false,
        and_false] at h
    · rw [steps_pure] at h
      exact ⟨h.2.1.symm, h.2.2.symm⟩
  simp only [steps_bind, steps_get] at h
  obtain ⟨xs, sc2, s2, hxs, _, _, _, ⟨rfl, rfl, rfl⟩, h⟩ := h
  have h1 := hargs hxs hr hg
  have hg2 := h1.same.grouped hg
  rw [namesOf, functionsOf]
  split at h
  next p n hgroup =>
    -- the form that groups gradients
    simp only [steps_bind, steps_lift, returns_tuple] at h
    obtain ⟨_, _, _, ⟨⟨rfl, rfl⟩, rfl⟩, ⟨rfl, rfl⟩, rfl⟩ := h
    have hform : groupsGradients g (.name p "GRAD") = true := by
      rw [← hg2, hgroup]
      rfl
    rw [hform, if_pos rfl, append_nil, functionsOf, append_nil]
    refine h1.made hr (sets_computes _) ((Quiet.noted _ _).trans (Quiet.noted _ _)) fun K hK => ?_
    rw [← take_append_drop n xs] at hK
    obtain ⟨hfirst, hrest⟩ := covered_of_append hK
    obtain ⟨hb, hn⟩ := @covered_tuple K s2.origins.size _ hfirst
    exact covered_tuple ⟨⟨hb, hn⟩, hrest⟩
  next fn _ _ hother =>
    simp only [steps_bind, steps_lift, returns_apply] at h
    obtain ⟨f, sc3, s3, hf, ⟨rfl, rfl⟩, rfl⟩ := h
    have hform : groupsGradients g fn = false := by
      rw [← hg2]
      unfold groupsGradients
      split
      next p =>
        cases hgroup : sc2.grouping with
        | none => rfl
        | some n => exact (hother p n rfl hgroup).elim
      · rfl
    rw [hform, if_neg (by simp)]
    have h2 := hfn hf h1.ready hg2
    refine (h1.and h2 hr).made hr (by simp [sets]) (Quiet.noted _ _) fun K hK => ?_
    obtain ⟨hx, hf⟩ := covered_append.mp hK
    rw [sets_computes] at hf
    obtain ⟨hxb, hxn⟩ := covered_computes.mp hx
    exact ⟨bound_apply.mpr ⟨hf.1.1, hxb⟩, by rw [straight, hf.1.2, hxn]; rfl⟩

theorem Read.operation {j : TermId} (ts : List Term) (h : Read R [] [] fs (computes ts) sc s sc' s1)
    (hr : Ready sc s) (ht : Returns (apply (.ident ⟨j, .builtin op⟩) ts) o s1 t s') :
    Read R [] [] fs [.compute t] sc s sc' s' := by
  rw [returns_apply] at ht
  obtain ⟨rfl, rfl⟩ := ht
  exact h.made hr (sets_computes _) (Quiet.noted _ _) fun K hK => covered_call hK

theorem mapM_operator_quiet {ops : List String} {fs : List Term}
    (h : Steps (ops.mapM fun op => (liftM (operator op) : Reader Term)) o sc s fs sc' s') :
    sc = sc' ∧ Quiet s s' ∧ ∀ f ∈ fs, ∃ j name, f = .ident ⟨j, .builtin name⟩ := by
  induction ops generalizing fs s with
  | nil =>
    obtain ⟨rfl, rfl, rfl⟩ := steps_mapM_nil.mp h
    exact ⟨rfl, Quiet.refl s, by simp⟩
  | cons op ops ih =>
    obtain ⟨f, _, s1, hstep, fs', hfs, rfl⟩ := steps_mapM_cons.mp h
    obtain ⟨hf, rfl⟩ := steps_lift.mp hstep
    obtain ⟨hop, hq⟩ := quiet_operator hf
    obtain ⟨rfl, hq', hall⟩ := ih hfs
    exact ⟨rfl, hq.trans hq', forall_mem_cons.mpr ⟨hop, hall⟩⟩

mutual

theorem read_expr (g : Bool) :
    ∀ e : Expr, Follows g (expr e) (namesOf g e) [] [] (functionsOf g e) fun t => [.compute t]
  | .name pos id => by
    rw [namesOf, functionsOf]
    exact read_name
  | .constant pos v => by
    intro o sc sc' s s' t h hr _
    rw [expr, steps_located, steps_lift] at h
    obtain ⟨h, rfl⟩ := h
    rw [namesOf, functionsOf]
    exact read_literal h hr
  | .binary pos op left right => by
    intro o sc sc' s s' t h hr hg
    rw [expr, steps_located] at h
    simp only [steps_bind, steps_lift] at h
    obtain ⟨f, _, s1, ⟨hf, rfl⟩, l, sc2, s2, hl, r, sc3, s3, hr', ht, rfl⟩ := h
    obtain ⟨⟨j, name, rfl⟩, hq⟩ := quiet_operator hf
    have hr1 := hr.grows (Grows.of_quiet hq)
    have h1 := read_expr g left hl hr1 hg
    have h2 := read_expr g right hr' h1.ready (h1.same.grouped hg)
    rw [namesOf, functionsOf]
    exact Read.after hr hq.registers ((h1.and h2 hr1).operation [l, r] hr1 ht)
  | .unary pos op operand => by
    intro o sc sc' s s' t h hr hg
    rw [expr, steps_located] at h
    simp only [steps_bind, steps_lift] at h
    obtain ⟨f, _, s1, ⟨hf, rfl⟩, x, sc2, s2, hx, ht, rfl⟩ := h
    obtain ⟨⟨j, name, rfl⟩, hq⟩ := quiet_operator hf
    have hr1 := hr.grows (Grows.of_quiet hq)
    have h1 := read_expr g operand hx hr1 hg
    rw [namesOf, functionsOf]
    exact Read.after hr hq.registers (h1.operation [x] hr1 ht)
  | .compare pos left ops rights => by
    intro o sc sc' s s' t h hr hg
    rw [expr, steps_located, steps_bind] at h
    obtain ⟨fs, sc1, s1, hfs, h⟩ := h
    obtain ⟨rfl, hq, hall⟩ := mapM_operator_quiet hfs
    have hr1 := hr.grows (Grows.of_quiet hq)
    split at h
    next f _ =>
      simp only [steps_bind, steps_lift] at h
      obtain ⟨l, sc2, s2, hl, r, sc3, s3, hr', ht, rfl⟩ := h
      obtain ⟨j, name, rfl⟩ := hall f (by simp)
      have h1 := read_expr g left hl hr1 hg
      have h2 := read_firstExpr g rights hr' h1.ready (h1.same.grouped hg)
      rw [namesOf, functionsOf]
      exact Read.after hr hq.registers
        ((h1.and h2 hr1).operation [l, r] hr1 ht)
    · simp at h
  | .call pos fn args keywords => read_call (read_expr g fn) (read_exprs g args)
  | .attribute pos object name => by
    intro o sc sc' s s' t h hr hg
    rw [expr, steps_located] at h
    simp only [steps_bind, steps_lift] at h
    obtain ⟨f, _, s1, ⟨hf, rfl⟩, x, sc2, s2, hx, a, _, s3, ⟨ha, rfl⟩, ht, rfl⟩ := h
    obtain ⟨⟨j, rfl⟩, hq⟩ := quiet_builtin hf
    have hr1 := hr.grows (Grows.of_quiet hq)
    have h1 := read_expr g object hx hr1 hg
    have h2 := (h1.and (read_literal ha h1.ready) hr1).operation [x, a] hr1 ht
    rw [append_nil, append_nil] at h2
    rw [namesOf, functionsOf]
    exact Read.after hr hq.registers h2
  | .subscript pos object index => by
    intro o sc sc' s s' t h hr hg
    rw [expr, steps_located] at h
    simp only [steps_bind, steps_lift] at h
    obtain ⟨f, _, s1, ⟨hf, rfl⟩, x, sc2, s2, hx, i, sc3, s3, hi, ht, rfl⟩ := h
    obtain ⟨⟨j, rfl⟩, hq⟩ := quiet_builtin hf
    have hr1 := hr.grows (Grows.of_quiet hq)
    have h1 := read_expr g object hx hr1 hg
    have h2 := read_expr g index hi h1.ready (h1.same.grouped hg)
    rw [namesOf, functionsOf]
    exact Read.after hr hq.registers ((h1.and h2 hr1).operation [x, i] hr1 ht)
  | .slice pos lower upper step => by
    intro o sc sc' s s' t h hr hg
    rw [expr, steps_located] at h
    simp only [steps_bind, steps_lift] at h
    obtain ⟨f, _, s1, ⟨hf, rfl⟩, a, sc2, s2, ha, b, sc3, s3, hb, c, sc4, s4, hc, ht, rfl⟩ := h
    obtain ⟨⟨j, rfl⟩, hq⟩ := quiet_builtin hf
    have hr1 := hr.grows (Grows.of_quiet hq)
    have h1 := read_exprOr g _ lower ha hr1 hg
    have h2 := read_exprOr g _ upper hb h1.ready (h1.same.grouped hg)
    have h12 := h1.and h2 hr1
    have h3 := read_exprOr g _ step hc h2.ready (h12.same.grouped hg)
    rw [namesOf, functionsOf]
    exact Read.after hr hq.registers
      ((h12.and h3 hr1).operation [a, b, c] hr1 ht)
  | .tuple pos items => by
    intro o sc sc' s s' t h hr hg
    rw [expr, steps_located] at h
    simp only [steps_bind, steps_lift, returns_newId, steps_pure] at h
    obtain ⟨i, _, s1, ⟨⟨rfl, rfl⟩, rfl⟩, ts, sc2, s2, hts, rfl, rfl, rfl⟩ := h
    have hq := Quiet.noted s (some ⟨.place (sc.place pos), "parse"⟩)
    have hr1 := hr.grows (Grows.of_quiet hq)
    have h1 := read_exprs g items hts hr1 hg
    rw [namesOf, functionsOf]
    refine Read.after hr hq.registers (h1.made hr1 (sets_computes _) (Quiet.refl _) ?_)
    exact fun K hK => covered_tuple hK
  | .lambda pos params body => read_lambda (read_expr g body)
  | .other pos kind => by
    intro o sc sc' s s' t h hr _
    rw [expr] at h
    simp at h

theorem read_exprs (g : Bool) :
    ∀ es : List Expr, Follows g (exprs es) (namesOfAll g es) [] [] (functionsOfAll g es) computes
  | [] => by
    intro o sc sc' s s' ts h hr _
    rw [exprs, steps_pure] at h
    obtain ⟨rfl, rfl, rfl⟩ := h
    rw [namesOfAll, functionsOfAll]
    exact Read.still (Registers.refl s) hr
  | e :: es => by
    intro o sc sc' s s' ts h hr hg
    rw [exprs] at h
    simp only [steps_bind, steps_pure] at h
    obtain ⟨t, sc1, s1, ht, ts', sc2, s2, hts, rfl, rfl, rfl⟩ := h
    have h1 := read_expr g e ht hr hg
    have h2 := read_exprs g es hts h1.ready (h1.same.grouped hg)
    rw [namesOfAll, functionsOfAll]
    exact h1.and h2 hr

theorem read_firstExpr (g : Bool) :
    ∀ es : List Expr, Follows g (firstExpr es) (namesOfFirst g es) [] [] (functionsOfFirst g es)
      fun t => [.compute t]
  | [] => by
    intro o sc sc' s s' t h hr _
    rw [firstExpr] at h
    exact (steps_throw.mp h).elim
  | e :: es => by
    intro o sc sc' s s' t h hr hg
    rw [firstExpr] at h
    rw [namesOfFirst, functionsOfFirst]
    exact read_expr g e h hr hg

theorem read_exprOr (g : Bool) (missing : Value) :
    ∀ e : Option Expr,
      Follows g (exprOr missing e) (namesOfOption g e) [] [] (functionsOfOption g e)
        fun t => [.compute t]
  | none => by
    intro o sc sc' s s' t h hr _
    rw [exprOr, steps_lift] at h
    obtain ⟨h, rfl⟩ := h
    rw [namesOfOption, functionsOfOption]
    exact read_literal h hr
  | some e => by
    intro o sc sc' s s' t h hr hg
    rw [exprOr] at h
    rw [namesOfOption, functionsOfOption]
    exact read_expr g e h hr hg

end

end DiffLang.Reading
