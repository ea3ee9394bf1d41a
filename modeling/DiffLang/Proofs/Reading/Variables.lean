import DiffLang.Proofs.Reading.Scopes

/-!
# Variables of the reader

What each way of making or looking up a variable does to the scope, as a `Read` step, and what the
scopes inside the current one are like when they are made.
-/

namespace DiffLang.Reading

open Run Session Growth Freshness Scoping Meaning List

variable {sc sc1 sc' : Scope} {s s1 s2 s' : Session} {o : Option Origin} {name : String}

/-! ## Making variables -/

variable {x : Ident} {n label : String} {K : List Symbol} {keep trial free pull : Bool} {p : Scope}

theorem has_put :
    Has { sc with bindings := put (· == ·) name x sc.bindings } n ↔ n = name ∨ Has sc n := by
  unfold Has
  rw [lookup_put]
  by_cases hn : n = name
  · simp [hn]
  · simp [hn]

theorem lookup_put_cases {y : Ident} {bs : Bindings}
    (h : (put (· == ·) name x bs).lookup n = some y) :
    n = name ∧ y = x ∨ n ≠ name ∧ bs.lookup n = some y := by
  rw [lookup_put] at h
  by_cases hn : n = name
  · simp only [hn, beq_self_eq_true, if_true, Option.some.injEq] at h
    exact .inl ⟨hn, h.symm⟩
  · simp only [beq_iff_eq, hn, if_false] at h
    exact .inr ⟨hn, h⟩

theorem fresh_singleton {g : GeneratorId} {x : Symbol} (h : New g s s' x) : Fresh g s s' [x] :=
  ⟨by simp, by simpa using h⟩

theorem steps_newVariable (h : Steps (newVariable name) o sc s x sc' s') (hr : Ready sc s) :
    sc' = { sc with bindings := put (· == ·) name x sc.bindings } ∧
      New sc.generator s s' x.sym ∧ Registers s s' ∧ s'.lambdas = s.lambdas ∧ For name x := by
  unfold newVariable at h
  rw [steps_get_bind] at h
  simp only [steps_bind, steps_lift, returns_freshPlain, returns_ident, steps_set,
    steps_pure] at h
  obtain ⟨sym, _, _, ⟨⟨rfl, rfl⟩, rfl⟩, _, _, _, ⟨⟨rfl, rfl⟩, rfl⟩,
    _, _, _, ⟨rfl, rfl⟩, rfl, rfl, rfl⟩ := h
  have hgrows : Grows s (noted (afterPlain s sc.generator name none) o) :=
    grows_afterPlain.trans (grows_noted _ _)
  exact ⟨rfl, new_afterPlain hr.generator.1, Registers.of_grows hgrows ⟨rfl, rfl⟩, rfl, _, _,
    rfl⟩

theorem read_of_put (hr : Ready sc s) (hx : New sc.generator s s' x.sym) (h : Registers s s') :
    Read [] [name] [] [] [.set [x.sym]] sc s
      { sc with bindings := put (· == ·) name x sc.bindings } s' := by
  refine ⟨⟨rfl⟩, fun n => ?_, fun n => ?_, fun n => ?_, by simp, h, ?_, fun _ => .nil,
    fun _ _ => ⟨[], ?_⟩⟩
  · rw [has_put]
    grind
  · simp [Free]
  · simp
  · have hr' := hr.grows h.grows
    exact ⟨hr'.sound, hr'.generator, hr'.globals,
      fun hp n hn => has_put.mpr (.inr (hr.pulled hp n hn)), hr.labelled⟩
  · refine ⟨(append_nil _).symm, fun _ => rfl, fresh_singleton hx, fun K _ _ => trivial,
      fun n y hy => ?_⟩
    rcases lookup_put_cases hy with ⟨-, rfl⟩ | ⟨hn, hold⟩
    · exact .inr (by simp [sets])
    · exact .inl ⟨by simpa using hn, hold⟩

theorem read_newVariable (h : Steps (newVariable name) o sc s x sc' s')
    (hr : Ready sc s) : Read [] [name] [] [] [.set [x.sym]] sc s sc' s' := by
  obtain ⟨rfl, hx, hreg, -⟩ := steps_newVariable h hr
  exact read_of_put hr hx hreg

/-- Noting what happens in a scope. -/
theorem read_noted {assigned : List String} {returns : Bool} {D : List Note} (hr : Ready sc s)
    (hassigned : ∀ n, n ∈ assigned ↔ n ∈ sc.assigned ∨ .sets n ∈ D)
    (hreturns : returns = true ↔ sc.returns = true ∨ .returns ∈ D) :
    Read [] [] D [] [] sc s { sc with assigned, returns } s :=
  ⟨⟨rfl⟩, fun n => by simp [Has], fun n => by simp [Free], hassigned, hreturns, Registers.refl s,
    ⟨hr.sound, hr.generator, hr.globals, hr.pulled, hr.labelled⟩, fun _ => .nil,
    fun _ _ => ⟨[], tidy_still rfl rfl⟩⟩

theorem read_noteAssigned (hr : Ready sc s) :
    Read [] [] [.sets name] [] [] sc s
      (if sc.assigned.contains name then sc
        else { sc with assigned := sc.assigned ++ [name] }) s := by
  split
  next hmem =>
    have hmem : name ∈ sc.assigned := by simpa using hmem
    refine read_noted hr (fun n => ?_) (by simp)
    simp only [mem_singleton, Note.sets.injEq]
    grind
  · exact read_noted hr (fun n => by simp) (by simp)

theorem read_declare (h : Steps (declare name) o sc s x sc' s') (hr : Ready sc s) :
    Read [] [name] [.sets name] [] [.set [x.sym]] sc s sc' s' := by
  unfold declare at h
  simp only [steps_bind, steps_modify, steps_pure] at h
  obtain ⟨x', sc1, s1, h1, _, _, _, ⟨rfl, rfl⟩, rfl, rfl, rfl⟩ := h
  have h1 := read_newVariable h1 hr
  exact h1.append (read_noteAssigned h1.ready) hr

theorem read_returns (hr : Ready sc s) :
    Read [] [] [.returns] [] [] sc s { sc with returns := true } s :=
  read_noted hr (fun n => by simp) (by simp)

/-! ## Looking names up -/

def Found (sc : Scope) (name : String) (free : Bool) (x : Ident) : Prop :=
  ∃ y, Nested.find? sc.bindings sc.outer name = some (free, y) ∧ x.sym = y.sym

theorem Found.own (h : Found sc name false x) :
    ∃ y, sc.bindings.lookup name = some y ∧ x.sym = y.sym := by
  obtain ⟨y, hy, hsym⟩ := h
  unfold Nested.find? at hy
  split at hy
  next a ha =>
    injection hy with hy
    injection hy with _ hy
    subst hy
    exact ⟨a, ha, hsym⟩
  · cases hf : sc.outer.findSome? (List.lookup name) <;> simp [hf] at hy

theorem Found.not_own (h : Found sc name true x) :
    ¬ Has sc name ∧ Visible sc name := by
  obtain ⟨y, hy, -⟩ := h
  unfold Nested.find? at hy
  split at hy
  · simp at hy
  next hnone =>
    refine ⟨by simp [Has, hnone], ?_⟩
    unfold Visible
    cases hf : sc.outer.findSome? (List.lookup name) with
    | none => simp [hf] at hy
    | some z => rfl

theorem Found.of_has (h : Found sc name free x) (hhas : Has sc name) :
    ∃ y, sc.bindings.lookup name = some y ∧ x.sym = y.sym := by
  cases free with
  | false => exact h.own
  | true => exact absurd hhas h.not_own.1

theorem Found.bound (h : Found sc name free x) (hhas : Has sc name) (hK : Knows sc K) :
    x.sym.isGlobal = true ∨ x.sym ∈ K := by
  obtain ⟨y, hy, hsym⟩ := h.of_has hhas
  rw [hsym]
  exact hK name y hy

theorem returns_find? {r : Option (Bool × Ident)} (h : Returns (find? sc name keep) o s r s') :
    Quiet s s' ∧
      ((∃ free x, r = some (free, x) ∧ Found sc name free x) ∨
        (r = none ∧ ¬ Has sc name ∧ ¬ Visible sc name)) := by
  unfold find? at h
  split at h
  next free y hy =>
    simp only [returns_bind, returns_pure] at h
    obtain ⟨x, s1, hx, rfl, rfl⟩ := h
    obtain ⟨hsym, hq⟩ := returns_copy hx
    exact ⟨hq, .inl ⟨free, x, rfl, y, hy, hsym⟩⟩
  next hnone =>
    rw [returns_pure] at h
    obtain ⟨rfl, rfl⟩ := h
    refine ⟨Quiet.refl s, .inr ⟨rfl, ?_⟩⟩
    unfold Nested.find? at hnone
    split at hnone
    · cases hnone
    next hl =>
      rw [Option.map_eq_none_iff] at hnone
      exact ⟨by simp [Has, hl], by simp [Visible, hnone]⟩

theorem steps_existing (h : Steps (existing name keep) o sc s x sc' s') :
    sc = sc' ∧ Quiet s s' ∧ ∃ free, Found sc name free x := by
  unfold existing at h
  rw [steps_get_bind] at h
  simp only [steps_bind, steps_lift] at h
  obtain ⟨r, _, s1, ⟨hr, rfl⟩, h⟩ := h
  obtain ⟨hq, ⟨free, y, rfl, hy⟩ | ⟨rfl, -⟩⟩ := returns_find? hr
  · simp only [steps_pure] at h
    obtain ⟨rfl, rfl, rfl⟩ := h
    exact ⟨rfl, hq, free, hy⟩
  · exact (steps_throw.mp h).elim

theorem existing_bound
    (h : Steps (existing name keep) o sc s x sc' s') (hhas : Has sc name) (hK : Knows sc K) :
    Bound K (.ident x) := by
  obtain ⟨-, -, free, hx⟩ := steps_existing h
  exact bound_ident.mpr (hx.bound hhas hK)

/-- A name that does not belong to an enclosing function leaves the scope as it is. -/
theorem read_known (hr : Ready sc s) (h : Registers s s') (hown : Visible sc name → Has sc name)
    (hx : ∀ K, sc.trial = false → KnowsOn [name] sc K → x.sym.isGlobal = true ∨ x.sym ∈ K) :
    Read [name] [] [] [] [.compute (.ident x)] sc s sc s' := by
  refine { Read.still h hr with has := fun n => ?_, free := fun n => ?_, tidy := fun ht _ => ?_ }
  · simp only [mem_singleton, not_mem_nil]
    grind
  · simp only [mem_singleton]
    grind
  · exact ⟨[], (append_nil _).symm, fun _ => rfl, Fresh.nil,
      fun K hK _ => ⟨⟨bound_ident.mpr (hx K ht hK), by simp [straight]⟩, trivial⟩,
      fun n y hy => .inl ⟨by simp, hy⟩⟩

theorem read_own (hr : Ready sc s) (h : Registers s s') (hx : Found sc name false x) :
    Read [name] [] [] [] [.compute (.ident x)] sc s sc s' := by
  obtain ⟨y, hy, hsym⟩ := hx.own
  refine read_known hr h (fun _ => by simp [Has, hy]) fun K _ hK => ?_
  rw [hsym]
  exact hK name (by simp) y hy

theorem for_put (hx : For name x) :
    ∀ {bs : Bindings}, (∀ b ∈ bs, For b.1 b.2) → ∀ b ∈ put (· == ·) name x bs, For b.1 b.2
  | [], _ => by simpa [put] using hx
  | (n, y) :: bs, h => by
    obtain ⟨hy, hbs⟩ := forall_mem_cons.mp h
    rw [put]
    split
    next heq => exact forall_mem_cons.mpr ⟨eq_of_beq heq ▸ hx, hbs⟩
    · exact forall_mem_cons.mpr ⟨hy, for_put hx hbs⟩

theorem read_pulled (hr : Ready sc s) (h : Registers s s') (hx : New sc.generator s s' x.sym)
    (hfor : For name x) (hown : ¬ Has sc name) (hvis : Visible sc name) (hpull : sc.pull = true) :
    Read [name] [] [] [] [.compute (.ident x)] sc s
      { sc with
        bindings := put (· == ·) name x sc.bindings
        free := put (· == ·) name x sc.free } s' := by
  have hnew : name ∉ sc.free.map Prod.fst := fun hmem => hown (hr.pulled hpull name hmem)
  have hhas : ∀ n, Has { sc with
      bindings := put (· == ·) name x sc.bindings
      free := put (· == ·) name x sc.free } n ↔ n = name ∨ Has sc n := fun n => has_put
  refine ⟨⟨rfl⟩, fun n => ?_, fun n => ?_, fun n => ?_, by simp, h, ?_, fun _ => .nil,
    fun _ _ => ⟨[(name, x)], ?_⟩⟩
  · rw [hhas]
    simp only [mem_singleton, not_mem_nil]
    grind
  · unfold Free
    rw [mem_map_fst_put]
    simp only [mem_singleton]
    grind
  · simp
  · have hr' := hr.grows h.grows
    refine ⟨hr'.sound, hr'.generator, hr'.globals, fun hp n hn => (hhas n).mpr ?_,
      fun hp => for_put hfor (hr.labelled hp)⟩
    rcases mem_map_fst_put.mp hn with hn | hn
    · exact .inl hn
    · exact .inr (hr.pulled hp n hn)
  · refine ⟨put_of_not_mem hnew, fun hp => ?_, fresh_singleton hx, fun K hK hF => ⟨⟨?_, ?_⟩, trivial⟩,
      fun n y hy => ?_⟩
    · rw [hpull] at hp
      cases hp
    · exact bound_ident.mpr (.inr (hF (by simp [symbols])))
    · simp [straight]
    · rcases lookup_put_cases hy with ⟨-, rfl⟩ | ⟨-, hold⟩
      · exact .inr (by simp [symbols])
      · exact .inl ⟨by simp, hold⟩

/-- A name that is found in an enclosing function, and is only noted. -/
theorem read_unpulled (hr : Ready sc s) (h : Registers s s') (hown : ¬ Has sc name)
    (hvis : Visible sc name) (hpull : sc.pull = false) :
    Read [name] [] [] [] [.compute (.ident x)] sc s
      { sc with free := put (· == ·) name x sc.free } s' := by
  refine ⟨⟨rfl⟩, fun n => ?_, fun n => ?_, fun n => ?_, by simp, h, ?_, fun _ => .nil,
    fun _ hset => ?_⟩
  · rw [hpull]
    simp [Has]
  · unfold Free
    rw [mem_map_fst_put]
    simp only [mem_singleton]
    grind
  · simp
  · have hr' := hr.grows h.grows
    have hnot : sc.pull ≠ true := by simp [hpull]
    exact ⟨hr'.sound, hr'.generator, hr'.globals, fun hp => absurd hp hnot,
      fun hp => absurd hp hnot⟩
  · rcases hset with hp | hset
    · rw [hpull] at hp
      cases hp
    · exact absurd (hset name (by simp) hvis) hown

theorem plain_isGlobal {g : Generator} {version : Option Nat} (h : g.space.isGlobal = true) :
    (g.plain label version).1.isGlobal = true := by
  unfold Generator.plain Symbol.isGlobal Symbol.space
  simp only
  rw [choose_space]
  exact h

theorem read_occurrence (h : Steps (occurrence name) o sc s x sc' s') (hr : Ready sc s) :
    Read [name] [] [] [] [.compute (.ident x)] sc s sc' s' ∧ s'.lambdas = s.lambdas := by
  unfold occurrence at h
  rw [steps_get_bind] at h
  simp only [steps_bind, steps_lift] at h
  obtain ⟨r, _, s1, ⟨hf, rfl⟩, h⟩ := h
  obtain ⟨hq, ⟨free, y, rfl, hy⟩ | ⟨rfl, -, hvis⟩⟩ := returns_find? hf
  all_goals have hlambdas : s1.lambdas = s.lambdas := by rw [hq.rest]
  · have hreg := hq.registers
    cases free with
    | false =>
      simp only [steps_pure] at h
      obtain ⟨rfl, rfl, rfl⟩ := h
      exact ⟨read_own hr hreg hy, hlambdas⟩
    | true =>
      obtain ⟨hown, hvis⟩ := hy.not_own
      cases hpull : sc.pull with
      | true =>
        simp only [hpull, if_true, steps_bind, steps_modify, steps_pure] at h
        obtain ⟨x', _, s2, h1, _, _, _, ⟨rfl, rfl⟩, rfl, rfl, rfl⟩ := h
        have hr1 := hr.grows hreg.grows
        obtain ⟨rfl, hnew, hreg', hlambdas', hfor⟩ := steps_newVariable h1 hr1
        exact ⟨Read.after hr hreg (read_pulled hr1 hreg' hnew hfor hown hvis hpull),
          hlambdas'.trans hlambdas⟩
      | false =>
        simp only [hpull, Bool.false_eq_true, if_false, steps_bind, steps_modify, steps_pure] at h
        obtain ⟨x', _, s2, ⟨rfl, rfl, rfl⟩, _, _, _, ⟨rfl, rfl⟩, rfl, rfl, rfl⟩ := h
        exact ⟨read_unpulled hr hreg hown hvis hpull, hlambdas⟩
  · simp only [steps_bind, steps_lift, returns_freshPlain, returns_ident] at h
    obtain ⟨sym, _, _, ⟨⟨rfl, rfl⟩, rfl⟩, ⟨rfl, rfl⟩, rfl⟩ := h
    have hreg : Registers s (noted (afterPlain s1 sc.globals name (some 1)) o) :=
      hq.registers.trans
        (Registers.of_grows (grows_afterPlain.trans (grows_noted _ _)) ⟨rfl, rfl⟩)
    refine ⟨read_known hr hreg (fun h => (hvis h).elim) fun _ ht _ => .inl ?_, hlambdas⟩
    have hspace := ((hr.grows (Grows.of_quiet hq)).globals ht).2
    exact @plain_isGlobal name (generator s1 sc.globals) (some 1) hspace

/-! ## Global names -/

theorem steps_globalName (h : Steps (globalName label) o sc s x sc' s') (hr : Ready sc s) :
    sc = sc' ∧ Registers s s' ∧ (sc.trial = false → x.sym.isGlobal = true) := by
  unfold globalName at h
  rw [steps_get_bind] at h
  simp only [steps_bind, steps_lift, returns_freshPlain, returns_ident] at h
  obtain ⟨_, _, _, ⟨⟨rfl, rfl⟩, rfl⟩, ⟨rfl, rfl⟩, rfl⟩ := h
  refine ⟨rfl, Registers.of_grows (grows_afterPlain.trans (grows_noted _ _)) ⟨rfl, rfl⟩, fun ht => ?_⟩
  exact @plain_isGlobal label (generator s sc.globals) none (hr.globals ht).2

theorem steps_partName {relation : String}
    (h : Steps (partName relation) o sc s x sc' s') (hr : Ready sc s) :
    sc = sc' ∧ Registers s s' ∧ (sc.trial = false → x.sym.isGlobal = true) := by
  unfold partName at h
  rw [steps_get_bind] at h
  simp only [steps_bind, steps_lift, returns_freshDerived, returns_ident] at h
  obtain ⟨_, _, _, ⟨⟨rfl, rfl⟩, rfl⟩, ⟨rfl, rfl⟩, rfl⟩ := h
  refine ⟨rfl, Registers.of_grows (grows_afterDerived.trans (grows_noted _ _)) ⟨rfl, rfl⟩, fun ht => ?_⟩
  exact @derive_isGlobal none relation sc.dest.sym (generator s sc.globals) (hr.globals ht).2

/-! ## Scopes inside the current one -/

/-- A scope inside another one, before anything is read in it, with its own variables. -/
structure Inside (sc p : Scope) (trial pull : Bool) (own : Bindings) : Prop where
  outer : p.outer = sc.bindings :: sc.outer
  trial : p.trial = trial
  pull : p.pull = pull
  grouping : p.grouping = sc.grouping
  bindings : p.bindings = own
  free : p.free = []
  assigned : p.assigned = []
  returns : p.returns = false
  barred : sc.returnError.isSome = true → p.returnError.isSome = true

theorem Inside.visible {own : Bindings} (h : Inside sc p trial pull own) :
    Visible p n ↔ Has sc n ∨ Visible sc n := by
  unfold Visible Has
  rw [h.outer, findSome?_cons]
  cases List.lookup n sc.bindings with
  | some | none => simp

theorem ready_of_generators (hs : Sound s) (hreg : Registers s s1)
    (hglob : p.trial = false → p.globals < s1.generators.size ∧
      (generator s1 p.globals).space.isGlobal = true)
    (hgen : Returns privateGenerator o s1 p.generator s2) (hreg' : Registers s2 s')
    (hfree : p.free = []) : Registers s s' ∧ Ready p s' := by
  obtain ⟨hlt, hspace, hsame, hgrows⟩ := returns_privateGenerator hgen
  have hall := hreg.trans ((Registers.of_grows hgrows hsame).trans hreg')
  have hgrows' : Grows s1 s' := hgrows.trans hreg'.grows
  have hprivate : Private s2 p.generator := ⟨hlt, hspace⟩
  refine ⟨hall, hall.grows.sound hs, hprivate.grows hreg'.grows, fun ht => ?_, fun _ n hn => ?_,
    fun _ => by simp [hfree]⟩
  · obtain ⟨hlt, hspace⟩ := hglob ht
    refine ⟨hlt.trans_le hgrows'.further.size, ?_⟩
    rw [hgrows'.further.space _ hlt]
    exact hspace
  · simp [Free, hfree] at hn

theorem steps_globals {α : Type} {url : String} {rest : GeneratorId → Reader α} {a : α}
    (h : Steps (if trial = true then liftM privateGenerator >>= rest
      else liftM (globalGenerator url) >>= rest) o sc s a sc' s') (hs : Sound s) :
    ∃ globals s1, Registers s s1 ∧
      (trial = false → globals < s1.generators.size ∧
        (generator s1 globals).space.isGlobal = true) ∧
      Steps (rest globals) o sc s1 a sc' s' := by
  cases trial with
  | true =>
    rw [if_pos rfl, steps_bind] at h
    obtain ⟨globals, _, s1, hmade, h⟩ := h
    obtain ⟨hglobals, rfl⟩ := steps_lift.mp hmade
    obtain ⟨-, -, hsame, hgrows⟩ := returns_privateGenerator hglobals
    exact ⟨globals, s1, Registers.of_grows hgrows hsame, fun ht => (by cases ht), h⟩
  | false =>
    rw [if_neg Bool.false_ne_true, steps_bind] at h
    obtain ⟨globals, _, s1, hmade, h⟩ := h
    obtain ⟨hglobals, rfl⟩ := steps_lift.mp hmade
    obtain ⟨hlt, hspace, hsame, hgrows⟩ := returns_globalGenerator hs hglobals
    exact ⟨globals, s1, Registers.of_grows hgrows hsame, fun _ => ⟨hlt, hspace⟩, h⟩

theorem steps_inner {dest : Option Ident} (h : Steps (inner trial pull dest) o sc s p sc' s')
    (hr : Ready sc s) :
    sc = sc' ∧ Registers s s' ∧ Inside sc p trial pull [] ∧ Ready p s' ∧
      ∀ d, dest = some d → p.dest = d := by
  unfold inner at h
  rw [steps_get_bind] at h
  obtain ⟨globals, s1, hreg, hglob, h⟩ := steps_globals h hr.sound
  cases dest with
  | some d =>
    simp only [steps_bind, steps_lift, steps_pure] at h
    obtain ⟨g, _, s2, ⟨hgen, rfl⟩, _, _, _, ⟨rfl, rfl, rfl⟩, hp, rfl, rfl⟩ := h
    obtain ⟨hall, hready⟩ := ready_of_generators (p := p) hr.sound hreg (by rw [← hp]; exact hglob)
      (by rw [← hp]; exact hgen) (Registers.refl _) (by rw [← hp])
    subst hp
    refine ⟨rfl, hall, ⟨rfl, rfl, rfl, rfl, rfl, rfl, rfl, rfl, id⟩, hready, fun e he => ?_⟩
    injection he
  | none =>
    simp only [steps_bind, steps_lift, returns_freshPlain, returns_ident, steps_pure] at h
    obtain ⟨g, _, s2, ⟨hgen, rfl⟩, _, _, _, ⟨⟨rfl, rfl⟩, rfl⟩, _, _, _, ⟨⟨rfl, rfl⟩, rfl⟩, hp,
      rfl, rfl⟩ := h
    have hname : Registers s2 (noted (afterPlain s2 g Relation.anonymous none) o) :=
      Registers.of_grows (grows_afterPlain.trans (grows_noted _ _)) ⟨rfl, rfl⟩
    obtain ⟨hall, hready⟩ := ready_of_generators (p := p) hr.sound hreg (by rw [← hp]; exact hglob)
      (by rw [← hp]; exact hgen) hname (by rw [← hp])
    subst hp
    exact ⟨rfl, hall, ⟨rfl, rfl, rfl, rfl, rfl, rfl, rfl, rfl, id⟩, hready, fun e he => by cases he⟩

def ownName (name : Option String) (ref : Ident) : Bindings :=
  match name with
  | some n => [(n, ref)]
  | none => []

theorem steps_closureScope {name : Option String} {ref : Ident}
    (h : Steps (closureScope name ref) o sc s p sc' s') (hr : Ready sc s) :
    sc = sc' ∧ Registers s s' ∧ Inside sc p sc.trial true (ownName name ref) ∧ Ready p s' ∧
      p.dest = ref := by
  unfold closureScope at h
  rw [steps_get_bind] at h
  simp only [steps_bind] at h
  obtain ⟨q, sc1, s1, hq, h⟩ := h
  obtain ⟨rfl, hreg, hin, hready, hdest⟩ := steps_inner hq hr
  cases name with
  | none =>
    simp only [steps_pure] at h
    obtain ⟨rfl, rfl, rfl⟩ := h
    exact ⟨rfl, hreg, hin, hready, hdest ref rfl⟩
  | some n =>
    simp only [steps_pure] at h
    obtain ⟨rfl, rfl, rfl⟩ := h
    refine ⟨rfl, hreg, ⟨hin.outer, hin.trial, hin.pull, hin.grouping, rfl, hin.free,
      hin.assigned, hin.returns, hin.barred⟩, ⟨hready.sound, hready.generator, hready.globals,
      fun _ n hn => ?_, fun _ => by simp [hin.free]⟩, hdest ref rfl⟩
    simp [Free, hin.free] at hn

/-! ## Several variables -/

variable {names : List String} {xs : List Ident}

theorem read_occurrences (h : Steps (names.mapM occurrence) o sc s xs sc' s') (hr : Ready sc s) :
    Read names [] [] [] (computes (xs.map .ident)) sc s sc' s' := by
  induction names generalizing xs sc s with
  | nil =>
    obtain ⟨rfl, rfl, rfl⟩ := steps_mapM_nil.mp h
    exact Read.still (Registers.refl s) hr
  | cons n names ih =>
    obtain ⟨x, sc1, s1, hx, ys, hys, rfl⟩ := steps_mapM_cons.mp h
    obtain ⟨h1, -⟩ := read_occurrence hx hr
    have h := h1.append (ih hys h1.ready) hr
    rw [without_nil] at h
    exact h

theorem read_newVariables (h : Steps (names.mapM newVariable) o sc s xs sc' s') (hr : Ready sc s) :
    Read [] names [] [] [.set (xs.map (·.sym))] sc s sc' s' ∧ Forall₂ For names xs ∧
      (∀ n, sc'.bindings.lookup n = sc.bindings.lookup n ∧ n ∉ names ∨
        ∃ x ∈ xs, sc'.bindings.lookup n = some x) := by
  induction names generalizing xs sc s with
  | nil =>
    obtain ⟨rfl, rfl, rfl⟩ := steps_mapM_nil.mp h
    exact ⟨(Read.still (Registers.refl s) hr).reshape (List.Perm.refl _) fun _ K h => h, .nil,
      fun n => .inl ⟨rfl, not_mem_nil⟩⟩
  | cons n names ih =>
    obtain ⟨x, sc1, s1, hx, ys, hys, rfl⟩ := steps_mapM_cons.mp h
    have h1 := read_newVariable hx hr
    obtain ⟨h2, hfor, hl⟩ := ih hys h1.ready
    obtain ⟨rfl, -, -, -, hfor1⟩ := steps_newVariable hx hr
    refine ⟨(h1.append h2 hr).reshape (by simp [sets]) fun _ K h => trivial, .cons hfor1 hfor,
      fun m => ?_⟩
    rcases hl m with ⟨heq, hnot⟩ | ⟨y, hy, hlook⟩
    · rw [heq, lookup_put]
      by_cases hm : m = n
      · exact .inr ⟨x, by simp, by simp [hm]⟩
      · exact .inl ⟨by simp [hm], by simp [hm, hnot]⟩
    · exact .inr ⟨y, mem_cons_of_mem _ hy, hlook⟩

theorem read_declares (h : Steps (names.mapM declare) o sc s xs sc' s') (hr : Ready sc s) :
    Read [] names (names.map .sets) [] [.set (xs.map (·.sym))] sc s sc' s' := by
  induction names generalizing xs sc s with
  | nil =>
    obtain ⟨rfl, rfl, rfl⟩ := steps_mapM_nil.mp h
    exact (Read.still (Registers.refl s) hr).reshape (List.Perm.refl _) fun _ K h => h
  | cons n names ih =>
    obtain ⟨x, sc1, s1, hx, ys, hys, rfl⟩ := steps_mapM_cons.mp h
    have h1 := read_declare hx hr
    exact (h1.append (ih hys h1.ready) hr).reshape (by simp [sets]) fun _ K h => trivial

theorem steps_existings (h : Steps (names.mapM fun n => existing n keep) o sc s xs sc' s') :
    sc = sc' ∧ Quiet s s' ∧ ∀ x ∈ xs, ∃ n ∈ names, ∃ free, Found sc n free x := by
  induction names generalizing xs s with
  | nil =>
    obtain ⟨rfl, rfl, rfl⟩ := steps_mapM_nil.mp h
    exact ⟨rfl, Quiet.refl s, by simp⟩
  | cons n names ih =>
    obtain ⟨x, sc1, s1, hx, ys, hys, rfl⟩ := steps_mapM_cons.mp h
    obtain ⟨rfl, hq, free, hf⟩ := steps_existing hx
    obtain ⟨rfl, hq', hall⟩ := ih hys
    refine ⟨rfl, hq.trans hq', forall_mem_cons.mpr ⟨⟨n, by simp, free, hf⟩, fun y hy => ?_⟩⟩
    obtain ⟨m, hm, rest⟩ := hall y hy
    exact ⟨m, mem_cons_of_mem _ hm, rest⟩

theorem existings_bound (h : ∀ x ∈ xs, ∃ n ∈ names, ∃ free, Found sc n free x)
    (hhas : ∀ n ∈ names, Has sc n) (hK : Knows sc K) : BoundAll K (xs.map .ident) := by
  rw [boundAll_idents]
  intro x hx
  obtain ⟨n, hn, free, hf⟩ := h x hx
  exact hf.bound (hhas n hn) hK

theorem straightAll_idents (xs : List Ident) : straightAll (xs.map .ident) = true := by
  induction xs with
  | nil => simp [straightAll]
  | cons x xs ih => simp [straightAll, straight, ih]

end DiffLang.Reading
