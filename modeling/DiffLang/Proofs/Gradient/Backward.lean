import DiffLang.Proofs.Gradient.Variables

/-!
# The backward part

The code of a backpropagator uses what it needs from the forward part, sensitivities that start at
zero, and what is set before. This is shown for one sum of sensitivities (`goes_accumulateAll`), then
for one binding (`goes_backward`), and then for all of them in turn (`goes_gather`).

In a sum over several leaves the old sensitivities are those from before the sum, although new ones
have been noted meanwhile: a variable that comes a second time is added afterwards. `Summing` is the
invariant of the loop over the leaves that says so.
-/

namespace DiffLang.Gradient

open Run Session Growth Freshness Scoping Meaning List

variable {G : GeneratorId → Prop} {P : Place → Prop} {E : List Symbol}
  {s s1 s2 s' : Session} {st st1 st2 st' : State} {o : Option Origin}

/-- What the code of the backpropagator may use after it has set `E`. -/
def within (E : List Symbol) (st : State) : List Symbol :=
  st.needed.map (·.sym) ++ (targets st.zeros ++ E)

theorem Extends.within (h : Extends st st') : within E st ⊆ within E st' := by
  unfold Gradient.within
  have h1 := map_subset (fun x : Ident => x.sym) h.needed.subset
  have h2 := h.targets
  intro x hx
  simp only [mem_append] at hx ⊢
  grind

variable {t value : Term} {bs : List (Term × Term)} {x y : Ident}

theorem Latest.within (h : Latest E st t) : Simple (within E st) t :=
  Simple.mono h (subset_append_right _ _)

theorem simple_of_isZero {K : List Symbol} (h : isZero t = true) : Simple K t := by
  unfold isZero at h
  split at h
  · exact simple_literal
  · cases h

/-! ## One leaf -/

theorem goes_accumulate (h : Steps (accumulate (.ident x) value) o st s bs st' s')
    (ht : Tidy G P E st s) (hv : Simple (within E st) value) :
    Goes G P E (E ++ targets bs) st s st' s' ∧ SimpleBindings (within E st') bs := by
  unfold accumulate at h
  rw [steps_about] at h
  obtain ⟨old, st1, s1, hold, h⟩ := steps_bind.mp h
  obtain ⟨rfl, hquiet, x', hx', hcases⟩ := steps_sensitivityLeaf hold
  have h1 := Goes.of_quiet ht hquiet
  have hsimple : Simple (within E st) old := by
    rcases hcases with ⟨y, hy, rfl⟩ | ⟨-, hz⟩
    · exact Latest.within (simple_ident.mpr (.inr (ht.latest _ _ hy)))
    · exact simple_of_isZero hz
  obtain ⟨new, st2, s2, hnew, h⟩ := steps_bind.mp h
  obtain ⟨h2, hst⟩ := goes_newSensitivity hnew h1.tidy
  have hsub : within E st ⊆ within E st2 := h2.extends_.within
  split at h
  · rw [steps_pure] at h
    obtain ⟨rfl, rfl, rfl⟩ := h
    exact ⟨h1.trans h2, hv.mono hsub, trivial⟩
  · simp only [steps_bind, steps_lift, Reading.returns_builtin, returns_apply, steps_pure] at h
    obtain ⟨_, _, _, ⟨⟨rfl, rfl⟩, rfl⟩, _, _, _, ⟨⟨rfl, rfl⟩, rfl⟩, rfl, rfl, rfl⟩ := h
    refine ⟨(h1.trans h2).trans (h2.tidy.goes ((grows_noted _ _).trans (grows_noted _ _))),
      simple_apply simple_builtin (SimpleAll.cons (hsimple.mono hsub)
        (SimpleAll.singleton (hv.mono hsub))), trivial⟩

/-! ## Several leaves -/

theorem go_append (ts us : List Term) :
    patternSymbols.go (ts ++ us) = patternSymbols.go ts ++ patternSymbols.go us := by
  induction ts with
  | nil => rfl
  | cons t ts ih => simp [patternSymbols.go, ih]

def Sum.targets (sum : Sum) : List Symbol :=
  patternSymbols.go sum.left ++ Meaning.targets sum.later

/-- What holds while a sum is made, by code that comes after `E` was set. -/
structure Summing (E : List Symbol) (sum : Sum) (st : State) : Prop where
  right : SimpleAll (Meaning.targets st.zeros ++ E) sum.right
  unseen : ∀ x ∉ sum.seen, ∀ y, st.sensitivities.lookup x = some y →
    y.sym ∈ Meaning.targets st.zeros ++ E
  seen : ∀ x ∈ sum.seen, ∃ y, st.sensitivities.lookup x = some y
  later : SimpleBindings (patternSymbols.go sum.left ++ (Meaning.targets st.zeros ++ E)) sum.later

theorem returns_freshNothing (h : Returns freshNothing o s x s') (hG : G Fixed.nothing.id)
    (hd : Distinct G s) : Grows s s' ∧ Made G s s' x.sym := by
  simp only [freshNothing, returns_bind, returns_freshPlain, returns_ident] at h
  obtain ⟨_, _, ⟨rfl, rfl⟩, rfl, rfl⟩ := h
  exact ⟨grows_afterPlain.trans (grows_noted _ _),
    (made_afterPlain hG hd).of_later (Later.refl s) (later_noted _ o)⟩

variable {sum : Sum}

theorem Summing.add (h : Summing E sum st) (ht : Latest E st t) :
    Summing E { sum with left := sum.left ++ [.ident x], right := sum.right ++ [t] } st := by
  refine { h with
    right := fun u hu => ?_
    later := h.later.mono ?_ }
  · rcases mem_append.mp hu with hu | hu
    · exact h.right u hu
    · rw [mem_singleton.mp hu]
      exact ht
  · show patternSymbols.go sum.left ++ _ ⊆ patternSymbols.go (sum.left ++ [.ident x]) ++ _
    rw [go_append]
    intro y hy
    simp only [mem_append] at hy ⊢
    grind

theorem Summing.note {x : Symbol} {seen : List Symbol} (h : Summing E sum st)
    (hseen : ∀ z, z ∈ seen ↔ z = x ∨ z ∈ sum.seen) :
    Summing E { sum with seen := seen }
      { st with sensitivities := put (· == ·) x y st.sensitivities } := by
  refine { h with
    unseen := fun z hz w hw => ?_
    seen := fun z hz => ?_ }
  · rw [hseen, not_or] at hz
    rw [lookup_put, if_neg fun e => hz.1 (eq_of_beq e)] at hw
    exact h.unseen z hz.2 w hw
  · rw [lookup_put]
    split
    · exact ⟨y, rfl⟩
    next hne => exact h.seen z (((hseen z).mp hz).resolve_left fun e => hne (beq_iff_eq.mpr e))

theorem Summing.after {v : Term} (h : Summing E sum st)
    (hv : Simple (sum.targets ++ (Meaning.targets st.zeros ++ E)) v) :
    Summing E { sum with later := sum.later ++ [(.ident y, v)] } st := by
  refine { h with
    later := simpleBindings_append.mpr ⟨h.later, hv.mono ?_, trivial⟩ }
  intro z hz
  simp only [Sum.targets, mem_append] at hz ⊢
  grind

theorem perm_add (x : Ident) {ts : List Term} (bs : List (Term × Term)) {seen : List Symbol} :
    (E ++ sum.targets ++ x.sym :: Meaning.targets bs).Perm
      (E ++ Sum.targets ⟨seen, sum.left ++ [.ident x], ts, sum.later ++ bs⟩) := by
  refine perm_iff_count.mpr fun z => ?_
  simp only [Sum.targets, go_append, patternSymbols.go, patternSymbols, targets_append,
    append_nil, count_append, count_cons, count_nil]
  omega

theorem goes_dummy {sum' : Sum}
    (h : Steps (do
      let x : Ident ← freshNothing
      let z ← zero
      pure { sum with left := sum.left ++ [.ident x], right := sum.right ++ [z] } : Grad Sum)
      o st s sum' st' s')
    (ht : Tidy G P (E ++ sum.targets) st s) (hs : Summing E sum st) :
    Goes G P (E ++ sum.targets) (E ++ sum'.targets) st s st' s' ∧ Summing E sum' st' := by
  obtain ⟨x, st1, s1, hx, h⟩ := steps_bind.mp h
  obtain ⟨hx', rfl⟩ := steps_lift.mp hx
  obtain ⟨hgrows, hmade⟩ := returns_freshNothing hx' ht.nothing ht.distinct
  simp only [steps_bind, steps_lift, zero, Reading.returns_literal, steps_pure] at h
  obtain ⟨_, _, _, ⟨⟨rfl, rfl⟩, rfl⟩, rfl, rfl, rfl⟩ := h
  have htidy := (ht.enter hgrows hmade).grows (grows_noted _ o)
  refine ⟨⟨htidy.perm ?_, Extends.refl st, hgrows.trans (grows_noted _ o)⟩, hs.add simple_literal⟩
  simpa using perm_add (E := E) x []

theorem steps_shapedSensitivity {r : Term}
    (h : Steps (shapedSensitivity (.ident x)) o st s r st' s')
    (hy : st.sensitivities.lookup x.sym = some y) : r = .ident y ∧ st = st' ∧ s = s' := by
  replace h : Steps (shapedLeaf (.ident x)) o st s r st' s' := h
  unfold shapedLeaf at h
  rw [steps_about] at h
  rw [steps_get_bind] at h
  simp only [hy, steps_pure] at h
  obtain ⟨rfl, rfl, rfl⟩ := h
  exact ⟨rfl, rfl, rfl⟩

theorem goes_addLeaf {sum' : Sum} {leaf : Term} (h : Steps (addLeaf sum leaf) o st s sum' st' s')
    (ht : Tidy G P (E ++ sum.targets) st s) (hs : Summing E sum st) :
    Goes G P (E ++ sum.targets) (E ++ sum'.targets) st s st' s' ∧ Summing E sum' st' := by
  unfold addLeaf at h
  rw [steps_about] at h
  generalize (some _ : Option Origin) = o at h
  split at h
  next x =>
    rw [steps_get_bind] at h
    split at h
    · exact goes_dummy h ht hs
    · split at h
      next hseen =>
        -- the leaf has been counted, so that its latest sensitivity is set by the sum itself
        have hmem : x.sym ∈ sum.seen := contains_iff_mem.mp hseen
        obtain ⟨y, hy⟩ := hs.seen x.sym hmem
        obtain ⟨temporary, st1, s1, htemp, h⟩ := steps_bind.mp h
        obtain ⟨rfl, hgrows, hmade⟩ := steps_derive htemp ht
        have h1 := ht.enter hgrows hmade
        obtain ⟨plus, st1, s2, hplus, h⟩ := steps_bind.mp h
        rw [steps_lift, Reading.returns_builtin] at hplus
        obtain ⟨⟨rfl, rfl⟩, rfl⟩ := hplus
        obtain ⟨current, st1, s2, hcurrent, h⟩ := steps_bind.mp h
        obtain ⟨rfl, rfl, rfl⟩ := steps_shapedSensitivity hcurrent hy
        obtain ⟨more, st1, s2, hmore, h⟩ := steps_bind.mp h
        rw [steps_lift, returns_apply] at hmore
        obtain ⟨⟨rfl, rfl⟩, rfl⟩ := hmore
        have hquiet := (grows_noted s1 o).trans (grows_noted _ o)
        obtain ⟨new, st2, s3, hnew, h⟩ := steps_bind.mp h
        obtain ⟨h2, rfl⟩ := goes_newSensitivity hnew (h1.grows hquiet)
        simp only [steps_bind, steps_lift, zero, Reading.returns_literal, steps_pure] at h
        obtain ⟨_, _, _, ⟨⟨rfl, rfl⟩, rfl⟩, rfl, rfl, rfl⟩ := h
        refine ⟨⟨(h2.tidy.grows (grows_noted _ o)).perm ?_, h2.extends_,
          hgrows.trans (hquiet.trans (h2.grows.trans (grows_noted _ o)))⟩, ?_⟩
        · rw [append_assoc _ [temporary.sym]]
          exact perm_add temporary [(.ident new, _)]
        · refine Summing.note (x := x.sym) (Summing.after (hs.add simple_literal) ?_) fun z =>
            ⟨.inr, fun h => h.elim (fun e => e ▸ hmem) id⟩
          refine simple_apply simple_builtin (SimpleAll.cons (simple_ident.mpr (.inr ?_))
            (SimpleAll.singleton (simple_ident.mpr (.inr ?_))))
          · simp [Sum.targets, go_append, patternSymbols.go, patternSymbols]
          · have := ht.latest _ _ hy
            simp only [Sum.targets, go_append, mem_append] at this ⊢
            grind
      next hseen =>
        have hmem : x.sym ∉ sum.seen := fun h => hseen (contains_iff_mem.mpr h)
        obtain ⟨old, st1, s1, hold, h⟩ := steps_bind.mp h
        obtain ⟨rfl, hquiet, x', hx', hcases⟩ := steps_sensitivityLeaf hold
        injection hx' with hx'
        subst hx'
        obtain ⟨new, st2, s2, hnew, h⟩ := steps_bind.mp h
        obtain ⟨h1, rfl⟩ := goes_newSensitivity hnew (ht.grows (Grows.of_quiet hquiet))
        rw [steps_pure] at h
        obtain ⟨rfl, rfl, rfl⟩ := h
        refine ⟨⟨h1.tidy.perm ?_, h1.extends_, (Grows.of_quiet hquiet).trans h1.grows⟩, ?_⟩
        · simpa using perm_add (E := E) new []
        · refine Summing.note (hs.add ?_) fun z => mem_cons
          rcases hcases with ⟨y, hy, rfl⟩ | ⟨-, hz⟩
          · exact simple_ident.mpr (.inr (hs.unseen _ hmem y hy))
          · exact simple_of_isZero hz
  · exact goes_dummy h ht hs

theorem goes_addLeaves : ∀ {leaves : List Term} {sum sum' : Sum} {st : State} {s : Session},
    Steps (leaves.foldlM addLeaf sum) o st s sum' st' s' → Tidy G P (E ++ sum.targets) st s →
      Summing E sum st →
      Goes G P (E ++ sum.targets) (E ++ sum'.targets) st s st' s' ∧ Summing E sum' st'
  | [], sum, sum', st, s, h, ht, hs => by
    rw [foldlM_nil, steps_pure] at h
    obtain ⟨rfl, rfl, rfl⟩ := h
    exact ⟨Goes.refl ht, hs⟩
  | leaf :: leaves, sum, sum', st, s, h, ht, hs => by
    rw [foldlM_cons] at h
    obtain ⟨sum1, st1, s1, hleaf, h⟩ := steps_bind.mp h
    obtain ⟨h1, hs1⟩ := goes_addLeaf hleaf ht hs
    obtain ⟨h2, hs2⟩ := goes_addLeaves h h1.tidy hs1
    exact ⟨h1.trans h2, hs2⟩

theorem goes_accumulateAll {leaves : List Term}
    (h : Steps (accumulateAll leaves value) o st s bs st' s') (ht : Tidy G P E st s)
    (hv : Simple (within E st) value) :
    Goes G P E (E ++ targets bs) st s st' s' ∧ SimpleBindings (within E st') bs := by
  unfold accumulateAll at h
  obtain ⟨sum, st1, s1, hsum, h⟩ := steps_bind.mp h
  have hempty : Summing E {} st :=
    { right := fun t h => absurd h not_mem_nil
      unseen := fun x _ y hy => ht.latest x y hy
      seen := fun x h => absurd h not_mem_nil
      later := trivial }
  have hnone : E ++ Sum.targets {} = E := append_nil E
  obtain ⟨h1, hs⟩ := goes_addLeaves hsum (by rwa [hnone]) hempty
  rw [hnone] at h1
  have hright : SimpleAll (within E st1) sum.right := fun t ht =>
    (hs.right t ht).mono (subset_append_right _ _)
  have hvalue : Simple (within E st1) value := hv.mono h1.extends_.within
  obtain ⟨total, st2, s2, htotal, h⟩ := steps_bind.mp h
  have hthis : st1 = st2 ∧ Grows s1 s2 ∧ Simple (within E st1) total := by
    rw [steps_about] at htotal
    split at htotal
    · rw [steps_pure] at htotal
      obtain ⟨rfl, rfl, rfl⟩ := htotal
      exact ⟨rfl, Grows.refl _, hvalue⟩
    · simp only [steps_bind, steps_lift, Reading.returns_builtin, returns_tuple, returns_apply]
        at htotal
      obtain ⟨_, _, _, ⟨⟨rfl, rfl⟩, rfl⟩, _, _, _, ⟨⟨rfl, rfl⟩, rfl⟩, ⟨rfl, rfl⟩, rfl⟩ := htotal
      exact ⟨rfl, (grows_noted _ _).trans ((grows_noted _ _).trans (grows_noted _ _)),
        simple_apply simple_builtin (SimpleAll.cons (simple_tuple hright)
          (SimpleAll.singleton hvalue))⟩
  obtain ⟨rfl, hgrows, htotal'⟩ := hthis
  simp only [steps_bind, steps_lift, returns_tuple, steps_pure] at h
  obtain ⟨_, _, _, ⟨⟨rfl, rfl⟩, rfl⟩, rfl, rfl, rfl⟩ := h
  refine ⟨h1.trans (h1.tidy.goes (hgrows.trans (grows_noted _ _))), htotal', ?_⟩
  refine hs.later.mono ?_
  unfold within patternSymbols
  intro x hx
  simp only [mem_append] at hx ⊢
  grind

/-! ## Bindings -/

theorem steps_leaves {ts ls : List Term} (h : Steps (leaves ts) o st s ls st' s') :
    st = st' ∧ s = s' := by
  unfold leaves at h
  split at h
  · rw [steps_pure] at h
    exact ⟨h.2.1, h.2.2⟩
  · exact (steps_throw.mp h).elim

theorem goes_backward {target : Term} (h : Steps (backward target value) o st s bs st' s')
    (ht : Tidy G P E st s) (hP : ∀ x ∈ patternSymbols target, P (.augmented x))
    (hcall : ∀ i fn args, value = .apply i fn args → ∀ p, backPlace target = some p → P p) :
    Goes G P E (E ++ targets bs) st s st' s' ∧ SimpleBindings (within E st') bs := by
  unfold backward at h
  rw [steps_about] at h
  generalize (some _ : Option Origin) = o at h
  obtain ⟨old, st1, s1, hold, h⟩ := steps_bind.mp h
  have h1 := goes_sensitivity hold ht
  split at h
  · rw [steps_pure] at h
    obtain ⟨rfl, rfl, rfl⟩ := h
    exact ⟨by simpa using h1, trivial⟩
  · obtain ⟨t, st2, s2, hshaped, h⟩ := steps_bind.mp h
    obtain ⟨h2, hlatest⟩ := goes_shapedSensitivity hshaped h1.tidy hP
    have h12 := h1.trans h2
    split at h
    · obtain ⟨h3, hsimple⟩ := goes_accumulate h h2.tidy hlatest.within
      exact ⟨h12.trans h3, hsimple⟩
    · rw [steps_pure] at h
      obtain ⟨rfl, rfl, rfl⟩ := h
      exact ⟨by simpa using h12, trivial⟩
    · obtain ⟨ls, st3, s3, hleaves, h⟩ := steps_bind.mp h
      obtain ⟨rfl, rfl⟩ := steps_leaves hleaves
      obtain ⟨h3, hsimple⟩ := goes_accumulateAll h h2.tidy hlatest.within
      exact ⟨h12.trans h3, hsimple⟩
    · obtain ⟨ls, st3, s3, hleaves, h⟩ := steps_bind.mp h
      obtain ⟨rfl, rfl⟩ := steps_leaves hleaves
      obtain ⟨b, st3, s3, hb, h⟩ := steps_bind.mp h
      obtain ⟨h3, p, hp, hback⟩ := goes_backpropagator hb h2.tidy
      simp only [steps_bind, steps_lift, returns_apply, steps_modify] at h
      obtain ⟨_, _, _, ⟨⟨rfl, rfl⟩, rfl⟩, _, _, _, ⟨rfl, rfl⟩, h⟩ := h
      have hahead : Ahead P st3 b.sym := ⟨p, b, hcall _ _ _ rfl p hp, hback, rfl⟩
      have h4 : Goes G P E E st3 s3 (st3.need b) (noted s3 o) :=
        ⟨(h3.tidy.grows (grows_noted _ _)).need hahead, extends_need st3 b, grows_noted _ _⟩
      have h34 := h3.trans h4
      obtain ⟨h5, hsimple⟩ := goes_accumulateAll h h4.tidy
        (simple_apply (simple_ident.mpr (.inr (mem_append_left _ (mem_need st3 b))))
          (SimpleAll.singleton (hlatest.within.mono h34.extends_.within)))
      exact ⟨(h12.trans h34).trans h5, hsimple⟩
    · obtain ⟨ls, st3, s3, hleaves, h⟩ := steps_bind.mp h
      obtain ⟨rfl, rfl⟩ := steps_leaves hleaves
      obtain ⟨h3, hsimple⟩ := goes_accumulateAll h h2.tidy hlatest.within
      exact ⟨h12.trans h3, hsimple⟩
    · exact (steps_throw.mp h).elim

/-- The backward parts of bindings, each of which may use what those before it set. -/
theorem goes_gather_backward : ∀ {bindings bs : List (Term × Term)} {E : List Symbol}
    {st st' : State} {s s' : Session}, Steps (gather backward bindings) o st s bs st' s' → Tidy G P E st s →
      (∀ b ∈ bindings, (∀ x ∈ patternSymbols b.1, P (.augmented x)) ∧
        ∀ i fn args, b.2 = .apply i fn args → ∀ p, backPlace b.1 = some p → P p) →
      Goes G P E (E ++ targets bs) st s st' s' ∧ SimpleBindings (within E st') bs
  | [], bs, E, st, st', s, s', h, ht, hb => by
    rw [gather, steps_pure] at h
    obtain ⟨rfl, rfl, rfl⟩ := h
    exact ⟨by simpa using Goes.refl ht, trivial⟩
  | (k, v) :: bindings, bs, E, st, st', s, s', h, ht, hb => by
    rw [gather] at h
    simp only [steps_bind, steps_pure] at h
    obtain ⟨bs1, st1, s1, hfirst, bs2, st2, s2, hrest, rfl, rfl, rfl⟩ := h
    have hkv := hb (k, v) mem_cons_self
    obtain ⟨h1, hsimple1⟩ := goes_backward hfirst ht hkv.1 hkv.2
    obtain ⟨h2, hsimple2⟩ := goes_gather_backward hrest h1.tidy fun b hmem =>
      hb b (mem_cons_of_mem _ hmem)
    refine ⟨by simpa using h1.trans h2, simpleBindings_append.mpr
      ⟨hsimple1.mono h2.extends_.within, hsimple2.mono ?_⟩⟩
    unfold within
    intro x hx
    simp only [mem_append] at hx ⊢
    grind

end DiffLang.Gradient
