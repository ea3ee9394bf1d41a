import DiffLang.Proofs.Gradient.Variables

/-!
# The forward part

The forward part sets an augmented variable for every variable of the function, and a backpropagator
for every call. It uses augmented variables only after they are set (`goes_gather_forward`), because
the function uses its variables only after they are set.
-/

namespace DiffLang.Gradient

open Run Session Growth Freshness Scoping Meaning List

variable {G : GeneratorId → Prop} {P : Place → Prop} {E ys known : List Symbol} {s s' : Session}
  {st st' : State} {o : Option Origin} {ps : List Place}

def placesOf : Term × Term → List Place
  | (k, .apply ..) => (patternSymbols k).map .augmented ++ (backPlace k).toList
  | (k, _) => (patternSymbols k).map .augmented

theorem augmented_mem_placesOf {x : Symbol} {k v : Term} (hx : x ∈ patternSymbols k) :
    .augmented x ∈ placesOf (k, v) := by
  have hmem : Place.augmented x ∈ (patternSymbols k).map .augmented := mem_map_of_mem hx
  cases v with
  | apply => exact mem_append_left _ hmem
  | _ => exact hmem

theorem Holds.mem (h : Holds st ps ys) {p : Place} {z : Ident} (hp : p ∈ ps)
    (hz : st.var? p = some z) : z.sym ∈ ys := by
  induction h with
  | nil => cases hp
  | cons hy _ ih =>
    rcases mem_cons.mp hp with rfl | hp
    · obtain ⟨w, hw, rfl⟩ := hy
      rw [hz] at hw
      injection hw with hw
      rw [hw]
      exact mem_cons_self
    · exact mem_cons_of_mem _ (ih hp)

theorem Holds.carries (h : Holds st ps ys) (hk : ∀ x ∈ known, .augmented x ∈ ps) :
    Carries st known ys :=
  fun x hx _ hz => h.mem (p := .augmented x) (hk x hx) hz

theorem Carries.append {known' K K' : List Symbol} (h : Carries st known K)
    (h' : Carries st known' K') : Carries st (known ++ known') (K ++ K') := by
  intro x hx z hz
  rcases mem_append.mp hx with hx | hx
  · exact mem_append_left _ (h x hx z hz)
  · exact mem_append_right _ (h' x hx z hz)

def FindsGlobals (find : Symbol → Nat → Run Ident) : Prop :=
  ∀ ⦃x : Symbol⦄ ⦃n : Nat⦄ ⦃o : Option Origin⦄ ⦃s : Session⦄ ⦃y : Ident⦄ ⦃s' : Session⦄, Sound s →
    Returns (find x n) o s y s' → y.sym.isGlobal = true ∧ Grows s s'

variable {find : Symbol → Nat → Run Ident}

theorem goes_forward {k v : Term} {bs : List (Term × Term)} (hfind : FindsGlobals find)
    (h : Steps (forward find k v) o st s bs st' s') (ht : Tidy G P E st s) :
    Goes G P E E st s st' s' ∧ ∃ k' v', bs = [(k', v')] ∧
      Holds st' (placesOf (k, v)) (patternSymbols k') ∧
      ∀ known K, Bound known v → Carries st' known K → Simple K v' := by
  unfold forward at h
  rw [steps_about] at h
  generalize (some _ : Option Origin) = o at h
  split at h
  next x =>
    simp only [steps_bind, steps_pure] at h
    obtain ⟨k', st1, s1, hk, v', st2, s2, hv, rfl, rfl, rfl⟩ := h
    obtain ⟨h1, htags⟩ := goes_taggedVariable hk ht
    obtain ⟨h2, hsimple⟩ := goes_taggedExpr hv h1.tidy
    exact ⟨h1.trans h2, k', v', rfl, htags.extend h2.extends_, hsimple⟩
  · simp only [steps_bind, steps_pure] at h
    obtain ⟨k', st1, s1, hk, rfl, rfl, rfl⟩ := h
    obtain ⟨h1, htags⟩ := goes_taggedVariable hk ht
    exact ⟨h1, k', _, rfl, htags, fun _ _ _ _ => simple_literal⟩
  next items =>
    obtain ⟨k', st1, s1, hk, h⟩ := steps_bind.mp h
    obtain ⟨ts, st2, s2, hts, h⟩ := steps_bind.mp h
    obtain ⟨h1, htags⟩ := goes_taggedVariable hk ht
    obtain ⟨h2, hsimple⟩ := goes_taggedExprs hts h1.tidy
    simp only [steps_bind, steps_lift, returns_tuple, steps_pure] at h
    obtain ⟨_, _, _, ⟨⟨rfl, rfl⟩, rfl⟩, rfl, rfl, rfl⟩ := h
    exact ⟨(h1.trans h2).trans (h2.tidy.goes (grows_noted _ _)), k', _, rfl,
      htags.extend h2.extends_, fun known K hb hc => simple_tuple
        (hsimple known K (bound_tuple.mp hb) hc)⟩
  next fn args =>
    obtain ⟨k', st1, s1, hk, h⟩ := steps_bind.mp h
    obtain ⟨h1, htags⟩ := goes_taggedVariable hk ht
    obtain ⟨b, st2, s2, hb, h⟩ := steps_bind.mp h
    obtain ⟨h2, p, hp, hback⟩ := goes_backpropagator hb h1.tidy
    obtain ⟨pair, st3, s3, hpair, h⟩ := steps_bind.mp h
    rw [steps_lift, returns_tuple] at hpair
    obtain ⟨⟨rfl, rfl⟩, rfl⟩ := hpair
    obtain ⟨f, st3, s3, hf, h⟩ := steps_bind.mp h
    obtain ⟨h3, hsimple⟩ := goes_taggedExpr hf (h2.tidy.grows (grows_noted _ _))
    obtain ⟨ts, st4, s4, hts, h⟩ := steps_bind.mp h
    obtain ⟨h4, hsimples⟩ := goes_taggedExprs hts h3.tidy
    simp only [steps_bind, steps_lift, returns_apply, steps_pure] at h
    obtain ⟨_, _, _, ⟨⟨rfl, rfl⟩, rfl⟩, rfl, rfl, rfl⟩ := h
    have h34 := h3.trans (h4.trans (h4.tidy.goes (grows_noted _ o)))
    refine ⟨(h1.trans h2).trans ((h2.tidy.goes (grows_noted _ _)).trans h34),
      _, _, rfl, ?_, fun known K hb hc => ?_⟩
    · have hext := h3.extends_.trans h4.extends_
      rw [placesOf, hp]
      exact rel_append (htags.extend (h2.extends_.trans hext))
        (.cons ⟨b, hext.var? hback, rfl⟩ .nil)
    · obtain ⟨hbf, hbargs⟩ := bound_apply.mp hb
      exact simple_apply (hsimple known K hbf (hc.before h4.extends_))
        (hsimples known K hbargs hc)
  next fn args =>
    split at h
    next f =>
      split at h
      · simp at h
      · obtain ⟨ts, st1, s1, hts, h⟩ := steps_bind.mp h
        obtain ⟨h1, hsimple⟩ := goes_taggedExprs hts ht
        obtain ⟨f', st2, s2, hf, h⟩ := steps_bind.mp h
        obtain ⟨hf', rfl⟩ := steps_lift.mp hf
        obtain ⟨hglobal, hgrows⟩ := hfind h1.tidy.sound hf'
        have h2 := h1.tidy.goes hgrows
        obtain ⟨c, st2, s3, hc, h⟩ := steps_bind.mp h
        rw [steps_lift, returns_closure] at hc
        obtain ⟨⟨rfl, rfl⟩, rfl⟩ := hc
        have h3 := h2.tidy.goes (grows_noted s2 o)
        obtain ⟨k', st3, s3, hk, h⟩ := steps_bind.mp h
        rw [steps_pure] at h
        obtain ⟨rfl, rfl, rfl⟩ := h
        obtain ⟨h4, htags⟩ := goes_taggedVariable hk h3.tidy
        refine ⟨h1.trans (h2.trans (h3.trans h4)), k', _, rfl, htags, fun known K hb hc => ?_⟩
        exact simple_closure (simple_ident.mpr (.inl hglobal))
          (hsimple known K (bound_closure.mp hb).2 (hc.before h4.extends_))
    · exact (steps_throw.mp h).elim
  · exact (steps_throw.mp h).elim

theorem goes_gather_forward (hfind : FindsGlobals find) : ∀ {bindings bs : List (Term × Term)}
    {st st' : State} {s s' : Session}, Steps (gather (forward find) bindings) o st s bs st' s' →
      Tidy G P E st s →
      Goes G P E E st s st' s' ∧ Holds st' (bindings.flatMap placesOf) (targets bs) ∧
        ∀ known K, BoundBindings known bindings → Carries st' known K → SimpleBindings K bs
  | [], bs, st, st', s, s', h, ht => by
    rw [gather, steps_pure] at h
    obtain ⟨rfl, rfl, rfl⟩ := h
    exact ⟨Goes.refl ht, .nil, fun _ _ _ _ => trivial⟩
  | (k, v) :: bindings, bs, st, st', s, s', h, ht => by
    rw [gather] at h
    simp only [steps_bind, steps_pure] at h
    obtain ⟨bs1, st1, s1, hfirst, bs2, st2, s2, hrest, rfl, rfl, rfl⟩ := h
    obtain ⟨h1, k', v', rfl, hholds, hsimple⟩ := goes_forward hfind hfirst ht
    obtain ⟨h2, hholds2, hsimple2⟩ := goes_gather_forward hfind hrest h1.tidy
    have hfirst' := hholds.extend h2.extends_
    refine ⟨h1.trans h2, rel_append hfirst' hholds2, fun known K hb hc => ?_⟩
    obtain ⟨hv, hrest⟩ := boundBindings_cons.mp hb
    exact ⟨hsimple known K hv (hc.before h2.extends_), hsimple2 _ _ hrest
      ((hfirst'.carries fun x hx => augmented_mem_placesOf hx).append hc)⟩

end DiffLang.Gradient
