import DiffLang.Proofs.Reading.Statements

/-!
# Places of nodes

A node has a place if the chain of what it is about ends at a place of the text. What a computation
makes has a place if the computation itself is about something that has one, and nothing that happens
later takes it away.

`Makes s act Q` says that `act`, run about something that has a place in `s` or any session after it,
makes what `Q` says; `Yields` says the same of the reader, in a scope whose variables have places.
-/

namespace DiffLang.Places

open Run Session Growth Freshness Scoping Reading List

/-! ## Places -/

def Sited (s : Session) (x : Subject) : Prop := (s.placeOf s.origins.size x).isSome = true

def Placed (s : Session) (i : TermId) : Prop := ∀ t : Term, t.id = i → Sited s (.term t)

variable {s s0 s1 s' : Session} {o : Option Origin}

theorem sited_place (l : Location) : Sited s (.place l) := by
  unfold Sited
  cases s.origins.size <;> rfl

/-- A chain that leads to a place still does if its nodes are about the same, or about a place. -/
theorem placeOf_mono (h : ∀ i r, s.origin i = some r →
      ∃ r', s'.origin i = some r' ∧ (r'.subject = r.subject ∨ ∃ l, r'.subject = .place l)) :
    ∀ {k k' : Nat} {x : Subject}, k ≤ k' → (s.placeOf k x).isSome = true →
      (s'.placeOf k' x).isSome = true := by
  intro k
  induction k with
  | zero =>
    intro k' x _ hx
    cases x with
    | place l => cases k' <;> rfl
    | _ => cases hx
  | succ k ih =>
    intro k' x hk hx
    obtain ⟨k', rfl⟩ := Nat.exists_eq_succ_of_ne_zero (Nat.ne_zero_of_lt hk)
    cases x with
    | place l => rfl
    | term t =>
      rw [placeOf] at hx ⊢
      split at hx
      next r hr =>
        obtain ⟨r', hr', heq | ⟨l, hl⟩⟩ := h _ r hr
        · rw [hr']
          dsimp only
          rw [heq]
          exact ih (Nat.le_of_succ_le_succ hk) hx
        · rw [hr']
          dsimp only
          rw [hl]
          cases k' <;> rfl
      · cases hx
    | _ => cases hx

theorem origin_noted (i : TermId) :
    (noted s o).origin i = if i = s.origins.size then o else s.origin i := by
  simp only [origin, noted, Array.getElem?_push]
  split <;> simp_all

variable {i id : TermId} {D : Term → Prop} {t body : Term} {bs : List (Term × Term)}
variable {ts : List Term} {xs params : List Ident} {x : Ident} {cs : List Clause}

theorem lt_of_origin {r : Origin} (h : s.origin i = some r) : i < s.origins.size := by
  refine Nat.lt_of_not_le fun hi => ?_
  simp [origin, Array.getElem?_eq_none hi] at h

theorem sited_noted {x : Subject} (h : Sited s x) : Sited (noted s o) x := by
  refine placeOf_mono (fun i r hr => ⟨r, ?_, .inl rfl⟩) (by simp) h
  rw [origin_noted, if_neg (Nat.ne_of_lt (lt_of_origin hr)), hr]

theorem sited_of_origins {x : Subject} (h : s'.origins = s.origins) (hx : Sited s x) :
    Sited s' x :=
  placeOf_mono (fun i r hr => ⟨r, by rwa [origin, h], .inl rfl⟩) (Nat.le_of_eq (by rw [h])) hx

def About (s : Session) (o : Option Origin) : Prop := ∃ r, o = some r ∧ Sited s r.subject

theorem placed_noted (h : About s o) : Placed (noted s o) s.origins.size := by
  obtain ⟨r, rfl, h⟩ := h
  intro t ht
  rw [Sited, noted_size, placeOf, origin_noted, if_pos ht]
  exact placeOf_mono (fun i r' hr => ⟨r', by
    rw [origin_noted, if_neg (Nat.ne_of_lt (lt_of_origin hr)), hr], .inl rfl⟩) le_rfl h

/-! ## Terms -/

/-- Every node of a term has a place and meets a condition. -/
inductive Throughout (D : Term → Prop) (s : Session) : Term → Prop
  | intro {t : Term} (hp : Placed s t.id) (hd : D t) (hc : ∀ c ∈ t.children, Throughout D s c) :
      Throughout D s t

theorem Throughout.placed (h : Throughout D s t) : Placed s t.id := by
  cases h with
  | intro hp _ _ => exact hp

theorem Throughout.here (h : Throughout D s t) : D t := by
  cases h with
  | intro _ hd _ => exact hd

theorem Throughout.child (h : Throughout D s t) :
    ∀ c ∈ t.children, Throughout D s c := by
  cases h with
  | intro _ _ hc => exact hc

theorem Throughout.bindings (h : Throughout D s (.bind i bs body)) :
    (∀ b ∈ bs, Throughout D s b.1 ∧ Throughout D s b.2) ∧ Throughout D s body := by
  refine ⟨fun b hb => ⟨h.child b.1 ?_, h.child b.2 ?_⟩, h.child body (mem_append_right _ (by simp))⟩
  · exact mem_append_left _ (mem_flatMap.mpr ⟨b, hb, by simp⟩)
  · exact mem_append_left _ (mem_flatMap.mpr ⟨b, hb, by simp⟩)

/-- The left side of a binding: a pattern whose variables meet a condition. -/
def Target (V : Symbol → Prop) (k : Term) : Prop :=
  (∃ p : Pattern, k = p.term) ∧ ∀ x ∈ patternSymbols k, V x

/-- A node of a body: variables are bound by patterns, and there is no function inside. -/
def Proper (V : Symbol → Prop) : Term → Prop
  | .bind _ bindings _ => ∀ b ∈ bindings, Target V b.1
  | .lambda .. | .assign .. | .group .. => False
  | _ => True

/-- Every node of a term has a place, and is one that a body may have. -/
abbrev Neat (V : Symbol → Prop) : Session → Term → Prop := Throughout (Proper V)

/-- A variable of the namespace of a number. -/
def Own (m : Nat) (x : Symbol) : Prop := x.space = .hidden m

/-- A function of the reader: its variables are its own, and its generator, which is that of the
function around it, makes others. -/
structure Written (s : Session) (id : TermId) (l : Lambda) (m : Nat) : Prop where
  placed : Placed s id
  params : ∀ p ∈ l.params, Placed s p.id ∧ Own m p.sym
  body : Neat (Own m) s l.body
  generator : ∃ g r, l.generator = some g ∧ g < s.generators.size ∧
    (generator s g).space = .hidden r ∧ r ≠ m

/-- The places and generators of a session are still there. -/
structure Kept (s s' : Session) : Prop where
  sited : ∀ x, Sited s x → Sited s' x
  further : Further s s'
  hidden : s.hidden ≤ s'.hidden

/-- One session comes after another: everything is still there, and functions are new only if the
reader made them. -/
structure Onward (s s' : Session) : Prop extends Kept s s' where
  functions : ∀ id l, s'.lambda? id = some l →
    (∃ l', s.lambda? id = some l' ∧ core l = core l') ∨ ∃ m, Written s' id l m

variable {V : Symbol → Prop} {m m' : Nat}

theorem Kept.placed (h : Kept s s') (hi : Placed s i) : Placed s' i :=
  fun t ht => h.sited _ (hi t ht)

theorem Kept.term (h : Kept s s') (ht : Throughout D s t) :
    Throughout D s' t := by
  induction ht with
  | intro hp hd _ ih => exact .intro (h.placed hp) hd ih

theorem Kept.terms (h : Kept s s')
    (hts : ∀ t ∈ ts, Throughout D s t) : ∀ t ∈ ts, Throughout D s' t :=
  fun t ht => h.term (hts t ht)

theorem Kept.idents (h : Kept s s') (hxs : ∀ x ∈ xs, Placed s x.id) :
    ∀ x ∈ xs, Placed s' x.id :=
  fun x hx => h.placed (hxs x hx)

theorem Kept.about (h : Kept s s') (ho : About s o) : About s' o := by
  obtain ⟨r, rfl, hr⟩ := ho
  exact ⟨r, rfl, h.sited _ hr⟩

theorem Kept.written (h : Kept s s') {l : Lambda} (hl : Written s id l m) :
    Written s' id l m := by
  obtain ⟨g, r, hg, hlt, hspace, hne⟩ := hl.generator
  exact ⟨h.placed hl.placed, fun p hp => (hl.params p hp).imp_left h.placed, h.term hl.body,
    g, r, hg, hlt.trans_le h.further.size, by rw [h.further.space g hlt, hspace], hne⟩

theorem Kept.trans (h : Kept s s1) (h' : Kept s1 s') : Kept s s' :=
  ⟨fun x hx => h'.sited x (h.sited x hx), h.further.trans h'.further,
    h.hidden.trans h'.hidden⟩

theorem written_of_core {l l' : Lambda} (h : core l' = core l)
    (hl : Written s id l m) : Written s id l' m := by
  cases l
  cases l'
  simp only [core, Lambda.mk.injEq] at h
  obtain ⟨rfl, rfl, rfl, -⟩ := h
  exact ⟨hl.placed, hl.params, hl.body, hl.generator⟩

theorem Onward.refl (s : Session) : Onward s s :=
  ⟨⟨fun _ h => h, Further.refl s, le_rfl⟩, fun _ l hl => .inl ⟨l, hl, rfl⟩⟩

theorem Onward.trans (h : Onward s s1) (h' : Onward s1 s') : Onward s s' := by
  refine ⟨h.toKept.trans h'.toKept, fun id l hl => ?_⟩
  rcases h'.functions id l hl with ⟨l1, hl1, hcore⟩ | hw
  · rcases h.functions id l1 hl1 with ⟨l0, hl0, hcore'⟩ | ⟨m, hw⟩
    · exact .inl ⟨l0, hl0, hcore.trans hcore'⟩
    · exact .inr ⟨m, written_of_core hcore (h'.written hw)⟩
  · exact .inr hw

theorem Onward.of_still (hs : ∀ x, Sited s x → Sited s' x) (hf : Further s s')
    (hh : s.hidden ≤ s'.hidden) (hl : s'.lambdas = s.lambdas) : Onward s s' :=
  ⟨⟨hs, hf, hh⟩, fun id l h => .inl ⟨l, by rwa [lambda?, hl] at h, rfl⟩⟩

theorem Onward.of_further (ho : s'.origins = s.origins) (hf : Further s s')
    (hh : s.hidden ≤ s'.hidden) (hl : s'.lambdas = s.lambdas) : Onward s s' :=
  .of_still (fun _ => sited_of_origins ho) hf hh hl

theorem onward_noted (s : Session) (o : Option Origin) : Onward s (noted s o) :=
  .of_still (fun _ => sited_noted) (.of_later (later_noted s o)) le_rfl rfl

/-! ## Computations -/

/-- Run about something that has a place, in a session or after it, a computation makes what is
said. -/
def Makes {α : Type} (s0 : Session) (act : Run α) (Q : Session → α → Prop) : Prop :=
  ∀ ⦃o s a s'⦄, Returns act o s a s' → Onward s0 s → About s o → Onward s s' ∧ Q s' a

section Makes

variable {α β : Type} {Q : Session → α → Prop} {R : Session → β → Prop}

theorem makes_pure {a : α} (h : ∀ s, Onward s0 s → Q s a) : Makes s0 (pure a) Q := by
  intro o s b s' hr hs _
  obtain ⟨rfl, rfl⟩ := returns_pure.mp hr
  exact ⟨.refl s, h s hs⟩

theorem Makes.bind {x : Run α} {f : α → Run β} (hx : Makes s0 x Q)
    (hf : ∀ s1 a, Onward s0 s1 → Q s1 a → Makes s1 (f a) R) : Makes s0 (x >>= f) R := by
  intro o s b s' hr hs ho
  obtain ⟨a, s1, h1, h2⟩ := returns_bind.mp hr
  obtain ⟨hs1, ha⟩ := hx h1 hs ho
  obtain ⟨hs', hb⟩ := hf s1 a (hs.trans hs1) ha h2 (.refl s1) (hs1.about ho)
  exact ⟨hs1.trans hs', hb⟩

theorem Makes.mono {Q' : Session → α → Prop} {x : Run α} (hx : Makes s0 x Q)
    (h : ∀ s a, Onward s0 s → Q s a → Q' s a) : Makes s0 x Q' := by
  intro o s a s' hr hs ho
  obtain ⟨hs', ha⟩ := hx hr hs ho
  exact ⟨hs', h s' a (hs.trans hs') ha⟩

theorem Makes.about {x : Subject} {transform : String} {act : Run α} (hx : Sited s0 x)
    (h : Makes s0 act Q) : Makes s0 (Run.about x transform act) Q :=
  fun _ _ _ _ hr hs _ => h (returns_about.mp hr) hs ⟨_, rfl, hs.sited x hx⟩

theorem makes_newId : Makes s0 newId Placed := by
  intro o s i s' hr _ ho
  obtain ⟨rfl, rfl⟩ := returns_newId.mp hr
  exact ⟨onward_noted s o, placed_noted ho⟩

theorem makes_node (f : TermId → Term) (hid : ∀ i, (f i).id = i)
    (hd : ∀ i, D (f i)) (hc : ∀ i, ∀ c ∈ (f i).children, Throughout D s0 c) :
    Makes s0 (do pure (f (← newId))) (Throughout D) := by
  refine makes_newId.bind fun s1 i hs1 hi => makes_pure fun s hs => ?_
  refine .intro (by rw [hid]; exact hs.placed hi) (hd i) fun c hcm => ?_
  exact (hs1.trans hs).term (hc i c hcm)

theorem makes_apply {f : Term} (hf : Neat V s0 f) (hts : ∀ t ∈ ts, Neat V s0 t) :
    Makes s0 (apply f ts) (Neat V) :=
  makes_node (Term.apply · f ts) (fun _ => rfl) (fun _ => trivial) fun _ =>
    forall_mem_cons.mpr ⟨hf, hts⟩

theorem makes_closure {f : Term} (hf : Neat V s0 f) (hts : ∀ t ∈ ts, Neat V s0 t) :
    Makes s0 (closure f ts) (Neat V) :=
  makes_node (Term.closure · f ts) (fun _ => rfl) (fun _ => trivial) fun _ =>
    forall_mem_cons.mpr ⟨hf, hts⟩

theorem makes_tuple (hts : ∀ t ∈ ts, Neat V s0 t) :
    Makes s0 (tuple ts) (Neat V) :=
  makes_node (Term.tuple · ts) (fun _ => rfl) (fun _ => trivial) fun _ => hts

theorem makes_let
    (hd : ∀ i, D (.bind i bs body)) (hbs : ∀ b ∈ bs, Throughout D s0 b.1 ∧ Throughout D s0 b.2)
    (hbody : Throughout D s0 body) : Makes s0 (Session.bind bs body) (Throughout D) := by
  refine makes_node (Term.bind · bs body) (fun _ => rfl) hd fun _ c hc => ?_
  rcases mem_append.mp hc with hc | hc
  · obtain ⟨b, hb, hc⟩ := mem_flatMap.mp hc
    simp only [mem_cons, not_mem_nil, or_false] at hc
    rcases hc with rfl | rfl
    · exact (hbs b hb).1
    · exact (hbs b hb).2
  · exact mem_singleton.mp hc ▸ hbody

def NeatBinding (V : Symbol → Prop) (s : Session) (b : Term × Term) : Prop :=
  Target V b.1 ∧ Neat V s b.1 ∧ Neat V s b.2

theorem makes_binding (hbs : ∀ b ∈ bs, NeatBinding V s0 b)
    (hbody : Neat V s0 body) : Makes s0 (Session.bind bs body) (Neat V) :=
  makes_let (fun _ b hb => (hbs b hb).1) (fun b hb => (hbs b hb).2) hbody

theorem makes_ident (x : Symbol) :
    Makes s0 (ident x) fun s y => Placed s y.id ∧ y.sym = x :=
  makes_newId.bind fun _ _ _ hi => makes_pure fun _ hs => ⟨hs.placed hi, rfl⟩

theorem neat_ident (h : Placed s x.id) : Neat V s (.ident x) :=
  .intro h trivial fun _ hc => absurd hc not_mem_nil

theorem makes_freshPlain (g : GeneratorId) (label : String) (version : Option Nat) :
    Makes s0 (freshPlain g label version) fun s x =>
      g < s.generators.size → x.space = (generator s g).space := by
  intro o s x s' hr _ _
  rw [returns_freshPlain] at hr
  obtain ⟨rfl, rfl⟩ := hr
  refine ⟨.of_further rfl further_afterPlain le_rfl rfl, fun hg => ?_⟩
  have hg : g < s.generators.size := by simpa [afterPlain] using hg
  rw [further_afterPlain.space g hg]
  exact choose_space _ _ _

theorem makes_freshDerived (g : GeneratorId) (base : Symbol) (relation : String) :
    Makes s0 (freshDerived g base relation) fun _ _ => True := by
  intro o s x s' hr _ _
  rw [returns_freshDerived] at hr
  obtain ⟨rfl, rfl⟩ := hr
  exact ⟨.of_further rfl further_afterDerived le_rfl rfl, trivial⟩

theorem origin_set {j : TermId} {r : Option Origin} :
    origin { s with origins := s.origins.setIfInBounds i r } j =
      if j = i ∧ i < s.origins.size then r else s.origin j := by
  simp only [origin, Array.getElem?_setIfInBounds]
  by_cases hj : i = j
  · subst hj
    by_cases hi : i < s.origins.size <;> simp [hi]
  · simp [hj, Ne.symm hj]

theorem makes_setOrigin (i : TermId) (l : Location) (transform : String) :
    Makes s0 (setOrigin i (some ⟨.place l, transform⟩)) fun _ _ => True := by
  intro o s _ s' hr _ _
  obtain rfl := returns_modify.mp hr
  refine ⟨.of_still (fun x => placeOf_mono (fun j r hr => ?_) (by simp))
    (.of_generators rfl) le_rfl rfl, trivial⟩
  rw [origin_set]
  split
  · exact ⟨_, rfl, .inr ⟨l, rfl⟩⟩
  · exact ⟨r, hr, .inl rfl⟩

theorem makes_currentLocation : Makes s0 currentLocation fun _ l => l.isSome = true := by
  intro o s l s' hr _ ho
  obtain ⟨r, rfl, h⟩ := ho
  unfold currentLocation at hr
  simp only [returns_bind, returns_read] at hr
  obtain ⟨_, _, ⟨rfl, rfl⟩, hr⟩ := hr
  rw [returns_get_bind, returns_pure] at hr
  obtain ⟨rfl, rfl⟩ := hr
  exact ⟨.refl s, h⟩

theorem about_origin {r : Origin} (h : Placed s i) (hr : s.origin i = some r) :
    About s (some r) := by
  refine ⟨r, rfl, ?_⟩
  have hi := h (.group i []) rfl
  rw [Sited] at hi ⊢
  generalize hk : s.origins.size = k at hi
  cases k with
  | zero => cases hi
  | succ k =>
    rw [placeOf, show s.origin (Term.group i []).id = some r from hr] at hi
    exact placeOf_mono (fun _ r' hr' => ⟨r', hr', .inl rfl⟩) (Nat.le_succ k) hi

theorem makes_copy (hx : Placed s0 x.id) (keep : Bool) :
    Makes s0 (copy x keep) fun s y => Placed s y.id := by
  intro o s y s' hr hs ho
  unfold copy at hr
  simp only [returns_bind, returns_ident] at hr
  obtain ⟨_, _, ⟨rfl, rfl⟩, hr⟩ := hr
  suffices h : ∃ o', About s o' ∧ s' = noted s o' ∧ y.id = s.origins.size by
    obtain ⟨o', ho', rfl, hy⟩ := h
    exact ⟨onward_noted s o', show Placed _ y.id from hy ▸ placed_noted ho'⟩
  split at hr
  · rw [returns_get_bind] at hr
    split at hr
    next r hr' =>
      simp only [setOrigin, returns_bind, returns_modify, returns_pure] at hr
      obtain ⟨_, _, rfl, rfl, rfl⟩ := hr
      refine ⟨some r, ?_, by simp [noted, Array.setIfInBounds, Array.set_push], rfl⟩
      rw [origin_noted] at hr'
      split at hr'
      · exact hr' ▸ ho
      · exact about_origin (hs.placed hx) hr'
    · obtain ⟨rfl, rfl⟩ := returns_pure.mp hr
      exact ⟨o, ho, rfl, rfl⟩
  · obtain ⟨rfl, rfl⟩ := returns_pure.mp hr
    exact ⟨o, ho, rfl, rfl⟩

theorem makes_mapM {γ : Type} {f : γ → Run α} (hf : ∀ s1 c, Onward s0 s1 → Makes s1 (f c) Q)
    (hQ : ∀ {s s' a}, Onward s s' → Q s a → Q s' a) :
    ∀ cs : List γ, Makes s0 (cs.mapM f) fun s as => ∀ a ∈ as, Q s a := by
  intro cs
  induction cs generalizing s0 with
  | nil =>
    rw [mapM_nil]
    exact makes_pure fun _ _ => by simp
  | cons c cs ih =>
    rw [mapM_cons]
    refine (hf s0 c (.refl s0)).bind fun s1 a h1 ha => ?_
    refine (ih fun s2 c h2 => hf s2 c (h1.trans h2)).bind fun s2 as h2 has => makes_pure fun s hs => ?_
    exact forall_mem_cons.mpr ⟨hQ hs (hQ h2 ha), fun b hb => hQ hs (has b hb)⟩

end Makes

/-! ## Scopes -/

/-- A scope with variables of its own, in the namespace of a number. All variables it knows have places,
and those that become parameters are its own. -/
structure Apt (m : Nat) (sc : Reading.Scope) (s : Session) : Prop where
  there : sc.generator < s.generators.size
  space : (generator s sc.generator).space = .hidden m
  hidden : m < s.hidden
  visible : ∀ bs ∈ sc.bindings :: sc.outer, ∀ n x, bs.lookup n = some x → Placed s x.id
  free : ∀ b ∈ sc.free, Placed s b.2.id ∧ (sc.pull = true → Own m b.2.sym)

variable {sc p : Reading.Scope} {g : GeneratorId} {ref : Ident}

theorem Kept.apt (h : Kept s s') (hp : Apt m sc s) : Apt m sc s' where
  there := hp.there.trans_le h.further.size
  space := by rw [h.further.space _ hp.there, hp.space]
  hidden := hp.hidden.trans_le h.hidden
  visible bs hbs n x hx := h.placed (hp.visible bs hbs n x hx)
  free b hb := (hp.free b hb).imp_left h.placed

/-- Run in a scope of the namespace of a number, a computation of the reader makes what is said. -/
def Yields {α : Type} (m : Nat) (s0 : Session) (act : Reader α) (Q : Session → α → Prop) : Prop :=
  ∀ sc, Apt m sc s0 → Makes s0 (act sc) fun s r => (Apt m r.2 s ∧ Same sc r.2) ∧ Q s r.1

section Yields

variable {α β : Type} {Q : Session → α → Prop} {R : Session → β → Prop}

theorem Makes.yields {x : Run α} (h : Makes s0 x Q) : Yields m s0 (liftM x) Q := by
  rintro sc hsc o s ⟨a, sc'⟩ s' hr hs ho
  obtain ⟨hx, rfl⟩ := steps_lift.mp hr
  obtain ⟨hs', ha⟩ := h hx hs ho
  exact ⟨hs', ⟨(hs.trans hs').apt hsc, .refl sc⟩, ha⟩

theorem yields_pure {a : α} (h : ∀ s, Onward s0 s → Q s a) : Yields m s0 (pure a) Q :=
  (makes_pure h).yields

theorem Yields.bind {x : Reader α} {f : α → Reader β} (hx : Yields m s0 x Q)
    (hf : ∀ s1 a, Onward s0 s1 → Q s1 a → Yields m s1 (f a) R) : Yields m s0 (x >>= f) R := by
  rintro sc hsc o s ⟨b, sc'⟩ s' hr hs ho
  obtain ⟨a, sc1, s1, h1, h2⟩ := steps_bind.mp hr
  obtain ⟨hs1, ⟨hsc1, hsame⟩, ha⟩ := hx sc hsc h1 hs ho
  obtain ⟨hs', ⟨hsc', hsame'⟩, hb⟩ :=
    hf s1 a (hs.trans hs1) ha sc1 hsc1 h2 (.refl s1) (hs1.about ho)
  exact ⟨hs1.trans hs', ⟨hsc', hsame.trans hsame'⟩, hb⟩

theorem Yields.mono {Q' : Session → α → Prop} {x : Reader α} (hx : Yields m s0 x Q)
    (h : ∀ s a, Q s a → Q' s a) : Yields m s0 x Q' :=
  fun sc hsc => (hx sc hsc).mono fun s a _ ha => ha.imp_right (h s a.1)

theorem yields_throw (e : Failure) : Yields m s0 (throw e : Reader α) Q :=
  fun _ _ _ _ _ _ hr => (steps_throw.mp hr).elim

theorem yields_syntaxFailure (text : String) (l : Option Location) :
    Yields m s0 (liftM (syntaxFailure text l : Run α)) Q :=
  Makes.yields fun _ _ _ _ hr => (returns_syntaxFailure.mp hr).elim

theorem yields_unrecognized (kind : String) (l : Option Location) :
    Yields m s0 (liftM (unrecognized kind l : Run α)) Q :=
  Makes.yields fun _ _ _ _ hr => (returns_unrecognized.mp hr).elim

theorem yields_guard {b : Bool} {text : String} {l : Option Location} {f : PUnit → Reader α}
    (h : Yields m s0 (f ()) Q) :
    Yields m s0 (if b = true then (do let r ← (liftM (syntaxFailure text l : Run PUnit)); f r)
      else f ()) Q :=
  fun sc hsc _ _ _ _ hr => h sc hsc (steps_guard.mp hr).2

variable {act : Reader α} {pos : Source.Pos}

theorem Yields.located (h : Yields m s0 act Q) :
    Yields m s0 (located pos act) Q := fun sc hsc =>
  (h sc hsc).about (sited_place _)

/-- What is read at a position needs nothing around it to have a place. -/
theorem Yields.onward {a : α} {sc' : Reading.Scope} (h : Yields m s act Q) (hsc : Apt m sc s)
    (hr : Steps (Reading.located pos act) o sc s a sc' s') : Onward s s' :=
  (h sc hsc (steps_located.mp hr) (.refl s) ⟨_, rfl, sited_place _⟩).1

theorem Yields.aboutPlaceOf (ht : Placed s0 t.id)
    (h : Yields m s0 act Q) : Yields m s0 (aboutPlaceOf t act) Q := by
  rintro sc hsc o s ⟨a, sc'⟩ s' hr hs ho
  unfold Reading.aboutPlaceOf at hr
  obtain ⟨l, s1, hl, hr⟩ := returns_bind.mp hr
  obtain ⟨rfl, rfl⟩ := returns_findLocation.mp hl
  obtain ⟨l, hl⟩ := Option.isSome_iff_exists.mp (hs.placed ht t rfl)
  rw [hl] at hr
  exact h sc hsc (returns_about.mp hr) hs ⟨_, rfl, sited_place l⟩

theorem Yields.inScope (hp : Apt m' p s0) (h : Yields m' s0 act Q) :
    Yields m s0 (inScope p act) fun s r => (Apt m' r.2 s ∧ Same p r.2) ∧ Q s r.1 := by
  rintro sc hsc o s ⟨⟨a, p'⟩, sc'⟩ s' hr hs ho
  obtain ⟨hact, rfl⟩ := steps_inScope.mp hr
  obtain ⟨hs', ha⟩ := h p hp hact hs ho
  exact ⟨hs', ⟨(hs.trans hs').apt hsc, .refl sc⟩, ha⟩

theorem yields_get : Yields m s0 get fun s sc => Apt m sc s := by
  rintro sc hsc o s ⟨_, sc'⟩ s' hr hs ho
  obtain ⟨rfl, rfl, rfl⟩ := steps_get.mp hr
  exact ⟨.refl s, ⟨hs.apt hsc, .refl _⟩, hs.apt hsc⟩

theorem yields_modify {f : Reading.Scope → Reading.Scope}
    (h : ∀ {s sc}, Onward s0 s → Apt m sc s → Apt m (f sc) s ∧ Same sc (f sc)) :
    Yields m s0 (modify f) fun _ _ => True := by
  rintro sc hsc o s ⟨_, sc'⟩ s' hr hs ho
  obtain ⟨rfl, rfl⟩ := steps_modify.mp hr
  exact ⟨.refl s, h hs (hs.apt hsc), trivial⟩

theorem yields_mapM {γ : Type} {f : γ → Reader α} (hf : ∀ s c, Yields m s (f c) Q)
    (hQ : ∀ {s s' a}, Onward s s' → Q s a → Q s' a) :
    ∀ cs : List γ, Yields m s0 (cs.mapM f) fun s as => ∀ a ∈ as, Q s a := by
  intro cs
  induction cs generalizing s0 with
  | nil =>
    rw [mapM_nil]
    exact yields_pure fun _ _ => by simp
  | cons c cs ih =>
    rw [mapM_cons]
    refine (hf s0 c).bind fun s1 a _ ha => ih.bind fun s2 as h2 has => yields_pure fun s hs => ?_
    exact forall_mem_cons.mpr ⟨hQ hs (hQ h2 ha), fun b hb => hQ hs (has b hb)⟩

end Yields

/-! ## Variables -/

def OwnVariable (m : Nat) (s : Session) (x : Ident) : Prop := Placed s x.id ∧ Own m x.sym

theorem Kept.ownVariable (h : Kept s s') (hx : OwnVariable m s x) :
    OwnVariable m s' x :=
  hx.imp_left h.placed

theorem Kept.ownVariables (h : Kept s s') (hxs : ∀ x ∈ xs, OwnVariable m s x) :
    ∀ x ∈ xs, OwnVariable m s' x :=
  fun x hx => h.ownVariable (hxs x hx)

theorem Apt.put (h : Apt m sc s) (hx : Placed s x.id) (name : String) :
    Apt m { sc with bindings := put (· == ·) name x sc.bindings } s :=
  { h with
    visible := fun bs hbs n y hy => by
      rcases mem_cons.mp hbs with rfl | hbs
      · rw [lookup_put] at hy
        split at hy
        · exact Option.some.inj hy ▸ hx
        · exact h.visible _ (mem_cons_self ..) n y hy
      · exact h.visible bs (mem_cons_of_mem _ hbs) n y hy }

theorem yields_newVariable (name : String) : Yields m s0 (newVariable name) (OwnVariable m) := by
  rintro sc hsc o s ⟨x, sc'⟩ s' hr hs ho
  have hr : Steps (newVariable name) o sc s x sc' s' := hr
  simp only [newVariable, steps_bind, steps_get, steps_lift, steps_set, steps_pure] at hr
  obtain ⟨_, _, _, ⟨rfl, rfl, rfl⟩, y, _, s1, ⟨hy, rfl⟩, _, _, s2, ⟨hx, rfl⟩, _, _, _, ⟨rfl, rfl⟩, rfl,
    rfl, rfl⟩ := hr
  obtain ⟨h1, hspace⟩ := makes_freshPlain _ _ _ hy (.refl s) ho
  obtain ⟨h2, hplaced, hsym⟩ := makes_ident _ hx (.refl s1) (h1.about ho)
  have hsc1 := (hs.trans h1).apt hsc
  refine ⟨h1.trans h2, ⟨(h2.apt hsc1).put hplaced name, ⟨rfl⟩⟩, hplaced, ?_⟩
  rw [Own, hsym]
  exact (hspace hsc1.there).trans hsc1.space

theorem yields_declare (name : String) : Yields m s0 (declare name) (OwnVariable m) := by
  refine (yields_newVariable name).bind fun s1 x _ hx => ?_
  refine (yields_modify fun {s sc} (_ : Onward s1 s) h => ?_).bind fun s2 _ h2 _ =>
    yields_pure fun s hs => (h2.trans hs).ownVariable hx
  split
  · exact ⟨h, .refl sc⟩
  · exact ⟨{ h with }, ⟨rfl⟩⟩

theorem Apt.find? {name : String} {free : Bool} (h : Apt m sc s)
    (hx : Nested.find? sc.bindings sc.outer name = some (free, x)) : Placed s x.id := by
  unfold Nested.find? at hx
  split at hx
  next y hy =>
    simp only [Option.some.injEq, Prod.mk.injEq] at hx
    exact h.visible _ (mem_cons_self ..) name x (hx.2 ▸ hy)
  · obtain ⟨y, hy, hxy⟩ := Option.map_eq_some_iff.mp hx
    injection hxy with _ hxy
    obtain ⟨bs, hbs, hlookup⟩ := exists_of_findSome?_eq_some hy
    exact h.visible bs (mem_cons_of_mem _ hbs) name x (hxy ▸ hlookup)

theorem makes_find? (h : Apt m sc s0) (name : String) (keep : Bool) :
    Makes s0 (find? sc name keep) fun s r => ∀ x, r = some x → Placed s x.2.id := by
  unfold Reading.find?
  split
  next hfind =>
    exact (makes_copy (h.find? hfind) _).bind fun s1 y _ hy => makes_pure fun s hs z hz => by
      cases hz
      exact hs.placed hy
  · exact makes_pure fun s _ x hx => by cases hx

theorem yields_existing (name : String) (keep : Bool) :
    Yields m s0 (existing name keep) fun s x => Placed s x.id := by
  refine yields_get.bind fun s1 sc h1 hsc => (makes_find? hsc name keep).yields.bind fun s2 r h2 hr => ?_
  split
  next free x => exact yields_pure fun s hs => hs.placed (hr _ rfl)
  · exact yields_throw _

theorem yields_fresh (g : GeneratorId) (label : String) (version : Option Nat) :
    Yields m s0 (do let x ← (liftM (freshPlain g label version) : Reader Symbol); liftM (ident x))
      fun s x => Placed s x.id :=
  (makes_freshPlain g label version).yields.bind fun _ x _ _ =>
    ((makes_ident x).mono fun _ _ _ h => h.1).yields

theorem Apt.note (h : Apt m sc s) (hx : Placed s x.id)
    (hown : sc.pull = true → Own m x.sym) (name : String) :
    Apt m { sc with free := Session.put (· == ·) name x sc.free } s :=
  { h with
    free := fun b hb => by
      rcases mem_put hb with hb | hb
      · rw [hb]
        exact ⟨hx, hown⟩
      · exact h.free b hb }

/-- A variable of an enclosing function becomes a variable of this one, or is used as it is. -/
theorem yields_occurrence (name : String) :
    Yields m s0 (occurrence name) fun s x => Placed s x.id := by
  rintro sc hsc o s ⟨x, sc'⟩ s' hr hs ho
  have hr : Steps (occurrence name) o sc s x sc' s' := hr
  unfold occurrence at hr
  rw [steps_get_bind] at hr
  simp only [steps_bind, steps_lift] at hr
  obtain ⟨r, _, s1, ⟨hfind, rfl⟩, hr⟩ := hr
  obtain ⟨h1, hr1⟩ := makes_find? (hs.apt hsc) name true hfind (.refl s) ho
  have hsc1 := (hs.trans h1).apt hsc
  -- the rest is read in the same scope, after the name has been looked up
  suffices h : Onward s1 s' ∧ (Apt m sc' s' ∧ Same sc sc') ∧ Placed s' x.id from
    h.imp_left h1.trans
  split at hr
  next y =>
    cases hp : sc.pull with
    | true =>
      simp only [hp, if_true, steps_bind, steps_modify, steps_pure] at hr
      obtain ⟨z, sc2, s2, hz, _, _, _, ⟨rfl, rfl⟩, rfl, rfl, rfl⟩ := hr
      obtain ⟨h2, ⟨hsc2, hsame⟩, hz⟩ := yields_newVariable name sc hsc1 hz (.refl s1) (h1.about ho)
      exact ⟨h2, ⟨hsc2.note hz.1 (fun _ => hz.2) name, hsame.trans ⟨rfl⟩⟩, hz.1⟩
    | false =>
      simp only [hp, Bool.false_eq_true, if_false, steps_bind, steps_modify, steps_pure] at hr
      obtain ⟨_, _, _, ⟨rfl, rfl, rfl⟩, _, _, _, ⟨rfl, rfl⟩, rfl, rfl, rfl⟩ := hr
      exact ⟨.refl _, ⟨hsc1.note (hr1 _ rfl) (by simp [hp]) name, ⟨rfl⟩⟩, hr1 _ rfl⟩
  next y =>
    obtain ⟨rfl, rfl, rfl⟩ := steps_pure.mp hr
    exact ⟨.refl _, ⟨hsc1, .refl sc⟩, hr1 _ rfl⟩
  · exact yields_fresh _ _ _ sc hsc1 hr (.refl s1) (h1.about ho)

theorem yields_globalName (label : String) :
    Yields m s0 (globalName label) fun s x => Placed s x.id :=
  yields_get.bind fun _ _ _ _ => yields_fresh _ _ _

theorem yields_partName (relation : String) :
    Yields m s0 (partName relation) fun s x => Placed s x.id := by
  refine yields_get.bind fun s1 sc _ _ => (makes_freshDerived _ _ _).yields.bind fun s2 x _ _ => ?_
  exact ((makes_ident x).mono fun _ _ _ h => h.1).yields

/-! ## Functions -/

theorem onward_privateGenerator (h : Returns privateGenerator o s g s') :
    Onward s s' ∧ g < s'.generators.size ∧ s.hidden < s'.hidden ∧
      (generator s' g).space = .hidden s.hidden := by
  rw [privateGenerator, returns_modifyGet, Prod.mk.injEq] at h
  obtain ⟨rfl, rfl⟩ := h
  refine ⟨.of_further rfl (Further.of_push rfl) (Nat.le_succ _) rfl, by simp, Nat.lt_succ_self _, ?_⟩
  simp [generator, Array.getD_eq_getD_getElem?]

theorem makes_privateGenerator (hm : m < s0.hidden) : Makes s0 privateGenerator fun s g =>
    g < s.generators.size ∧ ∃ m', m ≠ m' ∧ m' < s.hidden ∧ (generator s g).space = .hidden m' := by
  intro o s g s' hr hs _
  obtain ⟨hs', hlt, hhidden, hspace⟩ := onward_privateGenerator hr
  exact ⟨hs', hlt, s.hidden, Nat.ne_of_lt (hm.trans_le hs.hidden), hhidden, hspace⟩

theorem onward_globalGenerator {url : String} (h : Returns (globalGenerator url) o s g s') :
    Onward s s' := by
  unfold globalGenerator at h
  rw [returns_get_bind] at h
  split at h
  · obtain ⟨-, rfl⟩ := returns_pure.mp h
    exact .refl _
  · simp only [newGenerator, returns_bind, returns_modifyGet, returns_modify, returns_pure,
      Prod.mk.injEq] at h
    obtain ⟨_, _, ⟨rfl, rfl⟩, _, _, rfl, -, rfl⟩ := h
    exact .of_further rfl (Further.of_push rfl) le_rfl rfl

theorem makes_globalGenerator (url : String) : Makes s0 (globalGenerator url) fun _ _ => True :=
  fun _ _ _ _ hr _ _ => ⟨onward_globalGenerator hr, trivial⟩

/-- A scope inside one of the namespace of a number, with a namespace of its own. -/
def Inside (m : Nat) (pull : Bool) (s : Session) (p : Reading.Scope) (m' : Nat) : Prop :=
  m ≠ m' ∧ Apt m' p s ∧ p.pull = pull

theorem Inside.kept {pull : Bool} (h : Inside m pull s p m') (hs : Kept s s') :
    Inside m pull s' p m' :=
  ⟨h.1, hs.apt h.2.1, h.2.2⟩

theorem yields_inner (trial pull : Bool) (dest : Option Ident) :
    Yields m s0 (inner trial pull dest) fun s p =>
      (∃ m', Inside m pull s p m') ∧ ∀ x, dest = some x → p.dest = x := by
  refine yields_get.bind fun s1 sc h1 hsc => ?_
  extract_lets rest
  have hrest : ∀ s2 g, Onward s1 s2 → Yields m s2 (rest g) fun s p =>
      (∃ m', Inside m pull s p m') ∧ ∀ x, dest = some x → p.dest = x := by
    intro s2 g h2
    refine (makes_privateGenerator (h2.apt hsc).hidden).yields.bind fun s3 gen h3 hgen => ?_
    obtain ⟨hlt, m', hne, hm', hspace⟩ := hgen
    have hin : ∀ {s p}, Onward s3 s → p.generator = gen → p.pull = pull → p.bindings = [] →
        p.free = [] → p.outer = sc.bindings :: sc.outer → ∃ m', Inside m pull s p m' := by
      intro s p hs hg hp hb hf ho
      refine ⟨m', hne, ⟨?_, ?_, hm'.trans_le hs.hidden, fun bs hbs n x hx => ?_, by simp [hf]⟩, hp⟩
      · exact hg ▸ hlt.trans_le hs.further.size
      · rw [hg, hs.further.space gen hlt, hspace]
      · rw [hb, ho] at hbs
        rcases mem_cons.mp hbs with rfl | hbs
        · cases hx
        · exact ((h2.trans h3).trans hs).placed (hsc.visible bs hbs n x hx)
    cases dest with
    | some d => exact yields_pure fun s hs => ⟨hin hs rfl rfl rfl rfl rfl, fun x hx => Option.some.inj hx⟩
    | none =>
      refine (makes_freshPlain _ _ _).yields.bind fun s4 x h4 _ => ?_
      refine (makes_ident x).yields.bind fun s5 d h5 _ => yields_pure fun s hs => ?_
      exact ⟨hin ((h4.trans h5).trans hs) rfl rfl rfl rfl rfl, fun x hx => by cases hx⟩
  split
  · exact (makes_privateGenerator hsc.hidden).yields.bind fun s2 g h2 _ => hrest s2 g h2
  · exact (makes_globalGenerator _).yields.bind fun s2 g h2 _ => hrest s2 g h2

theorem yields_closureScope (name : Option String) (href : Placed s0 ref.id) :
    Yields m s0 (closureScope name ref) fun s p =>
      (∃ m', Inside m true s p m') ∧ p.dest = ref := by
  refine yields_get.bind fun s1 sc h1 _ => (yields_inner _ _ _).bind fun s2 p h2 hp => ?_
  obtain ⟨⟨m', hne, hapt, hpull⟩, hdest⟩ := hp
  split
  next n =>
    refine yields_pure fun s hs => ⟨⟨m', hne, { hs.apt hapt with visible := ?_ }, hpull⟩, hdest ref rfl⟩
    intro bs hbs k x hx
    rcases mem_cons.mp hbs with rfl | hbs
    · rw [lookup_cons] at hx
      split at hx
      · exact Option.some.inj hx ▸ ((h1.trans h2).trans hs).placed href
      · cases hx
    · exact (hs.apt hapt).visible bs (mem_cons_of_mem _ hbs) k x hx
  · exact yields_pure fun s hs => ⟨⟨m', hne, hs.apt hapt, hpull⟩, hdest ref rfl⟩

theorem makes_newLambda (hne : m ≠ m') (hsc : Apt m sc s0)
    (hparams : ∀ p ∈ params, OwnVariable m' s0 p) (hbody : Neat (Own m') s0 body) :
    Makes s0 (newLambda params body (some sc.generator)) fun _ _ => True := by
  intro o s id s' hr hs ho
  obtain ⟨rfl, rfl⟩ := returns_newLambda.mp hr
  have hlater : Kept (noted s o) (withLambda (noted s o) s.origins.size
      { params, body, generator := some sc.generator }) :=
    ⟨fun _ => sited_of_origins rfl, .of_generators rfl, le_rfl⟩
  have hnew := (onward_noted s o).toKept.trans hlater
  refine ⟨⟨hnew, fun id l hl => ?_⟩, trivial⟩
  by_cases hid : id = s.origins.size
  · rw [hid, withLambda_lambda?, Option.some.injEq] at hl
    subst hl hid
    have hkept := hs.toKept.trans hnew
    have hsc := hkept.apt hsc
    exact .inr ⟨m', hlater.placed (placed_noted ho), hkept.ownVariables hparams,
      hkept.term hbody, _, m, rfl, hsc.there, hsc.space, hne⟩
  · refine .inl ⟨l, ?_, rfl⟩
    simpa [withLambda, lambda?, noted, lookup_cons, beq_eq_false_iff_ne.mpr hid] using hl

theorem makes_associate (ref : Ident) (id : TermId) :
    Makes s0 (associate ref (.lambda id)) fun _ _ => True := by
  intro o s _ s' hr _ _
  obtain rfl := returns_associate.mp hr
  refine ⟨⟨⟨fun _ => sited_of_origins rfl, .of_generators rfl, le_rfl⟩,
    fun i l hl => .inl ?_⟩, trivial⟩
  rw [registered_lambda?, Option.map_eq_some_iff] at hl
  obtain ⟨l', hl', rfl⟩ := hl
  refine ⟨l', hl', ?_⟩
  split <;> rfl

theorem yields_register (hne : m ≠ m') (href : Placed s0 ref.id)
    (hparams : ∀ p ∈ params, OwnVariable m' s0 p) (hbody : Neat (Own m') s0 body) :
    Yields m s0 (register ref params body) (Neat V) := by
  refine yields_get.bind fun s1 sc h1 hsc => ?_
  split
  · exact makes_newId.yields.bind fun s2 _ h2 _ => yields_pure fun s hs =>
      neat_ident (((h1.trans h2).trans hs).placed href)
  · refine (makes_newLambda hne hsc (h1.ownVariables hparams)
      (h1.term hbody)).yields.bind fun s2 id h2 _ => ?_
    exact (makes_associate ref id).yields.bind fun s3 _ h3 _ => yields_pure fun s hs =>
      neat_ident ((((h1.trans h2).trans h3).trans hs).placed href)

theorem yields_newVariables (names : List String) :
    Yields m s0 (names.mapM newVariable) fun s xs => ∀ x ∈ xs, OwnVariable m s x :=
  yields_mapM (fun _ => yields_newVariable) (fun h => h.ownVariable) names

theorem yields_occurrences (names : List String) :
    Yields m s0 (names.mapM occurrence) fun s xs => ∀ x ∈ xs, Placed s x.id :=
  yields_mapM (fun _ => yields_occurrence) (fun h => h.placed) names

theorem neat_idents (h : ∀ x ∈ xs, Placed s x.id) :
    ∀ t ∈ xs.map Term.ident, Neat V s t := by
  intro t ht
  obtain ⟨x, hx, rfl⟩ := mem_map.mp ht
  exact neat_ident (h x hx)

/-- The function of a scope, which may have parameters besides the variables that were pulled into it. -/
theorem yields_construct (hp : Inside m true s0 p m')
    (hdest : Placed s0 p.dest.id) (hparams : ∀ x ∈ params, OwnVariable m' s0 x)
    (hbody : Neat (Own m') s0 body) : Yields m s0 (construct p params body) (Neat V) := by
  obtain ⟨hne, hapt, hpull⟩ := hp
  have hvalues : Yields m s0 _ _ := yields_occurrences (p.free.map Prod.fst)
  rw [mapM_map] at hvalues
  refine hvalues.bind fun s1 values h1 hvalues => ?_
  refine (yields_register (V := V) hne (h1.placed hdest) (fun x hx => ?_) (h1.term hbody)).bind
    fun s2 fn h2 hfn => ?_
  · rcases mem_append.mp hx with hx | hx
    · obtain ⟨b, hb, rfl⟩ := mem_map.mp hx
      exact h1.ownVariable ((hapt.free b hb).imp_right fun h => h hpull)
    · exact h1.ownVariable (hparams x hx)
  · split
    · exact yields_pure fun s hs => hs.term hfn
    · exact (makes_closure hfn (neat_idents (h2.idents hvalues))).yields

/-! ## Bodies -/

def NeatClause (V : Symbol → Prop) (s : Session) : Clause → Prop
  | .assign k v => NeatBinding V s (k.term, v)
  | .term t => Neat V s t

theorem Kept.neatClause (h : Kept s s') {c : Clause} (hc : NeatClause V s c) : NeatClause V s' c := by
  cases c with
  | assign k v => exact ⟨hc.1, h.term hc.2.1, h.term hc.2.2⟩
  | term t => exact h.term hc

theorem neat_bindingsOf (h : ∀ c ∈ cs, NeatClause V s c) :
    ∀ b ∈ bindingsOf cs, NeatBinding V s b := by
  intro b hb
  obtain ⟨c, hc, hcb⟩ := mem_filterMap.mp hb
  cases c with
  | assign k v => exact Option.some.inj hcb ▸ h _ hc
  | term t => cases hcb

theorem neat_termsOf (h : ∀ c ∈ cs, NeatClause V s c) :
    ∀ t ∈ termsOf cs, Neat V s t := by
  intro t ht
  obtain ⟨c, hc, hct⟩ := mem_filterMap.mp ht
  cases c with
  | assign k v => cases hct
  | term t => exact Option.some.inj hct ▸ h _ hc

theorem makes_sequence (hts : ∀ t ∈ ts, Neat V s0 t) :
    Makes s0 (do pure (.sequence (← newId) ts)) (Neat V) :=
  makes_node (Term.sequence · ts) (fun _ => rfl) (fun _ => trivial) fun _ => hts

theorem makes_finish {result : Option Term} (hresult : ∀ r ∈ result.toList, Neat V s0 r)
    {gs : List (Bool × List Clause)} (hgs : ∀ g ∈ gs, ∀ c ∈ g.2, NeatClause V s0 c) :
    Makes s0 (finish result gs) (Neat V) := by
  induction gs with
  | nil => exact fun _ _ _ _ hr => (returns_throw.mp hr).elim
  | cons g rest ih =>
    obtain ⟨hg, hrest⟩ := forall_mem_cons.mp hgs
    obtain ⟨b, cs⟩ := g
    cases rest with
    | nil =>
      cases b with
      | true =>
        unfold finish
        split
        next r => exact makes_binding (neat_bindingsOf hg) (hresult r (by simp))
        · exact fun _ _ _ _ hr => (returns_syntaxFailure.mp hr).elim
      | false =>
        have hts : ∀ t ∈ termsOf cs ++ result.toList, Neat V s0 t := fun t ht =>
          (mem_append.mp ht).elim (neat_termsOf hg t) (hresult t)
        unfold finish
        split
        next t ht => exact makes_pure fun s hs => hs.term (hts t (by simp [ht]))
        · exact makes_sequence hts
    | cons g' rest =>
      cases b with
      | true =>
        rw [finish]
        · exact (ih hrest).bind fun s1 body h1 hbody => makes_binding
            (neat_bindingsOf fun c hc => h1.neatClause (hg c hc)) hbody
        · simp
      | false =>
        rw [finish]
        · refine (ih hrest).bind fun s1 body h1 hbody => makes_sequence fun t ht => ?_
          rcases mem_append.mp ht with ht | ht
          · exact h1.term (neat_termsOf hg t ht)
          · exact mem_singleton.mp ht ▸ hbody
        · simp

theorem neat_groups (h : ∀ c ∈ cs, NeatClause V s c) :
    ∀ g ∈ groups cs, ∀ c ∈ g.2, NeatClause V s c := by
  intro g hg c hc
  refine h c ?_
  rw [← (groups_spec cs).1]
  exact mem_flatMap.mpr ⟨g, hg, hc⟩

/-! ## Patterns -/

def NeatPattern (V : Symbol → Prop) (s : Session) (k : Pattern) : Prop :=
  Target V k.term ∧ Neat V s k.term

theorem Kept.neatPattern (h : Kept s s') {k : Pattern} (hk : NeatPattern V s k) :
    NeatPattern V s' k :=
  hk.imp_right h.term

theorem neatPattern_name (h : OwnVariable m s x) : NeatPattern (Own m) s (.name x) :=
  ⟨⟨⟨_, rfl⟩, fun y hy => by
    rw [Pattern.term, patternSymbols, mem_singleton] at hy
    exact hy ▸ h.2⟩, neat_ident h.1⟩

theorem neatPattern_tuple {ks : List Pattern} (hid : Placed s id)
    (hks : ∀ k ∈ ks, NeatPattern V s k) : NeatPattern V s (.tuple id ks) := by
  have hsymbols : ∀ x ∈ patternSymbols.go (ks.map Pattern.term), V x := by
    induction ks with
    | nil => simp [patternSymbols.go]
    | cons k ks ih =>
      obtain ⟨hk, hks⟩ := forall_mem_cons.mp hks
      intro x hx
      rw [map_cons, patternSymbols.go, mem_append] at hx
      exact hx.elim (hk.1.2 x) (ih hks x)
  refine ⟨⟨⟨_, rfl⟩, ?_⟩, .intro hid trivial fun c hc => ?_⟩
  · rw [Pattern.term, patternSymbols, Pattern.terms_eq_map]
    exact hsymbols
  · rw [Pattern.term, Term.children, Pattern.terms_eq_map] at hc
    obtain ⟨k, hk, rfl⟩ := mem_map.mp hc
    exact (hks k hk).2

mutual

theorem yields_pattern : ∀ (e : Source.Expr) {s0 : Session},
    Yields m s0 (pattern e) (NeatPattern (Own m))
  | .tuple _ items, s0 => by
    rw [pattern]
    exact makes_newId.yields.bind fun s1 id _ hid => (yields_patterns items).bind fun s2 ks h2 hks =>
      yields_pure fun s hs => neatPattern_tuple ((h2.trans hs).placed hid) fun k hk =>
        hs.neatPattern (hks k hk)
  | .name _ id, s0 => by
    rw [pattern]
    exact (yields_declare id).bind fun s1 x _ hx => yields_pure fun s hs =>
      neatPattern_name (hs.ownVariable hx)
  | .constant .., _ | .binary .., _ | .unary .., _ | .compare .., _ | .call .., _ | .attribute .., _
  | .subscript .., _ | .slice .., _ | .lambda .., _ | .other .., _ => by
    rw [pattern]
    · exact yields_syntaxFailure _ _
    all_goals simp

theorem yields_patterns : ∀ (es : List Source.Expr) {s0 : Session},
    Yields m s0 (patterns es) fun s ks => ∀ k ∈ ks, NeatPattern (Own m) s k
  | [], _ => by
    rw [patterns]
    exact yields_pure fun _ _ => by simp
  | e :: es, _ => by
    rw [patterns]
    exact (yields_pattern e).bind fun s1 k _ hk => (yields_patterns es).bind fun s2 ks h2 hks =>
      yields_pure fun s hs => forall_mem_cons.mpr ⟨(h2.trans hs).neatPattern hk, fun k hk =>
        hs.neatPattern (hks k hk)⟩

end

theorem yields_assignAll (names : List String) {value : Term} (hv : Neat (Own m) s0 value) :
    Yields m s0 (assignAll names value) (NeatClause (Own m)) := by
  refine makes_newId.yields.bind fun s1 id h1 hid => ?_
  refine (yields_mapM (fun _ => yields_declare) (fun h => h.ownVariable) names).bind
    fun s2 xs h2 hxs => yields_pure fun s hs => ?_
  have hk : NeatPattern (Own m) s (.tuple id (xs.map .name)) := by
    refine neatPattern_tuple ((h2.trans hs).placed hid) fun k hk => ?_
    obtain ⟨x, hx, rfl⟩ := mem_map.mp hk
    exact neatPattern_name (hs.ownVariable (hxs x hx))
  exact ⟨hk.1, hk.2, ((h1.trans h2).trans hs).term hv⟩

end DiffLang.Places
