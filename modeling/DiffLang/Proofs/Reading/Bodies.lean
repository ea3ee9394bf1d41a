import DiffLang.Proofs.Reading.Variables
import DiffLang.Proofs.Resolving

/-!
# Bodies and functions of the reader

The clauses of a body become one term, which computes what the clauses compute and binds what they
set. If the clauses use only what is known or set before, the term has no unbound variable
(`finish_bound`), and the function made of it is closed (`Tidy.made`): its parameters are the
variables that were pulled from enclosing functions and its own ones.
-/

namespace DiffLang.Reading

open Run Session Growth Freshness Scoping Meaning List

variable {sc sc1 sc2 sc' : Scope} {s s1 s2 s' : Session} {o : Option Origin}

/-! ## Clauses -/

def Clause.deeds : Clause → List Deed
  | .assign k v => [.compute v, .set (patternSymbols k.term)]
  | .term t => [.compute t]

def Clause.isAssign : Clause → Bool
  | .assign .. => true
  | .term _ => false

def deedsOf (cs : List Clause) : List Deed := cs.flatMap Clause.deeds

@[simp] theorem deedsOf_nil : deedsOf [] = [] := rfl
@[simp] theorem deedsOf_append (cs cs' : List Clause) :
    deedsOf (cs ++ cs') = deedsOf cs ++ deedsOf cs' :=
  flatMap_append

def Uniform (gs : List (Bool × List Clause)) : Prop :=
  ∀ g ∈ gs, g.2 ≠ [] ∧ ∀ c ∈ g.2, c.isAssign = g.1

theorem groups_cons (c : Clause) (rest : List Clause) :
    groups (c :: rest) = match groups rest with
      | (b, cs) :: more => if b = c.isAssign then (b, c :: cs) :: more
          else (c.isAssign, [c]) :: (b, cs) :: more
      | [] => [(c.isAssign, [c])] := by
  cases c <;> rfl

theorem groups_spec (cs : List Clause) :
    (groups cs).flatMap Prod.snd = cs ∧ Uniform (groups cs) := by
  induction cs with
  | nil => exact ⟨rfl, by simp [groups, Uniform]⟩
  | cons c rest ih =>
    rw [groups_cons]
    split
    next b cs more hgroups =>
      rw [hgroups] at ih
      obtain ⟨hflat, huniform⟩ := ih
      split
      next hb =>
        refine ⟨by rw [← hflat]; rfl, fun g hg => ?_⟩
        rcases mem_cons.mp hg with rfl | hg
        · exact ⟨by simp, forall_mem_cons.mpr ⟨hb.symm, (huniform (b, cs) (by simp)).2⟩⟩
        · exact huniform g (mem_cons_of_mem _ hg)
      next hb =>
        refine ⟨by rw [← hflat]; rfl, fun g hg => ?_⟩
        rcases mem_cons.mp hg with rfl | hg
        · exact ⟨by simp, by simp⟩
        · exact huniform g hg
    next hgroups =>
      rw [hgroups] at ih
      refine ⟨by rw [← ih.1]; rfl, fun g hg => ?_⟩
      rw [mem_singleton.mp hg]
      exact ⟨by simp, by simp⟩

variable {cs : List Clause} {K : List Symbol} {body t : Term} {ds : List Deed}
variable {result : Option Term} {p : Scope} {params : List Ident}

theorem covered_bindingsOf :
    ∀ {K : List Symbol}, (∀ c ∈ cs, c.isAssign = true) → Covered K (deedsOf cs) →
      BoundBindings K (bindingsOf cs) ∧
        (∀ b ∈ bindingsOf cs, straight b.1 = true ∧ straight b.2 = true) ∧
        bindersOf (bindingsOf cs) = sets (deedsOf cs) ∧
        sets (deedsOf cs) ++ K ⊆ knownAfter K (bindingsOf cs) := by
  induction cs with
  | nil =>
    exact fun _ _ => ⟨boundBindings_nil, by simp [bindingsOf], by simp [bindingsOf, bindersOf, sets],
      by simp [sets, bindingsOf]⟩
  | cons c rest ih =>
    intro K hall hcov
    cases c with
    | term t => exact absurd (hall (.term t) (by simp)) (by simp [Clause.isAssign])
    | assign k v =>
      have hdeeds : deedsOf (.assign k v :: rest) =
          .compute v :: .set (patternSymbols k.term) :: deedsOf rest := rfl
      have hcons : bindingsOf (.assign k v :: rest) = (k.term, v) :: bindingsOf rest := rfl
      rw [hdeeds] at hcov ⊢
      rw [hcons]
      obtain ⟨⟨hv, hstraight⟩, hrest⟩ := hcov
      obtain ⟨h1, hl, h2, h3⟩ := ih (fun c hc => hall c (mem_cons_of_mem _ hc)) hrest
      refine ⟨boundBindings_cons.mpr ⟨hv, h1⟩,
        forall_mem_cons.mpr ⟨⟨k.straight, hstraight⟩, hl⟩, ?_, fun x hx => h3 ?_⟩
      · rw [bindersOf, binders_of_straight v hstraight, h2]
        rfl
      · simp only [sets, mem_append] at hx ⊢
        grind

theorem covered_termsOf
    (hall : ∀ c ∈ cs, c.isAssign = false) : deedsOf cs = computes (termsOf cs) := by
  induction cs with
  | nil => rfl
  | cons c rest ih =>
    cases c with
    | assign k v => exact absurd (hall (.assign k v) (by simp)) (by simp [Clause.isAssign])
    | term t =>
      have hrest := ih fun c hc => hall c (mem_cons_of_mem _ hc)
      have hdeeds : deedsOf (.term t :: rest) = .compute t :: deedsOf rest := rfl
      rw [hdeeds, hrest]
      rfl

theorem bindersAll_append (ts us : List Term) :
    bindersAll (ts ++ us) = bindersAll ts ++ bindersAll us := by
  induction ts with
  | nil => simp [bindersAll]
  | cons t ts ih => simp [bindersAll, ih]

theorem boundAll_append {ts us : List Term} :
    BoundAll K (ts ++ us) ↔ BoundAll K ts ∧ BoundAll K us := by
  simp only [boundAll_iff, mem_append]
  grind

def Fulfils (K : List Symbol) (ds : List Deed) (t : Term) : Prop :=
  Bound K t ∧ binders t = sets ds ∧ Orderly t

theorem fulfils_straight (hb : Bound K t) (hs : straight t = true) (hd : sets ds = []) :
    Fulfils K ds t :=
  ⟨hb, by rw [binders_of_straight t hs, hd], .straight hs⟩

theorem fulfils_bind {id : TermId} (hall : ∀ c ∈ cs, c.isAssign = true) (hcov : Covered K (deedsOf cs))
    (hbody : Fulfils (sets (deedsOf cs) ++ K) ds body) :
    Fulfils K (deedsOf cs ++ ds) (.bind id (bindingsOf cs) body) := by
  obtain ⟨h1, hs, h2, h3⟩ := covered_bindingsOf hall hcov
  refine ⟨bound_bind.mpr ⟨h1, hbody.1.mono h3⟩, ?_, .bind hs hbody.2.2⟩
  rw [binders, h2, hbody.2.1, sets_append]

theorem bindersAll_singleton (t : Term) : bindersAll [t] = binders t := by
  simp [bindersAll]

theorem boundAll_singleton : BoundAll K [t] ↔ Bound K t := by
  simp [boundAll_iff]

theorem fulfils_sequence {ts : List Term} {id : TermId}
    (hcov : Covered K (computes ts)) (hbody : Fulfils K ds body) :
    Fulfils K (computes ts ++ ds) (.sequence id (ts ++ [body])) := by
  obtain ⟨h1, h2⟩ := covered_computes.mp hcov
  refine ⟨bound_sequence.mpr (boundAll_append.mpr ⟨h1, boundAll_singleton.mpr hbody.1⟩), ?_,
    .sequence h2 hbody.2.2⟩
  rw [binders, bindersAll_append, bindersAll_of_straight ts h2, bindersAll_singleton, hbody.2.1,
    sets_append, sets_computes]

def Ending (K : List Symbol) (result : Option Term) : Prop :=
  ∀ r, result = some r → Bound K r ∧ straight r = true

theorem Ending.covered (h : Ending K result) : Covered K (computes result.toList) := by
  cases result with
  | none => exact trivial
  | some r => exact ⟨h r rfl, trivial⟩

theorem computes_append (ts us : List Term) : computes (ts ++ us) = computes ts ++ computes us :=
  map_append

theorem finish_bound :
    ∀ {gs : List (Bool × List Clause)} {t : Term} {s s' : Session},
      Returns (finish result gs) o s t s' → Uniform gs →
      Quiet s s' ∧ ∀ K, Covered K (deedsOf (gs.flatMap Prod.snd)) →
        Ending (sets (deedsOf (gs.flatMap Prod.snd)) ++ K) result →
        Fulfils K (deedsOf (gs.flatMap Prod.snd)) t
  | [], t, s, s', h, _ => by
    rw [finish] at h
    exact (returns_throw.mp h).elim
  | [(true, cs)], t, s, s', h, hu => by
    unfold finish at h
    cases result with
    | none => exact (returns_syntaxFailure.mp h).elim
    | some r =>
      simp only [returns_binding] at h
      obtain ⟨rfl, rfl⟩ := h
      refine ⟨Quiet.noted s o, fun K hcov hend => ?_⟩
      obtain ⟨hr, hs⟩ := hend r rfl
      have hflat : List.flatMap Prod.snd [(true, cs)] = cs ++ [] := rfl
      rw [hflat, append_nil] at hcov hr ⊢
      have hful : Fulfils K (deedsOf cs ++ []) (.bind s.origins.size (bindingsOf cs) r) :=
        fulfils_bind (hu (true, cs) (by simp)).2 hcov (fulfils_straight hr hs rfl)
      rwa [append_nil] at hful
  | (true, cs) :: g :: rest, t, s, s', h, hu => by
    rw [finish] at h
    · simp only [returns_bind, returns_binding] at h
      obtain ⟨body, s1, hbody, rfl, rfl⟩ := h
      obtain ⟨hq, hbody⟩ := finish_bound hbody fun g hg => hu g (mem_cons_of_mem _ hg)
      refine ⟨hq.trans (Quiet.noted _ _), fun K hcov hend => ?_⟩
      rw [flatMap_cons, deedsOf_append] at hcov hend ⊢
      obtain ⟨h1, h2⟩ := covered_append.mp hcov
      refine fulfils_bind (hu (true, cs) (by simp)).2 h1 (hbody _ h2 fun r hr => ?_)
      refine (hend r hr).imp_left fun hb => hb.mono ?_
      intro x hx
      simp only [sets_append, mem_append] at hx ⊢
      grind
    · simp
  | [(false, cs)], t, s, s', h, hu => by
    unfold finish at h
    have hflat : List.flatMap Prod.snd [(false, cs)] = cs ++ [] := rfl
    obtain ⟨hne, hterms⟩ := hu (false, cs) (by simp)
    rw [hflat, append_nil, covered_termsOf hterms, sets_computes]
    have hall : ∀ K, Covered K (computes (termsOf cs)) → Ending K result →
        Covered K (computes (termsOf cs ++ result.toList)) := fun K hcov hend => by
      rw [computes_append, covered_append, sets_computes]
      exact ⟨hcov, hend.covered⟩
    -- a single expression stands for itself, several make a sequence
    split at h
    next t' hone =>
      rw [returns_pure] at h
      obtain ⟨rfl, rfl⟩ := h
      refine ⟨Quiet.refl s, fun K hcov hend => ?_⟩
      obtain ⟨⟨hb, hs⟩, -⟩ := hone ▸ hall K hcov hend
      exact fulfils_straight hb hs (sets_computes _)
    · rw [returns_numbered] at h
      obtain ⟨rfl, rfl⟩ := h
      refine ⟨Quiet.noted s o, fun K hcov hend => ?_⟩
      have hsome : termsOf cs ++ result.toList ≠ [] := by
        cases cs with
        | nil => exact absurd rfl hne
        | cons c rest =>
          cases c with
          | assign k v => cases hterms (.assign k v) (by simp)
          | term t => simp [termsOf]
      obtain ⟨ts, last, hlast⟩ := (eq_nil_or_concat _).resolve_left hsome
      rw [concat_eq_append] at hlast
      have hcov := hall K hcov hend
      rw [hlast, computes_append, covered_append, sets_computes] at hcov
      rw [hlast]
      obtain ⟨hts, ⟨hb, hs⟩, -⟩ := hcov
      obtain ⟨h1, h2, h3⟩ := @fulfils_sequence K last [] ts s.origins.size hts
        (fulfils_straight hb hs rfl)
      exact ⟨h1, by rw [h2, append_nil, sets_computes, sets_computes], h3⟩
  | (false, cs) :: g :: rest, t, s, s', h, hu => by
    rw [finish] at h
    · simp only [returns_bind, returns_newId, returns_pure] at h
      obtain ⟨body, s1, hbody, _, _, ⟨rfl, rfl⟩, rfl, rfl⟩ := h
      obtain ⟨hq, hbody⟩ := finish_bound hbody fun g hg => hu g (mem_cons_of_mem _ hg)
      refine ⟨hq.trans (Quiet.noted _ _), fun K hcov hend => ?_⟩
      have hdeeds := covered_termsOf (hu (false, cs) (by simp)).2
      rw [flatMap_cons, deedsOf_append, hdeeds] at hcov hend ⊢
      obtain ⟨h1, h2⟩ := covered_append.mp hcov
      rw [sets_computes, nil_append] at h2
      rw [sets_append, sets_computes, nil_append] at hend
      exact fulfils_sequence h1 (hbody K h2 hend)
    · simp

theorem steps_grouped {act : Reader (List Clause)} {gs : List (Bool × List Clause)} :
    Steps (grouped act) o sc s gs sc' s' ↔ ∃ cs, Steps act o sc s cs sc' s' ∧ groups cs = gs := by
  unfold grouped
  simp only [steps_bind, steps_pure]
  constructor
  · rintro ⟨cs, _, _, h, hgs, rfl, rfl⟩
    exact ⟨cs, h, hgs⟩
  · rintro ⟨cs, h, hgs⟩
    exact ⟨cs, _, _, h, hgs, rfl, rfl⟩

theorem finish_groups (h : Returns (finish result (groups cs)) o s t s') :
    Quiet s s' ∧ ∀ K, Covered K (deedsOf cs) → Ending (sets (deedsOf cs) ++ K) result →
      Fulfils K (deedsOf cs) t := by
  obtain ⟨hflat, huniform⟩ := groups_spec cs
  have := finish_bound h huniform
  rwa [hflat] at this

/-! ## Functions -/

theorem Tidy.made {R B : List String} {F : Bindings} {p' : Scope} {xs : List Ident}
    (h : Tidy R B F (.set (xs.map (·.sym)) :: ds) p s p' s') (hfree : p.free = []) (hown : Knows p [])
    (hgen : Private s' p.generator)
    (hbody : ∀ K, xs.map (·.sym) ⊆ K → Covered K ds → Knows p' (sets ds ++ K) → Fulfils K ds body)
    (g : Option GeneratorId) :
    Made { params := p'.free.map Prod.snd ++ xs, body, generator := g } := by
  have hparams : (p'.free.map Prod.snd ++ xs).map (·.sym) = symbols F ++ xs.map (·.sym) := by
    rw [h.free, hfree, nil_append, map_append, map_map]
    rfl
  have hK : Knows p (symbols F ++ xs.map (·.sym)) := hown.mono (nil_subset _)
  have hF : symbols F ⊆ symbols F ++ xs.map (·.sym) := subset_append_left _ _
  have hful := hbody (xs.map (·.sym) ++ (symbols F ++ xs.map (·.sym)))
    (subset_append_left _ _) (h.covered _ (hK.on R) hF) ((h.knows hK hF).mono (by
      intro x hx
      simp only [sets, mem_append] at hx ⊢
      grind))
  refine ⟨⟨?_, ?_⟩, ?_, ?_⟩
  · show Bound ((p'.free.map Prod.snd ++ xs).map (·.sym)) body
    rw [hparams]
    refine hful.1.mono ?_
    intro x hx
    simp only [mem_append] at hx ⊢
    grind
  · show ((p'.free.map Prod.snd ++ xs).map (·.sym) ++ binders body).Nodup
    rw [hparams, hful.2.1, append_assoc]
    exact h.fresh.nodup
  · show ∀ x ∈ (p'.free.map Prod.snd ++ xs).map (·.sym), x.isGlobal = false
    rw [hparams]
    refine fun x hx => hgen.isGlobal h.fresh ?_
    rw [sets, ← append_assoc]
    exact mem_append_left _ hx
  · exact hful.2.2

/-- A function may be registered: it is as the reader makes it, and its name is a global one. -/
def Registrable (ref : Ident) (params : List Ident) (body : Term) : Prop :=
  ref.sym.isGlobal = true ∧ ∀ g, Made { params, body, generator := g }

theorem steps_register {ref : Ident} (h : Steps (register ref params body) o sc s t sc' s')
    (hok : sc.trial = false → Registrable ref params body) :
    t = .ident ref ∧ sc = sc' ∧ Registers s s' ∧ (sc.trial = false → s.origins.size < s'.origins.size ∧
      ∃ l, s'.lambda? s.origins.size = some l ∧ l.ref = some ref ∧ l.params = params) := by
  unfold register at h
  rw [steps_get_bind] at h
  split at h
  next ht =>
    simp only [steps_bind, steps_lift, returns_newId, steps_pure] at h
    obtain ⟨_, _, _, ⟨⟨rfl, rfl⟩, rfl⟩, rfl, rfl, rfl⟩ := h
    exact ⟨rfl, rfl, (Quiet.noted _ _).registers, fun hf => by rw [ht] at hf; cases hf⟩
  next ht =>
    simp only [steps_bind, steps_lift, returns_newLambda, returns_associate, steps_pure] at h
    obtain ⟨_, _, _, ⟨⟨rfl, rfl⟩, rfl⟩, _, _, _, ⟨rfl, rfl⟩, rfl, rfl, rfl⟩ := h
    obtain ⟨href, hmade⟩ := hok (by simpa using ht)
    refine ⟨rfl, rfl, registers_registered href (hmade _) rfl _ _, fun _ => ⟨?_, ?_⟩⟩
    · simp [registered, changed, withLambda]
    · exact ⟨{ params, body, generator := some sc.generator, ref := some ref }, by simp, rfl, rfl⟩

theorem read_construct {f : Option Header} (h : Steps (construct p params body) o sc s t sc' s')
    (hr : Ready sc s) (hok : sc.trial = false → Registrable p.dest (p.free.map Prod.snd ++ params) body)
    (hf : ∀ k ∈ f, k.Fits (p.free.map Prod.snd) params) :
    Read (p.free.map Prod.fst) [] [] f.toList [.compute t] sc s sc' s' := by
  unfold construct at h
  simp only [steps_bind] at h
  obtain ⟨values, sc1, s1, hvalues, fn, sc2, s2, hfn, h⟩ := h
  have hvalues : Steps ((p.free.map Prod.fst).mapM occurrence) o sc s values sc1 s1 := by
    rw [mapM_map]
    exact hvalues
  have h1 := read_occurrences hvalues hr
  have hok1 : sc1.trial = false → Registrable p.dest (p.free.map Prod.snd ++ params) body := by
    rw [h1.same.trial]
    exact hok
  obtain ⟨rfl, rfl, hreg, hmade⟩ := steps_register hfn hok1
  have hentered : sc1.trial = false → Entered f.toList s1 s2 := by
    intro ht
    obtain ⟨hlt, l, hl, hlref, hparams⟩ := hmade ht
    cases f with
    | none => exact .nil
    | some k =>
      exact ⟨[s1.origins.size], by simp, by simp, .cons
        ⟨hlt, l, p.dest, _, params, hl, hlref, hparams, hf k rfl⟩ .nil⟩
  have h2 := h1.append { Read.still hreg h1.ready with entered := hentered } hr
  simp only [nil_append, append_nil, without_nil] at h2
  have href : sc.trial = false → p.dest.sym.isGlobal = true := fun ht => (hok ht).1
  have hclosure : ∀ {t : Term}, (∀ K, BoundAll K (values.map .ident) →
      p.dest.sym.isGlobal = true → Bound K t) → straight t = true →
      Read (p.free.map Prod.fst) [] [] f.toList [.compute t] sc s sc1 s2 := by
    intro t hbound hstraight
    refine { h2 with tidy := fun ht hset => ?_ }
    obtain ⟨F, hF⟩ := h2.tidy ht hset
    refine ⟨F, hF.free, hF.unpulled, ?_, fun K hK hsub => ⟨⟨?_, hstraight⟩, trivial⟩, ?_⟩
    · simpa [sets] using hF.fresh
    · exact hbound K (covered_computes.mp (hF.covered K hK hsub)).1 (href ht)
    · simpa [sets] using hF.bindings
  split at h
  · rw [steps_pure] at h
    obtain ⟨rfl, rfl, rfl⟩ := h
    exact hclosure (fun K _ hg => bound_ident.mpr (.inl hg)) (by simp [straight])
  · rw [steps_lift, returns_closure] at h
    obtain ⟨⟨rfl, rfl⟩, rfl⟩ := h
    refine Read.before hr (hclosure (fun K hv hg => ?_) ?_)
      (Quiet.noted s2 o).registers
    · exact bound_closure.mpr ⟨bound_ident.mpr (.inl hg), hv⟩
    · simp [straight, straightAll_idents]

/-! ## What is registered -/

/-- A function that needs no variables of enclosing functions is known by its name. -/
theorem construct_ident {x : Ident} (h : Steps (construct p params body) o sc s (.ident x) sc' s')
    (hr : Ready sc s) (ht : sc.trial = false) : Program.Known s' x.sym := by
  unfold construct at h
  simp only [steps_bind] at h
  obtain ⟨values, sc1, s1, hvalues, fn, sc2, s2, hfn, h⟩ := h
  have hvalues : Steps ((p.free.map Prod.fst).mapM occurrence) o sc s values sc1 s1 := by
    rw [mapM_map]
    exact hvalues
  have ht1 : sc1.trial = false := by rw [(read_occurrences hvalues hr).same.trial, ht]
  unfold register at hfn
  rw [steps_get_bind] at hfn
  simp only [ht1, Bool.false_eq_true, if_false, steps_bind, steps_lift, returns_newLambda,
    returns_associate, steps_pure] at hfn
  obtain ⟨_, _, _, ⟨⟨rfl, rfl⟩, rfl⟩, _, _, _, ⟨rfl, rfl⟩, rfl, rfl, rfl⟩ := hfn
  split at h
  · rw [steps_pure] at h
    obtain ⟨hx, -, rfl⟩ := h
    injection hx with hx
    subst hx
    exact (Program.means_registered _ _ _).known
  · rw [steps_lift, returns_closure] at h
    cases h.1.1

end DiffLang.Reading
