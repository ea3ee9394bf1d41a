import DiffLang.Engine
import DiffLang.Proofs.Code.Denotation
import DiffLang.Proofs.Code.Running

/-!
# The machine computes what a graph means

A machine that runs the code of a graph ends with a value exactly if the graph has that value. The
host that it runs on answers as the universe of the graph says, in every session that it can come
to, and has the code of each compiled function.

A primitive that fails with the failure that marks the end of a frame is not seen to fail: the frame
hands over whatever lies on top of its stack. `Regular` therefore asks of the calls and lookups that
an evaluation makes that they do not fail in this way, next to the right number of arguments.

Main statement: `evaluates_iff_run_returns`.
-/

open Relation (ReflTransGen TransGen)

namespace DiffLang.Graph

open Machine Run

def LooksUp (s : Store) (g : GraphId) (x : Symbol) : Prop :=
  ∃ out n, (s.graph g).output = some out ∧ Reaches s out n ∧
    (s.node n).application? = none ∧ Leaf s g n (.fetch (.symbol x))

def Applies (U : Universe) (s : Store) (g : GraphId) (args : List Value) (f : Value)
    (vs : List Value) : Prop :=
  ∃ out n p ps f0 vs0, (s.graph g).output = some out ∧ Reaches s out n ∧
    (s.node n).application? = some ((p :: ps).map some) ∧ Denotes U s g args p f0 ∧
    List.Forall₂ (Denotes U s g args) ps vs0 ∧ unfolded f0 vs0 = (f, vs)

def Calls (U : Universe) (s : Store) (c c' : GraphId × List Value) : Prop :=
  ∃ id graph tag, Applies U s c.1 c.2 (.machine id graph tag) c'.2 ∧ U.function id = some c'.1

/-- Whatever is evaluated for a graph on arguments is well formed, is called with the right number
of arguments, and neither looks up nor calls what fails with the end of a frame. -/
structure Regular (U : Universe) (s : Store) (g : GraphId) (args : List Value) : Prop where
  formed : ∀ {h vs}, ReflTransGen (Calls U s) (g, args) (h, vs) →
    ∃ out, (s.graph h).output = some out ∧ WellFormed s h out
  arity : ∀ {h vs}, ReflTransGen (Calls U s) (g, args) (h, vs) →
    vs.length = (s.graph h).inputs.length
  names : ∀ {h vs x e}, ReflTransGen (Calls U s) (g, args) (h, vs) → LooksUp s h x →
    U.name x = .error e → e.kind ≠ .stop
  calls : ∀ {h vs f ws e}, ReflTransGen (Calls U s) (g, args) (h, vs) →
    Applies U s h vs f ws → isDirect f = true → U.call f ws = .error e → e.kind ≠ .stop

/-- A host answers as a universe says, and the sessions that its answers lead to stay inside of an
invariant. -/
structure Serves (host : Host) (o : Option Origin) (home : Home) (U : Universe) (s : Store)
    (Inv : Session → Prop) : Prop where
  name : ∀ x σ, Inv σ → ∃ σ', host.get home (.symbol x) o σ = (U.name x, σ') ∧ Inv σ'
  call : ∀ f vs σ, isDirect f = true → Inv σ →
    ∃ σ', host.call f vs o σ = (U.call f vs, σ') ∧ Inv σ'
  function : ∀ id g σ, Inv σ → U.function id = some g →
    ∃ fn, σ.machineFunctions[id]? = some fn ∧ instructions s g = .ok fn.code
  noFunction : ∀ id σ, Inv σ → U.function id = none → σ.machineFunctions[id]? = none

variable {host : Host} {o : Option Origin} {home : Home} {U : Universe} {s : Store}
variable {Inv : Session → Prop} {g : GraphId} {args : List Value} {out : NodeId}

theorem Regular.called {c : GraphId × List Value} (h : Regular U s g args)
    (hc : Calls U s (g, args) c) : Regular U s c.1 c.2 :=
  ⟨fun hr => h.formed (hr.head hc), fun hr => h.arity (hr.head hc),
    fun hr => h.names (hr.head hc), fun hr => h.calls (hr.head hc)⟩

theorem Regular.values (h : Regular U s g args) {σ : Session} :
    Values (Stays Inv) s g out args σ fun _ n w => Denotes U s g args n w where
  mono _ hr := hr
  push _ ha hl _ := denotes_push ha hl
  input _ ha hl _ := denotes_input ha hl (h.arity .refl)

/-- What applying a function gives does not depend on how its partial applications are nested. -/
theorem apply_unfolded (f : Frame) (h : f.bindings = none) (fn : Value) (vs : List Value) :
    apply host f fn vs = apply host f (unfolded fn vs).1 (unfolded fn vs).2 := by
  fun_induction unfolded fn vs with
  | case1 fn xs vs ih => rw [apply_closure f h, ih]
  | case2 => rfl

variable {vs : List Value} {w f : Value} {ps : List NodeId}

theorem applied_cases {body : GraphId → List Value → Option Value} {f' : Value} {vs' : List Value}
    (hf : unfolded f vs = (f', vs')) (h : applied U body f vs = some w) :
    (∃ id graph tag g, f' = .machine id graph tag ∧ U.function id = some g ∧ body g vs' = some w) ∨
      (isDirect f' = true ∧ U.call f' vs' = .ok w) := by
  unfold applied at h
  rw [hf] at h
  split at h
  next id graph tag ws he =>
    injection he with h1 h2
    subst h1 h2
    obtain ⟨g, hg, hbody⟩ := Option.bind_eq_some_iff.mp h
    exact .inl ⟨id, graph, tag, g, rfl, hg, hbody⟩
  next f1 vs1 _ he =>
    injection he with h1 h2
    subst h1 h2
    split at h
    next hd =>
      refine .inr ⟨hd, ?_⟩
      cases hcall : U.call f' vs' with
      | error e =>
        rw [hcall] at h
        cases h
      | ok w' =>
        rw [hcall] at h
        cases h
        rfl
    · cases h

theorem forall₂_denotes_unique {ws : List Value}
    (hv : List.Forall₂ (Denotes U s g args) ps vs) (hw : List.Forall₂ (Denotes U s g args) ps ws) :
    vs = ws := by
  induction hv generalizing ws with
  | nil =>
    cases hw
    rfl
  | cons hv _ ih =>
    cases hw with
    | cons hw hws => rw [hv.unique hw, ih hws]

theorem WellFormed.applied_of_reaches {k : Nat} {n p : NodeId} (hw : WellFormed s g out)
    (hden : denote U s k g args out = some w) (hn : Reaches s out n)
    (happ : (s.node n).application? = some ((p :: ps).map some)) (hf : Denotes U s g args p f)
    (hvs : List.Forall₂ (Denotes U s g args) ps vs) :
    ∃ j u, k = j + 1 ∧ denote U s k g args n = some u ∧
      applied U (entered s (denote U s j)) f vs = some u := by
  obtain ⟨u, hu⟩ := hw.denote_of_reaches .refl hn ⟨w, hden⟩
  cases k with
  | zero => cases hu
  | succ k =>
    obtain ⟨f', vs', hf', hvs', hu'⟩ := (denote_application happ).mp hu
    obtain rfl : f = f' := hf.unique ⟨k, hf'⟩
    obtain rfl : vs = vs' := forall₂_denotes_unique hvs (hvs'.imp fun _ _ hv => ⟨k, hv⟩)
    exact ⟨k, u, rfl, hu, hu'⟩

theorem Serves.ends_of_denote (hserves : Serves host o home U s Inv) (k : Nat) :
    ∀ {g : GraphId} {args : List Value} {out : NodeId} {w v : Value} {σ : Session}
      {code : Array Step} {lambda : Option TermId} {waiting : List Frame},
      Regular U s g args → Inv σ → (s.graph g).output = some out →
      denote U s k g args out = some w → instructions s g = .ok code →
      (∀ σ', Inv σ' → ∃ n, Returned host o n σ' v w waiting) →
      Ends host o ⟨plain code (some home) lambda 0 args, waiting⟩ σ v := by
  induction k with
  | zero =>
    intro g args out w v σ code lambda waiting _ _ _ hden
    cases hden
  | succ k ih =>
    intro g args out w v σ code lambda waiting hreg hσ hout hden hcode hret
    obtain ⟨out', hout', hw⟩ := hreg.formed .refl
    rw [hout, Option.some.injEq] at hout'
    subst hout'
    have hval : Valuation host o home (Stays Inv) s g out args σ
        fun _ n w => Denotes U s g args n w := by
      refine ⟨hreg.values, ?_, ?_⟩
      · intro n key σ1 hn ha hl hσ1
        obtain ⟨x, rfl, hx⟩ := denotes_fetch U args ha hl
        obtain ⟨u, hu⟩ := hw.denote_of_reaches .refl hn ⟨w, hden⟩
        obtain ⟨σ2, hget, hσ2⟩ := hserves.name x σ1 (hσ1 hσ)
        have hu : Denotes U s g args n u := ⟨_, hu⟩
        rw [hx.mp hu] at hget
        exact ⟨u, σ2, hget, fun _ => hσ2, hu⟩
      · intro n σ1 f vs p ps hn happ hσ1 hf hvs
        obtain ⟨j, u, hj, hu, hu'⟩ := hw.applied_of_reaches hden hn happ hf hvs
        obtain rfl : k = j := Nat.succ.inj hj
        intro code' lambda' pc st waiting' v' hgo
        rw [apply_unfolded _ rfl]
        rcases hunf : unfolded f vs with ⟨f1, vs1⟩
        have hgoes : ∀ σ2, Inv σ2 → Ends host o
            ⟨plain code' (some home) lambda' pc (st ++ [u]), waiting'⟩ σ2 v' :=
          fun σ2 hσ2 => hgo u σ2 (fun _ => hσ2) ⟨_, hu⟩
        rcases applied_cases hunf hu' with ⟨id, graph, tag, h, rfl, hh, hbody⟩ | ⟨hd, hcall⟩
        · -- a compiled function: its own graph has the value, at a smaller depth
          obtain ⟨_, out', hout', hden'⟩ := entered_eq_some_iff.mp hbody
          obtain ⟨fn, hfn, hfncode⟩ := hserves.function id h σ1 (hσ1 hσ) hh
          have hcalls : Calls U s (g, args) (h, vs1) :=
            ⟨id, graph, tag, ⟨out, n, p, ps, f, vs, hout, hn, happ, hf, hvs, hunf⟩, hh⟩
          have hends : Ends host o ⟨plain fn.code (some home) fn.lambda 0 vs1, _⟩ σ1 v' :=
            ih (hreg.called hcalls) (hσ1 hσ) hout' hden' hfncode fun σ2 hσ2 =>
              let ⟨_, hm⟩ := hgoes σ2 hσ2
              hm.returned
          obtain ⟨m, hm⟩ := hends
          exact ⟨m, apply_machine.mpr ⟨fn, hfn, hm⟩⟩
        · obtain ⟨σ2, hret', hσ2⟩ := hserves.call f1 vs1 σ1 hd (hσ1 hσ)
          rw [hcall] at hret'
          obtain ⟨m, hm⟩ := hgoes σ2 hσ2
          have hstop : NeverStops (host.call f1 vs1) o σ1 := by
            intro e σ3 he
            rw [hret'] at he
            cases he
          exact ⟨m, (apply_direct hd hstop).mpr ⟨u, σ2, hret', hm⟩⟩
    refine forward hout hw hval (hreg.arity .refl) hcode (Std.Refl.refl σ)
      fun u σ' hσ' hu => ?_
    obtain rfl : u = w := hu.unique ⟨_, hden⟩
    exact hret σ' (hσ' hσ)

theorem denotes_of_applied {n p : NodeId}
    {k : Nat} (happ : (s.node n).application? = some ((p :: ps).map some))
    (hf : Denotes U s g args p f) (hvs : List.Forall₂ (Denotes U s g args) ps vs)
    (hw : applied U (entered s (denote U s k)) f vs = some w) :
    Denotes U s g args n w := by
  have hall : ∃ j, List.Forall₂ (fun p v => denote U s j g args p = some v) ps vs := by
    clear happ hw
    induction hvs with
    | nil => exact ⟨0, .nil⟩
    | cons hv _ ih =>
      obtain ⟨i, hi⟩ := hv
      obtain ⟨j, hj⟩ := ih
      exact ⟨max i j, .cons (denote_mono (Nat.le_max_left i j) hi)
        (hj.imp fun _ _ h => denote_mono (Nat.le_max_right i j) h)⟩
  obtain ⟨i, hi⟩ := hf
  obtain ⟨j, hj⟩ := hall
  refine ⟨max (max i j) k + 1, (denote_application happ).mpr ⟨f, vs, ?_, ?_, ?_⟩⟩
  · exact denote_mono (by omega) hi
  · exact hj.imp fun _ _ h => denote_mono (by omega) h
  · refine applied_mono (fun h ws v hv => ?_) hw
    obtain ⟨hlen, m, hm, hv⟩ := entered_eq_some_iff.mp hv
    exact entered_eq_some_iff.mpr ⟨hlen, m, hm, denote_mono (by omega) hv⟩

theorem Serves.evaluates_of_endsIn (hserves : Serves host o home U s Inv) (N : Nat) :
    ∀ {g : GraphId} {args : List Value} {v : Value} {σ : Session} {code : Array Step}
      {lambda : Option TermId} {waiting : List Frame},
      Regular U s g args → Inv σ → instructions s g = .ok code →
      EndsIn host o N ⟨plain code (some home) lambda 0 args, waiting⟩ σ v →
      ∃ w σ' m, m < N ∧ Inv σ' ∧ Evaluates U s g args w ∧ Returned host o m σ' v w waiting := by
  induction N using Nat.strong_induction_on with
  | _ N ih =>
    intro g args v σ code lambda waiting hreg hσ hcode hends
    obtain ⟨out, hout, hw⟩ := hreg.formed .refl
    have hval : Reflection host o home (Stays Inv) N s g out args σ
        fun _ n w => Denotes U s g args n w := by
      refine ⟨hreg.values, ?_, ?_, ?_⟩
      · intro n key σ1 hn ha hl hσ1 e σ2 he
        obtain ⟨x, rfl, hx⟩ := denotes_fetch U args ha hl
        obtain ⟨σ3, hget, _⟩ := hserves.name x σ1 (hσ1 hσ)
        rw [hget] at he
        injection he with he _
        exact hreg.names .refl ⟨out, n, hout, hn, ha, hl⟩ he
      · intro n key σ1 u σ2 hn ha hl hσ1 hu
        obtain ⟨x, rfl, hx⟩ := denotes_fetch U args ha hl
        obtain ⟨σ3, hget, hσ3⟩ := hserves.name x σ1 (hσ1 hσ)
        unfold Returns at hu
        rw [hget] at hu
        injection hu with hu hσ2
        subst hσ2
        exact ⟨fun _ => hσ3, hx.mpr hu⟩
      · intro n σ1 f vs p ps hn happ hσ1 hf hvs m hm code' lambda' pc st waiting' v' hafter
        rw [apply_unfolded _ rfl] at hafter
        rcases hunf : unfolded f vs with ⟨f1, vs1⟩
        rw [hunf] at hafter
        have happlies : Applies U s g args f1 vs1 :=
          ⟨out, n, p, ps, f, vs, hout, hn, happ, hf, hvs, hunf⟩
        by_cases hmach : ∃ id graph tag, f1 = .machine id graph tag
        · obtain ⟨id, graph, tag, rfl⟩ := hmach
          obtain ⟨fn, hfn, hends1⟩ := apply_machine.mp hafter
          cases hh : U.function id with
          | none =>
            rw [hserves.noFunction id σ1 (hσ1 hσ) hh] at hfn
            cases hfn
          | some h =>
            obtain ⟨fn', hfn', hfncode⟩ := hserves.function id h σ1 (hσ1 hσ) hh
            rw [hfn, Option.some.injEq] at hfn'
            subst hfn'
            have hcalls : Calls U s (g, args) (h, vs1) := ⟨id, graph, tag, happlies, hh⟩
            obtain ⟨u, σ2, m2, hm2, hσ2, ⟨out', hout', k, hk⟩, hret⟩ :=
              ih m hm (hreg.called hcalls) (hσ1 hσ) hfncode hends1
            obtain ⟨m3, hm3, hends3⟩ := hret.endsIn
            refine ⟨u, σ2, m3, by omega, fun _ => hσ2, ?_, hends3⟩
            refine denotes_of_applied (k := k) happ hf hvs ?_
            unfold applied
            rw [hunf]
            have hlen := hreg.arity (.single hcalls)
            exact Option.bind_eq_some_iff.mpr
              ⟨h, hh, entered_eq_some_iff.mpr ⟨hlen, out', hout', hk⟩⟩
        · have hnot : ∀ id graph tag, f1 ≠ .machine id graph tag :=
            fun id graph tag he => hmach ⟨id, graph, tag, he⟩
          by_cases hd : isDirect f1 = true
          · obtain ⟨σ2, hcall, hσ2⟩ := hserves.call f1 vs1 σ1 hd (hσ1 hσ)
            have hstop : NeverStops (host.call f1 vs1) o σ1 := by
              intro e σ3 he
              rw [hcall] at he
              injection he with he _
              exact hreg.calls .refl happlies hd he
            obtain ⟨u, σ3, hu, hends1⟩ := (apply_direct hd hstop).mp hafter
            unfold Returns at hu
            rw [hcall] at hu
            injection hu with hu hσ3
            subst hσ3
            refine ⟨u, σ2, m, Nat.le_refl m, fun _ => hσ2, ?_, hends1⟩
            refine denotes_of_applied (k := 0) happ hf hvs ?_
            unfold applied
            rw [hunf]
            split
            next id graph tag _ he =>
              injection he with he _
              exact absurd he (hnot id graph tag)
            next f2 vs2 _ he =>
              injection he with h1 h2
              subst h1 h2
              rw [if_pos hd, hu]
              rfl
          · have hclosure : ∀ h xs, f1 ≠ .closure h xs := by
              intro h xs he
              exact unfolded_not_closure f vs h xs (by rw [hunf, he])
            exact (apply_other (by simpa using hd) hclosure hnot hafter).elim
    obtain ⟨w, σ', m, hm, hσ', hden, hret⟩ := backward hout hw hval (hreg.arity .refl)
      hcode (Std.Refl.refl σ) (Nat.le_refl N) hends
    exact ⟨w, σ', m, hm, hσ' hσ, ⟨out, hout, hden⟩, hret⟩

/-! ## Evaluations that end -/

theorem Evaluates.called {c c' : GraphId × List Value} {v : Value}
    (hw : ∃ out, (s.graph c.1).output = some out ∧ WellFormed s c.1 out)
    (h : Evaluates U s c.1 c.2 v) (hc : Calls U s c c') :
    c'.2.length = (s.graph c'.1).inputs.length ∧ ∃ w, Evaluates U s c'.1 c'.2 w := by
  obtain ⟨out, hout, hw⟩ := hw
  obtain ⟨out1, hout1, k, hk⟩ := h
  obtain ⟨id, graph, tag, ⟨out2, n, p, ps, f, vs, hout2, hn, happ, hf, hvs, hunf⟩, hid⟩ := hc
  rw [hout, Option.some.injEq] at hout1 hout2
  subst hout1 hout2
  obtain ⟨j, u, _, _, hu⟩ := hw.applied_of_reaches hk hn happ hf hvs
  rcases applied_cases hunf hu with ⟨_, _, _, g, hm, hg, hbody⟩ | ⟨hd, _⟩
  · cases hm
    rw [hid, Option.some.injEq] at hg
    subst hg
    obtain ⟨hlen, out', hout', hden⟩ := entered_eq_some_iff.mp hbody
    exact ⟨hlen, u, out', hout', j, hden⟩
  · cases hd

theorem Evaluates.regular {v : Value} (h : Evaluates U s g args v)
    (hargs : args.length = (s.graph g).inputs.length)
    (hg : ∃ out, (s.graph g).output = some out ∧ WellFormed s g out)
    (hf : ∀ id h, U.function id = some h → ∃ out, (s.graph h).output = some out ∧ WellFormed s h out) :
    Regular U s g args := by
  have hvisited : ∀ c, ReflTransGen (Calls U s) (g, args) c →
      (∃ out, (s.graph c.1).output = some out ∧ WellFormed s c.1 out) ∧
        c.2.length = (s.graph c.1).inputs.length ∧ ∃ w, Evaluates U s c.1 c.2 w := by
    intro c hc
    induction hc with
    | refl => exact ⟨hg, hargs, v, h⟩
    | @tail b c _ hbc ih =>
      obtain ⟨hb, _, w, hw⟩ := ih
      have hcalled := hw.called hb hbc
      obtain ⟨id, _, _, _, hid⟩ := hbc
      exact ⟨hf id c.1 hid, hcalled⟩
  have hdefined : ∀ {h vs out}, ReflTransGen (Calls U s) (g, args) (h, vs) →
      (s.graph h).output = some out → WellFormed s h out ∧ ∃ k u, denote U s k h vs out = some u := by
    intro h vs out hc hout
    obtain ⟨⟨out1, hout1, hw⟩, _, w, out2, hout2, k, hk⟩ := hvisited _ hc
    rw [hout, Option.some.injEq] at hout1 hout2
    subst hout1 hout2
    exact ⟨hw, k, w, hk⟩
  refine ⟨fun hc => (hvisited _ hc).1, fun hc => (hvisited _ hc).2.1, ?_, ?_⟩
  · rintro h vs x e hc ⟨out, n, hout, hn, ha, hl⟩ he
    obtain ⟨hw, k, w, hk⟩ := hdefined hc hout
    obtain ⟨u, hu⟩ := hw.denote_of_reaches .refl hn ⟨w, hk⟩
    obtain ⟨y, hy, hname⟩ := denotes_fetch U vs ha hl
    injection hy with hy
    rw [← hy] at hname
    have hu : Denotes U s h vs n u := ⟨k, hu⟩
    rw [hname.mp hu] at he
    cases he
  · rintro h vs f ws e hc ⟨out, n, p, ps, f0, vs0, hout, hn, happ, hf, hvs, hunf⟩ hd he
    obtain ⟨hw, k, w, hk⟩ := hdefined hc hout
    obtain ⟨j, u, _, _, hu⟩ := hw.applied_of_reaches hk hn happ hf hvs
    rcases applied_cases hunf hu with ⟨_, _, _, _, rfl, _⟩ | ⟨_, hcall⟩
    · cases hd
    · rw [hcall] at he
      cases he

/-- A machine that runs the code of a graph ends with a value exactly if the graph has it. -/
theorem evaluates_iff_run_returns (hserves : Serves host o home U s Inv)
    (hreg : Regular U s g args) {σ : Session} (hσ : Inv σ) (v : Value) :
    Evaluates U s g args v ↔
      ∃ code n σ', instructions s g = .ok code ∧
        Returns (run host n { frame := { code, stack := args.toArray, home := some home } })
          o σ v σ' := by
  constructor
  · rintro ⟨out, hout, k, hk⟩
    obtain ⟨out', hout', hw⟩ := hreg.formed .refl
    obtain ⟨ns, code, hcode, _, _⟩ := instructions_spec hout' hw
    have hends : Ends host o ⟨plain code.toArray (some home) none 0 args, []⟩ σ v :=
      hserves.ends_of_denote k hreg hσ hout hk hcode fun _ _ => ⟨0, rfl⟩
    obtain ⟨n, σ', hn⟩ := hends
    exact ⟨_, n, σ', hcode, hn⟩
  · rintro ⟨code, n, σ', hcode, hn⟩
    have hends : EndsIn host o n ⟨plain code (some home) none 0 args, []⟩ σ v := ⟨σ', hn⟩
    obtain ⟨w, σ₁, m, _, _, hev, hret⟩ := hserves.evaluates_of_endsIn n hreg hσ hcode hends
    obtain rfl : w = v := hret
    exact hev

/-! ## A host for a universe -/

def Universe.asHost (U : Universe) : Host where
  call f vs := Run.lift (U.call f vs)
  get _ key :=
    match key with
    | .symbol x => Run.lift (U.name x)
    | _ => throw .missingKey
  display _ _ := pure ()

theorem Universe.serves (U : Universe) (s : Store) (o : Option Origin) (home : Home)
    (fs : Array MachineFunction)
    (hfs : ∀ id g, U.function id = some g →
      ∃ fn, fs[id]? = some fn ∧ instructions s g = .ok fn.code)
    (hno : ∀ id, U.function id = none → fs[id]? = none) :
    Serves U.asHost o home U s fun σ => σ.machineFunctions = fs := by
  refine ⟨fun x σ hσ => ⟨σ, ?_, hσ⟩, fun f vs σ _ hσ => ⟨σ, ?_, hσ⟩, ?_, ?_⟩
  · show Run.lift (U.name x) o σ = _
    cases U.name x <;> rfl
  · show Run.lift (U.call f vs) o σ = _
    cases U.call f vs <;> rfl
  · rintro id g σ rfl hid
    exact hfs id g hid
  · rintro id σ rfl hid
    exact hno id hid

def sampleName (label : String) : Symbol := .plain label (.named "global:sample") 1

/-- Two operations and a partial application of a compiled function. -/
def sampleUniverse : Universe where
  name x :=
    if x = sampleName "add" then .ok (.atom "add")
    else if x = sampleName "multiply" then .ok (.atom "multiply")
    else if x = sampleName "tenfold" then
      .ok (.closure (.machine 0 0 (sampleName "product")) [.int 10])
    else .error .missingKey
  call f vs :=
    match f, vs with
    | .atom "add", [.int a, .int b] => .ok (.int (a + b))
    | .atom "multiply", [.int a, .int b] => .ok (.int (a * b))
    | _, _ => .error .typeMismatch
  function
    | 0 => some 0
    | _ => none

/-- The product of two numbers, and a graph that adds a number to its tenfold, where the number is
itself a sum. -/
def sampleStore : Store :=
  let input (g : GraphId) (users : List (Role × Owner)) : Node :=
    { home := some g, tag := sampleName "x", users }
  let name (label : String) (users : List (Role × Owner)) : Node :=
    { home := none, tag := sampleName label, value := some (.symbol (sampleName label)), users }
  let application (g : GraphId) (fn : NodeId) (inputs : List NodeId) (users : List (Role × Owner)) :
      Node :=
    { home := some g, tag := sampleName "y", fn := some fn, inputs := inputs.map some, users }
  { nodes := #[
      input 0 [(.input 0, .node 3)], input 0 [(.input 1, .node 3)], name "multiply" [(.fn, .node 3)],
      application 0 2 [0, 1] [(.output, .graph 0)],
      input 1 [(.input 0, .node 6), (.input 1, .node 6)],
      name "add" [(.fn, .node 6), (.fn, .node 9)],
      application 1 5 [4, 4] [(.input 0, .node 8), (.input 1, .node 9)],
      name "tenfold" [(.fn, .node 8)],
      application 1 7 [6] [(.input 0, .node 9)],
      application 1 5 [8, 6] [(.output, .graph 1)]]
    graphs := #[
      { parent := none, tag := sampleName "product", generator := 0, inputs := [0, 1]
        output := some 3 },
      { parent := none, tag := sampleName "sum", generator := 0, inputs := [4]
        output := some 9 }] }

def sampleFunctions : Array MachineFunction :=
  #[{ graph := 0, stage := 0, lambda := none, params := []
      code := (instructions sampleStore 0).toOption.getD #[], primal := none }]

theorem sampleStore_product : ∃ out, (sampleStore.graph 0).output = some out ∧
    WellFormed sampleStore 0 out :=
  ⟨3, by decide +kernel, WellFormed.of_members [0, 1, 2, 3] (by decide +kernel) (by decide +kernel)
    (by decide +kernel) (by decide +kernel) (by decide +kernel) (by decide +kernel)⟩

theorem sampleStore_sum : ∃ out, (sampleStore.graph 1).output = some out ∧
    WellFormed sampleStore 1 out :=
  ⟨9, by decide +kernel, WellFormed.of_members [4, 5, 6, 7, 8, 9] (by decide +kernel)
    (by decide +kernel) (by decide +kernel) (by decide +kernel) (by decide +kernel)
    (by decide +kernel)⟩

theorem sampleUniverse_function (id : Nat) (h : GraphId) (hid : sampleUniverse.function id = some h) :
    ∃ out, (sampleStore.graph h).output = some out ∧ WellFormed sampleStore h out := by
  cases id with
  | succ => cases hid
  | zero =>
    cases hid
    exact sampleStore_product

theorem evaluates_sample : Evaluates sampleUniverse sampleStore 1 [.int 3] (.int 66) :=
  ⟨9, by decide +kernel, 5, eq_some_of_identical (by decide +kernel)⟩

theorem regular_sample : Regular sampleUniverse sampleStore 1 [.int 3] :=
  evaluates_sample.regular (by decide +kernel) sampleStore_sum sampleUniverse_function

theorem serves_sample : Serves sampleUniverse.asHost none (.stage 0) sampleUniverse sampleStore
    fun σ => σ.machineFunctions = sampleFunctions := by
  refine sampleUniverse.serves sampleStore none (.stage 0) sampleFunctions ?_ ?_
  · intro id g hid
    cases id with
    | succ => cases hid
    | zero =>
      cases hid
      refine ⟨_, rfl, ?_⟩
      have hcode : (instructions sampleStore 0).toOption.isSome = true := by decide +kernel
      cases h : instructions sampleStore 0 with
      | error e =>
        rw [h] at hcode
        cases hcode
      | ok code => simp [sampleFunctions, h, Except.toOption]
  · intro id hid
    cases id with
    | zero => cases hid
    | succ id => simp [sampleFunctions]

theorem evaluates_iff_run_returns_sample :
    Evaluates sampleUniverse sampleStore 1 [.int 3] (.int 66) ∧
      ∃ code n σ', instructions sampleStore 1 = .ok code ∧
        Returns (run sampleUniverse.asHost n
          { frame := { code, stack := #[.int 3], home := some (.stage 0) } }) none
          { Session.initial with machineFunctions := sampleFunctions } (.int 66) σ' :=
  ⟨evaluates_sample, (evaluates_iff_run_returns serves_sample regular_sample rfl (.int 66)).mp
    evaluates_sample⟩

/-! ## An evaluation that stops -/

/-- What a host answers in a session, where nothing is compiled yet. -/
def Universe.ofHost (host : Host) (home : Home) (σ : Session) : Universe where
  name x := (host.get home (.symbol x) none σ).1
  call f vs := (host.call f vs none σ).1
  function _ := none

/-- The standard stages before the library is read, which nothing below uses. -/
def bareSession : Session := { Session.initial with stages := Stage.initialStages }

/-- The names and primitives of the standard machine before it has compiled a function. -/
def standardUniverse : Universe :=
  .ofHost Engine.top (.stage Stage.standard.machine) bareSession

/-- The graph of a function that raises `StopIteration` with its parameter. -/
def stoppingStore : Store :=
  { nodes := #[
      { home := some 0, tag := sampleName "x", users := [(.input 0, .node 2)] },
      { home := none, tag := sampleName "StopIteration", value := some (.foreign "StopIteration")
        users := [(.fn, .node 2)] },
      { home := some 0, tag := sampleName "e", fn := some 1, inputs := [some 0]
        users := [(.input 0, .node 4)] },
      { home := none, tag := .builtin "raise_exception"
        value := some (.symbol (.builtin "raise_exception")), users := [(.fn, .node 4)] },
      { home := some 0, tag := sampleName "y", fn := some 3, inputs := [some 2]
        users := [(.output, .graph 0)] }]
    graphs := #[
      { parent := none, tag := sampleName "f", generator := 0, inputs := [0]
        output := some 4 }] }

theorem stoppingStore_formed : ∃ out, (stoppingStore.graph 0).output = some out ∧
    WellFormed stoppingStore 0 out :=
  ⟨4, by decide +kernel, WellFormed.of_members [0, 1, 2, 3, 4] (by decide +kernel)
    (by decide +kernel) (by decide +kernel) (by decide +kernel) (by decide +kernel)
    (by decide +kernel)⟩

def isStop : Fallible Value → Bool
  | .error e => e.kind == .stop
  | .ok _ => false

/-- The standard machine has a primitive that raises, and raising this failure stops a frame. -/
theorem standardUniverse_raises :
    ∃ f e, standardUniverse.name (.builtin "raise_exception") = .ok f ∧ isDirect f = true ∧
      standardUniverse.call f [.exception .stop [.int 3]] = .error e ∧ e.kind = .stop := by
  have h : ((standardUniverse.name (.builtin "raise_exception")).toOption.any fun f =>
      isDirect f && isStop (standardUniverse.call f [.exception .stop [.int 3]])) = true := by
    decide +kernel
  obtain ⟨f, hf, h⟩ := (Option.any_eq_true _ _).mp h
  obtain ⟨hdirect, hstop⟩ := Bool.and_eq_true_iff.mp h
  cases he : standardUniverse.call f [.exception .stop [.int 3]] with
  | ok w =>
    rw [he] at hstop
    cases hstop
  | error e =>
    rw [he] at hstop
    exact ⟨f, e, toOption_eq_some.mp hf, hdirect, he, eq_of_beq hstop⟩

/-- The graph has no value for `3`, since it raises, but the standard machine returns `3`. -/
theorem run_returns_raised_stop :
    (¬ ∃ v, Evaluates standardUniverse stoppingStore 0 [.int 3] v) ∧
      ∃ code n σ', instructions stoppingStore 0 = .ok code ∧
        Returns (run Engine.top n
          { frame := { code, stack := #[.int 3], home := some (.stage Stage.standard.machine) } })
          none bareSession (.int 3) σ' := by
  refine ⟨?_, ?_⟩
  · rintro ⟨v, hv⟩
    have hreg := hv.regular (by decide +kernel) stoppingStore_formed fun _ _ h => by cases h
    obtain ⟨f, e, hname, hdirect, hcall, hstop⟩ := standardUniverse_raises
    have hraise : Denotes standardUniverse stoppingStore 0 [.int 3] 3 f := by
      obtain ⟨x, hx, hden⟩ := denotes_fetch standardUniverse [.int 3] (s := stoppingStore) (g := 0)
        (n := 3) rfl (.name rfl (by decide +kernel))
      cases hx
      exact hden.mpr hname
    have hmade : Denotes standardUniverse stoppingStore 0 [.int 3] 2 (.exception .stop [.int 3]) :=
      ⟨2, eq_some_of_identical (by decide +kernel)⟩
    exact hreg.calls .refl ⟨4, 4, 3, [2], f, _, rfl, .refl, rfl, hraise, .cons hmade .nil,
      unfolded_of_isDirect hdirect⟩ hdirect hcall hstop
  · obtain ⟨out, hout, hw⟩ := stoppingStore_formed
    obtain ⟨_, code, hcode, _⟩ := instructions_spec hout hw
    have h := eq_some_of_identical (r := (run Engine.top 10 { frame :=
        { code := (instructions stoppingStore 0).toOption.getD #[], stack := #[.int 3],
          home := some (.stage Stage.standard.machine) } } none bareSession).1.toOption)
      (v := .int 3) (by decide +kernel)
    rw [hcode] at h
    exact ⟨_, 10, _, hcode, Prod.ext (toOption_eq_some.mp h) rfl⟩

end DiffLang.Graph
