import DiffLang.Proofs.Returns
import DiffLang.Proofs.Term.Meaning
import DiffLang.Term.Normal
import Mathlib.Data.List.Nodup

/-!
# Flattening keeps the meaning

Flattening lifts the bindings inside a bound value in front of it. This widens their scope, which
does no harm as long as no variable is bound twice and none is used where it is not in scope: then
nothing that comes into the wider scope looks at them.

Main statement: `eval_flatten`. A flattened term binds the same variables in the same order and has
the same value in every environment.
-/

namespace DiffLang.Normal

open Meaning Run Scoping List

/-- A term that can be flattened: it is scoped, and binds no variable twice and none that is there
already. -/
structure Fit (A : Symbol → Prop) (t : Term) : Prop where
  scope : Scoped A t
  nodup : (binders t).Nodup
  apart : ∀ x ∈ binders t, ¬ A x

structure FitAll (A : Symbol → Prop) (ts : List Term) : Prop where
  scope : ScopedAll A ts
  nodup : (bindersAll ts).Nodup
  apart : ∀ x ∈ bindersAll ts, ¬ A x

structure FitBindings (A : Symbol → Prop) (bs : List (Term × Term)) : Prop where
  scope : ScopedBindings A bs
  nodup : (bindersOf bs).Nodup
  apart : ∀ x ∈ bindersOf bs, ¬ A x

theorem targets_sublist (bs : List (Term × Term)) : (targets bs).Sublist (bindersOf bs) := by
  induction bs with
  | nil => exact nil_sublist _
  | cons b bs ih =>
    rw [targets_cons, bindersOf]
    exact (sublist_append_right _ _).append ih

variable {bs : List (Term × Term)} {v k : Term}

theorem mem_bindersOf_of_mem_targets {x : Symbol} (h : x ∈ targets bs) :
    x ∈ bindersOf bs :=
  (targets_sublist bs).subset h

@[simp] theorem bindersOf_append :
    ∀ (bs cs : List (Term × Term)), bindersOf (bs ++ cs) = bindersOf bs ++ bindersOf cs
  | [], cs => by simp [bindersOf]
  | (k, v) :: rest, cs => by
    simp only [cons_append, bindersOf, bindersOf_append rest cs, append_assoc]

/-! ## Parts of what can be flattened -/

section Parts

variable {A : Symbol → Prop}

variable {t fn : Term} {id : TermId} {args : List Term}

theorem FitAll.head {ts : List Term} (h : FitAll A (t :: ts)) : Fit A t := by
  obtain ⟨hs, hn, ha⟩ := h
  rw [ScopedAll] at hs
  rw [bindersAll] at hn ha
  exact ⟨hs.1, hn.of_append_left, (forall_mem_append.mp ha).1⟩

theorem FitAll.tail {ts : List Term} (h : FitAll A (t :: ts)) : FitAll A ts := by
  obtain ⟨hs, hn, ha⟩ := h
  rw [ScopedAll] at hs
  rw [bindersAll] at hn ha
  exact ⟨hs.2, hn.of_append_right, (forall_mem_append.mp ha).2⟩

theorem FitBindings.value {rest : List (Term × Term)}
    (h : FitBindings A ((k, v) :: rest)) : Fit A v := by
  obtain ⟨hs, hn, ha⟩ := h
  rw [ScopedBindings] at hs
  rw [bindersOf, append_assoc] at hn ha
  exact ⟨hs.1, hn.of_append_left, (forall_mem_append.mp ha).1⟩

theorem FitBindings.rest {rest : List (Term × Term)}
    (h : FitBindings A ((k, v) :: rest)) : FitBindings (also A (patternSymbols k)) rest := by
  obtain ⟨hs, hn, ha⟩ := h
  rw [ScopedBindings] at hs
  rw [bindersOf, append_assoc] at hn ha
  have hn' := hn.of_append_right
  refine ⟨hs.2, hn'.of_append_right, fun x hx hA => ?_⟩
  rcases hA with hk | hA
  · exact disjoint_of_nodup_append hn' hk hx
  · exact ha x (mem_append_right _ (mem_append_right _ hx)) hA

theorem Fit.bindings {body : Term} (h : Fit A (.bind id bs body)) : FitBindings A bs := by
  obtain ⟨hs, hn, ha⟩ := h
  rw [Scoped] at hs
  rw [binders] at hn ha
  exact ⟨hs.1, hn.of_append_left, (forall_mem_append.mp ha).1⟩

theorem Fit.body {body : Term} (h : Fit A (.bind id bs body)) : Fit (also A (targets bs)) body := by
  obtain ⟨hs, hn, ha⟩ := h
  rw [Scoped] at hs
  rw [binders] at hn ha
  refine ⟨hs.2, hn.of_append_right, fun x hx hA => ?_⟩
  rcases hA with hk | hA
  · exact disjoint_of_nodup_append hn (mem_bindersOf_of_mem_targets hk) hx
  · exact ha x (mem_append_right _ hx) hA

theorem Fit.fn_args (h : Fit A t) (hs : Scoped A t ↔ Scoped A fn ∧ ScopedAll A args)
    (hb : binders t = binders fn ++ bindersAll args) : Fit A fn ∧ FitAll A args := by
  obtain ⟨h1, hn, ha⟩ := h
  rw [hb] at hn ha
  rw [forall_mem_append] at ha
  exact ⟨⟨(hs.mp h1).1, hn.of_append_left, ha.1⟩, ⟨(hs.mp h1).2, hn.of_append_right, ha.2⟩⟩

theorem Fit.apply (h : Fit A (.apply id fn args)) :
    Fit A fn ∧ FitAll A args :=
  h.fn_args (by rw [Scoped]) (by rw [binders])

theorem Fit.closure (h : Fit A (.closure id fn args)) : Fit A fn ∧ FitAll A args :=
  h.fn_args (by rw [Scoped]) (by rw [binders])

theorem Fit.tuple {items : List Term} (h : Fit A (.tuple id items)) :
    FitAll A items :=
  ⟨by simpa [Scoped] using h.scope, by simpa [binders] using h.nodup,
    by simpa [binders] using h.apart⟩

theorem Fit.sequence {steps : List Term} (h : Fit A (.sequence id steps)) :
    FitAll A steps :=
  ⟨by simpa [Scoped] using h.scope, by simpa [binders] using h.nodup,
    by simpa [binders] using h.apart⟩

end Parts

/-! ## Values -/

section Values

variable {m : Type → Type} [Monad m] [LawfulMonad m] [MonadExceptOf Failure m] [FailsAtOnce m]
variable {call : Value → List Value → m Value}

theorem binders_open? (t : Term) : bindersOf (open? t).1 ++ binders (open? t).2 = binders t := by
  cases t with
  | bind id bs body => rw [open?, binders]
  | _ => simp [open?, bindersOf]

omit [FailsAtOnce m] in
theorem eval_open? (ρ : Env) (t : Term) :
    (evalBindings call ρ (open? t).1 >>= fun σ => eval call σ (open? t).2) = eval call ρ t := by
  cases t with
  | bind id bs body => rw [open?, eval]
  | _ => simp only [open?, evalBindings, pure_bind]

/-- What goes on in two environments that agree on what is in scope goes on alike: after the
flattened bindings in one of them, after the bindings themselves in the other. -/
def SameBindings (call : Value → List Value → m Value) (A : Symbol → Prop)
    (bs bs' : List (Term × Term)) : Prop :=
  ∀ {β : Type} {ρ σ : Env}, Agree A ρ σ → ∀ {f f' : Env → m β},
    (∀ τ τ', Agree (also A (targets bs)) τ τ' → f τ = f' τ') →
    (evalBindings call ρ bs' >>= f) = (evalBindings call σ bs >>= f')

/-- One binding is lifted: what is bound inside its value is set first. -/
theorem sameBindings_cons {A : Symbol → Prop} {u : Term} {rest : List (Term × Term)}
    (hfit : FitBindings A ((k, v) :: rest)) (hb : binders u = binders v)
    (hv : ∀ ρ, eval call ρ u = eval call ρ v)
    (hrest : SameBindings call (also A (patternSymbols k)) rest bs) :
    SameBindings call A ((k, v) :: rest) ((open? u).1 ++ (k, (open? u).2) :: bs) := by
  intro β ρ σ hρσ f f' hf
  have hin : ∀ x, A x → x ∉ targets (open? u).1 := by
    intro x hA hx
    refine hfit.value.apart x ?_ hA
    rw [← hb, ← binders_open? u]
    exact mem_append_left _ (mem_bindersOf_of_mem_targets hx)
  have hσ : eval call σ v = evalBindings call ρ (open? u).1 >>= fun τ =>
      eval call τ (open? u).2 := by
    rw [eval_open?, hv, eval_agree v hfit.value.scope hρσ]
  rw [evalBindings_append, evalBindings, hσ]
  simp only [bind_assoc]
  refine evalBindings_congr _ fun τ hτ _ => ?_
  rw [evalBindings]
  simp only [bind_assoc]
  congr 1
  funext w
  have hτσ : Agree A τ σ := fun x hA => (hτ x (hin x hA)).trans (hρσ x hA)
  refine (store_agree hτσ k w).lift_bind fun τ1 τ2 h12 => ?_
  exact hrest h12 fun τ τ' h => hf τ τ' (by rwa [targets_cons, also_append])

omit [LawfulMonad m] [FailsAtOnce m] in
mutual

theorem eval_flatten [LawfulMonad m] [FailsAtOnce m] {A : Symbol → Prop} {o : Option Origin} {s s' : Session} {t' : Term}
    (t : Term) (hfit : Fit A t) (hr : Returns (flatten t) o s t' s') :
    binders t' = binders t ∧ ∀ ρ, eval call ρ t' = eval call ρ t := by
  cases t with
  | ident | literal | closure =>
    rw [flatten, returns_pure] at hr
    rw [← hr.1]
    exact ⟨rfl, fun _ => rfl⟩
  | bind id bs body =>
    simp only [flatten, returns_about, returns_bind, returns_binding] at hr
    obtain ⟨bs', s1, hbs, body', s2, hbody, rfl, -⟩ := hr
    obtain ⟨hb, hsame⟩ := evalBindings_flatten bs hfit.bindings hbs
    obtain ⟨hb', hv⟩ := eval_flatten body hfit.body hbody
    refine ⟨?_, fun ρ => ?_⟩
    · rw [binders, binders, bindersOf_append, hb, append_assoc, binders_open?, hb']
    · rw [eval, eval, evalBindings_append, bind_assoc]
      simp only [eval_open?, hv]
      exact hsame Agree.refl fun τ τ' h => eval_agree body hfit.body.scope h
  | lambda id params body =>
    simp only [flatten, returns_about, returns_bind, returns_pure] at hr
    obtain ⟨l, s1, -, b, s2, -, new, s3, -, rfl, -⟩ := hr
    exact ⟨by simp only [binders], fun ρ => by simp only [eval]⟩
  | apply id fn args =>
    simp only [flatten, returns_about, returns_bind, returns_apply] at hr
    obtain ⟨f, s1, hf, ts, s2, hts, rfl, -⟩ := hr
    obtain ⟨hb, hv⟩ := eval_flatten fn hfit.apply.1 hf
    obtain ⟨hb', hv'⟩ := evalAll_flatten args hfit.apply.2 hts
    exact ⟨by rw [binders, binders, hb, hb'], fun ρ => by rw [eval, eval, hv, hv']⟩
  | tuple id items =>
    simp only [flatten, returns_about, returns_bind, returns_tuple] at hr
    obtain ⟨ts, s2, hts, rfl, -⟩ := hr
    obtain ⟨hb, hv⟩ := evalAll_flatten items hfit.tuple hts
    exact ⟨by rw [binders, binders, hb], fun ρ => by rw [eval, eval, hv]⟩
  | sequence | assign | group => simp [flatten, unrecognized] at hr

theorem evalAll_flatten [LawfulMonad m] [FailsAtOnce m] {A : Symbol → Prop} {o : Option Origin} {s s' : Session} {ts' : List Term}
    (ts : List Term) (hfit : FitAll A ts) (hr : Returns (flattenAll ts) o s ts' s') :
    bindersAll ts' = bindersAll ts ∧ ∀ ρ, evalAll call ρ ts' = evalAll call ρ ts := by
  cases ts with
  | nil =>
    rw [flattenAll, returns_pure] at hr
    rw [← hr.1]
    exact ⟨rfl, fun _ => rfl⟩
  | cons t ts =>
    simp only [flattenAll, returns_bind, returns_pure] at hr
    obtain ⟨t', s1, ht, us, s2, hus, rfl, -⟩ := hr
    obtain ⟨hb, hv⟩ := eval_flatten t hfit.head ht
    obtain ⟨hb', hv'⟩ := evalAll_flatten ts hfit.tail hus
    exact ⟨by rw [bindersAll, bindersAll, hb, hb'], fun ρ => by rw [evalAll, evalAll, hv, hv']⟩

theorem evalBindings_flatten [LawfulMonad m] [FailsAtOnce m] {A : Symbol → Prop} {o : Option Origin} {s s' : Session}
    {bs' : List (Term × Term)} (bs : List (Term × Term)) (hfit : FitBindings A bs)
    (hr : Returns (flattenBindings bs) o s bs' s') :
    bindersOf bs' = bindersOf bs ∧ SameBindings call A bs bs' := by
  match bs with
  | [] =>
    rw [flattenBindings, returns_pure] at hr
    obtain ⟨rfl, -⟩ := hr
    refine ⟨rfl, fun hρσ f f' hf => ?_⟩
    simp only [evalBindings, pure_bind]
    exact hf _ _ (by simpa using hρσ)
  | (k, v) :: rest =>
    simp only [flattenBindings, returns_bind, returns_pure] at hr
    obtain ⟨u, s1, hu, cs, s2, hcs, rfl, -⟩ := hr
    obtain ⟨hb, hv⟩ := eval_flatten v hfit.value hu
    obtain ⟨hb', hsame⟩ := evalBindings_flatten rest hfit.rest hcs
    refine ⟨?_, sameBindings_cons hfit hb hv hsame⟩
    rw [bindersOf_append, bindersOf, bindersOf, hb', ← hb, ← binders_open? u]
    simp only [append_assoc]

end

end Values

/-! ## Sessions go on -/

section Flatten

variable {R : Session → Session → Prop} [Making R]

mutual

theorem keeps_flatten (t : Term) : Keeps R (flatten t) := by
  cases t with
  | ident | literal | closure =>
    rw [flatten]
    exact keeps_pure _
  | bind id bindings body =>
    rw [flatten]
    exact keeps_about <| (keeps_flattenBindings bindings).bind fun _ =>
      (keeps_flatten body).bind fun _ => keeps_numbered fun i => Term.bind i _ _
  | lambda id params body =>
    rw [flatten]
    exact keeps_about <| (keeps_getLambda id).bind fun _ =>
      (keeps_flatten body).bind fun _ =>
        (keeps_newLambda _ _ _).bind fun _ => keeps_pure _
  | apply id fn args =>
    rw [flatten]
    exact keeps_about <| (keeps_flatten fn).bind fun _ =>
      (keeps_flattenAll args).bind fun _ => keeps_numbered fun i => Term.apply i _ _
  | tuple id items =>
    rw [flatten]
    exact keeps_about <| (keeps_flattenAll items).bind fun _ =>
      keeps_numbered fun i => Term.tuple i _
  | _ => exact keeps_throw _

theorem keeps_flattenAll : ∀ ts : List Term, Keeps R (flattenAll ts)
  | [] => by
    rw [flattenAll]
    exact keeps_pure _
  | t :: ts => by
    rw [flattenAll]
    exact (keeps_flatten t).bind fun _ => (keeps_flattenAll ts).bind fun _ =>
      keeps_pure _

theorem keeps_flattenBindings : ∀ bs : List (Term × Term), Keeps R (flattenBindings bs)
  | [] => by
    rw [flattenBindings]
    exact keeps_pure _
  | (k, v) :: bs => by
    rw [flattenBindings]
    exact (keeps_flatten v).bind fun _ => (keeps_flattenBindings bs).bind fun _ =>
      keeps_pure _

end

end Flatten

end DiffLang.Normal
