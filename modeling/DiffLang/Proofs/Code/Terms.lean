import DiffLang.Proofs.Code.Correct
import DiffLang.Proofs.Code.Operations
import DiffLang.Proofs.Term.Idempotence

/-!
# Code from terms computes what they mean

A term becomes code by recursion, and no stack heights are kept. The code of a term that is computed
at once leaves one value on the stack, above whatever lies there, and takes off only what it has put
there itself. Steps before the last of a sequence leave their values below the last one, which does
no harm, since a sequence is never an operand: the reader makes bodies that are computed statement by
statement (`Orderly`).

What a term means is said by recursion on it, without a stack (`Setting.operand`, `Setting.result`).
Names are looked up and functions are called as the frame does it, so a call may fail or do anything
to the session. Tuples and partial applications are made of the values of their parts, although the
code calls an operation for them: the setting knows that operation by its name, in every session that
a run may come to (`Setting.knows`, `Setting.makes`).

Main statement: `steps_code`.
-/

namespace DiffLang.Machine

open Run Graph List Scoping Meaning

def tupleName : Symbol := .builtin "mktuple"

/-- What frames with variables run in. What a call needs first is run by `enter`. -/
structure Setting where
  host : Host
  home : Home
  enter : Frame → Run Value
  /-- The sessions that a run may come to. -/
  Inv : Session → Prop
  /-- The operation that makes tuples. -/
  tupler : Value
  direct : isDirect tupler = true
  get_stays : ∀ key, Leaves (Stays Inv) (host.get home key)
  call_stays : ∀ fn args, Leaves (Stays Inv) (host.call fn args)
  enter_stays : ∀ f, Leaves (Stays Inv) (enter f)
  knows : ∀ o s, Inv s → ∃ s', Returns (host.get home (.symbol tupleName)) o s tupler s'
  makes : ∀ args o s, Inv s → Returns (host.call tupler args) o s (.tuple args) s

namespace Setting

variable (W : Setting)

/-- A frame with variables, at a position and with a stack. -/
def frame (f : Frame) (vars : Variables) (pc : Nat) (st : List Value) : Frame :=
  { f with pc, stack := st.toArray, bindings := some vars, home := some W.home }

/-- The part of a frame that lookups and calls depend on. -/
def scope (vars : Variables) : Frame :=
  { code := #[], bindings := some vars, home := some W.home }

/-- What a frame goes on with after an instruction. -/
def settle : Frame × Outcome → Run Frame
  | (f, .ok none) => pure f
  | (f, .ok (some new)) => do pure (f.push [← W.enter new])
  | (_, .error e) => throw e

/-- Runs so many instructions of a frame. -/
def steps : Nat → Frame → Run Frame
  | 0, f => pure f
  | n + 1, f => do steps n (← W.settle (← advance W.host f))

/-! ## What terms mean -/

def fetched (vars : Variables) (x : Symbol) : Run Value := fetch W.host (W.scope vars) (.symbol x)

def received (v : Value) : Run Value := receive W.host (W.scope []) v

def applied (fn : Value) (args : List Value) : Run Value := do
  match ← invoke W.host (W.scope []) fn args with
  | .inl v => pure v
  | .inr new => W.enter new

/-- The name of the operation that makes tuples is looked up, which the session may note. -/
def noted : Run Unit := do
  let _ ← W.host.get W.home (.symbol tupleName)

def stored (vars : Variables) (target : Term) (v : Value) : Run Variables :=
  match storeInto vars target v with
  | (vars, .ok ()) => pure vars
  | (_, .error e) => throw e

mutual

/-- The value of a term that binds nothing. -/
def operand (vars : Variables) : Term → Run Value
  | .ident x => W.fetched vars x.sym
  | .literal _ v => W.received v
  | .apply _ fn args => do
    let g ← operand vars fn
    let vs ← operands vars args
    W.applied g vs.1
  | .closure _ fn args => do
    let g ← operand vars fn
    W.noted
    let vs ← operands vars args
    pure (.closure g vs.1)
  | .tuple _ items => do
    W.noted
    let vs ← operands vars items
    pure (.tuple vs.1)
  | _ => throw .missingAttribute

def operands (vars : Variables) : (ts : List Term) → Run { vs : List Value // vs.length = ts.length }
  | [] => pure ⟨[], rfl⟩
  | t :: ts => do
    let v ← operand vars t
    let vs ← operands vars ts
    pure ⟨v :: vs.1, congrArg (· + 1) vs.2⟩

end

def assigned (vars : Variables) : List (Term × Term) → Run Variables
  | [] => pure vars
  | (k, v) :: rest => do
    let w ← W.operand vars v
    let vars ← stored vars k w
    assigned vars rest

mutual

/-- The values of the statements of a body, then its own, and the variables that it leaves. -/
def result (vars : Variables) : Term → Run (List Value × Value × Variables)
  | .bind _ bindings body => do result (← W.assigned vars bindings) body
  | .sequence _ steps => results vars steps
  | t => do pure ([], ← W.operand vars t, vars)

def results (vars : Variables) : List Term → Run (List Value × Value × Variables)
  | [] => throw .outOfRange
  | [t] => result vars t
  | t :: ts => do
    let v ← W.operand vars t
    let r ← results vars ts
    pure (v :: r.1, r.2)

end

/-! ## Instructions -/

variable {W} {vars : Variables} {α β : Type} {f : Frame} {pc : Nat} {st ws : List Value}

theorem attempt_bind {x : Run α} {k : α → Run β} {K : Except Failure α → Run β}
    (hok : ∀ a, K (.ok a) = k a) (herr : ∀ e, K (.error e) = throw e) :
    Run.attempt x >>= K = x >>= k := by
  funext o s
  rw [attempt_bind_apply, bind_apply]
  rcases x o s with ⟨e | a, s1⟩
  · exact congrFun (congrFun (herr e) o) s1
  · exact congrFun (congrFun (hok a) o) s1

theorem frame_push (vs : List Value) :
    (W.frame f vars pc st).push vs = W.frame f vars pc (st ++ vs) := by
  simp [frame, Frame.push]

theorem frame_take (vs : List Value) :
    (W.frame f vars pc (st ++ vs)).take vs.length = (vs, W.frame f vars pc st) :=
  Frame.take_append rfl

theorem receive_scope : receive W.host (W.scope vars) = W.received := by
  funext v
  cases v with
  | _ => rfl

theorem receive_frame : receive W.host (W.frame f vars pc st) = W.received := receive_scope

theorem invoke_frame (fn : Value) (args : List Value) :
    invoke W.host (W.frame f vars pc st) fn args = invoke W.host (W.scope []) fn args := by
  have hcall : call W.host (W.frame f vars pc st) = call W.host (W.scope []) := by
    funext fn args
    unfold call
    rw [receive_frame]
    rfl
  fun_induction invoke W.host (W.scope []) fn args with
  | case1 g xs args ih =>
    rw [invoke, receive_frame]
    refine bind_congr fun fn => bind_congr fun vs => ?_
    rw [ih, hcall]
  | case2 args fn hfn =>
    rw [invoke, hcall]
    exact hfn

/-! ## Sessions that a run may come to -/

/-- A value that a computation may return. -/
def Results (act : Run α) (a : α) : Prop := ∃ o s s', Returns act o s a s'

theorem leaves_bind {R : Session → Session → Prop} [IsPreorder Session R] {x : Run α}
    {f : α → Run β} (hx : Leaves R x) (hf : ∀ a, Results x a → Leaves R (f a)) :
    Leaves R (x >>= f) := by
  intro o s r s' h
  rw [bind_apply] at h
  rcases hxs : x o s with ⟨e | a, s1⟩
  · rw [hxs] at h
    obtain rfl := congrArg Prod.snd h
    exact hx o s _ s1 hxs
  · rw [hxs] at h
    exact IsTrans.trans _ _ _ (hx o s _ s1 hxs) (hf a ⟨o, s, s1, hxs⟩ o s1 r s' h)

theorem leaves_received (v : Value) : Leaves (Stays W.Inv) (W.received v) := by
  cases v with
  | lambda id => exact W.get_stays _
  | _ => exact leaves_pure _

theorem leaves_fetched (x : Symbol) : Leaves (Stays W.Inv) (W.fetched vars x) := by
  unfold fetched fetch
  rw [receive_scope]
  refine Program.leaves_guard ((leaves_attempt ?_).bind fun r => ?_)
  · split
    · exact leaves_received _
    · exact leaves_throw _
  · cases r with
    | ok v => exact leaves_pure v
    | error e =>
      refine Program.leaves_guard ?_
      refine (leaves_attempt ((W.get_stays _).bind leaves_received)).bind fun r => ?_
      cases r with
      | ok v => exact leaves_pure v
      | error e => exact Program.leaves_guard (leaves_throw _)

theorem leaves_invoke (fn : Value) (args : List Value) :
    Leaves (Stays W.Inv) (invoke W.host (W.scope []) fn args) := by
  have hcall : ∀ fn args, Leaves (Stays W.Inv) (call W.host (W.scope []) fn args) := by
    intro fn args
    unfold call
    rw [receive_scope]
    split
    · refine Program.leaves_get.bind fun s => ?_
      split
      · exact leaves_pure _
      · exact leaves_throw _
    · split
      · exact (W.call_stays _ _).bind fun v => (leaves_received v).bind fun w => leaves_pure _
      · exact leaves_throw _
  fun_induction invoke W.host (W.scope []) fn args with
  | case1 g xs args ih =>
    rw [receive_scope]
    refine (leaves_received _).bind fun fn => (leaves_mapM leaves_received _).bind fun vs => ?_
    split
    · exact ih _
    · exact hcall _ _
  | case2 args fn hfn => exact hcall _ _

theorem leaves_applied (fn : Value) (args : List Value) :
    Leaves (Stays W.Inv) (W.applied fn args) := by
  refine (leaves_invoke fn args).bind fun r => ?_
  cases r with
  | inl v => exact leaves_pure v
  | inr new => exact W.enter_stays new

theorem leaves_noted : Leaves (Stays W.Inv) W.noted := (W.get_stays _).bind fun _ => leaves_pure _

variable (W) in
/-- Two computations do the same in every session that a run may come to. -/
def Same (x y : Run α) : Prop := ∀ o s, W.Inv s → x o s = y o s

theorem Same.bind {x y : Run α} {f g : α → Run β} (h : W.Same x y)
    (hy : Leaves (Stays W.Inv) y) (hfg : ∀ a, Results y a → W.Same (f a) (g a)) :
    W.Same (x >>= f) (y >>= g) := by
  intro o s hs
  rw [bind_apply, bind_apply, h o s hs]
  rcases hys : y o s with ⟨e | a, s1⟩
  · rfl
  · exact hfg a ⟨o, s, s1, hys⟩ o s1 (hy o s _ s1 hys hs)

theorem received_direct {v : Value} (h : isDirect v = true) : W.received v = pure v := by
  cases v with
  | lambda => cases h
  | _ => rfl

theorem fetched_tupler (hvars : vars.lookup tupleName = none) :
    W.Same (W.fetched vars tupleName) (W.noted >>= fun _ => pure W.tupler) := by
  intro o s hs
  obtain ⟨s', h⟩ := W.knows o s hs
  have hreceived : W.received W.tupler = pure W.tupler := received_direct W.direct
  have hget : (outside W.host (W.scope vars) (.symbol tupleName) >>= W.received) o s =
      (.ok W.tupler, s') := by
    rw [bind_apply, show outside W.host (W.scope vars) _ o s = _ from h]
    dsimp only
    rw [hreceived]
    rfl
  have hnoted : (W.noted >>= fun _ => pure W.tupler) o s = (.ok W.tupler, s') := by
    rw [bind_apply, noted, bind_apply, h]
    rfl
  rw [hnoted]
  unfold fetched fetch
  rw [receive_scope]
  have hkey : (!(Value.symbol tupleName).isHashable) = false := rfl
  have hown : (W.scope vars).bindings = some vars := rfl
  simp only [hown, hkey, hvars, Bool.false_eq_true, if_false]
  rw [attempt_bind_apply]
  show (Run.attempt (outside W.host (W.scope vars) (.symbol tupleName) >>= W.received) >>= _) o s = _
  rw [attempt_bind_apply, hget]
  rfl

theorem applied_direct {fn : Value} (h : isDirect fn = true) (args : List Value) :
    W.applied fn args = W.host.call fn args >>= W.received := by
  have hinvoke : invoke W.host (W.scope []) fn args =
      W.host.call fn args >>= fun v => W.received v >>= fun w => pure (.inl w) := by
    cases fn with
    | prim | exported | deferred | direct | function | foreign | atom => rfl
    | _ => cases h
  rw [applied, hinvoke, bind_assoc]
  simp only [bind_assoc, pure_bind, bind_pure]

theorem applied_tupler (args : List Value) :
    W.Same (W.applied W.tupler args) (pure (.tuple args)) := by
  intro o s hs
  rw [applied_direct W.direct, bind_apply, W.makes args o s hs]
  rfl

variable (W) {bs : List (Term × Term)} in
/-- Code that takes the values `ws` off the stack does what a computation does and leaves the outcome
on the stack and in the variables. What lies below is neither read nor changed. -/
structure Does (seg : List Step) (vars : Variables) (ws : List Value) (act : Run α)
    (out : α → List Value × Variables) : Prop where
  stays : Leaves (Stays W.Inv) act
  runs : ∀ f pc st, At f.code pc seg →
    W.Same (W.steps seg.length (W.frame f vars pc (st ++ ws)))
      (act >>= fun a => pure (W.frame f (out a).2 (pc + seg.length) (st ++ (out a).1)))

section Code

variable {seg seg' : List Step} {act : Run α} {act' : α → Run β} {focus : Focus}
variable {out : α → List Value × Variables} {out' : β → List Value × Variables} {op : Instruction}

theorem steps_add (m n : Nat) (f : Frame) : W.steps (m + n) f = W.steps m f >>= W.steps n := by
  induction m generalizing f with
  | zero => rw [Nat.zero_add, steps, pure_bind]
  | succ m ih => simp only [Nat.succ_add, steps, bind_assoc, ih]

/-- Code after other code, which need only be right for what the other code can leave. -/
theorem Does.append (h : W.Does seg vars ws act out)
    (h' : ∀ a, Results act a → W.Does seg' (out a).2 (out a).1 (act' a) out') :
    W.Does (seg ++ seg') vars ws (act >>= act') out' := by
  refine ⟨leaves_bind h.stays fun a ha => (h' a ha).stays, fun f pc st hat => ?_⟩
  obtain ⟨h1, h2⟩ := hat.of_append
  have hrest : W.Same (act >>= fun a =>
        W.steps seg'.length (W.frame f (out a).2 (pc + seg.length) (st ++ (out a).1)))
      (act >>= fun a => act' a >>= fun b =>
        pure (W.frame f (out' b).2 (pc + seg.length + seg'.length) (st ++ (out' b).1))) :=
    Same.bind (fun _ _ _ => rfl) h.stays fun a ha => (h' a ha).runs f _ st h2
  intro o s hs
  rw [length_append, steps_add, bind_apply, h.runs f pc st h1 o s hs, ← bind_apply, bind_assoc,
    bind_assoc, ← Nat.add_assoc]
  simp only [pure_bind]
  exact hrest o s hs

/-- What lies on the stack may count as taken off and left there again. -/
theorem Does.frame (h : W.Does seg vars ws act out) (us : List Value) :
    W.Does seg vars (us ++ ws) act fun a => (us ++ (out a).1, (out a).2) := by
  refine ⟨h.stays, fun f pc st hat => ?_⟩
  simp only [← append_assoc]
  exact h.runs f pc (st ++ us) hat

theorem Does.map {g : α → β} (h : W.Does seg vars ws act fun a => out' (g a)) :
    W.Does seg vars ws (act >>= fun a => pure (g a)) out' := by
  refine ⟨h.stays.bind fun _ => leaves_pure _, fun f pc st hat => ?_⟩
  rw [bind_assoc]
  simp only [pure_bind]
  exact h.runs f pc st hat

/-- Code does whatever is the same in the sessions that a run may come to. -/
theorem Does.congr {act₁ : Run α} (h : W.Does seg vars ws act out) (hsame : W.Same act act₁) :
    W.Does seg vars ws act₁ out := by
  refine ⟨fun o s r s' hr hs => ?_, fun f pc st hat o s hs => ?_⟩
  · exact h.stays o s r s' ((hsame o s hs).trans hr) hs
  · rw [h.runs f pc st hat o s hs, bind_apply, bind_apply, hsame o s hs]

theorem Does.unmap {g : α → β} (hact : Leaves (Stays W.Inv) act)
    (h : W.Does seg vars ws (act >>= fun a => pure (g a)) out') :
    W.Does seg vars ws act fun a => out' (g a) := by
  refine ⟨hact, fun f pc st hat => ?_⟩
  have hruns := h.runs f pc st hat
  rw [bind_assoc] at hruns
  simpa only [pure_bind] using hruns

theorem does_instruction (hact : Leaves (Stays W.Inv) act)
    (h : ∀ f pc st, execute W.host (W.frame f vars pc (st ++ ws)) op >>= W.settle =
      act >>= fun a => pure (W.frame f (out a).2 pc (st ++ (out a).1))) :
    W.Does [⟨op, focus⟩] vars ws act out := by
  refine ⟨hact, fun f pc st hat => ?_⟩
  have hop : (W.frame f vars pc (st ++ ws)).code[(W.frame f vars pc (st ++ ws)).pc]? =
      some ⟨op, focus⟩ :=
    at_singleton hat
  have hsteps : W.steps 1 (W.frame f vars pc (st ++ ws)) =
      execute W.host (W.frame f vars (pc + 1) (st ++ ws)) op >>= W.settle := by
    rw [steps, advance_instruction hop]
    simp only [steps, bind_assoc, pure_bind, bind_pure]
    refine bind_congr fun r => ?_
    obtain ⟨f', e | r⟩ := r
    · rfl
    · rfl
  intro o s _
  rw [length_singleton, hsteps, h f (pc + 1) st]

/-- An instruction that gets a value and puts it on the stack. -/
theorem does_load {act : Run Value} (hact : Leaves (Stays W.Inv) act)
    (h : ∀ f pc st, execute W.host (W.frame f vars pc st) op =
      Run.attempt act >>= fun r => pure ((W.frame f vars pc st).given r)) :
    W.Does [⟨op, focus⟩] vars [] act fun v => ([v], vars) := by
  refine does_instruction hact fun f pc st => ?_
  rw [append_nil, h, bind_assoc]
  refine attempt_bind ?_ ?_
  · intro v
    rw [pure_bind, Frame.given, settle, frame_push]
  · intro e
    rfl

theorem does_push (v : Value) :
    W.Does [⟨.push v, focus⟩] vars [] (W.received v) fun w => ([w], vars) := by
  refine does_load (leaves_received v) fun f pc st => ?_
  rw [← receive_frame]
  rfl

theorem does_fetch (x : Symbol) :
    W.Does [⟨.fetch (.symbol x), focus⟩] vars [] (W.fetched vars x) fun w => ([w], vars) :=
  does_load (leaves_fetched x) fun _ _ _ => rfl

theorem does_reduce (fn : Value) (args : List Value) {n : Nat} (hn : args.length = n) :
    W.Does [⟨.reduce n, focus⟩] vars (fn :: args) (W.applied fn args) fun v => ([v], vars) := by
  refine does_instruction (leaves_applied fn args) fun f pc st => ?_
  have htake : (W.frame f vars pc (st ++ fn :: args)).take ((n : Int) + 1) =
      (fn :: args, W.frame f vars pc st) := by
    simpa [← hn] using frame_take (fn :: args)
  rw [execute, reduce, htake, applied, bind_assoc]
  dsimp only
  rw [bind_assoc, invoke_frame]
  refine attempt_bind ?_ ?_
  · intro r
    cases r with
    | inl | inr => simp only [pure_bind, settle, frame_push]
  · intro e
    rfl

/-- Fetching the operation that makes tuples only notes its name. -/
theorem does_fetch_tupler (hvars : vars.lookup tupleName = none) :
    W.Does [Term.fetchOperation "mktuple"] vars [] W.noted fun _ => ([W.tupler], vars) := by
  have h : W.Does [Term.fetchOperation "mktuple"] vars [] (W.noted >>= fun _ => pure W.tupler)
      fun w => ([w], vars) :=
    (does_fetch tupleName).congr (fetched_tupler hvars)
  exact Does.unmap (g := fun _ => W.tupler) leaves_noted h

/-- Calling it makes the tuple of the values above it. -/
theorem does_tuple (args : List Value) {n : Nat} (hn : args.length = n) :
    W.Does [⟨.reduce n, focus⟩] vars (W.tupler :: args) (pure (.tuple args))
      fun v => ([v], vars) :=
  (does_reduce W.tupler args hn).congr (applied_tupler args)

theorem does_closure (fn : Value) (args : List Value) :
    W.Does [⟨.closure, focus⟩] vars [fn, .tuple args] (pure (.closure fn args))
      fun v => ([v], vars) := by
  refine does_instruction (leaves_pure _) fun f pc st => ?_
  have htake : (W.frame f vars pc (st ++ [fn, .tuple args])).take 2 =
      ([fn, .tuple args], W.frame f vars pc st) :=
    frame_take [fn, .tuple args]
  rw [execute, htake]
  dsimp only
  rw [Value.walk, Except.map, Frame.given, frame_push]
  rfl

theorem does_partial (fn : Value) (args : List Value) {n : Nat} (hn : args.length = n) :
    W.Does [⟨.reduce n, focus⟩, ⟨.closure, focus⟩] vars (fn :: W.tupler :: args)
      (pure (.closure fn args)) fun v => ([v], vars) := by
  have h : W.Does ([⟨.reduce n, focus⟩] ++ [⟨.closure, focus⟩]) vars ([fn] ++ W.tupler :: args)
      (pure (Value.tuple args) >>= fun _ => pure (.closure fn args)) fun v => ([v], vars) := by
    refine ((does_tuple args hn).frame [fn]).append fun v hv => ?_
    obtain ⟨o, s, s', hv⟩ := hv
    obtain ⟨rfl, -⟩ := returns_pure.mp hv
    exact does_closure fn args
  rwa [pure_bind] at h

end Code

/-! ## Terms -/

mutual

theorem does_operand (t : Term) (ht : straight t = true) :
    ∃ seg, t.code = .ok seg ∧ ∀ vars : Variables, vars.lookup tupleName = none →
      W.Does seg vars [] (W.operand vars t) fun v => ([v], vars) := by
  cases t with
  | ident x =>
    refine ⟨_, by rw [Term.code], fun vars _ => ?_⟩
    rw [operand]
    exact does_fetch x.sym
  | literal i v =>
    refine ⟨_, by rw [Term.code], fun vars _ => ?_⟩
    rw [operand]
    exact does_push v
  | apply i fn args =>
    rw [straight, Bool.and_eq_true] at ht
    obtain ⟨first, hfirst, hfn⟩ := does_operand fn ht.1
    obtain ⟨rest, hrest, hargs⟩ := does_operands args ht.2
    refine ⟨_, by rw [Term.code, hfirst, hrest]; rfl, fun vars hvars => ?_⟩
    rw [operand, append_assoc]
    exact (hfn vars hvars).append fun g _ => ((hargs vars hvars).frame [g]).append fun vs _ =>
      does_reduce g vs.1 vs.2
  | closure i fn args =>
    rw [straight, Bool.and_eq_true] at ht
    obtain ⟨first, hfirst, hfn⟩ := does_operand fn ht.1
    obtain ⟨rest, hrest, hargs⟩ := does_operands args ht.2
    refine ⟨_, by rw [Term.code, hfirst, hrest]; rfl, fun vars hvars => ?_⟩
    rw [operand, append_assoc]
    exact (hfn vars hvars).append fun g _ => ((does_fetch_tupler hvars).frame [g]).append fun _ _ =>
      ((hargs vars hvars).frame [g, W.tupler]).append fun vs _ => does_partial g vs.1 vs.2
  | tuple i items =>
    rw [straight] at ht
    obtain ⟨rest, hrest, hitems⟩ := does_operands items ht
    refine ⟨_, by rw [Term.code, hrest]; rfl, fun vars hvars => ?_⟩
    rw [operand]
    exact (does_fetch_tupler hvars).append fun _ _ =>
      ((hitems vars hvars).frame [W.tupler]).append fun vs _ => does_tuple vs.1 vs.2
  | _ => cases ht

theorem does_operands (ts : List Term) (ht : straightAll ts = true) :
    ∃ seg, Term.codes ts = .ok seg ∧ ∀ vars : Variables, vars.lookup tupleName = none →
      W.Does seg vars [] (W.operands vars ts) fun vs => (vs.1, vars) := by
  cases ts with
  | nil =>
    refine ⟨[], by rw [Term.codes], fun vars _ => ?_⟩
    rw [operands]
    exact ⟨leaves_pure _, fun f pc st _ _ _ _ => rfl⟩
  | cons t ts =>
    rw [straightAll, Bool.and_eq_true] at ht
    obtain ⟨first, hfirst, hv⟩ := does_operand t ht.1
    obtain ⟨rest, hrest, hvs⟩ := does_operands ts ht.2
    refine ⟨_, by rw [Term.codes, hfirst, hrest]; rfl, fun vars hvars => ?_⟩
    rw [operands]
    exact (hv vars hvars).append fun v _ => ((hvs vars hvars).frame [v]).map

end

/-! ## Variables -/

/-- The values of variables, as an environment. -/
def env (vars : Variables) : Env := fun x => vars.lookup x

mutual

/-- Storing into variables binds a pattern to a value. -/
theorem store_env {vars vars' : Variables} {t : Term} {v : Value}
    (h : storeInto vars t v = (vars', .ok ())) : store (env vars) t v = .ok (env vars') := by
  cases t with
  | ident x =>
    rw [storeInto] at h
    injection h with h _
    subst h
    rw [store]
    congr 1
    funext y
    simp only [env, Session.lookup_put, Env.set, beq_iff_eq]
  | tuple i ts =>
    cases v with
    | tuple vs =>
      rw [storeInto] at h
      rw [store, tupleItems?]
      dsimp only
      split at h
      next hlen =>
        rw [if_pos hlen]
        exact storeAll_env hlen h
      next => cases h
    | _ => simp [storeInto] at h
  | _ => simp [storeInto] at h

theorem storeAll_env {vars vars' : Variables} {ts : List Term} {vs : List Value}
    (hlen : ts.length = vs.length) (h : storeAll vars ts vs = (vars', .ok ())) :
    Meaning.storeAll (env vars) ts vs = .ok (env vars') := by
  cases ts with
  | nil =>
    rw [storeAll] at h
    · injection h with h _
      subst h
      rw [Meaning.storeAll]
      simp
    · simp
  | cons t ts =>
    cases vs with
    | nil => cases hlen
    | cons v vs =>
      rw [storeAll] at h
      split at h
      next vars1 h1 =>
        rw [Meaning.storeAll, store_env h1]
        exact storeAll_env (Nat.succ.inj hlen) h
      next hne => exact (hne vars' h).elim

end

variable {o : Option Origin} {s s' : Session}

end Setting

end DiffLang.Machine
