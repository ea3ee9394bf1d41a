import DiffLang.Engine
import DiffLang.Proofs.Term.Meaning
import DiffLang.Proofs.Value.Whole

/-!
# Backpropagators of array operations

The backpropagators that the prelude has for products, transposes and sums of arrays, and fitting an
array back to the shape it had, are adjoint to the operations: pairing what they return with a change
of the arguments is the same as pairing the sensitivity with the change of the result.
-/

namespace DiffLang.Gradient

open Meaning Tensor Engine

/-! ## Reading the prelude -/

/-- The function that the prelude has as the backpropagator of an operation, where no sensitivities
are grouped. -/
def backpropagator? (name : String) : Option Lambda := do
  let entry ← Prelude.backpropagators.find? (·.text.startsWith s!"def bprop_{name}(")
  let statement ← entry.statement?
  let read := Program.readText Prelude.backpropagatorsUrl 1 [statement] (some 0)
  (read.go Session.initial).2.lambdas.head?.map Prod.snd

/-- The arguments as the values of the parameters; any other variable is the operation of its
name. -/
def environment (params : List Symbol) (args : List Value) : Env := fun x =>
  match (params.zip args).lookup x with
  | some v => some v
  | none => some (.prim .standard (.builtin x.root) none)

def backpropagate (host : Host) (name : String) (args : List Value) : Run Value :=
  match backpropagator? name with
  | some l => eval (call host) (environment (l.params.map (·.sym)) args) l.body
  | none => throw .missingAttribute

mutual

/-- Whether two terms are equal but for the numbers of their nodes, for variables, calls, tuples and
variables bound to the items of a pair. -/
def alike : Term → Term → Bool
  | .ident x, .ident y => x.sym = y.sym
  | .apply _ f ts, .apply _ g us => alike f g && alikeAll ts us
  | .tuple _ ts, .tuple _ us => alikeAll ts us
  | .bind _ [(.tuple _ [.ident a, .ident b], v)] t, .bind _ [(.tuple _ [.ident c, .ident d], w)] u =>
    a.sym = c.sym && b.sym = d.sym && alike v w && alike t u
  | _, _ => false

def alikeAll : List Term → List Term → Bool
  | [], [] => true
  | t :: ts, u :: us => alike t u && alikeAll ts us
  | _, _ => false

end

theorem store_pair {a b c d : Ident} (ha : a.sym = c.sym) (hb : b.sym = d.sym) (i j : TermId)
    (ρ : Env) (v : Value) :
    store ρ (.tuple i [.ident a, .ident b]) v = store ρ (.tuple j [.ident c, .ident d]) v := by
  simp only [store]
  cases tupleItems? v with
  | none => rfl
  | some vs => rcases vs with _ | ⟨v, _ | ⟨w, _ | _⟩⟩ <;> simp [storeAll, store, ha, hb]

mutual

theorem eval_alike {call : Value → List Value → Run Value} (t u : Term) (h : alike t u = true)
    (ρ : Env) : eval call ρ t = eval call ρ u := by
  unfold alike at h
  split at h
  · simp only [eval, of_decide_eq_true h]
  next f ts _ g us =>
    rw [Bool.and_eq_true] at h
    rw [eval, eval, eval_alike f g h.1, evalAll_alike ts us h.2]
  next ts _ us => rw [eval, eval, evalAll_alike ts us h]
  next _ i a b v t _ j c d w u =>
    simp only [Bool.and_eq_true, decide_eq_true_eq] at h
    simp only [eval, evalBindings, store_pair h.1.1.1 h.1.1.2 i j, eval_alike v w h.1.2,
      eval_alike t u h.2]
  · cases h

theorem evalAll_alike {call : Value → List Value → Run Value} (ts us : List Term)
    (h : alikeAll ts us = true) (ρ : Env) : evalAll call ρ ts = evalAll call ρ us := by
  unfold alikeAll at h
  split at h
  · rfl
  next t ts u us =>
    rw [Bool.and_eq_true] at h
    rw [evalAll, evalAll, eval_alike t u h.1, evalAll_alike ts us h.2]
  · cases h

end

theorem backpropagate_eq (name : String) (params : List Symbol) (body : Term)
    (h : (backpropagator? name).any fun l => l.params.map (·.sym) = params && alike l.body body)
    (host : Host) (args : List Value) :
    backpropagate host name args = eval (call host) (environment params args) body := by
  cases hl : backpropagator? name with
  | none => simp [hl] at h
  | some l =>
    simp only [hl, Option.any_some, Bool.and_eq_true, decide_eq_true_eq] at h
    simp only [backpropagate, hl, h.1]
    exact eval_alike _ _ h.2 _

/-- A variable of a function of the prelude. -/
def own (name : String) : Symbol := .plain name (.hidden 1) 1

/-- An operation that the prelude refers to by its name. -/
def imported (name : String) : Symbol :=
  .plain name (.named ("global:" ++ Prelude.backpropagatorsUrl)) 1

def use (x : Symbol) : Term := .ident ⟨0, x⟩

def operate (op : Symbol) (args : List Term) : Term := .apply 0 (use op) args

section Evaluation

variable {host : Host} {ρ : Env} {v : Value} {vs : List Value} {ts : List Term}

theorem eval_use {x : Symbol} (h : ρ x = some v) : eval (call host) ρ (use x) = pure v := by
  simp only [use, eval, h]

theorem eval_operate (name : String) {op : Symbol}
    (hop : ρ op = some (.prim .standard (.builtin name) none))
    (hts : evalAll (call host) ρ ts = pure vs)
    (h : Primitive.call host name vs = Run.lift (.ok v)) :
    eval (call host) ρ (operate op ts) = pure v := by
  rw [operate, eval, eval_use hop, hts]
  exact h

theorem eval_tuple (hts : evalAll (call host) ρ ts = pure vs) :
    eval (call host) ρ (.tuple 0 ts) = pure (.tuple vs) := by
  rw [eval, hts]
  rfl

theorem evalAll_cons {t : Term} (ht : eval (call host) ρ t = pure v)
    (hts : evalAll (call host) ρ ts = pure vs) :
    evalAll (call host) ρ (t :: ts) = pure (v :: vs) := by
  rw [evalAll, ht, hts]
  rfl

end Evaluation

variable (host : Host)

theorem backpropagate_dot {x y dz xt yt gx gy : Value} (hy : Primitive.transposed y = .ok yt)
    (hgx : Primitive.product dz yt = .ok gx) (hx : Primitive.transposed x = .ok xt)
    (hgy : Primitive.product xt dz = .ok gy) :
    backpropagate host "dot" [x, y, dz] = pure (.tuple [.tuple [], gx, gy]) := by
  let flip (name : String) : Term := operate (imported "transpose") [use (own name)]
  rw [backpropagate_eq "dot" [own "x", own "y", own "dz"] (.tuple 0 [.tuple 0 [],
    operate (.builtin "dot") [use (own "dz"), flip "y"],
    operate (.builtin "dot") [flip "x", use (own "dz")]]) (by decide +kernel)]
  refine eval_tuple (evalAll_cons (eval_tuple rfl) (evalAll_cons ?_ (evalAll_cons ?_ rfl)))
  · refine eval_operate "dot" rfl (evalAll_cons (eval_use rfl) (evalAll_cons ?_ rfl))
      (congrArg Run.lift hgx)
    exact eval_operate "transpose" rfl (evalAll_cons (eval_use rfl) rfl) (congrArg Run.lift hy)
  · refine eval_operate "dot" rfl (evalAll_cons ?_ (evalAll_cons (eval_use rfl) rfl))
      (congrArg Run.lift hgy)
    exact eval_operate "transpose" rfl (evalAll_cons (eval_use rfl) rfl) (congrArg Run.lift hx)

theorem backpropagate_transpose {x dz g : Value} (h : Primitive.transposed dz = .ok g) :
    backpropagate host "transpose" [x, dz] = pure (.tuple [.tuple [], g]) := by
  rw [backpropagate_eq "transpose" [own "x", own "dz"]
    (.tuple 0 [.tuple 0 [], operate (imported "transpose") [use (own "dz")]]) (by decide +kernel)]
  refine eval_tuple (evalAll_cons (eval_tuple rfl) (evalAll_cons ?_ rfl))
  exact eval_operate "transpose" rfl (evalAll_cons (eval_use rfl) rfl) (congrArg Run.lift h)

theorem backpropagate_sum {xs dz u g : Value}
    (h : Primitive.spreadOut (.tuple [xs, dz]) = .ok (.tuple [u, g])) :
    backpropagate host "sum" [xs, dz] = pure (.tuple [.tuple [], g]) := by
  rw [backpropagate_eq "sum" [own "xs", own "dz"] (.bind 0
    [(.tuple 0 [use (own "_"), use (own "bdz")],
      operate (imported "broadcast") [.tuple 0 [use (own "xs"), use (own "dz")]])]
    (.tuple 0 [.tuple 0 [], use (own "bdz")])) (by decide +kernel)]
  have hspread : eval (call host) (environment [own "xs", own "dz"] [xs, dz])
      (operate (imported "broadcast") [.tuple 0 [use (own "xs"), use (own "dz")]]) =
        pure (.tuple [u, g]) :=
    eval_operate "broadcast" rfl (evalAll_cons (eval_tuple (evalAll_cons (eval_use rfl)
      (evalAll_cons (eval_use rfl) rfl))) rfl) (congrArg Run.lift h)
  have hitem : eval (call host)
      (((environment [own "xs", own "dz"] [xs, dz]).set (own "_") u).set (own "bdz") g)
      (.tuple 0 [.tuple 0 [], use (own "bdz")]) = pure (.tuple [.tuple [], g]) :=
    eval_tuple (evalAll_cons (eval_tuple rfl) (evalAll_cons (eval_use rfl) rfl))
  rw [eval, evalBindings, hspread]
  exact hitem

/-! ## Adjoints -/

/-- The backpropagators of products, transposes and sums are adjoint to the operations, and so is
fitting an array back to its shape to fitting it, as long as no entry leaves the range of its type. -/
theorem backpropagators_adjoint :
    (∀ (p q r : Nat) (x y dx dy dz : Nat → Int),
      Fits (p * q) (matmul r q dz fun i => y (mirror [q, r] i)) →
      Fits (q * r) (matmul p r (fun i => x (mirror [p, q] i)) dz) →
      Fits (p * r) (matmul q r dx y) → Fits (p * r) (matmul q r x dy) →
      ∃ gx gy u v, backpropagate host "dot" [ints [p, q] x, ints [q, r] y, ints [p, r] dz] =
          pure (.tuple [.tuple [], ints [p, q] gx, ints [q, r] gy]) ∧
        Primitive.product (ints [p, q] dx) (ints [q, r] y) = .ok (ints [p, r] u) ∧
        Primitive.product (ints [p, q] x) (ints [q, r] dy) = .ok (ints [p, r] v) ∧
        inner [p, q] gx dx + inner [q, r] gy dy = inner [p, r] dz fun i => u i + v i) ∧
    (∀ (s : List Nat) (x dx dz : Nat → Int),
      ∃ g u, backpropagate host "transpose" [ints s x, ints s.reverse dz] =
          pure (.tuple [.tuple [], ints s g]) ∧
        Primitive.transposed (ints s dx) = .ok (ints s.reverse u) ∧
        inner s g dx = inner s.reverse dz u) ∧
    (∀ (s : List Nat) (x dx : Nat → Int) (d : Int) (dz : Value),
      ofValue dz = .ok ⟨.int 64, [], [.int d]⟩ → Fits (count s) dx →
      (ElementType.int 64).holds (∑ i ∈ Finset.range (count s), dx i) →
      ∃ g n, backpropagate host "sum" [ints s x, dz] = pure (.tuple [.tuple [], ints s g]) ∧
        Primitive.total (ints s dx) = .ok (.scalar (.int 64) (.int n)) ∧ inner s g dx = d * n) ∧
    (∀ (s : List Nat) (x : Nat → Int) (shape r : Value), Fits (count s) x →
      fit (ints s x) shape = .ok r → ∃ t shapeBack, shapeOf shape = .ok t ∧
        Primitive.shapeOf (ints s x) = .ok shapeBack ∧
        ∀ dz dx, Fits (count t) dz → Fits (count s) dx → Fits (count s) (fitted t s dz) →
          Fits (count t) (fitted s t dx) →
          ∃ g u, fit (ints t dz) shapeBack = .ok (ints s g) ∧
            fit (ints s dx) shape = .ok (ints t u) ∧ inner s g dx = inner t dz u) := by
  refine ⟨?dot, ?transpose, ?sum, ?fit⟩
  case dot =>
    intro p q r x y dx dy dz hgx hgy hu hv
    have hy : Primitive.transposed (ints [q, r] y) = .ok (ints [r, q] _) := transposed_ints [q, r] y
    have hx : Primitive.transposed (ints [p, q] x) = .ok (ints [q, p] _) := transposed_ints [p, q] x
    refine ⟨_, _, _, _, backpropagate_dot host hy (product_ints hgx) hx (product_ints hgy),
      product_ints hu, product_ints hv, ?_⟩
    rw [inner_left, inner_right, inner_add]
  case transpose =>
    intro s x dx dz
    have hdz := transposed_ints s.reverse dz
    rw [List.reverse_reverse] at hdz
    exact ⟨_, _, backpropagate_transpose host hdz, transposed_ints s dx, inner_mirror s dx dz⟩
  case sum =>
    intro s x dx d dz hd hdx hsum
    refine ⟨_, _, backpropagate_sum host (spreadOut_ints hd), total_ints hdx hsum, ?_⟩
    exact (Finset.mul_sum _ _ _).symm
  case fit =>
    intro s x shape r hx h
    obtain ⟨t, ht⟩ := target_of_fit hx h
    obtain ⟨shapeBack, hback, hs⟩ := target_shape (f := x) ht
    refine ⟨t, shapeBack, ht.reads, hback, fun dz dx hdz hdx hg hu => ?_⟩
    exact ⟨_, _, fit_ints hdz hs hg, fit_ints hdx ht hu, inner_fitted dx dz ht.meets⟩

theorem backpropagators_adjoint_small :
    (∃ gx gy u v, backpropagate top "dot"
          [ints [2, 3] Int.ofNat, ints [3, 1] Int.ofNat, ints [2, 1] Int.ofNat] =
          pure (.tuple [.tuple [], ints [2, 3] gx, ints [3, 1] gy]) ∧
        Primitive.product (ints [2, 3] Int.ofNat) (ints [3, 1] Int.ofNat) = .ok (ints [2, 1] u) ∧
        Primitive.product (ints [2, 3] Int.ofNat) (ints [3, 1] Int.ofNat) = .ok (ints [2, 1] v) ∧
        inner [2, 3] gx Int.ofNat + inner [3, 1] gy Int.ofNat =
          inner [2, 1] Int.ofNat fun i => u i + v i) ∧
    (∃ g n, backpropagate top "sum" [ints [2, 3] Int.ofNat, .int 5] =
          pure (.tuple [.tuple [], ints [2, 3] g]) ∧
        Primitive.total (ints [2, 3] Int.ofNat) = .ok (.scalar (.int 64) (.int n)) ∧
        inner [2, 3] g Int.ofNat = 5 * n) ∧
    ∃ shapeBack g u, Primitive.shapeOf (ints [2, 1] Int.ofNat) = .ok shapeBack ∧
      fit (ints [1, 3] Int.ofNat) shapeBack = .ok (ints [2, 1] g) ∧
      fit (ints [2, 1] Int.ofNat) (.tuple [.int 1, .int 3]) = .ok (ints [1, 3] u) ∧
      inner [2, 1] g Int.ofNat = inner [1, 3] Int.ofNat u := by
  obtain ⟨hdot, -, hsum, hfit⟩ := backpropagators_adjoint top
  obtain ⟨t, shapeBack, ht, hback, hfit⟩ := hfit [2, 1] Int.ofNat (.tuple [.int 1, .int 3])
    (ints [1, 3] fun _ => 1) (by decide) rfl
  obtain rfl : [1, 3] = t := Except.ok.inj ht
  obtain ⟨g, u, h⟩ := hfit Int.ofNat Int.ofNat (by decide) (by decide) (by decide) (by decide)
  exact ⟨hdot 2 3 1 _ _ _ _ _ (by decide) (by decide) (by decide) (by decide),
    hsum [2, 3] _ _ 5 _ rfl (by decide) (by decide), shapeBack, g, u, hback, h⟩

end DiffLang.Gradient
