import DiffLang.Primitive
import Mathlib.Algebra.BigOperators.Intervals
import Mathlib.Algebra.BigOperators.Ring.Finset
import Mathlib.Tactic.Ring

/-!
# Arrays of whole numbers

Positions in row-major order, and what the operations on arrays compute where no entry leaves the
range of its type: products, transposes, sums, and fitting an array to another shape.
-/

namespace DiffLang.Tensor

open Finset ElementType Primitive

variable {s cs t : List Nat} {n i m k : Nat} {f g : Nat → Int} {shape : Value}

/-! ## Positions -/

@[simp] theorem count_nil : count [] = 1 := rfl

@[simp] theorem count_cons (n : Nat) (s : List Nat) : count (n :: s) = n * count s := by
  simp only [count, ← List.prod_eq_foldl, List.prod_cons]

theorem count_reverse (s : List Nat) : count s.reverse = count s := by
  simp only [count, ← List.prod_eq_foldl, List.prod_reverse]

@[simp] theorem position_nil : position [] [] = 0 := rfl

theorem foldl_position (h : s.length = cs.length) (acc : Nat) :
    (s.zip cs).foldl (fun acc (n, c) => acc * n + (if n = 1 then 0 else c)) acc =
      acc * count s + position s cs := by
  induction s generalizing cs acc with
  | nil => simp [position]
  | cons n s ih =>
    cases cs with
    | nil => simp at h
    | cons c cs =>
      have hacc := ih (Nat.succ.inj h)
      have hzero := hacc (0 * n + if n = 1 then 0 else c)
      rw [count_cons, position, List.zip_cons_cons, List.foldl_cons, List.foldl_cons, hacc, hzero]
      ring

theorem position_cons (n c : Nat) (h : s.length = cs.length) :
    position (n :: s) (c :: cs) = (if n = 1 then 0 else c) * count s + position s cs := by
  rw [← foldl_position h]
  simp [position]

theorem position_cons_of_lt {c : Nat} (hc : c < n) (h : s.length = cs.length) :
    position (n :: s) (c :: cs) = c * count s + position s cs := by
  have hfirst : (if n = 1 then 0 else c) = c := by split <;> omega
  rw [position_cons n c h, hfirst]

/-- Coordinates that lie in a shape, where an axis of length one takes any. -/
abbrev Within (cs s : List Nat) : Prop := List.Forall₂ (fun c n => n = 1 ∨ c < n) cs s

theorem place_lt {l : Nat} (hi : i < m) (hl : l < k) : i * k + l < m * k :=
  calc i * k + l < i * k + k := by omega
    _ = (i + 1) * k := by ring
    _ ≤ m * k := Nat.mul_le_mul_right k hi

theorem position_lt (h : Within cs s) : position s cs < count s := by
  induction h with
  | nil => simp
  | @cons c n cs s hc h ih =>
    rw [position_cons n c h.length_eq.symm, count_cons]
    exact place_lt (by split <;> omega) ih

theorem coordinates_lt (h : i < count s) :
    List.Forall₂ (· < ·) (coordinates s i) s := by
  induction s generalizing i with
  | nil => exact .nil
  | cons n s ih =>
    rw [count_cons] at h
    have hs : 0 < count s := Nat.pos_of_ne_zero fun h0 => by simp [h0] at h
    simp only [coordinates, hs.ne', if_false]
    exact .cons ((Nat.div_lt_iff_lt_mul hs).mpr h) (ih (Nat.mod_lt _ hs))

theorem coordinates_position (h : List.Forall₂ (· < ·) cs s) :
    coordinates s (position s cs) = cs := by
  induction h with
  | nil => rfl
  | @cons c n cs s hc h ih =>
    have hlt := position_lt (h.imp fun _ _ => .inr)
    have hs : 0 < count s := by omega
    rw [position_cons_of_lt hc h.length_eq.symm]
    simp only [coordinates, hs.ne', if_false]
    rw [Nat.mul_comm c, Nat.mul_add_div hs, Nat.mul_add_mod, Nat.mod_eq_of_lt hlt,
      Nat.div_eq_of_lt hlt, ih, Nat.add_zero]

theorem position_coordinates (h : i < count s) :
    position s (coordinates s i) = i := by
  induction s generalizing i with
  | nil => simp [coordinates, Nat.lt_one_iff.mp h]
  | cons n s ih =>
    rw [count_cons] at h
    have hs : 0 < count s := Nat.pos_of_ne_zero fun h0 => by simp [h0] at h
    have hmod := Nat.mod_lt i hs
    simp only [coordinates, hs.ne', if_false]
    rw [position_cons_of_lt ((Nat.div_lt_iff_lt_mul hs).mpr h) (coordinates_lt hmod).length_eq.symm,
      ih hmod, Nat.div_add_mod']

/-! ## Entries -/

def entries (n : Nat) (f : Nat → Int) : List Value := (List.range n).map fun i => .int (f i)

/-- The array of 64-bit whole numbers with given entries in row-major order. -/
def ints (shape : List Nat) (f : Nat → Int) : Value :=
  .array (.int 64) shape (entries (count shape) f)

/-- The first entries are in the range of their type. -/
def Fits (n : Nat) (f : Nat → Int) : Prop := ∀ i < n, (int 64).holds (f i)

instance (n : Nat) (f : Nat → Int) : Decidable (Fits n f) :=
  inferInstanceAs (Decidable (∀ i < n, (int 64).holds (f i)))

/-- The sum of the products of the entries of two arrays of a shape. -/
def inner (shape : List Nat) (f g : Nat → Int) : Int := ∑ i ∈ range (count shape), f i * g i

theorem inner_add (s : List Nat) (f g h : Nat → Int) :
    inner s f (fun i => g i + h i) = inner s f g + inner s f h := by
  simp only [inner, mul_add, sum_add_distrib]

theorem inner_comm (s : List Nat) (f g : Nat → Int) : inner s f g = inner s g f :=
  sum_congr rfl fun _ _ => mul_comm _ _

theorem entries_congr (h : ∀ i < n, f i = g i) :
    entries n f = entries n g :=
  List.map_congr_left fun i hi => congrArg Value.int (h i (List.mem_range.mp hi))

theorem getD_entries (f : Nat → Int) (h : i < n) :
    (entries n f).toArray.getD i .none = .int (f i) := by
  simp [entries, h]

theorem mapM_ok {α β : Type} {f : α → Fallible β} {g : α → β} {xs : List α}
    (h : ∀ x ∈ xs, f x = .ok (g x)) : xs.mapM f = .ok (xs.map g) := by
  induction xs with
  | nil => rfl
  | cons x xs ih =>
    rw [List.mapM_cons, h x List.mem_cons_self, ih fun y hy => h y (List.mem_cons_of_mem x hy)]
    rfl

theorem mapM_range {f : Nat → Fallible Value}
    (h : ∀ i < n, f i = .ok (.int (g i))) : (List.range n).mapM f = .ok (entries n g) :=
  mapM_ok fun i hi => h i (List.mem_range.mp hi)

theorem mapM_cast (h : Fits n f) :
    (entries n f).mapM (cast (.int 64)) = .ok (entries n f) := by
  rw [entries, List.mapM_map]
  refine mapM_range fun i hi => ?_
  simp [cast, toInt?, h i hi]

/-! ## Sums -/

/-- What a whole number becomes in an array. -/
abbrev wrap (n : Int) : Int := (int 64).wrap n

theorem wrap_add_wrap (a b : Int) : wrap (wrap a + wrap b) = wrap (a + b) := by
  simp [wrap, ElementType.wrap]

theorem wrap_eq {n : Int} (h : (int 64).holds n) : wrap n = n := by
  simp only [holds, Bool.and_eq_true, decide_eq_true_eq] at h
  exact Int.bmod_eq_of_le (by simpa using h.1) (by simpa using h.2)

theorem foldlM_add (xs : List Int) (a : Int) :
    (xs.map fun n => Value.int (wrap n)).foldlM (onElements .add (.int 64)) (.int (wrap a)) =
      .ok (.int (wrap (a + xs.sum))) := by
  induction xs generalizing a with
  | nil => rw [List.sum_nil, add_zero]; rfl
  | cons n xs ih =>
    have hstep : onElements .add (.int 64) (.int (wrap a)) (.int (wrap n)) =
        .ok (.int (wrap (a + n))) := by rw [← wrap_add_wrap]; rfl
    rw [List.map_cons, List.foldlM_cons, hstep, List.sum_cons, ← add_assoc]
    exact ih (a + n)

/-- The sum of the entries of an array at some positions wraps around only once. -/
theorem sumRow_entries (hf : Fits n f) (p : Nat → Prop) [DecidablePred p] :
    sumRow (.int 64) (((List.range n).filter fun i => p i).map fun i => .int (f i)) =
      .ok (.int (wrap (∑ i ∈ range n with p i, f i))) := by
  have hwrap : ((List.range n).filter fun i => p i).map (fun i => Value.int (f i)) =
      (((List.range n).filter fun i => p i).map f).map fun n => .int (wrap n) := by
    rw [List.map_map]
    refine List.map_congr_left fun i hi => ?_
    simp only [Function.comp, wrap_eq (hf i (List.mem_range.mp (List.mem_of_mem_filter hi)))]
  have hsum : ∑ i ∈ range n with p i, f i = (((List.range n).filter fun i => p i).map f).sum := rfl
  rw [hwrap, hsum]
  cases ((List.range n).filter fun i => p i).map f with
  | nil => rfl
  | cons a xs => exact foldlM_add xs a

theorem total_ints (hf : Fits (count s) f) (h : (int 64).holds (∑ i ∈ range (count s), f i)) :
    total (ints s f) = .ok (.scalar (.int 64) (.int (∑ i ∈ range (count s), f i))) := by
  have hrow := sumRow_entries hf fun _ => True
  simp only [decide_true, List.filter_true, filter_true, wrap_eq h] at hrow
  rw [← entries] at hrow
  simp [total, ints, sum, ofValue, sumType, mapM_cast hf, hrow, single,
    pure, Except.pure, bind, Except.bind]

theorem joinShapes_pair (s t : List Nat) :
    joinShapes [s, t] = match joinShape s t with
      | some u => .ok u
      | none => .error .badValue := by
  simp only [joinShapes, List.foldlM_cons, List.foldlM_nil, joinShape, List.reverse_nil, joinReversed,
    Option.map_some, List.reverse_reverse, Option.bind_eq_bind, Option.bind_some]
  cases joinReversed s.reverse t.reverse <;> rfl

theorem joinReversed_nil (s : List Nat) : joinReversed s [] = some s := by
  cases s <;> rfl

theorem spreadOut_ints {d : Int} {v : Value} (hd : ofValue v = .ok ⟨.int 64, [], [.int d]⟩) :
    spreadOut (.tuple [ints s f, v]) = .ok (.tuple [ints s f, ints s fun _ => d]) := by
  have hjoin : joinShapes [s, []] = .ok s := by
    simp [joinShapes_pair, joinShape, joinReversed_nil]
  have hints : ofValue (ints s f) = .ok ⟨.int 64, s, entries (count s) f⟩ := rfl
  have hself : spread s ⟨.int 64, s, entries (count s) f⟩ = entries (count s) f := if_pos rfl
  have hrest : spread s ⟨.int 64, [], [.int d]⟩ = entries (count s) fun _ => d := by
    unfold spread
    split
    next h => obtain rfl : [] = s := h; rfl
    · rfl
  simp only [spreadOut, Value.walk, broadcast, List.mapM_cons, List.mapM_nil, hints, hd,
    List.map_cons, List.map_nil, hjoin, hself, hrest, pure, Except.pure, bind, Except.bind]
  rfl

/-! ## Products -/

/-- The entries of the product of a matrix with rows of length `k` and one with rows of length
`n`. -/
def matmul (k n : Nat) (f g : Nat → Int) (c : Nat) : Int :=
  ∑ l ∈ range k, f (c / n * k + l) * g (l * n + c % n)

theorem multiply_entries (h : Fits (m * n) (matmul k n f g)) :
    multiply (.int 64) m k n (entries (m * k) f) (entries (k * n) g) =
      .ok (entries (m * n) (matmul k n f g)) := by
  refine mapM_range fun c hc => ?_
  have hn : 0 < n := Nat.pos_of_ne_zero fun h0 => by simp [h0] at hc
  have hrow : c / n < m := (Nat.div_lt_iff_lt_mul hn).mpr hc
  let term (l : Nat) : Int := f (c / n * k + l) * g (l * n + c % n)
  have hterms : ((List.range k).mapM fun l => onElements .mul (.int 64)
        ((entries (m * k) f).toArray.getD (c / n * k + l) .none)
        ((entries (k * n) g).toArray.getD (l * n + c % n) .none)) =
      .ok (entries k fun l => wrap (term l)) := by
    refine mapM_range fun l hl => ?_
    rw [getD_entries f (place_lt hrow hl), getD_entries g (place_lt hl (Nat.mod_lt c hn))]
    rfl
  have hsum : matmul k n f g c = ((List.range k).map term).sum := rfl
  have hmap : entries k (fun l => wrap (term l)) =
      ((List.range k).map term).map fun n => .int (wrap n) := by simp [entries]
  simp only [hn.ne', if_false]
  rw [hterms, ← wrap_eq (h c hc), hsum, hmap]
  cases (List.range k).map term with
  | nil => rfl
  | cons t ts => exact foldlM_add ts t

theorem product_ints (h : Fits (m * n) (matmul k n f g)) :
    product (ints [m, k] f) (ints [k, n] g) = .ok (ints [m, n] (matmul k n f g)) := by
  simp [product, ints, Value.isTyped, Value.meetsArray, matrixProduct, operand, ofValue,
    meetingType, join, Operand.into, multiply_entries h, pure, Except.pure, bind,
    Except.bind]

/-- Where an entry of a transpose is found. -/
def mirror (s : List Nat) (i : Nat) : Nat := position s (coordinates s.reverse i).reverse

theorem mirror_within (h : i < count s) :
    List.Forall₂ (· < ·) (coordinates s.reverse i).reverse s := by
  have hr := coordinates_lt (s := s.reverse) (by rwa [count_reverse])
  simpa using List.rel_reverse hr

theorem mirror_lt (h : i < count s) : mirror s i < count s :=
  position_lt ((mirror_within h).imp fun _ _ => .inr)

theorem mirror_mirror (h : i < count s) :
    mirror s (mirror s.reverse i) = i := by
  have hw := mirror_within (s := s.reverse) (by rwa [count_reverse])
  rw [mirror, mirror, coordinates_position hw, List.reverse_reverse, List.reverse_reverse,
    position_coordinates h]

theorem transposed_ints (s : List Nat) (f : Nat → Int) :
    transposed (ints s f) = .ok (ints s.reverse fun i => f (mirror s i)) := by
  simp only [transposed, ints, transpose, count_reverse]
  congr 2
  exact List.map_congr_left fun i hi => getD_entries f (mirror_lt (List.mem_range.mp hi))

theorem inner_mirror (s : List Nat) (f g : Nat → Int) :
    inner s (fun i => g (mirror s.reverse i)) f = inner s.reverse g fun i => f (mirror s i) := by
  have hback {i : Nat} (h : i < count s) : mirror s.reverse (mirror s i) = i := by
    have := mirror_mirror (s := s.reverse) (i := i) (by rwa [count_reverse])
    rwa [List.reverse_reverse] at this
  refine sum_nbij' (mirror s.reverse) (mirror s) ?_ ?_ ?_ ?_ ?_ <;>
    simp only [Finset.mem_range, count_reverse]
  · exact fun i h => count_reverse s ▸ mirror_lt (by rwa [count_reverse])
  · exact fun i => mirror_lt
  · exact fun i => mirror_mirror
  · exact fun i => hback
  · exact fun i h => by rw [mirror_mirror h]

theorem position_pair {a b : Nat} (ha : a < m) (hb : b < n) :
    position [m, n] [a, b] = a * n + b := by
  have hrow : position [m, n] [a, b] = a * count [n] + position [n] [b] :=
    position_cons_of_lt ha rfl
  have hentry : position [n] [b] = b * count [] + position [] [] := position_cons_of_lt hb rfl
  simp [hrow, hentry]

theorem mirror_place {q r l b : Nat} (hl : l < r) (hb : b < q) :
    mirror [q, r] (l * q + b) = b * r + l := by
  have hc : coordinates [r, q] (position [r, q] [l, b]) = [l, b] :=
    coordinates_position (.cons hl (.cons hb .nil))
  rw [position_pair hl hb] at hc
  simp only [mirror, List.reverse_cons, List.reverse_nil, List.nil_append, List.cons_append, hc]
  exact position_pair hb hl

theorem sum_place (m n : Nat) (f : Nat → Int) :
    ∑ i ∈ range (m * n), f i = ∑ a ∈ range m, ∑ b ∈ range n, f (a * n + b) := by
  induction m with
  | zero => simp
  | succ m ih => rw [Nat.succ_mul, sum_range_add, ih, sum_range_succ]

theorem inner_matmul (m k n : Nat) (f g h : Nat → Int) :
    inner [m, n] (matmul k n f g) h = ∑ a ∈ range m, ∑ b ∈ range n, ∑ l ∈ range k,
      f (a * k + l) * g (l * n + b) * h (a * n + b) := by
  have hcount : count [m, n] = m * n := by simp
  rw [inner, hcount, sum_place m n fun i => matmul k n f g i * h i]
  refine sum_congr rfl fun a _ => sum_congr rfl fun b hb => ?_
  have hb : b < n := Finset.mem_range.mp hb
  have hn : 0 < n := by omega
  rw [matmul, Nat.mul_comm a, Nat.mul_add_div hn, Nat.mul_add_mod, Nat.mod_eq_of_lt hb,
    Nat.div_eq_of_lt hb, Nat.add_zero, sum_mul]

theorem inner_left (p q r : Nat) (y dx dz : Nat → Int) :
    inner [p, q] (matmul r q dz fun i => y (mirror [q, r] i)) dx =
      inner [p, r] dz (matmul q r dx y) := by
  rw [inner_comm [p, r], inner_matmul, inner_matmul]
  refine sum_congr rfl fun a _ => ?_
  rw [sum_comm]
  refine sum_congr rfl fun c hc => sum_congr rfl fun b hb => ?_
  rw [mirror_place (Finset.mem_range.mp hc) (Finset.mem_range.mp hb)]
  ring

theorem inner_right (p q r : Nat) (x dy dz : Nat → Int) :
    inner [q, r] (matmul p r (fun i => x (mirror [p, q] i)) dz) dy =
      inner [p, r] dz (matmul q r x dy) := by
  rw [inner_comm [p, r], inner_matmul, inner_matmul, sum_comm]
  rw [sum_congr rfl fun _ _ => sum_comm, sum_comm]
  refine sum_congr rfl fun a ha => sum_congr rfl fun c _ =>
    sum_congr rfl fun b hb => ?_
  rw [mirror_place (Finset.mem_range.mp hb) (Finset.mem_range.mp ha)]
  ring

/-! ## Fitting -/

/-- Axes that can be fitted to each other. -/
def Meets (m n : Nat) : Prop := m = n ∨ m = 1 ∨ n = 1

/-- What is left of an axis when those that have to shrink to length one are summed. -/
def keptAxis (m n : Nat) : Nat := if n = 1 && m != 1 then 1 else m

theorem keptAxis_comm (h : Meets m n) : keptAxis m n = keptAxis n m := by
  grind [keptAxis, Meets]

theorem joinAxis_kept {c : Nat} : joinAxis (keptAxis m n) n = some c ↔ Meets m n ∧ c = n := by
  grind [joinAxis, keptAxis, Meets]

abbrev keptAxes (s t : List Nat) : List Nat := List.zipWith keptAxis s t

theorem zip_keptAxes (s t : List Nat) :
    (s.zip ((s.zip t).map fun (m, n) => n = 1 && m != 1)).map (fun (n, c) => if c then 1 else n) =
      keptAxes s t := by
  induction s generalizing t with
  | nil => rfl
  | cons m s ih => cases t <;> simp_all [keptAxis]

theorem keptAxes_comm (h : List.Forall₂ Meets s t) :
    keptAxes s t = keptAxes t s := by
  induction h with
  | nil => rfl
  | cons hm _ ih => exact congrArg₂ List.cons (keptAxis_comm hm) ih

theorem joinReversed_keptAxes {u : List Nat} (h : s.length = t.length) :
    joinReversed (keptAxes s t) t = some u ↔ List.Forall₂ Meets s t ∧ u = t := by
  induction s generalizing t u with
  | nil => cases t <;> simp_all [joinReversed, eq_comm]
  | cons m s ih =>
    cases t with
    | nil => simp at h
    | cons n t =>
      simp only [keptAxes, List.zipWith_cons_cons, joinReversed, Option.bind_eq_bind,
        Option.bind_eq_some_iff, joinAxis_kept, ih (Nat.succ.inj h), List.forall₂_cons,
        Option.pure_def, Option.some.injEq]
      grind

theorem joinShapes_keptAxes {u : List Nat} (h : s.length = t.length) :
    joinShapes [keptAxes s t, t] = .ok u ↔ List.Forall₂ Meets s t ∧ u = t := by
  have hjoin := joinReversed_keptAxes (s := s.reverse) (t := t.reverse) (u := u.reverse) (by simpa)
  rw [List.forall₂_reverse_iff, keptAxes, ← List.reverse_zipWith h, List.reverse_inj] at hjoin
  rw [joinShapes_pair, ← hjoin, joinShape]
  cases joinReversed (keptAxes s t).reverse t.reverse with
  | none => simp
  | some v => simp [List.reverse_eq_iff]

theorem within_keptAxes (h : List.Forall₂ Meets s t)
    (hcs : List.Forall₂ (· < ·) cs t) : Within cs (keptAxes s t) := by
  induction h generalizing cs with
  | nil => cases hcs; exact .nil
  | @cons m n s t hm _ ih =>
    cases hcs with
    | cons hc hcs =>
      refine .cons ?_ (ih hcs)
      grind [Meets, keptAxis]

theorem spread_entries {k : List Nat} (f : Nat → Int) (hlen : k.length = t.length)
    (h : ∀ i < count t, Within (coordinates t i) k) :
    spread t ⟨.int 64, k, entries (count k) f⟩ =
      entries (count t) fun i => f (position k (coordinates t i)) := by
  unfold spread
  split
  next heq =>
    obtain rfl : k = t := heq
    exact entries_congr fun i hi => by rw [position_coordinates hi]
  · refine List.map_congr_left fun i hi => ?_
    simp only [hlen, Nat.sub_self, List.drop_zero]
    exact getD_entries f (position_lt (h i (List.mem_range.mp hi)))

/-- The sums of the entries that fall together where only the axes of `k` are kept. -/
def gathered (s k : List Nat) (f : Nat → Int) (p : Nat) : Int :=
  ∑ j ∈ range (count s) with position k (coordinates s j) = p, f j

theorem sumAxes_entries {k : List Nat} {axes : List Bool} (h : Fits (count s) f)
    (hk : (s.zip axes).map (fun (n, c) => if c then 1 else n) = k) :
    sumAxes ⟨.int 64, s, entries (count s) f⟩ axes =
      .ok ⟨.int 64, k, entries (count k) fun p => wrap (gathered s k f p)⟩ := by
  have hrow (p : Nat) : sumRow (.int 64)
      ((((List.range (count s)).map fun j => (position k (coordinates s j), Value.int (f j))).filter
        fun e => e.1 = p).map (·.2)) = .ok (.int (wrap (gathered s k f p))) := by
    rw [List.filter_map, List.map_map]
    exact sumRow_entries h fun j => position k (coordinates s j) = p
  have hsums := mapM_range (n := count k) fun p _ => hrow p
  simp only [sumAxes, sumType, hk, Nat.max_self, mapM_cast h]
  simp [entries, List.zip_map', hsums, bind, Except.bind, pure, Except.pure]

/-- A shape with axes of length one in front, up to the rank of another. -/
def padded (s t : List Nat) : List Nat := List.replicate (t.length - s.length) 1 ++ s

theorem count_padded (s t : List Nat) : count (padded s t) = count s := by
  simp [padded, count, ← List.prod_eq_foldl]

theorem length_padded (s t : List Nat) : (padded s t).length = (padded t s).length := by
  simp only [padded, List.length_append, List.length_replicate]
  omega

/-- The shape between summing and repeating when an array of shape `s` is fitted to `t`. -/
def kept (s t : List Nat) : List Nat := keptAxes (padded s t) (padded t s)

def fitted (s t : List Nat) (f : Nat → Int) (i : Nat) : Int :=
  gathered (padded s t) (kept s t) f (position (kept s t) (coordinates (padded t s) i))

/-- A shape that arrays of shape `s` can be fitted to. -/
structure Target (s : List Nat) (shape : Value) (t : List Nat) : Prop where
  reads : shapeOf shape = .ok t
  opens : (isListed shape && decide (t.length < s.length)) = false
  meets : List.Forall₂ Meets (padded s t) (padded t s)

theorem fit_bind (hf : Fits (count s) f)
    (ht : shapeOf shape = .ok t) (hl : (isListed shape && decide (t.length < s.length)) = false) :
    fit (ints s f) shape = (do
      let full ← joinShapes [kept s t, padded t s]
      if count full ≠ count t then throw .badValue
      pure (.array (.int 64) t (spread full ⟨.int 64, kept s t,
        entries (count (kept s t)) fun p => wrap (gathered (padded s t) (kept s t) f p)⟩))) := by
  have hsum := sumAxes_entries (s := padded s t) (by rwa [count_padded])
    (zip_keptAxes (padded s t) (padded t s))
  rw [count_padded] at hsum
  simp only [fit, ints, ht, hl, bind, Except.bind, pure, Except.pure, Bool.false_eq_true, if_false]
  rw [← padded, ← padded, hsum]
  rfl

theorem target_of_fit {r : Value} (hf : Fits (count s) f)
    (h : fit (ints s f) shape = .ok r) : ∃ t, Target s shape t := by
  cases ht : shapeOf shape with
  | error e => simp [fit, ints, ht, bind, Except.bind, pure, Except.pure] at h
  | ok t =>
    cases hl : isListed shape && decide (t.length < s.length) with
    | true => simp [fit, ints, ht, hl, bind, Except.bind, pure, Except.pure, throw, throwThe,
        MonadExceptOf.throw] at h
    | false =>
      rw [fit_bind hf ht hl] at h
      cases hj : joinShapes [kept s t, padded t s] with
      | error e => rw [hj] at h; simp [bind, Except.bind] at h
      | ok full => exact ⟨t, ht, hl, ((joinShapes_keptAxes (length_padded s t)).mp hj).1⟩

theorem fit_ints (hf : Fits (count s) f)
    (ht : Target s shape t) (h : Fits (count t) (fitted s t f)) :
    fit (ints s f) shape = .ok (ints t (fitted s t f)) := by
  have hlen : (kept s t).length = (padded t s).length := by
    simp [kept, length_padded s t]
  have hjoin : joinShapes [kept s t, padded t s] = .ok (padded t s) :=
    (joinShapes_keptAxes (length_padded s t)).mpr ⟨ht.meets, rfl⟩
  have hdata : entries (count t) (fun i => wrap (fitted s t f i)) = entries (count t) (fitted s t f) :=
    entries_congr fun i hi => wrap_eq (h i hi)
  rw [fit_bind hf ht.reads ht.opens, hjoin]
  simp only [bind, Except.bind]
  rw [spread_entries _ hlen fun i hi => within_keptAxes ht.meets (coordinates_lt hi), count_padded]
  simp only [ne_eq, not_true_eq_false, if_false, ints, ← hdata, fitted]
  rfl

/-- Fitting back sums what was repeated and repeats what was summed. -/
theorem inner_fitted (f g : Nat → Int) (h : List.Forall₂ Meets (padded s t) (padded t s)) :
    inner s (fitted t s g) f = inner t g (fitted s t f) := by
  have hkept : kept t s = kept s t := (keptAxes_comm h).symm
  simp only [inner, fitted, gathered, count_padded, sum_filter, sum_mul, mul_sum,
    hkept]
  rw [sum_comm]
  refine sum_congr rfl fun i _ => sum_congr rfl fun j _ => ?_
  simp only [eq_comm, ite_mul, mul_ite, zero_mul, mul_zero]

theorem target_shape (h : Target s shape t) :
    ∃ v, Primitive.shapeOf (ints s f) = .ok v ∧ Target t v s := by
  refine ⟨_, rfl, ?_, rfl, h.meets.flip.imp fun m n hm => by grind [Meets]⟩
  rw [shapeOf, List.mapM_map, mapM_ok (g := id) fun n _ => ?_, List.map_id]
  simp [Value.index?, Value.nat]

end DiffLang.Tensor
