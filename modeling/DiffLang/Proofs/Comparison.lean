import DiffLang.Validation
import DiffLang.Proofs.Returns
import DiffLang.Proofs.Value.Whole
import Mathlib.Order.Compare

/-!
# Comparing results

Two results are compared by a map over their structure that fails at leaves that differ. Of values
of one structure this decides whether all leaves are equal. On values of different structure it may
fail, but it never takes them for the same, unless an array meets something else than an array of its
shape: then the elements of one are repeated to match the other.
-/

namespace DiffLang.Validation

open Run StructuralMap Tensor List

/-- A key that a record finds among its fields, and not among what it answers for itself. -/
def isName : Value → Bool
  | .str s => s ∉ ["__tag__", "__class__", "__dict__", "__weakref__", "__map__"]
  | _ => false

/-- Values made of tuples, lists and records around whole numbers and arrays of whole numbers. -/
inductive Nested : Value → Prop
  | int (n : Int) : Nested (.int n)
  | array (s : List Nat) (f : Nat → Int) : Nested (ints s f)
  | tuple {xs : List Value} (h : ∀ x ∈ xs, Nested x) : Nested (.tuple xs)
  | list {xs : List Value} (h : ∀ x ∈ xs, Nested x) : Nested (.list xs)
  | record {tag : String} {fs : List (Value × Value)} (names : ∀ f ∈ fs, isName f.1 = true)
      (h : ∀ f ∈ fs, Nested f.2) : Nested (.record tag fs)

/-- What can be said about two values: of one structure, whether their leaves are equal. -/
inductive Verdict where
  | leaves (equal : Bool)
  | apart
  /-- An array meets something else than an array of its shape, or is empty. -/
  | unclear
deriving DecidableEq

def Verdict.and : Verdict → Verdict → Verdict
  | .leaves a, .leaves b => .leaves (a && b)
  | .apart, _ | _, .apart => .apart
  | _, _ => .unclear

mutual

def verdict : Value → Value → Verdict
  | .int m, .int n => .leaves (m == n)
  | .tuple xs, .tuple ys | .list xs, .list ys => verdicts xs ys
  | .array _ s xs, .array _ t ys => if s = t ∧ xs ≠ [] then verdicts xs ys else .unclear
  | .record t fs, .record u gs =>
    if sameFields (.record t fs) (.record u gs) then fieldVerdicts gs fs else .apart
  | .array .., _ | .int _, .array .. => .unclear
  | _, _ => .apart

def verdicts : List Value → List Value → Verdict
  | [], [] => .leaves true
  | x :: xs, y :: ys => (verdict x y).and (verdicts xs ys)
  | _, _ => .apart

def fieldVerdicts (gs : List (Value × Value)) : List (Value × Value) → Verdict
  | [] => .leaves true
  | (.str name, x) :: fs =>
    match textField? name gs with
    | some y => (verdict x y).and (fieldVerdicts gs fs)
    | none => .apart
  | _ => .apart

end

/-- The verdict on the neighbours in a list of values. -/
def jointVerdict : List Value → Verdict
  | a :: b :: rest => (verdict a b).and (jointVerdict (b :: rest))
  | _ => .leaves true

/-- An answer that a verdict settles, and that is positive only if the verdict allows it. -/
structure Decides (r : Fallible Bool) (p : Verdict) : Prop where
  known : ∀ b, p = .leaves b → r = .ok b
  sound : r = .ok true → p = .leaves true ∨ p = .unclear

def Judged {α : Type} (r : Fallible α) (p : Verdict) : Prop := Decides (settled r) p

variable {α β : Type} {r : Fallible α} {p q : Verdict} {a b c : Value} {xs ys vs : List Value}
  {fs gs : List (Value × Value)} {leaf : List Value → Fallible Value} {tag : String}

theorem decides_leaves (x : Bool) : Decides (.ok x) (.leaves x) :=
  ⟨fun _ h => by cases h; rfl, by simp⟩

theorem Verdict.and_eq_leaves {b : Bool} :
    p.and q = .leaves b ↔ ∃ x y, p = .leaves x ∧ q = .leaves y ∧ (x && y) = b := by
  cases p <;> cases q <;> simp [Verdict.and]

theorem Verdict.and_eq_true : p.and q = .leaves true ↔ p = .leaves true ∧ q = .leaves true := by
  simp [Verdict.and_eq_leaves]

theorem Decides.and {r rest : Fallible Bool} (hr : Decides r p) (hrest : r = .ok true → Decides rest q) :
    Decides (do if ← r then rest else pure false) (p.and q) := by
  constructor
  · intro b hb
    obtain ⟨x, y, rfl, rfl, rfl⟩ := Verdict.and_eq_leaves.mp hb
    obtain rfl := hr.known x rfl
    cases x with
    | false => rfl
    | true => exact (hrest rfl).known y rfl
  · intro h
    cases r with
    | error e => cases h
    | ok x =>
      cases x with
      | false => cases h
      | true =>
        rcases hr.sound rfl with rfl | rfl <;> rcases (hrest rfl).sound h with rfl | rfl <;> decide

theorem settled_error_ne (e : Failure) : settled (.error e : Fallible α) ≠ .ok true := by
  rw [settled]
  split <;> simp

theorem judged_error (e : Failure) : Judged (.error e : Fallible α) .apart :=
  ⟨by simp, fun h => absurd h (settled_error_ne e)⟩

theorem judged_unclear (r : Fallible α) : Judged r .unclear := ⟨by simp, fun _ => .inr rfl⟩

theorem Judged.bind {f : α → Fallible β} (hr : Judged r p) (hf : ∀ a, r = .ok a → Judged (f a) q) :
    Judged (r >>= f) (p.and q) := by
  cases r with
  | ok a => exact hr.and fun _ => hf a rfl
  | error e =>
    have he : settled (.error e : Fallible β) =
        (do if ← settled (.error e : Fallible α) then .ok false else pure false) := by
      rw [settled, settled]
      split <;> rfl
    show Decides (settled (.error e)) _
    rw [he]
    exact hr.and fun h => absurd h (settled_error_ne e)

/-- A step of a comparison that gives no verdict of its own. -/
theorem Judged.ending {f : α → Fallible β} (h : Judged r p) (hf : ∀ a, ∃ b, f a = .ok b) :
    Judged (r >>= f) p := by
  have := h.bind (f := f) (q := .leaves true) fun a _ => by
    obtain ⟨b, hb⟩ := hf a
    rw [hb]
    exact decides_leaves true
  rcases p with (_ | _) | _ | _ <;> exact this

theorem Judged.map {f : α → β} (h : Judged r p) : Judged (r >>= fun a => pure (f a)) p :=
  h.ending fun a => ⟨f a, rfl⟩

theorem Judged.require {first : Value} {test : Value → Bool} {c : Unit → Fallible α}
    (h : test b = true → Judged (c ()) p) (hnot : test b = false → p = .apart) :
    Judged (Fallible.raise (requireAll first test [b]) >>= c) p := by
  cases htest : test b with
  | true =>
    rw [show requireAll first test [b] = .ok () by simp [requireAll, htest]]
    exact h htest
  | false =>
    rw [hnot htest, show requireAll first test [b] = .error (nonconformant first b) by
      simp [requireAll, htest]]
    exact judged_error _

/-- The map compares a value as its verdict says, with every other one. -/
def Compares (leaf : List Value → Fallible Value) (x : Value) : Prop :=
  ∀ y, Nested y → Judged (map leaf none x [y]) (verdict x y)

theorem judged_mapItems (hx : ∀ x ∈ xs, Compares leaf x) (hy : ∀ y ∈ ys, Nested y)
    (hlen : ys.length = xs.length) : Judged (mapItems leaf none xs [ys]) (verdicts xs ys) := by
  induction xs generalizing ys with
  | nil =>
    obtain rfl := length_eq_zero_iff.mp hlen
    rw [mapItems, verdicts]
    exact decides_leaves true
  | cons x xs ih =>
    obtain ⟨y, ys, rfl⟩ := exists_cons_of_length_eq_add_one hlen
    rw [forall_mem_cons] at hx hy
    rw [mapItems, verdicts]
    exact (hx.1 y hy.1).bind fun _ _ => (ih hx.2 hy.2 (by simpa using hlen)).map

theorem verdicts_of_length_ne (h : ys.length ≠ xs.length) : verdicts xs ys = .apart := by
  induction xs generalizing ys with
  | nil =>
    cases ys with
    | nil => simp at h
    | cons y ys => rfl
  | cons x xs ih =>
    cases ys with
    | nil => rfl
    | cons y ys =>
      rw [verdicts, ih (by simpa using h)]
      cases verdict x y <;> rfl

theorem ownPart_of_isName {s : String} (h : isName (.str s) = true) : ownPart tag gs s = none := by
  unfold ownPart
  split
  case h_5 => rfl
  all_goals simp [isName] at h

theorem mem_of_textField? {s : String} {y : Value} (h : textField? s gs = some y) :
    (.str s, y) ∈ gs := by
  obtain ⟨⟨k, v⟩, hmem, hv⟩ := exists_of_findSome?_eq_some h
  split at hv
  next v' he =>
    split at hv
    next hs =>
      cases hv
      cases he
      exact hs ▸ hmem
    · cases hv
  · cases hv

theorem judged_mapFields (hf : ∀ f ∈ fs, isName f.1 = true ∧ Compares leaf f.2)
    (hg : ∀ g ∈ gs, Nested g.2) :
    Judged (mapFields leaf none fs [.record tag gs]) (fieldVerdicts gs fs) := by
  induction fs with
  | nil =>
    rw [mapFields, fieldVerdicts]
    exact decides_leaves true
  | cons f fs ih =>
    obtain ⟨k, x⟩ := f
    obtain ⟨⟨hk, hx⟩, hrest⟩ := forall_mem_cons.mp hf
    cases k with
    | str s =>
      have hfield : fieldOf (.str s) (.record tag gs) = named tag gs s := rfl
      rw [named, ownPart_of_isName hk] at hfield
      rw [mapFields, fieldVerdicts, mapM_cons, mapM_nil, hfield]
      cases hy : textField? s gs with
      | none => exact judged_error _
      | some y => exact (hx y (hg _ (mem_of_textField? hy))).bind fun _ _ => (ih hrest).map
    | _ => cases hk

theorem compareEq_int (n : Int) (hb : b.isTyped = false) : Value.compareEq (.int n) b =
    .ok (.bool (Number.isPlain b && Number.equal (.int n) b)) := by
  have hn : (Value.int n).isTyped = false := rfl
  have hsame : Value.same (.int n) b = .ok (Number.isPlain b && Number.equal (.int n) b) := by
    rw [Value.same]
    · simp [Value.identity?, Value.decidesEquality, Value.sameNumber, hn, hb, Number.isPlain]
    all_goals simp
  unfold Value.compareEq
  simp [Value.decidesEquality, hn, hb, hsame]

theorem judged_ints (m n : Int) : Judged (requireEqual [.int m, .int n]) (verdict (.int m) (.int n)) := by
  rw [requireEqual, compareEq_int m rfl, verdict, show Number.equal _ _ = (m == n) by
    simp [Number.equal, Number.compare?, Number.whole?]]
  cases m == n <;> exact decides_leaves _

theorem compares_int (n : Int) : Compares requireEqual (.int n) := by
  intro y hy
  show Judged (requireEqual [.int n, y]) _
  cases hy with
  | int m => exact judged_ints n m
  | array => exact judged_unclear _
  | _ =>
    rw [requireEqual, compareEq_int n rfl, show verdict (.int n) _ = .apart by simp [verdict]]
    exact judged_error _

/-! ## Arrays -/

theorem joinShapes_self (s : List Nat) : joinShapes [s, s] = .ok s := by
  have hself : ∀ s, joinReversed s s = some s := by
    intro s
    induction s with
    | nil => rfl
    | cons n s ih => simp [joinReversed, joinAxis, ih]
  rw [joinShapes_pair, joinShape, hself]
  simp

theorem judged_scalars (m n : Int) :
    Judged (requireEqual [.scalar (.int 64) (.int m), .scalar (.int 64) (.int n)])
      (verdict (.int m) (.int n)) := by
  have hnumber : Number.holds .eq (Number.compare? (.int m) (.int n)) = (m == n) := by
    show Number.holds .eq (some (compare m n)) = _
    cases h : compare m n with
    | lt => simp [Number.holds, (compare_lt_iff_lt.mp h).ne]
    | eq => simp [Number.holds, compare_eq_iff_eq.mp h]
    | gt => simp [Number.holds, (compare_gt_iff_gt.mp h).ne']
  have heq : Value.compareEq (.scalar (.int 64) (.int m)) (.scalar (.int 64) (.int n)) =
      .ok (.scalar .bool (.bool (m == n))) := by
    simp [Value.compareEq, Value.decidesEquality, Value.isTyped, compareElements, operand, ofValue,
      meetingType, Operand.into, ElementType.join, joinShapes_self, spread, Raw.toResult, single,
      hnumber, pure, Except.pure, bind, Except.bind]
  rw [requireEqual, heq, verdict]
  cases m == n <;> exact decides_leaves _

theorem judged_entries {u v : Nat → Value} {f g : Nat → Int} {is : List Nat}
    (h : ∀ i ∈ is, u i = .int (f i) ∧ v i = .int (g i)) :
    Judged (is.mapM fun i => requireEqual [u i, v i])
      (verdicts (is.map fun i => .int (f i)) (is.map fun i => .int (g i))) := by
  induction is with
  | nil => exact decides_leaves true
  | cons i is ih =>
    obtain ⟨⟨hu, hv⟩, hrest⟩ := forall_mem_cons.mp h
    rw [mapM_cons, map_cons, map_cons, verdicts, hu, hv]
    exact (judged_ints _ _).bind fun _ _ => (ih hrest).map

theorem requireEqual_eq_ok {v : Value} (h : requireEqual [a, b] = .ok v) : v = .none := by
  rw [requireEqual] at h
  cases hc : Value.compareEq a b with
  | error e =>
    rw [hc] at h
    cases h
  | ok c =>
    rw [hc] at h
    cases ht : c.truth with
    | error e => simp [bind, Except.bind, ht] at h
    | ok x =>
      cases x with
      | false => simp [bind, Except.bind, ht, throw, throwThe, MonadExceptOf.throw] at h
      | true => simpa [bind, Except.bind, ht, pure, Except.pure, eq_comm] using h

/-- Arrays of one shape are compared entry by entry, after a trial on the first ones. -/
theorem judged_elementwise {s : List Nat} {n : Nat} (hn : Tensor.count s = n + 1) (f g : Nat → Int) :
    Judged (elementwise requireEqual [ints s f, ints s g])
      (verdicts (entries (Tensor.count s) f) (entries (Tensor.count s) g)) := by
  have harrays : arrays [ints s f, ints s g] =
      .ok [⟨.int 64, s, entries (n + 1) f⟩, ⟨.int 64, s, entries (n + 1) g⟩] := by
    rw [← hn]
    rfl
  have hcons : ∀ f, ∃ rest, entries (n + 1) f = .int (f 0) :: rest := fun f => by
    rw [entries, range_succ_eq_map]
    exact ⟨_, rfl⟩
  have hhead : ∀ f, (entries (n + 1) f).isEmpty = false ∧
      (entries (n + 1) f).headD .none = .int (f 0) := fun f => by
    obtain ⟨rest, h⟩ := hcons f
    rw [h]
    exact ⟨rfl, rfl⟩
  have htwice : verdicts (entries (n + 1) f) (entries (n + 1) g) = (verdict (.int (f 0)) (.int (g 0))).and
      (verdicts (entries (n + 1) f) (entries (n + 1) g)) := by
    obtain ⟨xs, hf⟩ := hcons f
    obtain ⟨ys, hg⟩ := hcons g
    rw [hf, hg, verdicts]
    cases verdict (.int (f 0)) (.int (g 0)) <;> cases verdicts xs ys <;> simp [Verdict.and]
  rw [hn, htwice]
  unfold elementwise
  simp only [harrays, Fallible.raise, pure_bind, any_cons, any_nil, (hhead _).1, Bool.or_self,
    Bool.false_eq_true, if_false, map_cons, map_nil, (hhead _).2, single, joinShapes_self, spread,
    if_true, hn]
  refine (judged_scalars _ _).bind fun trial htrial => ?_
  obtain rfl := requireEqual_eq_ok htrial
  refine (judged_entries fun i hi => ⟨getD_entries f (mem_range.mp hi),
    getD_entries g (mem_range.mp hi)⟩).ending fun results => ?_
  -- the trial has shown that the results may be anything
  have hcast : results.mapM (Tensor.cast .object) = .ok (results.map _) := mapM_ok fun _ _ => rfl
  simp only [show resultElement .none = .ok .object from rfl, pure_bind, hcast]
  exact ⟨_, rfl⟩

theorem compares_ints (s : List Nat) (f : Nat → Int) : Compares requireEqual (ints s f) := by
  intro y hy
  cases hy with
  | array t g =>
    show Judged (elementwise requireEqual [ints s f, ints t g]) (verdict (.array _ _ _) (.array _ _ _))
    rw [verdict]
    split
    next hsame =>
      obtain ⟨rfl, hne⟩ := hsame
      obtain ⟨n, hn⟩ : ∃ n, Tensor.count s = n + 1 :=
        Nat.exists_eq_succ_of_ne_zero fun h => hne (by rw [h]; rfl)
      exact judged_elementwise hn f g
    · exact judged_unclear _
  | _ => exact judged_unclear _

theorem Nested.items (h : Nested a) : ∀ x ∈ items a, Nested x := by
  cases h with
  | tuple h | list h => exact h
  | _ => simp [StructuralMap.items, ints]

theorem judged_sequence (build : List Value → Value) (hx : ∀ x ∈ xs, Compares leaf x) (hb : Nested b)
    (h : sameSort a b = true → verdict a b = verdicts xs (items b))
    (hnot : sameSort a b = false → verdict a b = .apart) :
    Judged (do
      Fallible.raise (requireAll a (sameSort a) [b])
      Fallible.raise (requireAll a (fun o => (items o).length = xs.length) [b])
      pure (build (← mapItems leaf none xs ([b].map items)))) (verdict a b) := by
  refine .require (fun hsort => ?_) hnot
  rw [h hsort]
  exact .require (fun hlen => (judged_mapItems hx hb.items (by simpa using hlen)).map)
    fun hlen => verdicts_of_length_ne (by simpa using hlen)

theorem compares_nested (h : Nested a) : Compares requireEqual a := by
  induction h with
  | int n => exact compares_int n
  | array s f => exact compares_ints s f
  | tuple _ ih =>
    intro y hy
    rw [StructuralMap.map]
    refine judged_sequence .tuple ih hy ?_ ?_ <;> cases hy <;>
      simp [sameSort, Value.sortPath, verdict, items, ints]
  | list _ ih =>
    intro y hy
    rw [StructuralMap.map]
    refine judged_sequence .list ih hy ?_ ?_ <;> cases hy <;>
      simp [sameSort, Value.sortPath, verdict, items, ints]
  | @record tag fs names _ ih =>
    intro y hy
    rw [StructuralMap.map]
    have hmap : textField? "__map__" fs = none := by
      by_contra hne
      obtain ⟨v, hv⟩ := Option.ne_none_iff_exists'.mp hne
      exact absurd (names _ (mem_of_textField? hv)) (by simp [isName])
    rw [hmap]
    cases hy with
    | @record u gs _ hgs =>
      refine .require (fun _ => .require (fun hsame => ?_) fun hsame => ?_) fun h => ?_
      · rw [verdict, if_pos hsame]
        exact (judged_mapFields (fun f hf => ⟨names f hf, ih f hf⟩) hgs).map
      · rw [verdict, if_neg (by simp [hsame])]
      · simp [sameSort, Value.sortPath] at h
    | _ => exact .require (by simp [sameSort, Value.sortPath, ints]) fun _ => by simp [verdict, ints]

theorem decides_agree (ha : Nested a) (hb : Nested b) : Decides (agree a b) (verdict a b) := by
  rw [agree, show (isException a || isException b) = false by cases ha <;> cases hb <;> rfl]
  exact compares_nested ha b hb

theorem decides_allAgree (hvs : ∀ v ∈ vs, Nested v) : Decides (allAgree vs) (jointVerdict vs) := by
  fun_induction allAgree vs with
  | case1 a b rest ih =>
    obtain ⟨ha, hrest⟩ := forall_mem_cons.mp hvs
    exact (decides_agree ha (hrest b mem_cons_self)).and fun _ => ih hrest
  | case2 vs hshort =>
    rcases vs with _ | ⟨a, _ | ⟨b, rest⟩⟩
    · exact decides_leaves true
    · exact decides_leaves true
    · exact absurd rfl (hshort a b rest)

/-! ## All results -/

theorem verdicts_trans {zs : List Value}
    (h : ∀ x ∈ xs, ∀ {b c}, verdict x b = .leaves true → verdict b c = .leaves true →
      verdict x c = .leaves true)
    (hxy : verdicts xs ys = .leaves true) (hyz : verdicts ys zs = .leaves true) :
    verdicts xs zs = .leaves true := by
  induction xs generalizing ys zs with
  | nil =>
    cases ys with
    | nil => exact hyz
    | cons y ys => cases hxy
  | cons x xs ih =>
    obtain ⟨hx, hrest⟩ := forall_mem_cons.mp h
    cases ys with
    | nil => cases hxy
    | cons y ys =>
      cases zs with
      | nil => cases hyz
      | cons z zs =>
        rw [verdicts, Verdict.and_eq_true] at hxy hyz ⊢
        exact ⟨hx hxy.1 hyz.1, ih hrest hxy.2 hyz.2⟩

theorem fieldVerdicts_eq_true : fieldVerdicts gs fs = .leaves true ↔ ∀ f ∈ fs, ∃ name y,
    f.1 = .str name ∧ textField? name gs = some y ∧ verdict f.2 y = .leaves true := by
  induction fs with
  | nil => simp [fieldVerdicts]
  | cons f fs ih =>
    obtain ⟨k, x⟩ := f
    rw [forall_mem_cons, ← ih]
    cases k with
    | str name =>
      rw [fieldVerdicts]
      cases hy : textField? name gs with
      | none => simp [hy]
      | some y => simp [hy, Verdict.and_eq_true]
    | _ => simp [fieldVerdicts]

theorem verdict_int {n : Int} (h : verdict (.int n) b = .leaves true) : b = .int n := by
  cases b with
  | int m =>
    obtain rfl : n = m := by simpa [verdict] using h
    rfl
  | _ => simp [verdict] at h

theorem verdict_tuple (h : verdict (.tuple xs) b = .leaves true) :
    ∃ ys, b = .tuple ys ∧ verdicts xs ys = .leaves true := by
  cases b with
  | tuple ys => exact ⟨ys, rfl, h⟩
  | _ => simp [verdict] at h

theorem verdict_list (h : verdict (.list xs) b = .leaves true) :
    ∃ ys, b = .list ys ∧ verdicts xs ys = .leaves true := by
  cases b with
  | list ys => exact ⟨ys, rfl, h⟩
  | _ => simp [verdict] at h

theorem verdict_array {e : ElementType} {s : List Nat} (h : verdict (.array e s xs) b = .leaves true) :
    ∃ e' ys, b = .array e' s ys ∧ xs ≠ [] ∧ verdicts xs ys = .leaves true := by
  cases b with
  | array e' t ys =>
    rw [verdict] at h
    split at h
    next hs => exact ⟨e', ys, by rw [hs.1], hs.2, h⟩
    · cases h
  | _ => simp [verdict] at h

theorem verdict_record : verdict (.record tag fs) b = .leaves true ↔ ∃ gs, b = .record tag gs ∧
    fs.length = gs.length ∧ ∀ f ∈ fs, ∃ name y, f.1 = .str name ∧ textField? name gs = some y ∧
      verdict f.2 y = .leaves true := by
  cases b with
  | record u gs =>
    have hfound : ∀ {name y}, textField? name gs = some y →
        (field? (.str name) (.record u gs)).isSome = true := fun hy => by
      rw [field?, Option.isSome_map, find?_isSome]
      exact ⟨_, mem_of_textField? hy, by simp⟩
    simp only [verdict, sameFields, Bool.and_eq_true, decide_eq_true_eq, all_eq_true]
    constructor
    · intro h
      split at h
      next hsame => exact ⟨gs, by rw [hsame.1.1], hsame.1.2, fieldVerdicts_eq_true.mp h⟩
      · cases h
    · rintro ⟨_, heq, hlen, hall⟩
      cases heq
      have hsome : ∀ f ∈ fs, (field? f.1 (.record tag gs)).isSome = true := fun f hf => by
        obtain ⟨name, y, hk, hy, -⟩ := hall f hf
        rw [hk]
        exact hfound hy
      rw [if_pos ⟨⟨rfl, hlen⟩, hsome⟩, fieldVerdicts_eq_true]
      exact hall
  | _ => simp [verdict]

theorem verdict_trans (ha : Nested a) (hab : verdict a b = .leaves true)
    (hbc : verdict b c = .leaves true) : verdict a c = .leaves true := by
  induction ha generalizing b c with
  | int n => rwa [verdict_int hab] at hbc
  | array s f =>
    obtain ⟨_, ys, rfl, hne, hab⟩ := verdict_array hab
    obtain ⟨_, zs, rfl, -, hbc⟩ := verdict_array hbc
    rw [ints, verdict, if_pos ⟨rfl, hne⟩]
    refine verdicts_trans (fun x hx b c hb hc => ?_) hab hbc
    obtain ⟨i, -, rfl⟩ := mem_map.mp hx
    rwa [verdict_int hb] at hc
  | tuple _ ih =>
    obtain ⟨ys, rfl, hab⟩ := verdict_tuple hab
    obtain ⟨zs, rfl, hbc⟩ := verdict_tuple hbc
    exact verdicts_trans (fun x hx _ _ => ih x hx) hab hbc
  | list _ ih =>
    obtain ⟨ys, rfl, hab⟩ := verdict_list hab
    obtain ⟨zs, rfl, hbc⟩ := verdict_list hbc
    exact verdicts_trans (fun x hx _ _ => ih x hx) hab hbc
  | record _ _ ih =>
    obtain ⟨gs, rfl, hlen, hab⟩ := verdict_record.mp hab
    obtain ⟨hs, rfl, hlen', hbc⟩ := verdict_record.mp hbc
    refine verdict_record.mpr ⟨hs, rfl, hlen.trans hlen', fun f hf => ?_⟩
    obtain ⟨name, y, hk, hy, hv⟩ := hab f hf
    obtain ⟨_, z, hk', hz, hv'⟩ := hbc _ (mem_of_textField? hy)
    cases hk'
    exact ⟨name, z, hk, hz, ih f hf hv hv'⟩

/-- If neighbours agree, then all do. -/
theorem pairwise_of_jointVerdict (hvs : ∀ v ∈ vs, Nested v) (h : jointVerdict vs = .leaves true) :
    vs.Pairwise fun a b => verdict a b = .leaves true := by
  induction vs with
  | nil => exact .nil
  | cons a vs ih =>
    obtain ⟨ha, hrest⟩ := forall_mem_cons.mp hvs
    cases vs with
    | nil => simp
    | cons b vs =>
      rw [jointVerdict, Verdict.and_eq_true] at h
      have hall := ih hrest h.2
      refine pairwise_cons.mpr ⟨forall_mem_cons.mpr ⟨h.1, fun c hc => ?_⟩, hall⟩
      exact verdict_trans ha h.1 ((pairwise_cons.mp hall).1 c hc)

/-- A comparison of functions whose results are nested from tuples, lists, records, whole numbers and
arrays of them says whether neighbouring results have equal leaves, if they have one structure; and
if they have, then all results have. Of results of different structure it never says that they match,
unless an array meets something else than an array of its shape. -/
theorem compareCalls_exact {o : Option Origin} {s s' : Session} {fns : List (String × Callable)}
    {args : List Value} {rows : List (Value × Value)} (h : Returns (fns.mapM (resultRow args)) o s rows s')
    (hrows : ∀ r ∈ rows, Nested r.2) :
    (∀ b, jointVerdict (rows.map (·.2)) = .leaves b →
        Returns (compareCalls fns args) o s (rows ++ [(.str "match", .bool b)]) s') ∧
      (∀ out s1, Returns (compareCalls fns args) o s out s1 → ∃ b,
        out = rows ++ [(.str "match", .bool b)] ∧ (b = true →
          jointVerdict (rows.map (·.2)) = .leaves true ∨
            jointVerdict (rows.map (·.2)) = .unclear)) ∧
      (jointVerdict (rows.map (·.2)) = .leaves true →
        (rows.map (·.2)).Pairwise fun a b => verdict a b = .leaves true) := by
  have hnested : ∀ v ∈ rows.map (·.2), Nested v := forall_mem_map.mpr hrows
  have hdec : Decides _ _ := decides_allAgree hnested
  simp only [compareCalls, returns_bind, returns_lift, returns_pure]
  refine ⟨?_, ?_, pairwise_of_jointVerdict hnested⟩
  · intro b hb
    exact ⟨rows, s', h, b, s', ⟨hdec.known b hb, rfl⟩, rfl, rfl⟩
  · rintro out s1 ⟨rows', s2, h', b, s3, ⟨hb, rfl⟩, rfl, rfl⟩
    obtain ⟨rfl, rfl⟩ := h'.unique h
    refine ⟨b, rfl, ?_⟩
    rintro rfl
    exact hdec.sound hb

/-- Functions that return given values. -/
def constants (vs : List Value) : List (String × Callable) := vs.map fun v => ("f", fun _ => pure v)

def sampleRecord : Value :=
  .record "P" [(.str "x", ints [2, 2] fun i => i), (.str "y", .tuple [.int 2])]

theorem compareCalls_exact_sampleRecord :
    ∃ rows, Returns (compareCalls (constants [sampleRecord, sampleRecord]) []) none Session.initial
      (rows ++ [(.str "match", .bool true)]) Session.initial := by
  have hsample : Nested sampleRecord := by
    refine .record (by simp [isName]) ?_
    simp [Nested.int, Nested.tuple, Nested.array]
  have hcalls : Returns ((constants [sampleRecord, sampleRecord]).mapM (resultRow [])) none
      Session.initial ([sampleRecord, sampleRecord].map fun v => (.str "f_result", v))
      Session.initial := rfl
  exact ⟨_, (compareCalls_exact hcalls (by simp [hsample])).1 true (by decide +kernel)⟩

/-- Results of different structure make the comparison fail. -/
theorem compareCalls_fails :
    (compareCalls (constants [sampleRecord, .int 1]) [] none Session.initial).1.isOk = false := by
  decide +kernel

end DiffLang.Validation
