import DiffLang.Graph.Rewriting
import DiffLang.Proofs.Graph.Redirect
import DiffLang.Proofs.Returns

/-!
# What rules find

Two rules replace a node by another one that has the same value: a copy by what it copies, and the
item at a fixed place of a tuple that is built on the spot by that item. `Rule.Finds` says on which
nodes they do so and what they put in its place, without matching.

Matching reads the nodes that it reports as touched, and the values of constants. Main statement:
where the values are the same and the applications of the touched nodes are, matching gives the same
answer (`matches_congr`). So a node has to be looked at again only after a change of a node that was
touched.
-/

namespace DiffLang

theorem Value.same_symbol (x : Symbol) (w : Value) :
    (w = .symbol x ∧ (Value.symbol x).same w = .ok true) ∨
      (w ≠ .symbol x ∧ (Value.symbol x).same w = .ok false) := by
  cases w <;> simp [Value.same, identity?, decidesEquality, eq_comm, em]

namespace Graph

open Run List Condition Rule

variable {s s' : Store} {n t : NodeId}

/-! ## Matching again -/

def SameValues (s s' : Store) : Prop := ∀ n, (s'.node n).value = (s.node n).value

theorem SameValues.holds (h : SameValues s s') (c : Condition) (n : Option NodeId) :
    c.holds s' n = c.holds s n := by
  unfold Condition.holds Node.isConstant Node.graph? Node.isGlobal Node.isBuiltin
  cases n with
  | none => cases c <;> rfl
  | some n => cases c <;> simp only [h n]

theorem SameValues.holdsAll (h : SameValues s s') (c : Condition) :
    ∀ ns : List (Option NodeId), c.holdsAll s' ns = c.holdsAll s ns
  | [] => rfl
  | n :: ns => by rw [Condition.holdsAll, Condition.holdsAll, h.holds, h.holdsAll c ns]

def SameAt (s s' : Store) (ns : List NodeId) : Prop :=
  ∀ n ∈ ns, (s'.node n).application? = (s.node n).application?

variable {m : Match} {u u' : Bindings} {p : Pattern} {ps : List Pattern} {xs : List Subject}
  {touched : List NodeId} {name : String}

theorem matchItems_cons_eq_ok {x : Subject} :
    matchItems s (p :: ps) (x :: xs) touched u = .ok m ↔
      ∃ m1, matchPattern s p x u = .ok m1 ∧
        ((m1.bindings = none ∧ m = ⟨touched ++ m1.touched, none⟩) ∨
          ∃ u1, m1.bindings = some u1 ∧ matchItems s ps xs (touched ++ m1.touched) u1 = .ok m) := by
  rw [matchItems]
  cases hm : matchPattern s p x u with
  | error e => simp [bind, Except.bind]
  | ok m1 =>
    cases hb : m1.bindings <;> simp [bind, Except.bind, pure, Except.pure, hb, eq_comm]

theorem subset_touched_of_matchItems : ∀ {ps : List Pattern} {xs : List Subject}
    {touched : List NodeId} {u : Bindings} {m : Match}, matchItems s ps xs touched u = .ok m →
      touched ⊆ m.touched
  | [], xs, touched, u, m, h => by
    rw [matchItems] at h
    · cases h
      exact List.Subset.refl _
    · intro p ps x xs hp
      cases hp
  | p :: ps, [], touched, u, m, h => by
    rw [matchItems] at h
    · cases h
      exact List.Subset.refl _
    · intro p ps x xs _ hx
      cases hx
  | p :: ps, x :: xs, touched, u, m, h => by
    obtain ⟨m1, -, ⟨-, rfl⟩ | ⟨u1, -, h⟩⟩ := matchItems_cons_eq_ok.mp h
    · exact subset_append_left _ _
    · exact List.Subset.trans (subset_append_left _ _) (subset_touched_of_matchItems h)

mutual

theorem matchPattern_congr (hv : SameValues s s') : ∀ (p : Pattern) (x : Subject) (u : Bindings)
    {m : Match}, matchPattern s p x u = .ok m → SameAt s s' m.touched →
      matchPattern s' p x u = .ok m
  | .apply items, .node none, u, m => by
    intro h
    simp [matchPattern] at h
  | .apply items, .node (some n), u, m => by
    intro h hs
    simp only [matchPattern, Subject.touched, Option.toList_some] at h ⊢
    cases ha : (s.node n).application? with
    | none =>
      rw [ha] at h
      cases h
      rw [hs n mem_cons_self, ha]
    | some parts =>
      rw [ha] at h
      dsimp only at h
      split at h
      next hlen =>
        cases h
        rw [hs n mem_cons_self, ha]
        exact if_pos hlen
      next hlen =>
        rw [hs n (subset_touched_of_matchItems h mem_cons_self), ha]
        exact (if_neg hlen).trans (matchItems_congr hv items _ _ u h hs)
  | .hole name c, .node n, u, m => by
    intro h _
    simp only [matchPattern, hv.holds] at h ⊢
    exact h
  | .many name c, .run ns, u, m => by
    intro h _
    simp only [matchPattern, hv.holdsAll] at h ⊢
    exact h
  | .value v, .node n, u, m => by
    intro h _
    cases n with
    | none => simp [matchPattern] at h
    | some n =>
      simp only [matchPattern, hv n] at h ⊢
      exact h
  | .apply _, .run _, u, m | .hole .., .run _, u, m | .value _, .run _, u, m
  | .many .., .node _, u, m => by
    intro h _
    simp only [matchPattern] at h ⊢
    exact h

theorem matchItems_congr (hv : SameValues s s') : ∀ (ps : List Pattern) (xs : List Subject)
    (touched : List NodeId) (u : Bindings) {m : Match}, matchItems s ps xs touched u = .ok m →
      SameAt s s' m.touched → matchItems s' ps xs touched u = .ok m
  | [], xs, touched, u, m => by
    intro h _
    simp only [matchItems] at h ⊢
    exact h
  | p :: ps, [], touched, u, m => by
    intro h _
    simp only [matchItems] at h ⊢
    exact h
  | p :: ps, x :: xs, touched, u, m => by
    intro h hs
    obtain ⟨m1, h1, ⟨hb, rfl⟩ | ⟨u1, hb, h⟩⟩ := matchItems_cons_eq_ok.mp h
    · have hs1 : SameAt s s' m1.touched := fun n hn => hs n (mem_append_right _ hn)
      exact matchItems_cons_eq_ok.mpr ⟨m1, matchPattern_congr hv p x u h1 hs1, .inl ⟨hb, rfl⟩⟩
    · have hs1 : SameAt s s' m1.touched := fun n hn =>
        hs n (subset_touched_of_matchItems h (mem_append_right _ hn))
      exact matchItems_cons_eq_ok.mpr ⟨m1, matchPattern_congr hv p x u h1 hs1,
        .inr ⟨u1, hb, matchItems_congr hv ps xs _ u1 h hs⟩⟩

end

theorem mem_touched_of_matchPattern
    (h : matchPattern s p (.node (some n)) u = .ok m) : n ∈ m.touched := by
  cases p with
  | apply items =>
    simp only [matchPattern, Subject.touched, Option.toList_some] at h
    split at h
    · cases h
      exact mem_cons_self
    · split at h
      · cases h
        exact mem_cons_self
      · exact subset_touched_of_matchItems h mem_cons_self
  | hole name c =>
    simp only [matchPattern, bind, Except.bind] at h
    split at h
    · cases h
    · split at h <;> cases h <;> exact mem_cons_self
  | value v =>
    simp only [matchPattern, bind, Except.bind] at h
    split at h
    · split at h
      · cases h
      · split at h <;> cases h <;> exact mem_cons_self
    · cases h
      exact mem_cons_self
  | many name c =>
    simp only [matchPattern] at h
    cases h
    exact mem_cons_self

theorem matches_eq_ok (h : p.matches s n = .ok m) : ∃ m1,
    matchPattern s p (.node (some n)) [] = .ok m1 ∧ m = ⟨m1.touched.eraseDups, m1.bindings⟩ := by
  unfold Pattern.matches at h
  cases hm : matchPattern s p (.node (some n)) [] with
  | error e =>
    rw [hm] at h
    cases h
  | ok m1 =>
    rw [hm] at h
    cases h
    exact ⟨m1, rfl, rfl⟩

theorem mem_touched_of_matches (h : p.matches s n = .ok m) : n ∈ m.touched := by
  obtain ⟨m1, hm, rfl⟩ := matches_eq_ok h
  exact mem_eraseDups.mpr (mem_touched_of_matchPattern hm)

/-- Matching again gives the same answer as long as the nodes it touched have not changed. -/
theorem matches_congr (hv : SameValues s s')
    (h : p.matches s n = .ok m) (hs : SameAt s s' m.touched) : p.matches s' n = .ok m := by
  obtain ⟨m1, hm, rfl⟩ := matches_eq_ok h
  unfold Pattern.matches
  rw [matchPattern_congr hv p _ [] hm fun k hk => hs k (mem_eraseDups.mpr hk)]
  rfl

/-! ## The two rules -/

def IsOperation (s : Store) (f : NodeId) (name : String) : Prop :=
  (s.node f).value = some (.symbol (.builtin name))

inductive Rule.Finds (s : Store) : Rule → NodeId → NodeId → Prop
  | copy {n f x : NodeId} (happ : (s.node n).application? = some [some f, some x])
      (hf : IsOperation s f "identity") : Finds s .dropCopy n x
  /-- An item of a tuple that is built stands for what the tuple is built from. -/
  | part {n f a c i t : NodeId} {items : List (Option NodeId)} {v : Value} {j : Int} {k : Nat}
      (happ : (s.node n).application? = some [some f, some a, some i])
      (hf : IsOperation s f "index") (htuple : (s.node a).application? = some (some c :: items))
      (hc : IsOperation s c "mktuple") (hv : (s.node i).value = some v)
      (hj : wholeNumber v = .ok j) (hk : Value.place items.length j = .ok k)
      (ht : items[k]? = some (some t)) : Finds s .indexIntoTuple n t

/-- The rules that put a node with the same value in place of another. -/
def Rule.Replaces (r : Rule) : Prop := r = .dropCopy ∨ r = .indexIntoTuple

instance : DecidablePred Rule.Replaces := fun _ => inferInstanceAs (Decidable (_ ∨ _))

theorem Rule.Finds.used {r : Rule} (h : r.Finds s n t) (hl : Linked s) (hn : (s.node n).users ≠ []) :
    (s.node t).users ≠ [] := by
  cases h with
  | copy happ _ => exact hl.used_of_needs hn (needs_of_application happ (by simp))
  | @part _ _ a _ _ _ _ _ _ _ happ _ htuple _ _ _ _ ht =>
    have ha : (s.node a).users ≠ [] := hl.used_of_needs hn (needs_of_application happ (by simp))
    exact hl.used_of_needs ha
      (needs_of_application htuple (mem_cons_of_mem _ (mem_of_getElem? ht)))

theorem matchPattern_operation (s : Store) (name : String) (f : NodeId) (u : Bindings) :
    (IsOperation s f name ∧
      matchPattern s (operation name) (.node (some f)) u = .ok ⟨[f], some u⟩) ∨
    (¬ IsOperation s f name ∧
      matchPattern s (operation name) (.node (some f)) u = .ok ⟨[f], none⟩) := by
  unfold IsOperation operation
  simp only [matchPattern, Subject.touched, Option.toList_some]
  cases hv : (s.node f).value with
  | none => exact .inr ⟨by simp, rfl⟩
  | some w =>
    rcases Value.same_symbol (.builtin name) w with ⟨rfl, hw⟩ | ⟨hne, hw⟩
    · exact .inl ⟨rfl, by simp only [hw]; rfl⟩
    · exact .inr ⟨by simpa using hne, by simp only [hw]; rfl⟩

theorem application?_eq_some_iff {m : Node} {parts : List (Option NodeId)} :
    m.application? = some parts ↔ ∃ f, m.fn = some f ∧ parts = some f :: m.inputs := by
  unfold Node.application?
  cases m.fn <;> simp [eq_comm]

theorem matchPattern_apply_eq_ok {items : List Pattern}
    (h : matchPattern s (.apply items) (.node (some n)) u = .ok m) (hu : m.bindings = some u') :
    ∃ parts, (s.node n).application? = some parts ∧ (group items parts).length = items.length ∧
      matchItems s items (group items parts) [n] u = .ok m := by
  simp only [matchPattern, Subject.touched, Option.toList_some] at h
  cases ha : (s.node n).application? with
  | none =>
    rw [ha] at h
    cases h
    cases hu
  | some parts =>
    rw [ha] at h
    dsimp only at h
    split at h
    · cases h
      cases hu
    next hlen => exact ⟨parts, rfl, not_not.mp hlen, h⟩

theorem matchItems_operation {f : NodeId}
    (h : matchItems s (operation name :: ps) (.node (some f) :: xs) touched u = .ok m)
    (hu : m.bindings = some u') :
    IsOperation s f name ∧ matchItems s ps xs (touched ++ [f]) u = .ok m := by
  obtain ⟨m1, h1, h⟩ := matchItems_cons_eq_ok.mp h
  rcases matchPattern_operation s name f u with ⟨hop, hf⟩ | ⟨hop, hf⟩ <;> rw [hf] at h1 <;> cases h1
  · obtain ⟨hb, -⟩ | ⟨u1, hb, h⟩ := h
    · cases hb
    · cases hb
      exact ⟨hop, h⟩
  · obtain ⟨-, rfl⟩ | ⟨u1, hb, -⟩ := h
    · cases hu
    · cases hb

/-- A call of an operation is matched item by item, unless a pattern is for many. -/
theorem matches_operation (hmany : ∀ xs, group (operation name :: ps) xs = xs.map .node)
    (h : (Pattern.apply (operation name :: ps)).matches s n = .ok m) (hu : m.bindings = some u) :
    ∃ f xs m1, (s.node n).application? = some (some f :: xs) ∧ xs.length = ps.length ∧
      IsOperation s f name ∧ matchItems s ps (xs.map .node) [n, f] [] = .ok m1 ∧
      m1.bindings = some u := by
  obtain ⟨m1, h1, rfl⟩ := matches_eq_ok h
  obtain ⟨parts, happ, hlen, hitems⟩ := matchPattern_apply_eq_ok h1 hu
  obtain ⟨f, -, rfl⟩ := application?_eq_some_iff.mp happ
  rw [hmany] at hlen hitems
  obtain ⟨hop, hitems⟩ := matchItems_operation hitems hu
  exact ⟨f, _, m1, happ, by simpa using hlen, hop, hitems, hu⟩

theorem group_many {q : Pattern} (hq : q.isMany = false) (x : String) (c : Condition)
    (k : Option NodeId) (ks : List (Option NodeId)) :
    group [q, .many x c] (k :: ks) = [.node k, .run ks] := by
  have hmany : (Pattern.many x c).isMany = true := rfl
  have hfind : [q, .many x c].findIdx? Pattern.isMany = some 1 := by
    simp [findIdx?_cons, hq, hmany]
  unfold group
  rw [hfind]
  have hpos : ¬ (ks.length : Int) + 1 < 0 := by omega
  simp [between, clamp, hpos]

theorem Condition.holdsAll_anything (s : Store) :
    ∀ ns : List (Option NodeId), anything.holdsAll s ns = .ok true
  | [] => rfl
  | _ :: ns => holdsAll_anything s ns

theorem bindings_of_matches_dropCopy
    (h : dropCopy.pattern.matches s n = .ok m) (hu : m.bindings = some u) :
    ∃ f x, (s.node n).application? = some [some f, x] ∧ IsOperation s f "identity" ∧
      u = [("X", .one x)] := by
  obtain ⟨f, xs, m1, happ, hlen, hop, hitems, hu⟩ := matches_operation (fun _ => rfl) h hu
  obtain ⟨x, rfl⟩ := length_eq_one_iff.mp hlen
  simp only [map_cons, map_nil, matchItems, matchPattern, holds, bind,
    Except.bind, if_true, pure, Except.pure] at hitems
  cases hitems
  cases hu
  exact ⟨f, x, happ, hop, rfl⟩

theorem bindings_of_matches_indexIntoTuple
    (h : indexIntoTuple.pattern.matches s n = .ok m) (hu : m.bindings = some u) :
    ∃ f a c i items v, (s.node n).application? = some [some f, some a, some i] ∧
      IsOperation s f "index" ∧ (s.node a).application? = some (some c :: items) ∧
      IsOperation s c "mktuple" ∧ (s.node i).value = some v ∧
      u = [("X", .run items), ("V", .one (some i))] := by
  obtain ⟨f, xs, m1, happ, hlen, hop, hitems, hu⟩ := matches_operation (fun _ => rfl) h hu
  obtain ⟨a, i, rfl⟩ := length_eq_two.mp hlen
  obtain ⟨m2, h2, ⟨-, rfl⟩ | ⟨u2, hu2, hitems⟩⟩ := matchItems_cons_eq_ok.mp hitems
  · cases hu
  cases a with
  | none => simp [matchPattern] at h2
  | some a =>
    obtain ⟨parts, happ', -, hparts⟩ := matchPattern_apply_eq_ok h2 hu2
    obtain ⟨c, -, rfl⟩ := application?_eq_some_iff.mp happ'
    rw [group_many rfl] at hparts
    obtain ⟨hop', hparts⟩ := matchItems_operation hparts hu2
    simp only [matchItems, matchPattern, holdsAll_anything, bind, Except.bind, if_true,
      pure, Except.pure] at hparts
    cases hparts
    cases hu2
    cases i with
    | none => simp [matchItems, matchPattern, holds, bind, Except.bind] at hitems
    | some i =>
      cases hv : (s.node i).value with
      | none =>
        simp only [map_cons, map_nil, matchItems, matchPattern, holds,
          Node.isConstant, hv, bind, Except.bind, pure, Except.pure, Option.isSome_none,
          Bool.false_eq_true, if_false] at hitems
        cases hitems
        cases hu
      | some v =>
        simp only [map_cons, map_nil, matchItems, matchPattern, holds,
          Node.isConstant, hv, bind, Except.bind, pure, Except.pure, Option.isSome_some,
          if_true] at hitems
        cases hitems
        cases hu
        exact ⟨f, a, c, i, _, v, happ, hop, happ', hop', hv, rfl⟩

section

variable {host : Host} {near : Neighbours} {o : Option Origin} {σ σ' : Session}
  {changes : List Change}

@[simp] theorem returns_replaceBy :
    Returns (replaceBy n t) o σ changes σ' ↔
      σ.store.redirectChanges n t = .ok changes ∧ σ = σ' := by
  unfold replaceBy
  simp only [returns_bind, returns_get, returns_lift]
  constructor
  · rintro ⟨_, _, ⟨rfl, rfl⟩, h⟩
    exact h
  · exact fun h => ⟨σ, σ, ⟨rfl, rfl⟩, h⟩

theorem returns_effect_dropCopy {x : NodeId} :
    Returns (dropCopy.effect host near n [("X", .one (some x))]) o σ changes σ' ↔
      σ.store.redirectChanges n x = .ok changes ∧ σ = σ' := by
  have hX : Bindings.node [("X", .one (some x))] "X" = pure x := rfl
  simp only [effect, hX, pure_bind, returns_replaceBy]

theorem returns_effect_indexIntoTuple {i : NodeId} {items : List (Option NodeId)} {v : Value}
    (hv : (σ.store.node i).value = some v)
    (h : Returns (indexIntoTuple.effect host near n
      [("X", .run items), ("V", .one (some i))]) o σ changes σ') :
    σ' = σ ∧ ∃ j k, wholeNumber v = .ok j ∧ Value.place items.length j = .ok k ∧
      ∀ t, items[k]? = some (some t) → σ.store.redirectChanges n t = .ok changes := by
  have hV : Bindings.node [("X", .run items), ("V", .one (some i))] "V" = pure i := rfl
  have hX : Bindings.nodes [("X", .run items), ("V", .one (some i))] "X" = items := rfl
  simp only [effect, hV, hX, pure_bind, returns_bind, returns_get] at h
  obtain ⟨_, _, ⟨rfl, rfl⟩, h⟩ := h
  simp only [hv, returns_bind, returns_lift] at h
  obtain ⟨j, _, ⟨hj, rfl⟩, k, _, ⟨hk, rfl⟩, h⟩ := h
  rw [getD_eq_getElem?_getD] at h
  split at h
  next m hm =>
    obtain ⟨hcs, rfl⟩ := returns_replaceBy.mp h
    refine ⟨rfl, j, k, hj, hk, fun t ht => ?_⟩
    rw [ht] at hm
    cases hm
    exact hcs
  next hm =>
    obtain ⟨-, rfl⟩ := returns_pure.mp h
    refine ⟨rfl, j, k, hj, hk, fun t ht => ?_⟩
    rw [ht] at hm
    cases hm

theorem place_lt {k : Nat} {j : Int} {i : Nat} (h : Value.place k j = .ok i) : i < k := by
  unfold Value.place at h
  split at h <;> split at h <;> cases h <;> omega

theorem Rule.apply_cases {r : Rule} {seen : List NodeId} (hr : r.Replaces)
    (hwhole : ∀ m, ∀ x ∈ (σ.store.node m).inputs, x.isSome = true)
    (h : Returns (r.apply host near n) o σ (seen, changes) σ') :
    σ' = σ ∧ ∃ m, r.pattern.matches σ.store n = .ok m ∧ seen = m.touched ∧
      ((m.bindings = none ∧ changes = []) ∨
        ∃ t, r.Finds σ.store n t ∧ σ.store.redirectChanges n t = .ok changes) := by
  -- the inputs of a node are all there
  have hpart : ∀ {m x : NodeId} {p : Option NodeId} {parts : List (Option NodeId)},
      (σ.store.node m).application? = some (some x :: parts) → p ∈ parts → ∃ y, p = some y := by
    intro m x p parts happ hp
    obtain ⟨_, -, hparts⟩ := application?_eq_some_iff.mp happ
    injection hparts with _ hparts
    exact Option.isSome_iff_exists.mp (hwhole m p (hparts ▸ hp))
  unfold apply at h
  rw [returns_get_bind] at h
  simp only [returns_bind, returns_lift] at h
  obtain ⟨m, _, ⟨hm, rfl⟩, h⟩ := h
  cases hu : m.bindings with
  | none =>
    rw [hu] at h
    obtain ⟨he, rfl⟩ := returns_pure.mp h
    cases he
    exact ⟨rfl, m, hm, rfl, .inl ⟨hu, rfl⟩⟩
  | some u =>
    rcases hr with rfl | rfl
    · obtain ⟨f, x, happ, hf, rfl⟩ := bindings_of_matches_dropCopy hm hu
      obtain ⟨x, rfl⟩ := hpart happ mem_cons_self
      rw [hu] at h
      simp only [returns_bind, returns_pure, returns_effect_dropCopy] at h
      obtain ⟨_, _, ⟨h, rfl⟩, he, rfl⟩ := h
      cases he
      exact ⟨rfl, m, hm, rfl, .inr ⟨x, .copy happ hf, h⟩⟩
    · obtain ⟨f, a, c, i, items, v, happ, hf, happ', hc, hv, rfl⟩ :=
        bindings_of_matches_indexIntoTuple hm hu
      rw [hu] at h
      simp only [returns_bind, returns_pure] at h
      obtain ⟨_, _, h, he, rfl⟩ := h
      cases he
      obtain ⟨rfl, j, k, hj, hk, h⟩ := returns_effect_indexIntoTuple hv h
      have hlt := place_lt hk
      obtain ⟨t, ht⟩ := hpart happ' (getElem_mem hlt)
      have ht : items[k]? = some (some t) := by rw [getElem?_eq_getElem hlt, ht]
      exact ⟨rfl, m, hm, rfl, .inr ⟨t, .part happ hf happ' hc hv hj hk ht, h t ht⟩⟩

end

end Graph

end DiffLang
