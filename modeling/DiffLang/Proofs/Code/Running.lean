import DiffLang.Proofs.Code.Segments
import DiffLang.Proofs.Machine.Plain

/-!
# Running the code of a graph

The code of a graph is run segment by segment, and each segment leaves the value of its node on the
stack. What the values are is left open here: a relation says which values a node may have in a
session, and the sessions that the run goes through only ever extend it.

Main statements: `forward`, if each node that is not computed gets such a value, and each application
of such values gives one, then the machine that runs the code goes on with such a value for the
output; and `backward`, from the fact that the machine ends.
-/

open Relation (ReflTransGen TransGen)

namespace DiffLang.Graph

open Machine Run List

def At (code : Array Step) (pc : Nat) (seg : List Step) : Prop :=
  ∀ i, i < seg.length → code[pc + i]? = seg[i]?

theorem At.of_append {code : Array Step} {pc : Nat} {a b : List Step} (h : At code pc (a ++ b)) :
    At code pc a ∧ At code (pc + a.length) b := by
  refine ⟨fun i hi => ?_, fun i hi => ?_⟩
  · rw [h i (by rw [length_append]; omega), getElem?_append_left hi]
  · have := h (a.length + i) (by rw [length_append]; omega)
    rwa [← Nat.add_assoc, getElem?_append_right (by omega), Nat.add_sub_cancel_left] at this

theorem at_singleton {code : Array Step} {pc : Nat} {x : Step} (h : At code pc [x]) :
    code[pc]? = some x :=
  h 0 (by simp)

theorem at_toArray (code : List Step) : At code.toArray 0 code := by
  intro i _
  simp

def Ends (host : Host) (o : Option Origin) (st : State) (s : Session) (v : Value) : Prop :=
  ∃ n, EndsIn host o n st s v

section Runs

variable (host : Host) (o : Option Origin) (home : Home) (Ext : Session → Session → Prop)

/-- Applying a function gives a value with a property, with which any frame goes on. -/
def Gives (Q : Session → Value → Prop) (s : Session) (f : Value) (vs : List Value) : Prop :=
  ∀ code lambda pc st waiting v,
    (∀ w s', Ext s s' → Q s' w →
      Ends host o ⟨plain code (some home) lambda pc (st ++ [w]), waiting⟩ s' v) →
    ∃ n r s1, Returns (apply host (plain code (some home) lambda pc st) f vs) o s r s1 ∧
      After host o n waiting s1 v r

/-- Values for the nodes that an output reaches and that need nothing from the host, in the sessions
after `s0`. -/
structure Values (store : Store) (g : GraphId) (out : NodeId) (args : List Value)
    (s0 : Session) (R : Session → NodeId → Value → Prop) : Prop where
  mono : ∀ {s s' n v}, Ext s s' → R s n v → R s' n v
  push : ∀ {n v s}, Reaches store out n → (store.node n).application? = none →
    Leaf store g n (.push v) → Ext s0 s → R s n v
  input : ∀ {n s} {i : Nat}, Reaches store out n → (store.node n).application? = none →
    Leaf store g n (.dup i) → Ext s0 s → ∃ w, args[i]? = some w ∧ R s n w

/-- Every lookup and every application gives a value of its node. -/
structure Valuation (store : Store) (g : GraphId) (out : NodeId) (args : List Value)
    (s0 : Session) (R : Session → NodeId → Value → Prop) : Prop
    extends Values Ext store g out args s0 R where
  fetch : ∀ {n key s}, Reaches store out n → (store.node n).application? = none →
    Leaf store g n (.fetch key) → Ext s0 s → ∃ w s', Returns (host.get home key) o s w s' ∧ Ext s s' ∧ R s' n w
  apply : ∀ {n s f vs} {p : NodeId} {ps : List NodeId}, Reaches store out n →
    (store.node n).application? = some ((p :: ps).map some) → Ext s0 s → R s p f →
    List.Forall₂ (R s) ps vs → Gives host o home Ext (fun s w => R s n w) s f vs

/-- An application from which the machine ends in less than `bound` steps has given a value with a
property, with which the frame has gone on. -/
def Gave (bound : Nat) (Q : Session → Value → Prop) (s : Session) (f : Value) (vs : List Value) :
    Prop :=
  ∀ n, n < bound → ∀ code lambda pc st waiting v,
    (∃ r s1, Returns (apply host (plain code (some home) lambda pc st) f vs) o s r s1 ∧
      After host o n waiting s1 v r) →
    ∃ w s' m, m ≤ n ∧ Ext s s' ∧ Q s' w ∧
      EndsIn host o m ⟨plain code (some home) lambda pc (st ++ [w]), waiting⟩ s' v

/-- Whatever a lookup or an application gives is a value of its node, as far as runs of less than
`bound` steps can tell. -/
structure Reflection (bound : Nat) (store : Store) (g : GraphId) (out : NodeId)
    (args : List Value) (s0 : Session) (R : Session → NodeId → Value → Prop) : Prop
    extends Values Ext store g out args s0 R where
  steady : ∀ {n key s}, Reaches store out n → (store.node n).application? = none →
    Leaf store g n (.fetch key) → Ext s0 s → NeverStops (host.get home key) o s
  fetched : ∀ {n key s w s'}, Reaches store out n → (store.node n).application? = none →
    Leaf store g n (.fetch key) → Ext s0 s → Returns (host.get home key) o s w s' → Ext s s' ∧ R s' n w
  applied : ∀ {n s f vs} {p : NodeId} {ps : List NodeId}, Reaches store out n →
    (store.node n).application? = some ((p :: ps).map some) → Ext s0 s → R s p f →
    List.Forall₂ (R s) ps vs → Gave host o home Ext bound (fun s w => R s n w) s f vs

variable {host o home Ext} [IsPreorder Session Ext]
variable {store : Store} {g : GraphId} {out : NodeId} {args : List Value} {s0 : Session}
variable {R : Session → NodeId → Value → Prop}

/-- The stack holds the arguments, and values of nodes in their places. -/
structure Layout (R : Session → NodeId → Value → Prop) (args : List Value)
    (places : List (NodeId × Int)) (s : Session) (st : List Value) : Prop where
  given : ∀ (i : Nat) (w : Value), args[i]? = some w → st[i]? = some w
  placed : ∀ n i, places.lookup n = some i →
    ∃ (k : Nat) (w : Value), i = k ∧ st[k]? = some w ∧ R s n w

variable {places : List (NodeId × Int)} {s : Session} {st : List Value} {n : NodeId} {size : Nat}

theorem Layout.append
    (h : Layout R args places s st) (vs : List Value) : Layout R args places s (st ++ vs) := by
  have hget : ∀ {k : Nat} {w : Value}, st[k]? = some w → (st ++ vs)[k]? = some w := by
    intro k w hk
    obtain ⟨hlt, _⟩ := List.getElem?_eq_some_iff.mp hk
    rw [getElem?_append_left hlt, hk]
  refine ⟨fun i w hi => hget (h.given i w hi), fun n i hi => ?_⟩
  obtain ⟨k, w, hk, hw, hr⟩ := h.placed n i hi
  exact ⟨k, w, hk, hget hw, hr⟩

theorem Layout.mono {s' : Session}
    (hmono : ∀ {n v}, R s n v → R s' n v) (h : Layout R args places s st) :
    Layout R args places s' st := by
  refine ⟨h.given, fun n i hi => ?_⟩
  obtain ⟨k, w, hk, hw, hr⟩ := h.placed n i hi
  exact ⟨k, w, hk, hw, hmono hr⟩

theorem Layout.place {w : Value} (h : Layout R args places s (st ++ [w])) (hsize : st.length = size)
    (hw : R s n w) : Layout R args ((n, (size : Int)) :: places) s (st ++ [w]) := by
  refine ⟨h.given, fun m i hi => ?_⟩
  rw [lookup_cons] at hi
  split at hi
  next hm =>
    obtain rfl := eq_of_beq hm
    injection hi with hi
    exact ⟨size, w, hi.symm, by simp [← hsize], hw⟩
  · exact h.placed m i hi

variable {code : Array Step} {lambda : Option TermId} {waiting : List Frame} {v : Value}

theorem exists_cons_of_application {parts : List NodeId}
    (h : (store.node n).application? = some (parts.map some)) :
    ∃ p ps, parts = p :: ps := by
  cases parts with
  | nil =>
    unfold Node.application? at h
    rw [Option.map_eq_some_iff] at h
    obtain ⟨_, _, hnil⟩ := h
    cases hnil
  | cons p ps => exact ⟨p, ps, rfl⟩

/-- A place in the code, with the stack and the session there. -/
structure Spot where
  pc : Nat
  stack : List Value
  session : Session

variable (Ext R) in
/-- The spots at which a value of a node has been added to the stack. -/
def Adds (n : NodeId) (pc : Nat) (st : List Value) (s : Session) (c : Spot) : Prop :=
  ∃ w s', c = ⟨pc, st ++ [w], s'⟩ ∧ Ext s s' ∧ R s' n w

variable (Ext code store g out args s0 R) in
/-- What it takes to follow a run of the code from spot to spot: forwards, to see that it ends, or
backwards, from the fact that it does. -/
structure Course (Leads : Spot → (Spot → Prop) → Prop) : Prop
    extends Values Ext store g out args s0 R where
  stay : ∀ {c P}, P c → Leads c P
  trans : ∀ {c P Q}, Leads c P → (∀ c', P c' → Leads c' Q) → Leads c Q
  dups : ∀ {pc st s w focus} {k : Nat}, code[pc]? = some ⟨.dup k, focus⟩ → st[k]? = some w →
    Leads ⟨pc, st, s⟩ (· = ⟨pc + 1, st ++ [w], s⟩)
  pushes : ∀ {pc st s w focus}, code[pc]? = some ⟨.push w, focus⟩ →
    Leads ⟨pc, st, s⟩ (· = ⟨pc + 1, st ++ [w], s⟩)
  fetches : ∀ {n key s pc st focus}, Reaches store out n → (store.node n).application? = none →
    Leaf store g n (.fetch key) → Ext s0 s → code[pc]? = some ⟨.fetch key, focus⟩ →
    Leads ⟨pc, st, s⟩ (Adds Ext R n (pc + 1) st s)
  reduces : ∀ {n s f vs pc st focus} {p : NodeId} {ps : List NodeId}, Reaches store out n →
    (store.node n).application? = some ((p :: ps).map some) → Ext s0 s → R s p f →
    List.Forall₂ (R s) ps vs → code[pc]? = some ⟨.reduce vs.length, focus⟩ →
    Leads ⟨pc, st ++ f :: vs, s⟩ (Adds Ext R n (pc + 1) st s)

variable {Leads : Spot → (Spot → Prop) → Prop}

theorem Course.parts (hc : Course Ext store g out args s0 R code Leads) :
    ∀ (parts : List NodeId) (segs : List (List Step)), segs.length = parts.length →
      (∀ i (hi : i < parts.length) (pc : Nat) (st : List Value) (s : Session), Ext s0 s →
        At code pc (segs.getD i []) → Layout R args places s st →
        Leads ⟨pc, st, s⟩ (Adds Ext R (parts.get ⟨i, hi⟩) (pc + (segs.getD i []).length) st s)) →
      ∀ (pc : Nat) (st : List Value) (s : Session), Ext s0 s → At code pc segs.flatten →
        Layout R args places s st → Leads ⟨pc, st, s⟩ fun c => ∃ ws s',
          c = ⟨pc + segs.flatten.length, st ++ ws, s'⟩ ∧ Ext s s' ∧ List.Forall₂ (R s') parts ws
  | [], segs, hlen, _, pc, st, s, hs, _, _ => by
    obtain rfl : segs = [] := length_eq_zero_iff.mp hlen
    exact hc.stay ⟨[], s, by simp, Std.Refl.refl s, .nil⟩
  | p :: parts, [], hlen, _, pc, st, s, hs, _, _ => by simp at hlen
  | p :: parts, seg :: segs, hlen, hsegs, pc, st, s, hs, hat, hlay => by
    rw [flatten_cons] at hat
    obtain ⟨hat1, hat2⟩ := hat.of_append
    refine hc.trans (hsegs 0 (Nat.zero_lt_succ _) pc st s hs hat1 hlay) ?_
    rintro _ ⟨w, s1, rfl, hs1, hw⟩
    refine hc.trans (hc.parts parts segs (by simpa using hlen)
      (fun i hi => hsegs (i + 1) (Nat.succ_lt_succ hi)) (pc + seg.length) (st ++ [w]) s1
      (IsTrans.trans _ _ _ hs hs1) hat2 ((hlay.mono (hc.mono hs1)).append [w])) ?_
    rintro _ ⟨ws, s2, rfl, hs2, hws⟩
    exact hc.stay ⟨w :: ws, s2, by simp [Nat.add_assoc], IsTrans.trans _ _ _ hs1 hs2,
      .cons (hc.mono hs2 hw) hws⟩

theorem Segment.leads (hc : Course Ext store g out args s0 R code Leads) {seg : List Step}
    (hseg : Segment store g places n seg) (hn : Reaches store out n) :
    ∀ (pc : Nat) (st : List Value) (s : Session), Ext s0 s → At code pc seg →
      Layout R args places s st → Leads ⟨pc, st, s⟩ (Adds Ext R n (pc + seg.length) st s) := by
  -- where the session stays the same
  have hadds {n pc st s w} (hr : R s n w) : ∀ c, c = ⟨pc + 1, st ++ [w], s⟩ →
      Leads c (Adds Ext R n (pc + 1) st s) := fun c h => hc.stay ⟨w, s, h, Std.Refl.refl s, hr⟩
  induction hseg with
  | @placed n i h =>
    intro pc st s hs hat hlay
    obtain ⟨k, w, rfl, hw, hr⟩ := hlay.placed n i h
    exact hc.trans (hc.dups (at_singleton hat) hw) (hadds hr)
  | @leaf n op ha h =>
    intro pc st s hs hat hlay
    cases op with
    | fetch key => exact hc.fetches hn ha h hs (at_singleton hat)
    | push w => exact hc.trans (hc.pushes (at_singleton hat)) (hadds (hc.push hn ha h hs))
    | dup i =>
      cases h with
      | @input k hv hi =>
        obtain ⟨w, hw, hr⟩ := hc.input hn ha (.input hv hi) hs
        exact hc.trans (hc.dups (at_singleton hat) (hlay.given k w hw)) (hadds hr)
    | _ => cases h
  | @application n parts segs ha hlen h ih =>
    intro pc st s hs hat hlay
    obtain ⟨hat1, hat2⟩ := hat.of_append
    have hneeds : ∀ p ∈ parts, Needs store n p := fun p hp =>
      needs_of_application ha (mem_map_of_mem hp)
    refine hc.trans (hc.parts parts segs hlen
      (fun i hi => ih i hi (hn.tail (hneeds _ (get_mem ..)))) pc st s hs hat1 hlay) ?_
    rintro _ ⟨ws, s1, rfl, hs1, hws⟩
    obtain ⟨p, ps, rfl⟩ := exists_cons_of_application ha
    cases hws with
    | @cons _ f _ vs hf hvs =>
      have hop := at_singleton hat2
      rw [length_cons, Nat.add_sub_cancel, hvs.length_eq] at hop
      refine hc.trans (hc.reduces hn ha (IsTrans.trans _ _ _ hs hs1) hf hvs hop) ?_
      rintro _ ⟨w, s2, rfl, hs2, hw⟩
      exact hc.stay ⟨w, s2, by simp [Nat.add_assoc], IsTrans.trans _ _ _ hs1 hs2, hw⟩

theorem Row.leads (hc : Course Ext store g out args s0 R code Leads) {ns : List NodeId}
    {row : List Step} (hrow : Row store g out places size ns row)
    (hns : ∀ n ∈ ns, Reaches store out n) :
    ∀ (pc : Nat) (st : List Value) (s : Session), Ext s0 s → At code pc row → st.length = size →
      Layout R args places s st →
      Leads ⟨pc, st, s⟩ fun c => ∃ st', Adds Ext R out (pc + row.length) st' s c := by
  induction hrow with
  | @last places size seg hseg =>
    intro pc st s hs hat hsize hlay
    exact hc.trans (hseg.leads hc .refl pc st s hs hat hlay) fun c h => hc.stay ⟨st, h⟩
  | @cons places size n rest seg row hseg hrest ih =>
    intro pc st s hs hat hsize hlay
    obtain ⟨hat1, hat2⟩ := hat.of_append
    refine hc.trans (hseg.leads hc (hns n (mem_cons_self ..)) pc st s hs hat1 hlay) ?_
    rintro _ ⟨w, s1, rfl, hs1, hw⟩
    refine hc.trans (ih (fun k hk => hns k (mem_cons_of_mem _ hk)) (pc + seg.length)
      (st ++ [w]) s1 (IsTrans.trans _ _ _ hs hs1) hat2 (by simp [hsize])
      (((hlay.mono (hc.mono hs1)).append [w]).place hsize hw)) ?_
    rintro _ ⟨st', w', s', rfl, hs', hw'⟩
    exact hc.stay ⟨st', w', s', by simp [Nat.add_assoc], IsTrans.trans _ _ _ hs1 hs', hw'⟩

theorem Course.leads (hc : Course Ext store g out args s0 R code Leads)
    (hout : (store.graph g).output = some out) (hw : WellFormed store g out)
    (hargs : args.length = (store.graph g).inputs.length) (hcode : instructions store g = .ok code)
    (hs : Ext s0 s) :
    Leads ⟨0, args, s⟩ fun c => ∃ st, Adds Ext R out code.size st s c := by
  obtain ⟨ns, row, hinstr, hns, hrow⟩ := instructions_spec hout hw
  rw [hcode, Except.ok.injEq] at hinstr
  subst hinstr
  have hlay : Layout R args [] s args := ⟨fun _ _ h => h, fun n i h => by cases h⟩
  simpa using hrow.leads hc hns 0 args s hs (at_toArray row) hargs hlay

theorem forward (hout : (store.graph g).output = some out) (hw : WellFormed store g out)
    (hval : Valuation host o home Ext store g out args s0 R)
    (hargs : args.length = (store.graph g).inputs.length) (hcode : instructions store g = .ok code)
    (hs : Ext s0 s) (hk : ∀ w s', Ext s s' → R s' out w → ∃ n, Returned host o n s' v w waiting) :
    Ends host o ⟨plain code (some home) lambda 0 args, waiting⟩ s v := by
  let Good (c : Spot) : Prop :=
    Ends host o ⟨plain code (some home) lambda c.pc c.stack, waiting⟩ c.session v
  have hc : Course Ext store g out args s0 R code fun c P => (∀ c', P c' → Good c') → Good c := by
    refine ⟨hval.toValues, fun h hk => hk _ h, fun h hP hk => h fun c hc => hP c hc hk, ?_, ?_, ?_, ?_⟩
    · intro pc st s w focus k hop hw hk
      obtain ⟨m, hm⟩ := hk _ rfl
      exact ⟨m + 1, (endsIn_dup hop hw).mpr hm⟩
    · intro pc st s w focus hop hk
      obtain ⟨m, hm⟩ := hk _ rfl
      exact ⟨m + 1, (endsIn_push hop).mpr hm⟩
    · intro n key s pc st focus hn ha h hs hop hk
      obtain ⟨w, s1, hget, hs1, hr⟩ := hval.fetch hn ha h hs
      obtain ⟨m, hm⟩ := hk _ ⟨w, s1, rfl, hs1, hr⟩
      have hstop : NeverStops (host.get home key) o s := by
        intro e s' he
        rw [hget] at he
        cases he
      exact ⟨m + 1, (endsIn_fetch hop hstop).mpr ⟨w, s1, hget, hm⟩⟩
    · intro n s f vs pc st focus p ps hn ha hs hf hvs hop hk
      obtain ⟨m, r, s2, hr, hafter⟩ := hval.apply hn ha hs hf hvs code lambda (pc + 1) st waiting v
        fun w s3 hs3 hw => hk _ ⟨w, s3, rfl, hs3, hw⟩
      exact ⟨m + 1, (endsIn_reduce hop).mpr ⟨r, s2, hr, hafter⟩⟩
  refine hc.leads hout hw hargs hcode hs ?_
  rintro _ ⟨st, w, s', rfl, hs', hr⟩
  obtain ⟨n, hn⟩ := hk w s' hs' hr
  exact ⟨n + 1, (endsIn_done le_rfl).mpr hn⟩

theorem backward {bound : Nat} (hout : (store.graph g).output = some out)
    (hw : WellFormed store g out) (hval : Reflection host o home Ext bound store g out args s0 R)
    (hargs : args.length = (store.graph g).inputs.length)
    (hcode : instructions store g = .ok code) (hs : Ext s0 s) {m : Nat}
    (hm : m ≤ bound) (hends : EndsIn host o m ⟨plain code (some home) lambda 0 args, waiting⟩ s v) :
    ∃ w s' m', m' < m ∧ Ext s s' ∧ R s' out w ∧ Returned host o m' s' v w waiting := by
  let Good (m : Nat) (c : Spot) : Prop :=
    EndsIn host o m ⟨plain code (some home) lambda c.pc c.stack, waiting⟩ c.session v
  -- a step is taken from every spot
  have hstep {c : Spot} {P : Spot → Prop}
      (h : ∀ m, m < bound → Good (m + 1) c → ∃ c' m', m' ≤ m ∧ P c' ∧ Good m' c') :
      ∀ m, m ≤ bound → Good m c → ∃ c' m', m' ≤ m ∧ P c' ∧ Good m' c' := by
    intro m hm hends
    cases m with
    | zero => exact (endsIn_zero hends).elim
    | succ m =>
      obtain ⟨c', m', hm', hP, hc'⟩ := h m hm hends
      exact ⟨c', m', Nat.le_succ_of_le hm', hP, hc'⟩
  have hc : Course Ext store g out args s0 R code fun c P =>
      ∀ m, m ≤ bound → Good m c → ∃ c' m', m' ≤ m ∧ P c' ∧ Good m' c' := by
    refine ⟨hval.toValues, fun h m _ hends => ⟨_, m, Nat.le_refl m, h, hends⟩, ?_, ?_, ?_, ?_, ?_⟩
    · intro c P Q h hP m hm hends
      obtain ⟨c1, m1, hm1, hc1, hends1⟩ := h m hm hends
      obtain ⟨c2, m2, hm2, hc2, hends2⟩ := hP c1 hc1 m1 (hm1.trans hm) hends1
      exact ⟨c2, m2, hm2.trans hm1, hc2, hends2⟩
    · exact fun hop hw => hstep fun m _ hends =>
        ⟨_, m, Nat.le_refl m, rfl, (endsIn_dup hop hw).mp hends⟩
    · exact fun hop => hstep fun m _ hends => ⟨_, m, Nat.le_refl m, rfl, (endsIn_push hop).mp hends⟩
    · intro n key s pc st focus hn ha h hs hop
      refine hstep fun m _ hends => ?_
      obtain ⟨w, s1, hget, hends⟩ := (endsIn_fetch hop (hval.steady hn ha h hs)).mp hends
      obtain ⟨hs1, hr⟩ := hval.fetched hn ha h hs hget
      exact ⟨_, m, Nat.le_refl m, ⟨w, s1, rfl, hs1, hr⟩, hends⟩
    · intro n s f vs pc st focus p ps hn ha hs hf hvs hop
      refine hstep fun m hm hends => ?_
      obtain ⟨w, s2, m2, hm2, hs2, hw, hends2⟩ := hval.applied hn ha hs hf hvs m hm code lambda
        (pc + 1) st waiting v ((endsIn_reduce hop).mp hends)
      exact ⟨_, m2, hm2, ⟨w, s2, rfl, hs2, hw⟩, hends2⟩
  obtain ⟨_, m', hm', ⟨st, w, s', rfl, hs', hr⟩, hends'⟩ :=
    hc.leads hout hw hargs hcode hs m hm hends
  cases m' with
  | zero => exact (endsIn_zero hends').elim
  | succ m' => exact ⟨w, s', m', hm', hs', hr, (endsIn_done le_rfl).mp hends'⟩

end Runs

end DiffLang.Graph
