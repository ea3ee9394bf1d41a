import DiffLang.Proofs.Returns

/-!
# Fresh symbols in a session

A symbol is old for some generators of a session once none of them can make it any more: those whose
namespace it has have already counted past it. A generator asked for a symbol gives one that is not
old before and is old afterwards, so symbols made at different times differ.
-/

namespace DiffLang.Freshness

open Run Session

def Covers (g : Generator) : Symbol → Prop
  | .plain label _ version => version ≤ g.count label
  | .derived relation base _ version => version ≤ g.count (base.text ++ "/" ++ relation)

instance (g : Generator) : ∀ x, Decidable (Covers g x)
  | .plain .. => inferInstanceAs (Decidable (_ ≤ _))
  | .derived .. => inferInstanceAs (Decidable (_ ≤ _))

/-! ## The answers of one generator -/

/-- What a generator is asked for when the version is left to it. -/
inductive Request where
  | plain (label : String)
  | derive (base : Symbol) (relation : String)
  | again (x : Symbol)

def Request.serve (g : Generator) : Request → Symbol × Generator
  | .plain label => g.plain label
  | .derive base relation => g.derive base relation
  | .again x => g.again x

def answers (g : Generator) : List Request → List Symbol
  | [] => []
  | r :: rs => (r.serve g).1 :: answers (r.serve g).2 rs

/-- The text that the versions of a symbol are counted under. Different symbols can share it. -/
def key : Symbol → String
  | .plain label .. => label
  | .derived relation base .. => base.text ++ "/" ++ relation

variable {x : Symbol}

theorem covers_iff {g : Generator} : Covers g x ↔ x.version ≤ g.count (key x) := by
  cases x with
  | plain | derived => exact Iff.rfl

theorem Request.serve_spec (g : Generator) (r : Request) :
    (r.serve g).1.version = g.count (key (r.serve g).1) + 1 ∧
      (r.serve g).2 = (g.bump (key (r.serve g).1)).2 := by
  cases r with
  | plain | derive => exact ⟨rfl, rfl⟩
  | again x =>
    cases x with
    | plain | derived => exact ⟨rfl, rfl⟩

theorem Request.count_serve (g : Generator) (r : Request) (k : String) :
    (r.serve g).2.count k =
      if k = key (r.serve g).1 then g.count (key (r.serve g).1) + 1 else g.count k := by
  rw [(r.serve_spec g).2, Generator.count_bump]

theorem Request.not_covers (g : Generator) (r : Request) : ¬ Covers g (r.serve g).1 := by
  rw [covers_iff, (r.serve_spec g).1]
  omega

theorem Request.covers (g : Generator) (r : Request) :
    Covers (r.serve g).2 (r.serve g).1 := by
  rw [covers_iff, r.count_serve, if_pos rfl]
  exact Nat.le_of_eq (r.serve_spec g).1

theorem Covers.serve {g : Generator} (h : Covers g x) (r : Request) :
    Covers (r.serve g).2 x := by
  rw [covers_iff] at h ⊢
  rw [r.count_serve]
  split
  · next hk =>
    rw [hk] at h
    omega
  · exact h

/-- A symbol that a generator has counted past is not an answer of it any more. -/
theorem Covers.not_mem_answers {g : Generator} (h : Covers g x) (rs : List Request) :
    x ∉ answers g rs := by
  induction rs generalizing g with
  | nil => exact List.not_mem_nil
  | cons r rs ih =>
    intro hx
    rcases List.mem_cons.mp hx with hr | hx
    · rw [hr] at h
      exact r.not_covers g h
    · exact ih (h.serve r) hx

/-- Two requests to one generator never give the same symbol, whatever it has counted before. -/
theorem nodup_answers (g : Generator) (rs : List Request) : (answers g rs).Nodup := by
  induction rs generalizing g with
  | nil => exact List.nodup_nil
  | cons r rs ih => exact List.nodup_cons.mpr ⟨(r.covers g).not_mem_answers rs, ih _⟩

/-! ## Generators of a session -/

def generator (s : Session) (i : GeneratorId) : Generator := s.generators.getD i default

def Old (G : GeneratorId → Prop) (s : Session) (x : Symbol) : Prop :=
  ∀ i, G i → (generator s i).space = x.space → Covers (generator s i) x

/-- The generators `G` are there, and no two of them share a namespace. -/
structure Distinct (G : GeneratorId → Prop) (s : Session) : Prop where
  there : ∀ i, G i → i < s.generators.size
  apart : ∀ i j, G i → G j → (generator s i).space = (generator s j).space → i = j

/-- One session comes after another: it has the same generators, further on. -/
structure Later (s s' : Session) : Prop where
  size : s'.generators.size = s.generators.size
  space : ∀ i, (generator s' i).space = (generator s i).space
  count : ∀ i key, (generator s i).count key ≤ (generator s' i).count key

theorem Later.refl (s : Session) : Later s s := ⟨rfl, fun _ => rfl, fun _ _ => le_rfl⟩

theorem Later.trans {s1 s2 s3 : Session} (h : Later s1 s2) (h' : Later s2 s3) : Later s1 s3 :=
  ⟨h'.size.trans h.size, fun i => (h'.space i).trans (h.space i),
    fun i key => Nat.le_trans (h.count i key) (h'.count i key)⟩

instance : IsPreorder Session Later where
  refl := Later.refl
  trans _ _ _ := Later.trans

theorem Later.of_generators {s s' : Session} (h : s'.generators = s.generators) : Later s s' := by
  refine ⟨by rw [h], fun i => ?_, fun i key => ?_⟩ <;> simp [generator, h]

theorem later_noted (s : Session) (o : Option Origin) : Later s (noted s o) :=
  Later.of_generators rfl

variable {G : GeneratorId → Prop}

theorem Later.distinct {s s' : Session} (h : Later s s') (hd : Distinct G s) : Distinct G s' := by
  refine ⟨fun i hi => ?_, fun i j hi hj hij => ?_⟩
  · rw [h.size]
    exact hd.there i hi
  · rw [h.space, h.space] at hij
    exact hd.apart i j hi hj hij

theorem Later.old {s s' : Session} (h : Later s s') (hx : Old G s x) :
    Old G s' x := by
  intro i hi hsp
  rw [h.space] at hsp
  have hc := hx i hi hsp
  cases x with
  | plain | derived => exact hc.trans (h.count i _)

def Made (G : GeneratorId → Prop) (s s' : Session) (x : Symbol) : Prop :=
  ¬ Old G s x ∧ Old G s' x

theorem Made.of_later {s1 s2 s3 s4 : Session} (h : Made G s2 s3 x)
    (h1 : Later s1 s2) (h2 : Later s3 s4) : Made G s1 s4 x :=
  ⟨fun ho => h.1 (h1.old ho), h2.old h.2⟩

/-! ## Asking a generator -/

variable {s s' : Session} {g : GeneratorId} {gen : Generator} {version : Option Nat}
variable {label relation : String} {base : Symbol}

theorem generator_of_set (h : s'.generators = s.generators.setIfInBounds g gen) (i : GeneratorId) :
    generator s' i = if i = g ∧ g < s.generators.size then gen else generator s i := by
  unfold generator
  rw [h]
  simp only [Array.getD_eq_getD_getElem?, Array.getElem?_setIfInBounds]
  by_cases hi : g = i
  · subst hi
    by_cases hg : g < s.generators.size
    · simp [hg]
    · simp [hg]
  · simp [hi, Ne.symm hi]

theorem Later.of_set (h : s'.generators = s.generators.setIfInBounds g gen)
    (hspace : gen.space = (generator s g).space)
    (hcount : ∀ key, (generator s g).count key ≤ gen.count key) : Later s s' := by
  refine ⟨by rw [h, Array.size_setIfInBounds], fun i => ?_, fun i key => ?_⟩
  · rw [generator_of_set h]
    split
    next hi => rw [hi.1, hspace]
    · rfl
  · rw [generator_of_set h]
    split
    next hi => rw [hi.1]; exact hcount key
    · exact le_rfl

theorem choose_space (g : Generator) (key : String) (version : Option Nat) :
    (g.choose key version).2.space = g.space := by
  unfold Generator.choose
  split <;> rfl

theorem count_choose (g : Generator) (key k : String) (version : Option Nat) :
    g.count k ≤ (g.choose key version).2.count k := by
  unfold Generator.choose
  split
  · exact le_rfl
  · rw [Generator.count_bump]
    split
    next hk => rw [hk]; exact Nat.le_succ _
    · exact le_rfl

theorem later_afterPlain : Later s (afterPlain s g label version) :=
  .of_set rfl (choose_space _ _ _) fun key => count_choose _ _ key _

theorem later_afterDerived : Later s (afterDerived s g base relation version) :=
  .of_set rfl (choose_space _ _ _) fun key => count_choose _ _ key _

theorem made_of_set (h : s'.generators = s.generators.setIfInBounds g gen) (hg : G g)
    (hd : Distinct G s) (hx : x.space = (generator s g).space)
    (hold : ¬ Covers (generator s g) x) (hnew : Covers gen x) : Made G s s' x := by
  refine ⟨fun ho => hold (ho g hg hx.symm), fun i hi hsp => ?_⟩
  rw [generator_of_set h] at hsp ⊢
  split at hsp
  next hi' =>
    rw [if_pos hi']
    exact hnew
  next hi' =>
    obtain rfl := hd.apart i g hi hg (hsp.trans hx)
    exact absurd ⟨rfl, hd.there i hi⟩ hi'

theorem made_afterPlain (hg : G g) (hd : Distinct G s) :
    Made G s (afterPlain s g label none) ((generator s g).plain label none).1 :=
  made_of_set rfl hg hd rfl ((Request.plain label).not_covers _) ((Request.plain label).covers _)

theorem made_afterDerived (hg : G g) (hd : Distinct G s) :
    Made G s (afterDerived s g base relation none)
      ((generator s g).derive base relation none).1 :=
  made_of_set rfl hg hd rfl ((Request.derive base relation).not_covers _)
    ((Request.derive base relation).covers _)

instance : Making Later where
  noted s o := later_noted s o
  plain _ _ _ := later_afterPlain
  function _ _ _ _ := Later.of_generators rfl

end DiffLang.Freshness
