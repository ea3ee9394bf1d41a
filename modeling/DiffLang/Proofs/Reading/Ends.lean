import DiffLang.Proofs.Reading.Bodies

/-!
# How functions end

A body is left on every way through it or on none (`exitAll`): the reader refuses a conditional that
returns in one branch only, a return inside a loop, and anything after a return. A function that is
not left at all is accepted if its last statement is an expression, whose value it then has.
-/

namespace DiffLang.Reading

open Run Session Source List

mutual

/-- Whether a statement is left by a return or an exception: on every way through it, or on none. -/
def exit : Stmt → Option Bool
  | .ret .. | .raise .. => some true
  | .branch _ _ body orelse => if exitAll body = exitAll orelse then exitAll body else none
  | .whileLoop _ _ body | .forLoop _ _ _ body _ =>
    if exitAll body = some false then some false else none
  | _ => some false

/-- Nothing may follow a statement by which a body is left. -/
def exitAll : List Stmt → Option Bool
  | [] => some false
  | st :: rest =>
    if exit st = some true ∧ rest.isEmpty then some true
    else if exit st = some false then exitAll rest else none

end

mutual

/-- The functions that are defined in a statement, at any depth. -/
def definedIn : Stmt → List (Params × List Stmt)
  | .define _ _ params _ body => (params, body) :: definedInAll body
  | .branch _ _ body orelse => definedInAll body ++ definedInAll orelse
  | .whileLoop _ _ body | .forLoop _ _ _ body _ => definedInAll body
  | _ => []

def definedInAll : List Stmt → List (Params × List Stmt)
  | [] => []
  | st :: rest => definedIn st ++ definedInAll rest

end

def isExpression : Stmt → Bool
  | .expr .. => true
  | _ => false

/-- A body that is left on every way through it, or that is never left and ends in an expression. -/
def Ends (body : List Stmt) : Prop :=
  exitAll body = some true ∨ exitAll body = some false ∧ ∃ st ∈ body.getLast?, isExpression st

/-- Only parameters by position, without defaults. -/
def Positional (params : Params) : Prop :=
  params.variadic = false ∧ params.keywordOnly = false ∧ params.defaults = false

/-- A function as the reader accepts it. -/
structure Complete (f : Params × List Stmt) : Prop where
  plain : Positional f.1
  ends : Ends f.2

variable {st : Stmt} {body : List Stmt} {cs cs' : List Clause} {b : Bool} {s s' : Session}
  {o : Option Origin}

/-! ## The last clause -/

/-- Whether the clauses of a statement end in a value, and not in an assignment. -/
def hasValue (st : Stmt) : Bool := isExpression st || decide (.returns ∈ notesBy st)

def lastAssigns (cs : List Clause) : Option Bool := cs.getLast?.map Clause.isAssign

theorem lastAssigns_groups (cs : List Clause) :
    (groups cs).getLast?.map Prod.fst = lastAssigns cs := by
  induction cs with
  | nil => rfl
  | cons c rest ih =>
    rw [groups_cons]
    cases rest with
    | nil => rfl
    | cons d rest =>
      rw [lastAssigns, getLast?_cons_cons, ← lastAssigns, ← ih]
      split
      next b cs more h =>
        rw [h]
        split
        · cases more <;> rfl
        · rw [getLast?_cons_cons]
      next h =>
        rw [h, lastAssigns, getLast?_cons] at ih
        cases ih

theorem finish_none : ∀ {gs : List (Bool × List Clause)} {t : Term} {s s' : Session},
    Returns (finish none gs) o s t s' → gs.getLast?.map Prod.fst = some false
  | [], _, _, _, h => by
    rw [finish] at h
    exact (returns_throw.mp h).elim
  | [(true, _)], _, _, _, h => by
    rw [finish] at h
    exact (returns_syntaxFailure.mp h).elim
  | [(false, _)], _, _, _, _ => rfl
  | (true, _) :: _ :: _, _, _, _, h | (false, _) :: _ :: _, _, _, _, h => by
    rw [finish] at h
    · obtain ⟨_, _, h, -⟩ := returns_bind.mp h
      rw [getLast?_cons_cons]
      exact finish_none h
    · simp

/-! ## What is accepted -/

/-- A statement that was read to some clauses, in a scope where returns may be barred. -/
structure Accepted (barred : Bool) (st : Stmt) (cs : List Clause) : Prop where
  exits : exit st = some (decide (.returns ∈ notesBy st))
  stays : barred = true → .returns ∉ notesBy st
  complete : ∀ f ∈ definedIn st, Complete f
  last : lastAssigns cs = some (!hasValue st)

structure AcceptedAll (barred : Bool) (body : List Stmt) (cs : List Clause) : Prop where
  exits : exitAll body = some (decide (.returns ∈ notesByAll body))
  stays : barred = true → .returns ∉ notesByAll body
  complete : ∀ f ∈ definedInAll body, Complete f
  last : lastAssigns cs = body.getLast?.map fun st => !hasValue st

def isSimple : Stmt → Bool
  | .assign .. | .augment .. | .expr .. => true
  | _ => false

theorem Accepted.simple (hst : isSimple st = true) (hlast : lastAssigns cs = some (!isExpression st)) :
    Accepted b st cs := by
  have hnotes : .returns ∉ notesBy st := by
    unfold notesBy
    split <;> simp_all [isSimple]
  have hexit : exit st = some false ∧ definedIn st = [] := by
    unfold exit definedIn
    cases st <;> simp_all [isSimple]
  refine ⟨?_, fun _ => hnotes, by simp [hexit.2], ?_⟩
  · rw [hexit.1, decide_eq_false hnotes]
  · rw [hlast, hasValue, decide_eq_false hnotes, Bool.or_false]

def isLeaving : Stmt → Bool
  | .ret .. | .raise .. => true
  | _ => false

theorem Accepted.leaving (hst : isLeaving st = true) (hlast : lastAssigns cs = some false) :
    Accepted false st cs := by
  have hnotes : notesBy st = [.returns] := by
    unfold notesBy
    split <;> simp_all [isLeaving]
  have hexit : exit st = some true ∧ definedIn st = [] := by
    unfold exit definedIn
    cases st <;> simp_all [isLeaving]
  refine ⟨by simp [hexit.1, hnotes], by simp, by simp [hexit.2], ?_⟩
  simp [hlast, hasValue, hnotes]

theorem Accepted.loop (h : AcceptedAll true body cs') (hlast : lastAssigns cs = some true)
    (hexit : exit st = if exitAll body = some false then some false else none)
    (hnotes : notesBy st = (namesSet (notesByAll body)).map .sets)
    (hdefined : definedIn st = definedInAll body) (hst : isExpression st = false) :
    Accepted b st cs := by
  have hnot : .returns ∉ notesBy st := by simp [hnotes]
  refine ⟨?_, fun _ => hnot, by rw [hdefined]; exact h.complete, ?_⟩
  · rw [hexit, h.exits, decide_eq_false (h.stays rfl), if_pos rfl, decide_eq_false hnot]
  · rw [hlast, hasValue, decide_eq_false hnot, hst]
    rfl

theorem Accepted.define {pos : Pos} {name : String} {params : Params} {decorators : List Expr}
    (hplain : Positional params) (hends : Ends body) (h : ∀ f ∈ definedInAll body, Complete f)
    (hlast : lastAssigns cs = some true) : Accepted b (.define pos name params decorators body) cs := by
  refine ⟨by simp [exit, notesBy], by simp [notesBy], ?_, ?_⟩
  · rw [definedIn]
    exact forall_mem_cons.mpr ⟨⟨hplain, hends⟩, h⟩
  · simp [hlast, hasValue, isExpression, notesBy]

theorem Accepted.branch {pos : Pos} {test : Expr} {orelse : List Stmt} {b1 b2 left : Bool}
    {cs1 cs2 : List Clause} (h1 : AcceptedAll b1 body cs1) (h2 : AcceptedAll b2 orelse cs2)
    (hb : b = true → b1 = true) (hleft1 : left = true ↔ .returns ∈ notesByAll body)
    (hleft2 : left = true ↔ .returns ∈ notesByAll orelse) (hlast : lastAssigns cs = some (!left)) :
    Accepted b (.branch pos test body orelse) cs := by
  have hnotes : .returns ∈ notesBy (.branch pos test body orelse) ↔ left = true := by
    rw [notesBy, branchNotes, hleft1]
    split <;> simp_all
  refine ⟨?_, fun hbar => ?_, ?_, ?_⟩
  · rw [exit, h1.exits, h2.exits]
    simp [hnotes, ← hleft1, ← hleft2]
  · rw [hnotes, hleft1]
    exact h1.stays (hb hbar)
  · rw [definedIn]
    exact forall_mem_append.mpr ⟨h1.complete, h2.complete⟩
  · simp [hlast, hasValue, isExpression, hnotes]

theorem AcceptedAll.nil : AcceptedAll b [] [] :=
  ⟨by simp [exitAll, notesByAll], by simp [notesByAll], by simp [definedInAll], rfl⟩

theorem AcceptedAll.cons (h : Accepted b st cs) (h' : AcceptedAll b body cs')
    (hleft : .returns ∈ notesBy st → body = []) : AcceptedAll b (st :: body) (cs ++ cs') := by
  refine ⟨?_, fun hb => ?_, ?_, ?_⟩
  · rw [exitAll, h.exits, h'.exits, notesByAll]
    by_cases hret : .returns ∈ notesBy st
    · simp [hret, hleft hret]
    · simp [hret]
  · rw [notesByAll, mem_append]
    exact not_or.mpr ⟨h.stays hb, h'.stays hb⟩
  · rw [definedInAll]
    exact forall_mem_append.mpr ⟨h.complete, h'.complete⟩
  · have hlast := h.last
    rw [lastAssigns, getLast?_append, Option.map_or, ← lastAssigns, ← lastAssigns, h'.last, hlast]
    cases body with
    | nil => rfl
    | cons st' rest => simp [getLast?_cons]

theorem returns_mem (h : st ∈ body) (hr : .returns ∈ notesBy st) : .returns ∈ notesByAll body := by
  induction body with
  | nil => cases h
  | cons st' rest ih =>
    rw [notesByAll, mem_append]
    rcases mem_cons.mp h with rfl | h
    · exact .inl hr
    · exact .inr (ih h)

theorem AcceptedAll.ends {t : Term} (h : AcceptedAll b body cs)
    (ht : Returns (finish none (groups cs)) o s t s') : Ends body := by
  have hlast := finish_none ht
  rw [lastAssigns_groups, h.last, Option.map_eq_some_iff] at hlast
  obtain ⟨st, hst, hvalue⟩ := hlast
  rw [Ends, h.exits]
  by_cases hret : .returns ∈ notesByAll body
  · exact .inl (by simp [hret])
  · have hnot : .returns ∉ notesBy st := fun h => hret (returns_mem (mem_of_getLast? hst) h)
    exact .inr ⟨by simp [hret], st, hst, by simpa [hasValue, hnot] using hvalue⟩

end DiffLang.Reading
