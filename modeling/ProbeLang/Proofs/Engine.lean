import ProbeLang.Expansion.Guard
import ProbeLang.Proofs.Semantics

/-! # How the engine runs the clauses of an expansion

    One lemma for each kind of clause, so that nothing else needs to look into the
    engine: what a clause that works out a condition does, and what a block does,
    with the error flag up and with it down, under a condition that holds and under
    one that does not. -/

namespace ProbeLang

variable {S : Type}

/-! ## Cells -/

namespace Machine

variable {m : Machine S} {depth : Nat} {a b : Slot} {v : Int}

/-- A cell that has been written holds what was written. -/
@[simp] theorem slots_write_self (m : Machine S) (c : Cell) (v : Int) :
    (m.write c v).slots c = v := by
  simp [write]

/-- Frame: a write leaves every other cell as it was. -/
theorem slots_write_of_ne {c x : Cell} (h : x ≠ c) : (m.write c v).slots x = m.slots x := by
  simp [write, h]

/-- The value of the error flag. -/
def flag (m : Machine S) : Int := m.read 0 .error

/-- The value of a condition. -/
def condition (m : Machine S) (id : ConditionId) : Int := m.read 0 (.condition id)

/-- Puts a value into a condition. -/
def setCondition (m : Machine S) (id : ConditionId) (v : Int) : Machine S :=
  m.write ((Slot.condition id).cell 0) v

/-- The state with another state of the script. -/
def withUser (m : Machine S) (σ : S) : Machine S := { m with user := σ }

/-- No cell differs except those of the conditions after the first `n`. -/
def AgreesUpTo (n : Nat) (m m' : Machine S) : Prop :=
  ∀ c, (∀ id : ConditionId, n < id.index → c ≠ (Slot.condition id).cell 0) →
    m'.slots c = m.slots c

/-- Nothing has happened, so nothing differs. -/
theorem AgreesUpTo.refl (n : Nat) (m : Machine S) : AgreesUpTo n m m := fun _ _ => rfl

/-- Stretches of a run compose: the conditions that may change stay the same ones. -/
theorem AgreesUpTo.trans {n : Nat} {m m' m'' : Machine S} (h : AgreesUpTo n m m')
    (h' : AgreesUpTo n m' m'') : AgreesUpTo n m m'' :=
  fun c hc => (h' c hc).trans (h c hc)

/-- What keeps more conditions keeps fewer; an inner stretch of a run is weakened to the
    bound of the outer one. -/
theorem AgreesUpTo.mono {n n' : Nat} {m m' : Machine S} (hn : n ≤ n')
    (h : AgreesUpTo n' m m') : AgreesUpTo n m m' :=
  fun c hc => h c fun id hid => hc id (Nat.lt_of_le_of_lt hn hid)

/-- A condition that is handed out later is not among the first `n`. -/
theorem agreesUpTo_setCondition {n : Nat} {id : ConditionId} (hid : n < id.index) :
    AgreesUpTo n m (m.setCondition id v) :=
  fun _ hc => slots_write_of_ne (hc id hid)

/-- The error flag is no condition, so it is kept. -/
theorem AgreesUpTo.flag {n : Nat} {m m' : Machine S} (h : AgreesUpTo n m m') :
    m'.flag = m.flag :=
  h _ fun _ _ heq => Slot.noConfusion (Slot.cell_injective heq)

/-- The conditions handed out before are kept: what stands under one of them sees the
    verdict it was worked out with. -/
theorem AgreesUpTo.condition {n : Nat} {m m' : Machine S} (h : AgreesUpTo n m m')
    {id : ConditionId} (hid : id.index ≤ n) : m'.condition id = m.condition id := by
  refine h _ fun id' hid' heq => ?_
  obtain rfl : id = id' := Slot.condition.inj (Slot.cell_injective heq)
  exact absurd hid (Nat.not_le_of_lt hid')

@[simp] theorem condition_setCondition (m : Machine S) (id : ConditionId) (v : Int) :
    (m.setCondition id v).condition id = v :=
  slots_write_self m _ v

@[simp] theorem flag_setCondition (m : Machine S) (id : ConditionId) (v : Int) :
    (m.setCondition id v).flag = m.flag :=
  slots_write_of_ne fun heq => Slot.noConfusion (Slot.cell_injective heq)

@[simp] theorem flag_raise (m : Machine S) : m.raise.flag = 1 := slots_write_self m _ 1

@[simp] theorem user_raise (m : Machine S) : m.raise.user = m.user := rfl

/-- Whether the condition around a piece of a clause holds; outside of all conditions
    nothing is in the way. -/
def Under (m : Machine S) (around : Option ConditionId) : Prop :=
  ∀ id, around = some id → m.condition id ≠ 0

/-- A stretch of a run that only touches later conditions leaves a piece under the
    condition it was under. -/
theorem Under.of_agreesUpTo {n : Nat} {m m' : Machine S} {around : Option ConditionId}
    (hm : m.Under around) (hn : ∀ id, around = some id → id.index ≤ n)
    (h : AgreesUpTo n m m') : m'.Under around := by
  intro id hid
  rw [h.condition (hn id hid)]
  exact hm id hid

/-- Just after a condition has come out true, what stands under it is to run. -/
theorem under_setCondition (m : Machine S) {id : ConditionId} {v : Int} (hv : v ≠ 0) :
    (m.setCondition id v).Under (some id) := by
  intro id' hid'
  obtain rfl := Option.some.inj hid'
  rwa [condition_setCondition]

end Machine

/-! ## Tests on slots -/

namespace Slot

/-- A reference to a slot, as expansion writes it, is recognised as such, and at the
    current depth of the stack. -/
theorem cell?_expr (slot : Slot) (s : Span) (depth : Nat) :
    (slot.expr s).cell? depth = some (slot.cell depth) := by
  cases slot <;>
    simp [expr, storage, Expr.scopeVar, Expr.ptr, Expr.cell?, Expr.slotRef?, cell]

/-- A reference to a slot is a test that needs no code of the script: the engine
    compares the cell with zero. -/
theorem stored?_expr (slot : Slot) (s : Span) (depth : Nat) (slots : Store) :
    (slot.expr s).stored? depth slots = some (slots (slot.cell depth) != 0) := by
  have h : (slot.expr s).stored? depth slots =
      ((slot.expr s).cell? depth).map fun c => slots c != 0 := by
    cases slot <;> rfl
  rw [h, cell?_expr]
  rfl

end Slot

namespace Engine

variable (E : Engine S) {m : Machine S} {probes : List Probe} {around : Option ConditionId}
  {id : ConditionId} {s : Span}

/-- A test on slots alone changes nothing. -/
theorem check_of_stored {e : Expr} {b : Bool} (h : e.stored? E.depth m.slots = some b) :
    E.check e m = (m, .ofBool b) := by
  cases e with
  | int n s => cases h
  | _ =>
      unfold check
      simp only [h]

/-- The test of a condition looks at its cell and changes nothing. -/
theorem check_condition (m : Machine S) (id : ConditionId) (s : Span) :
    E.check (Guard.condition id s) m = (m, .ofBool (m.condition id != 0)) :=
  E.check_of_stored ((Slot.condition id).stored?_expr s E.depth m.slots)

/-- The test of an `else` branch is true exactly if the condition of the branch is zero. -/
theorem check_not_condition (m : Machine S) (id : ConditionId) (s : Span) :
    E.check ((Guard.condition id s).not s) m = (m, .ofBool (m.condition id == 0)) := by
  refine E.check_of_stored ?_
  show (((Slot.condition id).expr s).stored? E.depth m.slots).map (!·) = _
  rw [Slot.stored?_expr, Option.map_some, bne, Bool.not_not]
  rfl

private theorem stored?_noError (m : Machine S) (s : Span) :
    (Guard.noError s).stored? E.depth m.slots = some (m.flag == 0) := by
  show ((Slot.error.expr s).stored? E.depth m.slots).map (!·) = _
  rw [Slot.stored?_expr, Option.map_some, bne, Bool.not_not]
  rfl

/-- The guard of every clause behind the first condition: the error flag is down. -/
theorem check_noError (m : Machine S) (s : Span) :
    E.check (Guard.noError s) m = (m, .ofBool (m.flag == 0)) :=
  E.check_of_stored (E.stored?_noError m s)

/-- The guard of a block under a condition: the flag is down and the condition holds. -/
theorem check_guard (m : Machine S) (id : ConditionId) (s : Span) :
    E.check ((Guard.noError s).and (Guard.condition id s) s) m =
      (m, .ofBool (m.flag == 0 && m.condition id != 0)) := by
  refine E.check_of_stored ?_
  have hcond : (Guard.condition id s).stored? E.depth m.slots = some (m.condition id != 0) :=
    Slot.stored?_expr (.condition id) s E.depth m.slots
  rw [Expr.and, Expr.stored?, E.stored?_noError, hcond]

/-- What is joined to a test for the piece around it holds where that piece runs. -/
theorem check_ambient_holds (h : m.Under around) (s : Span) :
    E.check (Guard.ambient around s) m = (m, .holds) := by
  cases around with
  | none => rfl
  | some id =>
      rw [show Guard.ambient (some id) s = Guard.condition id s from rfl, check_condition,
        bne_iff_ne.mpr (h id rfl)]
      rfl

/-- It fails under a condition that does not hold, so the test behind it is not made. -/
theorem check_ambient_fails (h : m.condition id = 0) (s : Span) :
    E.check (Guard.ambient (some id) s) m = (m, .fails) := by
  rw [show Guard.ambient (some id) s = Guard.condition id s from rfl, check_condition, h]
  rfl

/-! ## Clauses that work out a condition -/

/-- Puts what a test has found into a condition. -/
def conclude (id : ConditionId) (a : Machine S × Verdict) : Machine S :=
  match a with
  | (m, .holds) => m.setCondition id 1
  | (m, .fails) => m.setCondition id 0
  | (m, .fault) => m.raise

/-- An assignment to a slot. -/
theorem perform_assign (slot : Slot) (e : Expr) (s : Span) (m : Machine S) :
    E.perform ((slot.expr s).assign e s) m =
      match E.value e m with
      | (m, some v) => (m.write (slot.cell E.depth) v, .done)
      | (m, none) => (m, .fault) := by
  unfold perform Expr.assign
  rcases hvalue : E.value e m with ⟨m', _ | v⟩ <;> simp only [Slot.cell?_expr, hvalue]

variable {e : Expr}

/-- With the error flag up, a clause that works out a condition is skipped. -/
theorem runClause_setCondition_of_flag (h : m.flag ≠ 0) :
    E.runClause (Clause.setCondition probes around id e s) m = m := by
  show settle (Verdict.choose (E.check (Guard.noError s) m) _ _) = m
  rw [check_noError, beq_false_of_ne h]
  rfl

/-- With the flag down, the condition around comes first and then the test, with the
    verdict of both kept; a fault raises the flag. -/
theorem runClause_setCondition_eq (h : m.flag = 0) :
    E.runClause (Clause.setCondition probes around id e s) m =
      conclude id (E.both (Guard.ambient around s) e m) := by
  show settle (Verdict.choose (E.check (Guard.noError s) m) _ _) = _
  rw [check_noError, h]
  show settle (Outcome.andThen
    (E.perform (((Slot.condition id).expr s).assign ((Guard.ambient around s).and e s) s) m)
    (E.performAll [])) = _
  rw [perform_assign]
  unfold Engine.value Expr.and
  rcases h : E.both (Guard.ambient around s) e m with ⟨m', _ | _ | _⟩ <;> simp only [h] <;> rfl

/-- Under a condition that holds, the test is made and its verdict kept. -/
theorem runClause_setCondition (h : m.flag = 0) (hu : m.Under around) :
    E.runClause (Clause.setCondition probes around id e s) m =
      conclude id (E.check e m) := by
  rw [E.runClause_setCondition_eq h, both, E.check_ambient_holds hu]

/-- Under a condition that does not hold, no test is made. -/
theorem runClause_setCondition_idle {outer : ConditionId} (h : m.flag = 0)
    (ho : m.condition outer = 0) :
    E.runClause (Clause.setCondition probes (some outer) id e s) m =
      m.setCondition id 0 := by
  rw [E.runClause_setCondition_eq h, both, E.check_ambient_fails ho]
  rfl

/-! ## Blocks -/

variable {anyBefore : Bool} {stmts : List Stmt}

/-- With the error flag up, a block is skipped; a block outside of all conditions needs
    one of them to have been worked out before it, or it has no guard. -/
theorem runClause_block_of_flag (h : m.flag ≠ 0) (hg : around = none → anyBefore = true) :
    E.runClause (Clause.block probes around anyBefore stmts s) m = m := by
  cases around with
  | some id =>
      show settle (Verdict.choose (E.check ((Guard.noError s).and (Guard.condition id s) s) m)
        _ _) = m
      rw [check_guard, beq_false_of_ne h]
      rfl
  | none =>
      rw [hg rfl]
      show settle (Verdict.choose (E.check (Guard.noError s) m) _ _) = m
      rw [check_noError, beq_false_of_ne h]
      rfl

/-- Under a condition that does not hold, a block is skipped, whatever the flag. -/
theorem runClause_block_idle (h : m.condition id = 0) :
    E.runClause (Clause.block probes (some id) anyBefore stmts s) m = m := by
  show settle (Verdict.choose (E.check ((Guard.noError s).and (Guard.condition id s) s) m)
    _ _) = m
  rw [check_guard, h, show ((0 : Int) != 0) = false from rfl, Bool.and_false]
  rfl

/-- With the flag down and under a condition that holds, a block runs its statements,
    and a fault in them raises the flag. -/
theorem runClause_block (h : m.flag = 0) (hu : m.Under around) :
    E.runClause (Clause.block probes around anyBefore stmts s) m =
      settle (E.performAll stmts m) := by
  cases around with
  | some id =>
      show settle (Verdict.choose (E.check ((Guard.noError s).and (Guard.condition id s) s) m)
        _ _) = _
      rw [check_guard, h, bne_iff_ne.mpr (hu id rfl)]
      rfl
  | none =>
      cases anyBefore with
      | false => rfl
      | true =>
          show settle (Verdict.choose (E.check (Guard.noError s) m) _ _) = _
          rw [check_noError, h]
          rfl

/-! ## The flag -/

private theorem runClause_assign_int (slot : Slot) (n : UInt64) (m : Machine S) :
    E.runClause ⟨probes, none, [.expr ((slot.expr s).assign (.int n s) s)], s⟩ m =
      m.write (slot.cell E.depth) n.toNat := by
  show settle (Outcome.andThen (E.perform ((slot.expr s).assign (.int n s) s) m)
    (E.performAll [])) = _
  rw [perform_assign]
  rfl

/-- The clause that opens an expansion takes the flag down. -/
@[simp] theorem runClause_clearError (m : Machine S) :
    E.runClause (Clause.clearError probes s) m = m.write (Slot.error.cell 0) 0 :=
  E.runClause_assign_int .error 0 m

/-- The handler puts the flag up. -/
@[simp] theorem runClause_errorHandler (probe : Probe) (m : Machine S) :
    E.runClause (Clause.errorHandler probe s) m = m.raise :=
  E.runClause_assign_int .error 1 m

end Engine

/-! ## Code without slots -/

namespace Expr

variable {e : Expr}

/-- Code of the script speaks of no slot, since it has no reserved name. -/
theorem slotRef?_eq_none (h : e.Unreserved) : e.slotRef? = none := by
  unfold slotRef?
  split
  · rename_i scope s name s' s''
    have hname := h (ident name s') (mem_nodes_of_mem_parts (p := ident name s')
      (by simp [parts]) (self_mem_nodes _))
    have hfree : Slot.isReserved name = false := by
      simpa [reservedName?, identName?, Option.filter] using hname
    rw [hfree]
    rfl
  · rfl

/-- So it assigns to none. -/
theorem cell?_eq_none (h : e.Unreserved) (depth : Nat) : e.cell? depth = none := by
  unfold cell?
  split
  · rename_i base s s'
    rw [slotRef?_eq_none (h.of_mem_parts (p := base) (by simp [parts]))]
    rfl
  · rw [slotRef?_eq_none h]
    rfl

/-- And its tests are none that the engine answers from the slots alone. -/
theorem stored?_eq_none (h : e.Unreserved) (depth : Nat) (slots : Store) :
    e.stored? depth slots = none := by
  fun_induction stored? depth slots e with
  | case1 a s ih =>
      rw [ih (h.of_mem_parts (by simp [parts]))]
      rfl
  | case2 a b s x y hy hx iha ihb =>
      rw [iha (h.of_mem_parts (by simp [parts]))] at hx
      cases hx
  | case3 => rfl
  | case4 e =>
      rw [cell?_eq_none h]
      rfl

end Expr

namespace Engine

variable {E : Engine S} {F : Firing S} {e : Expr}

/-- A test of the source is made as it is written. -/
theorem check_source (hE : E.Speaks F) (he : e.Unreserved) (m : Machine S) :
    E.check e m = (m.withUser (F.check e m.user).1, (F.check e m.user).2) := by
  cases e with
  | int n s => rfl
  | _ =>
      unfold check
      simp only [Expr.stored?_eq_none he, hE.test _ he]
      rfl

private theorem code_source (hE : E.Speaks F) (he : e.Unreserved) (m : Machine S) :
    E.code e m = (m.withUser (F.act e m.user).1, (F.act e m.user).2) := by
  unfold code
  simp only [hE.act e he]
  rfl

/-- A statement of the source is run as it is written. -/
theorem perform_source (hE : E.Speaks F) (he : e.Unreserved) (m : Machine S) :
    E.perform e m = (m.withUser (F.act e m.user).1, (F.act e m.user).2) := by
  unfold perform
  split
  · rw [Expr.cell?_eq_none (he.of_mem_parts (by simp [Expr.parts]))]
    exact code_source hE he m
  · rw [Expr.cell?_eq_none (he.of_mem_parts (by simp [Expr.parts]))]
    exact code_source hE he m
  · rw [Expr.cell?_eq_none (he.of_mem_parts (by simp [Expr.parts]))]
    exact code_source hE he m
  · exact code_source hE he m

/-- A run of statements of the source has the effect and the outcome that it has in the
    source, and leaves the slots alone. -/
theorem performAll_source (hE : E.Speaks F) {stmts : List Stmt}
    (hstmts : ∀ stmt ∈ stmts, ∃ e : Expr, e.Unreserved ∧ stmt = .expr e) (m : Machine S) :
    E.performAll stmts m =
      (m.withUser (F.runStmts stmts m.user).1, (F.runStmts stmts m.user).2) := by
  induction stmts generalizing m with
  | nil => rfl
  | cons stmt stmts ih =>
      obtain ⟨e, he, rfl⟩ := hstmts stmt List.mem_cons_self
      have hrest := ih fun x hx => hstmts x (List.mem_cons_of_mem _ hx)
      rw [performAll, perform_source hE he, Firing.runStmts_cons, Firing.runStmt]
      rcases F.act e m.user with ⟨σ, _ | _⟩
      · exact hrest (m.withUser σ)
      · rfl

end Engine

end ProbeLang
