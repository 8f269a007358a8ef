import ProbeLang.Proofs.Unrolling

/-! # Building in place

    What a visit adds is worked out apart from the clauses that the builder has.  A
    builder can also work on the end of its own list (`Blocks.buildAll`): it adds one
    clause after the other, and for a loop it remembers how long the list was, builds the
    body once, and then copies all that has come since, or cuts the list back to its old
    length if the loop never runs.

    Loops inside loops copy and cut while the outer one is being built, but none of them
    reaches back behind the point where it began.  So the two ways to build come to the
    same (`Blocks.buildAll_eq`).

    A visit thus only appends, whatever has been built before.  Two visits are one visit of
    both lists just when no run of plain statements goes on from the first list to the
    second (`Stmt.Apart`): a run that is cut in two gives two blocks. -/

namespace ProbeLang

/-! ## What is emitted, one after the other -/

namespace Emitted

/-- What is emitted first, and then the rest. -/
def append (a c : Emitted) : Emitted := ⟨a.clauses ++ c.clauses, c.allocated, a.events ++ c.events⟩

end Emitted

namespace Blocks

/-- The builder with what was emitted for it. -/
def add (b : Blocks) (a : Emitted) : Blocks :=
  { b with
    conditions := a.allocated
    clauses := b.clauses ++ a.clauses
    events := b.events ++ a.events }

@[simp] theorem probes_add (b : Blocks) (a : Emitted) : (b.add a).probes = b.probes := rfl

@[simp] theorem conditions_add (b : Blocks) (a : Emitted) :
    (b.add a).conditions = a.allocated := rfl

/-- What is added in two steps is added at once. -/
theorem add_add (b : Blocks) (a c : Emitted) : (b.add a).add c = b.add (a.append c) := by
  simp only [add, Emitted.append, List.append_assoc]

/-- A visit adds what the statements are split into. -/
theorem visit_eq_add (b : Blocks) (stmts : List Stmt) (around : Option ConditionId) :
    b.visit stmts around = b.add (Emitted.ofStmts b.probes stmts [] around b.conditions) := rfl

/-! ## Working on one list -/

/-- Adds a clause. -/
def push (b : Blocks) (k : Clause) : Blocks := { b with clauses := b.clauses ++ [k] }

/-- Adds the block of the statements in `pending`, if there are any. -/
def flush (b : Blocks) (pending : List Stmt) (around : Option ConditionId) : Blocks :=
  match pending with
  | [] => b
  | s :: _ => b.push (Clause.block b.probes around (0 < b.conditions) pending s.span)

/-- Adds the clauses of `group`, `count` times. -/
def extend (group : List Clause) : Nat → Blocks → Blocks
  | 0, b => b
  | count + 1, b => extend group count { b with clauses := b.clauses ++ group }

/-- Makes `count` copies of what has come after the first `mark` clauses. -/
def repeatFrom (b : Blocks) (mark count : Nat) : Blocks :=
  match count with
  | 0 => { b with clauses := b.clauses.take mark }
  | more + 1 => extend (b.clauses.drop mark) more b

/-- Ends a loop: its test and its body have been built once after the first `mark` clauses. -/
def endLoop (b : Blocks) (mark : Nat) (going : ConditionId) (maxIter : UInt32) : Blocks :=
  let done := b.repeatFrom mark maxIter.toNat
  { done with
    events := done.events ++ [.loopUnrolled going maxIter (done.clauses.length - mark)] }

mutual
/-- Adds the clauses of a statement. -/
def build (b : Blocks) (stmt : Stmt) (around : Option ConditionId) : Blocks :=
  match stmt with
  | .expr e => b.flush [.expr e] around
  | .branch cond onTrue onFalse s =>
      let taken := b.newCondition cond around s
      let a := taken.2.buildAll onTrue [] (some taken.1)
      if onFalse.isEmpty then a
      else
        let otherwise := a.newCondition ((Guard.condition taken.1 s).not s) around s
        otherwise.2.buildAll onFalse [] (some otherwise.1)
  | .loop cond maxIter body s =>
      let going := b.newCondition (.int 1 s) around s
      let test := Clause.setCondition b.probes (some going.1) going.1 cond s
      let once := (going.2.push test).buildAll body [] (some going.1)
      once.endLoop going.2.clauses.length going.1 maxIter

/-- Adds the clauses of the statements of a list.  The plain statements in `pending` come
    right before it. -/
def buildAll (b : Blocks) (stmts pending : List Stmt) (around : Option ConditionId) : Blocks :=
  match stmts with
  | [] => b.flush pending around
  | stmt :: rest =>
      if stmt.isStructured then ((b.flush pending around).build stmt around).buildAll rest [] around
      else b.buildAll rest (pending ++ [stmt]) around
end

/-! ## The two ways to build -/

/-- A flush adds the pending block, or nothing. -/
theorem flush_eq (b : Blocks) (pending : List Stmt) (around : Option ConditionId) :
    b.flush pending around =
      b.add ⟨Emitted.block b.probes around b.conditions pending, b.conditions, []⟩ := by
  cases pending with
  | nil => simp [flush, add, Emitted.block]
  | cons s more => simp [flush, push, add, Emitted.block]

/-- A new condition adds the clause that works it out. -/
theorem newCondition_eq (b : Blocks) (value : Expr) (around : Option ConditionId) (s : Span) :
    b.newCondition value around s =
      (.after b.conditions, b.add
        ⟨[Clause.setCondition b.probes around (.after b.conditions) value s],
          b.conditions + 1, []⟩) := by
  simp [newCondition, allocate, add]

theorem push_eq (b : Blocks) (k : Clause) : b.push k = b.add ⟨[k], b.conditions, []⟩ := by
  simp [push, add]

/-- A loop's clauses are put behind the others again and again. -/
theorem extend_eq (group : List Clause) (count : Nat) (b : Blocks) :
    extend group count b =
      { b with clauses := b.clauses ++ (List.replicate count group).flatten } := by
  induction count generalizing b with
  | zero => simp [extend]
  | succ count ih =>
      rw [extend, ih, List.replicate_succ, List.flatten_cons, List.append_assoc]

/-- From the mark on, a list is what has been added since, and before it nothing changes. -/
theorem repeatFrom_add (b : Blocks) (a : Emitted) (count : Nat) :
    (b.add a).repeatFrom b.clauses.length count =
      b.add ⟨(List.replicate count a.clauses).flatten, a.allocated, a.events⟩ := by
  cases count with
  | zero => simp [repeatFrom, add]
  | succ more =>
      have hgroup : (b.add a).clauses.drop b.clauses.length = a.clauses := by simp [add]
      rw [repeatFrom, hgroup, extend_eq, List.replicate_succ, List.flatten_cons]
      simp only [add, List.append_assoc]

/-- Cutting the clauses off at the mark and putting copies back is the unrolling of what
    was added since, the case of no copy included. -/
theorem endLoop_add (b : Blocks) (a : Emitted) (going : ConditionId) (maxIter : UInt32) :
    (b.add a).endLoop b.clauses.length going maxIter =
      b.add ⟨(List.replicate maxIter.toNat a.clauses).flatten, a.allocated, a.events ++
        [.loopUnrolled going maxIter (List.replicate maxIter.toNat a.clauses).flatten.length]⟩ := by
  rw [endLoop, repeatFrom_add]
  simp [add]

mutual
/-- To build a statement in place adds what it is split into. -/
theorem build_eq : ∀ (stmt : Stmt) (around : Option ConditionId) (b : Blocks),
    b.build stmt around = b.add (Emitted.ofStmt b.probes stmt around b.conditions)
  | .expr e, around, b => flush_eq b [.expr e] around
  | .branch cond onTrue onFalse s, around, b => by
      rw [build, Emitted.ofStmt]
      simp only [newCondition_eq, buildAll_eq onTrue, buildAll_eq onFalse, add_add, probes_add,
        conditions_add, Emitted.append]
      split <;> simp
  | .loop cond maxIter body s, around, b => by
      rw [build, Emitted.ofStmt]
      simp only [newCondition_eq]
      -- what comes after the mark is the test and what the body adds
      rw [push_eq, buildAll_eq body, add_add, endLoop_add, add_add]
      simp only [probes_add, conditions_add, Emitted.append, List.singleton_append,
        List.nil_append]

/-- To build statements in place adds what they are split into. -/
theorem buildAll_eq : ∀ (stmts pending : List Stmt) (around : Option ConditionId) (b : Blocks),
    b.buildAll stmts pending around =
      b.add (Emitted.ofStmts b.probes stmts pending around b.conditions)
  | [], pending, around, b => flush_eq b pending around
  | stmt :: rest, pending, around, b => by
      rw [buildAll, Emitted.ofStmts]
      split
      · rw [flush_eq, build_eq stmt, buildAll_eq rest]
        simp only [add_add, probes_add, conditions_add, Emitted.append, List.append_assoc,
          List.nil_append]
      · exact buildAll_eq rest (pending ++ [stmt]) around b
end

end Blocks

/-! ## Two visits and one -/

/-- No run of plain statements goes on from one list to the other: the first one is empty
    or ends with a branch or a loop, or the second one is empty or begins with one. -/
def Stmt.Apart (xs ys : List Stmt) : Prop :=
  (∀ x ∈ xs.getLast?, x.isStructured = true) ∨ ∀ y ∈ ys.head?, y.isStructured = true

namespace Emitted

variable {probes : List Probe} {xs ys pending : List Stmt}

/-- Plain statements that are pending are a block of their own before what ends a run. -/
theorem ofStmts_of_endsRun (hys : EndsRun ys) (pending : List Stmt) (around : Option ConditionId)
    (n : Nat) :
    ofStmts probes ys pending around n =
      append ⟨block probes around n pending, n, []⟩ (ofStmts probes ys [] around n) := by
  cases ys with
  | nil => simp [ofStmts, append, block]
  | cons y ys =>
      have hy : y.isStructured = true := hys y rfl
      simp [ofStmts, hy, append, block]

/-- Statements are split list by list if their lists are apart. -/
theorem ofStmts_append (probes : List Probe) (hpending : ∀ x ∈ pending, x.isStructured = false)
    (h : Stmt.Apart (pending ++ xs) ys) (around : Option ConditionId) (n : Nat) :
    ofStmts probes (xs ++ ys) pending around n =
      (ofStmts probes xs pending around n).append
        (ofStmts probes ys [] around (ofStmts probes xs pending around n).allocated) := by
  induction xs generalizing pending n with
  | nil =>
      rw [List.append_nil] at h
      rcases h with hlast | hfirst
      · -- the last statement that is pending is plain, so there is none
        have hnone : pending = [] := by
          cases hp : pending.getLast? with
          | none => exact List.getLast?_eq_none_iff.mp hp
          | some x =>
              have hplain := hpending x (List.mem_of_getLast? hp)
              rw [hlast x hp] at hplain
              cases hplain
        rw [hnone]
        rfl
      · exact ofStmts_of_endsRun hfirst pending around n
  | cons x xs ih =>
      rw [List.cons_append, ofStmts, ofStmts]
      by_cases hx : x.isStructured = true
      · have hrest : Stmt.Apart ([] ++ xs) ys := by
          refine h.imp_left ?_
          intro hlast z hz
          have hxs : xs.getLast? = some z := hz
          refine hlast z ?_
          rw [List.append_cons, List.getLast?_append, hxs]
          rfl
        rw [if_pos hx, if_pos hx]
        dsimp only
        rw [ih (List.forall_mem_nil _) hrest]
        simp only [append, List.append_assoc]
      · have hplain : ∀ z ∈ pending ++ [x], z.isStructured = false := by
          intro z hz
          rcases List.mem_append.mp hz with hz | hz
          · exact hpending z hz
          · rw [List.mem_singleton.mp hz]
            exact Bool.eq_false_iff.mpr hx
        rw [if_neg hx, if_neg hx]
        refine ih hplain ?_ n
        rw [← List.append_cons]
        exact h

end Emitted

/-- A run that is cut in two counts twice. -/
theorem Stmt.clauseCountAll_cut (xs : List Stmt) (e f : Expr) (ys : List Stmt) :
    clauseCountAll (xs ++ [expr e] ++ expr f :: ys) + 1 =
      clauseCountAll (xs ++ [expr e]) + clauseCountAll (expr f :: ys) := by
  induction xs with
  | nil =>
      have hone : clauseCountAll [expr e] = 1 := rfl
      have hjoin : clauseCountAll (expr e :: expr f :: ys) = clauseCountAll (expr f :: ys) := by
        rw [clauseCountAll]
        rfl
      rw [List.nil_append, List.singleton_append, hjoin, hone]
      omega
  | cons x xs ih =>
      have hjoins : x.joins (xs ++ [expr e] ++ expr f :: ys) = x.joins (xs ++ [expr e]) := by
        cases xs <;> rfl
      rw [List.cons_append, List.cons_append, clauseCountAll, clauseCountAll, hjoins]
      by_cases hx : x.joins (xs ++ [expr e]) = true
      · rw [if_pos hx, if_pos hx]
        exact ih
      · rw [if_neg hx, if_neg hx]
        omega

namespace Blocks

/-- A visit adds as many clauses as its statements are counted to have. -/
theorem length_visit (b : Blocks) (stmts : List Stmt) (around : Option ConditionId) :
    (b.visit stmts around).clauses.length = b.clauses.length + Stmt.clauseCountAll stmts := by
  show (b.clauses ++ _).length = _
  rw [List.length_append, (Emitted.splits_ofStmts b.probes stmts around b.conditions).length_eq]

/-- Two visits come to one just when their lists are apart. -/
theorem visit_append_iff (b : Blocks) (xs ys : List Stmt) (around : Option ConditionId) :
    b.visit (xs ++ ys) around = (b.visit xs around).visit ys around ↔ Stmt.Apart xs ys := by
  constructor
  · intro hvisit
    have hlength := congrArg (fun b => b.clauses.length) hvisit
    simp only [length_visit] at hlength
    by_contra hcut
    simp only [Stmt.Apart, not_or, not_forall] at hcut
    obtain ⟨⟨x, hx, hplain⟩, ⟨y, hy, hplain'⟩⟩ := hcut
    obtain ⟨before, rfl⟩ := List.getLast?_eq_some_iff.mp hx
    obtain ⟨after, rfl⟩ := List.head?_eq_some_iff.mp hy
    cases x with
    | expr e =>
        cases y with
        | expr f =>
            have hcount := Stmt.clauseCountAll_cut before e f after
            omega
        | _ => exact hplain' rfl
    | _ => exact hplain rfl
  · intro hapart
    have hsplit := Emitted.ofStmts_append b.probes (List.forall_mem_nil _) hapart around
      b.conditions
    rw [visit_eq_add, visit_eq_add, visit_eq_add, hsplit, add_add]
    rfl

/-- A visit only appends.  Whatever clauses and log a builder has, the same clauses come
    after them and the same number of conditions is used up, for given probes, conditions
    used up before, statements and condition around them; also if the builder works in
    place, and copies and cuts its list.  Visits of two lists, one after the other, come to
    one visit of both, if the lists are apart and in no other case. -/
theorem visit_appends (probes : List Probe) (n : Nat) (stmts : List Stmt)
    (around : Option ConditionId) :
    (∃ added m log, ∀ clauses events,
      let b : Blocks := ⟨probes, n, clauses, events⟩
      let after : Blocks := ⟨probes, m, clauses ++ added, events ++ log⟩
      b.visit stmts around = after ∧ b.buildAll stmts [] around = after) ∧
    ∀ (b : Blocks) (rest : List Stmt),
      b.visit (stmts ++ rest) around = (b.visit stmts around).visit rest around ↔
        Stmt.Apart stmts rest := by
  refine ⟨?_, fun b rest => visit_append_iff b stmts rest around⟩
  let a := Emitted.ofStmts probes stmts [] around n
  refine ⟨a.clauses, a.allocated, a.events, ?_⟩
  intro clauses events b after
  have hvisit : b.visit stmts around = after := rfl
  refine ⟨hvisit, ?_⟩
  rw [buildAll_eq, ← visit_eq_add]
  exact hvisit

end Blocks

end ProbeLang
