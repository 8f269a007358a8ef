import ProbeLang.Expansion.Guard
import ProbeLang.Expansion.Report

/-! # Splitting statements into blocks

    A list of statements is cut at its branches and loops into blocks without
    either, and comes out as a flat list of clauses:

    - a run of plain statements is one block;
    - `if (t) A else B` is the test `t`, the clauses of `A` under it, and, if there
      is an `else`, the test that `t` did not hold and the clauses of `B` under that;
    - `while<n> (t) A` is a condition that starts out true and `n` copies of the
      test `t`, which can only make it false, with the clauses of `A` under it.

    What comes out depends on the clauses before it only through the number of
    conditions that they have used up.  That number is counted exactly, while the
    conditions themselves are kept in 32-bit words that count up by the addition of
    words (`Blocks.word_allocate`).  The number and the word of the last condition are
    the same as long as there are fewer than `2 ^ 32` conditions. -/

namespace ProbeLang

/-- What the statements of a list turn into: the clauses, the number of conditions
    used up with them, and the log. -/
structure Emitted where
  clauses : List Clause
  allocated : Nat
  events : List Event

namespace Emitted

/-- The block of the statements in `pending`, if there are any. -/
def block (probes : List Probe) (around : Option ConditionId) (allocated : Nat)
    (pending : List Stmt) : List Clause :=
  match pending with
  | [] => []
  | s :: _ => [Clause.block probes around (0 < allocated) pending s.span]

mutual
/-- Splits one statement, with `n` conditions used up before it. -/
def ofStmt (probes : List Probe) (stmt : Stmt) (around : Option ConditionId) (n : Nat) :
    Emitted :=
  match stmt with
  | .expr e => ⟨block probes around n [.expr e], n, []⟩
  | .branch cond onTrue onFalse s =>
      let taken := ConditionId.after n
      let a := ofStmts probes onTrue [] (some taken) (n + 1)
      let test := Clause.setCondition probes around taken cond s
      if onFalse.isEmpty then ⟨test :: a.clauses, a.allocated, a.events⟩
      else
        let otherwise := ConditionId.after a.allocated
        let b := ofStmts probes onFalse [] (some otherwise) (a.allocated + 1)
        let notTaken :=
          Clause.setCondition probes around otherwise ((Guard.condition taken s).not s) s
        ⟨test :: (a.clauses ++ notTaken :: b.clauses), b.allocated, a.events ++ b.events⟩
  | .loop cond maxIter body s =>
      let going := ConditionId.after n
      let a := ofStmts probes body [] (some going) (n + 1)
      let start := Clause.setCondition probes around going (.int 1 s) s
      let test := Clause.setCondition probes (some going) going cond s
      let copies := (List.replicate maxIter.toNat (test :: a.clauses)).flatten
      ⟨start :: copies, a.allocated,
        a.events ++ [.loopUnrolled going maxIter copies.length]⟩

/-- Splits a list of statements, with `n` conditions used up before it.  The plain
    statements in `pending` come right before the list. -/
def ofStmts (probes : List Probe) (stmts pending : List Stmt) (around : Option ConditionId)
    (n : Nat) : Emitted :=
  match stmts with
  | [] => ⟨block probes around n pending, n, []⟩
  | s :: rest =>
      if s.isStructured then
        let a := ofStmt probes s around n
        let b := ofStmts probes rest [] around a.allocated
        ⟨block probes around n pending ++ a.clauses ++ b.clauses, b.allocated,
          a.events ++ b.events⟩
      else ofStmts probes rest (pending ++ [s]) around n
end

end Emitted

/-- Clauses under construction, all at the same probes. -/
structure Blocks where
  probes : List Probe
  /-- The number of conditions used up. -/
  conditions : Nat
  clauses : List Clause
  events : List Event

namespace Blocks

/-- Nothing has been built yet. -/
def start (probes : List Probe) : Blocks := ⟨probes, 0, [], []⟩

/-- Hands out a condition. -/
def allocate (b : Blocks) : ConditionId × Blocks :=
  (.after b.conditions, { b with conditions := b.conditions + 1 })

/-- The word of the last condition that has been handed out, and zero if there is none. -/
def word (b : Blocks) : UInt32 := UInt32.ofNat b.conditions

/-- The next condition has the next word, and is the last one then; the word after the
    last one is zero again. -/
theorem word_allocate (b : Blocks) :
    b.allocate.1.word = b.word + 1 ∧ b.allocate.2.word = b.word + 1 :=
  ⟨ConditionId.word_after b.conditions, ConditionId.word_after b.conditions⟩

/-- Hands out a condition, and adds the clause that works it out. -/
def newCondition (b : Blocks) (value : Expr) (around : Option ConditionId) (s : Span) :
    ConditionId × Blocks :=
  let id := b.allocate.1
  (id, { b.allocate.2 with
    clauses := b.clauses ++ [Clause.setCondition b.probes around id value s] })

/-- Adds the clauses of some statements. -/
def visit (b : Blocks) (stmts : List Stmt) (around : Option ConditionId) : Blocks :=
  let a := Emitted.ofStmts b.probes stmts [] around b.conditions
  { b with
    conditions := a.allocated
    clauses := b.clauses ++ a.clauses
    events := b.events ++ a.events }

end Blocks

end ProbeLang
