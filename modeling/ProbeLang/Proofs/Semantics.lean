import ProbeLang.Proofs.Names

/-! # What scripts do

    Two readings of a script, over an arbitrary state `S` of the traced program and
    of the script's own variables.

    * As it is written: a clause tests its predicate and runs its statements, with
      branches and loops; what a fault leaves undone is the rest of that clause
      (`Firing.runClause`).
    * As the engine runs it: clauses are flat, slots are variables of the engine, and
      a fault ends the clause that runs and puts the error flag up
      (`Engine.runClause`).

    What a piece of code does by itself is no business of either: it is given as a
    function for each expression. -/

namespace ProbeLang

/-- How an action ends. -/
inductive Outcome where
  | done
  | fault
deriving DecidableEq

/-- What a test finds. -/
inductive Verdict where
  | holds
  | fails
  | fault
deriving DecidableEq

/-- The verdict that a truth value is. -/
def Verdict.ofBool : Bool → Verdict
  | true => .holds
  | false => .fails

variable {S : Type}

/-- Goes on with `next` unless there was a fault. -/
def Outcome.andThen (a : S × Outcome) (next : S → S × Outcome) : S × Outcome :=
  match a with
  | (σ, .done) => next σ
  | (σ, .fault) => (σ, .fault)

/-- Goes on as a test says. -/
def Verdict.choose (a : S × Verdict) (yes no : S → S × Outcome) : S × Outcome :=
  match a with
  | (σ, .holds) => yes σ
  | (σ, .fails) => no σ
  | (σ, .fault) => (σ, .fault)

/-- Runs `body` as long as `test` holds, and at most `n` times. -/
def repeatWhile (test : S → S × Verdict) (body : S → S × Outcome) : Nat → S → S × Outcome
  | 0, σ => (σ, .done)
  | n + 1, σ =>
      Verdict.choose (test σ) (fun σ => Outcome.andThen (body σ) (repeatWhile test body n))
        fun σ => (σ, .done)

/-! ## Slots as variables -/

/-- A variable of the engine.  One that is an array has a cell for each index. -/
structure Cell where
  scope : String
  name : String
  index : Option Nat
deriving DecidableEq

/-- The values of the engine's variables. -/
abbrev Store := Cell → Int

/-- Where a slot keeps its value when the stack has the given depth. -/
def Slot.cell (depth : Nat) (slot : Slot) : Cell :=
  ⟨slot.scope, slot.name, match slot with | .entry .. => some depth | _ => none⟩

/-- No two slots share a cell, at whatever depths. -/
theorem Slot.cell_injective {depth depth' : Nat} {a b : Slot}
    (h : a.cell depth = b.cell depth') : a = b :=
  name_injective (congrArg Cell.name h)

namespace Expr

/-- The variable, if the expression is one whose name is reserved. -/
def slotRef? : Expr → Option (String × String)
  | binary .ptr (ident scope _) (ident name _) _ =>
      if Slot.isReserved name then some (scope, name) else none
  | _ => none

/-- The cell that an expression refers to when the stack has the given depth. -/
def cell? (depth : Nat) : Expr → Option Cell
  | index base [ident "stackdepth" _] _ =>
      base.slotRef?.map fun v => ⟨v.1, v.2, some depth⟩
  | e => e.slotRef?.map fun v => ⟨v.1, v.2, none⟩

/-- The value of a test that is made of slots alone. -/
def stored? (depth : Nat) (slots : Store) : Expr → Option Bool
  | unary .not a _ => (a.stored? depth slots).map (!·)
  | binary .and a b _ =>
      match a.stored? depth slots, b.stored? depth slots with
      | some x, some y => some (x && y)
      | _, _ => none
  | e => (e.cell? depth).map fun c => slots c != 0

end Expr

/-- The state of the engine. -/
structure Machine (S : Type) where
  user : S
  slots : Store

namespace Machine

/-- The state with another value in a cell. -/
def write (m : Machine S) (c : Cell) (v : Int) : Machine S :=
  { m with slots := fun x => if x = c then v else m.slots x }

/-- The value of a slot at the given depth. -/
def read (m : Machine S) (depth : Nat) (slot : Slot) : Int := m.slots (slot.cell depth)

/-- The state with the error flag up. -/
def raise (m : Machine S) : Machine S := m.write (Slot.error.cell 0) 1

end Machine

/-! ## Clauses as written -/

/-- An event that fires probes: at which lists of probes clauses run, and what code
    does while it lasts. -/
structure Firing (S : Type) where
  fires : List Probe → Bool
  /-- What an expression does as a statement. -/
  act : Expr → S → S × Outcome
  /-- What an expression does as a test. -/
  test : Expr → S → S × Verdict

namespace Firing

variable (F : Firing S)

/-- Makes a test.  A number is true unless it is zero. -/
def check : Expr → S → S × Verdict
  | .int n _, σ => (σ, .ofBool (n != 0))
  | e, σ => F.test e σ

mutual
/-- Runs a statement. -/
def runStmt : Stmt → S → S × Outcome
  | .expr e => F.act e
  | .branch cond onTrue onFalse _ => fun σ =>
      Verdict.choose (F.check cond σ) (runStmts onTrue) (runStmts onFalse)
  | .loop cond maxIter body _ => repeatWhile (F.check cond) (runStmts body) maxIter.toNat

/-- Runs statements one after the other, up to a fault. -/
def runStmts : List Stmt → S → S × Outcome
  | [] => fun σ => (σ, .done)
  | stmt :: stmts => fun σ => Outcome.andThen (runStmt stmt σ) (runStmts stmts)
end

@[simp] theorem runStmts_cons (stmt : Stmt) (stmts : List Stmt) (σ : S) :
    F.runStmts (stmt :: stmts) σ = Outcome.andThen (F.runStmt stmt σ) (F.runStmts stmts) := rfl

theorem runStmts_append (xs ys : List Stmt) (σ : S) :
    F.runStmts (xs ++ ys) σ = Outcome.andThen (F.runStmts xs σ) (F.runStmts ys) := by
  induction xs generalizing σ with
  | nil => rfl
  | cons x xs ih =>
      rw [List.cons_append, runStmts_cons, runStmts_cons]
      rcases F.runStmt x σ with ⟨σ, _ | _⟩
      · exact ih σ
      · rfl

/-- Runs a clause up to a fault: its statements, if it has no predicate or its
    predicate holds. -/
def runBody (c : Clause) (σ : S) : S × Outcome :=
  match c.predicate with
  | none => F.runStmts c.actions σ
  | some p => Verdict.choose (F.check p σ) (F.runStmts c.actions) fun σ => (σ, .done)

/-- Runs a clause.  A fault goes no further. -/
def runClause (c : Clause) (σ : S) : S := (F.runBody c σ).1

/-- Runs the clauses of a program that the event fires. -/
def runProgram (p : Program) (σ : S) : S :=
  (p.clauses.filter fun c => F.fires c.probes).foldl (fun σ c => F.runClause c σ) σ

end Firing

/-! ## Clauses in the engine -/

/-- What the engine has at hand while an event lasts. -/
structure Engine (S : Type) where
  /-- The depth of the stack. -/
  depth : Nat
  /-- The built-in variables; one that cannot be read faults. -/
  builtin : String → Option Int
  /-- The arguments with their types. -/
  arg : Nat → Option Int
  /-- What an expression does as a statement.  It may look at slots, and changes none. -/
  act : Expr → Store → S → S × Outcome
  /-- What an expression does as a test. -/
  test : Expr → Store → S → S × Verdict

namespace Engine

variable (E : Engine S)

/-- Makes a test.  One over slots alone is made on what is stored. -/
def check (e : Expr) (m : Machine S) : Machine S × Verdict :=
  match e with
  | .int n _ => (m, .ofBool (n != 0))
  | e =>
      match e.stored? E.depth m.slots with
      | some b => (m, .ofBool b)
      | none =>
          let a := E.test e m.slots m.user
          ({ m with user := a.1 }, a.2)

/-- Makes a test, and a second one if it holds. -/
def both (a b : Expr) (m : Machine S) : Machine S × Verdict :=
  match E.check a m with
  | (m, .holds) => E.check b m
  | r => r

/-- Works out a value that goes into a slot; nothing else is ever stored there. -/
def value (e : Expr) (m : Machine S) : Machine S × Option Int :=
  match e with
  | .int n _ => (m, some n.toNat)
  | .ident name _ => (m, E.builtin name)
  | .index (.ident "args" _) [.int n _] _ => (m, E.arg n.toNat)
  | .binary .and a b _ =>
      match E.both a b m with
      | (m, .holds) => (m, some 1)
      | (m, .fails) => (m, some 0)
      | (m, .fault) => (m, none)
  | _ => (m, none)

/-- Runs code that is no business of the expansion. -/
def code (e : Expr) (m : Machine S) : Machine S × Outcome :=
  let a := E.act e m.slots m.user
  ({ m with user := a.1 }, a.2)

/-- Performs an action: one on a slot, or other code. -/
def perform (e : Expr) (m : Machine S) : Machine S × Outcome :=
  match e with
  | .binary .assign target value _ =>
      match target.cell? E.depth with
      | some c =>
          match E.value value m with
          | (m, some v) => (m.write c v, .done)
          | (m, none) => (m, .fault)
      | none => E.code e m
  | .unary .preInc target _ =>
      match target.cell? E.depth with
      | some c => (m.write c (m.slots c + 1), .done)
      | none => E.code e m
  | .unary .preDec target _ =>
      match target.cell? E.depth with
      | some c => (m.write c (m.slots c - 1), .done)
      | none => E.code e m
  | e => E.code e m

/-- Performs actions one after the other, up to a fault.  The engine knows neither
    branches nor loops. -/
def performAll : List Stmt → Machine S → Machine S × Outcome
  | [], m => (m, .done)
  | .expr e :: stmts, m => Outcome.andThen (E.perform e m) (performAll stmts)
  | _ :: _, m => (m, .fault)

/-- What a clause comes to after its actions: a fault puts the error flag up. -/
def settle (a : Machine S × Outcome) : Machine S :=
  match a with
  | (m, .done) => m
  | (m, .fault) => m.raise

/-- Runs a flat clause. -/
def runClause (c : Clause) (m : Machine S) : Machine S :=
  match c.predicate with
  | none => settle (E.performAll c.actions m)
  | some p => settle (Verdict.choose (E.check p m) (E.performAll c.actions) fun m => (m, .done))

/-- Runs flat clauses one after the other. -/
def runClauses (cs : List Clause) (m : Machine S) : Machine S :=
  cs.foldl (fun m c => E.runClause c m) m

@[simp] theorem runClauses_nil (m : Machine S) : E.runClauses [] m = m := rfl

@[simp] theorem runClauses_cons (c : Clause) (cs : List Clause) (m : Machine S) :
    E.runClauses (c :: cs) m = E.runClauses cs (E.runClause c m) := rfl

@[simp] theorem runClauses_append (cs ds : List Clause) (m : Machine S) :
    E.runClauses (cs ++ ds) m = E.runClauses ds (E.runClauses cs m) :=
  List.foldl_append

/-- The engine runs the code of a script as it is written: without a reserved name in
    it, code neither looks at slots nor changes them. -/
structure Speaks (F : Firing S) : Prop where
  act : ∀ e : Expr, e.Unreserved → ∀ slots σ, E.act e slots σ = F.act e σ
  test : ∀ e : Expr, e.Unreserved → ∀ slots σ, E.test e slots σ = F.test e σ

end Engine

end ProbeLang
