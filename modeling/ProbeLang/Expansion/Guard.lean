import ProbeLang.Clause.Basic
import ProbeLang.Slot.Basic

/-! # Guards

    Expansion turns a clause into several that run one after the other at the same
    probes.  Tests are worked out by clauses of their own and kept in condition
    slots; a block of statements runs under the condition that leads to it.  Once
    the error flag is up, nothing that is guarded runs any more. -/

namespace ProbeLang

namespace Guard

/-- The error flag. -/
def errorFlag (s : Span) : Expr := Slot.error.expr s

/-- The value of a condition. -/
def condition (id : ConditionId) (s : Span) : Expr := (Slot.condition id).expr s

/-- Holds as long as nothing has failed. -/
def noError (s : Span) : Expr := (errorFlag s).not s

/-- The condition around a piece of a clause; outside of all conditions it is true. -/
def ambient (around : Option ConditionId) (s : Span) : Expr :=
  match around with
  | some id => condition id s
  | none => .int 1 s

/-- The guard of a block.  A block needs none as long as it is outside of all
    conditions and none has been worked out before it. -/
def block? (around : Option ConditionId) (anyBefore : Bool) (s : Span) : Option Expr :=
  match around with
  | some id => some ((noError s).and (condition id s) s)
  | none => if anyBefore then some (noError s) else none

end Guard

namespace Clause

/-- Works out the condition `id`: it holds if the one around it does and `value` is true. -/
def setCondition (probes : List Probe) (around : Option ConditionId) (id : ConditionId)
    (value : Expr) (s : Span) : Clause :=
  { probes
    predicate := some (Guard.noError s)
    actions := [.expr ((Guard.condition id s).assign ((Guard.ambient around s).and value s) s)]
    span := s }

/-- Runs a block of statements under its guard. -/
def block (probes : List Probe) (around : Option ConditionId) (anyBefore : Bool)
    (stmts : List Stmt) (s : Span) : Clause :=
  { probes, predicate := Guard.block? around anyBefore s, actions := stmts, span := s }

/-- Takes the error flag down. -/
def clearError (probes : List Probe) (s : Span) : Clause :=
  { probes
    predicate := none
    actions := [.expr ((Guard.errorFlag s).assign (.int 0 s) s)]
    span := s }

/-- Puts the error flag up when the probe for errors fires. -/
def errorHandler (probe : Probe) (s : Span) : Clause :=
  { probes := [probe]
    predicate := none
    actions := [.expr ((Guard.errorFlag s).assign (.int 1 s) s)]
    span := s }

end Clause

end ProbeLang
