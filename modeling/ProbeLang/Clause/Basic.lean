import ProbeLang.Expr.Basic
import ProbeLang.Probe

/-! # Statements, clauses and programs

    A script is a list of clauses.  A clause names the probes it is attached to, a
    predicate that may be missing, and the statements that run when one of its
    probes fires and its predicate holds.  Statements may branch and loop; a loop
    states how often it runs at most. -/

namespace ProbeLang

/-- A statement of a clause. -/
inductive Stmt where
  /-- An expression that is evaluated for its effect. -/
  | expr (e : Expr)
  /-- `if (cond) { onTrue } else { onFalse }`; an empty `onFalse` is no `else` at all. -/
  | branch (cond : Expr) (onTrue onFalse : List Stmt) (span : Span)
  /-- `while<maxIter> (cond) { body }`. -/
  | loop (cond : Expr) (maxIter : UInt32) (body : List Stmt) (span : Span)
deriving Repr, Inhabited

namespace Stmt

/-- Where the statement stands. -/
def span : Stmt → Span
  | expr e => e.span
  | branch _ _ _ s => s
  | loop _ _ _ s => s

/-- Whether the statement holds other statements. -/
def isStructured : Stmt → Bool
  | expr _ => false
  | branch .. => true
  | loop .. => true

/-- The expression that the statement itself evaluates: its effect or its test. -/
def ownExpr : Stmt → Expr
  | expr e => e
  | branch cond _ _ _ => cond
  | loop cond _ _ _ => cond

mutual
/-- The statement itself and the statements inside it, in source order. -/
def nodes : Stmt → List Stmt
  | s@(expr _) => [s]
  | s@(branch _ onTrue onFalse _) => s :: (nodesList onTrue ++ nodesList onFalse)
  | s@(loop _ _ body _) => s :: nodesList body

/-- All statements of a list and those inside them, in source order. -/
def nodesList : List Stmt → List Stmt
  | [] => []
  | s :: ss => s.nodes ++ nodesList ss
end

@[simp] theorem nodesList_eq_flatMap (ss : List Stmt) : nodesList ss = ss.flatMap nodes := by
  induction ss with
  | nil => rfl
  | cons s ss ih => simp [nodesList, ih]

end Stmt

/-- What runs when a probe fires. -/
structure Clause where
  probes : List Probe
  predicate : Option Expr
  actions : List Stmt
  span : Span
deriving Repr, Inhabited

namespace Clause

/-- Whether the clause runs at returns only: it has a probe, and each one is a return. -/
def allReturn (c : Clause) : Bool := !c.probes.isEmpty && c.probes.all Probe.isReturn

/-- All statements of the clause, in source order. -/
def stmts (c : Clause) : List Stmt := Stmt.nodesList c.actions

/-- The nodes of all expressions of the clause, in source order: those of its
    predicate, then those of each statement, before the ones of the statements inside
    it. -/
def exprNodes (c : Clause) : List Expr :=
  Expr.nodesOption c.predicate ++ c.stmts.flatMap fun s => s.ownExpr.nodes

end Clause

/-- A script. -/
structure Program where
  clauses : List Clause
deriving Repr, Inhabited

end ProbeLang
