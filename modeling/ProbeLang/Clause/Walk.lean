import ProbeLang.Clause.Basic

/-! # Replacing parts of a script

    A walk visits the nodes of an expression in source order and carries a state
    along.  A step may take a node over: it then gives the node's replacement, and
    the walk does not enter either of them.  A node that the step leaves alone is
    kept, and the walk goes on with its parts.

    A walk over a clause visits its expressions in source order: the predicate, then
    each statement's own expression before the statements inside it. -/

namespace ProbeLang

/-- What a walk does at a node: `none` leaves the node alone, and `some` gives its
    replacement and the state after it. -/
abbrev WalkStep (σ : Type) := Expr → σ → Option (Expr × σ)

variable {σ : Type}

namespace Expr

mutual
/-- Walks an expression. -/
def walk (step : WalkStep σ) (e : Expr) (s : σ) : Expr × σ :=
  match step e s with
  | some r => r
  | none =>
    match e with
    | unary op operand sp =>
        let a := operand.walk step s
        (unary op a.1 sp, a.2)
    | binary op left right sp =>
        let a := left.walk step s
        let b := right.walk step a.2
        (binary op a.1 b.1 sp, b.2)
    | ternary cond onTrue onFalse sp =>
        let a := cond.walk step s
        let b := onTrue.walk step a.2
        let c := onFalse.walk step b.2
        (ternary a.1 b.1 c.1 sp, c.2)
    | index base keys sp =>
        let a := base.walk step s
        let b := walkList step keys a.2
        (index a.1 b.1 sp, b.2)
    | call func args sp =>
        let a := walkList step args s
        (call func a.1 sp, a.2)
    | agg name keys func sp =>
        let a := walkList step keys s
        let b := walkOption step func a.2
        (agg name a.1 b.1 sp, b.2)
    | inline name body sp =>
        let a := body.walk step s
        (inline name a.1 sp, a.2)
    | leaf => (leaf, s)

/-- Walks the expressions of a list, one after the other. -/
def walkList (step : WalkStep σ) (es : List Expr) (s : σ) : List Expr × σ :=
  match es with
  | [] => ([], s)
  | e :: es =>
      let a := e.walk step s
      let b := walkList step es a.2
      (a.1 :: b.1, b.2)

/-- Walks an expression that may be missing. -/
def walkOption (step : WalkStep σ) (e : Option Expr) (s : σ) : Option Expr × σ :=
  match e with
  | none => (none, s)
  | some e =>
      let a := e.walk step s
      (some a.1, a.2)
end

end Expr

namespace Stmt

mutual
/-- Walks the expressions of a statement. -/
def walk (step : WalkStep σ) (stmt : Stmt) (s : σ) : Stmt × σ :=
  match stmt with
  | expr e =>
      let a := e.walk step s
      (expr a.1, a.2)
  | branch cond onTrue onFalse sp =>
      let a := cond.walk step s
      let b := walkList step onTrue a.2
      let c := walkList step onFalse b.2
      (branch a.1 b.1 c.1 sp, c.2)
  | loop cond maxIter body sp =>
      let a := cond.walk step s
      let b := walkList step body a.2
      (loop a.1 maxIter b.1 sp, b.2)

/-- Walks the expressions of the statements of a list, one after the other. -/
def walkList (step : WalkStep σ) (stmts : List Stmt) (s : σ) : List Stmt × σ :=
  match stmts with
  | [] => ([], s)
  | stmt :: stmts =>
      let a := stmt.walk step s
      let b := walkList step stmts a.2
      (a.1 :: b.1, b.2)
end

end Stmt

/-- Walks all expressions of a clause. -/
def Clause.walk (step : WalkStep σ) (c : Clause) (s : σ) : Clause × σ :=
  let a := Expr.walkOption step c.predicate s
  let b := Stmt.walkList step c.actions a.2
  ({ c with predicate := a.1, actions := b.1 }, b.2)

end ProbeLang
