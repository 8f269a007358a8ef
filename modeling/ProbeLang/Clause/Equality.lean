import ProbeLang.Clause.Basic

/-! # Equality of scripts

    Two expressions, statements, clauses or programs are equal when they are built
    alike, spans included, and this is decidable: `Expr.beq` and `Stmt.beq` compare
    them node by node. -/

namespace ProbeLang

namespace Expr

mutual
/-- Whether two expressions are built alike. -/
def beq : Expr → Expr → Bool
  | int a s, int b t => a == b && s == t
  | str a s, str b t => a == b && s == t
  | ident a s, ident b t => a == b && s == t
  | sym a s, sym b t => a == b && s == t
  | typeName a s, typeName b t => a == b && s == t
  | unary o a s, unary p b t => o == p && beq a b && s == t
  | binary o a c s, binary p b d t => o == p && beq a b && beq c d && s == t
  | ternary a c e s, ternary b d f t => beq a b && beq c d && beq e f && s == t
  | index a ks s, index b ls t => beq a b && beqList ks ls && s == t
  | call f ks s, call g ls t => f == g && beqList ks ls && s == t
  | agg n ks f s, agg m ls g t => n == m && beqList ks ls && beqOption f g && s == t
  | inline n a s, inline m b t => n == m && beq a b && s == t
  | placeholder s, placeholder t => s == t
  | _, _ => false

/-- Whether two lists of expressions agree item by item. -/
def beqList : List Expr → List Expr → Bool
  | [], [] => true
  | a :: as, b :: bs => beq a b && beqList as bs
  | _, _ => false

/-- Whether two optional expressions agree. -/
def beqOption : Option Expr → Option Expr → Bool
  | none, none => true
  | some a, some b => beq a b
  | _, _ => false
end

mutual
private theorem beq_iff : ∀ a b : Expr, beq a b = true ↔ a = b
  | int .., b => by cases b <;> simp [beq]
  | str .., b => by cases b <;> simp [beq]
  | ident .., b => by cases b <;> simp [beq]
  | sym .., b => by cases b <;> simp [beq]
  | typeName .., b => by cases b <;> simp [beq]
  | unary _ a _, b => by cases b <;> simp [beq, beq_iff a, and_assoc]
  | binary _ a c _, b => by cases b <;> simp [beq, beq_iff a, beq_iff c, and_assoc]
  | ternary a c e _, b => by
      cases b <;> simp [beq, beq_iff a, beq_iff c, beq_iff e, and_assoc]
  | index a ks _, b => by cases b <;> simp [beq, beq_iff a, beqList_iff ks, and_assoc]
  | call _ ks _, b => by cases b <;> simp [beq, beqList_iff ks, and_assoc]
  | agg _ ks f _, b => by
      cases b <;> simp [beq, beqList_iff ks, beqOption_iff f, and_assoc]
  | inline _ a _, b => by cases b <;> simp [beq, beq_iff a, and_assoc]
  | placeholder _, b => by cases b <;> simp [beq]

private theorem beqList_iff : ∀ as bs : List Expr, beqList as bs = true ↔ as = bs
  | [], bs => by cases bs <;> simp [beqList]
  | a :: as, bs => by cases bs <;> simp [beqList, beq_iff a, beqList_iff as]

private theorem beqOption_iff : ∀ a b : Option Expr, beqOption a b = true ↔ a = b
  | none, b => by cases b <;> simp [beqOption]
  | some a, b => by cases b <;> simp [beqOption, beq_iff a]
end

instance : DecidableEq Expr := fun a b => decidable_of_iff _ (beq_iff a b)

end Expr

namespace Stmt

mutual
/-- Whether two statements are built alike. -/
def beq : Stmt → Stmt → Bool
  | expr a, expr b => a == b
  | branch a xs ys s, branch b us vs t => a == b && beqList xs us && beqList ys vs && s == t
  | loop a n xs s, loop b m us t => a == b && n == m && beqList xs us && s == t
  | _, _ => false

/-- Whether two lists of statements agree item by item. -/
def beqList : List Stmt → List Stmt → Bool
  | [], [] => true
  | a :: as, b :: bs => beq a b && beqList as bs
  | _, _ => false
end

mutual
private theorem beq_iff_stmt : ∀ a b : Stmt, beq a b = true ↔ a = b
  | expr _, b => by cases b <;> simp [beq]
  | branch _ xs ys _, b => by
      cases b <;> simp [beq, beqList_iff_stmts xs, beqList_iff_stmts ys, and_assoc]
  | loop _ _ xs _, b => by cases b <;> simp [beq, beqList_iff_stmts xs, and_assoc]

private theorem beqList_iff_stmts : ∀ as bs : List Stmt, beqList as bs = true ↔ as = bs
  | [], bs => by cases bs <;> simp [beqList]
  | a :: as, bs => by cases bs <;> simp [beqList, beq_iff_stmt a, beqList_iff_stmts as]
end

instance : DecidableEq Stmt := fun a b => decidable_of_iff _ (beq_iff_stmt a b)

end Stmt

deriving instance DecidableEq for Clause
deriving instance DecidableEq for Program

end ProbeLang
