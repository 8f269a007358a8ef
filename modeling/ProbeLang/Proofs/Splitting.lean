import ProbeLang.Proofs.Emission

/-! # The rules of splitting

    What a list of statements turns into, as one rule for each thing that it can begin
    with: a run of plain statements, a branch with or without an `else`, or a loop
    (`Emitted.Splits`).  A run is as long as it can be, and no rule knows of statements
    that are still pending.

    Splitting follows the rules (`Emitted.splits_ofStmts`), so that an induction over
    them says something of every clause that comes out.  What it says is often about a
    clause and those before it (`InOrder`). -/

namespace ProbeLang

/-! ## An element and those before it -/

/-- Each element of the list stands to those before it as `check` says. -/
def InOrder {α : Type} (check : List α → α → Prop) (xs : List α) : Prop :=
  ∀ before x after, xs = before ++ x :: after → check before x

section InOrder

variable {α : Type} {check check' : List α → α → Prop} {x : α} {xs ys : List α}

/-- There is nothing to check in an empty list. -/
theorem inOrder_nil : InOrder check [] := by
  intro before x after h
  cases before <;> cases h

/-- One step along the list: the head is checked with nothing before it, and stands
    before all that follows. -/
theorem inOrder_cons :
    InOrder check (x :: xs) ↔ check [] x ∧ InOrder (fun before => check (x :: before)) xs := by
  constructor
  · intro h
    refine ⟨h [] x xs rfl, ?_⟩
    intro before y after heq
    exact h (x :: before) y after (congrArg (x :: ·) heq)
  · rintro ⟨hx, hxs⟩ before y after heq
    cases before with
    | nil =>
        obtain ⟨rfl, -⟩ := List.cons.inj heq
        exact hx
    | cons z before =>
        obtain ⟨rfl, htail⟩ := List.cons.inj heq
        exact hxs before y after htail

/-- The second of two lists is checked with the first one before it. -/
theorem inOrder_append :
    InOrder check (xs ++ ys) ↔
      InOrder check xs ∧ InOrder (fun before => check (xs ++ before)) ys := by
  induction xs generalizing check with
  | nil => exact ⟨fun h => ⟨inOrder_nil, h⟩, And.right⟩
  | cons x xs ih =>
      rw [List.cons_append, inOrder_cons, inOrder_cons, ih, and_assoc]
      rfl

/-- A check can be replaced by one that follows from it at every item of the list. -/
theorem InOrder.mono (h : InOrder check xs)
    (hcheck : ∀ before, ∀ x ∈ xs, check before x → check' before x) : InOrder check' xs := by
  intro before x after heq
  refine hcheck before x ?_ (h before x after heq)
  rw [heq]
  exact List.mem_append_right _ List.mem_cons_self

end InOrder

/-! ## Rules -/

namespace Stmt

theorem exprsOf_map_expr (es : List Expr) : exprsOf (es.map .expr) = es := by
  induction es with
  | nil => rfl
  | cons e es ih => rw [List.map_cons, exprsOf_cons, ih]; rfl

variable {P : Expr → Prop} {rest : List Stmt}

/-- The induction is on runs of flat statements, so what is asked of all expressions is
    asked of those of a run and of the rest. -/
theorem forall_exprsOf_run {es : List Expr} :
    (∀ e ∈ exprsOf (es.map .expr ++ rest), P e) ↔
      (∀ e ∈ es, P e) ∧ ∀ e ∈ exprsOf rest, P e := by
  rw [exprsOf_append, exprsOf_map_expr, List.forall_mem_append]

/-- At a branch it is asked of the test, of both bodies and of the rest. -/
theorem forall_exprsOf_branch {cond : Expr} {onTrue onFalse : List Stmt} {s : Span} :
    (∀ e ∈ exprsOf (branch cond onTrue onFalse s :: rest), P e) ↔
      P cond ∧ (∀ e ∈ exprsOf onTrue, P e) ∧ (∀ e ∈ exprsOf onFalse, P e) ∧
        ∀ e ∈ exprsOf rest, P e := by
  rw [exprsOf_cons, ownExprs_branch, List.forall_mem_append, List.forall_mem_cons,
    List.forall_mem_append, and_assoc, and_assoc]

/-- At a loop it is asked of the test, of the body and of the rest. -/
theorem forall_exprsOf_loop {cond : Expr} {maxIter : UInt32} {body : List Stmt} {s : Span} :
    (∀ e ∈ exprsOf (loop cond maxIter body s :: rest), P e) ↔
      P cond ∧ (∀ e ∈ exprsOf body, P e) ∧ ∀ e ∈ exprsOf rest, P e := by
  rw [exprsOf_cons, ownExprs_loop, List.forall_mem_append, List.forall_mem_cons, and_assoc]

end Stmt

namespace Emitted

/-- The list does not begin with a plain statement. -/
def EndsRun (stmts : List Stmt) : Prop := ∀ stmt ∈ stmts.head?, stmt.isStructured = true

theorem endsRun_nil : EndsRun [] := fun _ h => by cases h

/-- A structured statement ends the run before it. -/
theorem endsRun_cons {stmt : Stmt} {stmts : List Stmt} (h : stmt.isStructured = true) :
    EndsRun (stmt :: stmts) := by
  rintro stmt' hhead
  obtain rfl := Option.some.inj hhead
  exact h

/-- `Splits probes stmts around n ks m`: under the condition `around` and with `n`
    conditions used up before, the statements turn into the clauses `ks`, and `m`
    conditions are used up after them. -/
inductive Splits (probes : List Probe) :
    List Stmt → Option ConditionId → Nat → List Clause → Nat → Prop where
  | nil (around : Option ConditionId) (n : Nat) : Splits probes [] around n [] n
  | run {around : Option ConditionId} {n m : Nat} {rest : List Stmt} {ks : List Clause}
      (first : Expr) (more : List Expr) :
      EndsRun rest → Splits probes rest around n ks m →
        Splits probes ((first :: more).map .expr ++ rest) around n
          (Clause.block probes around (0 < n) ((first :: more).map .expr) first.span :: ks) m
  | branch {around : Option ConditionId} {n m l : Nat} {onTrue rest : List Stmt}
      {as ks : List Clause} (cond : Expr) (s : Span) :
      Splits probes onTrue (some (.after n)) (n + 1) as m → Splits probes rest around m ks l →
        Splits probes (.branch cond onTrue [] s :: rest) around n
          (Clause.setCondition probes around (.after n) cond s :: (as ++ ks)) l
  | branchElse {around : Option ConditionId} {n m m' l : Nat} {onTrue onFalse rest : List Stmt}
      {as bs ks : List Clause} (cond : Expr) (s : Span) :
      onFalse ≠ [] → Splits probes onTrue (some (.after n)) (n + 1) as m →
        Splits probes onFalse (some (.after m)) (m + 1) bs m' → Splits probes rest around m' ks l →
          Splits probes (.branch cond onTrue onFalse s :: rest) around n
            (Clause.setCondition probes around (.after n) cond s :: (as ++
              Clause.setCondition probes around (.after m)
                ((Guard.condition (.after n) s).not s) s :: (bs ++ ks))) l
  | loop {around : Option ConditionId} {n m l : Nat} {body rest : List Stmt}
      {as ks : List Clause} (cond : Expr) (maxIter : UInt32) (s : Span) :
      Splits probes body (some (.after n)) (n + 1) as m → Splits probes rest around m ks l →
        Splits probes (.loop cond maxIter body s :: rest) around n
          (Clause.setCondition probes around (.after n) (.int 1 s) s ::
            ((List.replicate maxIter.toNat
              (Clause.setCondition probes (some (.after n)) (.after n) cond s :: as)).flatten ++
                ks)) l

variable {probes : List Probe} {around : Option ConditionId} {n m : Nat} {rest : List Stmt}
  {ks : List Clause}

/-- Plain statements that are pending are the run before what comes next. -/
private theorem splits_pending (pending : List Expr) (hrest : EndsRun rest)
    (h : Splits probes rest around n ks m) :
    Splits probes (pending.map .expr ++ rest) around n
      (block probes around n (pending.map .expr) ++ ks) m := by
  cases pending with
  | nil => exact h
  | cons first more => exact .run first more hrest h

mutual
/-- Splitting a branch or a loop follows the rules, whatever comes after it. -/
private theorem splits_ofStmt : ∀ (stmt : Stmt) (around : Option ConditionId) (n : Nat)
    (rest : List Stmt) (ks : List Clause) (l : Nat), stmt.isStructured = true →
      Splits probes rest around (ofStmt probes stmt around n).allocated ks l →
        Splits probes (stmt :: rest) around n ((ofStmt probes stmt around n).clauses ++ ks) l
  | .expr e, around, n, rest, ks, l, hstmt, _ => by cases hstmt
  | .branch cond onTrue onFalse s, around, n, rest, ks, l, _, hrest => by
      have htrue := splits_ofStmts_pending onTrue [] (some (.after n)) (n + 1)
      cases onFalse with
      | nil => exact .branch cond s htrue hrest
      | cons stmt stmts =>
          have hfalse := splits_ofStmts_pending (stmt :: stmts) []
            (some (.after (ofStmts probes onTrue [] (some (.after n)) (n + 1)).allocated))
            ((ofStmts probes onTrue [] (some (.after n)) (n + 1)).allocated + 1)
          have h := Splits.branchElse cond s (List.cons_ne_nil stmt stmts) htrue hfalse hrest
          simp only [ofStmt, List.isEmpty_cons, Bool.false_eq_true, if_false, List.cons_append,
            List.append_assoc]
          exact h
  | .loop cond maxIter body s, around, n, rest, ks, l, _, hrest =>
      .loop cond maxIter s (splits_ofStmts_pending body [] (some (.after n)) (n + 1)) hrest

/-- Splitting follows the rules; the plain statements that are pending come first. -/
private theorem splits_ofStmts_pending : ∀ (stmts : List Stmt) (pending : List Expr)
    (around : Option ConditionId) (n : Nat),
      Splits probes (pending.map .expr ++ stmts) around n
        (ofStmts probes stmts (pending.map .expr) around n).clauses
        (ofStmts probes stmts (pending.map .expr) around n).allocated
  | [], pending, around, n => by
      have h : Splits probes (pending.map .expr ++ []) around n
          (block probes around n (pending.map .expr) ++ []) n :=
        splits_pending pending endsRun_nil (.nil around n)
      rw [List.append_nil (block probes around n _)] at h
      exact h
  | stmt :: stmts, pending, around, n => by
      rw [ofStmts]
      split
      · rename_i hstmt
        have hrest := splits_ofStmts_pending stmts [] around (ofStmt probes stmt around n).allocated
        have h := splits_pending pending (endsRun_cons hstmt)
          (splits_ofStmt stmt around n stmts _ _ hstmt hrest)
        rw [← List.append_assoc] at h
        exact h
      · rename_i hstmt
        cases stmt with
        | expr e =>
            have h := splits_ofStmts_pending stmts (pending ++ [e]) around n
            rwa [List.map_append, List.append_assoc] at h
        | _ => exact absurd rfl hstmt
end

/-- Splitting follows the rules. -/
theorem splits_ofStmts (probes : List Probe) (stmts : List Stmt) (around : Option ConditionId)
    (n : Nat) :
    Splits probes stmts around n (ofStmts probes stmts [] around n).clauses
      (ofStmts probes stmts [] around n).allocated :=
  splits_ofStmts_pending stmts [] around n

end Emitted

end ProbeLang
