import ProbeLang.Expansion.Blocks
import ProbeLang.Proofs.Parts

/-! # What splitting emits

    Every clause that comes out of a list of statements works out a condition or runs
    a block of plain statements (`Emitted.Piece`).  The conditions are new ones, what
    is tested and run comes from the list, and only a block that stands before all
    conditions can be without a guard. -/

namespace ProbeLang

/-- The expressions that some statements evaluate, those inside them included. -/
def Stmt.exprsOf (stmts : List Stmt) : List Expr := (Stmt.nodesList stmts).map Stmt.ownExpr

theorem Stmt.exprsOf_append (xs ys : List Stmt) :
    Stmt.exprsOf (xs ++ ys) = Stmt.exprsOf xs ++ Stmt.exprsOf ys := by
  simp [exprsOf]

theorem Stmt.exprsOf_cons (x : Stmt) (xs : List Stmt) :
    Stmt.exprsOf (x :: xs) = x.nodes.map Stmt.ownExpr ++ Stmt.exprsOf xs := by
  simp [exprsOf, nodesList]

/-- The expressions of a branch: its test, then those of both bodies. -/
theorem Stmt.ownExprs_branch (cond : Expr) (onTrue onFalse : List Stmt) (s : Span) :
    (branch cond onTrue onFalse s).nodes.map ownExpr =
      cond :: (exprsOf onTrue ++ exprsOf onFalse) := by
  simp [nodes, ownExpr, exprsOf]

/-- Those of a loop: its test, then those of its body. -/
theorem Stmt.ownExprs_loop (cond : Expr) (maxIter : UInt32) (body : List Stmt) (s : Span) :
    (loop cond maxIter body s).nodes.map ownExpr = cond :: exprsOf body := by
  simp [nodes, ownExpr, exprsOf]

/-- Every copy of a list holds what the list holds. -/
theorem mem_of_mem_copies {α : Type} {x : α} {xs : List α} {count : Nat}
    (h : x ∈ (List.replicate count xs).flatten) : x ∈ xs := by
  obtain ⟨copy, hcopy, hx⟩ := List.mem_flatten.mp h
  rwa [List.eq_of_mem_replicate hcopy] at hx

theorem Stmt.self_mem_nodes (stmt : Stmt) : stmt ∈ stmt.nodes := by
  cases stmt <;> simp [nodes]

namespace Emitted

/-- A value that a condition is worked out from. -/
inductive Value (own : Expr → Prop) : Expr → Prop where
  /-- A test of the source. -/
  | own {e : Expr} : own e → Value own e
  /-- A loop starts out true. -/
  | one (s : Span) : Value own (.int 1 s)
  /-- An `else` is taken if the test did not hold. -/
  | other (id : ConditionId) (s : Span) : Value own ((Guard.condition id s).not s)

/-- A clause that splitting emits, with `n` conditions used up before: it holds the
    expressions `own` of the source, and a block is without a guard only if `free`. -/
inductive Piece (probes : List Probe) (own : Expr → Prop) (n : Nat) (free : Prop) :
    Clause → Prop where
  | test (around : Option ConditionId) {id : ConditionId} {value : Expr} (s : Span) :
      n < id.index → Value own value →
        Piece probes own n free (Clause.setCondition probes around id value s)
  | block (around : Option ConditionId) (anyBefore : Bool) {stmts : List Stmt} (s : Span) :
      (∀ stmt ∈ stmts, ∃ e, own e ∧ stmt = .expr e) →
        (around = none → anyBefore = false → free) →
          Piece probes own n free (Clause.block probes around anyBefore stmts s)

variable {probes : List Probe} {own own' : Expr → Prop} {n n' : Nat} {free free' : Prop}
  {k : Clause}

/-- A piece of a smaller stretch is a piece of a larger one. -/
theorem Piece.mono (hown : ∀ e, own e → own' e) (hn : n' ≤ n) (hfree : free → free')
    (h : Piece probes own n free k) : Piece probes own' n' free' k := by
  cases h with
  | test around s hid hv =>
      refine .test around s (Nat.lt_of_le_of_lt hn hid) ?_
      cases hv with
      | own he => exact .own (hown _ he)
      | one s => exact .one s
      | other id s => exact .other id s
  | block around anyBefore s hstmts hguard =>
      refine .block around anyBefore s ?_ fun h1 h2 => hfree (hguard h1 h2)
      intro stmt hstmt
      obtain ⟨e, he, rfl⟩ := hstmts stmt hstmt
      exact ⟨e, hown e he, rfl⟩

mutual
/-- Splitting a statement only uses up conditions. -/
theorem le_allocated_ofStmt (probes : List Probe) : ∀ (stmt : Stmt)
    (around : Option ConditionId) (n : Nat), n ≤ (ofStmt probes stmt around n).allocated
  | .expr e, around, n => Nat.le_refl n
  | .branch cond onTrue onFalse s, around, n => by
      have ha := le_allocated_ofStmts probes onTrue [] (some (.after n)) (n + 1)
      simp only [ofStmt]
      split
      · exact Nat.le_of_succ_le ha
      · exact Nat.le_trans (Nat.le_succ_of_le (Nat.le_of_succ_le ha))
          (le_allocated_ofStmts probes onFalse [] _ _)
  | .loop cond maxIter body s, around, n =>
      Nat.le_trans (Nat.le_succ n) (le_allocated_ofStmts probes body [] (some (.after n)) (n + 1))

/-- Splitting statements only uses up conditions. -/
theorem le_allocated_ofStmts (probes : List Probe) : ∀ (stmts pending : List Stmt)
    (around : Option ConditionId) (n : Nat), n ≤ (ofStmts probes stmts pending around n).allocated
  | [], pending, around, n => Nat.le_refl n
  | stmt :: stmts, pending, around, n => by
      rw [ofStmts]
      split
      · exact Nat.le_trans (le_allocated_ofStmt probes stmt around n)
          (le_allocated_ofStmts probes stmts [] around _)
      · exact le_allocated_ofStmts probes stmts (pending ++ [stmt]) around n
end

/-- A branch or a loop uses up a condition at least. -/
theorem lt_allocated_ofStmt (probes : List Probe) {stmt : Stmt} (h : stmt.isStructured = true)
    (around : Option ConditionId) (n : Nat) : n < (ofStmt probes stmt around n).allocated := by
  cases stmt with
  | expr e => cases h
  | branch cond onTrue onFalse s =>
      have ha := le_allocated_ofStmts probes onTrue [] (some (.after n)) (n + 1)
      simp only [ofStmt]
      split
      · exact ha
      · exact Nat.lt_of_lt_of_le (Nat.lt_succ_of_le (Nat.le_of_succ_le ha))
          (le_allocated_ofStmts probes onFalse [] _ _)
  | loop cond maxIter body s => exact le_allocated_ofStmts probes body [] (some (.after n)) (n + 1)

/-- Statements use up a condition if there is a branch or a loop among them. -/
theorem lt_allocated_ofStmts (probes : List Probe) {stmts : List Stmt}
    (h : (Stmt.nodesList stmts).any Stmt.isStructured = true) (pending : List Stmt)
    (around : Option ConditionId) (n : Nat) :
    n < (ofStmts probes stmts pending around n).allocated := by
  induction stmts generalizing pending with
  | nil => cases h
  | cons stmt stmts ih =>
      rw [ofStmts]
      split
      · rename_i hstruct
        exact Nat.lt_of_lt_of_le (lt_allocated_ofStmt probes hstruct around n)
          (le_allocated_ofStmts probes stmts [] around _)
      · rename_i hplain
        cases stmt with
        | expr e => exact ih h (pending ++ [.expr e])
        | _ => exact absurd rfl hplain

/-- Statements turn into some clause if there is a branch or a loop among them. -/
theorem clauses_ofStmts_ne_nil (probes : List Probe) {stmts : List Stmt}
    (h : (Stmt.nodesList stmts).any Stmt.isStructured = true) (pending : List Stmt)
    (around : Option ConditionId) (n : Nat) :
    (ofStmts probes stmts pending around n).clauses ≠ [] := by
  have hstruct : ∀ stmt : Stmt, stmt.isStructured = true →
      (ofStmt probes stmt around n).clauses ≠ [] := by
    intro stmt hstmt
    cases stmt with
    | expr e => cases hstmt
    | branch cond onTrue onFalse s =>
        simp only [ofStmt]
        split <;> exact List.cons_ne_nil _ _
    | loop cond maxIter body s => exact List.cons_ne_nil _ _
  induction stmts generalizing pending with
  | nil => cases h
  | cons stmt stmts ih =>
      rw [ofStmts]
      split
      · rename_i hs
        intro hnil
        obtain ⟨hfront, -⟩ := List.append_eq_nil_iff.mp hnil
        exact hstruct stmt hs (List.append_eq_nil_iff.mp hfront).2
      · rename_i hplain
        cases stmt with
        | expr e => exact ih h (pending ++ [.expr e])
        | _ => exact absurd rfl hplain

/-- A pending block is a piece of its statements; it has no guard only outside of all
    conditions and before the first one. -/
theorem piece_block {pending : List Stmt} {around : Option ConditionId}
    (hpending : ∀ stmt ∈ pending, ∃ e, stmt = .expr e)
    (h : k ∈ block probes around n pending) :
    Piece probes (· ∈ Stmt.exprsOf pending) n (around = none ∧ n = 0) k := by
  cases pending with
  | nil => cases h
  | cons stmt rest =>
      obtain rfl : k = _ := List.mem_singleton.mp h
      refine .block around (decide (0 < n)) stmt.span ?_ ?_
      · intro x hx
        obtain ⟨e, rfl⟩ := hpending x hx
        refine ⟨e, List.mem_map.mpr ⟨.expr e, ?_, rfl⟩, rfl⟩
        rw [Stmt.nodesList_eq_flatMap]
        exact List.mem_flatMap.mpr ⟨.expr e, hx, by simp [Stmt.nodes]⟩
      · intro hnone hbefore
        exact ⟨hnone, Nat.eq_zero_of_not_pos (of_decide_eq_false hbefore)⟩

mutual
/-- What a branch or a loop turns into; every clause of it has a guard. -/
theorem piece_ofStmt : ∀ (stmt : Stmt) (around : Option ConditionId) (n : Nat),
    stmt.isStructured = true → ∀ k ∈ (ofStmt probes stmt around n).clauses,
      Piece probes (· ∈ stmt.nodes.map Stmt.ownExpr) n False k
  | .expr e, around, n, h => nomatch h
  | .branch cond onTrue onFalse s, around, n, _ => by
      intro k hk
      rw [Stmt.ownExprs_branch]
      have hall := le_allocated_ofStmts probes onTrue [] (some (.after n)) (n + 1)
      have ha : ∀ k ∈ (ofStmts probes onTrue [] (some (.after n)) (n + 1)).clauses,
          Piece probes (· ∈ cond :: (Stmt.exprsOf onTrue ++ Stmt.exprsOf onFalse)) n False k := by
        intro k hk
        exact (piece_ofStmts onTrue [] (some (.after n)) (n + 1) (List.forall_mem_nil _) k hk).mono
          (fun e he => List.mem_cons_of_mem _ (List.mem_append_left _ he)) (Nat.le_succ n)
          (fun h => absurd h.1 (Option.some_ne_none _))
      simp only [ofStmt] at hk
      split at hk
      · rcases List.mem_cons.mp hk with rfl | hk
        · exact .test around s (Nat.lt_succ_self n) (.own List.mem_cons_self)
        · exact ha k hk
      · rcases List.mem_cons.mp hk with rfl | hk
        · exact .test around s (Nat.lt_succ_self n) (.own List.mem_cons_self)
        · rcases List.mem_append.mp hk with hk | hk
          · exact ha k hk
          · rcases List.mem_cons.mp hk with rfl | hk
            · exact .test around s (Nat.lt_succ_of_le (by omega)) (.other _ s)
            · exact (piece_ofStmts onFalse [] (some (.after _)) _ (List.forall_mem_nil _) k hk).mono
                (fun e he => List.mem_cons_of_mem _ (List.mem_append_right _ he)) (by omega)
                (fun h => absurd h.1 (Option.some_ne_none _))
  | .loop cond maxIter body s, around, n, _ => by
      intro k hk
      rw [Stmt.ownExprs_loop]
      simp only [ofStmt] at hk
      rcases List.mem_cons.mp hk with rfl | hk
      · exact .test around s (Nat.lt_succ_self n) (.one s)
      · rcases List.mem_cons.mp (mem_of_mem_copies hk) with rfl | hk
        · exact .test _ s (Nat.lt_succ_self n) (.own List.mem_cons_self)
        · exact (piece_ofStmts body [] (some (.after n)) (n + 1) (List.forall_mem_nil _) k hk).mono
            (fun e he => List.mem_cons_of_mem _ he) (Nat.le_succ n)
            (fun h => absurd h.1 (Option.some_ne_none _))

/-- What a list of statements turns into, with some plain ones before it. -/
theorem piece_ofStmts : ∀ (stmts pending : List Stmt) (around : Option ConditionId) (n : Nat),
    (∀ stmt ∈ pending, ∃ e, stmt = .expr e) →
      ∀ k ∈ (ofStmts probes stmts pending around n).clauses,
        Piece probes (· ∈ Stmt.exprsOf (pending ++ stmts)) n (around = none ∧ n = 0) k
  | [], pending, around, n, hpending => by
      intro k hk
      rw [List.append_nil]
      exact piece_block hpending hk
  | stmt :: stmts, pending, around, n, hpending => by
      intro k hk
      rw [ofStmts] at hk
      split at hk
      · rename_i hstruct
        have hall := le_allocated_ofStmt probes stmt around n
        rw [Stmt.exprsOf_append, Stmt.exprsOf_cons]
        rcases List.mem_append.mp hk with hk | hk
        · rcases List.mem_append.mp hk with hk | hk
          · exact (piece_block hpending hk).mono (fun e he => List.mem_append_left _ he)
              (Nat.le_refl n) id
          · exact (piece_ofStmt stmt around n hstruct k hk).mono
              (fun e he => List.mem_append_right _ (List.mem_append_left _ he))
              (Nat.le_refl n) False.elim
        · refine (piece_ofStmts stmts [] around _ (List.forall_mem_nil _) k hk).mono
            (fun e he => List.mem_append_right _ (List.mem_append_right _ he)) hall ?_
          intro h
          exact ⟨h.1, Nat.eq_zero_of_le_zero (h.2 ▸ hall)⟩
      · rename_i hplain
        have hstmt : ∃ e, stmt = .expr e := by
          cases stmt with
          | expr e => exact ⟨e, rfl⟩
          | _ => exact absurd rfl hplain
        have h := piece_ofStmts stmts (pending ++ [stmt]) around n (fun x hx => by
          rcases List.mem_append.mp hx with hx | hx
          · exact hpending x hx
          · rw [List.mem_singleton.mp hx]; exact hstmt) k hk
        rwa [List.append_assoc] at h
end

end Emitted

end ProbeLang
