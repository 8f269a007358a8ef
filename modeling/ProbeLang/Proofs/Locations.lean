import ProbeLang.Proofs.Expand
import ProbeLang.Proofs.Requests
import ProbeLang.Proofs.Splitting

/-! # Where things stand

    Every clause, statement and expression has a span.  What expansion makes takes its
    span over from what it is made for: the clause itself, a statement of it, or a form in
    one of its expressions.  So nothing comes out that stands at a place where nothing of
    the source stands (`Session.located_of_mem_expand`).

    To be at one of some places is said with a predicate of spans, `Located S`.  Each part
    of the pipeline keeps it: resolution, which keeps the shape of statements and the spans
    of branches and loops (`Stmt.Alike`); splitting, by its rules; and each clause that is
    put around a body, which is at one place only. -/

namespace ProbeLang

/-! ## Expressions -/

namespace Expr

variable {S : Span → Prop} {e : Expr} {s : Span}

/-- A node is put together where it was. -/
@[simp] theorem span_rebuild (e : Expr) (ps : List Expr) : (e.rebuild ps).span = e.span := by
  unfold rebuild
  split <;> rfl

/-- Each node of the expression is at one of the places `S`. -/
def Located (S : Span → Prop) (e : Expr) : Prop := ∀ x ∈ e.nodes, S x.span

/-- An expression is located if its own place is in the set and its parts are located;
    all that follows goes by this. -/
theorem located_iff : e.Located S ↔ S e.span ∧ ∀ p ∈ e.parts, p.Located S := by
  constructor
  · intro h
    exact ⟨h e e.self_mem_nodes, fun p hp x hx => h x (mem_nodes_of_mem_parts hp hx)⟩
  · rintro ⟨hself, hparts⟩ x hx
    rcases mem_nodes_iff.mp hx with rfl | ⟨p, hp, hx⟩
    · exact hself
    · exact hparts p hp x hx

theorem Located.span (h : e.Located S) : S e.span := (located_iff.mp h).1

/-- An expression that has all of its nodes in one place. -/
theorem located_of_forall_eq (h : ∀ x ∈ e.nodes, x.span = s) (hs : S s) : e.Located S := by
  intro x hx
  rw [h x hx]
  exact hs

theorem located_int (n : UInt64) (hs : S s) : (int n s).Located S :=
  located_iff.mpr ⟨hs, List.forall_mem_nil _⟩

theorem located_ident (name : String) (hs : S s) : (ident name s).Located S :=
  located_iff.mpr ⟨hs, List.forall_mem_nil _⟩

theorem located_unary (op : UnaryOp) (hs : S s) (he : e.Located S) :
    (unary op e s).Located S :=
  located_iff.mpr ⟨hs, List.forall_mem_singleton.mpr he⟩

theorem located_binary (op : BinaryOp) {f : Expr} (hs : S s) (he : e.Located S)
    (hf : f.Located S) : (binary op e f s).Located S :=
  located_iff.mpr ⟨hs, List.forall_mem_cons.mpr ⟨he, List.forall_mem_singleton.mpr hf⟩⟩

end Expr

/-- A reference to a slot is where it is made. -/
theorem Slot.located_expr {S : Span → Prop} {s : Span} (slot : Slot) (hs : S s) :
    (slot.expr s).Located S := by
  have hslot : slot.StandsIn s (slot.expr s) := .slot
  exact Expr.located_of_forall_eq hslot.span_of_mem_nodes hs

/-- What is captured stands where the form is. -/
theorem EntryField.located_captured {S : Span → Prop} {s : Span} {f : EntryField} {e : Expr}
    (h : f.captured? s = some e) (hs : S s) : e.Located S := by
  cases f with
  | elapsed unit => cases h
  | args n =>
      obtain rfl := Option.some.inj h
      refine Expr.located_iff.mpr ⟨hs, List.forall_mem_cons.mpr ⟨?_, ?_⟩⟩
      · exact Expr.located_ident "args" hs
      · exact List.forall_mem_singleton.mpr (Expr.located_int _ hs)
  | _ =>
      obtain rfl := Option.some.inj h
      exact Expr.located_ident _ hs

/-! ## Statements -/

namespace Stmt

variable {S : Span → Prop} {stmts rest : List Stmt}

/-- Each of the statements, and each one inside them, is at one of the places `S`, and so
    is all that it evaluates. -/
def Located (S : Span → Prop) (stmts : List Stmt) : Prop :=
  ∀ stmt ∈ nodesList stmts, S stmt.span ∧ stmt.ownExpr.Located S

theorem located_nil : Located S [] := List.forall_mem_nil _

theorem located_append : Located S (stmts ++ rest) ↔ Located S stmts ∧ Located S rest := by
  simp only [Located, nodesList_eq_flatMap, List.flatMap_append, List.forall_mem_append]

theorem located_expr {e : Expr} : Located S (expr e :: rest) ↔ e.Located S ∧ Located S rest := by
  rw [Located, nodesList, List.forall_mem_append]
  refine and_congr_left' ?_
  exact ⟨fun h => (List.forall_mem_singleton.mp h).2,
    fun h => List.forall_mem_singleton.mpr ⟨h.span, h⟩⟩

/-- A branch is located with its test and both bodies. -/
theorem located_branch {cond : Expr} {onTrue onFalse : List Stmt} {s : Span} :
    Located S (branch cond onTrue onFalse s :: rest) ↔
      S s ∧ cond.Located S ∧ Located S onTrue ∧ Located S onFalse ∧ Located S rest := by
  rw [Located, nodesList, nodes, List.forall_mem_append, List.forall_mem_cons,
    List.forall_mem_append, and_assoc, and_assoc, and_assoc]
  rfl

/-- A loop is located with its test and its body. -/
theorem located_loop {cond : Expr} {maxIter : UInt32} {body : List Stmt} {s : Span} :
    Located S (loop cond maxIter body s :: rest) ↔
      S s ∧ cond.Located S ∧ Located S body ∧ Located S rest := by
  rw [Located, nodesList, nodes, List.forall_mem_append, List.forall_mem_cons, and_assoc, and_assoc]
  rfl

theorem located_map_expr {es : List Expr} :
    Located S (es.map .expr) ↔ ∀ e ∈ es, e.Located S := by
  induction es with
  | nil => exact ⟨fun _ => List.forall_mem_nil _, fun _ => located_nil⟩
  | cons e es ih => rw [List.map_cons, located_expr, ih, List.forall_mem_cons]

/-- Two statements of the same shape, at the same places, whose expressions are related
    one by one. -/
inductive Alike (R : Expr → Expr → Prop) : Stmt → Stmt → Prop where
  | expr {e e' : Expr} : R e e' → Alike R (expr e) (expr e')
  | branch {cond cond' : Expr} {onTrue onTrue' onFalse onFalse' : List Stmt} (s : Span) :
      R cond cond' → List.Forall₂ (Alike R) onTrue onTrue' →
        List.Forall₂ (Alike R) onFalse onFalse' →
          Alike R (branch cond onTrue onFalse s) (branch cond' onTrue' onFalse' s)
  | loop {cond cond' : Expr} {body body' : List Stmt} (maxIter : UInt32) (s : Span) :
      R cond cond' → List.Forall₂ (Alike R) body body' →
        Alike R (loop cond maxIter body s) (loop cond' maxIter body' s)

mutual
/-- A walk over a statement changes its expressions only. -/
theorem alike_walk {σ : Type} {step : WalkStep σ} {R : Expr → Expr → Prop}
    (hR : ∀ (e : Expr) (s : σ), R e (e.walk step s).1) :
    ∀ (stmt : Stmt) (s : σ), Alike R stmt (stmt.walk step s).1
  | .expr e, s => .expr (hR e s)
  | .branch cond onTrue onFalse sp, s =>
      .branch sp (hR cond s) (alike_walkList hR onTrue _) (alike_walkList hR onFalse _)
  | .loop cond maxIter body sp, s => .loop maxIter sp (hR cond s) (alike_walkList hR body _)

/-- The same for a list of statements, item by item. -/
theorem alike_walkList {σ : Type} {step : WalkStep σ} {R : Expr → Expr → Prop}
    (hR : ∀ (e : Expr) (s : σ), R e (e.walk step s).1) :
    ∀ (stmts : List Stmt) (s : σ), List.Forall₂ (Alike R) stmts (walkList step stmts s).1
  | [], _ => .nil
  | stmt :: stmts, s => .cons (alike_walk hR stmt s) (alike_walkList hR stmts _)
end

/-- What holds of two lists of statements that are alike, from what they begin with. -/
@[elab_as_elim]
theorem alike_induction {R : Expr → Expr → Prop}
    {P : (stmts stmts' : List Stmt) → List.Forall₂ (Alike R) stmts stmts' → Prop}
    {stmts stmts' : List Stmt} (h : List.Forall₂ (Alike R) stmts stmts')
    (nil : P [] [] .nil)
    (expr : ∀ {e e' rest rest'} (he : R e e') (hrest : List.Forall₂ (Alike R) rest rest'),
      P rest rest' hrest → P _ _ (.cons (.expr he) hrest))
    (branch : ∀ {cond cond' onTrue onTrue' onFalse onFalse' rest rest'} (s : Span)
      (hcond : R cond cond') (htrue : List.Forall₂ (Alike R) onTrue onTrue')
      (hfalse : List.Forall₂ (Alike R) onFalse onFalse')
      (hrest : List.Forall₂ (Alike R) rest rest'),
      P onTrue onTrue' htrue → P onFalse onFalse' hfalse → P rest rest' hrest →
        P _ _ (.cons (.branch s hcond htrue hfalse) hrest))
    (loop : ∀ {cond cond' body body' rest rest'} (maxIter : UInt32) (s : Span)
      (hcond : R cond cond') (hbody : List.Forall₂ (Alike R) body body')
      (hrest : List.Forall₂ (Alike R) rest rest'),
      P body body' hbody → P rest rest' hrest →
        P _ _ (.cons (.loop maxIter s hcond hbody) hrest)) :
    P stmts stmts' h := by
  cases h with
  | nil => exact nil
  | cons hfirst hrest =>
      have ihr := alike_induction hrest nil expr branch loop
      cases hfirst with
      | expr he => exact expr he hrest ihr
      | branch s hcond htrue hfalse =>
          exact branch s hcond htrue hfalse hrest (alike_induction htrue nil expr branch loop)
            (alike_induction hfalse nil expr branch loop) ihr
      | loop maxIter s hcond hbody =>
          exact loop maxIter s hcond hbody hrest (alike_induction hbody nil expr branch loop) ihr
termination_by sizeOf stmts

/-- Statements are where those are that they are alike to, if this holds of their
    expressions. -/
theorem Located.of_alike {R : Expr → Expr → Prop} {stmts' : List Stmt}
    (hR : ∀ e e', R e e' → e.Located S → e'.Located S)
    (h : List.Forall₂ (Alike R) stmts stmts') : Located S stmts → Located S stmts' := by
  induction h using alike_induction with
  | nil => exact id
  | expr he _ ihr =>
      intro hstmts
      obtain ⟨hself, hrest⟩ := located_expr.mp hstmts
      exact located_expr.mpr ⟨hR _ _ he hself, ihr hrest⟩
  | branch s hcond _ _ _ iht ihf ihr =>
      intro hstmts
      obtain ⟨hs, hself, htrue, hfalse, hrest⟩ := located_branch.mp hstmts
      exact located_branch.mpr ⟨hs, hR _ _ hcond hself, iht htrue, ihf hfalse, ihr hrest⟩
  | loop maxIter s hcond _ _ ihb ihr =>
      intro hstmts
      obtain ⟨hs, hself, hbody, hrest⟩ := located_loop.mp hstmts
      exact located_loop.mpr ⟨hs, hR _ _ hcond hself, ihb hbody, ihr hrest⟩

end Stmt

/-! ## Clauses -/

namespace Clause

variable {S : Span → Prop} {s : Span} {c : Clause}

/-- The spans of the clause: its own, those of its statements and those of all nodes of
    its expressions. -/
def spans (c : Clause) : List Span :=
  c.span :: (c.stmts.map Stmt.span ++ c.exprNodes.map Expr.span)

/-- All of the clause is at one of the places `S`. -/
def Located (S : Span → Prop) (c : Clause) : Prop := ∀ sp ∈ c.spans, S sp

/-- A clause is located with its predicate and its statements. -/
theorem located_iff :
    c.Located S ↔ S c.span ∧ (∀ p, c.predicate = some p → p.Located S) ∧
      Stmt.Located S c.actions := by
  have hpred : (∀ x ∈ Expr.nodesOption c.predicate, S x.span) ↔
      ∀ p, c.predicate = some p → p.Located S := by
    cases c.predicate with
    | none => simp [Expr.nodesOption]
    | some p => simp [Expr.nodesOption, Expr.Located]
  rw [← hpred, Located, spans, exprNodes, List.forall_mem_cons, List.forall_mem_append]
  simp only [List.forall_mem_map, List.forall_mem_append, List.forall_mem_flatMap]
  constructor
  · rintro ⟨hself, hstmts, hpred, hexprs⟩
    exact ⟨hself, hpred, fun stmt hstmt => ⟨hstmts stmt hstmt, hexprs stmt hstmt⟩⟩
  · rintro ⟨hself, hpred, hactions⟩
    exact ⟨hself, fun stmt hstmt => (hactions stmt hstmt).1, hpred,
      fun stmt hstmt => (hactions stmt hstmt).2⟩

/-- A clause without branches and loops is where its expressions are. -/
theorem MadeOf.located (h : c.MadeOf (Expr.Located S)) (hs : S c.span) : c.Located S := by
  refine located_iff.mpr ⟨hs, h.predicate, ?_⟩
  intro stmt hstmt
  obtain ⟨e, he, rfl⟩ := h.stmts stmt hstmt
  exact ⟨he.span, he⟩

/-! ### Clauses that are made at one place -/

/-- A clause that works out a condition stands where the statement does; only its test
    brings places of its own. -/
theorem located_setCondition {value : Expr} (probes : List Probe) (around : Option ConditionId)
    (id : ConditionId) (hs : S s) (hvalue : value.Located S) :
    (setCondition probes around id value s).Located S := by
  have hambient : (Guard.ambient around s).Located S := by
    cases around with
    | none => exact Expr.located_int 1 hs
    | some outer => exact (Slot.condition outer).located_expr hs
  refine MadeOf.located ⟨?_, ?_⟩ hs
  · intro p hp
    obtain rfl := Option.some.inj hp
    exact Expr.located_unary .not hs (Slot.error.located_expr hs)
  · intro stmt hstmt
    refine ⟨_, ?_, List.mem_singleton.mp hstmt⟩
    exact Expr.located_binary .assign hs ((Slot.condition id).located_expr hs)
      (Expr.located_binary .and hs hambient hvalue)

/-- The same for a block and its statements. -/
theorem located_block {stmts : List Stmt} (probes : List Probe) (around : Option ConditionId)
    (anyBefore : Bool) (hs : S s) (hstmts : Stmt.Located S stmts) :
    (block probes around anyBefore stmts s).Located S := by
  have hnoError : (Guard.noError s).Located S :=
    Expr.located_unary .not hs (Slot.error.located_expr hs)
  refine located_iff.mpr ⟨hs, ?_, hstmts⟩
  intro p hp
  cases around with
  | some id =>
      obtain rfl := Option.some.inj hp
      exact Expr.located_binary .and hs hnoError ((Slot.condition id).located_expr hs)
  | none =>
      cases anyBefore with
      | false => cases hp
      | true =>
          obtain rfl := Option.some.inj hp
          exact hnoError

/-- Some slots are given values, all at one place. -/
theorem located_of_assigns {stmts : List Stmt} (probes : List Probe) (hs : S s)
    (hstmts : ∀ stmt ∈ stmts, ∃ (slot : Slot) (value : Expr), value.Located S ∧
      stmt = .expr ((slot.expr s).assign value s)) :
    Located S ⟨probes, none, stmts, s⟩ := by
  refine MadeOf.located ⟨?_, ?_⟩ hs
  · intro p hp
    cases hp
  · intro stmt hstmt
    obtain ⟨slot, value, hvalue, rfl⟩ := hstmts stmt hstmt
    exact ⟨_, Expr.located_binary .assign hs (slot.located_expr hs) hvalue, rfl⟩

theorem located_clearError (probes : List Probe) (hs : S s) : (clearError probes s).Located S := by
  refine located_of_assigns probes hs ?_
  intro stmt hstmt
  exact ⟨.error, .int 0 s, Expr.located_int 0 hs, List.mem_singleton.mp hstmt⟩

theorem located_errorHandler (probe : Probe) (hs : S s) : (errorHandler probe s).Located S := by
  refine located_of_assigns [probe] hs ?_
  intro stmt hstmt
  exact ⟨.error, .int 1 s, Expr.located_int 1 hs, List.mem_singleton.mp hstmt⟩

end Clause

namespace Capture

variable {S : Span → Prop} {s : Span}

theorem located_captureClause (a : Capture) (probes : List Probe) (hs : S s) :
    (a.captureClause probes s).Located S := by
  refine Clause.located_of_assigns _ hs ?_
  intro stmt hstmt
  obtain ⟨f, -, hstmt⟩ := List.mem_filterMap.mp hstmt
  obtain ⟨value, hvalue, rfl⟩ := Option.map_eq_some_iff.mp hstmt
  exact ⟨.entry f a.group, value, EntryField.located_captured hvalue hs, rfl⟩

theorem located_primingClause (a : Capture) (probes : List Probe) (hs : S s) :
    (a.primingClause probes s).Located S :=
  Clause.located_setCondition probes none .first hs
    ((Slot.entry .timestamp a.group).located_expr hs)

theorem located_releaseClause (a : Capture) (probes : List Probe) (hs : S s) :
    (a.releaseClause probes s).Located S := by
  refine Clause.located_of_assigns probes hs ?_
  intro stmt hstmt
  obtain ⟨f, -, rfl⟩ := List.mem_map.mp hstmt
  exact ⟨.entry f a.group, .int 0 s, Expr.located_int 0 hs, rfl⟩

end Capture

namespace Counter

variable {S : Span → Prop}

/-- The clauses of a counter stand where it was asked for. -/
theorem located_increment (counter : Counter) (probes : List Probe) (hs : S counter.span) :
    (counter.increment probes).Located S := by
  refine Clause.MadeOf.located ⟨?_, ?_⟩ hs
  · intro p hp
    cases hp
  · intro stmt hstmt
    refine ⟨_, ?_, List.mem_singleton.mp hstmt⟩
    exact Expr.located_unary .preInc hs ((Slot.callers counter.id).located_expr hs)

theorem located_decrement (counter : Counter) (probes : List Probe) (hs : S counter.span) :
    (counter.decrement probes).Located S := by
  have hslot : (counter.slot counter.span).Located S := (Slot.callers counter.id).located_expr hs
  refine Clause.MadeOf.located ⟨?_, ?_⟩ hs
  · intro p hp
    obtain rfl := Option.some.inj hp
    exact hslot
  · intro stmt hstmt
    exact ⟨_, Expr.located_unary .preDec hs hslot, List.mem_singleton.mp hstmt⟩

end Counter

/-! ## Splitting -/

/-- What statements are split into is where they are.  A clause that works out a condition
    is where the branch or the loop is, and a block where its first statement is. -/
theorem Emitted.Splits.located {S : Span → Prop} {probes : List Probe} {stmts : List Stmt}
    {around : Option ConditionId} {n m : Nat} {ks : List Clause}
    (h : Splits probes stmts around n ks m) (hstmts : Stmt.Located S stmts) :
    ∀ k ∈ ks, k.Located S := by
  induction h with
  | nil around n => exact List.forall_mem_nil _
  | run first more _ _ ih =>
      obtain ⟨hrun, hrest⟩ := Stmt.located_append.mp hstmts
      have hfirst := Stmt.located_map_expr.mp hrun first List.mem_cons_self
      exact List.forall_mem_cons.mpr
        ⟨Clause.located_block _ _ _ hfirst.span hrun, ih hrest⟩
  | branch cond s _ _ iht ihr =>
      obtain ⟨hs, hcond, htrue, -, hrest⟩ := Stmt.located_branch.mp hstmts
      exact List.forall_mem_cons.mpr ⟨Clause.located_setCondition _ _ _ hs hcond,
        List.forall_mem_append.mpr ⟨iht htrue, ihr hrest⟩⟩
  | branchElse cond s _ _ _ _ iht ihf ihr =>
      obtain ⟨hs, hcond, htrue, hfalse, hrest⟩ := Stmt.located_branch.mp hstmts
      have hother : ∀ id, ((Guard.condition id s).not s).Located S := fun id =>
        Expr.located_unary .not hs ((Slot.condition id).located_expr hs)
      exact List.forall_mem_cons.mpr ⟨Clause.located_setCondition _ _ _ hs hcond,
        List.forall_mem_append.mpr ⟨iht htrue, List.forall_mem_cons.mpr
          ⟨Clause.located_setCondition _ _ _ hs (hother _),
            List.forall_mem_append.mpr ⟨ihf hfalse, ihr hrest⟩⟩⟩⟩
  | loop cond maxIter s _ _ ihb ihr =>
      obtain ⟨hs, hcond, hbody, hrest⟩ := Stmt.located_loop.mp hstmts
      refine List.forall_mem_cons.mpr ⟨Clause.located_setCondition _ _ _ hs
        (Expr.located_int 1 hs), List.forall_mem_append.mpr ⟨?_, ihr hrest⟩⟩
      intro k hk
      rcases List.mem_cons.mp (mem_of_mem_copies hk) with rfl | hk
      · exact Clause.located_setCondition _ _ _ hs hcond
      · exact ihb hbody k hk

/-! ## Resolution -/

/-- Two lists that are related item by item, however the state goes along. -/
theorem Expr.Threaded.forall₂ {σ : Type} {R : Expr → Expr → Prop} {es es' : List Expr} {s t : σ}
    (h : Threaded (fun e _ e' _ => R e e') es s es' t) : List.Forall₂ R es es' := by
  induction h with
  | nil s => exact .nil
  | cons hhead _ ih => exact .cons hhead ih

namespace Resolution

variable {S : Span → Prop} {inReturn : Bool}

/-- What stands in the place of a form is where the form is. -/
theorem located_replace {r r' : Resolution} {form : Form} {e' : Expr} {s : Span}
    (h : r.replace form s = (e', r')) (hs : S s) : e'.Located S := by
  obtain ⟨-, ⟨f, -, hin, -⟩ | ⟨targets, -, rfl, -⟩⟩ := replace_cases h
  · exact Expr.located_of_forall_eq hin.span_of_mem_nodes hs
  · exact Slot.located_expr _ hs

/-- Resolution leaves an expression where it is. -/
theorem located_walk (e : Expr) (r : Resolution) :
    e.Located S → (e.walk (step inReturn) r).1.Located S := by
  refine Expr.walk_induction (P := fun e _ e' _ => e.Located S → e'.Located S) ?_ ?_ e r
  · intro e r a hstep he
    rcases step_cases hstep with ⟨-, hsame, -⟩ | ⟨-, form, -, hrep⟩ | ⟨-, s, -, hsame, -⟩
    · rwa [hsame]
    · exact located_replace hrep he.span
    · rwa [hsame]
  · intro e r ps r' _ hps he
    have hlist : ∀ {es es' : List Expr},
        List.Forall₂ (fun e e' => e.Located S → e'.Located S) es es' →
          (∀ p ∈ es, p.Located S) → ∀ p ∈ es', p.Located S := by
      intro es es' h hes
      induction h with
      | nil => exact hes
      | cons hhead _ ih =>
          obtain ⟨hfirst, hrest⟩ := List.forall_mem_cons.mp hes
          exact List.forall_mem_cons.mpr ⟨hhead hfirst, ih hrest⟩
    obtain ⟨hself, hparts⟩ := Expr.located_iff.mp he
    refine Expr.located_iff.mpr ⟨?_, ?_⟩
    · rwa [Expr.span_rebuild]
    · rw [Expr.parts_rebuild hps.length_eq]
      exact hlist hps.forall₂ hparts

end Resolution

namespace Clause

variable {S : Span → Prop} {c : Clause} {inReturn : Bool} {ids : Ids}

/-- Resolution leaves a clause where it is. -/
theorem Located.resolve (h : c.Located S) : (c.resolve inReturn ids).clause.Located S := by
  obtain ⟨hspan, hpred, hactions⟩ := located_iff.mp h
  refine located_iff.mpr ⟨hspan, ?_, ?_⟩
  · intro p hp
    rw [resolve_clause] at hp
    cases hsource : c.predicate with
    | none => simp [walk, hsource, Expr.walkOption] at hp
    | some q =>
        simp only [walk, hsource, Expr.walkOption, Option.some.injEq] at hp
        rw [← hp]
        exact Resolution.located_walk q _ (hpred q hsource)
  · exact .of_alike (R := fun e e' => e.Located S → e'.Located S) (fun _ _ hR => hR)
      (Stmt.alike_walkList Resolution.located_walk _ _) hactions

/-- A counter is where the form is that asks for it. -/
theorem Located.counter (h : c.Located S) {counter : Counter}
    (hcounter : counter ∈ (c.resolution inReturn ids).counters) : S counter.span := by
  have hasked := (Resolution.asked_replaceAll ids (Request.met inReturn c.exprNodes)).1
  rw [resolution_eq, hasked.counters] at hcounter
  obtain ⟨i, hi, rfl⟩ := List.mem_mapIdx.mp hcounter
  obtain ⟨q, hq, htargets⟩ := List.mem_filterMap.mp (List.getElem_mem hi)
  obtain ⟨x, hx, hform⟩ := List.mem_filterMap.mp hq
  obtain ⟨form, -, rfl⟩ := Option.map_eq_some_iff.mp hform
  have hnode : x ∈ c.exprNodes := (List.takeWhile_sublist _).mem hx
  cases form with
  | callers targets =>
      rw [← Option.some.inj htargets]
      exact h _ (List.mem_cons_of_mem _ (List.mem_append_right _ (List.mem_map_of_mem hnode)))
  | _ => cases htargets

end Clause

/-! ## Expansion -/

/-- A body is where the clause is that it is made from. -/
theorem Body.located {S : Span → Prop} {c : Clause} (h : c.Located S) (needs : Needs) :
    ∀ k ∈ (ofClause c needs).clauses, k.Located S := by
  cases hfast : isFast needs with
  | true =>
      rw [ofClause_of_isFast hfast]
      exact List.forall_mem_singleton.mpr h
  | false =>
      rw [ofClause_eq_split hfast]
      obtain ⟨-, hpred, hactions⟩ := Clause.located_iff.mp h
      have hsplit : ∀ around n,
          ∀ k ∈ (Emitted.ofStmts c.probes c.actions [] around n).clauses, k.Located S :=
        fun around n => (Emitted.splits_ofStmts c.probes c.actions around n).located hactions
      cases hp : c.predicate with
      | none =>
          simp only [Clause.split, hp]
          exact hsplit _ _
      | some p =>
          simp only [Clause.split, hp]
          have htest := hpred p hp
          exact List.forall_mem_cons.mpr
            ⟨Clause.located_setCondition _ _ _ htest.span htest, hsplit _ _⟩

namespace Session

variable {S : Span → Prop} {s : Session} {c : Clause} {needs : Needs} {callers : CallersClauses}
  {out : List Clause}

/-- The clauses that an expansion puts before a body. -/
def opening (s : Session) (c : Clause) (needs : Needs) (callers : CallersClauses) : List Clause :=
  (if s.needsHandler (assembled c needs callers) then [.errorHandler s.errorProbe c.span]
    else []) ++
    callers.increments ++ (needs.capture.map (·.captureClause c.probes c.span)).toList ++
    (if 0 < (Body.ofClause c needs).conditions then [.clearError c.probes c.span] else []) ++
    (needs.capture.map (·.primingClause c.probes c.span)).toList

/-- The clauses that it puts after the body. -/
def closing (c : Clause) (needs : Needs) (callers : CallersClauses) : List Clause :=
  (needs.capture.map (·.releaseClause c.probes c.span)).toList ++ callers.decrements

/-- An expansion is what opens it, its body, and what closes it; only the body has nodes
    of the source. -/
theorem withHandler_assembled (s : Session) (c : Clause) (needs : Needs)
    (callers : CallersClauses) :
    s.withHandler (assembled c needs callers) c.span =
      s.opening c needs callers ++ (Body.ofClause c needs).clauses ++ closing c needs callers := by
  have hassembled : s.withHandler (assembled c needs callers) c.span =
      (if s.needsHandler (assembled c needs callers) then [.errorHandler s.errorProbe c.span]
        else []) ++ assembled c needs callers := by
    unfold withHandler
    split <;> rfl
  rw [hassembled]
  simp only [opening, closing, assembled, surround, List.append_assoc]

/-- What is put around a body is at one place, clause by clause: the clauses that keep a
    counter where the counter is asked for, the others where the clause itself is. -/
theorem located_around (hcallers : CallersClauses.ofCounters needs.counters = .ok callers)
    (hcounters : ∀ counter ∈ needs.counters, S counter.span) (hspan : S c.span) :
    ∀ k ∈ s.opening c needs callers ++ closing c needs callers,
      ∃ sp, S sp ∧ k.Located (· = sp) := by
  obtain ⟨hinc, hdec⟩ := CallersClauses.mem_ofCounters hcallers
  have hcapture : ∀ {f : Capture → Clause}, (∀ a, (f a).Located (· = c.span)) →
      ∀ k ∈ (needs.capture.map f).toList, k.Located (· = c.span) := by
    intro f hf k hk
    obtain ⟨a, -, rfl⟩ := Option.map_eq_some_iff.mp (Option.mem_toList.mp hk)
    exact hf a
  have hoptional : ∀ {p : Prop} [Decidable p] {x : Clause}, x.Located (· = c.span) →
      ∀ k ∈ (if p then [x] else []), k.Located (· = c.span) := by
    intro p _ x hx k hk
    split at hk
    · exact List.mem_singleton.mp hk ▸ hx
    · cases hk
  intro k hk
  simp only [opening, closing, List.mem_append] at hk
  rcases hk with ((((hk | hk) | hk) | hk) | hk) | hk | hk
  · exact ⟨_, hspan, hoptional (Clause.located_errorHandler _ rfl) k hk⟩
  · obtain ⟨counter, hcounter, probes, rfl⟩ := hinc k hk
    exact ⟨_, hcounters counter hcounter, counter.located_increment probes rfl⟩
  · exact ⟨_, hspan, hcapture (fun a => a.located_captureClause _ rfl) k hk⟩
  · exact ⟨_, hspan, hoptional (Clause.located_clearError _ rfl) k hk⟩
  · exact ⟨_, hspan, hcapture (fun a => a.located_primingClause _ rfl) k hk⟩
  · exact ⟨_, hspan, hcapture (fun a => a.located_releaseClause _ rfl) k hk⟩
  · obtain ⟨counter, hcounter, probes, rfl⟩ := hdec k hk
    exact ⟨_, hcounters counter hcounter, counter.located_decrement probes rfl⟩

/-- An expansion leads to the body of the source after resolution, with clauses around it
    that are each at one place of the source. -/
theorem of_expand_around (h : (s.expand c).result = .ok out) :
    ∃ needs before after, (c.resolve c.allReturn s.ids).needs = .ok needs ∧
      out = before ++ (Body.ofClause (c.resolve c.allReturn s.ids).clause needs).clauses ++ after ∧
      ∀ k ∈ before ++ after, ∃ sp ∈ c.spans, k.Located (· = sp) := by
  obtain ⟨needs, callers, hneeds, hcallers, rfl⟩ := of_expand_ok h
  refine ⟨needs, _, _, hneeds, s.withHandler_assembled _ needs callers, ?_⟩
  refine located_around hcallers ?_ List.mem_cons_self
  intro counter hcounter
  rw [(Clause.of_resolve_needs hneeds).2.2.1] at hcounter
  exact Clause.Located.counter (fun _ hsp => hsp) hcounter

/-- Nothing comes out that is at a place where nothing of the source is. -/
theorem located_of_mem_expand (h : (s.expand c).result = .ok out) :
    ∀ k ∈ out, k.Located (· ∈ c.spans) := by
  obtain ⟨needs, before, after, -, rfl, haround⟩ := of_expand_around h
  have hbody : ∀ k ∈ (Body.ofClause (c.resolve c.allReturn s.ids).clause needs).clauses,
      k.Located (· ∈ c.spans) :=
    Body.located (Clause.Located.resolve fun _ hsp => hsp) needs
  have hplace : ∀ k ∈ before ++ after, k.Located (· ∈ c.spans) := by
    intro k hk sp hsp
    obtain ⟨place, hplace, hlocated⟩ := haround k hk
    rw [hlocated sp hsp]
    exact hplace
  obtain ⟨hbefore, hafter⟩ := List.forall_mem_append.mp hplace
  exact List.forall_mem_append.mpr ⟨List.forall_mem_append.mpr ⟨hbefore, hbody⟩, hafter⟩

end Session

end ProbeLang
