import Mathlib.Data.List.Forall2
import ProbeLang.Proofs.Handler
import ProbeLang.Proofs.Renaming

/-! # An expansion does not depend on what was handed out before

    What a clause turns into is the same in every session, except for the numbers in
    the names of slots and for the error handler in front.  Two sessions that have room
    for the numbers of a clause hand out as many for it, fail for the same reason, and
    come to clauses that are equal after renaming (`Session.expand_equivariant`).

    Both put slots in the places of the same forms.  Renaming what is put there renames
    the clause (`Clause.substitute_rename`), the two clauses need the same up to names
    (`Needs.Alike`), and all that is built from a renamed clause is what is built from
    the clause, renamed. -/

namespace ProbeLang

variable {ρ : String → String}

/-! ## Clauses that are built -/

namespace Slot.SparesLocals

variable (hρ : Slot.SparesLocals ρ) {probes : List Probe} {around : Option ConditionId} {s : Span}

include hρ

/-- Guards speak of the flag and of conditions only, which are spared. -/
theorem noError (s : Span) : (Guard.noError s).rename ρ = Guard.noError s :=
  congrArg (Expr.unary .not · s) (hρ.errorFlag s)

theorem ambient (around : Option ConditionId) (s : Span) :
    (Guard.ambient around s).rename ρ = Guard.ambient around s := by
  cases around with
  | none => rfl
  | some id => exact hρ.conditionExpr id s

/-- A clause that works out a condition is renamed in its test. -/
theorem setCondition (id : ConditionId) (e : Expr) :
    (Clause.setCondition probes around id e s).rename ρ =
      Clause.setCondition probes around id (e.rename ρ) s := by
  rw [Clause.rename_eq]
  simp [Clause.setCondition, Expr.assign, Expr.and, hρ.noError, hρ.ambient, Guard.condition,
    hρ.conditionExpr]

/-- A block is renamed in its statements; whether it has a guard does not depend on
    them. -/
theorem block (anyBefore : Bool) (stmts : List Stmt) :
    (Clause.block probes around anyBefore stmts s).rename ρ =
      Clause.block probes around anyBefore (stmts.map (Stmt.rename ρ)) s := by
  have hguard : (Guard.block? around anyBefore s).map (Expr.rename ρ) =
      Guard.block? around anyBefore s := by
    cases around with
    | none =>
        cases anyBefore with
        | false => rfl
        | true => exact congrArg some (hρ.noError s)
    | some id =>
        simp [Guard.block?, Expr.and, hρ.noError, Guard.condition, hρ.conditionExpr]
  rw [Clause.rename_eq]
  show (⟨probes, (Guard.block? around anyBefore s).map (Expr.rename ρ), _, s⟩ : Clause) = _
  rw [hguard]
  rfl

/-- The clause that takes the flag down is spared as a whole. -/
theorem clearError : (Clause.clearError probes s).rename ρ = Clause.clearError probes s := by
  rw [Clause.rename_eq]
  simp [Clause.clearError, Expr.assign, Guard.errorFlag, hρ.errorFlag]

end Slot.SparesLocals

/-! ## Blocks -/

namespace Emitted

/-- The same clauses with other names. -/
def rename (ρ : String → String) (m : Emitted) : Emitted :=
  { m with clauses := m.clauses.map (Clause.rename ρ) }

/-- Pending statements make a block, or none if there are none, on both sides. -/
theorem block_rename (hρ : Slot.SparesLocals ρ) (probes : List Probe) (around : Option ConditionId)
    (n : Nat) (pending : List Stmt) :
    block probes around n (pending.map (Stmt.rename ρ)) =
      (block probes around n pending).map (Clause.rename ρ) := by
  cases pending with
  | nil => rfl
  | cons stmt rest =>
      show [Clause.block probes around (0 < n) ((stmt :: rest).map (Stmt.rename ρ))
        (stmt.rename ρ).span] = [(Clause.block probes around (0 < n) (stmt :: rest)
          stmt.span).rename ρ]
      rw [hρ.block, Stmt.span_rename]

mutual
/-- A renamed statement is split like the statement. -/
theorem ofStmt_rename (hρ : Slot.SparesLocals ρ) (probes : List Probe) : ∀ (stmt : Stmt)
    (around : Option ConditionId) (n : Nat),
      ofStmt probes (stmt.rename ρ) around n = (ofStmt probes stmt around n).rename ρ
  | .expr e, around, n => by
      show Emitted.mk (block probes around n [.expr (e.rename ρ)]) n [] =
        ⟨(block probes around n [.expr e]).map (Clause.rename ρ), n, []⟩
      rw [← block_rename hρ]
      rfl
  | .branch cond onTrue onFalse s, around, n => by
      have htrue := ofStmts_rename hρ probes onTrue [] (some (.after n)) (n + 1)
      have hfalse := ofStmts_rename hρ probes onFalse []
      have hother : ∀ id, ((Guard.condition id s).not s).rename ρ = (Guard.condition id s).not s :=
        fun id => congrArg (Expr.unary .not · s) (hρ.conditionExpr id s)
      simp only [List.map_nil] at htrue hfalse
      rw [Stmt.rename_branch]
      simp only [ofStmt, List.isEmpty_map, htrue, hfalse]
      split
      · simp [rename, hρ.setCondition]
      · simp [rename, hρ.setCondition, hother]
  | .loop cond maxIter body s, around, n => by
      have hbody := ofStmts_rename hρ probes body [] (some (.after n)) (n + 1)
      rw [List.map_nil] at hbody
      rw [Stmt.rename_loop]
      simp only [ofStmt, hbody]
      simp [rename, hρ.setCondition, List.map_flatten]

/-- By recursion on the statements, with the pending ones along: renamed statements are
    split as the statements are, and the pieces are renamed. -/
theorem ofStmts_rename (hρ : Slot.SparesLocals ρ) (probes : List Probe) :
    ∀ (stmts pending : List Stmt) (around : Option ConditionId) (n : Nat),
      ofStmts probes (stmts.map (Stmt.rename ρ)) (pending.map (Stmt.rename ρ)) around n =
        (ofStmts probes stmts pending around n).rename ρ
  | [], pending, around, n => by
      show Emitted.mk (block probes around n (pending.map (Stmt.rename ρ))) n [] = _
      rw [block_rename hρ]
      rfl
  | stmt :: stmts, pending, around, n => by
      have hhead := ofStmt_rename hρ probes stmt around n
      have htail := ofStmts_rename hρ probes stmts
      rw [List.map_cons, ofStmts, ofStmts, Stmt.isStructured_rename]
      split
      · have hrest := htail [] around (ofStmt probes stmt around n).allocated
        rw [List.map_nil] at hrest
        simp only [hhead, block_rename hρ]
        simp [rename, hrest]
      · rw [← List.map_singleton, ← List.map_append, htail]
end

end Emitted

/-- A clause is split at the same places, whatever the names in it are. -/
theorem Clause.split_rename (hρ : Slot.SparesLocals ρ) (c : Clause) (around : Option ConditionId)
    (n : Nat) : (c.rename ρ).split around n = (c.split around n).rename ρ := by
  rw [Clause.rename_eq]
  cases hp : c.predicate with
  | none =>
      simp only [split, hp, Option.map_none]
      exact Emitted.ofStmts_rename hρ c.probes c.actions [] around n
  | some p =>
      have hacts := Emitted.ofStmts_rename hρ c.probes c.actions [] (some (.after n)) (n + 1)
      rw [List.map_nil] at hacts
      simp only [split, hp, Option.map_some, hacts]
      simp [Emitted.rename, hρ.setCondition]

/-- The same body with other names. -/
def Body.rename (ρ : String → String) (body : Body) : Body :=
  { body with clauses := body.clauses.map (Clause.rename ρ) }

/-- So the body of an expansion is renamed too, if both sides need a capture or neither
    does, and both have control flow or neither does. -/
theorem Body.ofClause_rename (hρ : Slot.SparesLocals ρ) (c : Clause) {needs needs' : Needs}
    (hcapture : needs'.needsCapture = needs.needsCapture)
    (hflow : needs'.hasControlFlow = needs.hasControlFlow) :
    ofClause (c.rename ρ) needs' = (ofClause c needs).rename ρ := by
  have hfast : isFast needs' = isFast needs := by rw [isFast, isFast, hcapture, hflow]
  cases h : isFast needs with
  | true =>
      rw [ofClause_of_isFast h, ofClause_of_isFast (hfast.trans h)]
      rfl
  | false =>
      rw [ofClause_eq_split h, ofClause_eq_split (hfast.trans h), Needs.around, Needs.before,
        hcapture, Clause.split_rename hρ]
      rfl

/-! ## Counters -/

/-- The same clauses with other names. -/
def CallersClauses.rename (ρ : String → String) (callers : CallersClauses) : CallersClauses :=
  ⟨callers.increments.map (Clause.rename ρ), callers.decrements.map (Clause.rename ρ)⟩

namespace Counter

/-- Two counters that differ in their numbers only, and are called alike after renaming. -/
structure Alike (ρ : String → String) (x y : Counter) : Prop where
  name : ρ (Slot.callers x.id).name = (Slot.callers y.id).name
  targets : y.targets = x.targets
  span : y.span = x.span

variable {x y : Counter}

/-- The clauses of a counter follow its number. -/
theorem increment_rename (hρ : Slot.SparesLocals ρ) (h : Alike ρ x y) (probes : List Probe) :
    (x.increment probes).rename ρ = y.increment probes := by
  rw [Clause.rename_eq]
  simp [increment, slot, hρ.callersExpr h.name, h.span]

theorem decrement_rename (hρ : Slot.SparesLocals ρ) (h : Alike ρ x y) (probes : List Probe) :
    (x.decrement probes).rename ρ = y.decrement probes := by
  rw [Clause.rename_eq]
  simp [decrement, slot, hρ.callersExpr h.name, h.span]

/-- The number of a counter has no part in what is read from its targets. -/
theorem clauses_rename (hρ : Slot.SparesLocals ρ) (h : Alike ρ x y) :
    y.clauses = x.clauses.map fun pair => (pair.1.rename ρ, pair.2.rename ρ) := by
  have hprobes : ∀ name, y.targetProbes name = x.targetProbes name := by
    intro name
    have hone : y.targetProbe name = x.targetProbe name := by
      funext target
      simp only [targetProbe, h.span]
    rw [targetProbes, targetProbes, hone, h.targets]
  unfold clauses
  rw [hprobes, hprobes]
  cases x.targetProbes "entry" with
  | error e => rfl
  | ok entries =>
      cases x.targetProbes "return" with
      | error e => rfl
      | ok returns =>
          show Except.ok _ = Except.ok _
          rw [← increment_rename hρ h, ← decrement_rename hρ h]

end Counter

/-- Both sides refuse the same target, or make clauses that differ in the numbers only. -/
theorem CallersClauses.ofCounters_rename (hρ : Slot.SparesLocals ρ) {xs ys : List Counter}
    (h : List.Forall₂ (Counter.Alike ρ) xs ys) :
    ofCounters ys = (ofCounters xs).map (CallersClauses.rename ρ) := by
  have hpairs : ys.mapM Counter.clauses = (xs.mapM Counter.clauses).map
      (List.map fun pair => (pair.1.rename ρ, pair.2.rename ρ)) := by
    induction h with
    | nil => rfl
    | @cons x y xs ys hxy _ ih =>
        rw [List.mapM_cons, List.mapM_cons, Counter.clauses_rename hρ hxy, ih]
        cases x.clauses with
        | error e => rfl
        | ok pair => cases xs.mapM Counter.clauses <;> rfl
  unfold ofCounters
  rw [hpairs]
  cases xs.mapM Counter.clauses with
  | error e => rfl
  | ok pairs =>
      show Except.ok _ = Except.ok _
      simp [rename, Function.comp_def]

/-! ## Captured values -/

namespace Capture

/-- Two captures of the same fields whose slots are called alike after renaming. -/
structure Alike (ρ : String → String) (x y : Capture) : Prop where
  name : ∀ f, ρ (Slot.entry f x.group).name = (Slot.entry f y.group).name
  fields : y.fields = x.fields

variable {x y : Capture} {probes : List Probe} {s : Span}

/-- A captured value is kept under the number of the group. -/
theorem slot_rename (hρ : Slot.SparesLocals ρ) (h : Alike ρ x y) (f : EntryField) (s : Span) :
    (x.slot f s).rename ρ = y.slot f s :=
  hρ.entryExpr (h.name f) s

/-- What is captured is an expression of the script's own variables, which are spared. -/
theorem captured?_rename (hρ : Slot.SparesOthers ρ) (f : EntryField) (s : Span) :
    (f.captured? s).map (Expr.rename ρ) = f.captured? s := by
  have hargs : ρ "args" = "args" := hρ rfl
  have hname : ρ f.name = f.name := hρ (Slot.isReserved_fieldName f)
  cases f with
  | elapsed unit => rfl
  | args n =>
      show some (Expr.index (.ident (ρ "args") s) [.int (UInt64.ofNat n) s] s) = _
      rw [hargs]
      rfl
  | _ => exact congrArg (fun name => some (Expr.ident name s)) hname

/-- So the capture, the marker and the release each follow the number of the group. -/
theorem captureClause_rename (hρ : Slot.SparesLocals ρ) (h : Alike ρ x y) :
    (x.captureClause probes s).rename ρ = y.captureClause probes s := by
  have hstmt : ∀ f, (x.capture? s f).map (Stmt.rename ρ) = y.capture? s f := by
    intro f
    have hvalue := captured?_rename hρ.others f s
    unfold capture?
    cases hcap : f.captured? s with
    | none => rfl
    | some value =>
        rw [hcap] at hvalue
        have hkept : value.rename ρ = value := Option.some.inj hvalue
        show some (Stmt.expr (.binary .assign ((x.slot f s).rename ρ) (value.rename ρ) s)) = _
        rw [slot_rename hρ h, hkept]
        rfl
  rw [Clause.rename_eq]
  simp [captureClause, List.map_filterMap, hstmt, h.fields]

theorem primingClause_rename (hρ : Slot.SparesLocals ρ) (h : Alike ρ x y) :
    (x.primingClause probes s).rename ρ = y.primingClause probes s := by
  rw [primingClause, hρ.setCondition, slot_rename hρ h]
  rfl

theorem releaseClause_rename (hρ : Slot.SparesLocals ρ) (h : Alike ρ x y) :
    (x.releaseClause probes s).rename ρ = y.releaseClause probes s := by
  rw [Clause.rename_eq]
  simp [releaseClause, Expr.assign, slot_rename hρ h, Function.comp_def, h.fields]

end Capture

/-- What stands around a renamed clause is what stands around the clause, renamed. -/
theorem Session.surround_rename (hρ : Slot.SparesLocals ρ) (c : Clause)
    {capture capture' : Option Capture} (h : Option.Rel (Capture.Alike ρ) capture capture')
    (callers : CallersClauses) (body : Body) :
    surround (c.rename ρ) capture' (callers.rename ρ) (body.rename ρ) =
      (surround c capture callers body).map (Clause.rename ρ) := by
  have hprobes : (c.rename ρ).probes = c.probes := rfl
  have hspan : (c.rename ρ).span = c.span := rfl
  have hclear : ((if 0 < body.conditions then [Clause.clearError c.probes c.span] else []).map
      (Clause.rename ρ)) =
        if 0 < body.conditions then [Clause.clearError c.probes c.span] else [] := by
    split
    · rw [List.map_singleton, hρ.clearError]
    · rfl
  unfold surround
  rw [hprobes, hspan]
  simp only [List.map_append, hclear]
  cases h with
  | none => rfl
  | some hxy =>
      simp only [Option.map_some, Option.toList_some, List.map_singleton,
        Capture.captureClause_rename hρ hxy, Capture.primingClause_rename hρ hxy,
        Capture.releaseClause_rename hρ hxy]
      rfl

/-! ## Other names in what is put in -/

namespace Expr

variable {inReturn : Bool}

private theorem substituteList_rename_of {es : List Expr}
    (h : ∀ e ∈ es, ∀ new : List Expr, e.substitute inReturn (new.map (rename ρ)) =
      (e.substitute inReturn new).rename ρ) (new : List Expr) :
    substituteList inReturn es (new.map (rename ρ)) =
      (substituteList inReturn es new).map (rename ρ) := by
  induction es generalizing new with
  | nil => rfl
  | cons e es ih =>
      rw [substituteList, substituteList, List.map_cons, h e List.mem_cons_self, ← List.map_drop,
        ih fun p hp => h p (List.mem_cons_of_mem e hp)]

/-- To rename what is put in is to rename the outcome: the expression around it has no
    name that would change. -/
theorem substitute_rename (hρ : Slot.SparesOthers ρ) {e : Expr} (he : e.Unreserved)
    (new : List Expr) :
    e.substitute inReturn (new.map (rename ρ)) = (e.substitute inReturn new).rename ρ := by
  induction e using inductionOnParts generalizing new with
  | node e ih =>
      cases h : Form.of? inReturn e with
      | some form =>
          rw [substitute_of_form h, substitute_of_form h]
          cases new with
          | nil => exact (rename_eq_self hρ he).symm
          | cons => rfl
      | none =>
          have hparts := substituteList_rename_of (fun p hp => ih p hp (he.of_mem_parts hp)) new
          rw [substitute_of_none h, substitute_of_none h, hparts]
          cases hid : e.identName? with
          | none => exact (rename_rebuild hid (length_substituteList _ _)).symm
          | some name =>
              -- an identifier has no parts, and keeps its name
              obtain ⟨s, rfl⟩ := identName?_eq_some hid
              exact (rename_eq_self hρ he).symm

end Expr

namespace Stmt

mutual
/-- A statement is renamed through the expressions that it evaluates. -/
theorem withExprs_rename (ρ : String → String) : ∀ (stmt : Stmt) (es : List Expr),
    stmt.nodes.length ≤ es.length →
      (stmt.withExprs es).rename ρ = stmt.withExprs (es.map (Expr.rename ρ))
  | expr e, e' :: es, _ => rfl
  | branch cond onTrue onFalse s, e :: es, h => by
      simp only [nodes, List.length_cons, List.length_append] at h
      have htrue := withExprsList_rename ρ onTrue es (by omega)
      have hfalse := withExprsList_rename ρ onFalse (es.drop (nodesList onTrue).length)
        (by rw [List.length_drop]; omega)
      simp only [withExprs, rename_branch, List.headD_cons, List.tail_cons, List.map_cons, htrue,
        hfalse, List.map_drop]
  | loop cond maxIter body s, e :: es, h => by
      simp only [nodes, List.length_cons] at h
      have hbody := withExprsList_rename ρ body es (by omega)
      simp only [withExprs, rename_loop, List.headD_cons, List.tail_cons, List.map_cons, hbody]

theorem withExprsList_rename (ρ : String → String) : ∀ (stmts : List Stmt) (es : List Expr),
    (nodesList stmts).length ≤ es.length →
      (withExprsList stmts es).map (rename ρ) = withExprsList stmts (es.map (Expr.rename ρ))
  | [], es, _ => rfl
  | stmt :: stmts, es, h => by
      simp only [nodesList, List.length_append] at h
      have hhead := withExprs_rename ρ stmt es (by omega)
      have htail := withExprsList_rename ρ stmts (es.drop stmt.nodes.length)
        (by rw [List.length_drop]; omega)
      simp only [withExprsList, List.map_cons, hhead, htail, List.map_drop]
end

end Stmt

/-- To rename what is put into a clause is to rename the outcome. -/
theorem Clause.substitute_rename (hρ : Slot.SparesOthers ρ) {c : Clause} (hc : c.Unreserved)
    (inReturn : Bool) (new : List Expr) :
    c.substitute inReturn (new.map (Expr.rename ρ)) = (c.substitute inReturn new).rename ρ := by
  have hexprs : Expr.substituteList inReturn c.exprs (new.map (Expr.rename ρ)) =
      (Expr.substituteList inReturn c.exprs new).map (Expr.rename ρ) :=
    Expr.substituteList_rename_of
      (fun e he => Expr.substitute_rename hρ (hc.of_mem_exprs he)) new
  have hlength : (Expr.substituteList inReturn c.exprs new).length =
      c.predicate.toList.length + (Stmt.nodesList c.actions).length := by
    rw [Expr.length_substituteList, exprs, List.length_append, List.length_map, stmts]
  rw [substitute, substitute, hexprs, rename_eq]
  generalize Expr.substituteList inReturn c.exprs new = es at hlength
  have hacts := Stmt.withExprsList_rename ρ c.actions (es.drop c.predicate.toList.length)
    (by rw [List.length_drop]; omega)
  have hpred : c.predicate.map (fun p => (es.map (Expr.rename ρ)).headD p) =
      (c.predicate.map fun p => es.headD p).map (Expr.rename ρ) := by
    cases hp : c.predicate with
    | none => rfl
    | some p =>
        cases es with
        | nil =>
            simp only [hp, List.length_nil, Option.toList_some, List.length_singleton] at hlength
            omega
        | cons e es => rfl
  simp only [withExprs, hacts, hpred, List.map_drop]

/-! ## Two resolutions -/

/-- What a form is replaced by is renamed through the slot that stands in its place. -/
theorem Form.replacement_rename (hρ : Slot.SparesLocals ρ) (form : Form)
    {group group' id id' : UInt32} (s : Span)
    (hentry : ∀ f, form.captures? = some f →
      ρ (Slot.entry f group).name = (Slot.entry f group').name)
    (hcallers : form.captures? = none → ρ (Slot.callers id).name = (Slot.callers id').name) :
    (form.replacement group id s).rename ρ = form.replacement group' id' s := by
  cases form with
  | callers targets => exact hρ.callersExpr (hcallers rfl) s
  | arg n => exact hρ.entryExpr (hentry _ rfl) s
  | field f =>
      cases f with
      | elapsed unit =>
          have htime : ρ "timestamp" = "timestamp" := hρ.others rfl
          have hslot := hρ.entryExpr (hentry .timestamp rfl) s
          simp [replacement, hslot, htime]
      | _ => exact hρ.entryExpr (hentry _ rfl) s

/-- What two clauses need, if it is the same up to names. -/
structure Needs.Alike (ρ : String → String) (needs needs' : Needs) : Prop where
  capture : Option.Rel (Capture.Alike ρ) needs.capture needs'.capture
  counters : List.Forall₂ (Counter.Alike ρ) needs.counters needs'.counters
  branches : needs'.branches = needs.branches
  loops : needs'.loops = needs.loops

/-- A group on one side is a group on the other. -/
theorem Needs.Alike.needsCapture {needs needs' : Needs} (h : needs.Alike ρ needs') :
    needs'.needsCapture = needs.needsCapture := by
  obtain ⟨capture, _, _, _⟩ := needs
  obtain ⟨capture', _, _, _⟩ := needs'
  have hcapture : Option.Rel (Capture.Alike ρ) capture capture' := h.capture
  cases hcapture <;> rfl

section Room

variable {a b : Ids} {qs : List Request} (ha : a.RoomFor qs) (hb : b.RoomFor qs)

include ha hb

/-- The slots that stand in the places of some forms after `b` are those after `a`,
    renamed. -/
theorem Request.replacements_rename :
    replacements b qs = (replacements a qs).map (Expr.rename (a.rename b)) := by
  refine List.ext_getElem (by simp [replacements]) fun i hi _ => ?_
  rw [replacements, List.length_mapIdx] at hi
  simp only [replacements, List.getElem_map, List.getElem_mapIdx]
  refine (Form.replacement_rename (a.sparesLocals_rename b) _ _ ?_ ?_).symm
  · intro f hf
    have hmem : f ∈ fields qs := List.mem_filterMap.mpr ⟨qs[i], List.getElem_mem hi, hf⟩
    exact Ids.rename_entry ha hb (by rw [groupCount_of_mem_fields hmem]; exact Nat.one_pos) f
  · -- the form is itself among those that take the counters up to its own
    intro hnone
    have hcallers : qs[i].isCallers = true := isCallers_of_captures? hnone
    have hself : qs[i] ∈ qs.take (i + 1) := List.mem_take_iff_getElem.mpr ⟨i, by omega, rfl⟩
    exact Ids.rename_callers ha hb (List.countP_pos_iff.mpr ⟨_, hself, hcallers⟩)
      (List.take_sublist _ _).countP_le

/-- The same requests are met on both sides, each with the numbers of its own session. -/
theorem Clause.alike_needsOf (c : Clause) :
    (c.needsOf a qs).Alike (a.rename b) (c.needsOf b qs) where
  capture := by
    show Option.Rel _ (Request.capture a qs) (Request.capture b qs)
    unfold Request.capture
    split
    · exact .none
    · rename_i hsome
      have hone : Request.groupCount qs = 1 := if_neg hsome
      exact .some ⟨Ids.rename_entry ha hb (by rw [hone]; exact Nat.one_pos), rfl⟩
  counters := by
    show List.Forall₂ _ (Request.counters a qs) (Request.counters b qs)
    refine List.forall₂_iff_get.mpr ⟨by simp [Request.counters], fun i hi hi' => ?_⟩
    have hle : i + 1 ≤ qs.countP Request.isCallers := by
      rw [Request.length_counters] at hi
      exact hi
    simp only [Request.counters, List.get_eq_getElem, List.getElem_mapIdx]
    exact ⟨Ids.rename_callers ha hb (Nat.succ_pos i) hle, rfl, rfl⟩
  branches := rfl
  loops := rfl

end Room

/-! ## Two expansions -/

namespace Clause

/-- The clauses without the error handler in front, if there is one. -/
def withoutHandler (probe : Probe) : List Clause → List Clause
  | [] => []
  | k :: ks => if k.IsHandler probe then ks else k :: ks

end Clause

namespace Session

variable {c : Clause}

/-- Without the handler, a list that had none is as it was. -/
theorem withoutHandler_withHandler {s : Session} {ks : List Clause}
    (h : ∀ k ∈ ks, ¬ k.IsHandler s.errorProbe) (span : Span) :
    Clause.withoutHandler s.errorProbe (s.withHandler ks span) = ks := by
  unfold withHandler
  split
  · exact if_pos (Clause.isHandler_errorHandler s.errorProbe span)
  · cases ks with
    | nil => rfl
    | cons k ks => exact if_neg (h k List.mem_cons_self)

/-- What is made of a renamed clause is what is made of the clause, renamed. -/
theorem assembled_rename (hρ : Slot.SparesLocals ρ) (c : Clause) {needs needs' : Needs}
    (h : needs.Alike ρ needs') (callers : CallersClauses) :
    assembled (c.rename ρ) needs' (callers.rename ρ) =
      (assembled c needs callers).map (Clause.rename ρ) := by
  have hflow : needs'.hasControlFlow = needs.hasControlFlow := by
    rw [Needs.hasControlFlow, h.branches, h.loops]
    rfl
  unfold assembled
  rw [Body.ofClause_rename hρ c h.needsCapture hflow]
  exact surround_rename hρ c h.capture callers _

/-- Two sessions that have room for the numbers of a clause hand out as many groups for
    it, one at most, and as many counters.  Either both fail for the same reason, or both
    succeed, and what comes out is the same apart from the error handler in front and
    from the numbers of groups and counters, which are those that follow on what each
    has handed out before. -/
theorem expand_equivariant (hc : c.Unreserved) {s t : Session} (hs : s.ids.RoomFor c.met)
    (ht : t.ids.RoomFor c.met) :
    (∃ groups counters, groups ≤ 1 ∧
      (s.expand c).session.ids.groups.toNat = s.ids.groups.toNat + groups ∧
      (s.expand c).session.ids.counters.toNat = s.ids.counters.toNat + counters ∧
      (t.expand c).session.ids.groups.toNat = t.ids.groups.toNat + groups ∧
      (t.expand c).session.ids.counters.toNat = t.ids.counters.toNat + counters) ∧
    ((∃ e, (s.expand c).result = .error e ∧ (t.expand c).result = .error e) ∨
      ∃ out out', (s.expand c).result = .ok out ∧ (t.expand c).result = .ok out' ∧
        Clause.withoutHandler t.errorProbe out' =
          (Clause.withoutHandler s.errorProbe out).map (Clause.rename (s.ids.rename t.ids))) := by
  have hρ := s.ids.sparesLocals_rename t.ids
  have hids : ∀ u : Session, (u.expand c).session.ids = Request.idsAfter u.ids c.met := by
    intro u
    rw [expand_ids]
    exact (c.asked_resolution c.allReturn u.ids).ids
  refine ⟨⟨Request.groupCount c.met, c.met.countP Request.isCallers, ?_, ?_⟩, ?_⟩
  · unfold Request.groupCount
    split <;> omega
  · rw [hids, hids]
    exact ⟨hs.toNat_groups, hs.toNat_counters, ht.toNat_groups, ht.toNat_counters⟩
  have hclause : (c.resolve c.allReturn t.ids).clause =
      (c.resolve c.allReturn s.ids).clause.rename (s.ids.rename t.ids) := by
    rw [(c.resolve_met c.allReturn t.ids).1, (c.resolve_met c.allReturn s.ids).1,
      ← Clause.substitute_rename hρ.others hc]
    exact congrArg _ (Request.replacements_rename hs ht)
  cases hstop : Expr.stop? c.exprNodes with
  | some span =>
      exact .inl ⟨_, expand_of_needs_error (Clause.needs_resolve_of_stop hstop),
        expand_of_needs_error (Clause.needs_resolve_of_stop hstop)⟩
  | none =>
      have hread := Expr.stop?_eq_none_iff.mp hstop
      have hneeds := fun ids => c.needs_resolve_of_readable c.allReturn ids hread
      have hmet : c.met = c.requests c.allReturn := Request.met_of_readable hread
      rw [hmet] at hs ht
      have halike := c.alike_needsOf hs ht
      have hcallers' := CallersClauses.ofCounters_rename hρ halike.counters
      cases hcallers : CallersClauses.ofCounters
          (c.needsOf s.ids (c.requests c.allReturn)).counters with
      | error e =>
          rw [hcallers] at hcallers'
          exact .inl ⟨e, expand_of_callers_error (hneeds s.ids) hcallers,
            expand_of_callers_error (hneeds t.ids) hcallers'⟩
      | ok callers =>
          rw [hcallers] at hcallers'
          refine .inr ⟨_, _, (expand_ok (hneeds s.ids) hcallers).1,
            (expand_ok (hneeds t.ids) hcallers').1, ?_⟩
          rw [withoutHandler_withHandler (not_isHandler_assembled hc hcallers s.errorProbe),
            withoutHandler_withHandler (not_isHandler_assembled hc hcallers' t.errorProbe),
            hclause, assembled_rename hρ _ halike]

/-- A clause that captures values and counts callers twice, in a new session and in one
    that has handed out an error handler and all but the last two counters before. -/
theorem expand_equivariant_later :
    let s : Session := ⟨.experimentalOn, ⟨"dtrace", "", "", "ERROR"⟩, .fresh, false⟩
    let t : Session := ⟨.experimentalOn, ⟨"dtrace", "", "", "ERROR"⟩, ⟨7, 4294967293⟩, true⟩
    let name (text : String) : Expr := .ident text .nowhere
    let entry (field : String) : Expr := .binary .ptr (name "entry") (name field) .nowhere
    let callers (targets : String) : Expr :=
      .index (name "callers") [.str targets .nowhere] .nowhere
    let trace (e : Expr) : Stmt := .expr (.call "trace" [e] .nowhere)
    let c : Clause :=
      ⟨[⟨"syscall", "", "read", "return"⟩], some (callers "open,close"),
        [.branch (callers "vfs::") [trace (entry "elapsed_us")] [trace (entry "args0")] .nowhere],
        .nowhere⟩
    c.Unreserved ∧ s.ids.RoomFor c.met ∧ t.ids.RoomFor c.met ∧
      s.ids.rename t.ids "_XD_entry_args0_1" = "_XD_entry_args0_8" ∧
      s.ids.rename t.ids "_XD_callers_2" = "_XD_callers_4294967295" ∧
      ∃ out out', (s.expand c).result = .ok out ∧ (t.expand c).result = .ok out' ∧
        out.length = 14 ∧ out'.length = 13 ∧
        Clause.withoutHandler t.errorProbe out' =
          (Clause.withoutHandler s.errorProbe out).map (Clause.rename (s.ids.rename t.ids)) := by
  intro s t name entry callers trace c
  have hc : c.Unreserved := by decide +kernel
  have hs : s.ids.RoomFor c.met := by decide +kernel
  have ht : t.ids.RoomFor c.met := by decide +kernel
  have hcount : (s.expand c).result.toOption.map (·.length) = some 14 := by decide +kernel
  have hcount' : (t.expand c).result.toOption.map (·.length) = some 13 := by decide +kernel
  refine ⟨hc, hs, ht, by decide +kernel, by decide +kernel, ?_⟩
  obtain ⟨-, ⟨e, herror, -⟩ | ⟨out, out', hout, hout', heq⟩⟩ := expand_equivariant hc hs ht
  · rw [herror] at hcount
    cases hcount
  · rw [hout] at hcount
    rw [hout'] at hcount'
    exact ⟨out, out', hout, hout', Option.some.inj hcount, Option.some.inj hcount', heq⟩

end Session

end ProbeLang
