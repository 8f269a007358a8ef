import ProbeLang.Proofs.Engine
import ProbeLang.Proofs.Renaming
import ProbeLang.Proofs.Requests
import ProbeLang.Proofs.Splitting

/-! # Statements unrolled

    Branches and loops can be written out: a test, then what is under it, and a loop as
    many times as it says (`Stmt.unrollAll`).  What comes out of splitting is this and
    nothing else, clause by clause (`Emitted.Splits.unrolls`): a clause that works out a
    condition reads as its test, every other one as the block that it runs.

    The only thing in an unrolled list that is not in the source is the number of the
    branch that an `else` belongs to.  A branch, its `else` and a loop take up one
    condition each, also in a loop that never runs (`Stmt.conditionCount`). -/

namespace ProbeLang

/-! ## Reading clauses back -/

/-- The condition whose slot has a given name. -/
def ConditionId.ofName? (name : String) : Option ConditionId :=
  (((Slot.mark ++ "condition_").toList.isPrefixOf? name.toList).bind Text.decimal?).bind ofNat?

/-- The number of a condition can be read off its name. -/
theorem ConditionId.ofName?_name (id : ConditionId) :
    ofName? (Slot.condition id).name = some id := by
  have hlead : (Slot.mark ++ "condition_").toList.isPrefixOf? (Slot.condition id).name.toList =
      some (Nat.toDigits 10 id.index) :=
    List.isPrefixOf?_eq_some_iff_append_eq.mpr (by simp [Slot.name, ConditionId.text])
  rw [ofName?, hlead, Option.bind_some, Text.decimal?_toDigits, Option.bind_some, ofNat?,
    dif_pos id.pos]

/-- The condition that an expression refers to. -/
def Expr.condition? (e : Expr) : Option ConditionId :=
  e.slotRef?.bind fun v => if v.1 = "this" then ConditionId.ofName? v.2 else none

/-- A reference to a condition is recognised as one to that condition. -/
theorem Expr.condition?_condition (id : ConditionId) (s : Span) :
    (Guard.condition id s).condition? = some id := by
  have href : (Guard.condition id s).slotRef? = some ("this", (Slot.condition id).name) := by
    simp [Guard.condition, Slot.expr, Slot.storage, scopeVar, ptr, slotRef?, Slot.scope]
  rw [condition?, href, Option.bind_some, if_pos rfl, ConditionId.ofName?_name]

namespace Clause

/-- The condition that the clause works out, and the test that it makes for it. -/
def test? (k : Clause) : Option (ConditionId × Expr) :=
  match k.actions with
  | [.expr (.binary .assign target (.binary .and _ value _) _)] =>
      target.condition?.map fun id => (id, value)
  | _ => none

/-- From a clause that works out a condition one can read which, and from what test,
    without what is joined to it for the piece around. -/
theorem test?_setCondition (probes : List Probe) (around : Option ConditionId)
    (id : ConditionId) (value : Expr) (s : Span) :
    (setCondition probes around id value s).test? = some (id, value) := by
  show (Guard.condition id s).condition?.map _ = _
  rw [Expr.condition?_condition]
  rfl

/-- Code of the source works out no condition. -/
theorem test?_block {es : List Expr} (hes : ∀ e ∈ es, e.Unreserved) (probes : List Probe)
    (around : Option ConditionId) (anyBefore : Bool) (s : Span) :
    (block probes around anyBefore (es.map .expr) s).test? = none := by
  unfold test?
  split
  · rename_i target left value s' s'' hactions
    obtain ⟨e, rfl, he⟩ := List.map_eq_singleton_iff.mp hactions
    obtain rfl := Stmt.expr.inj he
    have htarget := (hes _ List.mem_cons_self).of_mem_parts (p := target) (by simp [Expr.parts])
    rw [Expr.condition?, Expr.slotRef?_eq_none htarget]
    rfl
  · rfl

end Clause

/-- One of the things that an unrolled list of statements does in turn. -/
inductive Unrolled where
  /-- It runs some plain statements. -/
  | block (stmts : List Stmt)
  /-- It makes a test. -/
  | test (value : Expr)

/-- What the clause does. -/
def Clause.unrolled (k : Clause) : Unrolled :=
  match k.test? with
  | some (_, value) => .test value
  | none => .block k.actions

/-- So the step that it stands for is the test. -/
theorem Clause.unrolled_setCondition (probes : List Probe) (around : Option ConditionId)
    (id : ConditionId) (value : Expr) (s : Span) :
    (setCondition probes around id value s).unrolled = .test value := by
  rw [unrolled, test?_setCondition]

/-- And a block stands for its statements, since no statement of the script assigns to a
    condition. -/
theorem Clause.unrolled_block {es : List Expr} (hes : ∀ e ∈ es, e.Unreserved)
    (probes : List Probe) (around : Option ConditionId) (anyBefore : Bool) (s : Span) :
    (block probes around anyBefore (es.map .expr) s).unrolled = .block (es.map .expr) := by
  rw [unrolled, test?_block hes]
  rfl

/-! ## Counting conditions -/

namespace Stmt

/-- Whether the statement is a branch with an `else`. -/
def hasElse : Stmt → Bool
  | branch _ _ onFalse _ => !onFalse.isEmpty
  | _ => false

/-- The number of conditions that statements take up: one for each branch, one for each
    `else` and one for each loop, at any depth. -/
def conditionCount (stmts : List Stmt) : Nat :=
  (nodesList stmts).countP isBranch + (nodesList stmts).countP hasElse +
    (nodesList stmts).countP isLoop

theorem conditionCount_append (xs ys : List Stmt) :
    conditionCount (xs ++ ys) = conditionCount xs + conditionCount ys := by
  simp only [conditionCount, nodesList_eq_flatMap, List.flatMap_append, List.countP_append]
  omega

theorem conditionCount_cons (x : Stmt) (xs : List Stmt) :
    conditionCount (x :: xs) = conditionCount [x] + conditionCount xs :=
  conditionCount_append [x] xs

/-- Flat statements take no condition. -/
theorem conditionCount_map_expr (es : List Expr) : conditionCount (es.map .expr) = 0 := by
  induction es with
  | nil => rfl
  | cons e es ih => rw [List.map_cons, conditionCount_cons, ih]; rfl

/-- A branch takes one condition, and another one for its `else` if there is something
    in it. -/
theorem conditionCount_branch (cond : Expr) (onTrue onFalse : List Stmt) (s : Span) :
    conditionCount [branch cond onTrue onFalse s] =
      1 + conditionCount onTrue + if onFalse.isEmpty then 0 else 1 + conditionCount onFalse := by
  simp only [conditionCount, nodesList_eq_flatMap, List.flatMap_cons, List.flatMap_nil, nodes,
    List.append_nil, List.countP_cons, List.countP_append, isBranch, hasElse, isLoop]
  cases onFalse with
  | nil => simp; omega
  | cons x xs => simp; omega

/-- A loop takes one condition however often it runs; its copies use it again. -/
theorem conditionCount_loop (cond : Expr) (maxIter : UInt32) (body : List Stmt) (s : Span) :
    conditionCount [loop cond maxIter body s] = 1 + conditionCount body := by
  simp only [conditionCount, nodesList_eq_flatMap, List.flatMap_cons, List.flatMap_nil, nodes,
    List.append_nil, List.countP_cons, isBranch, hasElse, isLoop]
  simp
  omega

end Stmt

/-- What splitting uses up is what the statements take up. -/
theorem Emitted.Splits.conditions {probes : List Probe} {stmts : List Stmt}
    {around : Option ConditionId} {n m : Nat} {ks : List Clause}
    (h : Splits probes stmts around n ks m) : m = n + Stmt.conditionCount stmts := by
  induction h with
  | nil around n => rfl
  | run first more _ _ ih =>
      rw [Stmt.conditionCount_append, Stmt.conditionCount_map_expr, Nat.zero_add, ih]
  | branch cond s _ _ iht ihr =>
      rw [Stmt.conditionCount_cons, Stmt.conditionCount_branch, ihr, iht, List.isEmpty_nil,
        if_pos rfl]
      omega
  | branchElse cond s hne _ _ _ iht ihf ihr =>
      rw [Stmt.conditionCount_cons, Stmt.conditionCount_branch, ihr, ihf, iht,
        if_neg (mt List.isEmpty_iff.mp hne)]
      omega
  | loop cond maxIter s _ _ ihb ihr =>
      rw [Stmt.conditionCount_cons, Stmt.conditionCount_loop, ihr, ihb]
      omega

/-! ## Unrolling -/

/-- The list with a plain statement before it: the statement joins the block that the list
    starts with, if it does. -/
def Unrolled.prepend (stmt : Stmt) : List Unrolled → List Unrolled
  | .block stmts :: rest => .block (stmt :: stmts) :: rest
  | rest => .block [stmt] :: rest

namespace Stmt

mutual
/-- What a branch or a loop does, step by step, with `n` conditions used up before it. -/
def unroll (n : Nat) : Stmt → List Unrolled
  | expr e => [.block [expr e]]
  | branch cond onTrue onFalse s =>
      .test cond :: (unrollAll (n + 1) onTrue ++
        if onFalse.isEmpty then []
        else
          .test ((Guard.condition (.after n) s).not s) ::
            unrollAll (n + 1 + conditionCount onTrue + 1) onFalse)
  | loop cond maxIter body s =>
      .test (.int 1 s) ::
        (List.replicate maxIter.toNat (.test cond :: unrollAll (n + 1) body)).flatten

/-- What a list of statements does, step by step, with `n` conditions used up before it. -/
def unrollAll (n : Nat) : List Stmt → List Unrolled
  | [] => []
  | stmt :: rest =>
      if stmt.isStructured then stmt.unroll n ++ unrollAll (n + conditionCount [stmt]) rest
      else Unrolled.prepend stmt (unrollAll n rest)
end

/-- A structured statement ends the block before it. -/
theorem unrollAll_structured {stmt : Stmt} (h : stmt.isStructured = true) (rest : List Stmt)
    (n : Nat) :
    unrollAll n (stmt :: rest) = stmt.unroll n ++ unrollAll (n + conditionCount [stmt]) rest := by
  rw [unrollAll, if_pos h]

/-- A flat statement is put into the block that follows, or starts one. -/
theorem unrollAll_plain (e : Expr) (rest : List Stmt) (n : Nat) :
    unrollAll n (expr e :: rest) = Unrolled.prepend (expr e) (unrollAll n rest) := by
  rw [unrollAll]
  rfl

/-- What ends a run does not start with a block. -/
theorem prepend_unrollAll {rest : List Stmt} (hrest : Emitted.EndsRun rest) (stmt : Stmt)
    (n : Nat) : Unrolled.prepend stmt (unrollAll n rest) = .block [stmt] :: unrollAll n rest := by
  cases rest with
  | nil => rfl
  | cons next rest =>
      have hnext : next.isStructured = true := hrest next rfl
      rw [unrollAll_structured hnext]
      cases next with
      | expr e => cases hnext
      | _ => rfl

/-- A run of plain statements that is as long as it can be is one block. -/
theorem unrollAll_run {rest : List Stmt} (hrest : Emitted.EndsRun rest) (first : Expr)
    (more : List Expr) (n : Nat) :
    unrollAll n ((first :: more).map .expr ++ rest) =
      .block ((first :: more).map .expr) :: unrollAll n rest := by
  induction more generalizing first with
  | nil =>
      rw [List.map_singleton, List.singleton_append, unrollAll_plain, prepend_unrollAll hrest]
  | cons second more ih =>
      rw [List.map_cons, List.cons_append, unrollAll_plain, ih second]
      rfl

section

variable {onTrue onFalse body rest : List Stmt}

/-- A branch without `else`, as the splitting of it goes. -/
theorem unrollAll_branch (cond : Expr) (s : Span) (n : Nat) :
    unrollAll n (branch cond onTrue [] s :: rest) =
      .test cond :: (unrollAll (n + 1) onTrue ++
        unrollAll (n + 1 + conditionCount onTrue) rest) := by
  rw [unrollAll_structured rfl, conditionCount_branch]
  simp only [unroll, List.isEmpty_nil, if_true, List.append_nil, List.cons_append, Nat.add_assoc,
    Nat.add_zero]

/-- A branch with `else`: the second test is that the first condition does not hold. -/
theorem unrollAll_branchElse (hne : onFalse ≠ []) (cond : Expr) (s : Span) (n : Nat) :
    unrollAll n (branch cond onTrue onFalse s :: rest) =
      .test cond :: (unrollAll (n + 1) onTrue ++
        .test ((Guard.condition (.after n) s).not s) ::
          (unrollAll (n + 1 + conditionCount onTrue + 1) onFalse ++
            unrollAll (n + 1 + conditionCount onTrue + 1 + conditionCount onFalse) rest)) := by
  rw [unrollAll_structured rfl, conditionCount_branch]
  simp only [unroll, if_neg (mt List.isEmpty_iff.mp hne), List.append_assoc, List.cons_append,
    Nat.add_assoc]

/-- A loop: the condition starts as true, and each copy makes the test and runs the
    body. -/
theorem unrollAll_loop (cond : Expr) (maxIter : UInt32) (s : Span) (n : Nat) :
    unrollAll n (loop cond maxIter body s :: rest) =
      .test (.int 1 s) ::
        ((List.replicate maxIter.toNat (.test cond :: unrollAll (n + 1) body)).flatten ++
          unrollAll (n + 1 + conditionCount body) rest) := by
  rw [unrollAll_structured rfl, conditionCount_loop]
  simp only [unroll, List.cons_append, Nat.add_assoc]

end

end Stmt

/-- What comes out of splitting is the statements unrolled. -/
theorem Emitted.Splits.unrolls {probes : List Probe} {stmts : List Stmt}
    {around : Option ConditionId} {n m : Nat} {ks : List Clause}
    (h : Splits probes stmts around n ks m) (hsource : ∀ e ∈ Stmt.exprsOf stmts, e.Unreserved) :
    ks.map Clause.unrolled = Stmt.unrollAll n stmts := by
  induction h with
  | nil around n => rfl
  | run first more hends _ ih =>
      obtain ⟨hrun, hrest⟩ := Stmt.forall_exprsOf_run.mp hsource
      rw [List.map_cons, Clause.unrolled_block hrun, ih hrest,
        Stmt.unrollAll_run hends]
  | branch cond s ht _ iht ihr =>
      obtain ⟨-, htrue, -, hrest⟩ := Stmt.forall_exprsOf_branch.mp hsource
      rw [Stmt.unrollAll_branch, List.map_cons, Clause.unrolled_setCondition, List.map_append,
        iht htrue, ihr hrest, ht.conditions]
  | branchElse cond s hne ht hf _ iht ihf ihr =>
      obtain ⟨-, htrue, hfalse, hrest⟩ := Stmt.forall_exprsOf_branch.mp hsource
      rw [Stmt.unrollAll_branchElse hne, List.map_cons, Clause.unrolled_setCondition,
        List.map_append, List.map_cons, Clause.unrolled_setCondition, List.map_append, iht htrue,
        ihf hfalse, ihr hrest, hf.conditions, ht.conditions]
  | loop cond maxIter s hb _ ihb ihr =>
      obtain ⟨-, hbody, hrest⟩ := Stmt.forall_exprsOf_loop.mp hsource
      rw [Stmt.unrollAll_loop, List.map_cons, Clause.unrolled_setCondition, List.map_append,
        List.map_flatten, List.map_replicate, List.map_cons, Clause.unrolled_setCondition,
        ihb hbody, ihr hrest, hb.conditions]

/-! ## What is unrolled -/

/-- The plain statements among what is done. -/
def Unrolled.stmts : Unrolled → List Stmt
  | block stmts => stmts
  | test _ => []

/-- A statement that is put in front comes first. -/
theorem Unrolled.flatMap_prepend (stmt : Stmt) (steps : List Unrolled) :
    (prepend stmt steps).flatMap stmts = stmt :: steps.flatMap stmts := by
  unfold prepend
  split <;> rfl

namespace Stmt

mutual
/-- The plain statements of a statement in source order, those of a loop once for every
    time that it can run. -/
def plain : Stmt → List Stmt
  | expr e => [expr e]
  | branch _ onTrue onFalse _ => plainAll onTrue ++ plainAll onFalse
  | loop _ maxIter body _ => (List.replicate maxIter.toNat (plainAll body)).flatten

/-- The plain statements of a list, in the same way. -/
def plainAll : List Stmt → List Stmt
  | [] => []
  | stmt :: rest => stmt.plain ++ plainAll rest
end

mutual
/-- By recursion with `flatMap_unrollAll`: the blocks of a statement hold its flat
    statements, a loop's as often as it runs. -/
private theorem flatMap_unroll : ∀ (stmt : Stmt) (n : Nat),
    (stmt.unroll n).flatMap Unrolled.stmts = stmt.plain
  | expr e, n => rfl
  | branch cond onTrue onFalse s, n => by
      have htrue := flatMap_unrollAll onTrue (n + 1)
      have hfalse := flatMap_unrollAll onFalse (n + 1 + conditionCount onTrue + 1)
      rw [unroll, plain, List.flatMap_cons, List.flatMap_append, htrue]
      cases onFalse with
      | nil => rfl
      | cons x xs =>
          rw [List.isEmpty_cons, if_neg Bool.false_ne_true, List.flatMap_cons, hfalse]
          rfl
  | loop cond maxIter body s, n => by
      have hbody := flatMap_unrollAll body (n + 1)
      rw [unroll, plain, List.flatMap_cons]
      -- one copy after the other; the tests hold no statements
      generalize maxIter.toNat = count
      induction count with
      | zero => rfl
      | succ count ih =>
          rw [List.replicate_succ, List.flatten_cons, List.flatMap_append, List.flatMap_cons, hbody,
            List.replicate_succ, List.flatten_cons, ← ih]
          rfl

/-- No plain statement is lost, and none is done in another order. -/
theorem flatMap_unrollAll : ∀ (stmts : List Stmt) (n : Nat),
    (unrollAll n stmts).flatMap Unrolled.stmts = plainAll stmts
  | [], n => rfl
  | expr e :: rest, n => by
      rw [unrollAll_plain, Unrolled.flatMap_prepend, flatMap_unrollAll rest n]
      rfl
  | branch cond onTrue onFalse s :: rest, n => by
      rw [unrollAll_structured rfl, List.flatMap_append, flatMap_unroll, flatMap_unrollAll rest]
      rfl
  | loop cond maxIter body s :: rest, n => by
      rw [unrollAll_structured rfl, List.flatMap_append, flatMap_unroll, flatMap_unrollAll rest]
      rfl
end

/-- Whether a statement is in one run with what comes next. -/
def joins (stmt : Stmt) (rest : List Stmt) : Bool :=
  !stmt.isStructured && rest.head?.any fun next => !next.isStructured

mutual
/-- The number of clauses that a statement turns into. -/
def clauseCount : Stmt → Nat
  | expr _ => 1
  | branch _ onTrue onFalse _ =>
      1 + clauseCountAll onTrue + if onFalse.isEmpty then 0 else 1 + clauseCountAll onFalse
  | loop _ maxIter body _ => 1 + maxIter.toNat * (1 + clauseCountAll body)

/-- The number of clauses that a list turns into; a run counts once. -/
def clauseCountAll : List Stmt → Nat
  | [] => 0
  | stmt :: rest =>
      if stmt.joins rest then clauseCountAll rest else stmt.clauseCount + clauseCountAll rest
end

/-- A structured statement has clauses of its own. -/
theorem clauseCountAll_structured {stmt : Stmt} (h : stmt.isStructured = true)
    (rest : List Stmt) :
    clauseCountAll (stmt :: rest) = stmt.clauseCount + clauseCountAll rest := by
  rw [clauseCountAll, joins, h]
  rfl

/-- A run of flat statements makes one block. -/
theorem clauseCountAll_run {rest : List Stmt} (hrest : Emitted.EndsRun rest) (first : Expr)
    (more : List Expr) :
    clauseCountAll ((first :: more).map .expr ++ rest) = 1 + clauseCountAll rest := by
  induction more generalizing first with
  | nil =>
      have hjoins : (expr first).joins rest = false := by
        cases rest with
        | nil => rfl
        | cons next rest =>
            have hnext : next.isStructured = true := hrest next rfl
            simp [joins, hnext]
      rw [List.map_singleton, List.singleton_append, clauseCountAll, hjoins]
      rfl
  | cons second more ih =>
      rw [← ih second]
      rw [List.map_cons, List.cons_append, clauseCountAll]
      rfl

end Stmt

namespace Emitted.Splits

variable {probes : List Probe} {stmts : List Stmt} {around : Option ConditionId} {n m : Nat}
  {ks : List Clause}

/-- By induction on how statements are split: there are as many clauses as the count
    says. -/
theorem length_eq (h : Splits probes stmts around n ks m) :
    ks.length = Stmt.clauseCountAll stmts := by
  induction h with
  | nil around n => rfl
  | run first more hrest _ ih =>
      rw [Stmt.clauseCountAll_run hrest, List.length_cons, ih, Nat.add_comm]
  | branch cond s _ _ iht ihr =>
      rw [Stmt.clauseCountAll_structured rfl, Stmt.clauseCount, List.length_cons,
        List.length_append, iht, ihr, List.isEmpty_nil, if_pos rfl]
      omega
  | branchElse cond s hne _ _ _ iht ihf ihr =>
      rw [Stmt.clauseCountAll_structured rfl, Stmt.clauseCount, List.length_cons,
        List.length_append, List.length_cons, List.length_append, iht, ihf, ihr,
        if_neg (mt List.isEmpty_iff.mp hne)]
      omega
  | loop cond maxIter s _ _ ihb ihr =>
      rw [Stmt.clauseCountAll_structured rfl, Stmt.clauseCount, List.length_cons,
        List.length_append, List.length_flatten, List.map_replicate, List.sum_replicate_nat,
        List.length_cons, ihb, ihr, Nat.add_comm (Stmt.clauseCountAll _) 1]
      omega

/-- Every clause does something, at the probes of the whole. -/
theorem acts (h : Splits probes stmts around n ks m) :
    ∀ k ∈ ks, k.actions ≠ [] ∧ k.probes = probes := by
  have htest : ∀ around id value s,
      (Clause.setCondition probes around id value s).actions ≠ [] ∧
        (Clause.setCondition probes around id value s).probes = probes := fun _ _ _ _ =>
    ⟨List.cons_ne_nil _ _, rfl⟩
  induction h with
  | nil around n => exact List.forall_mem_nil _
  | run first more _ _ ih => exact List.forall_mem_cons.mpr ⟨⟨List.cons_ne_nil _ _, rfl⟩, ih⟩
  | branch cond s _ _ iht ihr =>
      exact List.forall_mem_cons.mpr ⟨htest .., List.forall_mem_append.mpr ⟨iht, ihr⟩⟩
  | branchElse cond s _ _ _ _ iht ihf ihr =>
      exact List.forall_mem_cons.mpr ⟨htest .., List.forall_mem_append.mpr ⟨iht,
        List.forall_mem_cons.mpr ⟨htest .., List.forall_mem_append.mpr ⟨ihf, ihr⟩⟩⟩⟩
  | loop cond maxIter s _ _ ihb ihr =>
      refine List.forall_mem_cons.mpr ⟨htest .., List.forall_mem_append.mpr ⟨?_, ihr⟩⟩
      intro k hk
      rcases List.mem_cons.mp (mem_of_mem_copies hk) with rfl | hk
      · exact htest ..
      · exact ihb k hk

end Emitted.Splits

/-! ## Builders -/

namespace Blocks

/-- To visit statements adds what they are when unrolled, in order: one clause for every
    test and every block.  So the plain statements stay in order, and none is lost.  Every
    clause does something at the probes of the builder, and there are as many as the
    source says. -/
theorem visit_unrolls (b : Blocks) (stmts : List Stmt) (around : Option ConditionId)
    (hsource : ∀ e ∈ Stmt.exprsOf stmts, e.Unreserved) :
    ∃ added, (b.visit stmts around).clauses = b.clauses ++ added ∧
      added.map Clause.unrolled = Stmt.unrollAll b.conditions stmts ∧
      added.flatMap (fun k => k.unrolled.stmts) = Stmt.plainAll stmts ∧
      (∀ k ∈ added, k.actions ≠ [] ∧ k.probes = b.probes) ∧
      added.length = Stmt.clauseCountAll stmts := by
  have h := Emitted.splits_ofStmts b.probes stmts around b.conditions
  refine ⟨_, rfl, h.unrolls hsource, ?_, h.acts, h.length_eq⟩
  rw [← Stmt.flatMap_unrollAll stmts b.conditions, ← h.unrolls hsource, List.flatMap_map]

/-- A run of two statements, then a loop that holds a branch, and in its `else` a loop that
    never runs.  The number of the branch counts on from the conditions used up before. -/
theorem visit_unrolls_nested :
    let name (text : String) : Expr := .ident text .nowhere
    let trace (text : String) : Stmt := .expr (.call "trace" [name text] .nowhere)
    let never : Stmt := .loop (name "on") 0 [trace "pid"] .nowhere
    let split : Stmt := .branch (name "odd") [trace "uid"] [never] .nowhere
    let stmts : List Stmt :=
      [trace "arg0", trace "arg1", .loop (name "ready") 2 [split, trace "tid"] .nowhere]
    let copy : List Unrolled :=
      [.test (name "ready"), .test (name "odd"), .block [trace "uid"],
        .test ((Guard.condition (.after 4) .nowhere).not .nowhere), .test (.int 1 .nowhere),
        .block [trace "tid"]]
    let b : Blocks := ⟨[⟨"syscall", "", "read", "entry"⟩], 3, [], []⟩
    ∃ added, (b.visit stmts (some .first)).clauses = b.clauses ++ added ∧
      added.map Clause.unrolled =
        .block [trace "arg0", trace "arg1"] :: .test (.int 1 .nowhere) :: (copy ++ copy) ∧
      added.length = 14 := by
  intro name trace never split stmts copy b
  obtain ⟨added, hclauses, hunrolled, -, -, hlength⟩ :=
    visit_unrolls b stmts (some .first) (by decide +kernel)
  exact ⟨added, hclauses, hunrolled, hlength⟩

end Blocks

end ProbeLang
