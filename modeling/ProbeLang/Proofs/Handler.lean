import ProbeLang.Clause.Equality
import ProbeLang.Proofs.Separation

/-! # The error handler comes before the clauses that need it

    Clauses that test the error flag rely on the handler that puts it up.  A session
    emits the handler once, before the first expansion with more than one clause, and
    keeps in mind that it has done so.  What a caller gets to see is another matter: a
    program that fails takes with it all that its first clauses have turned into.

    How the flag of the session goes with the clauses that come out is `Announces`;
    it is kept by one expansion (`announces_expand`) and along lists of them.  A run
    of calls is right as long as no call loses the handler, and if one does, no caller
    ever sees a handler (`Session.covered_iff`). -/

namespace ProbeLang

/-! ## Clauses and the flag -/

namespace Clause

/-- The clause speaks of the error flag. -/
def UsesFlag (k : Clause) : Prop := Slot.error.name ∈ k.reservedNames

/-- The predicate of the clause reads the error flag. -/
def TestsFlag (k : Clause) : Prop := ∃ p ∈ k.predicate, Slot.error.name ∈ p.reservedNames

/-- The clause is the handler for errors at the given probe. -/
def IsHandler (probe : Probe) (k : Clause) : Prop := k = errorHandler probe k.span

instance (probe : Probe) (k : Clause) : Decidable (k.IsHandler probe) :=
  inferInstanceAs (Decidable (k = errorHandler probe k.span))

variable {c k : Clause} {probe : Probe} {needs : Needs}

theorem isHandler_errorHandler (probe : Probe) (span : Span) :
    (errorHandler probe span).IsHandler probe := rfl

/-- A test on the flag is a use of it. -/
theorem TestsFlag.usesFlag (h : k.TestsFlag) : k.UsesFlag := by
  obtain ⟨p, hp, hname⟩ := h
  refine List.mem_flatMap.mpr ⟨p, ?_, hname⟩
  exact List.mem_append_left _ (Option.mem_toList.mpr hp)

/-- The handler uses the flag, as it puts it up. -/
theorem IsHandler.usesFlag (h : k.IsHandler probe) : k.UsesFlag := by
  rw [UsesFlag, h, reservedNames_errorHandler]
  exact List.mem_singleton.mpr rfl

/-- But it tests nothing: it has no guard. -/
theorem IsHandler.not_testsFlag (h : k.IsHandler probe) : ¬ k.TestsFlag := by
  rintro ⟨p, hp, -⟩
  rw [h] at hp
  cases hp

theorem usesFlag_clearError (probes : List Probe) (s : Span) : (clearError probes s).UsesFlag := by
  rw [UsesFlag, reservedNames_clearError]
  exact List.mem_singleton.mpr rfl

/-- A handler puts the flag up and does not take it down. -/
theorem not_isHandler_clearError (probes : List Probe) (s : Span) (probe : Probe) :
    ¬ (clearError probes s).IsHandler probe := by
  intro h
  have hacts := congrArg Clause.actions h
  simp [errorHandler, clearError, Expr.assign] at hacts

/-- A clause of the script does not know of the flag. -/
theorem Unreserved.not_usesFlag (hc : c.Unreserved) : ¬ c.UsesFlag := by
  intro h
  obtain ⟨e, he, hname⟩ := List.mem_flatMap.mp h
  rw [(hc.of_mem_exprs he).reservedNames] at hname
  cases hname

/-- Resolution brings in no reference to the flag. -/
theorem Unreserved.not_usesFlag_resolve (hc : c.Unreserved) (inReturn : Bool) (ids : Ids) :
    ¬ (c.resolve inReturn ids).clause.UsesFlag := by
  intro h
  obtain ⟨slots, hnames, hslots, -⟩ := (c.brings_resolution hc inReturn ids).slots
  rw [UsesFlag, hnames] at h
  obtain ⟨slot, hslot, heq⟩ := List.mem_map.mp h
  obtain rfl := Slot.name_injective heq
  exact hslots _ hslot

end Clause

/-- The expression does not speak of the slot. -/
def Expr.Spares (slot : Slot) (e : Expr) : Prop := slot.name ∉ e.reservedNames

/-- What expansion puts together speaks of a slot only if a part of it does. -/
theorem Expr.composable_spares (slot : Slot) : Composable (Spares slot) (· ≠ slot) where
  slot := by
    intro other s hne hname
    rw [Slot.reservedNames_expr] at hname
    exact hne (Slot.name_injective (List.mem_singleton.mp hname)).symm
  int := fun n s => List.not_mem_nil
  captured := by
    intro f s e h hname
    obtain ⟨-, -, hfalse⟩ := (composable_speaksOf fun _ => False).captured h _ hname
    exact hfalse
  unary := by
    intro op a s ha hname
    rw [reservedNames_unary] at hname
    exact ha hname
  binary := by
    intro op a b s _ ha hb hname
    rw [reservedNames_binary] at hname
    rcases List.mem_append.mp hname with hname | hname
    · exact ha hname
    · exact hb hname

namespace Clause

variable {c k : Clause} {probe : Probe} {needs : Needs}

private theorem spares_setCondition {probes : List Probe} (around : Option ConditionId)
    (id : ConditionId) {e : Expr} (s : Span) (he : e.Spares .error) :
    ∀ stmt ∈ (setCondition probes around id e s).actions, stmt.ownExpr.Spares .error := by
  have hP := Expr.composable_spares .error
  have hcond : ∀ id : ConditionId, (Guard.condition id s).Spares .error :=
    fun id => hP.slot s Slot.noConfusion
  have haround : (Guard.ambient around s).Spares .error := by
    cases around with
    | none => exact hP.int 1 s
    | some outer => exact hcond outer
  intro stmt hstmt
  rw [List.mem_singleton.mp hstmt]
  exact hP.binary s (by decide) (hcond id) (hP.binary s (by decide) haround he)

/-- Of the clauses that a clause turns into, only the one that takes the flag down has
    an action on it. -/
theorem Product.spares_actions (hc : ∀ e ∈ c.exprs, e.Spares .error) (h : c.Product needs k)
    (hk : k ≠ clearError c.probes c.span) : ∀ stmt ∈ k.actions, stmt.ownExpr.Spares .error := by
  have hP := Expr.composable_spares .error
  have hcounter : ∀ (op : UnaryOp) (counter : Counter),
      (Expr.unary op (counter.slot counter.span) counter.span).Spares .error :=
    fun op counter => hP.unary _ (hP.slot _ Slot.noConfusion)
  have hentry : ∀ (a : Capture) (f : EntryField) {e : Expr} (s : Span), e.Spares .error →
      ((a.slot f s).assign e s).Spares .error :=
    fun a f e s he => hP.binary s (by decide) (hP.slot s Slot.noConfusion) he
  cases h with
  | @increment counter probes hmem =>
      intro stmt hstmt
      rw [List.mem_singleton.mp hstmt]
      exact hcounter .preInc counter
  | @decrement counter probes hmem =>
      intro stmt hstmt
      rw [List.mem_singleton.mp hstmt]
      exact hcounter .preDec counter
  | @capture a ha =>
      intro stmt hstmt
      obtain ⟨f, -, hstmt⟩ := List.mem_filterMap.mp hstmt
      obtain ⟨value, hvalue, rfl⟩ := Option.map_eq_some_iff.mp hstmt
      exact hentry a f _ (hP.captured hvalue)
  | @priming a ha =>
      exact spares_setCondition none _ _ (hP.slot _ Slot.noConfusion)
  | @release a ha =>
      intro stmt hstmt
      obtain ⟨f, -, rfl⟩ := List.mem_map.mp hstmt
      exact hentry a f _ (hP.int 0 _)
  | clear => exact absurd rfl hk
  | piece hpiece =>
      cases hpiece with
      | test around s hid hv =>
          refine spares_setCondition around _ s ?_
          cases hv with
          | own he => exact hc _ he
          | one s => exact hP.int 1 s
          | other id s => exact hP.unary s (hP.slot s Slot.noConfusion)
      | block around anyBefore s hstmts hguard =>
          intro stmt hstmt
          obtain ⟨e, he, rfl⟩ := hstmts stmt hstmt
          exact hc e he
  | whole hfast =>
      intro stmt hstmt
      refine hc _ (List.mem_append_right _ (List.mem_map.mpr ⟨stmt, ?_, rfl⟩))
      rw [Clause.stmts, Stmt.nodesList_eq_flatMap]
      exact List.mem_flatMap.mpr ⟨stmt, hstmt, stmt.self_mem_nodes⟩

/-- What does not use the flag spares it everywhere. -/
theorem spares_of_not_usesFlag (h : ¬ c.UsesFlag) : ∀ e ∈ c.exprs, e.Spares .error :=
  fun e he hname => h (List.mem_flatMap.mpr ⟨e, he, hname⟩)

/-- No clause that another one turns into is a handler. -/
theorem Product.not_isHandler (hc : ¬ c.UsesFlag) (h : c.Product needs k) (probe : Probe) :
    ¬ k.IsHandler probe := by
  intro hk
  have hne : k ≠ clearError c.probes c.span := by
    intro hclear
    rw [hclear] at hk
    exact not_isHandler_clearError _ _ probe hk
  have hspares := h.spares_actions (spares_of_not_usesFlag hc) hne
  rw [hk] at hspares
  refine hspares _ (List.mem_singleton.mpr rfl) ?_
  simp [Stmt.ownExpr, Guard.errorFlag, Expr.assign]

end Clause

/-! ## One expansion -/

namespace Session

variable {s : Session} {c k : Clause} {needs : Needs} {callers : CallersClauses}
  {out : List Clause}

/-- Without conditions, an expansion is the clause between those that keep counters. -/
theorem assembled_of_isFast (h : Body.isFast needs = true) :
    assembled c needs callers = callers.increments ++ c :: callers.decrements := by
  have hcap : needs.capture = none := by
    simp only [Body.isFast, Needs.needsCapture, Bool.and_eq_true, Bool.not_eq_true',
      Option.isSome_eq_false_iff, Option.isNone_iff_eq_none] at h
    exact h.2
  unfold assembled surround
  rw [hcap, Body.ofClause_of_isFast h]
  simp

/-- What is neither fast nor captures anything has control flow. -/
theorem any_isStructured_of_isFast (h : Body.isFast needs = false)
    (hflow : needs.hasControlFlow = c.stmts.any Stmt.isStructured)
    (hcap : needs.needsCapture = false) : c.stmts.any Stmt.isStructured = true := by
  rw [Body.isFast, hcap, hflow, Bool.not_false, Bool.and_true] at h
  simpa using h

/-- A body with branches or loops, or for which something is captured, uses up a
    condition. -/
theorem conditions_pos (h : Body.isFast needs = false)
    (hflow : needs.hasControlFlow = c.stmts.any Stmt.isStructured) :
    0 < (Body.ofClause c needs).conditions := by
  rw [Body.ofClause_eq_split h]
  cases hcap : needs.needsCapture with
  | true =>
      have hbefore : needs.before = 1 := by rw [Needs.before, hcap, if_pos rfl]
      have hle := c.le_allocated_split needs.around needs.before
      show 0 < (c.split needs.around needs.before).allocated
      omega
  | false =>
      have hstruct := any_isStructured_of_isFast h hflow hcap
      exact Nat.lt_of_le_of_lt (Nat.zero_le _) (Clause.lt_allocated_split (fun _ => hstruct) _ _)

/-- With conditions, there is a clause that takes the flag down, and others with it. -/
theorem clearError_mem_assembled (callers : CallersClauses) (h : Body.isFast needs = false)
    (hflow : needs.hasControlFlow = c.stmts.any Stmt.isStructured) :
    .clearError c.probes c.span ∈ assembled c needs callers ∧
      1 < (assembled c needs callers).length := by
  have hpos := conditions_pos h hflow
  unfold assembled surround
  rw [if_pos hpos]
  refine ⟨by simp, ?_⟩
  cases hcap : needs.capture with
  | some a =>
      simp only [Option.map_some, Option.toList_some, List.length_append, List.length_singleton]
      omega
  | none =>
      -- nothing is captured, so there is a branch or a loop
      have hneeds : needs.needsCapture = false := by rw [Needs.needsCapture, hcap]; rfl
      have hstruct := any_isStructured_of_isFast h hflow hneeds
      have hbody := List.length_pos_iff.mpr
        (Clause.clauses_split_ne_nil hstruct needs.around needs.before)
      rw [Body.ofClause_eq_split h]
      simp only [Option.map_none, Option.toList_none, List.length_append, List.length_singleton,
        List.length_nil]
      omega

/-- Without conditions, an expansion does not speak of the flag. -/
theorem not_usesFlag_of_isFast (hc : ¬ c.UsesFlag) (h : Body.isFast needs = true)
    (hcallers : CallersClauses.ofCounters needs.counters = .ok callers) :
    ∀ k ∈ assembled c needs callers, ¬ k.UsesFlag := by
  obtain ⟨hinc, hdec⟩ := CallersClauses.mem_ofCounters hcallers
  rw [assembled_of_isFast h]
  intro k hk
  rcases List.mem_append.mp hk with hk | hk
  · obtain ⟨counter, -, probes, rfl⟩ := hinc k hk
    rw [Clause.UsesFlag, counter.reservedNames_increment, List.mem_singleton]
    exact fun heq => Slot.noConfusion (Slot.name_injective heq)
  · rcases List.mem_cons.mp hk with rfl | hk
    · exact hc
    · obtain ⟨counter, -, probes, rfl⟩ := hdec k hk
      rw [Clause.UsesFlag, counter.reservedNames_decrement, List.mem_cons, List.mem_singleton,
        or_self]
      exact fun heq => Slot.noConfusion (Slot.name_injective heq)

end Session

/-! ## The handler and the session's flag -/

/-- How the clauses `out` that a session brings forth go with whether it has emitted the
    handler before and after them.  What comes before the handler does not speak of the
    error flag, and there is one handler at most. -/
inductive Announces (probe : Probe) : Bool → List Clause → Bool → Prop where
  /-- There is no need for a handler yet. -/
  | silent {out : List Clause} : (∀ k ∈ out, ¬ k.UsesFlag) → Announces probe false out false
  /-- The handler comes out here. -/
  | first {before after : List Clause} (span : Span) : (∀ k ∈ before, ¬ k.UsesFlag) →
      (∀ k ∈ after, ¬ k.IsHandler probe) →
        Announces probe false (before ++ .errorHandler probe span :: after) true
  /-- The handler has come out before. -/
  | again {out : List Clause} : (∀ k ∈ out, ¬ k.IsHandler probe) → Announces probe true out true

namespace Announces

variable {probe : Probe} {a b d : Bool} {xs ys : List Clause}

/-- Runs of clauses compose: the announcement of the first one covers what the second
    one uses. -/
theorem append (h : Announces probe a xs b) (h' : Announces probe b ys d) :
    Announces probe a (xs ++ ys) d := by
  cases h with
  | silent hxs =>
      cases h' with
      | silent hys => exact .silent (List.forall_mem_append.mpr ⟨hxs, hys⟩)
      | first span hbefore hafter =>
          rw [← List.append_assoc]
          exact .first span (List.forall_mem_append.mpr ⟨hxs, hbefore⟩) hafter
  | first span hbefore hafter =>
      cases h' with
      | again hys =>
          rw [List.append_assoc, List.cons_append]
          exact .first span hbefore (List.forall_mem_append.mpr ⟨hafter, hys⟩)
  | again hxs =>
      cases h' with
      | again hys => exact .again (List.forall_mem_append.mpr ⟨hxs, hys⟩)

/-- Clauses that do not speak of the flag make no difference. -/
theorem of_not_usesFlag (a : Bool) (h : ∀ k ∈ xs, ¬ k.UsesFlag) : Announces probe a xs a := by
  cases a with
  | false => exact .silent h
  | true => exact .again fun k hk hhandler => h k hk hhandler.usesFlag

/-- There is no handler after it has come out, and none before. -/
theorem not_isHandler (h : Announces probe a xs b) (hab : a = true ∨ b = false) :
    ∀ k ∈ xs, ¬ k.IsHandler probe := by
  cases h with
  | silent hxs => exact fun k hk hhandler => hxs k hk hhandler.usesFlag
  | first span hbefore hafter => rcases hab with hab | hab <;> cases hab
  | again hxs => exact hxs

/-- Where the handler is, if it is there. -/
theorem split_of_isHandler (h : Announces probe false xs b) (hx : ∃ k ∈ xs, k.IsHandler probe) :
    ∃ before span after, xs = before ++ .errorHandler probe span :: after ∧
      (∀ k ∈ before, ¬ k.UsesFlag) ∧ ∀ k ∈ after, ¬ k.IsHandler probe := by
  cases h with
  | silent hxs =>
      obtain ⟨k, hk, hhandler⟩ := hx
      exact absurd hhandler.usesFlag (hxs k hk)
  | @first before after span hbefore hafter => exact ⟨before, span, after, rfl, hbefore, hafter⟩

end Announces

/-- Before each clause that tests the error flag there is a handler. -/
def Clause.Covered (probe : Probe) (cs : List Clause) : Prop :=
  ∀ before k after, cs = before ++ k :: after → k.TestsFlag → ∃ h ∈ before, h.IsHandler probe

/-- As long as nothing has come out before, all that comes out is covered. -/
theorem Announces.covered {probe : Probe} {b : Bool} {cs : List Clause}
    (h : Announces probe false cs b) : Clause.Covered probe cs := by
  intro before k after heq hk
  cases h with
  | silent hcs =>
      exact absurd hk.usesFlag (hcs k (heq ▸ List.mem_append_right _ List.mem_cons_self))
  | @first early late span hearly hlate =>
      have hhandler := Clause.isHandler_errorHandler probe span
      -- the clause is neither one of those before the handler nor the handler itself
      induction early generalizing before with
      | nil =>
          cases before with
          | nil =>
              obtain ⟨rfl, -⟩ := List.cons.inj heq
              exact absurd hk hhandler.not_testsFlag
          | cons b bs =>
              obtain ⟨rfl, -⟩ := List.cons.inj heq
              exact ⟨_, List.mem_cons_self, hhandler⟩
      | cons x early ih =>
          cases before with
          | nil =>
              obtain ⟨rfl, -⟩ := List.cons.inj heq
              exact absurd hk.usesFlag (hearly x List.mem_cons_self)
          | cons b bs =>
              obtain ⟨h, hmem, hh⟩ := ih bs
                (fun k hk => hearly k (List.mem_cons_of_mem x hk)) (List.cons.inj heq).2
              exact ⟨h, List.mem_cons_of_mem b hmem, hh⟩

namespace Session

variable {s : Session} {c : Clause} {out : List Clause}

/-- An expansion does not change the error probe of a session, however it ends. -/
theorem errorProbe_expand (s : Session) (c : Clause) :
    (s.expand c).session.errorProbe = s.errorProbe := by
  unfold expand
  dsimp only
  split
  · rfl
  · split <;> rfl

/-- No clause of an expansion but the one put before it handles errors. -/
theorem not_isHandler_assembled (hc : c.Unreserved) {inReturn : Bool} {ids : Ids} {needs : Needs}
    {callers : CallersClauses} (hcallers : CallersClauses.ofCounters needs.counters = .ok callers)
    (probe : Probe) :
    ∀ k ∈ assembled (c.resolve inReturn ids).clause needs callers, ¬ k.IsHandler probe :=
  fun _ hk => (mem_assembled hcallers hk).not_isHandler (hc.not_usesFlag_resolve inReturn ids) probe

/-- One expansion. -/
theorem announces_expand (hc : c.Unreserved) (h : (s.expand c).result = .ok out) :
    Announces s.errorProbe s.handlerEmitted out (s.expand c).session.handlerEmitted := by
  obtain ⟨needs, callers, hneeds, hcallers, rfl⟩ := of_expand_ok h
  obtain ⟨-, -, -, hflow⟩ := Clause.of_resolve_needs hneeds
  rw [← Clause.any_isStructured_resolve c c.allReturn s.ids] at hflow
  have hflag := hc.not_usesFlag_resolve c.allReturn s.ids
  have hnone : ∀ k ∈ assembled (c.resolve c.allReturn s.ids).clause needs callers,
      ¬ k.IsHandler s.errorProbe := not_isHandler_assembled hc hcallers s.errorProbe
  rw [(expand_ok hneeds hcallers).2]
  unfold withHandler needsHandler
  cases hemitted : s.handlerEmitted with
  | true =>
      rw [Bool.not_true, Bool.and_false]
      exact .again hnone
  | false =>
      rw [Bool.not_false, Bool.and_true]
      by_cases hlen : 1 < (assembled (c.resolve c.allReturn s.ids).clause needs callers).length
      · rw [decide_eq_true hlen, if_pos rfl]
        show Announces _ _ ([] ++ Clause.errorHandler s.errorProbe c.span :: _) _
        exact .first c.span (List.forall_mem_nil _) hnone
      · rw [decide_eq_false hlen, if_neg Bool.false_ne_true]
        have hfast : Body.isFast needs = true := by
          cases hfast : Body.isFast needs with
          | true => rfl
          | false => exact absurd (clearError_mem_assembled callers hfast hflow).2 hlen
        exact .silent (not_usesFlag_of_isFast hflag hfast hcallers)

/-- Once it is emitted, the handler stays so. -/
theorem handlerEmitted_expand (h : s.handlerEmitted = true) (c : Clause) :
    (s.expand c).session.handlerEmitted = true := by
  unfold expand
  dsimp only
  split
  · exact h
  · split
    · exact h
    · rw [h]
      rfl

theorem errorProbe_expandAll (s : Session) (cs : List Clause) :
    (s.expandAll cs).session.errorProbe = s.errorProbe := by
  induction cs generalizing s with
  | nil => rfl
  | cons c cs ih =>
      simp only [expandAll]
      split
      · exact s.errorProbe_expand c
      · exact (ih _).trans (s.errorProbe_expand c)

/-- Once the handler has been emitted, it stays so. -/
theorem handlerEmitted_expandAll (h : s.handlerEmitted = true) (cs : List Clause) :
    (s.expandAll cs).session.handlerEmitted = true := by
  induction cs generalizing s with
  | nil => exact h
  | cons c cs ih =>
      simp only [expandAll]
      split
      · exact handlerEmitted_expand h c
      · exact ih (handlerEmitted_expand h c)

/-- The expansions of a list, one after the other. -/
theorem announces_expandAll {cs : List Clause} (hcs : ∀ c ∈ cs, c.Unreserved)
    (h : (s.expandAll cs).result = .ok out) :
    Announces s.errorProbe s.handlerEmitted out (s.expandAll cs).session.handlerEmitted := by
  induction cs generalizing s out with
  | nil =>
      obtain rfl : [] = out := Except.ok.inj h
      exact .of_not_usesFlag _ (List.forall_mem_nil _)
  | cons c cs ih =>
      obtain ⟨part, rest, hpart, hrest, rfl, hsession⟩ := of_expandAll_cons_ok h
      have hhead := announces_expand (hcs c List.mem_cons_self) hpart
      have htail := ih (fun c' hc' => hcs c' (List.mem_cons_of_mem c hc')) hrest
      rw [errorProbe_expand] at htail
      rw [hsession]
      exact hhead.append htail

end Session

/-! ## Calls -/

namespace Call

/-- What a call returns. -/
def result (s : Session) : Call → Except ExpansionError (List Clause)
  | expand c => (s.expand c).result
  | compile p => (s.compile p).result.map (·.clauses)

/-- The clauses that a call returns; one that fails returns none. -/
def returned (s : Session) (call : Call) : List Clause :=
  match call.result s with
  | .ok out => out
  | .error _ => []

/-- The call emits the handler and then fails, so that nobody gets to see it. -/
def LosesHandler (s : Session) (call : Call) : Prop :=
  s.handlerEmitted = false ∧ (call.after s).handlerEmitted = true ∧
    (call.result s).isOk = false

instance (s : Session) (call : Call) : Decidable (call.LosesHandler s) :=
  inferInstanceAs (Decidable (_ ∧ _ ∧ _))

variable {s : Session} {call : Call}

/-- A call that loses the handler has failed, so it returns nothing. -/
theorem LosesHandler.returned (h : call.LosesHandler s) : call.returned s = [] := by
  unfold Call.returned
  cases hres : call.result s with
  | error e => rfl
  | ok out =>
      have hfails := h.2.2
      rw [hres] at hfails
      cases hfails

/-- A call does not change the error probe, however it ends. -/
theorem errorProbe_after (s : Session) (call : Call) :
    (call.after s).errorProbe = s.errorProbe := by
  cases call with
  | expand c => exact s.errorProbe_expand c
  | compile p =>
      simp only [after, Session.compile]
      split
      · split <;> exact s.errorProbe_expandAll p.clauses
      · split <;> rfl

/-- Nor does it take back that the handler has been emitted. -/
theorem handlerEmitted_after (h : s.handlerEmitted = true) (call : Call) :
    (call.after s).handlerEmitted = true := by
  cases call with
  | expand c => exact Session.handlerEmitted_expand h c
  | compile p =>
      simp only [after, Session.compile]
      split
      · split <;> exact Session.handlerEmitted_expandAll h p.clauses
      · split <;> exact h

/-- A call that does not lose the handler. -/
theorem announces_returned (hcs : ∀ c ∈ call.sources, c.Unreserved)
    (h : ¬ call.LosesHandler s) :
    Announces s.errorProbe s.handlerEmitted (call.returned s) (call.after s).handlerEmitted := by
  unfold returned
  cases hres : call.result s with
  | error e =>
      have hsame : (call.after s).handlerEmitted = s.handlerEmitted := by
        cases hemitted : s.handlerEmitted with
        | true => exact handlerEmitted_after hemitted call
        | false => exact Bool.eq_false_iff.mpr fun hafter => h ⟨hemitted, hafter, by rw [hres]; rfl⟩
      rw [hsame]
      exact .of_not_usesFlag _ (List.forall_mem_nil _)
  | ok out =>
      cases call with
      | expand c => exact Session.announces_expand (hcs c List.mem_cons_self) hres
      | compile p =>
          obtain ⟨q, hq, rfl⟩ : ∃ q, (s.compile p).result = .ok q ∧ q.clauses = out := by
            cases hq : (s.compile p).result with
            | error e =>
                simp only [result, hq] at hres
                cases hres
            | ok q =>
                simp only [result, hq] at hres
                exact ⟨q, rfl, Except.ok.inj hres⟩
          simp only [after]
          cases hs : s.config.experimental with
          | true =>
              obtain ⟨hall, hsession⟩ := Session.of_compile_ok hs hq
              rw [hsession]
              exact Session.announces_expandAll hcs hall
          | false =>
              obtain ⟨rfl, hsession⟩ := Session.of_compile_ok_off hs hq
              rw [hsession]
              exact .of_not_usesFlag _ fun k hk => (hcs k hk).not_usesFlag

end Call

/-! ## Runs -/

namespace Session

/-- All that some calls return, in order. -/
def returned (s : Session) : List Call → List Clause
  | [] => []
  | call :: calls => call.returned s ++ (call.after s).returned calls

/-- None of the calls loses the handler. -/
def KeepsHandler (s : Session) : List Call → Prop
  | [] => True
  | call :: calls => ¬ call.LosesHandler s ∧ (call.after s).KeepsHandler calls

instance decidableKeepsHandler (s : Session) :
    (calls : List Call) → Decidable (s.KeepsHandler calls)
  | [] => inferInstanceAs (Decidable True)
  | call :: calls =>
      have := (call.after s).decidableKeepsHandler calls
      inferInstanceAs (Decidable (_ ∧ _))

variable {s : Session} {calls : List Call}

/-- What has been emitted before cannot be lost. -/
theorem keepsHandler_of_emitted (h : s.handlerEmitted = true) (calls : List Call) :
    s.KeepsHandler calls := by
  induction calls generalizing s with
  | nil => trivial
  | cons call calls ih =>
      refine ⟨fun hloses => ?_, ih (Call.handlerEmitted_after h call)⟩
      exact Bool.noConfusion (hloses.1.symm.trans h)

/-- A run in which the handler is not lost. -/
theorem announces_run (hcalls : ∀ call ∈ calls, ∀ c ∈ call.sources, c.Unreserved)
    (h : s.KeepsHandler calls) :
    Announces s.errorProbe s.handlerEmitted (s.returned calls) (s.run calls).handlerEmitted := by
  induction calls generalizing s with
  | nil => exact .of_not_usesFlag _ (List.forall_mem_nil _)
  | cons call calls ih =>
      have hhead := Call.announces_returned (hcalls call List.mem_cons_self) h.1
      have htail := ih (fun call' h' => hcalls call' (List.mem_cons_of_mem call h')) h.2
      rw [Call.errorProbe_after] at htail
      exact hhead.append htail

/-- In a run in which it is lost, there is no handler at all. -/
theorem not_isHandler_of_loses (hcalls : ∀ call ∈ calls, ∀ c ∈ call.sources, c.Unreserved)
    (h : ¬ s.KeepsHandler calls) : ∀ k ∈ s.returned calls, ¬ k.IsHandler s.errorProbe := by
  induction calls generalizing s with
  | nil => exact absurd trivial h
  | cons call calls ih =>
      have hrest : ∀ call' ∈ calls, ∀ c ∈ call'.sources, c.Unreserved :=
        fun call' h' => hcalls call' (List.mem_cons_of_mem call h')
      rw [← Call.errorProbe_after s call]
      refine List.forall_mem_append.mpr ?_
      by_cases hloses : call.LosesHandler s
      · -- the call returns nothing, and from then on the session takes the handler for emitted
        have htail := announces_run hrest (keepsHandler_of_emitted hloses.2.1 calls)
        refine ⟨?_, htail.not_isHandler (.inl hloses.2.1)⟩
        rw [hloses.returned]
        exact List.forall_mem_nil _
      · -- then it is lost later, so up to here there was no need for one
        have hlater : ¬ (call.after s).KeepsHandler calls := fun hkeeps => h ⟨hloses, hkeeps⟩
        have hsilent : (call.after s).handlerEmitted = false :=
          Bool.eq_false_iff.mpr fun hafter => hlater (keepsHandler_of_emitted hafter calls)
        have hhead := Call.announces_returned (hcalls call List.mem_cons_self) hloses
        rw [Call.errorProbe_after]
        refine ⟨hhead.not_isHandler (.inr hsilent), ?_⟩
        rw [← Call.errorProbe_after s call]
        exact ih hrest hlater

/-- When the clauses that test the error flag have a handler before them.  A fresh
    session may be called for any sources that leave slots alone, and calls may fail;
    all that it returns is covered if no call that fails takes the handler with it, and
    otherwise only if nothing that it returns tests the flag. -/
theorem covered_iff (hs : s.handlerEmitted = false)
    (hcalls : ∀ call ∈ calls, ∀ c ∈ call.sources, c.Unreserved) :
    Clause.Covered s.errorProbe (s.returned calls) ↔
      s.KeepsHandler calls ∨ ∀ k ∈ s.returned calls, ¬ k.TestsFlag := by
  constructor
  · intro hcovered
    by_cases hkeeps : s.KeepsHandler calls
    · exact .inl hkeeps
    · refine .inr fun k hk htests => ?_
      obtain ⟨before, after, heq⟩ := List.append_of_mem hk
      obtain ⟨h, hmem, hhandler⟩ := hcovered before k after heq htests
      refine not_isHandler_of_loses hcalls hkeeps h ?_ hhandler
      rw [heq]
      exact List.mem_append_left _ hmem
  · rintro (hkeeps | hnone)
    · have hrun := announces_run hcalls hkeeps
      rw [hs] at hrun
      exact hrun.covered
    · intro before k after heq htests
      exact absurd htests (hnone k (heq ▸ List.mem_append_right _ List.mem_cons_self))

/-- Two calls fail here, one before the handler is emitted and one after that; neither
    takes it along. -/
theorem covered_despite_failures :
    let s : Session := ⟨.experimentalOn, ⟨"dtrace", "", "", "ERROR"⟩, .fresh, false⟩
    let read (stmt : Stmt) : Clause := ⟨[⟨"syscall", "", "read", "entry"⟩], none, [stmt], .nowhere⟩
    let trace : Stmt := .expr (.call "trace" [.ident "pid" .nowhere] .nowhere)
    let busy : Clause := read (.branch (.ident "ready" .nowhere) [trace] [] .nowhere)
    let broken : Clause := read (.expr (.placeholder .nowhere))
    let calls : List Call :=
      [.compile ⟨[read trace, broken]⟩, .expand busy, .compile ⟨[busy, broken]⟩,
        .compile ⟨[read trace, busy]⟩]
    s.handlerEmitted = false ∧ (∀ call ∈ calls, ∀ c ∈ call.sources, c.Unreserved) ∧
      s.KeepsHandler calls ∧ (s.returned calls).length = 8 ∧
      Clause.Covered s.errorProbe (s.returned calls) := by
  intro s read trace busy broken calls
  have hcalls : ∀ call ∈ calls, ∀ c ∈ call.sources, c.Unreserved := by decide
  have hkeeps : s.KeepsHandler calls := by decide +kernel
  exact ⟨rfl, hcalls, hkeeps, by decide +kernel, (covered_iff rfl hcalls).mpr (.inl hkeeps)⟩

/-- A program whose second clause is wrong takes the handler with it, and the next call
    returns clauses that test the flag without one. -/
theorem uncovered_after_failure :
    let s : Session := ⟨.experimentalOn, ⟨"dtrace", "", "", "ERROR"⟩, .fresh, false⟩
    let read (stmt : Stmt) : Clause := ⟨[⟨"syscall", "", "read", "entry"⟩], none, [stmt], .nowhere⟩
    let trace : Stmt := .expr (.call "trace" [.ident "pid" .nowhere] .nowhere)
    let busy : Clause := read (.branch (.ident "ready" .nowhere) [trace] [] .nowhere)
    let broken : Clause := read (.expr (.placeholder .nowhere))
    let calls : List Call := [.compile ⟨[busy, broken]⟩, .expand busy]
    s.handlerEmitted = false ∧ (∀ call ∈ calls, ∀ c ∈ call.sources, c.Unreserved) ∧
      ¬ Clause.Covered s.errorProbe (s.returned calls) := by
  intro s read trace busy broken calls
  refine ⟨rfl, by decide, fun hcovered => ?_⟩
  have hreturned : s.returned calls =
      [.clearError busy.probes .nowhere] ++
        .setCondition busy.probes none .first (.ident "ready" .nowhere) .nowhere ::
          [.block busy.probes (some .first) true [trace] .nowhere] := by
    decide +kernel
  obtain ⟨h, hmem, hhandler⟩ := hcovered _ _ _ hreturned ⟨_, rfl, by decide⟩
  rw [List.mem_singleton.mp hmem] at hhandler
  revert hhandler
  decide

end Session

end ProbeLang
