import ProbeLang.Proofs.Engine
import ProbeLang.Proofs.Handler
import ProbeLang.Proofs.Splitting

/-! # Slots are set before they are read

    The error flag and the conditions are set anew at every firing.  Nothing ever
    resets a condition, and every clause numbers its own from one up: a clause that
    reads one too early sees what another has left there.

    What a clause reads is a matter between it and those before it (`Clause.Reading`).
    Each rule of splitting brings the clause that sets a condition before the ones that
    read it, also over the copies of a loop (`Emitted.Splits.renewed`), and an expansion
    puts the flag and the first condition before its body (`Session.renewed_assembled`). -/

namespace ProbeLang

/-- Whether a slot is set anew at every firing: the error flag and the conditions are. -/
def Slot.isRenewed : Slot → Bool
  | error => true
  | condition _ => true
  | _ => false

/-! ## What a clause reads -/

namespace Expr

/-- The names of the slots that an action reads: all that it speaks of, but for a slot
    that it assigns to. -/
def readNames : Expr → List String
  | binary .assign target value s =>
      if (target.cell? 0).isSome then value.reservedNames
      else (binary .assign target value s).reservedNames
  | e => e.reservedNames

/-- What is read is spoken of. -/
theorem mem_reservedNames_of_mem_readNames {e : Expr} {name : String} (h : name ∈ e.readNames) :
    name ∈ e.reservedNames := by
  unfold readNames at h
  split at h
  · split at h
    · rw [reservedNames_binary]
      exact List.mem_append_right _ h
    · exact h
  · exact h

/-- To assign to a slot reads the value only. -/
theorem readNames_assign (slot : Slot) (value : Expr) (s s' : Span) :
    ((slot.expr s).assign value s').readNames = value.reservedNames := by
  have hcell : (((slot.expr s).cell? 0).isSome) = true := by
    rw [Slot.cell?_expr]
    rfl
  show (if ((slot.expr s).cell? 0).isSome then value.reservedNames else _) = _
  rw [if_pos hcell]

/-- The expression speaks neither of the error flag nor of conditions. -/
def SparesRenewed (e : Expr) : Prop := ∀ slot : Slot, slot.isRenewed = true → e.Spares slot

end Expr

namespace Clause

variable {k : Clause} {slot : Slot}

/-- The predicate or an action of the clause reads the slot. -/
def Reads (slot : Slot) (k : Clause) : Prop :=
  (∃ p ∈ k.predicate, slot.name ∈ p.reservedNames) ∨
    ∃ stmt ∈ k.stmts, slot.name ∈ stmt.ownExpr.readNames

instance (slot : Slot) (k : Clause) : Decidable (k.Reads slot) :=
  inferInstanceAs (Decidable (_ ∨ _))

/-- What a clause reads, it speaks of. -/
theorem Reads.mem_reservedNames (h : k.Reads slot) : slot.name ∈ k.reservedNames := by
  rcases h with ⟨p, hp, hname⟩ | ⟨stmt, hstmt, hname⟩
  · exact List.mem_flatMap.mpr
      ⟨p, List.mem_append_left _ (Option.mem_toList.mpr hp), hname⟩
  · exact List.mem_flatMap.mpr ⟨stmt.ownExpr,
      List.mem_append_right _ (List.mem_map.mpr ⟨stmt, hstmt, rfl⟩),
      Expr.mem_reservedNames_of_mem_readNames hname⟩

/-- A clause without a predicate that only assigns to slots reads what it assigns. -/
theorem not_reads_of_assigns {probes : List Probe} {stmts : List Stmt} {span : Span}
    (h : ∀ stmt ∈ stmts, ∃ target value s, value.Spares slot ∧
      stmt = .expr ((Slot.expr target s).assign value s)) :
    ¬ (Clause.mk probes none stmts span).Reads slot := by
  rintro (⟨p, hp, -⟩ | ⟨stmt, hstmt, hname⟩)
  · cases hp
  · rw [Clause.stmts, Stmt.nodesList_eq_flatMap] at hstmt
    obtain ⟨top, htop, hstmt⟩ := List.mem_flatMap.mp hstmt
    obtain ⟨target, value, s, hvalue, rfl⟩ := h top htop
    rw [List.mem_singleton.mp hstmt] at hname
    rw [show (Stmt.expr ((target.expr s).assign value s)).ownExpr = (target.expr s).assign value s
      from rfl, Expr.readNames_assign] at hname
    exact hvalue hname

/-- To work out a condition reads the flag, the condition around it and the value. -/
theorem Reads.of_setCondition {probes : List Probe} {around : Option ConditionId}
    {id : ConditionId} {value : Expr} {s : Span}
    (h : (setCondition probes around id value s).Reads slot) (hvalue : value.Spares slot) :
    slot = .error ∨ ∃ outer, around = some outer ∧ slot = .condition outer := by
  rcases h with ⟨p, hp, hname⟩ | ⟨stmt, hstmt, hname⟩
  · obtain rfl := Option.some.inj hp
    rw [Guard.noError, Expr.not, Expr.reservedNames_unary, Guard.errorFlag,
      Slot.reservedNames_expr, List.mem_singleton] at hname
    exact .inl (Slot.name_injective hname)
  · rw [List.mem_singleton.mp hstmt] at hname
    have hread : slot.name ∈ ((Guard.ambient around s).and value s).reservedNames := by
      rw [← Expr.readNames_assign (.condition id)]
      exact hname
    rw [Expr.and, Expr.reservedNames_binary] at hread
    rcases List.mem_append.mp hread with hname | hname
    · cases around with
      | none => cases hname
      | some outer =>
          rw [Guard.ambient, Guard.condition, Slot.reservedNames_expr, List.mem_singleton] at hname
          exact .inr ⟨outer, rfl, Slot.name_injective hname⟩
    · exact absurd hname hvalue

/-- A block reads the flag and the condition around it, and what its code reads. -/
theorem Reads.of_block {probes : List Probe} {around : Option ConditionId} {anyBefore : Bool}
    {es : List Expr} {s : Span} (h : (block probes around anyBefore (es.map .expr) s).Reads slot)
    (hes : ∀ e ∈ es, e.Spares slot) :
    slot = .error ∨ ∃ outer, around = some outer ∧ slot = .condition outer := by
  have hguard : ∀ name ∈ (Guard.noError s).reservedNames, name = Slot.error.name := by
    intro name hname
    rwa [Guard.noError, Expr.not, Expr.reservedNames_unary, Guard.errorFlag,
      Slot.reservedNames_expr, List.mem_singleton] at hname
  rcases h with ⟨p, hp, hname⟩ | ⟨stmt, hstmt, hname⟩
  · have hp : Guard.block? around anyBefore s = some p := hp
    cases around with
    | none =>
        cases anyBefore with
        | false => cases hp
        | true =>
            obtain rfl := Option.some.inj hp
            exact .inl (Slot.name_injective (hguard _ hname))
    | some outer =>
        obtain rfl := Option.some.inj hp
        rw [Expr.and, Expr.reservedNames_binary] at hname
        rcases List.mem_append.mp hname with hname | hname
        · exact .inl (Slot.name_injective (hguard _ hname))
        · rw [Guard.condition, Slot.reservedNames_expr, List.mem_singleton] at hname
          exact .inr ⟨outer, rfl, Slot.name_injective hname⟩
  · rw [Clause.stmts, Stmt.nodesList_eq_flatMap] at hstmt
    obtain ⟨top, htop, hstmt⟩ := List.mem_flatMap.mp hstmt
    obtain ⟨e, he, rfl⟩ := List.mem_map.mp htop
    rw [List.mem_singleton.mp hstmt] at hname
    exact absurd (Expr.mem_reservedNames_of_mem_readNames hname) (hes e he)

/-! ## What a clause sets -/

/-- As long as nothing has failed, the clause assigns to a condition; it does nothing else. -/
def WorksOut (id : ConditionId) (k : Clause) : Prop :=
  (∃ s, k.predicate = some (Guard.noError s)) ∧
    ∃ s value s', k.actions = [.expr ((Guard.condition id s).assign value s')]

/-- The clauses that work out conditions are those that splitting makes for it. -/
theorem worksOut_setCondition (probes : List Probe) (around : Option ConditionId)
    (id : ConditionId) (value : Expr) (s : Span) :
    (setCondition probes around id value s).WorksOut id :=
  ⟨⟨s, rfl⟩, s, _, s, rfl⟩

/-- A clause at `probes` that sets a slot anew; the one for the flag stands at `span`. -/
inductive Renews (probes : List Probe) (span : Span) : Slot → Clause → Prop where
  | flag : Renews probes span .error (clearError probes span)
  | condition {id : ConditionId} {k : Clause} :
      k.probes = probes → k.WorksOut id → Renews probes span (.condition id) k

/-- Each slot that the clause reads is `live` to begin with or set anew before it. -/
def Reading (probes : List Probe) (span : Span) (live : Slot → Prop) (before : List Clause)
    (k : Clause) : Prop :=
  ∀ slot : Slot, slot.isRenewed = true → k.Reads slot →
    k.probes = probes ∧ (live slot ∨ ∃ d ∈ before, Renews probes span slot d)

/-- No clause of the list reads a slot too early. -/
def Renewed (probes : List Probe) (span : Span) (live : Slot → Prop) (ks : List Clause) : Prop :=
  InOrder (Reading probes span live) ks

section Renewed

variable {probes : List Probe} {span : Span} {live live' : Slot → Prop} {ks ks' : List Clause}

/-- More slots that can be read from the start do no harm. -/
theorem Renewed.mono (hlive : ∀ slot, live slot → live' slot) (h : Renewed probes span live ks) :
    Renewed probes span live' ks := by
  refine InOrder.mono h ?_
  intro before k _ hk slot hslot hreads
  exact (hk slot hslot hreads).imp_right (Or.imp_left (hlive slot))

/-- Clauses that read neither the flag nor a condition are in order anywhere. -/
theorem renewed_of_not_reads
    (h : ∀ k ∈ ks, ∀ slot : Slot, slot.isRenewed = true → ¬ k.Reads slot) :
    Renewed probes span live ks := by
  intro before k after heq slot hslot hreads
  refine absurd hreads (h k ?_ slot hslot)
  rw [heq]
  exact List.mem_append_right _ List.mem_cons_self

theorem renewed_singleton (h : ∀ slot : Slot, slot.isRenewed = true → ¬ k.Reads slot) :
    Renewed probes span live [k] := by
  refine renewed_of_not_reads ?_
  intro k' hk'
  rw [List.mem_singleton.mp hk']
  exact h

/-- What the first clause sets is live for the others. -/
theorem Renewed.cons (hk : Reading probes span live [] k)
    (hks : Renewed probes span (fun slot => live slot ∨ Renews probes span slot k) ks) :
    Renewed probes span live (k :: ks) := by
  refine inOrder_cons.mpr ⟨hk, InOrder.mono hks ?_⟩
  intro before x _ hx slot hslot hreads
  obtain ⟨hprobes, (hlive | hset) | ⟨d, hd, hset⟩⟩ := hx slot hslot hreads
  · exact ⟨hprobes, .inl hlive⟩
  · exact ⟨hprobes, .inr ⟨k, List.mem_cons_self, hset⟩⟩
  · exact ⟨hprobes, .inr ⟨d, List.mem_cons_of_mem k hd, hset⟩⟩

/-- Two lists in a row are in order if each is. -/
theorem Renewed.append (h : Renewed probes span live ks) (h' : Renewed probes span live ks') :
    Renewed probes span live (ks ++ ks') := by
  refine inOrder_append.mpr ⟨h, InOrder.mono h' ?_⟩
  intro before x _ hx slot hslot hreads
  refine (hx slot hslot hreads).imp_right (Or.imp_right ?_)
  rintro ⟨d, hd, hset⟩
  exact ⟨d, List.mem_append_right ks hd, hset⟩

/-- So are the copies of a loop, each of which may rely on what the first one may rely
    on. -/
theorem Renewed.copies (h : Renewed probes span live ks) (count : Nat) :
    Renewed probes span live (List.replicate count ks).flatten := by
  induction count with
  | zero => exact inOrder_nil
  | succ count ih =>
      rw [List.replicate_succ, List.flatten_cons]
      exact h.append ih

/-- The flag and the condition around a piece of a clause can be read. -/
structure Ready (live : Slot → Prop) (around : Option ConditionId) : Prop where
  flag : live .error
  outer : ∀ id, around = some id → live (.condition id)

variable {around : Option ConditionId}

theorem Ready.mono (hlive : ∀ slot, live slot → live' slot) (h : Ready live around) :
    Ready live' around :=
  ⟨hlive _ h.flag, fun id hid => hlive _ (h.outer id hid)⟩

/-- Under a condition that has just been set, that one can be read. -/
theorem Ready.under (h : Ready live around) (id : ConditionId) :
    Ready (fun slot => live slot ∨ slot = .condition id) (some id) := by
  refine ⟨.inl h.flag, ?_⟩
  rintro id' hid
  rw [Option.some.inj hid]
  exact .inr rfl

/-- A test reads the condition around it, and sets its own for what comes after it. -/
theorem Renewed.setCondition {id : ConditionId} {value : Expr} (s : Span)
    (hready : Ready live around)
    (hvalue : ∀ slot : Slot, slot.isRenewed = true → value.Spares slot ∨ live slot)
    (hks : Renewed probes span (fun slot => live slot ∨ slot = .condition id) ks) :
    Renewed probes span live (setCondition probes around id value s :: ks) := by
  refine .cons ?_ (hks.mono ?_)
  · intro slot hslot hreads
    refine ⟨rfl, .inl ?_⟩
    rcases hvalue slot hslot with hspares | hlive
    · rcases hreads.of_setCondition hspares with rfl | ⟨outer, houter, rfl⟩
      · exact hready.flag
      · exact hready.outer outer houter
    · exact hlive
  · rintro slot (hlive | rfl)
    · exact .inl hlive
    · exact .inr (.condition rfl (worksOut_setCondition _ _ _ _ _))

/-- A block reads the condition around it. -/
theorem Renewed.block {es : List Expr} (anyBefore : Bool) (s : Span) (hready : Ready live around)
    (hes : ∀ e ∈ es, e.SparesRenewed) (hks : Renewed probes span live ks) :
    Renewed probes span live (block probes around anyBefore (es.map .expr) s :: ks) := by
  refine .cons ?_ (hks.mono fun slot => .inl)
  intro slot hslot hreads
  refine ⟨rfl, .inl ?_⟩
  rcases hreads.of_block fun e he => hes e he slot hslot with rfl | ⟨outer, houter, rfl⟩
  · exact hready.flag
  · exact hready.outer outer houter

end Renewed

end Clause

/-! ## Splitting -/

/-- Along the rules of splitting, a condition is worked out before it is read. -/
theorem Emitted.Splits.renewed {probes : List Probe} {span : Span} {stmts : List Stmt}
    {around : Option ConditionId} {n m : Nat} {ks : List Clause} {live : Slot → Prop}
    (h : Splits probes stmts around n ks m) (hsource : ∀ e ∈ Stmt.exprsOf stmts, e.SparesRenewed)
    (hready : Clause.Ready live around) : Clause.Renewed probes span live ks := by
  induction h generalizing live with
  | nil around n => exact inOrder_nil
  | run first more _ _ ih =>
      obtain ⟨hrun, hrest⟩ := Stmt.forall_exprsOf_run.mp hsource
      exact .block _ _ hready hrun (ih hrest hready)
  | branch cond s _ _ iht ihr =>
      obtain ⟨hcond, htrue, -, hrest⟩ := Stmt.forall_exprsOf_branch.mp hsource
      refine .setCondition s hready (fun slot hslot => .inl (hcond slot hslot)) ?_
      exact .append (iht htrue (hready.under _)) ((ihr hrest hready).mono fun _ => .inl)
  | @branchElse around n m _ _ _ _ _ _ _ _ cond s _ _ _ _ iht ihf ihr =>
      obtain ⟨hcond, htrue, hfalse, hrest⟩ := Stmt.forall_exprsOf_branch.mp hsource
      have hready' : Clause.Ready (fun slot => live slot ∨ slot = .condition (.after n)) around :=
        hready.mono fun _ => .inl
      refine .setCondition s hready (fun slot hslot => .inl (hcond slot hslot)) ?_
      refine .append (iht htrue (hready.under _)) (.setCondition s hready' ?_ ?_)
      · -- the `else` reads the condition of the branch, which has been set
        intro slot _
        by_cases hslot : slot = .condition (.after n)
        · exact .inr (.inr hslot)
        · exact .inl ((Expr.composable_spares slot).unary s
            ((Expr.composable_spares slot).slot s (Ne.symm hslot)))
      · exact .append (ihf hfalse (hready'.under _))
          ((ihr hrest hready).mono fun _ hlive => .inl (.inl hlive))
  | @loop around n m _ _ _ _ _ cond maxIter s _ _ ihb ihr =>
      obtain ⟨hcond, hbody, hrest⟩ := Stmt.forall_exprsOf_loop.mp hsource
      have hgoing := hready.under (.after n)
      refine .setCondition s hready
        (fun slot _ => .inl ((Expr.composable_spares slot).int 1 s)) ?_
      refine .append (.copies ?_ _) ((ihr hrest hready).mono fun _ => .inl)
      refine .setCondition s hgoing (fun slot hslot => .inl (hcond slot hslot)) ?_
      exact ihb hbody (hgoing.under _)

namespace Clause

variable {c k : Clause} {slot : Slot}

/-- A predicate is one more test, before the statements. -/
theorem renewed_split {around : Option ConditionId} {live : Slot → Prop} {span : Span}
    (hsource : ∀ e ∈ c.exprs, e.SparesRenewed) (hready : Ready live around) (n : Nat) :
    Renewed c.probes span live (c.split around n).clauses := by
  have hacts : ∀ e ∈ Stmt.exprsOf c.actions, e.SparesRenewed := fun e he =>
    hsource e (List.mem_append_right _ he)
  cases hp : c.predicate with
  | none =>
      simp only [split, hp]
      exact (Emitted.splits_ofStmts c.probes c.actions around n).renewed hacts hready
  | some p =>
      simp only [split, hp]
      have hpred : p.SparesRenewed := by
        refine hsource p (List.mem_append_left _ ?_)
        rw [hp]
        exact List.mem_cons_self
      refine .setCondition p.span hready (fun slot hslot => .inl (hpred slot hslot)) ?_
      exact (Emitted.splits_ofStmts c.probes c.actions _ _).renewed hacts (hready.under _)

/-! ## The clauses around a body -/

/-- The clauses that keep counters speak of counters only. -/
theorem not_reads_of_counters {counters : List Counter} {callers : CallersClauses}
    (hcallers : CallersClauses.ofCounters counters = .ok callers)
    (hk : k ∈ callers.increments ∨ k ∈ callers.decrements) (hslot : slot.isRenewed = true) :
    ¬ k.Reads slot := by
  intro hreads
  have hname := hreads.mem_reservedNames
  obtain ⟨hinc, hdec⟩ := CallersClauses.mem_ofCounters hcallers
  rcases hk with hk | hk
  · obtain ⟨counter, -, probes, rfl⟩ := hinc k hk
    rw [counter.reservedNames_increment, List.mem_singleton] at hname
    rw [Slot.name_injective hname] at hslot
    cases hslot
  · obtain ⟨counter, -, probes, rfl⟩ := hdec k hk
    rw [counter.reservedNames_decrement, List.mem_cons, List.mem_singleton, or_self] at hname
    rw [Slot.name_injective hname] at hslot
    cases hslot

/-- The capture reads only the script's variables. -/
theorem not_reads_captureClause (a : Capture) (probes : List Probe) (s : Span) (slot : Slot) :
    ¬ (a.captureClause probes s).Reads slot := by
  refine not_reads_of_assigns fun stmt hstmt => ?_
  obtain ⟨f, -, hstmt⟩ := List.mem_filterMap.mp hstmt
  obtain ⟨value, hvalue, rfl⟩ := Option.map_eq_some_iff.mp hstmt
  exact ⟨.entry f a.group, value, s, (Expr.composable_spares slot).captured hvalue, rfl⟩

/-- The release only sets its slots to zero. -/
theorem not_reads_releaseClause (a : Capture) (probes : List Probe) (s : Span) (slot : Slot) :
    ¬ (a.releaseClause probes s).Reads slot := by
  refine not_reads_of_assigns fun stmt hstmt => ?_
  obtain ⟨f, -, rfl⟩ := List.mem_map.mp hstmt
  exact ⟨.entry f a.group, .int 0 s, s, (Expr.composable_spares slot).int 0 s, rfl⟩

/-- To put the flag up or to take it down reads nothing. -/
theorem not_reads_flag (probes : List Probe) (value : UInt64) (s : Span) (slot : Slot) :
    ¬ (Clause.mk probes none
      [.expr ((Guard.errorFlag s).assign (.int value s) s)] s).Reads slot := by
  refine not_reads_of_assigns fun stmt hstmt => ?_
  rw [List.mem_singleton.mp hstmt]
  exact ⟨.error, .int value s, s, (Expr.composable_spares slot).int value s, rfl⟩

/-- Resolution brings in neither the flag nor conditions. -/
theorem Unreserved.sparesRenewed_resolve (hc : c.Unreserved) (inReturn : Bool) (ids : Ids) :
    ∀ e ∈ (c.resolve inReturn ids).clause.exprs, e.SparesRenewed := by
  intro e he slot hslot hname
  obtain ⟨slots, hnames, hslots, -⟩ := (c.brings_resolution hc inReturn ids).slots
  have hmem : slot.name ∈ slots.map Slot.name := by
    rw [← hnames]
    exact List.mem_flatMap.mpr ⟨e, he, hname⟩
  obtain ⟨other, hother, heq⟩ := List.mem_map.mp hmem
  obtain rfl := Slot.name_injective heq
  have hprovides := hslots other hother
  cases other with
  | entry f group => cases hslot
  | callers id => cases hslot
  | _ => exact hprovides

end Clause

/-! ## Expansions -/

namespace Session

open ProbeLang.Clause (Renewed Ready)

variable {s : Session} {c k : Clause} {needs : Needs} {callers : CallersClauses}
  {out before after : List Clause}

/-- With conditions, the flag is taken down before all that can test it. -/
theorem assembled_of_conditions (h : Body.isFast needs = false)
    (hflow : needs.hasControlFlow = c.stmts.any Stmt.isStructured) :
    assembled c needs callers =
      (callers.increments ++ (needs.capture.map (·.captureClause c.probes c.span)).toList) ++
        .clearError c.probes c.span ::
          ((needs.capture.map (·.primingClause c.probes c.span)).toList ++
            ((c.split needs.around needs.before).clauses ++
              ((needs.capture.map (·.releaseClause c.probes c.span)).toList ++
                callers.decrements))) := by
  have hpos := conditions_pos h hflow
  unfold assembled surround
  rw [if_pos hpos, Body.ofClause_eq_split h]
  simp only [List.append_assoc, List.cons_append, List.nil_append]

/-- An expansion takes the flag down, and works out whether the entry was seen, before
    its body asks for either. -/
theorem renewed_assembled (hsource : ∀ e ∈ c.exprs, e.SparesRenewed)
    (hcallers : CallersClauses.ofCounters needs.counters = .ok callers)
    (hflow : needs.hasControlFlow = c.stmts.any Stmt.isStructured) :
    Renewed c.probes c.span (fun _ => False) (assembled c needs callers) := by
  have hincrements : ∀ {live : Slot → Prop}, Renewed c.probes c.span live callers.increments :=
    Clause.renewed_of_not_reads fun _ hk _ => Clause.not_reads_of_counters hcallers (.inl hk)
  have hdecrements : ∀ {live : Slot → Prop}, Renewed c.probes c.span live callers.decrements :=
    Clause.renewed_of_not_reads fun _ hk _ => Clause.not_reads_of_counters hcallers (.inr hk)
  cases hfast : Body.isFast needs with
  | true =>
      have hbody : Renewed c.probes c.span (fun _ => False) [c] := by
        refine Clause.renewed_singleton ?_
        intro slot hslot hreads
        obtain ⟨e, he, hname⟩ := List.mem_flatMap.mp hreads.mem_reservedNames
        exact hsource e he slot hslot hname
      rw [assembled_of_isFast hfast]
      exact .append hincrements (.append hbody hdecrements)
  | false =>
      have hclear : Clause.Reading c.probes c.span (fun _ => False) []
          (.clearError c.probes c.span) := fun slot _ hreads =>
        absurd hreads (Clause.not_reads_flag _ 0 _ slot)
      have hready : Ready (fun slot => False ∨ Clause.Renews c.probes c.span slot
          (.clearError c.probes c.span)) none :=
        ⟨.inr .flag, fun _ hid => by cases hid⟩
      rw [assembled_of_conditions hfast hflow]
      cases hcap : needs.capture with
      | none =>
          have hneeds : needs.needsCapture = false := by rw [Needs.needsCapture, hcap]; rfl
          rw [Needs.around, hneeds]
          simp only [Option.map_none, Option.toList_none, List.append_nil, List.nil_append]
          exact .append hincrements
            (.cons hclear (.append (Clause.renewed_split hsource hready _) hdecrements))
      | some a =>
          have hneeds : needs.needsCapture = true := by rw [Needs.needsCapture, hcap]; rfl
          have hcapture : Renewed c.probes c.span (fun _ => False)
              [a.captureClause c.probes c.span] :=
            Clause.renewed_singleton fun slot _ => Clause.not_reads_captureClause a _ _ slot
          have hrelease : ∀ {live : Slot → Prop}, Renewed c.probes c.span live
              [a.releaseClause c.probes c.span] :=
            Clause.renewed_singleton fun slot _ => Clause.not_reads_releaseClause a _ _ slot
          rw [Needs.around, hneeds]
          simp only [Option.map_some, Option.toList_some, List.singleton_append]
          refine .append (hincrements.append hcapture) (.cons hclear (.setCondition c.span hready ?_
            (.append (Clause.renewed_split hsource (hready.under .first) _)
              (hrelease.append hdecrements))))
          -- whether the entry was seen is read off a slot that is kept from the entry
          intro slot hslot
          refine .inl ((Expr.composable_spares slot).slot c.span ?_)
          rintro rfl
          cases hslot

/-- No clause of an expansion reads the flag or a condition before it has been set, with
    nothing taken to be set at the start. -/
theorem renewed_expand (hc : c.Unreserved) (h : (s.expand c).result = .ok out) :
    Renewed c.probes c.span (fun _ => False) out := by
  obtain ⟨needs, callers, hneeds, hcallers, rfl⟩ := of_expand_ok h
  obtain ⟨-, -, -, hflow⟩ := Clause.of_resolve_needs hneeds
  rw [← Clause.any_isStructured_resolve c c.allReturn s.ids] at hflow
  have hassembled : Renewed c.probes c.span (fun _ => False)
      (assembled (c.resolve c.allReturn s.ids).clause needs callers) :=
    renewed_assembled (hc.sparesRenewed_resolve c.allReturn s.ids) hcallers hflow
  have hhandler : Renewed c.probes c.span (fun _ => False)
      [.errorHandler s.errorProbe c.span] :=
    Clause.renewed_singleton fun slot _ => Clause.not_reads_flag _ 1 _ slot
  unfold withHandler
  split
  · exact hhandler.append hassembled
  · exact hassembled

/-- No clause of an expansion reads a condition before it has been worked out there: an
    earlier one at the same probes does nothing else, and does it unless something has
    failed.  And whatever reads a condition or the error flag comes after the clause that
    takes the flag down. -/
theorem reads_after_set (hc : c.Unreserved) (h : (s.expand c).result = .ok out)
    (hout : out = before ++ k :: after) :
    (∀ id, k.Reads (.condition id) → ∃ d ∈ before, d.probes = k.probes ∧ d.WorksOut id) ∧
      (k.Reads .error ∨ (∃ id, k.Reads (.condition id)) →
        .clearError c.probes c.span ∈ before) := by
  have hrenewed := renewed_expand hc h
  have hcondition : ∀ id, k.Reads (.condition id) →
      ∃ d ∈ before, d.probes = k.probes ∧ d.WorksOut id := by
    intro id hreads
    obtain ⟨hprobes, hlive | ⟨d, hd, hset⟩⟩ := hrenewed before k after hout _ rfl hreads
    · exact hlive.elim
    · cases hset with
      | condition hd' hworks => exact ⟨d, hd, hd'.trans hprobes.symm, hworks⟩
  have hflag : ∀ before k after, out = before ++ k :: after → k.Reads .error →
      .clearError c.probes c.span ∈ before := by
    intro before k after hout hreads
    obtain ⟨-, hlive | ⟨d, hd, hset⟩⟩ := hrenewed before k after hout _ rfl hreads
    · exact hlive.elim
    · cases hset with
      | flag => exact hd
  refine ⟨hcondition, ?_⟩
  rintro (hreads | ⟨id, hreads⟩)
  · exact hflag before k after hout hreads
  · -- the clause that works the condition out tests the flag itself
    obtain ⟨d, hd, -, ⟨s', hguard⟩, -⟩ := hcondition id hreads
    obtain ⟨front, back, rfl⟩ := List.append_of_mem hd
    have hreads' : d.Reads .error := by
      refine .inl ⟨Guard.noError s', hguard, ?_⟩
      rw [Guard.noError, Expr.not, Expr.reservedNames_unary, Guard.errorFlag,
        Slot.reservedNames_expr]
      exact List.mem_cons_self
    refine List.mem_append_left _ (hflag front d (back ++ k :: after) ?_ hreads')
    rw [hout, List.append_assoc, List.cons_append]

/-- The copies of the loop read the seventh condition.  The fifth is never worked out:
    its test is in a loop that does not run. -/
theorem reads_after_set_nested :
    let s : Session := ⟨.experimentalOn, ⟨"dtrace", "", "", "ERROR"⟩, .fresh, false⟩
    let name (text : String) : Expr := .ident text .nowhere
    let entry (field : String) : Expr := .binary .ptr (name "entry") (name field) .nowhere
    let trace (e : Expr) : Stmt := .expr (.call "trace" [e] .nowhere)
    let never : Stmt :=
      .loop (name "ready") 0 [.branch (name "odd") [trace (name "pid")] [] .nowhere] .nowhere
    let twice : Stmt := .loop (name "ready") 2 [trace (entry "elapsed_us")] .nowhere
    let c : Clause :=
      ⟨[⟨"syscall", "", "read", "return"⟩], some (entry "args0"),
        [.branch (name "ready") [never] [twice] .nowhere], .nowhere⟩
    ∃ out before k after, (s.expand c).result = .ok out ∧ out = before ++ k :: after ∧
      k.Reads (.condition (.after 6)) ∧
      (∃ d ∈ before, d.probes = k.probes ∧ d.WorksOut (.after 6)) ∧
      .clearError c.probes c.span ∈ before := by
  intro s name entry trace never twice c
  have hany : (s.expand c).result.toOption.map
      (fun out => out.any fun k => k.Reads (.condition (.after 6))) = some true := by
    decide +kernel
  cases hout : (s.expand c).result with
  | error e =>
      rw [hout] at hany
      cases hany
  | ok out =>
      rw [hout] at hany
      obtain ⟨k, hk, hreads⟩ := List.any_eq_true.mp (Option.some.inj hany)
      have hreads : k.Reads (.condition (.after 6)) := of_decide_eq_true hreads
      obtain ⟨before, after, heq⟩ := List.append_of_mem hk
      obtain ⟨hset, hclear⟩ := reads_after_set (by decide +kernel) hout heq
      exact ⟨out, before, k, after, rfl, heq, hreads, hset _ hreads, hclear (.inr ⟨_, hreads⟩)⟩

end Session

end ProbeLang
