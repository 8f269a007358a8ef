import ProbeLang.Proofs.Emission
import ProbeLang.Proofs.Forms
import ProbeLang.Session

/-! # What one expansion leads to

    An expansion hands out numbers in any case, and if it succeeds it leads to the
    clauses of a body with others around them (`Session.expand_ok`,
    `Session.of_expand_ok`).

    A body is the clause itself, or its statements split up with the predicate as a
    condition around them (`Clause.split`); of the conditions, the first one is taken
    already if something is captured.  What is true of the expressions of the source
    and of all that expansion puts together is true of every expression that comes
    out (`Session.madeOf_of_mem_expand`). -/

namespace ProbeLang

/-! ## Bodies -/

/-- The statements of a clause split up, with `n` conditions used up before; its
    predicate becomes a condition around them. -/
def Clause.split (c : Clause) (around : Option ConditionId) (n : Nat) : Emitted :=
  match c.predicate with
  | none => Emitted.ofStmts c.probes c.actions [] around n
  | some p =>
      let a := Emitted.ofStmts c.probes c.actions [] (some (.after n)) (n + 1)
      ⟨Clause.setCondition c.probes around (.after n) p p.span :: a.clauses, a.allocated,
        a.events⟩

/-- What the clauses of a split clause are made of. -/
theorem Clause.piece_split (c : Clause) (around : Option ConditionId) (n : Nat) :
    ∀ k ∈ (c.split around n).clauses,
      Emitted.Piece c.probes (· ∈ c.exprs) n (around = none ∧ n = 0) k := by
  intro k hk
  have hacts : ∀ e ∈ Stmt.exprsOf c.actions, e ∈ c.exprs := fun e he =>
    List.mem_append_right _ he
  unfold split at hk
  split at hk
  · exact (Emitted.piece_ofStmts c.actions [] around n (List.forall_mem_nil _) k hk).mono hacts
      (Nat.le_refl n) id
  · rename_i p hp
    rcases List.mem_cons.mp hk with rfl | hk
    · refine .test around p.span (Nat.lt_succ_self n) (.own ?_)
      rw [exprs, hp]
      exact List.mem_append_left _ List.mem_cons_self
    · exact (Emitted.piece_ofStmts c.actions [] (some (.after n)) (n + 1)
        (List.forall_mem_nil _) k hk).mono hacts (Nat.le_succ n)
        (fun h => absurd h.1 (Option.some_ne_none _))

/-- Splitting a clause only adds conditions. -/
theorem Clause.le_allocated_split (c : Clause) (around : Option ConditionId) (n : Nat) :
    n ≤ (c.split around n).allocated := by
  cases hp : c.predicate with
  | none =>
      simp only [split, hp]
      exact Emitted.le_allocated_ofStmts c.probes c.actions [] around n
  | some p =>
      simp only [split, hp]
      exact Nat.le_of_succ_le
        (Emitted.le_allocated_ofStmts c.probes c.actions [] (some (.after n)) (n + 1))

/-- A clause with a predicate, a branch or a loop uses up a condition. -/
theorem Clause.lt_allocated_split {c : Clause}
    (h : c.predicate = none → c.stmts.any Stmt.isStructured = true)
    (around : Option ConditionId) (n : Nat) : n < (c.split around n).allocated := by
  cases hp : c.predicate with
  | none =>
      simp only [split, hp]
      exact Emitted.lt_allocated_ofStmts c.probes (h hp) [] around n
  | some p =>
      simp only [split, hp]
      exact Emitted.le_allocated_ofStmts c.probes c.actions [] (some (.after n)) (n + 1)

/-- A clause with a branch or a loop turns into some clause. -/
theorem Clause.clauses_split_ne_nil {c : Clause} (h : c.stmts.any Stmt.isStructured = true)
    (around : Option ConditionId) (n : Nat) : (c.split around n).clauses ≠ [] := by
  cases hp : c.predicate with
  | none =>
      simp only [split, hp]
      exact Emitted.clauses_ofStmts_ne_nil c.probes h [] around n
  | some p =>
      simp only [split, hp]
      exact List.cons_ne_nil _ _

namespace Needs

/-- The condition around a body: whether the entry was seen, if it is captured. -/
def around (needs : Needs) : Option ConditionId :=
  if needs.needsCapture then some .first else none

/-- How many conditions are used up before a body. -/
def before (needs : Needs) : Nat := if needs.needsCapture then 1 else 0

end Needs

namespace Body

variable {c : Clause} {needs : Needs}

theorem ofClause_of_isFast (h : isFast needs = true) : ofClause c needs = ⟨[c], 0, []⟩ :=
  if_pos h

/-- A body that is not fast is split, under the condition and after the number that the
    capture sets. -/
theorem ofClause_eq_split (h : isFast needs = false) :
    ofClause c needs =
      ⟨(c.split needs.around needs.before).clauses,
        (c.split needs.around needs.before).allocated,
        (c.split needs.around needs.before).events⟩ := by
  unfold ofClause Clause.split Needs.around Needs.before
  rw [if_neg (by rw [h]; exact Bool.false_ne_true)]
  cases needs.needsCapture <;> cases c.predicate <;> rfl

end Body

/-! ## Expansions -/

namespace Session

variable {s : Session} {c : Clause} {needs : Needs} {callers : CallersClauses}
  {out : List Clause}

/-- The clauses of an expansion before the error handler is put there. -/
def assembled (c : Clause) (needs : Needs) (callers : CallersClauses) : List Clause :=
  surround c needs.capture callers (Body.ofClause c needs)

/-- An expansion whose counters all have targets that can be read succeeds. -/
theorem expand_ok (hneeds : (c.resolve c.allReturn s.ids).needs = .ok needs)
    (hcallers : CallersClauses.ofCounters needs.counters = .ok callers) :
    (s.expand c).result =
        .ok (s.withHandler (assembled (c.resolve c.allReturn s.ids).clause needs callers) c.span) ∧
      (s.expand c).session =
        { s with
          ids := (c.resolution c.allReturn s.ids).ids
          handlerEmitted := s.handlerEmitted ||
            s.needsHandler (assembled (c.resolve c.allReturn s.ids).clause needs callers) } := by
  unfold expand
  simp only [hneeds, hcallers]
  exact ⟨rfl, rfl⟩

/-- An expansion fails if something in the clause could not be read. -/
theorem expand_of_needs_error {e : ExpansionError}
    (h : (c.resolve c.allReturn s.ids).needs = .error e) : (s.expand c).result = .error e := by
  unfold expand
  simp only [h]

/-- It fails as well if a target of a counter is no probe description. -/
theorem expand_of_callers_error {e : ExpansionError}
    (hneeds : (c.resolve c.allReturn s.ids).needs = .ok needs)
    (h : CallersClauses.ofCounters needs.counters = .error e) : (s.expand c).result = .error e := by
  unfold expand
  simp only [hneeds, h]

/-- An expansion that succeeds does so in one way. -/
theorem of_expand_ok (h : (s.expand c).result = .ok out) :
    ∃ needs callers, (c.resolve c.allReturn s.ids).needs = .ok needs ∧
      CallersClauses.ofCounters needs.counters = .ok callers ∧
      out = s.withHandler (assembled (c.resolve c.allReturn s.ids).clause needs callers)
        c.span := by
  cases hneeds : (c.resolve c.allReturn s.ids).needs with
  | error e =>
      rw [expand_of_needs_error hneeds] at h
      cases h
  | ok needs =>
      cases hcallers : CallersClauses.ofCounters needs.counters with
      | error e =>
          rw [expand_of_callers_error hneeds hcallers] at h
          cases h
      | ok callers =>
          rw [(expand_ok hneeds hcallers).1] at h
          exact ⟨needs, callers, rfl, hcallers, (Except.ok.inj h).symm⟩

/-- The numbers that an expansion hands out stay handed out, whether it succeeds or not. -/
theorem expand_ids (s : Session) (c : Clause) :
    (s.expand c).session.ids = (c.resolution c.allReturn s.ids).ids := by
  unfold expand
  dsimp only
  split
  · rfl
  · split <;> rfl

/-- A list that is expanded to its end begins with its first clause, and goes on from
    where that leaves the session. -/
theorem of_expandAll_cons_ok {cs : List Clause} (h : (s.expandAll (c :: cs)).result = .ok out) :
    ∃ part rest, (s.expand c).result = .ok part ∧
      ((s.expand c).session.expandAll cs).result = .ok rest ∧ out = part ++ rest ∧
      (s.expandAll (c :: cs)).session = ((s.expand c).session.expandAll cs).session := by
  cases hfirst : (s.expand c).result with
  | error e =>
      simp only [expandAll, hfirst] at h
      cases h
  | ok part =>
      cases hrest : ((s.expand c).session.expandAll cs).result with
      | error e =>
          simp only [expandAll, hfirst, hrest] at h
          cases h
      | ok rest =>
          simp only [expandAll, hfirst, hrest] at h ⊢
          exact ⟨part, rest, rfl, rfl, (Except.ok.inj h).symm, trivial⟩

/-- What comes out of a list of clauses comes out of one of them. -/
theorem mem_expandAll {cs : List Clause} {k : Clause} (h : (s.expandAll cs).result = .ok out)
    (hk : k ∈ out) :
    ∃ (t : Session) (c : Clause) (part : List Clause), c ∈ cs ∧
      (t.expand c).result = .ok part ∧ k ∈ part := by
  induction cs generalizing s out with
  | nil =>
      obtain rfl : [] = out := Except.ok.inj h
      cases hk
  | cons c cs ih =>
      obtain ⟨part, rest, hpart, hrest, rfl, -⟩ := of_expandAll_cons_ok h
      rcases List.mem_append.mp hk with hk | hk
      · exact ⟨s, c, part, List.mem_cons_self, hpart, hk⟩
      · obtain ⟨t, c', part', hc', hout, hk⟩ := ih hrest hk
        exact ⟨t, c', part', List.mem_cons_of_mem c hc', hout, hk⟩

/-- With the features on, a program is expanded clause by clause. -/
theorem of_compile_ok {p q : Program} (hs : s.config.experimental = true)
    (h : (s.compile p).result = .ok q) :
    (s.expandAll p.clauses).result = .ok q.clauses ∧
      (s.compile p).session = (s.expandAll p.clauses).session := by
  cases hall : (s.expandAll p.clauses).result with
  | error e =>
      simp only [compile, hs, hall, if_true] at h
      cases h
  | ok out =>
      simp only [compile, hs, hall, if_true] at h ⊢
      obtain rfl := Except.ok.inj h
      exact ⟨rfl, trivial⟩

/-- With the features off, a program that is accepted stays as it is. -/
theorem of_compile_ok_off {p q : Program} (hs : s.config.experimental = false)
    (h : (s.compile p).result = .ok q) : q = p ∧ (s.compile p).session = s := by
  cases hfirst : firstStructured? p with
  | some stmt =>
      simp only [compile, hs, hfirst, Bool.false_eq_true, if_false] at h
      cases h
  | none =>
      simp only [compile, hs, hfirst, Bool.false_eq_true, if_false] at h ⊢
      exact ⟨(Except.ok.inj h).symm, trivial⟩

end Session

/-! ## The clauses that come out -/

/-- A clause that a clause with the given needs turns into. -/
inductive Clause.Product (c : Clause) (needs : Needs) : Clause → Prop where
  | increment {counter : Counter} (probes : List Probe) :
      counter ∈ needs.counters → Product c needs (counter.increment probes)
  | decrement {counter : Counter} (probes : List Probe) :
      counter ∈ needs.counters → Product c needs (counter.decrement probes)
  | capture {a : Capture} :
      needs.capture = some a → Product c needs (a.captureClause c.probes c.span)
  | priming {a : Capture} :
      needs.capture = some a → Product c needs (a.primingClause c.probes c.span)
  | release {a : Capture} :
      needs.capture = some a → Product c needs (a.releaseClause c.probes c.span)
  | clear : Product c needs (.clearError c.probes c.span)
  | piece {k : Clause} :
      Emitted.Piece c.probes (· ∈ c.exprs) needs.before
        (needs.around = none ∧ needs.before = 0) k → Product c needs k
  | whole : Body.isFast needs = true → Product c needs c

/-- A computation in two steps that goes well goes well in both. -/
theorem of_bind_ok {α β : Type} {x : Except ExpansionError α}
    {f : α → Except ExpansionError β} {b : β} (h : x >>= f = .ok b) :
    ∃ a, x = .ok a ∧ f a = .ok b := by
  cases x with
  | error e => cases h
  | ok a => exact ⟨a, rfl, h⟩

/-- What can be seen of each result, as soon as all goes well along a list. -/
theorem map_of_mapM_ok {α β γ : Type} {f : α → Except ExpansionError β} {view : β → γ} {g : α → γ}
    (hf : ∀ x y, f x = .ok y → view y = g x) {xs : List α} {ys : List β}
    (h : xs.mapM f = .ok ys) : ys.map view = xs.map g := by
  induction xs generalizing ys with
  | nil =>
      obtain rfl : [] = ys := Except.ok.inj h
      rfl
  | cons x xs ih =>
      rw [List.mapM_cons] at h
      obtain ⟨y, hy, h⟩ := of_bind_ok h
      obtain ⟨rest, hrest, h⟩ := of_bind_ok h
      obtain rfl : y :: rest = ys := Except.ok.inj h
      rw [List.map_cons, List.map_cons, hf x y hy, ih hrest]

/-- If all goes well along a list, it goes well at each of its elements. -/
theorem of_mapM_ok {α β : Type} {f : α → Except ExpansionError β} {xs : List α} {ys : List β}
    (h : xs.mapM f = .ok ys) : xs.map f = ys.map .ok :=
  (map_of_mapM_ok (fun _ _ hx => hx.symm) h).symm

/-- A list of computations that all go well gives all their results. -/
theorem mapM_ok_of_map {α β : Type} {f : α → Except ExpansionError β} {xs : List α} {ys : List β}
    (h : xs.map f = ys.map .ok) : xs.mapM f = .ok ys := by
  induction xs generalizing ys with
  | nil =>
      obtain rfl := List.map_eq_nil_iff.mp h.symm
      rfl
  | cons x xs ih =>
      obtain ⟨y, rest, rfl, hy, hrest⟩ := List.map_eq_cons_iff.mp h.symm
      rw [List.mapM_cons, ← hy, ih hrest.symm]
      rfl

/-- The clauses of a counter, from the probes at which it goes up and down. -/
theorem Counter.of_clauses_ok {c : Counter} {pair : Clause × Clause} (h : c.clauses = .ok pair) :
    ∃ entries returns, c.targetProbes "entry" = .ok entries ∧
      c.targetProbes "return" = .ok returns ∧
      pair = (c.increment entries, c.decrement returns) := by
  obtain ⟨entries, hentries, h⟩ := of_bind_ok h
  obtain ⟨returns, hreturns, h⟩ := of_bind_ok h
  exact ⟨entries, returns, hentries, hreturns, (Except.ok.inj h).symm⟩

/-- Each clause that keeps a counter belongs to one of the counters. -/
theorem CallersClauses.mem_ofCounters {counters : List Counter} {callers : CallersClauses}
    (h : ofCounters counters = .ok callers) :
    (∀ k ∈ callers.increments, ∃ counter ∈ counters, ∃ probes, k = counter.increment probes) ∧
      (∀ k ∈ callers.decrements, ∃ counter ∈ counters, ∃ probes, k = counter.decrement probes) := by
  obtain ⟨pairs, hpairs, h⟩ := of_bind_ok h
  obtain rfl := Except.ok.inj h
  have hmem : ∀ pair ∈ pairs, ∃ counter ∈ counters, ∃ entries returns,
      pair = (counter.increment entries, counter.decrement returns) := by
    intro pair hpair
    have hok : Except.ok pair ∈ counters.map Counter.clauses :=
      of_mapM_ok hpairs ▸ List.mem_map_of_mem hpair
    obtain ⟨counter, hcounter, hclauses⟩ := List.mem_map.mp hok
    obtain ⟨entries, returns, -, -, heq⟩ := Counter.of_clauses_ok hclauses
    exact ⟨counter, hcounter, entries, returns, heq⟩
  constructor <;> intro k hk <;> obtain ⟨pair, hpair, rfl⟩ := List.mem_map.mp hk <;>
    obtain ⟨counter, hcounter, entries, returns, rfl⟩ := hmem pair hpair
  · exact ⟨counter, hcounter, entries, rfl⟩
  · exact ⟨counter, hcounter, returns, rfl⟩

/-- A counter going up speaks of the counter only. -/
theorem Counter.reservedNames_increment (counter : Counter) (probes : List Probe) :
    (counter.increment probes).reservedNames = [(Slot.callers counter.id).name] := by
  simp [Clause.reservedNames, Clause.exprs, Clause.stmts, increment, slot, Stmt.nodes, Stmt.ownExpr]

/-- Going down it speaks of it twice, as it is tested first. -/
theorem Counter.reservedNames_decrement (counter : Counter) (probes : List Probe) :
    (counter.decrement probes).reservedNames =
      [(Slot.callers counter.id).name, (Slot.callers counter.id).name] := by
  simp [Clause.reservedNames, Clause.exprs, Clause.stmts, decrement, slot, Stmt.nodes, Stmt.ownExpr]

theorem Clause.reservedNames_errorHandler (probe : Probe) (s : Span) :
    (errorHandler probe s).reservedNames = [Slot.error.name] := by
  simp [reservedNames, exprs, stmts, errorHandler, Guard.errorFlag, Expr.assign, Stmt.nodes,
    Stmt.ownExpr]

theorem Clause.reservedNames_clearError (probes : List Probe) (s : Span) :
    (clearError probes s).reservedNames = [Slot.error.name] := by
  simp [reservedNames, exprs, stmts, clearError, Guard.errorFlag, Expr.assign, Stmt.nodes,
    Stmt.ownExpr]

/-- Every clause of an expansion is one of the kinds of `Clause.Product`; what holds of
    all of these holds of an expansion. -/
theorem Session.mem_assembled {c k : Clause} {needs : Needs} {callers : CallersClauses}
    (hcallers : CallersClauses.ofCounters needs.counters = .ok callers)
    (hk : k ∈ Session.assembled c needs callers) : c.Product needs k := by
  obtain ⟨hinc, hdec⟩ := CallersClauses.mem_ofCounters hcallers
  have hcap : ∀ f : Capture → Clause, k ∈ (needs.capture.map f).toList →
      ∃ a, needs.capture = some a ∧ f a = k := by
    intro f h
    exact Option.map_eq_some_iff.mp (Option.mem_toList.mp h)
  unfold Session.assembled Session.surround at hk
  simp only [List.mem_append] at hk
  rcases hk with (((((hk | hk) | hk) | hk) | hk) | hk) | hk
  · obtain ⟨counter, hcounter, probes, rfl⟩ := hinc k hk
    exact .increment probes hcounter
  · obtain ⟨a, ha, rfl⟩ := hcap _ hk
    exact .capture ha
  · split at hk
    · rw [List.mem_singleton.mp hk]
      exact .clear
    · cases hk
  · obtain ⟨a, ha, rfl⟩ := hcap _ hk
    exact .priming ha
  · cases hfast : Body.isFast needs with
    | true =>
        rw [Body.ofClause_of_isFast hfast] at hk
        rw [List.mem_singleton.mp hk]
        exact .whole hfast
    | false =>
        rw [Body.ofClause_eq_split hfast] at hk
        exact .piece (c.piece_split needs.around needs.before k hk)
  · obtain ⟨a, ha, rfl⟩ := hcap _ hk
    exact .release ha
  · obtain ⟨counter, hcounter, probes, rfl⟩ := hdec k hk
    exact .decrement probes hcounter

/-! ## What the clauses are made of -/

/-- A property that an expression has if it is put together from expressions with the
    property in one of the ways in which expansion does it; among the slots, those
    that are `ok` have it. -/
structure Expr.Composable (P : Expr → Prop) (ok : Slot → Prop) : Prop where
  slot : ∀ {slot : Slot} (s : Span), ok slot → P (slot.expr s)
  int : ∀ (n : UInt64) (s : Span), P (.int n s)
  captured : ∀ {f : EntryField} {s : Span} {e : Expr}, f.captured? s = some e → P e
  unary : ∀ {op : UnaryOp} {a : Expr} (s : Span), P a → P (.unary op a s)
  binary : ∀ {op : BinaryOp} {a b : Expr} (s : Span), op ≠ .ptr → P a → P b → P (.binary op a b s)

namespace Clause

/-- A clause without branches and loops in which each expression has a property. -/
structure MadeOf (P : Expr → Prop) (c : Clause) : Prop where
  predicate : ∀ p, c.predicate = some p → P p
  actions : ∀ stmt ∈ c.actions, ∃ e, P e ∧ stmt = .expr e

variable {P : Expr → Prop} {ok : Slot → Prop} {c k : Clause} {needs : Needs}

/-- A clause made of such expressions has flat statements with such expressions. -/
theorem MadeOf.stmts (h : c.MadeOf P) : ∀ stmt ∈ c.stmts, ∃ e, P e ∧ stmt = .expr e := by
  intro stmt hstmt
  rw [Clause.stmts, Stmt.nodesList_eq_flatMap] at hstmt
  obtain ⟨top, htop, hstmt⟩ := List.mem_flatMap.mp hstmt
  obtain ⟨e, he, rfl⟩ := h.actions top htop
  exact ⟨e, he, List.mem_singleton.mp hstmt⟩

theorem MadeOf.flat (h : c.MadeOf P) : ∀ stmt ∈ c.stmts, stmt.isStructured = false := by
  intro stmt hstmt
  obtain ⟨e, -, rfl⟩ := h.stmts stmt hstmt
  rfl

theorem MadeOf.exprs (h : c.MadeOf P) : ∀ e ∈ c.exprs, P e := by
  intro e he
  rcases List.mem_append.mp he with he | he
  · exact h.predicate e (Option.mem_toList.mp he)
  · obtain ⟨stmt, hstmt, rfl⟩ := List.mem_map.mp he
    obtain ⟨e, hpe, rfl⟩ := h.stmts stmt hstmt
    exact hpe

/-- A flat clause of the source is made of what its expressions are. -/
theorem madeOf_of_flat (hflat : c.stmts.any Stmt.isStructured = false)
    (hc : ∀ e ∈ c.exprs, P e) : c.MadeOf P := by
  refine ⟨fun p hp => hc p ?_, fun stmt hstmt => ?_⟩
  · rw [exprs, hp]
    exact List.mem_append_left _ List.mem_cons_self
  · have hnode : stmt ∈ c.stmts := by
      rw [Clause.stmts, Stmt.nodesList_eq_flatMap]
      exact List.mem_flatMap.mpr ⟨stmt, hstmt, stmt.self_mem_nodes⟩
    cases stmt with
    | expr e => exact ⟨e, hc e (List.mem_append_right _ (List.mem_map.mpr ⟨_, hnode, rfl⟩)), rfl⟩
    | _ => exact absurd rfl (List.any_eq_false.mp hflat _ hnode)

section

variable (hP : Expr.Composable P ok)

include hP

private theorem composable_assign {slot : Slot} {e : Expr} (hslot : ok slot) (he : P e) (s : Span) :
    P ((slot.expr s).assign e s) :=
  hP.binary s (by decide) (hP.slot s hslot) he

theorem madeOf_errorHandler (herror : ok .error) (probe : Probe) (s : Span) :
    (errorHandler probe s).MadeOf P :=
  ⟨fun _ h => (nomatch h), fun _ h =>
    ⟨_, composable_assign hP herror (hP.int 1 s) s, List.mem_singleton.mp h⟩⟩

/-- A clause that works out a condition is made of what its test is, of the flag and of
    conditions. -/
theorem madeOf_setCondition (herror : ok .error) (hcond : ∀ id, ok (.condition id))
    {probes : List Probe} {value : Expr} (around : Option ConditionId) (id : ConditionId) (s : Span)
    (h : P value) : (setCondition probes around id value s).MadeOf P := by
  refine ⟨?_, ?_⟩
  · intro p hp
    obtain rfl := Option.some.inj hp
    exact hP.unary s (hP.slot s herror)
  · intro stmt hstmt
    refine ⟨_, composable_assign hP (hcond id) (hP.binary s (by decide) ?_ h) s,
      List.mem_singleton.mp hstmt⟩
    cases around with
    | none => exact hP.int 1 s
    | some outer => exact hP.slot s (hcond outer)

/-- A block is made of what its statements are, of the flag and of conditions. -/
theorem madeOf_block (herror : ok .error) (hcond : ∀ id, ok (.condition id))
    {probes : List Probe} {stmts : List Stmt} (around : Option ConditionId) (anyBefore : Bool)
    (s : Span) (h : ∀ stmt ∈ stmts, ∃ e, P e ∧ stmt = .expr e) :
    (block probes around anyBefore stmts s).MadeOf P := by
  refine ⟨?_, h⟩
  intro p hp
  have hnoError : P (Guard.noError s) := hP.unary s (hP.slot s herror)
  cases around with
  | some id =>
      obtain rfl := Option.some.inj hp
      exact hP.binary s (by decide) hnoError (hP.slot s (hcond id))
  | none =>
      cases anyBefore with
      | false => cases hp
      | true =>
          obtain rfl := Option.some.inj hp
          exact hnoError

/-- Each clause that comes out is made of what the clause at its probes is made of. -/
theorem Product.madeOf (herror : ok .error) (hcond : ∀ id, ok (.condition id))
    (hentry : ∀ a, needs.capture = some a → ∀ f, f ∈ a.fields ∨ f = .timestamp →
      ok (.entry f a.group))
    (hcallers : ∀ counter ∈ needs.counters, ok (.callers counter.id))
    (hflow : needs.hasControlFlow = c.stmts.any Stmt.isStructured)
    (hc : k.probes = c.probes → ∀ e ∈ c.exprs, P e) (h : c.Product needs k) : k.MadeOf P := by
  cases h with
  | increment probes hmem =>
      exact ⟨fun _ h => (nomatch h), fun _ h =>
        ⟨_, hP.unary _ (hP.slot _ (hcallers _ hmem)), List.mem_singleton.mp h⟩⟩
  | decrement probes hmem =>
      have hslot := fun s => hP.slot s (hcallers _ hmem)
      refine ⟨fun p hp => ?_, fun _ h => ⟨_, hP.unary _ (hslot _), List.mem_singleton.mp h⟩⟩
      obtain rfl := Option.some.inj hp
      exact hslot _
  | capture ha =>
      refine ⟨fun _ h => (nomatch h), fun stmt hstmt => ?_⟩
      obtain ⟨f, hf, hstmt⟩ := List.mem_filterMap.mp hstmt
      obtain ⟨value, hvalue, rfl⟩ := Option.map_eq_some_iff.mp hstmt
      exact ⟨_, composable_assign hP (hentry _ ha f (.inl hf)) (hP.captured hvalue) _, rfl⟩
  | priming ha =>
      exact madeOf_setCondition hP herror hcond none _ _ (hP.slot _ (hentry _ ha _ (.inr rfl)))
  | release ha =>
      refine ⟨fun _ h => (nomatch h), fun stmt hstmt => ?_⟩
      obtain ⟨f, hf, rfl⟩ := List.mem_map.mp hstmt
      have hmem := (List.mem_filter.mp hf).1
      exact ⟨_, composable_assign hP (hentry _ ha f (.inl hmem)) (hP.int 0 _) _, rfl⟩
  | clear =>
      exact ⟨fun _ h => (nomatch h), fun _ h =>
        ⟨_, composable_assign hP herror (hP.int 0 _) _, List.mem_singleton.mp h⟩⟩
  | piece hk =>
      cases hk with
      | test around s hid hv =>
          refine madeOf_setCondition hP herror hcond around _ s ?_
          cases hv with
          | own he => exact hc rfl _ he
          | one s => exact hP.int 1 s
          | other id s => exact hP.unary s (hP.slot s (hcond id))
      | block around anyBefore s hstmts hguard =>
          refine madeOf_block hP herror hcond around anyBefore s fun stmt hstmt => ?_
          obtain ⟨e, he, rfl⟩ := hstmts stmt hstmt
          exact ⟨e, hc rfl e he, rfl⟩
  | whole hfast =>
      refine madeOf_of_flat ?_ (hc rfl)
      rw [← hflow]
      simp only [Body.isFast, Bool.and_eq_true, Bool.not_eq_true'] at hfast
      exact hfast.1

end

end Clause

/-- Each clause that comes out of an expansion is made of what the source is made of
    after resolution, and of slots that it has provided for. -/
theorem Session.madeOf_of_mem_expand {P : Expr → Prop} {ok : Slot → Prop} {s : Session}
    {c k : Clause} {out : List Clause} (hP : Expr.Composable P ok) (herror : ok .error)
    (hcond : ∀ id, ok (.condition id))
    (hprovides : ∀ slot, (c.resolution c.allReturn s.ids).Provides slot → ok slot)
    (h : (s.expand c).result = .ok out) (hk : k ∈ out)
    (hc : k.probes = c.probes → ∀ e ∈ (c.resolve c.allReturn s.ids).clause.exprs, P e) :
    k.MadeOf P := by
  obtain ⟨needs, callers, hneeds, hcallers, rfl⟩ := of_expand_ok h
  obtain ⟨-, hcap, hcnt, hflow⟩ := Clause.of_resolve_needs hneeds
  have hassembled : k ∈ assembled (c.resolve c.allReturn s.ids).clause needs callers →
      k.MadeOf P := by
    intro hk
    refine (mem_assembled hcallers hk).madeOf hP herror hcond ?_ ?_ ?_ hc
    · intro a ha f hf
      rw [hcap] at ha
      refine hprovides _ ⟨a, ha, rfl, ?_⟩
      rcases hf with hf | rfl
      · exact hf
      · exact (Clause.wellFormed_resolution ha).marker
    · intro counter hcounter
      rw [hcnt] at hcounter
      exact hprovides _ (List.mem_map.mpr ⟨counter, hcounter, rfl⟩)
    · rw [hflow, Clause.any_isStructured_resolve]
  unfold withHandler at hk
  split at hk
  · rcases List.mem_cons.mp hk with rfl | hk
    · exact Clause.madeOf_errorHandler hP herror _ _
    · exact hassembled hk
  · exact hassembled hk

/-! ## Clauses without forms -/

/-- What becomes of a clause that asks for nothing but branches and loops. -/
def Clause.flattened (c : Clause) : List Clause :=
  if c.stmts.any Stmt.isStructured then
    Clause.clearError c.probes c.span :: (c.split none 0).clauses
  else [c]

namespace Session

variable {c : Clause} {needs : Needs}

/-- With no capture and no counter, an expansion is the clause taken apart, and nothing
    else. -/
theorem assembled_eq_flattened (hcap : needs.capture = none)
    (hflow : needs.hasControlFlow = c.stmts.any Stmt.isStructured) :
    assembled c needs ⟨[], []⟩ = c.flattened := by
  have hneeds : needs.needsCapture = false := by rw [Needs.needsCapture, hcap]; rfl
  have hfast : Body.isFast needs = !(c.stmts.any Stmt.isStructured) := by
    rw [Body.isFast, hflow, hneeds, Bool.not_false, Bool.and_true]
  unfold assembled surround Clause.flattened
  rw [hcap]
  cases hflat : c.stmts.any Stmt.isStructured with
  | false =>
      rw [hflat] at hfast
      rw [Body.ofClause_of_isFast hfast]
      rfl
  | true =>
      rw [hflat] at hfast
      have hpos := Clause.lt_allocated_split (fun _ => hflat) needs.around needs.before
      rw [Body.ofClause_eq_split hfast, if_pos (Nat.lt_of_le_of_lt (Nat.zero_le _) hpos),
        if_pos rfl, Needs.around, Needs.before, hneeds]
      simp

/-- A clause in which there is nothing to resolve is expanded without handing out a
    number. -/
theorem expand_of_isPlain (h : ∀ x ∈ c.exprNodes, x.isPlain c.allReturn = true) (s : Session) :
    (s.expand c).result = .ok (s.withHandler c.flattened c.span) ∧
      (s.expand c).session =
        { s with handlerEmitted := s.handlerEmitted || s.needsHandler c.flattened } := by
  obtain ⟨hclause, hres⟩ := Clause.resolve_eq_self h s.ids
  obtain ⟨needs, hneeds⟩ := Clause.resolve_needs (c := c) (by rw [hres]; rfl)
  obtain ⟨-, hcap, hcnt, hflow⟩ := Clause.of_resolve_needs hneeds
  rw [hres] at hcap hcnt
  have hcallers : CallersClauses.ofCounters needs.counters = .ok ⟨[], []⟩ := by
    rw [hcnt]
    rfl
  obtain ⟨hout, hsess⟩ := expand_ok hneeds hcallers
  rw [hclause, assembled_eq_flattened hcap hflow] at hout hsess
  rw [hres] at hsess
  exact ⟨hout, hsess⟩

end Session

end ProbeLang
