import ProbeLang.Proofs.Failure
import ProbeLang.Proofs.Handler

/-! # The handler comes out once

    A caller that expands clauses one by one gets to see all that a session emits: an
    expansion that fails has not emitted anything, so nothing is lost with it.  What
    comes out of one expansion goes with the flag of the session (`Emits`): before the
    flag is up there is one clause at most, the first expansion with more of them puts
    the handler before them, and from then on there is none.

    Along a run of expansions the flag is up as soon as one of them had more than one
    clause, and the handlers that have come out are as many as the flag has gone up,
    that is one at most (`Session.handler_emitted_once`). -/

namespace ProbeLang

namespace Step

/-- The clauses that an expansion returns; one that fails returns none. -/
def returned (a : Step (List Clause)) : List Clause :=
  match a.result with
  | .ok out => out
  | .error _ => []

/-- The expansion succeeds with more than one clause. -/
def IsSplit (a : Step (List Clause)) : Prop := 1 < a.returned.length

instance (a : Step (List Clause)) : Decidable a.IsSplit := inferInstanceAs (Decidable (_ < _))

/-- What has gone well is returned. -/
theorem returned_of_ok {a : Step (List Clause)} {out : List Clause} (h : a.result = .ok out) :
    a.returned = out := by
  simp only [returned, h]

/-- What has failed returns nothing. -/
theorem returned_of_error {a : Step (List Clause)} {e : ExpansionError} (h : a.result = .error e) :
    a.returned = [] := by
  simp only [returned, h]

end Step

/-! ## One expansion -/

/-- How the clauses of one expansion go with whether the handler has been emitted before
    and after it. -/
inductive Emits (probe : Probe) : Bool → List Clause → Bool → Prop where
  /-- There is one clause at most, and it is no handler. -/
  | single {out : List Clause} : out.length ≤ 1 → (∀ k ∈ out, ¬ k.IsHandler probe) →
      Emits probe false out false
  /-- The handler comes before several clauses, none of which is one. -/
  | first {rest : List Clause} (span : Span) : 1 < rest.length →
      (∀ k ∈ rest, ¬ k.IsHandler probe) → Emits probe false (.errorHandler probe span :: rest) true
  /-- The handler has come out before. -/
  | later {out : List Clause} : (∀ k ∈ out, ¬ k.IsHandler probe) → Emits probe true out true

namespace Emits

variable {probe : Probe} {a b : Bool} {out : List Clause}

/-- The mark is set by the first list of more than one clause, and by nothing else. -/
theorem flag_iff (h : Emits probe a out b) : b = true ↔ a = true ∨ 1 < out.length := by
  cases h with
  | single hlen _ => simp only [Bool.false_eq_true, false_or, Nat.not_lt.mpr hlen]
  | first span hlen _ =>
      have hcons : 1 < (Clause.errorHandler probe span :: _).length :=
        Nat.lt_of_lt_of_le hlen (Nat.le_succ _)
      simp only [hcons, or_true]
  | later _ => simp only [true_or]

/-- The handler comes out when the flag goes up. -/
theorem count (h : Emits probe a out b) :
    out.countP (fun k => k.IsHandler probe) + a.toNat = b.toNat := by
  have hzero : ∀ {ks : List Clause}, (∀ k ∈ ks, ¬ k.IsHandler probe) →
      ks.countP (fun k => k.IsHandler probe) = 0 := by
    intro ks hks
    exact List.countP_eq_zero.mpr fun k hk hhandler => hks k hk (of_decide_eq_true hhandler)
  cases h with
  | single _ hnone => rw [hzero hnone, Nat.zero_add]
  | first span _ hnone =>
      have hhandler : decide ((Clause.errorHandler probe span).IsHandler probe) = true :=
        decide_eq_true (Clause.isHandler_errorHandler probe span)
      rw [List.countP_cons, hzero hnone, if_pos hhandler]
      rfl
  | later hnone => rw [hzero hnone, Nat.zero_add]

/-- Several clauses that come out for the first time follow the handler. -/
theorem split_first (h : Emits probe false out b) (hout : 1 < out.length) :
    ∃ span rest, out = .errorHandler probe span :: rest ∧ 1 < rest.length := by
  cases h with
  | single hlen _ => exact absurd hout (Nat.not_lt.mpr hlen)
  | first span hlen _ => exact ⟨span, _, rfl, hlen⟩

end Emits

namespace Session

variable {s : Session} {c : Clause}

/-- Putting the handler before some clauses, none of which is one. -/
theorem emits_withHandler (s : Session) {clauses : List Clause} (span : Span)
    (hnone : ∀ k ∈ clauses, ¬ k.IsHandler s.errorProbe) :
    Emits s.errorProbe s.handlerEmitted (s.withHandler clauses span)
      (s.handlerEmitted || s.needsHandler clauses) := by
  cases hemitted : s.handlerEmitted with
  | true =>
      have hneeds : s.needsHandler clauses = false := by
        rw [needsHandler, hemitted, Bool.not_true, Bool.and_false]
      rw [withHandler, hneeds]
      exact .later hnone
  | false =>
      have hneeds : s.needsHandler clauses = decide (1 < clauses.length) := by
        rw [needsHandler, hemitted, Bool.not_false, Bool.and_true]
      rw [withHandler, hneeds]
      by_cases hlen : 1 < clauses.length
      · rw [decide_eq_true hlen]
        exact .first span hlen hnone
      · rw [decide_eq_false hlen]
        exact .single (Nat.le_of_not_lt hlen) hnone

/-- One expansion emits the handler if it is the first to be split, and never otherwise. -/
theorem emits_expand (hc : c.Unreserved) :
    Emits s.errorProbe s.handlerEmitted (s.expand c).returned
      (s.expand c).session.handlerEmitted := by
  cases hres : (s.expand c).result with
  | error e =>
      -- a failed expansion returns nothing and leaves the flag alone
      rw [Step.returned_of_error hres, session_of_expand_error hres]
      have hnothing := s.emits_withHandler c.span (List.forall_mem_nil _)
      have hneeds : s.needsHandler [] = false := rfl
      rwa [withHandler, hneeds, Bool.or_false] at hnothing
  | ok out =>
      obtain ⟨needs, callers, hneeds, hcallers, rfl⟩ := of_expand_ok hres
      rw [Step.returned_of_ok hres, (expand_ok hneeds hcallers).2]
      exact s.emits_withHandler c.span (not_isHandler_assembled hc hcallers s.errorProbe)

/-! ## Runs of expansions -/

/-- The expansions of some clauses, each one from where the one before it has left the
    session, whether that one failed or not. -/
def steps (s : Session) : List Clause → List (Step (List Clause))
  | [] => []
  | c :: cs => s.expand c :: (s.expand c).session.steps cs

variable {cs : List Clause}

/-- The flag is up as soon as an expansion had more than one clause. -/
theorem handlerEmitted_run (hcs : ∀ c ∈ cs, c.Unreserved) :
    (s.run (cs.map .expand)).handlerEmitted = true ↔
      s.handlerEmitted = true ∨ ∃ b ∈ s.steps cs, b.IsSplit := by
  induction cs generalizing s with
  | nil => simp [steps, run]
  | cons c cs ih =>
      have hflag := (emits_expand (s := s) (hcs c List.mem_cons_self)).flag_iff
      have hrest := ih (s := (s.expand c).session) fun c' hc' => hcs c' (List.mem_cons_of_mem c hc')
      refine hrest.trans ?_
      rw [hflag, or_assoc]
      simp [steps, Step.IsSplit]

/-- The handlers that come out are as many as the flag goes up. -/
theorem count_steps (hcs : ∀ c ∈ cs, c.Unreserved) :
    ((s.steps cs).flatMap Step.returned).countP (fun k => k.IsHandler s.errorProbe) +
      s.handlerEmitted.toNat = (s.run (cs.map .expand)).handlerEmitted.toNat := by
  induction cs generalizing s with
  | nil => exact Nat.zero_add _
  | cons c cs ih =>
      have hcount := (emits_expand (s := s) (hcs c List.mem_cons_self)).count
      have hrest := ih (s := (s.expand c).session) fun c' hc' => hcs c' (List.mem_cons_of_mem c hc')
      rw [errorProbe_expand, ← hcount] at hrest
      rw [steps, List.flatMap_cons, List.countP_append]
      exact Eq.trans (by omega) hrest

/-- The first expansion with more than one clause begins with the handler. -/
theorem handler_first (hs : s.handlerEmitted = false) (hcs : ∀ c ∈ cs, c.Unreserved)
    {before after : List (Step (List Clause))} {a : Step (List Clause)}
    (h : s.steps cs = before ++ a :: after) (hbefore : ∀ b ∈ before, ¬ b.IsSplit)
    (ha : a.IsSplit) :
    ∃ span rest, a.returned = .errorHandler s.errorProbe span :: rest ∧ 1 < rest.length := by
  induction before generalizing s cs with
  | nil =>
      cases cs with
      | nil => cases h
      | cons c cs =>
          obtain ⟨rfl, -⟩ := List.cons.inj h
          have hemits := emits_expand (s := s) (hcs c List.mem_cons_self)
          rw [hs] at hemits
          exact hemits.split_first ha
  | cons b before ih =>
      cases cs with
      | nil => cases h
      | cons c cs =>
          obtain ⟨rfl, hrest⟩ := List.cons.inj h
          -- the flag is still down after an expansion without several clauses
          have hflag := (emits_expand (s := s) (hcs c List.mem_cons_self)).flag_iff
          have hdown : (s.expand c).session.handlerEmitted = false := by
            rw [Bool.eq_false_iff, Ne, hflag, hs]
            exact not_or.mpr ⟨Bool.false_ne_true, hbefore _ List.mem_cons_self⟩
          rw [← s.errorProbe_expand c]
          exact ih hdown (fun c' hc' => hcs c' (List.mem_cons_of_mem c hc')) hrest
            fun b' hb' => hbefore b' (List.mem_cons_of_mem _ hb')

/-- The handler comes out exactly once, with the first expansion that has more than one
    clause.

    A session that has not emitted it yet expands sources that leave slots alone, one
    by one, and some expansions may fail.  After any number of them the flag says
    whether one so far had more than one clause.  All that is returned holds one handler
    if there is such an expansion, and none otherwise.  The first such expansion begins
    with it, and without it still has more than one clause. -/
theorem handler_emitted_once (hs : s.handlerEmitted = false) (hcs : ∀ c ∈ cs, c.Unreserved) :
    (∀ n, (s.run ((cs.take n).map .expand)).handlerEmitted = true ↔
      ∃ b ∈ s.steps (cs.take n), b.IsSplit) ∧
    ((s.steps cs).flatMap Step.returned).countP (fun k => k.IsHandler s.errorProbe) =
      (if ∃ b ∈ s.steps cs, b.IsSplit then 1 else 0) ∧
    ∀ before a after, s.steps cs = before ++ a :: after → (∀ b ∈ before, ¬ b.IsSplit) →
      ∀ out, a.result = .ok out → 1 < out.length →
        ∃ span rest, out = .errorHandler s.errorProbe span :: rest ∧ 1 < rest.length := by
  refine ⟨?_, ?_, ?_⟩
  · intro n
    rw [handlerEmitted_run fun c hc => hcs c (List.mem_of_mem_take hc), hs]
    exact or_iff_right Bool.false_ne_true
  · have hcount := count_steps (s := s) hcs
    have hrun := handlerEmitted_run (s := s) hcs
    rw [hs] at hcount hrun
    rw [or_iff_right Bool.false_ne_true] at hrun
    by_cases hsplit : ∃ b ∈ s.steps cs, b.IsSplit
    · rw [if_pos hsplit]
      rwa [hrun.mpr hsplit] at hcount
    · rw [if_neg hsplit]
      rwa [Bool.eq_false_iff.mpr fun hup => hsplit (hrun.mp hup)] at hcount
  · intro before a after heq hbefore out hout hlen
    have hreturned := Step.returned_of_ok hout
    rw [← hreturned] at hlen ⊢
    exact handler_first hs hcs heq hbefore hlen

/-- Expansions that fail, one with a single clause, and two with several, one of them for
    a counter only. -/
theorem handler_emitted_once_mixed :
    let s : Session := ⟨.experimentalOn, ⟨"dtrace", "", "", "ERROR"⟩, .fresh, false⟩
    let read (stmt : Stmt) : Clause := ⟨[⟨"syscall", "", "read", "entry"⟩], none, [stmt], .nowhere⟩
    let trace (e : Expr) : Stmt := .expr (.call "trace" [e] .nowhere)
    let callers (targets : String) : Expr :=
      .index (.ident "callers" .nowhere) [.str targets .nowhere] .nowhere
    let busy : Clause :=
      read (.branch (.ident "ready" .nowhere) [trace (.int 1 .nowhere)] [] .nowhere)
    let cs : List Clause :=
      [read (trace (callers "a:b:c:d")), read (trace (.ident "pid" .nowhere)),
        read (trace (callers "g")), read (.expr (.placeholder .nowhere)), busy]
    s.handlerEmitted = false ∧ (∀ c ∈ cs, c.Unreserved) ∧
      (s.steps cs).map (fun a => a.returned.length) = [0, 1, 4, 0, 3] ∧
      (s.run ((cs.take 2).map .expand)).handlerEmitted = false ∧
      (s.run ((cs.take 3).map .expand)).handlerEmitted = true ∧
      ((s.steps cs).flatMap Step.returned).countP (fun k => k.IsHandler s.errorProbe) = 1 := by
  intro s read trace callers busy cs
  have hcs : ∀ c ∈ cs, c.Unreserved := by decide
  obtain ⟨hflag, hcount, -⟩ := handler_emitted_once (s := s) rfl hcs
  have hlengths : (s.steps cs).map (fun a => a.returned.length) = [0, 1, 4, 0, 3] := by
    decide +kernel
  refine ⟨rfl, hcs, hlengths, ?_, (hflag 3).mpr (by decide +kernel), ?_⟩
  · exact Bool.eq_false_iff.mpr fun hup => absurd ((hflag 2).mp hup) (by decide +kernel)
  · rw [hcount]
    exact if_pos (by decide +kernel)

end Session

end ProbeLang
