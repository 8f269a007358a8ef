import ProbeLang.Proofs.Handler
import ProbeLang.Proofs.Stores

/-! # What becomes of the flag when an error is handled

    A fault is an event of its own: the probe for errors fires, and the clauses at it
    run, the handler among them.  Whether the flag is up when they are through depends
    on the other clauses at that probe.  Code leaves the flag alone
    (`Engine.flag_of_sparesFlag`), so only a clause that takes it down matters, and
    there is one in the expansion of every clause that has conditions; it comes after
    the handler (`Session.flag_after_error_iff`). -/

namespace ProbeLang

variable {S : Type}

/-! ## What an action can change -/

namespace Expr

/-- What is recognised as a slot has a reserved name. -/
theorem name_mem_of_slotRef? {e : Expr} {v : String × String} (h : e.slotRef? = some v) :
    v.2 ∈ e.reservedNames := by
  unfold slotRef? at h
  split at h
  · rename_i scope s₁ name s₂ s₃
    split at h
    · rename_i hname
      obtain rfl := Option.some.inj h
      rw [reservedNames_binary, reservedNames_ident name, hname]
      exact List.mem_append_right _ List.mem_cons_self
    · cases h
  · cases h

/-- An expression that refers to a cell has its name in it. -/
theorem name_mem_of_cell? {e : Expr} {depth : Nat} {c : Cell} (h : e.cell? depth = some c) :
    c.name ∈ e.reservedNames := by
  unfold cell? at h
  split at h
  · rename_i base s₁ s₂
    obtain ⟨v, hv, rfl⟩ := Option.map_eq_some_iff.mp h
    rw [reservedNames_eq]
    exact List.mem_append_right _ (List.mem_flatMap.mpr
      ⟨base, List.mem_cons_self, name_mem_of_slotRef? hv⟩)
  · obtain ⟨v, hv, rfl⟩ := Option.map_eq_some_iff.mp h
    exact name_mem_of_slotRef? hv

end Expr

namespace Engine

variable (E : Engine S) {c : Cell} {e : Expr} {k : Clause} {m : Machine S}

/-- An action leaves alone the cells whose names are not in it. -/
theorem slots_perform (h : c.name ∉ e.reservedNames) (m : Machine S) :
    (E.perform e m).1.slots c = m.slots c := by
  have hother : ∀ {t : Expr} {x : Cell} {depth : Nat}, t.cell? depth = some x →
      c.name ∉ t.reservedNames → c ≠ x := by
    rintro t x depth hx hname rfl
    exact hname (Expr.name_mem_of_cell? hx)
  unfold perform
  split
  · rename_i target value s
    rw [Expr.reservedNames_binary, List.mem_append, not_or] at h
    split
    · rename_i x hx
      have hvalue := E.slots_value value m
      rcases hval : E.value value m with ⟨m', _ | v⟩
      all_goals rw [hval] at hvalue
      · exact congrFun hvalue c
      · exact (Machine.slots_write_of_ne (hother hx h.1)).trans (congrFun hvalue c)
    · rfl
  · rename_i target s
    rw [Expr.reservedNames_unary] at h
    split
    · rename_i x hx
      exact Machine.slots_write_of_ne (hother hx h)
    · rfl
  · rename_i target s
    rw [Expr.reservedNames_unary] at h
    split
    · rename_i x hx
      exact Machine.slots_write_of_ne (hother hx h)
    · rfl
  · rfl

/-- Statements that do not speak of a cell leave it, also if one of them faults. -/
theorem slots_performAll {stmts : List Stmt}
    (h : ∀ stmt ∈ stmts, c.name ∉ stmt.ownExpr.reservedNames) (m : Machine S) :
    (E.performAll stmts m).1.slots c = m.slots c := by
  induction stmts generalizing m with
  | nil => rfl
  | cons stmt stmts ih =>
      have hrest := ih fun stmt' h' => h stmt' (List.mem_cons_of_mem stmt h')
      cases stmt with
      | expr e =>
          have hfirst : (E.perform e m).1.slots c = m.slots c :=
            E.slots_perform (h _ List.mem_cons_self) m
          rw [performAll]
          rcases hp : E.perform e m with ⟨m', _ | _⟩
          all_goals rw [hp] at hfirst
          · exact (hrest m').trans hfirst
          · exact hfirst
      | _ => rfl

/-- What a flat clause does up to a fault. -/
def attempt (k : Clause) (m : Machine S) : Machine S × Outcome :=
  match k.predicate with
  | none => E.performAll k.actions m
  | some p => Verdict.choose (E.check p m) (E.performAll k.actions) fun m => (m, .done)

/-- A clause is attempted, and a fault in it raises the flag. -/
theorem runClause_eq_settle (k : Clause) (m : Machine S) :
    E.runClause k m = settle (E.attempt k m) := by
  cases hp : k.predicate <;> simp only [runClause, attempt, hp]

/-- None of the clauses faults when its turn comes. -/
def Faultless : List Clause → Machine S → Prop
  | [], _ => True
  | k :: ks, m => (E.attempt k m).2 = .done ∧ Faultless ks (E.runClause k m)

instance decidableFaultless : (ks : List Clause) → (m : Machine S) → Decidable (E.Faultless ks m)
  | [], _ => inferInstanceAs (Decidable True)
  | k :: ks, m =>
      have := decidableFaultless ks (E.runClause k m)
      inferInstanceAs (Decidable (_ ∧ _))

/-- Two runs without a fault, the second from where the first one ends. -/
theorem Faultless.append {ks ks' : List Clause} :
    E.Faultless (ks ++ ks') m ↔ E.Faultless ks m ∧ E.Faultless ks' (E.runClauses ks m) := by
  induction ks generalizing m with
  | nil => exact ⟨fun h => ⟨trivial, h⟩, And.right⟩
  | cons k ks ih => exact (and_congr_right fun _ => ih).trans and_assoc.symm

/-- The same for a clause: its predicate changes no slot. -/
theorem slots_attempt (c : Cell) (h : ∀ stmt ∈ k.actions, c.name ∉ stmt.ownExpr.reservedNames)
    (m : Machine S) : (E.attempt k m).1.slots c = m.slots c := by
  unfold attempt
  split
  · exact E.slots_performAll h m
  · rename_i p _
    have hcheck := congrFun (E.slots_check p m) c
    rcases hp : E.check p m with ⟨m', _ | _ | _⟩
    all_goals rw [hp] at hcheck
    · exact (E.slots_performAll h m').trans hcheck
    · exact hcheck
    · exact hcheck

end Engine

/-! ## Clauses and the flag -/

namespace Clause

/-- No action of the clause speaks of the error flag. -/
def SparesFlag (k : Clause) : Prop := ∀ stmt ∈ k.actions, stmt.ownExpr.Spares .error

/-- The clause takes the error flag down. -/
def IsClear (k : Clause) : Prop := k = clearError k.probes k.span

/-- A clause that takes the flag down speaks of it. -/
theorem SparesFlag.not_isClear {k : Clause} (h : k.SparesFlag) : ¬ k.IsClear := by
  intro hclear
  rw [hclear] at h
  refine h _ (List.mem_singleton.mpr rfl) ?_
  simp [Stmt.ownExpr, Guard.errorFlag, Expr.assign]

theorem isClear_clearError (probes : List Probe) (s : Span) : (clearError probes s).IsClear := rfl

end Clause

namespace Engine

variable (E : Engine S) {k : Clause} {ks : List Clause} {m : Machine S}

/-- Without a fault, the flag stays as it is in a clause that spares it. -/
theorem flag_of_sparesFlag (hk : k.SparesFlag) (hdone : (E.attempt k m).2 = .done) :
    (E.runClause k m).flag = m.flag := by
  have hframe : (E.attempt k m).1.flag = m.flag := E.slots_attempt (Slot.error.cell 0) hk m
  rw [runClause_eq_settle]
  rcases ha : E.attempt k m with ⟨m', _ | _⟩
  · rw [ha] at hframe
    exact hframe
  · rw [ha] at hdone
    cases hdone

/-- It takes it down whatever it was. -/
theorem flag_of_isClear (hk : k.IsClear) (m : Machine S) : (E.runClause k m).flag = 0 := by
  rw [hk, runClause_clearError]
  exact Machine.slots_write_self m _ 0

/-- A flag that is up stays up as long as no clause takes it down, and one that has been
    taken down stays down: a run ends with the flag up if no clause of it takes it down. -/
theorem flag_runClauses_iff (h : ∀ k ∈ ks, k.SparesFlag ∨ k.IsClear) (hf : E.Faultless ks m) :
    (E.runClauses ks m).flag = 1 ↔ m.flag = 1 ∧ ∀ k ∈ ks, ¬ k.IsClear := by
  induction ks generalizing m with
  | nil => exact ⟨fun hm => ⟨hm, List.forall_mem_nil _⟩, And.left⟩
  | cons k ks ih =>
      rw [runClauses_cons, ih (fun k' hk' => h k' (List.mem_cons_of_mem k hk')) hf.2,
        List.forall_mem_cons]
      rcases h k List.mem_cons_self with hk | hk
      · rw [E.flag_of_sparesFlag hk hf.1]
        exact and_congr_right fun _ => ⟨fun hks => ⟨hk.not_isClear, hks⟩, And.right⟩
      · rw [E.flag_of_isClear hk]
        exact ⟨fun hdown => absurd hdown.1 (by decide), fun hup => absurd hk hup.2.1⟩

end Engine

/-! ## Clauses with conditions -/

/-- The clause has conditions when it is expanded: it branches or loops, or it asks about
    the entry. -/
def Clause.NeedsConditions (c : Clause) : Prop :=
  c.stmts.any Stmt.isStructured = true ∨
    c.exprNodes.any (Expr.asksEntry c.allReturn) = true

instance (c : Clause) : Decidable c.NeedsConditions := inferInstanceAs (Decidable (_ ∨ _))

namespace Session

variable {s : Session} {c k : Clause} {needs : Needs} {out : List Clause}

/-- A body is not fast exactly if the clause needs conditions; this is read off the
    source. -/
theorem isFast_eq_false_iff (h : (c.resolve c.allReturn s.ids).needs = .ok needs) :
    Body.isFast needs = false ↔ c.NeedsConditions := by
  obtain ⟨hfault, hcap, -, hflow⟩ := Clause.of_resolve_needs h
  have hmeets := c.meets_resolution c.allReturn s.ids
  have hneeds : needs.needsCapture = c.exprNodes.any (Expr.asksEntry c.allReturn) := by
    rw [Needs.needsCapture, hcap, hmeets.capture rfl,
      Expr.takeWhile_isReadable ((hmeets.fault rfl).mp hfault)]
    rfl
  rw [Body.isFast, hflow, hneeds, Clause.NeedsConditions]
  cases c.stmts.any Stmt.isStructured <;> cases c.exprNodes.any (Expr.asksEntry c.allReturn) <;>
    decide

/-- What the clauses of an expansion do to the flag. -/
theorem flag_cases_of_mem_expand (hc : c.Unreserved) (h : (s.expand c).result = .ok out)
    (hk : k ∈ out) :
    k.IsHandler s.errorProbe ∨ k.SparesFlag ∨
      k = .clearError c.probes c.span ∧ c.NeedsConditions := by
  obtain ⟨needs, callers, hneeds, hcallers, rfl⟩ := of_expand_ok h
  have hflag := hc.not_usesFlag_resolve c.allReturn s.ids
  have hassembled : k ∈ assembled (c.resolve c.allReturn s.ids).clause needs callers →
      k.SparesFlag ∨ k = .clearError c.probes c.span ∧ c.NeedsConditions := by
    intro hk
    by_cases hclear : k = .clearError c.probes c.span
    · refine .inr ⟨hclear, (isFast_eq_false_iff hneeds).mp ?_⟩
      cases hfast : Body.isFast needs with
      | false => rfl
      | true =>
          refine absurd ?_ (not_usesFlag_of_isFast hflag hfast hcallers k hk)
          rw [hclear]
          exact Clause.usesFlag_clearError _ _
    · exact .inl ((mem_assembled hcallers hk).spares_actions
        (Clause.spares_of_not_usesFlag hflag) hclear)
  unfold withHandler at hk
  split at hk
  · rcases List.mem_cons.mp hk with rfl | hk
    · exact .inl (Clause.isHandler_errorHandler _ _)
    · exact .inr (hassembled hk)
  · exact .inr (hassembled hk)

/-- And then the clause that takes the flag down is in what comes out, at the probes of
    the source. -/
theorem clearError_mem_expand (hneeds : c.NeedsConditions) (h : (s.expand c).result = .ok out) :
    .clearError c.probes c.span ∈ out := by
  obtain ⟨needs, callers, hok, -, rfl⟩ := of_expand_ok h
  obtain ⟨-, -, -, hflow⟩ := Clause.of_resolve_needs hok
  rw [← Clause.any_isStructured_resolve c c.allReturn s.ids] at hflow
  have hmem := (clearError_mem_assembled callers ((isFast_eq_false_iff hok).mpr hneeds) hflow).1
  unfold withHandler
  split
  · exact List.mem_cons_of_mem _ hmem
  · exact hmem

/-- What the clauses of a list of expansions do to the flag. -/
theorem flag_cases_of_mem_expandAll {cs : List Clause} (hcs : ∀ c ∈ cs, c.Unreserved)
    (h : (s.expandAll cs).result = .ok out) (hk : k ∈ out) :
    k.IsHandler s.errorProbe ∨ k.SparesFlag ∨
      ∃ c ∈ cs, k = .clearError c.probes c.span ∧ c.NeedsConditions := by
  induction cs generalizing s out with
  | nil =>
      obtain rfl : [] = out := Except.ok.inj h
      cases hk
  | cons c cs ih =>
      obtain ⟨part, rest, hpart, hrest, rfl, -⟩ := of_expandAll_cons_ok h
      rcases List.mem_append.mp hk with hk | hk
      · rcases flag_cases_of_mem_expand (hcs c List.mem_cons_self) hpart hk with hh | hk | hk
        · exact .inl hh
        · exact .inr (.inl hk)
        · exact .inr (.inr ⟨c, List.mem_cons_self, hk⟩)
      · have hlater := ih (fun c' hc' => hcs c' (List.mem_cons_of_mem c hc')) hrest hk
        rw [errorProbe_expand] at hlater
        rcases hlater with hh | hk | ⟨c', hc', hk⟩
        · exact .inl hh
        · exact .inr (.inl hk)
        · exact .inr (.inr ⟨c', List.mem_cons_of_mem c hc', hk⟩)

/-- So it is in what comes out of a whole program. -/
theorem clearError_mem_expandAll {cs : List Clause} (hc : c ∈ cs) (hneeds : c.NeedsConditions)
    (h : (s.expandAll cs).result = .ok out) : .clearError c.probes c.span ∈ out := by
  induction cs generalizing s out with
  | nil => cases hc
  | cons c' cs ih =>
      obtain ⟨part, rest, hpart, hrest, rfl, -⟩ := of_expandAll_cons_ok h
      rcases List.mem_cons.mp hc with rfl | hc
      · exact List.mem_append_left _ (clearError_mem_expand hneeds hpart)
      · exact List.mem_append_right _ (ih hc hrest)

end Session

/-! ## The error event -/

/-- The clauses of a program at a probe. -/
def Program.clausesAt (q : Program) (probe : Probe) : List Clause :=
  q.clauses.filter fun k => k.probes.contains probe

namespace Session

variable {s : Session}

/-- A program that leaves slots alone has no handler before it is expanded. -/
theorem expandAll_of_isHandler {p q : Program} (hp : ∀ c ∈ p.clauses, c.Unreserved)
    (h : (s.compile p).result = .ok q) (hq : ∃ k ∈ q.clauses, k.IsHandler s.errorProbe) :
    (s.expandAll p.clauses).result = .ok q.clauses := by
  cases hexp : s.config.experimental with
  | true => exact (of_compile_ok hexp h).1
  | false =>
      obtain ⟨rfl, -⟩ := of_compile_ok_off hexp h
      obtain ⟨k, hk, hhandler⟩ := hq
      exact absurd hhandler.usesFlag (hp k hk).not_usesFlag

/-- If nothing before the handler speaks of the flag, it is taken down only after it. -/
theorem clearError_mem_after {probe : Probe} {probes : List Probe} {span span' : Span}
    {before after : List Clause} (hbefore : ∀ k ∈ before, ¬ k.UsesFlag)
    (h : .clearError probes span ∈ before ++ .errorHandler probe span' :: after) :
    .clearError probes span ∈ after := by
  rcases List.mem_append.mp h with h | h
  · exact absurd (Clause.usesFlag_clearError _ _) (hbefore _ h)
  · rcases List.mem_cons.mp h with heq | h
    · exact absurd (heq ▸ Clause.isHandler_errorHandler probe span')
        (Clause.not_isHandler_clearError _ _ _)
    · exact h

/-- When the error flag survives the event that puts it up.  Of a program that leaves
    slots alone, expanded by a fresh session, the clauses at the probe for errors run one
    after the other, none of them with a fault.  In the end the flag is up if no clause
    of the program at that probe has conditions of its own, and only then. -/
theorem flag_after_error_iff (hs : s.handlerEmitted = false) {p q : Program}
    (hp : ∀ c ∈ p.clauses, c.Unreserved) (h : (s.compile p).result = .ok q)
    (hq : ∃ k ∈ q.clauses, k.IsHandler s.errorProbe) (E : Engine S) (m : Machine S)
    (hf : E.Faultless (q.clausesAt s.errorProbe) m) :
    (E.runClauses (q.clausesAt s.errorProbe) m).flag = 1 ↔
      ∀ c ∈ p.clauses, s.errorProbe ∈ c.probes → ¬ c.NeedsConditions := by
  have hall := expandAll_of_isHandler hp h hq
  have hann := announces_expandAll hp hall
  rw [hs] at hann
  obtain ⟨before, span, after, hclauses, hbefore, hafter⟩ := hann.split_of_isHandler hq
  -- the handler puts the flag up, and only what comes after it can take it down again
  have hcases : ∀ k ∈ after, k.SparesFlag ∨
      ∃ c ∈ p.clauses, k = .clearError c.probes c.span ∧ c.NeedsConditions := by
    intro k hk
    have hmem : k ∈ q.clauses := by
      rw [hclauses]
      exact List.mem_append_right _ (List.mem_cons_of_mem _ hk)
    exact (flag_cases_of_mem_expandAll hp hall hmem).resolve_left (hafter k hk)
  have hat : q.clausesAt s.errorProbe =
      before.filter (·.probes.contains s.errorProbe) ++
        .errorHandler s.errorProbe span :: after.filter (·.probes.contains s.errorProbe) := by
    rw [Program.clausesAt, hclauses, List.filter_append, List.filter_cons_of_pos]
    simp [Clause.errorHandler]
  rw [hat] at hf ⊢
  obtain ⟨-, -, hlater⟩ := (Engine.Faultless.append E).mp hf
  rw [Engine.runClauses_append, Engine.runClauses_cons]
  rw [E.runClause_errorHandler] at hlater ⊢
  rw [E.flag_runClauses_iff (fun k hk => ?_) hlater, Machine.flag_raise]
  · constructor
    · intro hup c hc hprobe hneeds
      refine hup.2 _ ?_ (Clause.isClear_clearError c.probes c.span)
      have hout := clearError_mem_expandAll hc hneeds hall
      rw [hclauses] at hout
      exact List.mem_filter.mpr
        ⟨clearError_mem_after hbefore hout, List.contains_iff_mem.mpr hprobe⟩
    · refine fun hnone => ⟨rfl, fun k hk hclear => ?_⟩
      obtain ⟨hk, hprobe⟩ := List.mem_filter.mp hk
      rcases hcases k hk with hspares | ⟨c, hc, rfl, hneeds⟩
      · exact hspares.not_isClear hclear
      · exact hnone c hc (List.contains_iff_mem.mp hprobe) hneeds
  · rcases hcases k (List.mem_filter.mp hk).1 with hspares | ⟨c, -, rfl, -⟩
    · exact .inl hspares
    · exact .inr (Clause.isClear_clearError _ _)

/-- A clause at the probe for errors that asks for callers only: the handler and that
    clause run, and the flag is up in the end. -/
theorem flag_up_after_error :
    let s : Session := ⟨.experimentalOn, ⟨"dtrace", "", "", "ERROR"⟩, .fresh, false⟩
    let read : List Probe := [⟨"syscall", "", "read", "entry"⟩]
    let name (text : String) : Expr := .ident text .nowhere
    let trace (e : Expr) : Stmt := .expr (.call "trace" [e] .nowhere)
    let callers : Expr := .index (name "callers") [.str "syscall::open" .nowhere] .nowhere
    let counter : Counter := ⟨1, "syscall::open", .nowhere⟩
    let p : Program :=
      ⟨[⟨read, none, [.branch (name "ready") [trace (name "pid")] [] .nowhere], .nowhere⟩,
        ⟨[s.errorProbe], some callers, [trace (name "pid")], .nowhere⟩]⟩
    let q : Program :=
      ⟨[.errorHandler s.errorProbe .nowhere, .clearError read .nowhere,
        .setCondition read none .first (name "ready") .nowhere,
        .block read (some .first) true [trace (name "pid")] .nowhere,
        counter.increment [⟨"syscall", "", "open", "entry"⟩],
        ⟨[s.errorProbe], some (counter.slot .nowhere), [trace (name "pid")], .nowhere⟩,
        counter.decrement [⟨"syscall", "", "open", "return"⟩]]⟩
    let E : Engine Nat :=
      ⟨1, fun _ => none, fun _ => none, fun _ _ n => (n + 1, .done), fun _ _ n => (n, .holds)⟩
    let m : Machine Nat := ⟨0, fun _ => 0⟩
    (∀ c ∈ p.clauses, c.Unreserved) ∧ (s.compile p).result = .ok q ∧
      (∃ k ∈ q.clauses, k.IsHandler s.errorProbe) ∧ (q.clausesAt s.errorProbe).length = 2 ∧
      E.Faultless (q.clausesAt s.errorProbe) m ∧
      (E.runClauses (q.clausesAt s.errorProbe) m).flag = 1 := by
  intro s read name trace callers counter p q E m
  have hp : ∀ c ∈ p.clauses, c.Unreserved := by decide
  have hsome : (s.compile p).result.toOption = some q := by decide +kernel
  have hq : (s.compile p).result = .ok q := by
    cases hres : (s.compile p).result with
    | error e => rw [hres] at hsome; cases hsome
    | ok r => rw [hres] at hsome; exact congrArg _ (Option.some.inj hsome)
  have hhandler : ∃ k ∈ q.clauses, k.IsHandler s.errorProbe := ⟨_, List.mem_cons_self, rfl⟩
  have hf : E.Faultless (q.clausesAt s.errorProbe) m := by decide
  refine ⟨hp, hq, hhandler, by decide, hf, ?_⟩
  exact (flag_after_error_iff rfl hp hq hhandler E m hf).mpr (by decide)

/-- A clause at the probe for errors that branches: its expansion takes the flag down
    after the handler has put it up. -/
theorem flag_down_after_error :
    let s : Session := ⟨.experimentalOn, ⟨"dtrace", "", "", "ERROR"⟩, .fresh, false⟩
    let name (text : String) : Expr := .ident text .nowhere
    let trace : Stmt := .expr (.call "trace" [name "pid"] .nowhere)
    let busy : Clause :=
      ⟨[s.errorProbe], none, [.branch (name "ready") [trace] [] .nowhere], .nowhere⟩
    let q : Program :=
      ⟨[.errorHandler s.errorProbe .nowhere, .clearError busy.probes .nowhere,
        .setCondition busy.probes none .first (name "ready") .nowhere,
        .block busy.probes (some .first) true [trace] .nowhere]⟩
    let E : Engine Nat :=
      ⟨1, fun _ => none, fun _ => none, fun _ _ n => (n + 1, .done), fun _ _ n => (n, .holds)⟩
    let m : Machine Nat := ⟨0, fun _ => 0⟩
    busy.Unreserved ∧ (s.compile ⟨[busy]⟩).result = .ok q ∧
      (∃ k ∈ q.clauses, k.IsHandler s.errorProbe) ∧
      E.Faultless (q.clausesAt s.errorProbe) m ∧
      (E.runClauses (q.clausesAt s.errorProbe) m).flag = 0 := by
  intro s name trace busy q E m
  exact ⟨by decide, by rfl, ⟨_, List.mem_cons_self, rfl⟩, by decide, by decide⟩

end Session

end ProbeLang
