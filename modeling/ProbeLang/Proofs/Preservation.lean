import ProbeLang.Proofs.Simulation

/-! # Expansion keeps what a script does

    A script that asks for nothing but branches and loops does in the engine what it
    does as it is written, whatever the code in it does and whichever of its clauses
    an event fires (`Session.compile_preserves`).

    It goes clause by clause.  One that is left as it is is run as it is; of any other
    one the first clause takes the flag down, so nothing is left of what earlier
    clauses and events have put into the slots, and from there on the split clause is
    followed to its end.  The error handler touches the flag only. -/

namespace ProbeLang

variable {S : Type}

/-! ## One clause -/

namespace Clause

/-- A clause for which expansion has nothing to do but to take its branches and loops
    apart: it holds no form, all of it could be read, and it leaves slots alone. -/
structure Core (c : Clause) : Prop where
  unreserved : c.Unreserved
  plain : ∀ x ∈ c.exprNodes, x.isPlain c.allReturn = true

instance (c : Clause) : Decidable c.Core :=
  decidable_of_iff (c.Unreserved ∧ ∀ x ∈ c.exprNodes, x.isPlain c.allReturn = true)
    ⟨fun h => ⟨h.1, h.2⟩, fun h => ⟨h.unreserved, h.plain⟩⟩

end Clause

section Engine

variable {E : Engine S} {F : Firing S} (hE : E.Speaks F) {c : Clause} {needs : Needs}

include hE

/-- A clause without branches and loops is run as it is written. -/
theorem Engine.user_runClause (hc : c.Unreserved)
    (hflat : c.stmts.any Stmt.isStructured = false) (m : Machine S) :
    (E.runClause c m).user = F.runClause c m.user := by
  have hmade : c.MadeOf Expr.Unreserved :=
    Clause.madeOf_of_flat hflat fun e he => hc.of_mem_exprs he
  have hsettle : ∀ a : Machine S × Outcome, (settle a).user = a.1.user := by
    rintro ⟨m, _ | _⟩ <;> rfl
  unfold runClause Firing.runClause Firing.runBody
  cases hp : c.predicate with
  | none =>
      simp only [hsettle, Engine.performAll_source hE hmade.actions]
      rfl
  | some p =>
      simp only [hsettle, Engine.check_source hE (hmade.predicate p hp)]
      rcases F.check p m.user with ⟨σ, _ | _ | _⟩
      · show (E.performAll c.actions (m.withUser σ)).1.user = _
        rw [Engine.performAll_source hE hmade.actions]
        rfl
      · rfl
      · rfl

/-- A flattened clause does what the clause does, whatever the slots hold before. -/
theorem Engine.user_flattened (hc : c.Unreserved) (m : Machine S) :
    (E.runClauses c.flattened m).user = F.runClause c m.user := by
  unfold Clause.flattened
  cases hflat : c.stmts.any Stmt.isStructured with
  | false => exact Engine.user_runClause hE hc hflat m
  | true =>
      -- the flag is down from here on, whatever was left of earlier clauses
      rw [if_pos rfl, Engine.runClauses_cons, Engine.runClause_clearError]
      have hflag : (m.write (Slot.error.cell 0) 0).flag = 0 := Machine.slots_write_self m _ 0
      exact (tracks_split hE hc none 0 (fun _ h => nomatch h) hflag (fun _ h => nomatch h)).user

end Engine

/-- A clause is taken apart at its own probes. -/
theorem Clause.probes_of_mem_flattened {c k : Clause} (h : k ∈ c.flattened) :
    k.probes = c.probes := by
  unfold flattened at h
  split at h
  · rcases List.mem_cons.mp h with rfl | h
    · rfl
    · cases c.piece_split none 0 k h <;> rfl
  · rw [List.mem_singleton.mp h]

/-! ## Events -/

/-- An event, as both readings of a script see it: it fires the same probes for both,
    and does not change what code means.  What becomes of the slots before it is of
    no concern. -/
structure Occurrence (S : Type) where
  firing : Firing S
  engine : Engine S
  speaks : engine.Speaks firing
  /-- What the slots hold when the event comes, from what they held after the last one. -/
  renew : Store → Store

namespace Occurrence

variable (o : Occurrence S)

/-- Runs the clauses of the list that the event fires, in the engine. -/
def runFired (clauses : List Clause) (m : Machine S) : Machine S :=
  o.engine.runClauses (clauses.filter fun c => o.firing.fires c.probes) m

/-- Runs an expanded program when the event comes. -/
def runExpanded (q : Program) (m : Machine S) : Machine S :=
  o.runFired q.clauses { m with slots := o.renew m.slots }

/-- Two lists fire one after the other. -/
theorem runFired_append (as bs : List Clause) (m : Machine S) :
    o.runFired (as ++ bs) m = o.runFired bs (o.runFired as m) := by
  rw [runFired, List.filter_append, Engine.runClauses_append]
  rfl

/-- What one clause turns into does what the clause does, if the event fires it. -/
theorem user_withHandler {c : Clause} (hc : c.Unreserved) (s : Session) (m : Machine S) :
    (o.runFired (s.withHandler c.flattened c.span) m).user =
      if o.firing.fires c.probes then o.firing.runClause c m.user else m.user := by
  -- all of them are at the probes of the clause, so they fire together or not at all
  have hflat : ∀ m : Machine S, (o.runFired c.flattened m).user =
      if o.firing.fires c.probes then o.firing.runClause c m.user else m.user := by
    intro m
    have hfilter : c.flattened.filter (fun k => o.firing.fires k.probes) =
        if o.firing.fires c.probes then c.flattened else [] := by
      split
      · rename_i hfires
        refine List.filter_eq_self.mpr fun k hk => ?_
        rw [Clause.probes_of_mem_flattened hk, hfires]
      · rename_i hfires
        refine List.filter_eq_nil_iff.mpr fun k hk => ?_
        rwa [Clause.probes_of_mem_flattened hk]
    rw [runFired, hfilter]
    split
    · exact Engine.user_flattened o.speaks hc m
    · rfl
  unfold Session.withHandler
  split
  · rw [← List.singleton_append, runFired_append, hflat]
    have huser : (o.runFired [Clause.errorHandler s.errorProbe c.span] m).user = m.user := by
      unfold runFired
      cases hf : o.firing.fires (Clause.errorHandler s.errorProbe c.span).probes <;>
        simp [hf]
    rw [huser]
  · exact hflat m

end Occurrence

/-! ## Whole programs -/

namespace Session

/-- By induction on the clauses: the clauses that come out of a program do to the state
    of the script what the program does. -/
theorem user_expandAll {clauses : List Clause} (h : ∀ c ∈ clauses, c.Core) (s : Session) :
    ∃ out, (s.expandAll clauses).result = .ok out ∧
      ∀ {S : Type} (o : Occurrence S) (m : Machine S), (o.runFired out m).user =
        o.firing.runProgram ⟨clauses⟩ m.user := by
  induction clauses generalizing s with
  | nil => exact ⟨[], rfl, fun _ _ => rfl⟩
  | cons c cs ih =>
      have hc := h c List.mem_cons_self
      obtain ⟨hfirst, -⟩ := expand_of_isPlain hc.plain s
      obtain ⟨rest, hrest, hruns⟩ := ih (fun c' hc' => h c' (List.mem_cons_of_mem c hc'))
        (s.expand c).session
      refine ⟨s.withHandler c.flattened c.span ++ rest, ?_, ?_⟩
      · simp only [expandAll, hfirst, hrest]
        rfl
      · intro S o m
        rw [Occurrence.runFired_append, hruns, Occurrence.user_withHandler o hc.unreserved]
        unfold Firing.runProgram
        rw [List.filter_cons]
        split <;> rfl

/-- Expansion keeps what a script does.  A program whose clauses ask for nothing but
    branches and loops is accepted, and through any sequence of events the engine
    takes the expanded program through the same states as the program as it is
    written, whatever is in the slots at the start and between the events. -/
theorem compile_preserves {s : Session} (hs : s.config.experimental = true) {p : Program}
    (hp : ∀ c ∈ p.clauses, c.Core) :
    ∃ q, (s.compile p).result = .ok q ∧
      ∀ {S : Type} (events : List (Occurrence S)) (m : Machine S),
        (events.foldl (fun m o => o.runExpanded q m) m).user =
          events.foldl (fun σ o => o.firing.runProgram p σ) m.user := by
  obtain ⟨out, hout, hruns⟩ := user_expandAll hp s
  refine ⟨⟨out⟩, ?_, ?_⟩
  · simp only [compile, hs, hout, if_true]
  · intro S events
    induction events with
    | nil => exact fun m => rfl
    | cons o events ih =>
        intro m
        rw [List.foldl_cons, List.foldl_cons, ih]
        congr 1
        exact hruns o _

/-- A program with a branch in a loop under a predicate, and a clause that stays as it
    is after it. -/
theorem compile_preserves_nested :
    let s : Session := ⟨.experimentalOn, ⟨"dtrace", "", "", "ERROR"⟩, .fresh, false⟩
    let name (text : String) : Expr := .ident text .nowhere
    let step (text : String) : Stmt := .expr (.call text [name "pid"] .nowhere)
    let read : List Probe := [⟨"syscall", "", "read", "return"⟩]
    let p : Program :=
      ⟨[⟨read, some (name "ready"),
          [.loop (name "busy") 3 [.branch (name "odd") [step "up"] [step "down"] .nowhere] .nowhere,
            step "trace"], .nowhere⟩,
        ⟨read, none, [step "stop"], .nowhere⟩]⟩
    s.config.experimental = true ∧ (∀ c ∈ p.clauses, c.Core) ∧
      ∃ q, (s.compile p).result = .ok q ∧
        ∀ {S : Type} (events : List (Occurrence S)) (m : Machine S),
          (events.foldl (fun m o => o.runExpanded q m) m).user =
            events.foldl (fun σ o => o.firing.runProgram p σ) m.user :=
  ⟨rfl, by decide, compile_preserves rfl (by decide)⟩

end Session

end ProbeLang
