import ProbeLang.Proofs.ErrorEvent
import ProbeLang.Proofs.Idempotence
import ProbeLang.Proofs.Pairing

/-! # Programs that pass through

    With the features on, the programs that come out as they went in are those of
    plain clauses.  One direction is `Session.compile_of_plain`.  For the other one,
    whatever comes out of an expansion is plain, so a program that comes out as it went
    in was plain before.

    That argument is about whole programs.  A single clause that is not plain never
    comes out alone either: a branch, a loop or a question about the entry brings in a
    clause for the error flag, and a question for callers a clause that counts them
    (`Session.one_lt_length_expand`).

    With the features off, a program is only looked at for branches and loops, and the
    first one of them is reported.  `Session.compile_passthrough` is both cases. -/

namespace ProbeLang

/-- The statements of a program in source order, those inside others included. -/
def Program.stmts (p : Program) : List Stmt := p.clauses.flatMap Clause.stmts

/-! ## Clauses that are not plain -/

/-- A form asks about the entry or for callers. -/
theorem Expr.asks_of_form {inReturn : Bool} {e : Expr} {form : Form}
    (h : Form.of? inReturn e = some form) :
    e.asksEntry inReturn = true ∨ e.asksCallers inReturn = true := by
  unfold asksEntry asksCallers
  rw [h]
  cases form with
  | field f => exact .inl (by cases f <;> rfl)
  | arg n => exact .inl rfl
  | callers targets => exact .inr rfl

namespace Clause

variable {c : Clause}

/-- What there is in a clause that is not plain, if all of it could be read. -/
theorem asks_of_not_plain (hc : ¬ c.Plain) (hread : ∀ x ∈ c.exprNodes, x.isReadable = true) :
    c.NeedsConditions ∨ 0 < c.exprNodes.countP (Expr.asksCallers c.allReturn) := by
  by_cases hconds : c.NeedsConditions
  · exact .inl hconds
  · refine .inr (List.countP_pos_iff.mpr ?_)
    obtain ⟨hflat, hentry⟩ := not_or.mp hconds
    rw [List.any_eq_true] at hflat hentry
    -- without a branch or a loop, it is a form that makes the difference
    refine Classical.byContradiction fun hcallers => hc ⟨?_, ?_⟩
    · exact fun stmt hstmt => Bool.eq_false_iff.mpr fun h => hflat ⟨stmt, hstmt, h⟩
    · intro x hx
      refine Expr.isPlain_iff.mpr ⟨?_, ?_⟩
      · cases hform : Form.of? c.allReturn x with
        | none => rfl
        | some form =>
            rcases Expr.asks_of_form hform with hasks | hasks
            · exact absurd ⟨x, hx, hasks⟩ hentry
            · exact absurd ⟨x, hx, hasks⟩ hcallers
      · rintro span rfl
        exact Bool.false_ne_true (hread _ hx)

end Clause

namespace Session

variable {s : Session} {c : Clause} {needs : Needs} {callers : CallersClauses} {out : List Clause}
  {p : Program}

/-- A counter is taken for each question for callers. -/
theorem length_counters (h : (c.resolve c.allReturn s.ids).needs = .ok needs) :
    needs.counters.length = c.exprNodes.countP (Expr.asksCallers c.allReturn) := by
  obtain ⟨hfault, -, hcounters, -⟩ := Clause.of_resolve_needs h
  have hmeets := c.meets_resolution c.allReturn s.ids
  rw [hcounters, hmeets.counters rfl,
    Expr.takeWhile_isReadable ((hmeets.fault rfl).mp hfault)]
  exact Nat.zero_add _

/-- Without conditions, counters make for more than one clause. -/
theorem one_lt_length_of_isFast (h : Body.isFast needs = true)
    (hcallers : CallersClauses.ofCounters needs.counters = .ok callers)
    (hpos : 0 < needs.counters.length) : 1 < (assembled c needs callers).length := by
  obtain ⟨hup, -, -⟩ := CallersClauses.clauses_at hcallers
  rw [assembled_of_isFast h, List.length_append, List.length_cons]
  omega

theorem length_le_withHandler (s : Session) (clauses : List Clause) (span : Span) :
    clauses.length ≤ (s.withHandler clauses span).length := by
  unfold withHandler
  split
  · exact Nat.le_succ _
  · exact Nat.le_refl _

/-- A clause that is not plain does not come out alone. -/
theorem one_lt_length_expand (hc : ¬ c.Plain) (h : (s.expand c).result = .ok out) :
    1 < out.length := by
  obtain ⟨needs, callers, hneeds, hcallers, rfl⟩ := of_expand_ok h
  obtain ⟨hfault, -, -, hflow⟩ := Clause.of_resolve_needs hneeds
  rw [← Clause.any_isStructured_resolve c c.allReturn s.ids] at hflow
  refine Nat.lt_of_lt_of_le ?_ (s.length_le_withHandler _ c.span)
  cases hfast : Body.isFast needs with
  | false => exact (clearError_mem_assembled callers hfast hflow).2
  | true =>
      have hread := ((c.meets_resolution c.allReturn s.ids).fault rfl).mp hfault
      rcases Clause.asks_of_not_plain hc hread with hconds | hcount
      · rw [(isFast_eq_false_iff hneeds).mpr hconds] at hfast
        cases hfast
      · rw [← length_counters hneeds] at hcount
        exact one_lt_length_of_isFast hfast hcallers hcount

/-! ## Programs -/

/-- With the features on, a program that is accepted comes out as plain clauses. -/
theorem plain_of_compile_ok {q : Program} (hs : s.config.experimental = true)
    (h : (s.compile p).result = .ok q) : ∀ k ∈ q.clauses, k.Plain := by
  intro k hk
  obtain ⟨_, _, _, -, hpart, hk⟩ := mem_expandAll (of_compile_ok hs h).1 hk
  exact plain_of_mem_expand hpart hk

/-- With the features off, a program without branches and loops is accepted. -/
theorem compile_of_flat (hs : s.config.experimental = false)
    (h : ∀ stmt ∈ p.stmts, stmt.isStructured = false) :
    (s.compile p).result = .ok p ∧ (s.compile p).session = s := by
  have hnone : firstStructured? p = none :=
    List.find?_eq_none.mpr fun stmt hstmt => Bool.eq_false_iff.mp (h stmt hstmt)
  simp only [compile, hs, hnone, Bool.false_eq_true, if_false]
  exact ⟨trivial, trivial⟩

/-- With the features off, the first branch or loop of a program is reported. -/
theorem compile_of_structured (hs : s.config.experimental = false)
    (h : ∃ stmt ∈ p.stmts, stmt.isStructured = true) :
    ∃ before stmt after, p.stmts = before ++ stmt :: after ∧
      (∀ x ∈ before, x.isStructured = false) ∧ stmt.isStructured = true ∧
      (s.compile p).result = .error (.experimentalDisabled stmt.span) ∧
      (s.compile p).session = s := by
  obtain ⟨stmt, hfirst⟩ := Option.isSome_iff_exists.mp (List.find?_isSome.mpr h)
  obtain ⟨hstmt, before, after, heq, hbefore⟩ := List.find?_eq_some_iff_append.mp hfirst
  refine ⟨before, stmt, after, heq, fun x hx => by simpa using hbefore x hx, hstmt, ?_⟩
  have hsome : firstStructured? p = some stmt := hfirst
  simp only [compile, hs, hsome, Bool.false_eq_true, if_false]
  exact ⟨trivial, trivial⟩

/-- Which programs come out as they went in.

    With the features on these are the programs of plain clauses, and they leave no trace
    in the session.  No other clause comes out alone.  With the features off they are the
    programs without branches and loops, at whatever depth.  For any other one the first
    branch or loop in source order is reported, and the session stays as it is in both
    cases. -/
theorem compile_passthrough (s : Session) (p : Program) :
    (s.config.experimental = true →
      ((s.compile p).result = .ok p ↔ ∀ c ∈ p.clauses, c.Plain) ∧
      ((∀ c ∈ p.clauses, c.Plain) → (s.compile p).session = s) ∧
      ∀ (c : Clause) (out : List Clause), ¬ c.Plain → (s.expand c).result = .ok out →
        2 ≤ out.length) ∧
    (s.config.experimental = false →
      ((s.compile p).result = .ok p ↔ ∀ stmt ∈ p.stmts, stmt.isStructured = false) ∧
      ((∃ stmt ∈ p.stmts, stmt.isStructured = true) →
        ∃ before stmt after, p.stmts = before ++ stmt :: after ∧
          (∀ x ∈ before, x.isStructured = false) ∧ stmt.isStructured = true ∧
          (s.compile p).result = .error (.experimentalDisabled stmt.span)) ∧
      (s.compile p).session = s) := by
  constructor
  · intro hs
    refine ⟨⟨plain_of_compile_ok hs, fun hp => (compile_of_plain hp s).1⟩, ?_, ?_⟩
    · exact fun hp => (compile_of_plain hp s).2
    · exact fun c out => one_lt_length_expand
  · intro hs
    by_cases hstruct : ∃ stmt ∈ p.stmts, stmt.isStructured = true
    · obtain ⟨before, stmt, after, heq, hbefore, hstmt, hout, hsess⟩ :=
        compile_of_structured hs hstruct
      refine ⟨?_, fun _ => ⟨before, stmt, after, heq, hbefore, hstmt, hout⟩, hsess⟩
      constructor
      · intro hok
        rw [hout] at hok
        cases hok
      · intro hflat
        obtain ⟨x, hx, hxs⟩ := hstruct
        exact absurd (hxs.symm.trans (hflat x hx)) Bool.noConfusion
    · have hflat : ∀ stmt ∈ p.stmts, stmt.isStructured = false := fun stmt hstmt =>
        Bool.eq_false_iff.mpr fun h => hstruct ⟨stmt, hstmt, h⟩
      obtain ⟨hout, hsess⟩ := compile_of_flat hs hflat
      exact ⟨⟨fun _ => hflat, fun _ => hout⟩, fun h => absurd h hstruct, hsess⟩

/-- A question about the entry at an entry is none, one for callers brings in two clauses,
    and a loop that never runs is still a loop: it is behind a branch, which is reported. -/
theorem compile_passthrough_loop :
    let on : Session := ⟨.experimentalOn, ⟨"dtrace", "", "", "ERROR"⟩, ⟨3, 5⟩, true⟩
    let off : Session := ⟨.standard, ⟨"dtrace", "", "", "ERROR"⟩, ⟨3, 5⟩, false⟩
    let pos (n : UInt32) : Span := ⟨0, n, n + 1, 1⟩
    let name (text : String) : Expr := .ident text .nowhere
    let trace (e : Expr) : Stmt := .expr (.call "trace" [e] .nowhere)
    let read (stmt : Stmt) : Clause := ⟨[⟨"syscall", "", "read", "entry"⟩], none, [stmt], .nowhere⟩
    let asked : Clause := read (trace (.binary .ptr (name "entry") (name "elapsed_us") .nowhere))
    let counted : Clause :=
      read (trace (.index (name "callers") [.str "g" .nowhere] .nowhere))
    let idle : Stmt := .loop (name "busy") 0 [] (pos 2)
    let guarded : Clause := read (.branch (name "ready") [] [idle] (pos 1))
    let p : Program := ⟨[asked, counted, guarded]⟩
    ((on.compile ⟨[asked, asked]⟩).result = .ok ⟨[asked, asked]⟩ ∧
      (on.compile ⟨[asked, asked]⟩).session = on) ∧
    (¬ counted.Plain ∧ ∃ out, (on.expand counted).result = .ok out ∧ 2 ≤ out.length) ∧
    (off.compile ⟨[asked, counted]⟩).result = .ok ⟨[asked, counted]⟩ ∧
    (off.compile p).result ≠ .ok p ∧ (off.compile p).session = off ∧
      ∃ before stmt after, p.stmts = before ++ stmt :: after ∧
        (∀ x ∈ before, x.isStructured = false) ∧ stmt.isStructured = true ∧
        (off.compile p).result = .error (.experimentalDisabled stmt.span) := by
  intro on off pos name trace read asked counted idle guarded p
  have hasked : asked.Plain := ⟨by decide, by decide⟩
  have hcounted : ¬ counted.Plain := fun h => absurd h.settled (by decide)
  have hall : ∀ c ∈ (⟨[asked, asked]⟩ : Program).clauses, c.Plain := by
    intro c hc
    rcases List.mem_cons.mp hc with rfl | hc
    · exact hasked
    · rw [List.mem_singleton.mp hc]
      exact hasked
  have hloop : ∃ stmt ∈ p.stmts, stmt.isStructured = true := ⟨idle, by decide, rfl⟩
  obtain ⟨hself, hsess, htwo⟩ := (compile_passthrough on ⟨[asked, asked]⟩).1 rfl
  obtain ⟨hflat, -, -⟩ := (compile_passthrough off ⟨[asked, counted]⟩).2 rfl
  obtain ⟨hsame, hfirst, hkept⟩ := (compile_passthrough off p).2 rfl
  have hlength : (on.expand counted).result.toOption.map List.length = some 3 := by
    decide +kernel
  refine ⟨⟨hself.mpr hall, hsess hall⟩, ⟨hcounted, ?_⟩, hflat.mpr (by decide), ?_, hkept,
    hfirst hloop⟩
  · cases hout : (on.expand counted).result with
    | error e =>
        rw [hout] at hlength
        cases hlength
    | ok out => exact ⟨out, rfl, htwo counted out hcounted hout⟩
  · intro hok
    exact absurd (hsame.mp hok) (by decide)

end Session

end ProbeLang
