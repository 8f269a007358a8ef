import ProbeLang.Proofs.Engine
import ProbeLang.Proofs.Expand

/-! # Splitting keeps what a clause does

    The clauses that statements are split into do, one after the other in the engine,
    what the statements do as they are written.  The argument goes by how a piece of
    a clause is entered:

    * with the error flag up, no clause of it does anything (`runClauses_of_flag`);
    * under a condition that does not hold, only conditions of its own are written,
      and all of them become false (`idles_ofStmts`);
    * otherwise the engine follows the source (`tracks_ofStmts`): up to a fault both
      have the same state, and from a fault on the flag is up. -/

namespace ProbeLang

variable {S : Type} {probes : List Probe} {n n' : Nat}

/-! ## With the flag up -/

section Engine

variable (E : Engine S) {m m' m'' : Machine S}

/-- The clause does nothing while the error flag is up. -/
def Engine.Skips (k : Clause) : Prop := ∀ m : Machine S, m.flag ≠ 0 → E.runClause k m = m

/-- With the flag up, a run of clauses that all skip does nothing. -/
theorem Engine.runClauses_of_flag {ks : List Clause} (h : ∀ k ∈ ks, E.Skips k)
    (hm : m.flag ≠ 0) : E.runClauses ks m = m := by
  induction ks with
  | nil => rfl
  | cons k ks ih =>
      rw [Engine.runClauses_cons, h k List.mem_cons_self m hm]
      exact ih fun k' hk' => h k' (List.mem_cons_of_mem k hk')

/-- Every clause with a guard is skipped while the error flag is up. -/
theorem Emitted.Piece.skips {own : Expr → Prop} {k : Clause}
    (h : Emitted.Piece probes own n False k) : E.Skips k := by
  intro m hm
  cases h with
  | test around s hid hv => exact E.runClause_setCondition_of_flag hm
  | block around anyBefore s hstmts hguard =>
      refine E.runClause_block_of_flag hm fun hnone => ?_
      cases anyBefore with
      | false => exact (hguard hnone rfl).elim
      | true => rfl

/-- All clauses of a piece skip while the flag is up, as soon as one condition has been
    handed out or the piece stands under one. -/
theorem skips_ofStmts {stmts : List Stmt} {around : Option ConditionId}
    (hg : around = none → n ≠ 0) :
    ∀ k ∈ (Emitted.ofStmts probes stmts [] around n).clauses, E.Skips k := by
  intro k hk
  exact ((Emitted.piece_ofStmts stmts [] around n (List.forall_mem_nil _) k hk).mono
    (fun _ h => h) (Nat.le_refl n) (fun h => hg h.1 h.2)).skips E

/-! ## Under a condition that does not hold -/

/-- Nothing has happened but to conditions after the first `n`. -/
structure Idle (n : Nat) (m m' : Machine S) : Prop where
  user : m'.user = m.user
  agrees : Machine.AgreesUpTo n m m'

theorem Idle.refl (n : Nat) (m : Machine S) : Idle n m m := ⟨rfl, .refl n m⟩

theorem Idle.trans (h : Idle n m m') (h' : Idle n m' m'') : Idle n m m'' :=
  ⟨h'.user.trans h.user, h.agrees.trans h'.agrees⟩

theorem Idle.mono (hn : n ≤ n') (h : Idle n' m m') : Idle n m m' := ⟨h.user, h.agrees.mono hn⟩

/-- Working out a condition that comes later does nothing that counts. -/
theorem idle_setCondition {id : ConditionId} (hid : n < id.index) (v : Int) :
    Idle n m (m.setCondition id v) :=
  ⟨rfl, Machine.agreesUpTo_setCondition hid⟩

/-- None of the clauses does anything when its turn comes. -/
inductive Engine.Idles (E : Engine S) (n : Nat) : List Clause → Machine S → Prop where
  | nil (m : Machine S) : Idles E n [] m
  | cons {k : Clause} {ks : List Clause} {m : Machine S} :
      Idle n m (E.runClause k m) → Idles E n ks (E.runClause k m) → Idles E n (k :: ks) m

namespace Engine

variable {E} {ks ks' : List Clause}

/-- Clauses that do nothing one by one do nothing as a run. -/
theorem Idles.idle (h : E.Idles n ks m) : Idle n m (E.runClauses ks m) := by
  induction h with
  | nil m => exact .refl n m
  | cons hfirst _ ih => exact hfirst.trans ih

/-- Two runs that idle, the second from where the first one ends. -/
theorem Idles.append (h : E.Idles n ks m) (h' : E.Idles n ks' (E.runClauses ks m)) :
    E.Idles n (ks ++ ks') m := by
  induction h with
  | nil m => exact h'
  | cons hfirst _ ih => exact .cons hfirst (ih h')

/-- What touches only later conditions touches only conditions after fewer. -/
theorem Idles.mono (hn : n ≤ n') (h : E.Idles n' ks m) : E.Idles n ks m := by
  induction h with
  | nil m => exact .nil m
  | cons hfirst _ ih => exact .cons (hfirst.mono hn) ih

/-- What is idle to the end is idle up to any point. -/
theorem Idles.of_append (h : E.Idles n (ks ++ ks') m) : E.Idles n ks m := by
  induction ks generalizing m with
  | nil => exact .nil m
  | cons k ks ih =>
      cases h with
      | cons hfirst hrest => exact .cons hfirst (ih hrest)

/-- A test under a condition that does not hold makes its own condition false. -/
theorem Idles.setCondition {outer id : ConditionId} {e : Expr} {s : Span} (hid : n < id.index)
    (hf : m.flag = 0) (hc : m.condition outer = 0)
    (h : E.Idles n ks (m.setCondition id 0)) :
    E.Idles n (Clause.setCondition probes (some outer) id e s :: ks) m := by
  have htest : E.runClause (Clause.setCondition probes (some outer) id e s) m =
      m.setCondition id 0 := E.runClause_setCondition_idle hf hc
  refine .cons ?_ ?_
  · rw [htest]
    exact idle_setCondition hid 0
  · rw [htest]
    exact h

end Engine

/-- A block under a condition that does not hold is skipped. -/
theorem idles_block {outer : ConditionId} {pending : List Stmt} (hc : m.condition outer = 0)
    (before : Nat) : E.Idles n (Emitted.block probes (some outer) before pending) m := by
  cases pending with
  | nil => exact .nil m
  | cons stmt rest =>
      refine .cons ?_ (.nil _)
      rw [E.runClause_block_idle hc]
      exact .refl n m

/-- Once the condition of a loop is false, the copies of its test and body do nothing. -/
theorem idles_copies (probes : List Probe) {ks : List Clause} (cond : Expr) (s : Span)
    (hidle : ∀ m : Machine S, m.flag = 0 → m.condition (.after n) = 0 → E.Idles (n + 1) ks m) :
    ∀ (k : Nat) (m : Machine S), m.flag = 0 → m.condition (.after n) = 0 →
      E.Idles n (List.replicate k
        (Clause.setCondition probes (some (.after n)) (.after n) cond s :: ks)).flatten m := by
  intro k
  induction k with
  | zero => intro m _ _; exact .nil m
  | succ k ih =>
      intro m hf hc
      have hbody := hidle (m.setCondition (.after n) 0) (by simpa using hf) (by simp)
      rw [List.replicate_succ, List.flatten_cons, List.cons_append]
      refine .setCondition (Nat.lt_succ_self n) hf hc ((hbody.mono (Nat.le_succ n)).append
        (ih _ ?_ ?_))
      · rw [hbody.idle.agrees.flag]
        simpa using hf
      · rw [hbody.idle.agrees.condition (Nat.le_refl _), Machine.condition_setCondition]

mutual
/-- By recursion on the statement: under a condition that does not hold, every condition
    inside comes out false, so no block runs. -/
theorem idles_ofStmt : ∀ (stmt : Stmt) (outer : ConditionId) (n : Nat) (m : Machine S),
    outer.index ≤ n → m.flag = 0 → m.condition outer = 0 →
      E.Idles n (Emitted.ofStmt probes stmt (some outer) n).clauses m
  | .expr e, outer, n, m, _, _, hc => by
      simp only [Emitted.ofStmt]
      exact idles_block E hc n
  | .branch cond onTrue onFalse s, outer, n, m, ho, hf, hc => by
      -- the test comes out false, and so does the one for the `else`
      have hyes := (idles_ofStmts onTrue [] (.after n) (n + 1) (m.setCondition (.after n) 0)
        (Nat.le_refl _) (by simpa using hf) (by simp)).mono (Nat.le_succ n)
      have hn := Nat.le_of_succ_le
        (Emitted.le_allocated_ofStmts probes onTrue [] (some (.after n)) (n + 1))
      simp only [Emitted.ofStmt]
      split
      · exact .setCondition (Nat.lt_succ_self n) hf hc hyes
      · have hagrees := (idle_setCondition (Nat.lt_succ_self n) 0).trans hyes.idle
        refine .setCondition (Nat.lt_succ_self n) hf hc (hyes.append
          (.setCondition (Nat.lt_succ_of_le hn) (hagrees.agrees.flag.trans hf)
            ((hagrees.agrees.condition ho).trans hc)
            ((idles_ofStmts onFalse [] (.after _) _ _ (Nat.le_refl _) ?_ (by simp)).mono ?_)))
        · simpa using hagrees.agrees.flag.trans hf
        · exact Nat.le_succ_of_le hn
  | .loop cond maxIter body s, outer, n, m, ho, hf, hc => by
      simp only [Emitted.ofStmt]
      refine .setCondition (Nat.lt_succ_self n) hf hc
        (idles_copies E probes cond s ?_ _ _ (by simpa using hf) (by simp))
      intro m hf hc
      exact idles_ofStmts body [] (.after n) (n + 1) m (Nat.le_refl _) hf hc

/-- Under a condition that does not hold, split statements do nothing. -/
theorem idles_ofStmts : ∀ (stmts pending : List Stmt) (outer : ConditionId) (n : Nat)
    (m : Machine S), outer.index ≤ n → m.flag = 0 → m.condition outer = 0 →
      E.Idles n (Emitted.ofStmts probes stmts pending (some outer) n).clauses m
  | [], pending, outer, n, m, _, _, hc => idles_block E hc n
  | stmt :: stmts, pending, outer, n, m, ho, hf, hc => by
      simp only [Emitted.ofStmts]
      split
      · have hn := Emitted.le_allocated_ofStmt probes stmt (some outer) n
        have hblock : E.Idles n (Emitted.block probes (some outer) n pending) m :=
          idles_block E hc n
        have hfirst := hblock.append (idles_ofStmt stmt outer n _ ho
          (hblock.idle.agrees.flag.trans hf) ((hblock.idle.agrees.condition ho).trans hc))
        exact hfirst.append ((idles_ofStmts stmts [] outer _ _ (Nat.le_trans ho hn)
          (hfirst.idle.agrees.flag.trans hf) ((hfirst.idle.agrees.condition ho).trans hc)).mono hn)
      · exact idles_ofStmts stmts (pending ++ [stmt]) outer n m ho hf hc
end

/-- Under a condition that does not hold, a split clause does nothing. -/
theorem idles_split (c : Clause) {outer : ConditionId} (ho : outer.index ≤ n) (hf : m.flag = 0)
    (hc : m.condition outer = 0) : E.Idles n (c.split (some outer) n).clauses m := by
  cases hp : c.predicate with
  | none =>
      simp only [Clause.split, hp]
      exact idles_ofStmts E c.actions [] outer n m ho hf hc
  | some p =>
      simp only [Clause.split, hp]
      exact .setCondition (Nat.lt_succ_self n) hf hc ((idles_ofStmts E c.actions [] (.after n)
        (n + 1) _ (Nat.le_refl _) (by simpa using hf) (by simp)).mono (Nat.le_succ n))

end Engine

/-! ## Where the source is followed -/

private theorem index_le_of_some_after (n : Nat) :
    ∀ id, some (ConditionId.after n) = some id → id.index ≤ n + 1 := by
  intro id hid
  rw [← Option.some.inj hid]
  exact Nat.le_refl _

/-- The engine has come from `m` to `m'` while the source came to `a`: they have the
    same state; without a fault nothing but conditions after the first `n` has
    changed besides, and with one the flag is up. -/
structure Tracks (n : Nat) (m : Machine S) (a : S × Outcome) (m' : Machine S) : Prop where
  user : m'.user = a.1
  done : a.2 = .done → Machine.AgreesUpTo n m m'
  fault : a.2 = .fault → m'.flag ≠ 0

section Tracks

variable {m m₁ m₂ : Machine S} {a : S × Outcome} {next : S → S × Outcome}

theorem Tracks.refl (n : Nat) (m : Machine S) : Tracks n m (m.user, .done) m :=
  ⟨rfl, fun _ => .refl n m, (nomatch ·)⟩

/-- Keeping more conditions is keeping fewer. -/
theorem Tracks.mono (hn : n ≤ n') (h : Tracks n' m a m₁) : Tracks n m a m₁ :=
  ⟨h.user, fun hd => (h.done hd).mono hn, h.fault⟩

/-- Idling before a stretch that tracks the source does not matter. -/
theorem Tracks.after_idle (h : Machine.AgreesUpTo n m m₁) (h' : Tracks n m₁ a m₂) :
    Tracks n m a m₂ :=
  ⟨h'.user, fun hd => h.trans (h'.done hd), h'.fault⟩

/-- Nor does idling after it; with the flag up nothing happens at all. -/
theorem Tracks.then_idle (h : Tracks n m a m₁)
    (hd : a.2 = .done → Idle n m₁ m₂) (hf : m₁.flag ≠ 0 → m₂ = m₁) : Tracks n m a m₂ := by
  rcases a with ⟨σ, _ | _⟩
  · have hidle := hd rfl
    exact ⟨hidle.user.trans h.user, fun _ => (h.done rfl).trans hidle.agrees, (nomatch ·)⟩
  · rw [hf (h.fault rfl)]
    exact h

/-- One piece after the other. -/
theorem Tracks.andThen (h : Tracks n m a m₁) (hd : a.2 = .done → Tracks n m₁ (next a.1) m₂)
    (hf : m₁.flag ≠ 0 → m₂ = m₁) : Tracks n m (Outcome.andThen a next) m₂ := by
  rcases a with ⟨σ, _ | _⟩
  · exact (hd rfl).after_idle (h.done rfl)
  · rw [hf (h.fault rfl)]
    exact ⟨h.user, (nomatch ·), fun _ => h.fault rfl⟩

end Tracks

section Source

variable {E : Engine S} {F : Firing S}

/-- A piece that is taken if an earlier condition does not hold. -/
theorem tracks_otherwise {otherwise : List Stmt} {around : Option ConditionId} {ks : List Clause}
    (s : Span) (hn : n ≤ n')
    (hrun : ∀ m : Machine S, m.flag = 0 → m.Under (some (.after n')) →
      Tracks (n' + 1) m (F.runStmts otherwise m.user) (E.runClauses ks m))
    {m : Machine S} (hf : m.flag = 0) (hu : m.Under around) (hc : m.condition (.after n) = 0) :
    Tracks n m (F.runStmts otherwise m.user)
      (E.runClauses (Clause.setCondition probes around (.after n')
        ((Guard.condition (.after n) s).not s) s :: ks) m) := by
  rw [Engine.runClauses_cons, E.runClause_setCondition hf hu, E.check_not_condition, hc]
  have hset : Machine.AgreesUpTo n m (m.setCondition (.after n') 1) :=
    Machine.agreesUpTo_setCondition (Nat.lt_succ_of_le hn)
  exact ((hrun _ (hset.flag.trans hf) (Machine.under_setCondition _ (by decide))).mono
    (Nat.le_succ_of_le hn)).after_idle hset

/-- Such a piece does nothing if the earlier condition holds. -/
theorem idles_otherwise {around : Option ConditionId} {ks : List Clause} (s : Span) (hn : n ≤ n')
    (hidle : ∀ m : Machine S, m.flag = 0 → m.condition (.after n') = 0 → E.Idles (n' + 1) ks m)
    {m : Machine S} (hf : m.flag = 0) (hu : m.Under around) (hc : m.condition (.after n) = 1) :
    E.Idles n (Clause.setCondition probes around (.after n')
      ((Guard.condition (.after n) s).not s) s :: ks) m := by
  have htest : E.runClause (Clause.setCondition probes around (.after n')
      ((Guard.condition (.after n) s).not s) s) m = m.setCondition (.after n') 0 := by
    rw [E.runClause_setCondition hf hu, E.check_not_condition, hc]
    rfl
  have hset : Idle n m (m.setCondition (.after n') 0) :=
    idle_setCondition (Nat.lt_succ_of_le hn) 0
  refine .cons ?_ ?_
  · rw [htest]
    exact hset
  · rw [htest]
    exact (hidle _ (hset.agrees.flag.trans hf) (by simp)).mono (Nat.le_succ_of_le hn)

variable (hE : E.Speaks F)

include hE

/-- A block runs the statements that the source runs, and ends with the flag up exactly
    if one of them faults. -/
theorem tracks_block {around : Option ConditionId} {pending : List Stmt}
    (hpending : ∀ stmt ∈ pending, ∃ e : Expr, e.Unreserved ∧ stmt = .expr e) {m : Machine S}
    (hf : m.flag = 0) (hu : m.Under around) :
    Tracks n' m (F.runStmts pending m.user)
      (E.runClauses (Emitted.block probes around n pending) m) := by
  cases pending with
  | nil => exact .refl n' m
  | cons stmt rest =>
      show Tracks n' m _ (E.runClause (Clause.block probes around _ (stmt :: rest) _) m)
      rw [E.runClause_block hf hu, Engine.performAll_source hE hpending]
      rcases F.runStmts (stmt :: rest) m.user with ⟨σ, _ | _⟩
      · exact ⟨rfl, fun _ _ _ => rfl, (nomatch ·)⟩
      · exact ⟨rfl, (nomatch ·), fun _ => by simp [Engine.settle]⟩

/-- A test, and two pieces of which the one that it leads to runs. -/
theorem tracks_branch {cond : Expr} (hcond : cond.Unreserved) {onTrue onFalse : List Stmt}
    {around : Option ConditionId} {as bs : List Clause} (s : Span)
    (ho : ∀ id, around = some id → id.index ≤ n)
    (has : ∀ k ∈ as, E.Skips k) (hbs : ∀ k ∈ bs, E.Skips k)
    (hyes : ∀ m : Machine S, m.flag = 0 → m.Under (some (.after n)) →
      Tracks (n + 1) m (F.runStmts onTrue m.user) (E.runClauses as m))
    (hyesIdle : ∀ m : Machine S, m.flag = 0 → m.condition (.after n) = 0 →
      E.Idles (n + 1) as m)
    (hno : ∀ m : Machine S, m.flag = 0 → m.Under around → m.condition (.after n) = 0 →
      Tracks n m (F.runStmts onFalse m.user) (E.runClauses bs m))
    (hnoIdle : ∀ m : Machine S, m.flag = 0 → m.Under around → m.condition (.after n) = 1 →
      E.Idles n bs m)
    {m : Machine S} (hf : m.flag = 0) (hu : m.Under around) :
    Tracks n m (Verdict.choose (F.check cond m.user) (F.runStmts onTrue) (F.runStmts onFalse))
      (E.runClauses (Clause.setCondition probes around (.after n) cond s :: (as ++ bs)) m) := by
  rw [Engine.runClauses_cons, Engine.runClauses_append, E.runClause_setCondition hf hu,
    Engine.check_source hE hcond]
  rcases F.check cond m.user with ⟨σ, _ | _ | _⟩
  · -- the first piece runs, and its condition keeps the second one from it
    have hset : Machine.AgreesUpTo n m ((m.withUser σ).setCondition (.after n) 1) :=
      Machine.agreesUpTo_setCondition (Nat.lt_succ_self n)
    have hrun := hyes _ (hset.flag.trans hf) (Machine.under_setCondition _ (by decide))
    have hall := (hrun.mono (Nat.le_succ n)).after_idle hset
    refine hall.then_idle ?_ (E.runClauses_of_flag hbs)
    intro hdone
    have hagree := hall.done hdone
    refine (hnoIdle _ (hagree.flag.trans hf) (hu.of_agreesUpTo ho hagree) ?_).idle
    rw [(hrun.done hdone).condition (Nat.le_refl _), Machine.condition_setCondition]
  · -- the first piece does nothing, and so the second one finds the same state
    have hset : Idle n (m.withUser σ) ((m.withUser σ).setCondition (.after n) 0) :=
      idle_setCondition (Nat.lt_succ_self n) 0
    have hidle := (hyesIdle _ (hset.agrees.flag.trans hf) (by simp)).idle
    have hall := hset.trans (hidle.mono (Nat.le_succ n))
    have hrun := hno _ (hall.agrees.flag.trans hf)
      (.of_agreesUpTo (m := m.withUser σ) hu ho hall.agrees) (by
        rw [hidle.agrees.condition (Nat.le_refl _), Machine.condition_setCondition])
    rw [hall.user] at hrun
    exact hrun.after_idle hall.agrees
  · -- after a fault both are skipped
    have hflag : (m.withUser σ).raise.flag ≠ 0 := by simp
    show Tracks n m (σ, .fault) (E.runClauses bs (E.runClauses as (m.withUser σ).raise))
    rw [E.runClauses_of_flag has hflag, E.runClauses_of_flag hbs hflag]
    exact ⟨rfl, (nomatch ·), fun _ => hflag⟩

/-- Copies of a test and a body run like a loop. -/
theorem tracks_copies {cond : Expr} (hcond : cond.Unreserved) {body : List Stmt}
    {ks : List Clause} (s : Span) (hks : ∀ k ∈ ks, E.Skips k)
    (hbody : ∀ m : Machine S, m.flag = 0 → m.Under (some (.after n)) →
      Tracks (n + 1) m (F.runStmts body m.user) (E.runClauses ks m))
    (hidle : ∀ m : Machine S, m.flag = 0 → m.condition (.after n) = 0 →
      E.Idles (n + 1) ks m) :
    ∀ (k : Nat) (m : Machine S), m.flag = 0 → m.Under (some (.after n)) →
      Tracks n m (repeatWhile (F.check cond) (F.runStmts body) k m.user)
        (E.runClauses (List.replicate k
          (Clause.setCondition probes (some (.after n)) (.after n) cond s :: ks)).flatten m) := by
  have hskip : ∀ (k : Nat), ∀ c ∈ (List.replicate k
      (Clause.setCondition probes (some (.after n)) (.after n) cond s :: ks)).flatten,
      E.Skips c := by
    intro k c hc
    rcases List.mem_cons.mp (mem_of_mem_copies hc) with rfl | hc
    · exact fun m hm => E.runClause_setCondition_of_flag hm
    · exact hks c hc
  intro k
  induction k with
  | zero => intro m _ _; exact .refl n m
  | succ k ih =>
      intro m hf hu
      rw [List.replicate_succ, List.flatten_cons, Engine.runClauses_append,
        Engine.runClauses_cons, E.runClause_setCondition hf hu, Engine.check_source hE hcond,
        repeatWhile]
      rcases F.check cond m.user with ⟨σ, _ | _ | _⟩
      · -- the test holds: the body runs, and then the rest of the copies
        have htest : Machine.AgreesUpTo n m ((m.withUser σ).setCondition (.after n) 1) :=
          Machine.agreesUpTo_setCondition (Nat.lt_succ_self n)
        have hrun := hbody ((m.withUser σ).setCondition (.after n) 1) (htest.flag.trans hf)
          (Machine.under_setCondition _ (by decide))
        refine ((hrun.mono (Nat.le_succ n)).after_idle htest).andThen ?_
          (E.runClauses_of_flag (hskip k))
        intro hdone
        have hagree := hrun.done hdone
        rw [← hrun.user]
        exact ih _ (hagree.flag.trans (htest.flag.trans hf))
          (.of_agreesUpTo (Machine.under_setCondition _ (by decide))
            (index_le_of_some_after _) hagree)
      · -- the test fails: what is left of the copies does nothing
        have htest : Idle n (m.withUser σ) ((m.withUser σ).setCondition (.after n) 0) :=
          idle_setCondition (Nat.lt_succ_self n) 0
        have hf₁ := htest.agrees.flag.trans hf
        have hrest := (hidle _ hf₁ (by simp)).idle
        have hcopies := (idles_copies E probes cond s hidle k _ (hrest.agrees.flag.trans hf₁) (by
          rw [hrest.agrees.condition (Nat.le_refl _), Machine.condition_setCondition])).idle
        have hall := htest.trans ((hrest.mono (Nat.le_succ n)).trans hcopies)
        exact ⟨hall.user, fun _ => hall.agrees, (nomatch ·)⟩
      · have hflag : (m.withUser σ).raise.flag ≠ 0 := by simp
        show Tracks n m (σ, .fault) (E.runClauses _ (E.runClauses ks (m.withUser σ).raise))
        rw [E.runClauses_of_flag hks hflag, E.runClauses_of_flag (hskip k) hflag]
        exact ⟨rfl, (nomatch ·), fun _ => hflag⟩

mutual
/-- By recursion on the statement, with the condition around it and the number of those
    handed out: the clauses of a structured statement do what the statement does. -/
theorem tracks_ofStmt : ∀ (stmt : Stmt) (around : Option ConditionId) (n : Nat) (m : Machine S),
    stmt.isStructured = true → (∀ e ∈ stmt.nodes.map Stmt.ownExpr, e.Unreserved) →
      (∀ id, around = some id → id.index ≤ n) → m.flag = 0 → m.Under around →
        Tracks n m (F.runStmt stmt m.user)
          (E.runClauses (Emitted.ofStmt probes stmt around n).clauses m)
  | .expr e, _, _, _, hs, _, _, _, _ => nomatch hs
  | .branch cond onTrue onFalse s, around, n, m, _, hown, ho, hf, hu => by
      rw [Stmt.ownExprs_branch, List.forall_mem_cons, List.forall_mem_append] at hown
      obtain ⟨hcond, htrue, hfalse⟩ := hown
      have hskip : ∀ k ∈ (Emitted.ofStmts probes onTrue [] (some (.after n)) (n + 1)).clauses,
          E.Skips k := skips_ofStmts E (absurd · (Option.some_ne_none _))
      have hyes : ∀ m : Machine S, m.flag = 0 → m.Under (some (.after n)) →
          Tracks (n + 1) m (F.runStmts onTrue m.user) (E.runClauses
            (Emitted.ofStmts probes onTrue [] (some (.after n)) (n + 1)).clauses m) :=
        fun m hf hu => tracks_ofStmts onTrue [] (some (.after n)) (n + 1) m htrue
          (List.forall_mem_nil _)
          (index_le_of_some_after _) hf hu
      have hyesIdle : ∀ m : Machine S, m.flag = 0 → m.condition (.after n) = 0 →
          E.Idles (n + 1) (Emitted.ofStmts probes onTrue [] (some (.after n)) (n + 1)).clauses m :=
        fun m hf hc => idles_ofStmts E onTrue [] (.after n) (n + 1) m (Nat.le_refl _) hf hc
      simp only [Emitted.ofStmt, Firing.runStmt]
      split
      · rename_i hempty
        rw [List.isEmpty_iff.mp hempty,
          ← List.append_nil (Emitted.ofStmts probes onTrue [] (some (.after n)) (n + 1)).clauses]
        refine tracks_branch hE hcond s ho hskip (List.forall_mem_nil _) hyes hyesIdle ?_ ?_ hf hu
        · exact fun m _ _ _ => .refl n m
        · exact fun m _ _ _ => .nil m
      · have hn := Emitted.le_allocated_ofStmts probes onTrue [] (some (.after n)) (n + 1)
        have hle := Nat.le_of_succ_le hn
        refine tracks_branch hE hcond s ho hskip ?_ hyes hyesIdle ?_ ?_ hf hu
        · intro k hk
          rcases List.mem_cons.mp hk with rfl | hk
          · exact fun m hm => E.runClause_setCondition_of_flag hm
          · exact skips_ofStmts E (absurd · (Option.some_ne_none _)) k hk
        · intro m hf hu hc
          refine tracks_otherwise s hle ?_ hf hu hc
          exact fun m hf hu => tracks_ofStmts onFalse [] (some (.after _)) _ m hfalse
            (List.forall_mem_nil _) (index_le_of_some_after _) hf hu
        · intro m hf hu hc
          refine idles_otherwise s hle ?_ hf hu hc
          exact fun m hf hc => idles_ofStmts E onFalse [] (.after _) _ m (Nat.le_refl _) hf hc
  | .loop cond maxIter body s, around, n, m, _, hown, ho, hf, hu => by
      rw [Stmt.ownExprs_loop, List.forall_mem_cons] at hown
      obtain ⟨hcond, hbody⟩ := hown
      have hstart : Machine.AgreesUpTo n m (m.setCondition (.after n) 1) :=
        Machine.agreesUpTo_setCondition (Nat.lt_succ_self n)
      simp only [Emitted.ofStmt, Firing.runStmt]
      rw [Engine.runClauses_cons, E.runClause_setCondition hf hu]
      show Tracks n m _ (E.runClauses _ (m.setCondition (.after n) 1))
      refine .after_idle hstart (tracks_copies hE hcond s ?_ ?_ ?_ _ _ (hstart.flag.trans hf)
        (Machine.under_setCondition _ (by decide)))
      · exact skips_ofStmts E (absurd · (Option.some_ne_none _))
      · intro m hf hu
        exact tracks_ofStmts body [] (some (.after n)) (n + 1) m hbody (List.forall_mem_nil _)
          (index_le_of_some_after _) hf hu
      · intro m hf hc
        exact idles_ofStmts E body [] (.after n) (n + 1) m (Nat.le_refl _) hf hc

/-- The clauses that statements are split into do what the statements do. -/
theorem tracks_ofStmts : ∀ (stmts pending : List Stmt) (around : Option ConditionId) (n : Nat)
    (m : Machine S), (∀ e ∈ Stmt.exprsOf stmts, e.Unreserved) →
      (∀ stmt ∈ pending, ∃ e : Expr, e.Unreserved ∧ stmt = .expr e) →
        (∀ id, around = some id → id.index ≤ n) → m.flag = 0 → m.Under around →
          Tracks n m (F.runStmts (pending ++ stmts) m.user)
            (E.runClauses (Emitted.ofStmts probes stmts pending around n).clauses m)
  | [], pending, around, n, m, _, hpending, _, hf, hu => by
      rw [List.append_nil]
      exact tracks_block hE hpending hf hu
  | stmt :: stmts, pending, around, n, m, hown, hpending, ho, hf, hu => by
      rw [Stmt.exprsOf_cons] at hown
      have hfirst := fun e he => hown e (List.mem_append_left _ he)
      have hrest := fun e he => hown e (List.mem_append_right _ he)
      simp only [Emitted.ofStmts]
      split
      · rename_i hstruct
        have hn := Emitted.lt_allocated_ofStmt probes hstruct around n
        have hskip : ∀ k ∈ (Emitted.ofStmts probes stmts [] around
            (Emitted.ofStmt probes stmt around n).allocated).clauses, E.Skips k :=
          skips_ofStmts E fun _ h0 => absurd (h0 ▸ hn) (Nat.not_lt_zero n)
        have hskip' : ∀ k ∈ (Emitted.ofStmt probes stmt around n).clauses, E.Skips k :=
          fun k hk => (Emitted.piece_ofStmt stmt around n hstruct k hk).skips E
        rw [Firing.runStmts_append, Engine.runClauses_append, Engine.runClauses_append]
        have hblock : Tracks n m (F.runStmts pending m.user)
          (E.runClauses (Emitted.block probes around n pending) m) := tracks_block hE hpending hf hu
        refine hblock.andThen ?_ ?_
        · intro hdone
          have hagree := hblock.done hdone
          have hstmt := tracks_ofStmt stmt around n _ hstruct hfirst ho (hagree.flag.trans hf)
            (hu.of_agreesUpTo ho hagree)
          rw [← hblock.user, Firing.runStmts_cons]
          refine hstmt.andThen ?_ (E.runClauses_of_flag hskip)
          intro hdone'
          have hagree' := hagree.trans (hstmt.done hdone')
          rw [← hstmt.user]
          exact (tracks_ofStmts stmts [] around _ _ hrest (List.forall_mem_nil _)
            (fun id hid => Nat.le_trans (ho id hid) (Nat.le_of_lt hn)) (hagree'.flag.trans hf)
            (hu.of_agreesUpTo ho hagree')).mono (Nat.le_of_lt hn)
        · intro hflag
          rw [E.runClauses_of_flag hskip' hflag, E.runClauses_of_flag hskip hflag]
      · rename_i hplain
        have hlast : ∃ e : Expr, e.Unreserved ∧ stmt = .expr e := by
          cases stmt with
          | expr e => exact ⟨e, hfirst e (by simp [Stmt.nodes, Stmt.ownExpr]), rfl⟩
          | _ => exact absurd rfl hplain
        have h := tracks_ofStmts stmts (pending ++ [stmt]) around n m hrest (fun x hx => by
          rcases List.mem_append.mp hx with hx | hx
          · exact hpending x hx
          · rw [List.mem_singleton.mp hx]; exact hlast) ho hf hu
        rwa [List.append_assoc] at h
end

/-- A split clause does what the clause does. -/
theorem tracks_split {c : Clause} (hc : c.Unreserved) (around : Option ConditionId) (n : Nat)
    {m : Machine S} (ho : ∀ id, around = some id → id.index ≤ n) (hf : m.flag = 0)
    (hu : m.Under around) :
    Tracks n m (F.runBody c m.user) (E.runClauses (c.split around n).clauses m) := by
  have hacts : ∀ e ∈ Stmt.exprsOf c.actions, e.Unreserved := fun e he =>
    hc.of_mem_exprs (List.mem_append_right _ he)
  cases hp : c.predicate with
  | none =>
      simp only [Clause.split, Firing.runBody, hp]
      exact tracks_ofStmts hE c.actions [] around n m hacts (List.forall_mem_nil _) ho hf hu
  | some p =>
      -- the predicate is a branch without an `else`
      have hpred : p.Unreserved := hc.of_mem_exprs (by
        rw [Clause.exprs, hp]
        exact List.mem_append_left _ List.mem_cons_self)
      simp only [Clause.split, Firing.runBody, hp]
      rw [← List.append_nil (Emitted.ofStmts c.probes c.actions [] _ (n + 1)).clauses]
      show Tracks n m (Verdict.choose _ _ (F.runStmts [])) _
      refine tracks_branch hE hpred p.span ho ?_ (List.forall_mem_nil _) ?_ ?_ ?_ ?_ hf hu
      · exact skips_ofStmts E (absurd · (Option.some_ne_none _))
      · intro m hf hu
        exact tracks_ofStmts hE c.actions [] (some (.after n)) (n + 1) m hacts
          (List.forall_mem_nil _)
          (index_le_of_some_after _) hf hu
      · intro m hf hc
        exact idles_ofStmts E c.actions [] (.after n) (n + 1) m (Nat.le_refl _) hf hc
      · exact fun m _ _ _ => .refl n m
      · exact fun m _ _ _ => .nil m

end Source

end ProbeLang
