import ProbeLang.Proofs.Engine
import ProbeLang.Proofs.Expand

/-! # Counters count the calls that are open

    A thread enters routines and returns from them, and the two clauses of a counter
    run where their probes match.  The descriptions of entries and of returns are read
    from the targets one by one, and each time they come to the same routines
    (`Counter.fires_iff`), so a call that is counted up is counted down again.

    One entry adds one if the routine is a target, and one return takes one away if
    there is one (`Counter.count_enter`, `Counter.count_leave`).  Over a whole history
    the counter is the number of open calls of targets. -/

namespace ProbeLang

variable {S : Type}

/-! ## Routines and targets -/

/-- A routine that can be traced. -/
structure Routine where
  provider : String
  module : String
  function : String
deriving DecidableEq

/-- The probe called `name` at a routine. -/
def Routine.probe (r : Routine) (name : String) : Probe :=
  ⟨r.provider, r.module, r.function, name⟩

namespace Probe

/-- An empty component admits everything, and another one itself only. -/
def Admits (component actual : String) : Prop := component = "" ∨ component = actual

instance (component actual : String) : Decidable (Admits component actual) :=
  inferInstanceAs (Decidable (_ ∨ _))

/-- A description matches a probe if each component admits that of the probe. -/
def Matches (d p : Probe) : Prop :=
  Admits d.provider p.provider ∧ Admits d.module p.module ∧ Admits d.function p.function ∧
    Admits d.name p.name

instance (d p : Probe) : Decidable (d.Matches p) := inferInstanceAs (Decidable (_ ∧ _))

end Probe

/-- A clause runs at a probe that one of its descriptions matches. -/
def Clause.FiresAt (k : Clause) (p : Probe) : Prop := ∃ d ∈ k.probes, d.Matches p

instance (k : Clause) (p : Probe) : Decidable (k.FiresAt p) :=
  inferInstanceAs (Decidable (∃ d ∈ k.probes, _))

/-- A target gives the function, before it the module and before that the provider;
    what it leaves out or leaves empty may be anything. -/
def Routine.IsAt (r : Routine) (target : String) : Prop :=
  ∀ pair ∈ (Text.fields ':' (Text.trim target)).reverse.zip [r.function, r.module, r.provider],
    Probe.Admits pair.1 pair.2

instance (r : Routine) (target : String) : Decidable (r.IsAt target) :=
  inferInstanceAs (Decidable (∀ pair ∈ _, _))

/-- The routines that a counter is about. -/
def Counter.Counts (c : Counter) (r : Routine) : Prop :=
  ∃ target ∈ Text.fields ',' c.targets, r.IsAt target

instance (c : Counter) (r : Routine) : Decidable (c.Counts r) :=
  inferInstanceAs (Decidable (∃ target ∈ _, _))

/-! ## Where the clauses of a counter run -/

/-- A description that ends in a name is one of a routine and the name. -/
theorem Probe.matches_of_ofComponents? {components : List String} {name name' : String}
    {d : Probe} (h : ofComponents? (components ++ [name]) = some d) (r : Routine) :
    d.Matches (r.probe name') ↔ Admits name name' ∧
      ∀ pair ∈ components.reverse.zip [r.function, r.module, r.provider],
        Admits pair.1 pair.2 := by
  have hempty : ∀ actual, Admits "" actual := fun _ => Or.inl rfl
  -- a description has up to three components before its name
  rcases components with _ | ⟨a, _ | ⟨b, _ | ⟨c, _ | ⟨e, rest⟩⟩⟩⟩
  · obtain rfl := Option.some.inj h
    simp [Matches, Routine.probe, hempty]
  · obtain rfl := Option.some.inj h
    simp [Matches, Routine.probe, hempty, and_comm]
  · obtain rfl := Option.some.inj h
    simp [Matches, Routine.probe, hempty, and_comm, and_left_comm]
  · obtain rfl := Option.some.inj h
    simp [Matches, Routine.probe, and_comm, and_left_comm, and_assoc]
  · cases rest <;> cases h

namespace Counter

variable {c : Counter} {name : String} {probes : List Probe}

/-- What is read of a target is its components and the name. -/
theorem of_targetProbe_ok {target : String} {d : Probe} (hname : ':' ∉ name.toList)
    (h : c.targetProbe name target = .ok d) :
    Probe.ofComponents? (Text.fields ':' (Text.trim target) ++ [name]) = some d := by
  have hfields : Text.fields ':' (Text.trim target ++ ":" ++ name) =
      Text.fields ':' (Text.trim target) ++ [name] := by
    rw [← Text.fields_of_not_mem hname]
    exact Text.fields_append ':' (Text.trim target) name
  rw [← hfields]
  unfold targetProbe Probe.read at h
  cases hread : Probe.ofComponents? (Text.fields ':' (Text.trim target ++ ":" ++ name)) with
  | none =>
      simp only [hread] at h
      cases h
  | some p =>
      simp only [hread] at h
      exact congrArg some (Except.ok.inj h)

/-- The probes read from the targets of a counter match the routines it is about, with
    the name that was added. -/
theorem fires_iff (hname : ':' ∉ name.toList) (h : c.targetProbes name = .ok probes)
    (r : Routine) (name' : String) :
    (∃ d ∈ probes, d.Matches (r.probe name')) ↔ Probe.Admits name name' ∧ c.Counts r := by
  have hprobes := of_mapM_ok h
  constructor
  · rintro ⟨d, hd, hmatches⟩
    have hok : Except.ok d ∈ (Text.fields ',' c.targets).map (c.targetProbe name) :=
      hprobes ▸ List.mem_map_of_mem hd
    obtain ⟨target, htarget, hread⟩ := List.mem_map.mp hok
    have hboth := (Probe.matches_of_ofComponents? (of_targetProbe_ok hname hread) r).mp hmatches
    exact ⟨hboth.1, target, htarget, hboth.2⟩
  · rintro ⟨hadmits, target, htarget, hat⟩
    have hmem : c.targetProbe name target ∈ probes.map .ok :=
      hprobes ▸ List.mem_map_of_mem htarget
    obtain ⟨d, hd, hread⟩ := List.mem_map.mp hmem
    exact ⟨d, hd, (Probe.matches_of_ofComponents? (of_targetProbe_ok hname hread.symm) r).mpr
      ⟨hadmits, hat⟩⟩

end Counter

/-! ## Passages -/

/-- What a thread does that the clauses of a counter can see. -/
inductive Passage (S : Type) where
  | enter (engine : Engine S) (r : Routine)
  | leave (engine : Engine S) (r : Routine)

/-- The passages of one thread, and the calls that are open after them, the latest
    first.  A return closes the latest open call of the same routine.  One of a call
    whose entry was not seen comes only while none is open. -/
inductive Opens : List (Passage S) → List Routine → Prop where
  | start : Opens [] []
  | enter {history : List (Passage S)} {calls : List Routine} (E : Engine S) (r : Routine) :
      Opens history calls → Opens (history ++ [.enter E r]) (r :: calls)
  | leave {history : List (Passage S)} {calls : List Routine} (E : Engine S) {r : Routine} :
      Opens history calls → r ∈ calls → Opens (history ++ [.leave E r]) (calls.erase r)
  | stray {history : List (Passage S)} (E : Engine S) (r : Routine) :
      Opens history [] → Opens (history ++ [.leave E r]) []

namespace Passage

/-- The probe of a passage. -/
def probe : Passage S → Probe
  | enter _ r => r.probe "entry"
  | leave _ r => r.probe "return"

/-- What the engine has at hand at a passage. -/
def engine : Passage S → Engine S
  | enter E _ => E
  | leave E _ => E

/-- Runs each of some clauses that the passage fires, once and in their order. -/
def react (cs : List Clause) (m : Machine S) (v : Passage S) : Machine S :=
  v.engine.runClauses (cs.filter fun k => k.FiresAt v.probe) m

/-- Runs some clauses along a history. -/
def follow (cs : List Clause) (history : List (Passage S)) (m : Machine S) : Machine S :=
  history.foldl (react cs) m

/-- One more event is reacted to after all others. -/
theorem follow_append_singleton (cs : List Clause) (history : List (Passage S)) (v : Passage S)
    (m : Machine S) : follow cs (history ++ [v]) m = react cs (follow cs history m) v := by
  rw [follow, List.foldl_append]
  rfl

end Passage

/-! ## One passage -/

/-- The value of a counter. -/
def Machine.count (m : Machine S) (c : Counter) : Int := m.read 0 (.callers c.id)

namespace Engine

variable (E : Engine S) (c : Counter) (probes : List Probe) (m : Machine S)

/-- Entering a target counts up, whatever the count was. -/
theorem count_increment : (E.runClause (c.increment probes) m).count c = m.count c + 1 := by
  show (settle (Outcome.andThen (E.perform (.unary .preInc (c.slot c.span) c.span) m)
    (E.performAll []))).count c = _
  rw [perform, Counter.slot, Slot.cell?_expr]
  exact m.slots_write_self _ _

/-- A counter at zero stays there, since its guard does not hold. -/
theorem count_decrement : (E.runClause (c.decrement probes) m).count c =
    if m.count c = 0 then 0 else m.count c - 1 := by
  have hcheck : E.check (c.slot c.span) m = (m, .ofBool (m.count c != 0)) :=
    E.check_of_stored (Slot.stored?_expr (.callers c.id) c.span E.depth m.slots)
  show (settle (Verdict.choose (E.check (c.slot c.span) m)
    (E.performAll [.expr (.unary .preDec (c.slot c.span) c.span)]) fun m => (m, .done))).count c = _
  rw [hcheck]
  by_cases hzero : m.count c = 0
  · rw [if_pos hzero, hzero]
    exact hzero
  · rw [if_neg hzero, bne_iff_ne.mpr hzero]
    show (settle (Outcome.andThen (E.perform (.unary .preDec (c.slot c.span) c.span) m)
      (E.performAll []))).count c = _
    rw [perform, Counter.slot, Slot.cell?_expr]
    exact m.slots_write_self _ _

end Engine

namespace Counter

variable {c : Counter} {up down : Clause}

/-- The clause that counts up runs at entries of targets, and the one that counts down
    at their returns. -/
theorem fires_of_clauses_ok (h : c.clauses = .ok (up, down)) (r : Routine) :
    (up.FiresAt (r.probe "entry") ↔ c.Counts r) ∧ ¬ up.FiresAt (r.probe "return") ∧
      (down.FiresAt (r.probe "return") ↔ c.Counts r) ∧ ¬ down.FiresAt (r.probe "entry") := by
  obtain ⟨entries, returns, hentries, hreturns, heq⟩ := of_clauses_ok h
  obtain ⟨rfl, rfl⟩ := Prod.mk.inj heq
  have hup := fires_iff (by decide) hentries r
  have hdown := fires_iff (by decide) hreturns r
  refine ⟨(hup "entry").trans ?_, fun hfires => ?_, (hdown "return").trans ?_, fun hfires => ?_⟩
  · exact and_iff_right (Or.inr rfl)
  · exact absurd ((hup "return").mp hfires).1 (by decide)
  · exact and_iff_right (Or.inr rfl)
  · exact absurd ((hdown "entry").mp hfires).1 (by decide)

/-- At an entry only the clause that counts up can fire, and it does so exactly for
    targets, once however many tokens match. -/
theorem react_enter (h : c.clauses = .ok (up, down)) (E : Engine S) (r : Routine)
    (m : Machine S) :
    (Passage.enter E r).react [up, down] m = if c.Counts r then E.runClause up m else m := by
  obtain ⟨hup, -, -, hdown⟩ := fires_of_clauses_ok h r
  show E.runClauses ([up, down].filter fun k => k.FiresAt (r.probe "entry")) m = _
  by_cases hcounts : c.Counts r <;> simp [hup, hdown, hcounts]

/-- At a return only the clause that counts down can fire. -/
theorem react_leave (h : c.clauses = .ok (up, down)) (E : Engine S) (r : Routine)
    (m : Machine S) :
    (Passage.leave E r).react [up, down] m = if c.Counts r then E.runClause down m else m := by
  obtain ⟨-, hup, hdown, -⟩ := fires_of_clauses_ok h r
  show E.runClauses ([up, down].filter fun k => k.FiresAt (r.probe "return")) m = _
  by_cases hcounts : c.Counts r <;> simp [hup, hdown, hcounts]

/-- An entry adds one if the routine is a target. -/
theorem count_enter (h : c.clauses = .ok (up, down)) (E : Engine S) (r : Routine)
    (m : Machine S) :
    ((Passage.enter E r).react [up, down] m).count c =
      if c.Counts r then m.count c + 1 else m.count c := by
  obtain ⟨entries, returns, -, -, heq⟩ := of_clauses_ok h
  rw [react_enter h, (Prod.mk.inj heq).1]
  by_cases hcounts : c.Counts r
  · rw [if_pos hcounts, if_pos hcounts]
    exact E.count_increment c entries m
  · rw [if_neg hcounts, if_neg hcounts]

/-- A return takes one away if the routine is a target and there is one. -/
theorem count_leave (h : c.clauses = .ok (up, down)) (E : Engine S) (r : Routine)
    (m : Machine S) :
    ((Passage.leave E r).react [up, down] m).count c =
      if c.Counts r ∧ m.count c ≠ 0 then m.count c - 1 else m.count c := by
  obtain ⟨entries, returns, -, -, heq⟩ := of_clauses_ok h
  rw [react_leave h, (Prod.mk.inj heq).2]
  by_cases hcounts : c.Counts r
  · rw [if_pos hcounts, E.count_decrement c returns m]
    by_cases hzero : m.count c = 0
    · rw [if_pos hzero, if_neg fun hboth => hboth.2 hzero, hzero]
    · rw [if_neg hzero, if_pos ⟨hcounts, hzero⟩]
  · rw [if_neg hcounts, if_neg fun hboth => hcounts hboth.1]

/-! ## Whole histories -/

variable {history : List (Passage S)} {calls : List Routine} {m : Machine S}

/-- The number of open calls of targets. -/
def openCalls (c : Counter) (calls : List Routine) : Nat := calls.countP fun r => c.Counts r

/-- An open call of a target adds one. -/
theorem openCalls_cons (c : Counter) (r : Routine) (calls : List Routine) :
    c.openCalls (r :: calls) = if c.Counts r then c.openCalls calls + 1 else c.openCalls calls := by
  by_cases hcounts : c.Counts r
  · rw [if_pos hcounts]
    exact List.countP_cons_of_pos (decide_eq_true hcounts)
  · rw [if_neg hcounts]
    exact List.countP_cons_of_neg (by simpa using hcounts)

/-- An open call can be taken to be the latest one. -/
theorem openCalls_erase {r : Routine} (h : r ∈ calls) :
    c.openCalls calls = c.openCalls (r :: calls.erase r) :=
  (List.perm_cons_erase h).countP_eq _

/-- From zero, by induction on how the calls are opened and closed: the counter is the
    number of open calls of targets. -/
theorem count_follow (h : c.clauses = .ok (up, down)) (hm : m.count c = 0)
    (hopens : Opens history calls) :
    (Passage.follow [up, down] history m).count c = c.openCalls calls := by
  induction hopens with
  | start => exact hm
  | enter E r _ ih =>
      rw [Passage.follow_append_singleton, count_enter h, ih, openCalls_cons]
      by_cases hcounts : c.Counts r
      · rw [if_pos hcounts, if_pos hcounts, Int.natCast_succ]
      · rw [if_neg hcounts, if_neg hcounts]
  | @leave _ _ E r _ hr ih =>
      rw [Passage.follow_append_singleton, count_leave h, ih, openCalls_erase hr, openCalls_cons]
      by_cases hcounts : c.Counts r
      · -- the call that is closed was counted, so the counter is not zero
        rw [if_pos hcounts, if_pos ⟨hcounts, by omega⟩]
        omega
      · rw [if_neg hcounts, if_neg fun hboth => hcounts hboth.1]
  | stray E r _ ih =>
      -- with no call open the counter is zero, and stays so
      rw [Passage.follow_append_singleton, count_leave h, ih, if_neg fun hboth => hboth.2 rfl]

/-- No passage takes a counter below zero. -/
theorem count_react_nonneg (h : c.clauses = .ok (up, down)) (hm : 0 ≤ m.count c)
    (v : Passage S) : 0 ≤ (v.react [up, down] m).count c := by
  cases v with
  | enter E r =>
      rw [count_enter h]
      split <;> omega
  | leave E r =>
      rw [count_leave h]
      split <;> omega

/-- By induction on the history, also with returns that belong to no call: the counter
    does not fall below zero. -/
theorem count_follow_nonneg (h : c.clauses = .ok (up, down)) (hm : 0 ≤ m.count c)
    (history : List (Passage S)) : 0 ≤ (Passage.follow [up, down] history m).count c := by
  induction history generalizing m with
  | nil => exact hm
  | cons v history ih => exact ih (count_react_nonneg h hm v)

end Counter

namespace CallersClauses

/-- Each counter has two clauses, at its place among the clauses that keep counters.
    If they run along a history of nested calls, starting from zero, the counter is the
    number of open calls whose routines match some target; along no history at all does
    it go below zero. -/
theorem count_eq_openCalls {counters : List Counter} {callers : CallersClauses} {i : Nat}
    {c : Counter} (h : ofCounters counters = .ok callers) (hc : counters[i]? = some c) :
    ∃ up down, callers.increments[i]? = some up ∧ callers.decrements[i]? = some down ∧
      ∀ {S : Type} {m : Machine S}, m.count c = 0 →
        (∀ history calls, Opens history calls →
          (Passage.follow [up, down] history m).count c = c.openCalls calls) ∧
        ∀ history, 0 ≤ (Passage.follow [up, down] history m).count c := by
  obtain ⟨pairs, hpairs, h⟩ := of_bind_ok h
  obtain rfl := Except.ok.inj h
  have hclauses : (pairs.map Except.ok)[i]? = some c.clauses := by
    rw [← of_mapM_ok hpairs, List.getElem?_map, hc, Option.map_some]
  rw [List.getElem?_map] at hclauses
  obtain ⟨⟨up, down⟩, hpair, hok⟩ := Option.map_eq_some_iff.mp hclauses
  refine ⟨up, down, ?_, ?_, ?_⟩
  · rw [List.getElem?_map, hpair, Option.map_some]
  · rw [List.getElem?_map, hpair, Option.map_some]
  · intro S m hm
    refine ⟨fun history calls hopens => ?_, fun history => ?_⟩
    · exact Counter.count_follow hok.symm hm hopens
    · exact Counter.count_follow_nonneg hok.symm (Int.le_of_eq hm.symm) history

/-- Two targets that overlap, a routine that is no target, a call made from another one
    of the same routine, and a return without an entry. -/
theorem count_eq_openCalls_two :
    let c : Counter := ⟨5, "open, :zfs:", .nowhere⟩
    let counters : List Counter := [⟨4, "syscall::read", .nowhere⟩, c]
    let r : Routine := ⟨"fbt", "zfs", "open"⟩
    let idle : Routine := ⟨"fbt", "ufs", "read"⟩
    let system : Routine := ⟨"syscall", "", "open"⟩
    let E : Engine Nat :=
      ⟨1, fun _ => none, fun _ => none, fun _ _ n => (n + 1, .done), fun _ _ n => (n, .holds)⟩
    let m : Machine Nat := ⟨0, fun _ => 0⟩
    let history : List (Passage Nat) :=
      [.leave E r, .enter E r, .enter E idle, .enter E r, .enter E system, .leave E r]
    ∃ callers up down, ofCounters counters = .ok callers ∧ counters[1]? = some c ∧
      callers.increments[1]? = some up ∧ callers.decrements[1]? = some down ∧
      Opens history [system, idle, r] ∧ m.count c = 0 ∧
      (Passage.follow [up, down] history m).count c = 2 ∧
      0 ≤ (Passage.follow [up, down] (.leave E r :: history.reverse) m).count c := by
  intro c counters r idle system E m history
  have hisOk : (ofCounters counters).isOk = true := by decide +kernel
  cases hok : ofCounters counters with
  | error e =>
      rw [hok] at hisOk
      cases hisOk
  | ok callers =>
      obtain ⟨up, down, hup, hdown, hcount⟩ := count_eq_openCalls hok (i := 1) rfl
      have hopens : Opens history [system, idle, r] :=
        .leave E (.enter E system (.enter E r (.enter E idle (.enter E r (.stray E r .start)))))
          (by decide)
      have htwo : c.openCalls [system, idle, r] = 2 := by decide +kernel
      refine ⟨callers, up, down, rfl, rfl, hup, hdown, hopens, rfl, ?_, (hcount rfl).2 _⟩
      exact ((hcount rfl).1 history _ hopens).trans (congrArg _ htwo)

end CallersClauses

end ProbeLang
