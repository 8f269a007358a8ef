import ProbeLang.Proofs.Descriptions
import ProbeLang.Proofs.Expand
import ProbeLang.Proofs.Requests

/-! # How an expansion fails

    Two things can go wrong with a clause.  Something in it could not be read, or a
    counter has a target that is no probe description.  Nothing else can, and the
    first one wins wherever it stands: no target is looked at before all forms have
    been resolved.

    A target is refused if it has more components than a description has besides its
    name, three at most, so it is enough to count its colons.  The entries to the
    targets are looked at before the returns, and both have the same number of
    components; what an expansion complains about is always an entry.

    `Session.expand_outcome` says which error it is, and what is left of the session
    and of the clause. -/

namespace ProbeLang

/-! ## Results and what they report -/

/-- A computation fails with the given error, or it succeeds if there is none. -/
inductive Reports {ε α : Type} : Except ε α → Option ε → Prop where
  | ok (a : α) : Reports (.ok a) none
  | error (e : ε) : Reports (.error e) (some e)

namespace Reports

variable {ε α β : Type} {x : Except ε α} {fault : Option ε}

theorem ok_of_none (h : Reports x none) : ∃ a, x = .ok a := by
  cases h with
  | ok a => exact ⟨a, rfl⟩

theorem error_of_some {e : ε} (h : Reports x (some e)) : x = .error e := by
  cases h with
  | error => rfl

/-- A computation goes well exactly if its report names no error. -/
theorem exists_ok_iff (h : Reports x fault) : (∃ a, x = .ok a) ↔ fault = none := by
  cases h with
  | ok a => exact ⟨fun _ => rfl, fun _ => ⟨a, rfl⟩⟩
  | error e =>
      constructor
      · rintro ⟨a, ha⟩
        cases ha
      · intro hnone
        cases hnone

/-- An error that has come out is the one that was reported. -/
theorem some_of_error {e : ε} (h : Reports (.error e : Except ε α) fault) : fault = some e := by
  cases h
  rfl

theorem none_of_ok {a : α} (h : Reports (.ok a : Except ε α) fault) : fault = none := by
  cases h
  rfl

/-- What comes after a computation and cannot go wrong decides nothing. -/
theorem bind (h : Reports x fault) {f : α → Except ε β}
    (hf : ∀ a, x = .ok a → ∃ b, f a = .ok b) : Reports (x >>= f) fault := by
  cases h with
  | ok a =>
      obtain ⟨b, hb⟩ := hf a rfl
      show Reports (f a) none
      rw [hb]
      exact .ok b
  | error e => exact .error e

/-- Along a list, the first failure counts. -/
theorem mapM {f : α → Except ε β} {fault : α → Option ε} (h : ∀ x, Reports (f x) (fault x))
    (xs : List α) : Reports (xs.mapM f) (xs.findSome? fault) := by
  induction xs with
  | nil => exact .ok []
  | cons x xs ih =>
      have hx := h x
      rw [List.mapM_cons, List.findSome?_cons]
      cases hfault : fault x with
      | some e =>
          rw [hfault] at hx
          rw [hx.error_of_some]
          exact .error e
      | none =>
          rw [hfault] at hx
          obtain ⟨y, hy⟩ := hx.ok_of_none
          rw [hy]
          exact ih.bind fun ys _ => ⟨y :: ys, rfl⟩

end Reports

/-! ## Targets -/

namespace Counter

variable {c : Counter} {name target : String}

/-- Whether a target has more components than a description has besides its name. -/
def isExcessive (target : String) : Bool := decide (3 ≤ target.toList.count ':')

/-- A target with at most two colons has room for the name of a probe. -/
theorem isExcessive_eq_false_iff :
    isExcessive target = false ↔ target.toList.count ':' ≤ 2 := by
  rw [isExcessive, decide_eq_false_iff_not, Nat.not_le, Nat.lt_succ_iff]

/-- The error for the probe called `name` at a target with too many components. -/
def excess (name : String) (span : Span) (target : String) : ExpansionError :=
  .invalidProbe (target ++ ":" ++ name) span
    (.tooManyComponents (target ++ ":" ++ name) (target.toList.count ':' + 2))

/-- The error for the first of some targets with too many components, if there is one. -/
def excess? (name : String) (span : Span) (targets : List String) : Option ExpansionError :=
  (targets.find? isExcessive).map (excess name span)

/-- The first target that is refused is the one that is reported. -/
theorem excess?_cons (span : Span) (target : String) (targets : List String) :
    excess? name span (target :: targets) =
      if isExcessive target then some (excess name span target)
      else excess? name span targets := by
  rw [excess?, List.find?_cons]
  cases isExcessive target <;> rfl

/-- A target is accepted or refused by the number of its components. -/
theorem reports_targetProbe (hname : ':' ∉ name.toList) (c : Counter) (target : String) :
    Reports (c.targetProbe name target)
      (if isExcessive (Text.trim target) then some (excess name c.span (Text.trim target))
        else none) := by
  have hcount := Probe.count_concat (Text.trim target) hname
  unfold targetProbe isExcessive
  by_cases hmany : 3 ≤ (Text.trim target).toList.count ':'
  · have hread := Probe.read_of_lt (Text.trim target ++ ":" ++ name) (by omega)
    rw [hcount] at hread
    simp only [hread, hmany, decide_true, if_true]
    exact .error _
  · obtain ⟨p, hp⟩ := Probe.read_of_le (Text.trim target ++ ":" ++ name) (by omega)
    simp only [hp, hmany, decide_false, Bool.false_eq_true, if_false]
    exact .ok p

/-- Of several targets the first one that is refused is reported. -/
theorem reports_targetProbes (name : String) (hname : ':' ∉ name.toList) (c : Counter) :
    Reports (c.targetProbes name)
      (excess? name c.span ((Text.fields ',' c.targets).map Text.trim)) := by
  have hfind : ∀ targets : List String, excess? name c.span (targets.map Text.trim) =
      targets.findSome? fun t =>
        if isExcessive (Text.trim t) then some (excess name c.span (Text.trim t)) else none := by
    intro targets
    induction targets with
    | nil => rfl
    | cons t ts ih =>
        rw [List.map_cons, excess?_cons, List.findSome?_cons, ← ih]
        cases isExcessive (Text.trim t) <;> rfl
  rw [hfind]
  exact Reports.mapM (reports_targetProbe hname c) (Text.fields ',' c.targets)

/-- What is wrong with a target is found at its entry. -/
theorem reports_clauses (c : Counter) :
    Reports c.clauses (excess? "entry" c.span ((Text.fields ',' c.targets).map Text.trim)) := by
  refine (reports_targetProbes "entry" (by decide) c).bind ?_
  intro entries hentries
  have hnone : excess? "entry" c.span ((Text.fields ',' c.targets).map Text.trim) = none := by
    refine Reports.none_of_ok (a := entries) ?_
    rw [← hentries]
    exact reports_targetProbes "entry" (by decide) c
  have hreturns := reports_targetProbes "return" (by decide) c
  rw [excess?, Option.map_eq_none_iff.mp hnone, Option.map_none] at hreturns
  obtain ⟨returns, hreturns⟩ := hreturns.ok_of_none
  rw [hreturns]
  exact ⟨_, rfl⟩

end Counter

/-- The clauses of some counters report the first target that is refused of the first
    counter that has one. -/
theorem CallersClauses.reports_ofCounters (counters : List Counter) :
    Reports (ofCounters counters) (counters.findSome? fun c =>
      Counter.excess? "entry" c.span ((Text.fields ',' c.targets).map Text.trim)) := by
  refine (Reports.mapM Counter.reports_clauses counters).bind ?_
  intro pairs _
  exact ⟨⟨pairs.map Prod.fst, pairs.map Prod.snd⟩, rfl⟩

namespace Request

/-- The targets that some forms ask for, each without the blanks around it and with the
    place of its form. -/
def targets (qs : List Request) : List (String × Span) :=
  (qs.filterMap targets?).flatMap fun t =>
    (Text.fields ',' t.1).map fun target => (Text.trim target, t.2)

/-- Whether one of these targets is refused. -/
def isExcessive (t : String × Span) : Bool := Counter.isExcessive t.1

theorem isExcessive_eq_false {t : String × Span} (h : t.1.toList.count ':' < 3) :
    isExcessive t = false :=
  Counter.isExcessive_eq_false_iff.mpr (Nat.le_of_lt_succ h)

/-- The error for one of these targets. -/
def excess (t : String × Span) : ExpansionError := Counter.excess "entry" t.2 t.1

/-- The clauses of the counters that some forms ask for report the first target that is
    refused. -/
theorem reports_ofCounters (ids : Ids) (qs : List Request) :
    Reports (CallersClauses.ofCounters (counters ids qs))
      (((targets qs).find? isExcessive).map excess) := by
  have hcounters : (counters ids qs).map (fun c => (c.targets, c.span)) =
      qs.filterMap targets? := by
    refine List.ext_getElem (by simp [counters]) ?_
    intro i hi hi'
    simp [counters]
  have hfields : ∀ (text : String) (span : Span),
      (((Text.fields ',' text).map fun target => (Text.trim target, span)).find?
          isExcessive).map excess =
        Counter.excess? "entry" span ((Text.fields ',' text).map Text.trim) := by
    intro text span
    rw [Counter.excess?, List.find?_map, List.find?_map, Option.map_map, Option.map_map]
    rfl
  have hfault : ((targets qs).find? isExcessive).map excess =
      (counters ids qs).findSome? fun c =>
        Counter.excess? "entry" c.span ((Text.fields ',' c.targets).map Text.trim) := by
    rw [targets, List.find?_flatMap, List.map_findSome?, ← hcounters, List.findSome?_map]
    refine congrArg (List.findSome? · (counters ids qs)) (funext fun c => ?_)
    simp only [Function.comp_apply]
    exact hfields c.targets c.span
  rw [hfault]
  exact CallersClauses.reports_ofCounters (counters ids qs)

end Request

/-! ## Expansions -/

namespace Session

variable {s : Session} {c : Clause}

/-- A failed expansion costs numbers, and nothing else. -/
theorem session_of_expand_error {e : ExpansionError} (h : (s.expand c).result = .error e) :
    (s.expand c).session = { s with ids := (c.resolve c.allReturn s.ids).ids } := by
  cases hneeds : (c.resolve c.allReturn s.ids).needs with
  | error e =>
      unfold expand
      simp only [hneeds]
  | ok needs =>
      cases hcallers : CallersClauses.ofCounters needs.counters with
      | error e =>
          unfold expand
          simp only [hneeds, hcallers]
      | ok callers =>
          rw [(expand_ok hneeds hcallers).1] at h
          cases h

/-- How the expansion of a clause ends, if there is room for the numbers that it takes.

    If something in the clause could not be read, it fails at the first such place,
    with the numbers gone that the forms before it take; resolution has replaced
    these forms and nothing else.  If all could be read but a target has too many
    components, it fails for the first such target of the first such form, with the
    numbers of all forms gone.  Otherwise it succeeds.  A failure leaves the rest of
    the session as it was, and the numbers that are gone are the next ones. -/
theorem expand_outcome (s : Session) (c : Clause) (hroom : s.ids.RoomFor c.met) :
    (∀ before span after, c.exprNodes = before ++ .placeholder span :: after →
        (∀ x ∈ before, x.isReadable = true) →
      (s.expand c).result = .error (.unexpectedPlaceholder span) ∧
      (s.expand c).session =
        { s with ids := Request.idsAfter s.ids (Request.among c.allReturn before) } ∧
      Request.Follow s.ids (Request.among c.allReturn before) ∧
      (c.resolve c.allReturn s.ids).clause = c.substitute c.allReturn
        (Request.replacements s.ids (Request.among c.allReturn before))) ∧
    ((∀ x ∈ c.exprNodes, x.isReadable = true) →
      (∀ before target span after,
          Request.targets (c.requests c.allReturn) = before ++ (target, span) :: after →
          (∀ t ∈ before, t.1.toList.count ':' < 3) → 3 ≤ target.toList.count ':' →
        (s.expand c).result = .error (.invalidProbe (target ++ ":entry") span
          (.tooManyComponents (target ++ ":entry") (target.toList.count ':' + 2))) ∧
        (s.expand c).session =
          { s with ids := Request.idsAfter s.ids (c.requests c.allReturn) } ∧
        Request.Follow s.ids (c.requests c.allReturn)) ∧
      ((∀ t ∈ Request.targets (c.requests c.allReturn), t.1.toList.count ':' < 3) →
        ∃ out, (s.expand c).result = .ok out)) := by
  obtain ⟨hclause, hids⟩ := c.resolve_met c.allReturn s.ids
  have hfollow : Request.Follow s.ids (Request.met c.allReturn c.exprNodes) :=
    Request.follow_of_roomFor hroom
  constructor
  · intro before span after hnodes hread
    have hmet : Request.met c.allReturn c.exprNodes = Request.among c.allReturn before := by
      rw [hnodes, Request.met_append hread]
      exact List.append_nil _
    have hstop : Expr.stop? c.exprNodes = some span := by
      rw [hnodes, Expr.stop?_append, Expr.stop?_eq_none_iff.mpr hread]
      rfl
    have hfail := expand_of_needs_error (s := s) (c := c) (Clause.needs_resolve_of_stop hstop)
    rw [hmet] at hclause hids hfollow
    refine ⟨hfail, ?_, hfollow, hclause⟩
    rw [session_of_expand_error hfail, hids]
  · intro hread
    have hneeds := c.needs_resolve_of_readable c.allReturn s.ids hread
    have hreports := Request.reports_ofCounters s.ids (c.requests c.allReturn)
    rw [Request.met_of_readable hread] at hids hfollow
    constructor
    · intro before target span after htargets hbefore hmany
      have hfind : (Request.targets (c.requests c.allReturn)).find? Request.isExcessive =
          some (target, span) := by
        refine List.find?_eq_some_iff_append.mpr
          ⟨decide_eq_true hmany, before, after, htargets, ?_⟩
        intro t ht
        rw [Request.isExcessive_eq_false (hbefore t ht)]
        rfl
      rw [hfind] at hreports
      have hfail := expand_of_callers_error hneeds hreports.error_of_some
      have htext : target ++ ":" ++ "entry" = target ++ ":entry" := String.append_assoc
      refine ⟨?_, ?_, hfollow⟩
      · rw [hfail, Request.excess, Counter.excess, htext]
      · rw [session_of_expand_error hfail, hids]
        rfl
    · intro hfew
      have hfind : (Request.targets (c.requests c.allReturn)).find? Request.isExcessive =
          none := by
        refine List.find?_eq_none.mpr fun t ht => ?_
        rw [Request.isExcessive_eq_false (hfew t ht)]
        exact Bool.false_ne_true
      rw [hfind] at hreports
      obtain ⟨callers, hcallers⟩ := hreports.ok_of_none
      exact ⟨_, (expand_ok hneeds hcallers).1⟩

/-- A target that would be refused stands before a place that could not be read; without
    that place the second target of the first counter is refused; without that target
    the clause is expanded.  One group and two counters are left. -/
theorem expand_outcome_three_ways :
    let s : Session :=
      ⟨.experimentalOn, ⟨"dtrace", "", "", "ERROR"⟩, ⟨4294967294, 4294967293⟩, false⟩
    let pos (n : UInt32) : Span := ⟨0, n, n + 1, 1⟩
    let entry : Expr := .binary .ptr (.ident "entry" (pos 1)) (.ident "arg0" (pos 2)) (pos 3)
    let callers (targets : String) (n : UInt32) : Expr :=
      .index (.ident "callers" (pos n)) [.str targets (pos (n + 1))] (pos (n + 2))
    let trace (args : List Expr) : Clause :=
      ⟨[⟨"fbt", "", "f", "return"⟩], none, [.expr (.call "trace" args (pos 0))], pos 0⟩
    let broken := trace [entry, callers "a:b:c:d" 10, .placeholder (pos 20), callers "g" 30]
    let refused := trace [entry, callers "g , a:b:c:d\t,p:q:r:s:t" 10, callers "::::" 30]
    let fine := trace [entry, callers "g, a:b:c" 10]
    s.ids.RoomFor broken.met ∧ s.ids.RoomFor refused.met ∧ s.ids.RoomFor fine.met ∧
      (s.expand broken).result = .error (.unexpectedPlaceholder (pos 20)) ∧
      (s.expand broken).session = { s with ids := ⟨4294967295, 4294967294⟩ } ∧
      (broken.resolve broken.allReturn s.ids).clause =
        trace [(Slot.entry (.arg 0) 4294967295).expr (pos 3),
          (Slot.callers 4294967294).expr (pos 12), .placeholder (pos 20), callers "g" 30] ∧
      (s.expand refused).result = .error (.invalidProbe "a:b:c:d:entry" (pos 12)
        (.tooManyComponents "a:b:c:d:entry" 5)) ∧
      (s.expand refused).session = { s with ids := ⟨4294967295, 4294967295⟩ } ∧
      ∃ out, (s.expand fine).result = .ok out := by
  intro s pos entry callers trace broken refused fine
  have hbroken : s.ids.RoomFor broken.met := by decide +kernel
  have hexcess : s.ids.RoomFor refused.met := by decide +kernel
  have hfine : s.ids.RoomFor fine.met := by decide +kernel
  obtain ⟨hstop, hstopIds, -, hkept⟩ := (s.expand_outcome broken hbroken).1
    [.call "trace" [entry, callers "a:b:c:d" 10, .placeholder (pos 20), callers "g" 30] (pos 0),
      entry, .ident "entry" (pos 1), .ident "arg0" (pos 2), callers "a:b:c:d" 10,
      .ident "callers" (pos 10), .str "a:b:c:d" (pos 11)]
    (pos 20) (callers "g" 30).nodes rfl (by decide +kernel)
  obtain ⟨hrefused, hrefusedIds, -⟩ := ((s.expand_outcome refused hexcess).2 (by decide +kernel)).1
    [("g", pos 12)] "a:b:c:d" (pos 12) [("p:q:r:s:t", pos 12), ("::::", pos 32)]
    (by decide +kernel) (by decide +kernel) (by decide +kernel)
  refine ⟨hbroken, hexcess, hfine, hstop, hstopIds, hkept, hrefused, hrefusedIds, ?_⟩
  exact ((s.expand_outcome fine hfine).2 (by decide +kernel)).2 (by decide +kernel)

end Session

end ProbeLang
