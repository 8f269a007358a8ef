import ProbeLang.Proofs.Failure

/-! # The two clauses of a counter

    A counter goes up at the entries to its targets and down at the returns from
    them.  The two lists of probes are read one after the other, but a target that is
    a description with one name is one with any other, so the second list is the
    first one with other names (`Counter.clauses_eq_map`): reading it never fails, and
    each entry has its return.

    What the two clauses of a counter have to do with each other is `Counter.Pair`.
    `CallersClauses.ofCounters_pairs` says it of a whole list of counters, and which
    target is to blame if there are no clauses at all. -/

namespace ProbeLang

namespace Counter

variable {c : Counter} {name name' target : String} {p : Probe} {probes : List Probe}

/-- The targets, each without the blanks around it. -/
def tokens (c : Counter) : List String := (Text.fields ',' c.targets).map Text.trim

/-- A target is read with the name of the event put behind it. -/
theorem targetProbe_eq_ok_iff :
    c.targetProbe name target = .ok p ↔ Probe.read (Text.trim target ++ ":" ++ name) = .ok p := by
  cases hread : Probe.read (Text.trim target ++ ":" ++ name) with
  | ok q => simp only [targetProbe, hread, Except.ok.injEq]
  | error cause => simp only [targetProbe, hread, reduceCtorEq]

/-! ## One target -/

/-- A target that is a description with one name is one with any other. -/
theorem targetProbe_withName (hname : ':' ∉ name.toList) (hname' : ':' ∉ name'.toList)
    (h : c.targetProbe name target = .ok p) :
    c.targetProbe name' target = .ok (p.withName name') := by
  rw [targetProbe_eq_ok_iff] at h ⊢
  exact (Probe.read_concat hname hname' h).2

/-- The probe of a target has the name of the event. -/
theorem name_of_targetProbe (hname : ':' ∉ name.toList) (h : c.targetProbe name target = .ok p) :
    p.name = name :=
  (Probe.read_concat hname hname (targetProbe_eq_ok_iff.mp h)).1

/-- The probe at a target is printed as the target and the name, in full. -/
theorem text_of_targetProbe (h : c.targetProbe name target = .ok p) :
    p.text = Probe.padded (Text.trim target ++ ":" ++ name) :=
  Probe.text_of_read (targetProbe_eq_ok_iff.mp h)

/-! ## All targets of a counter -/

/-- The probes with another name are the same ones but for it. -/
theorem targetProbes_withName (hname : ':' ∉ name.toList) (hname' : ':' ∉ name'.toList)
    (h : c.targetProbes name = .ok probes) :
    c.targetProbes name' = .ok (probes.map (·.withName name')) := by
  have hprobes : probes.map (fun p => .ok (p.withName name')) =
      (Text.fields ',' c.targets).map (c.targetProbe name') :=
    map_of_mapM_ok (fun _ _ hp => (targetProbe_withName hname hname' hp).symm) h
  refine mapM_ok_of_map ?_
  rw [List.map_map]
  exact hprobes.symm

/-- The probes of a counter are those of its targets, in order, with what was left out
    filled in. -/
theorem text_of_targetProbes (h : c.targetProbes name = .ok probes) :
    probes.map Probe.text = c.tokens.map fun token => Probe.padded (token ++ ":" ++ name) := by
  rw [tokens, List.map_map]
  exact map_of_mapM_ok (fun _ _ => text_of_targetProbe) h

/-- All of them have the name of the event. -/
theorem name_of_mem_targetProbes (hname : ':' ∉ name.toList)
    (h : c.targetProbes name = .ok probes) : ∀ p ∈ probes, p.name = name := by
  have hnames : probes.map Probe.name = (Text.fields ',' c.targets).map fun _ => name :=
    map_of_mapM_ok (fun _ _ => name_of_targetProbe hname) h
  intro p hp
  have hmem : p.name ∈ (Text.fields ',' c.targets).map fun _ => name :=
    hnames ▸ List.mem_map_of_mem hp
  obtain ⟨_, _, heq⟩ := List.mem_map.mp hmem
  exact heq.symm

/-- There is one for each target. -/
theorem length_targetProbes (h : c.targetProbes name = .ok probes) :
    probes.length = c.targets.toList.count ',' + 1 := by
  have hlength := congrArg List.length (of_mapM_ok h)
  rw [List.length_map, List.length_map, Text.length_fields] at hlength
  exact hlength.symm

/-! ## The clauses of a counter -/

/-- The returns are never looked at in vain: they are the entries with another name. -/
theorem clauses_eq_map (c : Counter) :
    c.clauses = (c.targetProbes "entry").map fun entries =>
      (c.increment entries, c.decrement (entries.map (·.withName "return"))) := by
  cases hentries : c.targetProbes "entry" with
  | error e =>
      simp only [clauses, hentries]
      rfl
  | ok entries =>
      have hreturns : c.targetProbes "return" = .ok (entries.map (·.withName "return")) :=
        targetProbes_withName (by decide) (by decide) hentries
      simp only [clauses, hentries, hreturns]
      rfl

/-- The clauses that count a counter up and down. -/
structure Pair (c : Counter) (up down : Clause) : Prop where
  countsUp : up = c.increment up.probes
  countsDown : down = c.decrement down.probes
  /-- Neither speaks of another slot. -/
  slot : ∀ k, k = up ∨ k = down →
    ∀ name, name ∈ k.reservedNames ↔ name = (Slot.callers c.id).name
  /-- There is a probe for each target. -/
  length : up.probes.length = c.targets.toList.count ',' + 1
  entries : ∀ p ∈ up.probes, p.name = "entry"
  returns : down.probes = up.probes.map (·.withName "return")
  /-- The probes are those of the targets. -/
  texts : up.probes.map Probe.text = c.tokens.map fun token => Probe.padded (token ++ ":entry")

/-- The two clauses of a counter that can be made are the pair that is asked for. -/
theorem pair_of_clauses_ok {up down : Clause} (h : c.clauses = .ok (up, down)) :
    c.Pair up down := by
  rw [clauses_eq_map] at h
  cases hentries : c.targetProbes "entry" with
  | error e =>
      rw [hentries] at h
      cases h
  | ok entries =>
      rw [hentries] at h
      obtain ⟨rfl, rfl⟩ := Prod.mk.inj (Except.ok.inj h)
      refine ⟨rfl, rfl, ?_, length_targetProbes hentries,
        name_of_mem_targetProbes (by decide) hentries, rfl, ?_⟩
      · rintro k (rfl | rfl) name
        · rw [reservedNames_increment, List.mem_singleton]
        · rw [reservedNames_decrement, List.mem_cons, List.mem_singleton, or_self]
      · have htexts := text_of_targetProbes hentries
        simp only [String.append_assoc] at htexts
        exact htexts

/-! ## Targets to blame -/

/-- No target is refused exactly if none has too many colons. -/
theorem excess?_eq_none_iff {span : Span} {targets : List String} :
    excess? name span targets = none ↔ ∀ token ∈ targets, token.toList.count ':' ≤ 2 := by
  rw [excess?, Option.map_eq_none_iff, List.find?_eq_none]
  refine forall₂_congr fun token _ => ?_
  rw [Bool.not_eq_true, isExcessive_eq_false_iff]

/-- The one that is reported is the first with too many colons; all before it would do. -/
theorem excess?_eq_some {span : Span} {targets : List String} {e : ExpansionError}
    (h : excess? name span targets = some e) :
    ∃ front token rest, targets = front ++ token :: rest ∧
      (∀ t ∈ front, t.toList.count ':' ≤ 2) ∧ 2 < token.toList.count ':' ∧
      e = excess name span token := by
  obtain ⟨token, hfind, rfl⟩ := Option.map_eq_some_iff.mp h
  obtain ⟨hmany, front, rest, heq, hfront⟩ := List.find?_eq_some_iff_append.mp hfind
  refine ⟨front, token, rest, heq, ?_, of_decide_eq_true hmany, rfl⟩
  intro t ht
  exact isExcessive_eq_false_iff.mp (by simpa using hfront t ht)

end Counter

/-! ## Lists of counters -/

namespace CallersClauses

variable {counters : List Counter} {callers : CallersClauses}

/-- The clauses of each counter stand at its place. -/
theorem clauses_at (h : ofCounters counters = .ok callers) :
    callers.increments.length = counters.length ∧ callers.decrements.length = counters.length ∧
      ∀ (i : Nat) (c : Counter), counters[i]? = some c → ∃ up down, c.clauses = .ok (up, down) ∧
        callers.increments[i]? = some up ∧ callers.decrements[i]? = some down := by
  obtain ⟨pairs, hpairs, h⟩ := of_bind_ok h
  obtain rfl := Except.ok.inj h
  have hclauses := of_mapM_ok hpairs
  have hlength := congrArg List.length hclauses
  rw [List.length_map, List.length_map] at hlength
  refine ⟨?_, ?_, ?_⟩
  · rw [List.length_map, hlength]
  · rw [List.length_map, hlength]
  · intro i c hc
    have hok : (pairs.map Except.ok)[i]? = some c.clauses := by
      rw [← hclauses, List.getElem?_map, hc, Option.map_some]
    rw [List.getElem?_map] at hok
    obtain ⟨⟨up, down⟩, hpair, hok⟩ := Option.map_eq_some_iff.mp hok
    refine ⟨up, down, hok.symm, ?_, ?_⟩
    · rw [List.getElem?_map, hpair, Option.map_some]
    · rw [List.getElem?_map, hpair, Option.map_some]

/-- When there are clauses for some counters, and what they are.

    There are if no target has more than two colons.  Then each counter has two clauses
    at its place, which belong together.  If there are none, the first target with more
    colons of the first counter that has one is to blame, and it is always reported as
    an entry. -/
theorem ofCounters_pairs (counters : List Counter) :
    ((∃ callers, ofCounters counters = .ok callers) ↔
      ∀ c ∈ counters, ∀ token ∈ c.tokens, token.toList.count ':' ≤ 2) ∧
    (∀ callers, ofCounters counters = .ok callers →
      callers.increments.length = counters.length ∧ callers.decrements.length = counters.length ∧
      ∀ (i : Nat) (c : Counter), counters[i]? = some c → ∃ up down,
        callers.increments[i]? = some up ∧ callers.decrements[i]? = some down ∧
        c.Pair up down) ∧
    ∀ e, ofCounters counters = .error e →
      ∃ before c after front token rest, counters = before ++ c :: after ∧
        (∀ b ∈ before, ∀ t ∈ b.tokens, t.toList.count ':' ≤ 2) ∧
        c.tokens = front ++ token :: rest ∧ (∀ t ∈ front, t.toList.count ':' ≤ 2) ∧
        2 < token.toList.count ':' ∧
        e = .invalidProbe (token ++ ":entry") c.span
          (.tooManyComponents (token ++ ":entry") (token.toList.count ':' + 2)) := by
  have hreports := reports_ofCounters counters
  refine ⟨?_, ?_, ?_⟩
  · rw [hreports.exists_ok_iff, List.findSome?_eq_none_iff]
    exact forall₂_congr fun c _ => Counter.excess?_eq_none_iff
  · intro callers h
    obtain ⟨hup, hdown, hat⟩ := clauses_at h
    refine ⟨hup, hdown, fun i c hc => ?_⟩
    obtain ⟨up, down, hclauses, hi, hi'⟩ := hat i c hc
    exact ⟨up, down, hi, hi', Counter.pair_of_clauses_ok hclauses⟩
  · intro e h
    rw [h] at hreports
    obtain ⟨before, c, after, heq, hexcess, hbefore⟩ :=
      List.findSome?_eq_some_iff.mp hreports.some_of_error
    obtain ⟨front, token, rest, htokens, hfront, hmany, rfl⟩ := Counter.excess?_eq_some hexcess
    refine ⟨before, c, after, front, token, rest, heq, ?_, htokens, hfront, hmany, ?_⟩
    · exact fun b hb => Counter.excess?_eq_none_iff.mp (hbefore b hb)
    · rw [Counter.excess, String.append_assoc]
      rfl

/-- Two targets with blanks around one of them, a counter with one empty target, and a
    list in which two counters have targets to blame. -/
theorem ofCounters_pairs_two :
    let pos (n : UInt32) : Span := ⟨0, n, n + 1, 1⟩
    let sync : Counter := ⟨4, "spa_sync,\u00a0fbt:zfs:dsl_pool_sync\t", pos 1⟩
    let fine : List Counter := [sync, ⟨5, "", pos 2⟩]
    let wrong : List Counter := [sync, ⟨6, "g, a:b::d ,p:q:r:s:t", pos 3⟩, ⟨7, ":::", pos 4⟩]
    let fault : ExpansionError :=
      .invalidProbe "a:b::d:entry" (pos 3) (.tooManyComponents "a:b::d:entry" 5)
    (∃ callers up down, ofCounters fine = .ok callers ∧ callers.increments.length = 2 ∧
      callers.increments[0]? = some up ∧ callers.decrements[0]? = some down ∧
      sync.Pair up down ∧
      up.probes.map Probe.text = ["::spa_sync:entry", "fbt:zfs:dsl_pool_sync:entry"]) ∧
    ofCounters wrong = .error fault ∧
      ∃ before c after front token rest, wrong = before ++ c :: after ∧
        (∀ b ∈ before, ∀ t ∈ b.tokens, t.toList.count ':' ≤ 2) ∧
        c.tokens = front ++ token :: rest ∧ (∀ t ∈ front, t.toList.count ':' ≤ 2) ∧
        2 < token.toList.count ':' ∧
        fault = .invalidProbe (token ++ ":entry") c.span
          (.tooManyComponents (token ++ ":entry") (token.toList.count ':' + 2)) := by
  intro pos sync fine wrong fault
  obtain ⟨hok, hpairs, -⟩ := ofCounters_pairs fine
  obtain ⟨callers, hcallers⟩ := hok.mpr (by decide +kernel)
  obtain ⟨hlength, -, hat⟩ := hpairs callers hcallers
  obtain ⟨up, down, hup, hdown, hpair⟩ := hat 0 sync rfl
  have htexts : sync.tokens.map (fun token => Probe.padded (token ++ ":entry")) =
      ["::spa_sync:entry", "fbt:zfs:dsl_pool_sync:entry"] := by decide +kernel
  have hfirst : (wrong.findSome? fun c =>
      Counter.excess? "entry" c.span ((Text.fields ',' c.targets).map Text.trim)) = some fault := by
    decide +kernel
  have hreports := reports_ofCounters wrong
  rw [hfirst] at hreports
  have hfault : ofCounters wrong = .error fault := hreports.error_of_some
  refine ⟨⟨callers, up, down, hcallers, hlength, hup, hdown, hpair, hpair.texts.trans htexts⟩,
    hfault, ?_⟩
  exact (ofCounters_pairs wrong).2.2 fault hfault

end CallersClauses

end ProbeLang
