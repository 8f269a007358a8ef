import ProbeLang.Proofs.Captured
import ProbeLang.Proofs.Simulation

/-! # Returns see their own entries

    A thread goes through calls that are nested, and the clauses of an expansion run
    at their entries and returns.  At each return the body sees what was captured at
    the entry of the same call, or it does not run at all.

    What is true from one event to the next is `Watch.Tidy`: at the depth of an open
    call there is what its entry captured, and no time of entry if something was
    missing; at all other depths there are zeros.  An entry adds a call at a depth
    where there was none (`Tidy.enter`), and a return uses up what is there and leaves
    zeros (`Tidy.leave`).  From this the body learns all it needs (`Tidy.correlates`). -/

namespace ProbeLang

variable {S : Type}

/-! ## Calls -/

/-- What a thread does that clauses about calls can see. -/
inductive Visit (S : Type) where
  | enter (engine : Engine S)
  | leave (engine : Engine S)

/-- The visits of one thread, and the entries of the calls that are open after them,
    the innermost first.  A call is deeper in the stack than those it is made from, and
    a return is that of the innermost open call.  One of a call whose entry was not
    visited comes only while none is open. -/
inductive Nested : List (Visit S) → List (Engine S) → Prop where
  | start : Nested [] []
  | enter {visits : List (Visit S)} {calls : List (Engine S)} {E : Engine S} :
      Nested visits calls → (∀ C ∈ calls, C.depth < E.depth) →
        Nested (visits ++ [.enter E]) (E :: calls)
  | leave {visits : List (Visit S)} {calls : List (Engine S)} {E : Engine S} :
      Nested visits calls → (∀ C, calls.head? = some C → E.depth = C.depth) →
        Nested (visits ++ [.leave E]) calls.tail

variable {visits : List (Visit S)} {calls : List (Engine S)} {E : Engine S} {m : Machine S}

/-- The calls that are open have been entered. -/
theorem Nested.entered (h : Nested visits calls) : ∀ C ∈ calls, .enter C ∈ visits := by
  induction h with
  | start => exact List.forall_mem_nil _
  | enter _ _ ih =>
      intro C hC
      rcases List.mem_cons.mp hC with rfl | hC
      · exact List.mem_append_right _ List.mem_cons_self
      · exact List.mem_append_left _ (ih C hC)
  | leave _ _ ih => exact fun C hC => List.mem_append_left _ (ih C (List.mem_of_mem_tail hC))

/-! ## The clauses at entries and returns -/

/-- A body, and what is captured for it. -/
structure Watch where
  probes : List Probe
  span : Span
  capture : Capture
  body : List Clause

namespace Watch

variable (w : Watch)

/-- The clause at the entry. -/
def entry : Clause := w.capture.captureClause w.probes w.span

/-- The clauses at the return before the body. -/
def opening : List Clause :=
  [.clearError w.probes w.span, w.capture.primingClause w.probes w.span]

/-- The clause at the return after the body. -/
def release : Clause := w.capture.releaseClause w.probes w.span

/-- All clauses in their order. -/
def clauses : List Clause := w.entry :: (w.opening ++ w.body ++ [w.release])

/-- What happens at a visit. -/
def visit (m : Machine S) : Visit S → Machine S
  | .enter E => E.runClause w.entry m
  | .leave E => E.runClauses (w.opening ++ w.body ++ [w.release]) m

/-- What happens at some visits, one after the other. -/
def run (visits : List (Visit S)) (m : Machine S) : Machine S := visits.foldl w.visit m

/-- One more event is visited after all others. -/
theorem run_append_singleton (visits : List (Visit S)) (v : Visit S) (m : Machine S) :
    w.run (visits ++ [v]) m = w.visit (w.run visits m) v := by
  rw [run, List.foldl_append]
  rfl

/-- What is right at a return, given the entry of the call if it was visited, and the
    names of the slots that the body may look at. -/
structure Correlates (names : List String) (call : Option (Engine S)) (E : Engine S)
    (m : Machine S) : Prop where
  /-- If all fields were captured, the body runs under a condition that holds, and
      wherever it has come to, it reads what the fields were at the entry. -/
  seen : ∀ C, call = some C → C.Completes w.capture → ∀ done rest, w.body = done ++ rest →
    (E.runClauses (w.opening ++ done) m).condition .first = 1 ∧
      ∀ f group, (Slot.entry f group).name ∈ names →
        C.field f = some ((E.runClauses (w.opening ++ done) m).read E.depth (.entry f group))
  /-- If not, the condition does not hold, and no code runs. -/
  unseen : (∀ C, call = some C → ¬ C.Completes w.capture) → ∀ done rest, w.body = done ++ rest →
    (E.runClauses (w.opening ++ done) m).condition .first = 0 ∧
      (E.runClauses (w.opening ++ done) m).user = m.user
  /-- In the end nothing is left of the call, and all others are as they were. -/
  released : ∀ f ∈ w.capture.fields,
    (w.visit m (.leave E)).read E.depth (.entry f w.capture.group) = 0
  others : ∀ depth, depth ≠ E.depth → ∀ f group,
    (w.visit m (.leave E)).read depth (.entry f group) = m.read depth (.entry f group)

/-- A body leaves alone what is captured for it, and does nothing at all if the first
    condition does not hold. -/
structure Sound : Prop where
  capture : w.capture.WellFormed
  keeps : ∀ {S : Type} (E : Engine S), ∀ k ∈ w.body, ∀ m : Machine S, m.Keeps (E.runClause k m)
  idles : ∀ {S : Type} (E : Engine S) (m : Machine S), m.flag = 0 → m.condition .first = 0 →
    E.Idles 1 w.body m

/-! ## One return -/

/-- Before the body, the flag is down, and the first condition says whether there is a
    time of entry. -/
theorem runClauses_opening (E : Engine S) (m : Machine S) :
    E.runClauses w.opening m =
      (m.write (Slot.error.cell 0) 0).setCondition .first
        (if m.read E.depth (.entry .timestamp w.capture.group) = 0 then 0 else 1) := by
  have hflag : (m.write (Slot.error.cell 0) 0).flag = 0 := m.slots_write_self _ 0
  have hunder : (m.write (Slot.error.cell 0) 0).Under none := fun _ h => nomatch h
  have hmark : (m.write (Slot.error.cell 0) 0).slots
      ((Slot.entry .timestamp w.capture.group).cell E.depth) =
        m.read E.depth (.entry .timestamp w.capture.group) :=
    Machine.slots_write_of_ne fun heq => nomatch Slot.cell_injective heq
  rw [opening, Engine.runClauses_cons, Engine.runClauses_cons, Engine.runClauses_nil,
    E.runClause_clearError, Capture.primingClause, E.runClause_setCondition hflag hunder,
    Capture.slot, E.check_of_stored (Slot.stored?_expr _ _ _ _), hmark]
  by_cases hzero : m.read E.depth (.entry .timestamp w.capture.group) = 0
  · rw [if_pos hzero, hzero]
    rfl
  · rw [if_neg hzero, bne_iff_ne.mpr hzero]
    rfl

/-- What opens an expansion at a return only touches the flag and a condition. -/
theorem read_opening (E : Engine S) (m : Machine S) (depth : Nat) (f : EntryField)
    (group : UInt32) :
    (E.runClauses w.opening m).read depth (.entry f group) = m.read depth (.entry f group) := by
  rw [w.runClauses_opening]
  refine (Machine.slots_write_of_ne fun heq => ?_).trans (Machine.slots_write_of_ne fun heq => ?_)
  · cases Slot.cell_injective heq
  · cases Slot.cell_injective heq

variable {w}

/-- Somewhere in the body, everything is as it was before it. -/
theorem Sound.keeps_body (hw : w.Sound) {done rest : List Clause} (h : w.body = done ++ rest)
    (E : Engine S) (m : Machine S) : m.Keeps (E.runClauses done m) :=
  E.keeps_runClauses (fun k hk => hw.keeps E k (h ▸ List.mem_append_left rest hk)) m

/-- Up to any place in the body, the captured values are as they were at the return. -/
theorem Sound.read_body (hw : w.Sound) {done rest : List Clause} (h : w.body = done ++ rest)
    (E : Engine S) (m : Machine S) (depth : Nat) (f : EntryField) (group : UInt32) :
    (E.runClauses (w.opening ++ done) m).read depth (.entry f group) =
      m.read depth (.entry f group) := by
  rw [Engine.runClauses_append, (hw.keeps_body h E _).entry, w.read_opening]

/-- With a time of entry, the first condition holds all through the body. -/
theorem Sound.seen_body (hw : w.Sound) {done rest : List Clause} (h : w.body = done ++ rest)
    (hmark : m.read E.depth (.entry .timestamp w.capture.group) ≠ 0) :
    (E.runClauses (w.opening ++ done) m).condition .first = 1 := by
  rw [Engine.runClauses_append, (hw.keeps_body h E _).seen, w.runClauses_opening, if_neg hmark,
    Machine.condition_setCondition]

/-- Without one it does not, and no code runs. -/
theorem Sound.idle_body (hw : w.Sound) {done rest : List Clause} (h : w.body = done ++ rest)
    (hmark : m.read E.depth (.entry .timestamp w.capture.group) = 0) :
    (E.runClauses (w.opening ++ done) m).condition .first = 0 ∧
      (E.runClauses (w.opening ++ done) m).user = m.user := by
  have hopen := w.runClauses_opening E m
  rw [if_pos hmark] at hopen
  have hfirst : (E.runClauses w.opening m).condition .first = 0 := by
    rw [hopen, Machine.condition_setCondition]
  have hflag : (E.runClauses w.opening m).flag = 0 := by
    rw [hopen, Machine.flag_setCondition]
    exact m.slots_write_self _ 0
  have hidles := hw.idles E _ hflag hfirst
  rw [h] at hidles
  have hidle := hidles.of_append.idle
  rw [Engine.runClauses_append]
  refine ⟨(hidle.agrees.condition (Nat.le_refl 1)).trans hfirst, ?_⟩
  rw [hidle.user, hopen]
  rfl

/-- A return runs what opens the expansion, then the body, and then the release. -/
theorem visit_leave (m : Machine S) (E : Engine S) :
    w.visit m (.leave E) = E.runClause w.release (E.runClauses (w.opening ++ w.body) m) := by
  show E.runClauses (w.opening ++ w.body ++ [w.release]) m = _
  rw [Engine.runClauses_append]
  rfl

/-- A return leaves the values that were captured for other calls. -/
theorem Sound.read_leave_of_ne (hw : w.Sound) {depth : Nat} (h : depth ≠ E.depth)
    (m : Machine S) (f : EntryField) (group : UInt32) :
    (w.visit m (.leave E)).read depth (.entry f group) = m.read depth (.entry f group) := by
  rw [visit_leave, release, E.read_release_of_ne hw.capture h,
    hw.read_body (List.append_nil w.body).symm]

/-- A return releases what was captured for its own call. -/
theorem Sound.read_leave (hw : w.Sound) (m : Machine S) {f : EntryField}
    (hf : f ∈ w.capture.fields) :
    (w.visit m (.leave E)).read E.depth (.entry f w.capture.group) = 0 := by
  rw [visit_leave, release, E.read_release hw.capture _ hf]

/-! ## From one event to the next -/

/-- What is in the slots while the given calls are open. -/
structure Tidy (w : Watch) (calls : List (Engine S)) (m : Machine S) : Prop where
  nested : calls.Pairwise fun inner outer => outer.depth < inner.depth
  held : ∀ C ∈ calls, C.Completes w.capture → ∀ f ∈ w.capture.fields,
    C.field f = some (m.read C.depth (.entry f w.capture.group))
  missed : ∀ C ∈ calls, ¬ C.Completes w.capture →
    m.read C.depth (.entry .timestamp w.capture.group) = 0
  clear : ∀ depth, (∀ C ∈ calls, C.depth ≠ depth) → ∀ f ∈ w.capture.fields,
    m.read depth (.entry f w.capture.group) = 0

/-- An entry deeper than all open calls: its values are held, or the marker stays at
    zero if they could not all be captured. -/
theorem Tidy.enter (hw : w.Sound) (h : w.Tidy calls m) (hE : ∀ C ∈ calls, C.depth < E.depth) :
    w.Tidy (E :: calls) (w.visit m (.enter E)) := by
  -- no open call has this depth, so there are zeros at it, and nothing else is written
  have hne : ∀ C ∈ calls, C.depth ≠ E.depth := fun C hC => Nat.ne_of_lt (hE C hC)
  have hother : ∀ depth, depth ≠ E.depth → ∀ f, (w.visit m (.enter E)).read depth
      (.entry f w.capture.group) = m.read depth (.entry f w.capture.group) :=
    fun depth hdepth f => E.read_capture_of_ne hw.capture hdepth m f w.capture.group
  refine ⟨List.pairwise_cons.mpr ⟨hE, h.nested⟩, ?_, ?_, ?_⟩
  · intro C hC hall f hf
    rcases List.mem_cons.mp hC with rfl | hC
    · exact C.field_eq_read_capture hw.capture hall m hf
    · rw [hother _ (hne C hC)]
      exact h.held C hC hall f hf
  · intro C hC hpart
    rcases List.mem_cons.mp hC with rfl | hC
    · exact (C.read_marker_capture hw.capture hpart m).trans
        (h.clear C.depth hne _ hw.capture.marker)
    · rw [hother _ (hne C hC)]
      exact h.missed C hC hpart
  · intro depth hdepth f hf
    rw [hother depth (hdepth E List.mem_cons_self).symm]
    exact h.clear depth (fun C hC => hdepth C (List.mem_cons_of_mem E hC)) f hf

/-- A return ends the innermost call: its depth is clear, and the calls around it hold
    what they held. -/
theorem Tidy.leave (hw : w.Sound) (h : w.Tidy calls m)
    (hE : ∀ C, calls.head? = some C → E.depth = C.depth) :
    w.Tidy calls.tail (w.visit m (.leave E)) := by
  -- the calls that stay open are less deep than the one that returns
  have hne : ∀ C ∈ calls.tail, C.depth ≠ E.depth := by
    cases calls with
    | nil => exact List.forall_mem_nil _
    | cons top rest =>
        intro C hC
        rw [hE top rfl]
        exact Nat.ne_of_lt ((List.pairwise_cons.mp h.nested).1 C hC)
  refine ⟨h.nested.tail, ?_, ?_, ?_⟩
  · intro C hC hall f hf
    rw [hw.read_leave_of_ne (hne C hC)]
    exact h.held C (List.mem_of_mem_tail hC) hall f hf
  · intro C hC hpart
    rw [hw.read_leave_of_ne (hne C hC)]
    exact h.missed C (List.mem_of_mem_tail hC) hpart
  · intro depth hdepth f hf
    by_cases hd : depth = E.depth
    · rw [hd]
      exact hw.read_leave m hf
    · rw [hw.read_leave_of_ne hd]
      refine h.clear depth ?_ f hf
      cases calls with
      | nil => exact List.forall_mem_nil _
      | cons top rest =>
          intro C hC
          rcases List.mem_cons.mp hC with rfl | hC
          · rw [← hE C rfl]
            exact Ne.symm hd
          · exact hdepth C hC

/-- The slots are tidy at any time, if all of them were zero at first. -/
theorem tidy_run (hw : w.Sound) (h : Nested visits calls) (σ : S) :
    w.Tidy calls (w.run visits ⟨σ, fun _ => 0⟩) := by
  induction h with
  | start =>
      exact ⟨.nil, List.forall_mem_nil _, List.forall_mem_nil _, fun _ _ _ _ => rfl⟩
  | enter _ hE ih =>
      rw [run_append_singleton]
      exact ih.enter hw hE
  | leave _ hE ih =>
      rw [run_append_singleton]
      exact ih.leave hw hE

/-- A call that is not there, or was captured in part only, has no time of entry. -/
theorem Tidy.marker_eq_zero (hw : w.Sound) (h : w.Tidy calls m)
    (hE : ∀ C, calls.head? = some C → E.depth = C.depth)
    (hnot : ∀ C, calls.head? = some C → ¬ C.Completes w.capture) :
    m.read E.depth (.entry .timestamp w.capture.group) = 0 := by
  cases calls with
  | nil => exact h.clear E.depth (List.forall_mem_nil _) _ hw.capture.marker
  | cons top rest =>
      rw [hE top rfl]
      exact h.missed top List.mem_cons_self (hnot top rfl)

/-- While the slots are tidy, a return goes right. -/
theorem Tidy.correlates (hw : w.Sound) (h : w.Tidy calls m)
    (hE : ∀ C, calls.head? = some C → E.depth = C.depth)
    (hclock : ∀ C ∈ calls, C.field .timestamp ≠ some 0) {names : List String}
    (hnames : ∀ f group, (Slot.entry f group).name ∈ names →
      group = w.capture.group ∧ f ∈ w.capture.fields) :
    w.Correlates names calls.head? E m := by
  refine ⟨?_, ?_, fun f hf => hw.read_leave m hf, fun depth hd => hw.read_leave_of_ne hd m⟩
  · intro C hcall hall done rest hbody
    have hC : C ∈ calls := List.mem_of_mem_head? hcall
    have hheld : ∀ f ∈ w.capture.fields,
        C.field f = some (m.read E.depth (.entry f w.capture.group)) := by
      rw [hE C hcall]
      exact h.held C hC hall
    refine ⟨hw.seen_body hbody fun hzero => ?_, fun f group hname => ?_⟩
    · -- the time of entry was captured, and it is not zero
      exact hclock C hC (hzero ▸ hheld _ hw.capture.marker)
    · obtain ⟨rfl, hf⟩ := hnames f group hname
      rw [hw.read_body hbody]
      exact hheld f hf
  · intro hnot done rest hbody
    exact hw.idle_body hbody (h.marker_eq_zero hw hE hnot)

end Watch

/-! ## Expansions that capture something -/

/-- What is captured for the clause, around its statements split up. -/
def Clause.watch (c : Clause) (a : Capture) : Watch :=
  ⟨c.probes, c.span, a, (c.split (some .first) 1).clauses⟩

/-- If a clause at returns asks about the entry and has no place where nothing could
    be read, something is captured. -/
theorem Clause.captures_of_ofEntry? {c : Clause} {ids : Ids}
    (hfault : (c.resolution true ids).fault = none) {x : Expr} (hx : x ∈ c.exprNodes)
    (hform : (Form.ofEntry? x).isSome) : ∃ a, (c.resolution true ids).capture = some a := by
  have hmeets := c.meets_resolution true ids
  have hasks : x.asksEntry true = true := by
    obtain ⟨form, hf⟩ := Option.isSome_iff_exists.mp hform
    have hof : Form.of? true x = some form := by
      rw [Form.of?, if_pos rfl, hf]
    rw [Expr.asksEntry, hof, Option.bind_some]
    rcases Form.of?_cases hof with ⟨-, f, -, -, -, -, rfl, -⟩ | ⟨-, n, -, -, -, -, -, -, rfl, -⟩ |
      ⟨targets, s₁, s₂, s, rfl, rfl⟩
    · cases f <;> rfl
    · rfl
    · cases hf
  rw [← Option.isSome_iff_exists, hmeets.capture rfl,
    Expr.takeWhile_isReadable ((hmeets.fault rfl).mp hfault), List.any_eq_true.mpr ⟨x, hx, hasks⟩,
    Bool.or_true]

namespace Session

variable {s : Session} {c : Clause} {needs : Needs} {callers : CallersClauses} {a : Capture}

/-- With something captured, an expansion consists of what is captured for the body,
    between the clauses that keep counters. -/
theorem assembled_of_capture (h : needs.capture = some a) :
    assembled c needs callers =
      callers.increments ++ (c.watch a).clauses ++ callers.decrements := by
  have hneeds : needs.needsCapture = true := by rw [Needs.needsCapture, h]; rfl
  have hfast : Body.isFast needs = false := by
    rw [Body.isFast, hneeds, Bool.not_true, Bool.and_false]
  have hpos : 0 < (c.split (some .first) 1).allocated := c.le_allocated_split (some .first) 1
  unfold assembled surround
  rw [h, Body.ofClause_eq_split hfast, Needs.around, Needs.before, hneeds, if_pos rfl, if_pos rfl,
    if_pos hpos]
  simp [Clause.watch, Watch.clauses, Watch.entry, Watch.opening, Watch.release]

/-- What is captured for a clause is right for its body. -/
theorem sound_watch (hc : c.Unreserved) (hspares : c.SparesEntry)
    (hfault : (c.resolution c.allReturn s.ids).fault = none)
    (ha : (c.resolution c.allReturn s.ids).capture = some a) :
    ((c.resolve c.allReturn s.ids).clause.watch a).Sound := by
  refine ⟨Clause.wellFormed_resolution ha, fun E k hk => ?_, fun E m hf hfirst => ?_⟩
  · exact E.keeps_piece (Clause.piece_split _ _ _ k hk) fun e he t ht =>
      Clause.stores_resolve hc hspares hfault e he t ht E.depth
  · exact idles_split E _ (Nat.le_refl 1) hf hfirst

/-- The names that the body looks at are those of captured fields. -/
theorem captured_of_mem_reservedNames (hc : c.Unreserved)
    (ha : (c.resolution c.allReturn s.ids).capture = some a) {f : EntryField} {group : UInt32}
    (h : (Slot.entry f group).name ∈ (c.resolve c.allReturn s.ids).clause.reservedNames) :
    group = a.group ∧ f ∈ a.fields := by
  obtain ⟨slots, hnames, hslots, -⟩ := (c.brings_resolution hc c.allReturn s.ids).slots
  rw [hnames] at h
  obtain ⟨slot, hslot, heq⟩ := List.mem_map.mp h
  obtain rfl := Slot.name_injective heq
  obtain ⟨a', ha', rfl, hf⟩ := hslots _ hslot
  obtain rfl := Option.some.inj (ha.symm.trans ha')
  exact ⟨rfl, hf⟩

/-- Around what is captured for a body, there are an error handler at most and the
    clauses that keep counters, and none of them speaks of something captured. -/
theorem eq_append_watch (hneeds : needs.capture = some a)
    (hcallers : CallersClauses.ofCounters needs.counters = .ok callers) (span : Span) :
    ∃ before after, s.withHandler (assembled c needs callers) span =
        before ++ (c.watch a).clauses ++ after ∧
      ∀ k ∈ before ++ after, ∀ f group, (Slot.entry f group).name ∉ k.reservedNames := by
  obtain ⟨hinc, hdec⟩ := CallersClauses.mem_ofCounters hcallers
  have hcounters : ∀ k ∈ callers.increments ++ callers.decrements,
      ∀ f group, (Slot.entry f group).name ∉ k.reservedNames := by
    intro k hk f group hname
    rcases List.mem_append.mp hk with hk | hk
    · obtain ⟨counter, -, probes, rfl⟩ := hinc k hk
      rw [counter.reservedNames_increment, List.mem_singleton] at hname
      cases Slot.name_injective hname
    · obtain ⟨counter, -, probes, rfl⟩ := hdec k hk
      rw [counter.reservedNames_decrement, List.mem_cons, List.mem_singleton, or_self] at hname
      cases Slot.name_injective hname
  have hwatch : assembled c needs callers =
      callers.increments ++ (c.watch a).clauses ++ callers.decrements := assembled_of_capture hneeds
  unfold withHandler
  split
  · refine ⟨.errorHandler s.errorProbe span :: callers.increments, callers.decrements, ?_, ?_⟩
    · rw [hwatch]
      rfl
    · intro k hk f group hname
      rcases List.mem_cons.mp hk with rfl | hk
      · rw [Clause.reservedNames_errorHandler, List.mem_singleton] at hname
        cases Slot.name_injective hname
      · exact hcounters k hk f group hname
  · exact ⟨callers.increments, callers.decrements, hwatch, hcounters⟩

/-- At every return of a thread, the body of an expanded clause sees what was captured
    at the entry of the same call; it does not run if something could not be captured,
    or if the call was made before any visit.  No time is zero, and the code of the
    body leaves what is captured alone. -/
theorem returns_see_entries {out : List Clause} (hret : c.allReturn = true) (hc : c.Unreserved)
    (hasks : ∃ x ∈ c.exprNodes, (Form.ofEntry? x).isSome) (hspares : c.SparesEntry)
    (h : (s.expand c).result = .ok out) :
    ∃ (w : Watch) (before after : List Clause),
      out = before ++ w.clauses ++ after ∧ w.probes = c.probes ∧
      (∀ k ∈ before ++ after, ∀ f group, (Slot.entry f group).name ∉ k.reservedNames) ∧
      ∀ {S : Type} {visits : List (Visit S)} {calls : List (Engine S)} {E : Engine S} (σ : S),
        Nested visits calls → (∀ C, calls.head? = some C → E.depth = C.depth) →
        (∀ C, .enter C ∈ visits → C.field .timestamp ≠ some 0) →
          w.Correlates (c.resolve c.allReturn s.ids).clause.reservedNames calls.head? E
            (w.run visits ⟨σ, fun _ => 0⟩) := by
  obtain ⟨needs, callers, hneeds, hcallers, rfl⟩ := of_expand_ok h
  obtain ⟨hfault, hcap, -, -⟩ := Clause.of_resolve_needs hneeds
  obtain ⟨a, ha⟩ : ∃ a, (c.resolution c.allReturn s.ids).capture = some a := by
    obtain ⟨x, hx, hform⟩ := hasks
    rw [hret] at hfault ⊢
    exact Clause.captures_of_ofEntry? hfault hx hform
  have hw := sound_watch hc hspares hfault ha
  obtain ⟨before, after, hout, haside⟩ := eq_append_watch (s := s)
    (c := (c.resolve c.allReturn s.ids).clause) (hcap.trans ha) hcallers c.span
  refine ⟨_, before, after, hout, rfl, haside, ?_⟩
  intro S visits calls E σ hnested hE hclock
  refine (Watch.tidy_run hw hnested σ).correlates hw hE ?_ ?_
  · exact fun C hC => hclock C (hnested.entered C hC)
  · exact fun f group hname => captured_of_mem_reservedNames hc ha hname

/-- A call made from another one is captured in part only; both return. -/
theorem returns_see_entries_recursive :
    let s : Session := ⟨.experimentalOn, ⟨"dtrace", "", "", "ERROR"⟩, .fresh, false⟩
    let name (text : String) : Expr := .ident text .nowhere
    let entry (field : String) : Expr := .binary .ptr (name "entry") (name field) .nowhere
    let callers : Expr := .index (name "callers") [.str "syscall::open" .nowhere] .nowhere
    let trace (e : Expr) : Stmt := .expr (.call "trace" [e] .nowhere)
    let c : Clause :=
      ⟨[⟨"syscall", "", "read", "return"⟩], some (entry "args0"),
        [.branch callers [trace (entry "elapsed_us")] [trace (entry "errno")] .nowhere], .nowhere⟩
    let code (_ : Expr) (_ : Store) (n : Nat) : Nat × Outcome := (n + 1, .done)
    let test (_ : Expr) (_ : Store) (n : Nat) : Nat × Verdict := (n + 1, .holds)
    let outer : Engine Nat := ⟨1, fun _ => some 7, fun _ => some 4, code, test⟩
    let inner : Engine Nat := ⟨2, fun _ => some 8, fun _ => none, code, test⟩
    let later : Engine Nat := ⟨1, fun _ => some 9, fun _ => some 5, code, test⟩
    ∃ (out : List Clause) (w : Watch) (before after : List Clause),
      (s.expand c).result = .ok out ∧ out.length = 12 ∧ out = before ++ w.clauses ++ after ∧
      w.Correlates (c.resolve c.allReturn s.ids).clause.reservedNames (some inner) inner
        (w.run [.enter outer, .enter inner] ⟨0, fun _ => 0⟩) ∧
      outer.Completes w.capture ∧
      w.Correlates (c.resolve c.allReturn s.ids).clause.reservedNames (some outer) later
        (w.run [.enter outer, .enter inner, .leave inner] ⟨0, fun _ => 0⟩) := by
  intro s name entry callers trace c code test outer inner later
  have hcount : (s.expand c).result.toOption.map (·.length) = some 12 := by
    decide +kernel
  cases hout : (s.expand c).result with
  | error e =>
      rw [hout] at hcount
      cases hcount
  | ok out =>
      rw [hout] at hcount
      obtain ⟨w, before, after, heq, -, -, hreturn⟩ := returns_see_entries (by decide +kernel)
        (by decide +kernel) (by decide +kernel) (by decide +kernel) hout
      have hopen : Nested [.enter outer, .enter inner] [inner, outer] :=
        .enter (.enter .start (List.forall_mem_nil _)) (by decide)
      have hback : Nested [.enter outer, .enter inner, .leave inner] [outer] :=
        .leave hopen fun C hC => by obtain rfl := Option.some.inj hC; rfl
      have hclock : ∀ C, C = outer ∨ C = inner → C.field .timestamp ≠ some 0 := by
        rintro C (rfl | rfl) <;> simp [Engine.field, outer, inner]
      refine ⟨out, w, before, after, rfl, Option.some.inj hcount, heq, hreturn 0 hopen ?_ ?_,
        fun f _ => by cases f <;> rfl, hreturn 0 hback ?_ ?_⟩
      · intro C hC
        obtain rfl := Option.some.inj hC
        rfl
      · intro C hC
        exact hclock C (by simpa using hC)
      · intro C hC
        obtain rfl := Option.some.inj hC
        rfl
      · intro C hC
        exact hclock C (by simpa using hC)

end Session

end ProbeLang
