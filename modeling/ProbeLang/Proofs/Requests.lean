import Mathlib.Data.List.Sort
import ProbeLang.Proofs.Substitution

/-! # What a list of forms asks for

    Resolution works out what the forms of a clause need while it goes: a form that
    asks for callers takes the next counter, and the first one that asks about the
    entry takes a new group.  Of the whole list it can be said at once
    (`Request.counters`, `Request.capture`, `Request.idsAfter`), and so can what
    stands in the place of each form (`Request.replacements`).

    `Asked` ties the two: it holds at the start, and replacing one more form keeps
    it.  Together with the places of the forms this says all that resolution does to
    a clause that could be read (`Clause.resolve_of_readable`).

    The numbers are words.  If there is room for those that the forms take
    (`Ids.RoomFor`), they follow on the ones handed out before, without a gap and
    without a repetition, and so they stand in the names (`Request.Follow`). -/

namespace ProbeLang

/-! ## Sets of fields -/

namespace EntryField

instance : Std.Irrefl (fun f g : EntryField => f < g) := by
  refine ⟨fun f hf => ?_⟩
  rw [lt_iff] at hf
  omega

instance : Std.Antisymm (fun f g : EntryField => f < g) :=
  ⟨fun f _ hfg hgf => absurd (lt_trans hfg hgf) (irrefl f)⟩

end EntryField

namespace FieldSet

/-- A set is told by its members. -/
theorem eq_of_mem_iff {s t : FieldSet} (h : ∀ f, f ∈ s ↔ f ∈ t) : s = t := by
  obtain ⟨fs, hfs⟩ := s
  obtain ⟨gs, hgs⟩ := t
  obtain rfl : fs = gs := hfs.eq_of_mem_iff hgs h
  rfl

/-- A field is in the sorted list exactly if it was in the list. -/
@[simp] theorem mem_ofList {fields : List EntryField} {f : EntryField} :
    f ∈ ofList fields ↔ f ∈ fields := by
  have hfold : ∀ (fields : List EntryField) (s : FieldSet),
      f ∈ fields.foldl insert s ↔ f ∈ s ∨ f ∈ fields := by
    intro fields
    induction fields with
    | nil => intro s; simp
    | cons g gs ih =>
        intro s
        rw [List.foldl_cons, ih, mem_insert, List.mem_cons, or_comm (a := f = g), or_assoc]
  rw [ofList, hfold]
  exact or_iff_right List.not_mem_nil

end FieldSet

/-! ## What stands in the place of a form -/

/-- What stands in the place of a form at `s`: the slot that `group` has for it, the
    time since the one in the slot, or the counter `id`. -/
def Form.replacement (form : Form) (group id : UInt32) (s : Span) : Expr :=
  match form with
  | .field (.elapsed unit) =>
      .binary .div
        (.binary .sub (.ident "timestamp" s) ((Slot.entry .timestamp group).expr s) s)
        (.int unit.nanoseconds s) s
  | .field f => (Slot.entry f group).expr s
  | .arg n => (Slot.entry (.args n) group).expr s
  | .callers _ => (Slot.callers id).expr s

/-- What stands in the place of a form is a slot, or the time since the one it keeps. -/
theorem Form.standsIn_replacement (form : Form) (group id : UInt32) (s : Span) :
    ∃ slot : Slot, slot.StandsIn s (form.replacement group id s) := by
  cases form with
  | callers targets => exact ⟨.callers id, .slot⟩
  | arg n => exact ⟨.entry (.args n) group, .slot⟩
  | field f =>
      cases f with
      | elapsed unit => exact ⟨.entry .timestamp group, .elapsed unit.nanoseconds⟩
      | _ => exact ⟨.entry _ group, .slot⟩

/-- The name of the slot that stands in the place of a form, with its number in decimal. -/
def Form.slotName (form : Form) (group id : Nat) : String :=
  match form.captures? with
  | some f => "_XD_entry_" ++ f.name ++ "_" ++ toString group
  | none => "_XD_callers_" ++ toString id

/-- What stands in the place of a form speaks of that slot only. -/
theorem Form.reservedNames_replacement (form : Form) (group id : UInt32) (s : Span) :
    (form.replacement group id s).reservedNames = [form.slotName group.toNat id.toNat] := by
  cases form with
  | callers targets => exact Slot.reservedNames_expr (.callers id) s
  | arg n => exact Slot.reservedNames_expr (.entry (.args n) group) s
  | field f =>
      cases f with
      | elapsed unit =>
          have hin : (Slot.entry .timestamp group).StandsIn s _ := .elapsed unit.nanoseconds
          exact hin.reservedNames
      | _ => exact Slot.reservedNames_expr (.entry _ group) s

/-- Every node of a replacement is where the form was. -/
theorem Slot.StandsIn.span_of_mem_nodes {slot : Slot} {s : Span} {e : Expr}
    (h : slot.StandsIn s e) : ∀ x ∈ e.nodes, x.span = s := by
  have hslot : ∀ x ∈ (slot.expr s).nodes, x.span = s := by
    cases slot <;>
      simp [Slot.expr, Slot.storage, Expr.scopeVar, Expr.ptr, Expr.nodes, Expr.span]
  cases h with
  | slot => exact hslot
  | elapsed divisor =>
      intro x hx
      simp only [Resolution.elapsed, Expr.nodes, List.cons_append, List.nil_append, List.mem_cons,
        List.mem_append, List.not_mem_nil, or_false] at hx
      rcases hx with rfl | rfl | rfl | hx | rfl
      · rfl
      · rfl
      · rfl
      · exact hslot x hx
      · rfl

namespace Request

/-- The targets, if a counter is asked for, and the place. -/
def targets? (q : Request) : Option (String × Span) :=
  match q.form with
  | .callers targets => some (targets, q.span)
  | _ => none

/-- Whether a counter is asked for. -/
def isCallers (q : Request) : Bool := q.targets?.isSome

/-- The fields that some forms need captured, besides the time of entry. -/
def fields (qs : List Request) : List EntryField := qs.filterMap (·.form.captures?)

/-- What stands in the places of some forms, with `ids` handed out before them.  The
    counters are numbered as the forms follow each other; the group is the same for
    all. -/
def replacements (ids : Ids) (qs : List Request) : List Expr :=
  qs.mapIdx fun i q => q.form.replacement (ids.groups + 1)
    (ids.counters + .ofNat ((qs.take (i + 1)).countP isCallers)) q.span

/-- The counters that some forms ask for. -/
def counters (ids : Ids) (qs : List Request) : List Counter :=
  (qs.filterMap targets?).mapIdx fun i t => ⟨ids.counters + .ofNat (i + 1), t.1, t.2⟩

/-- The capture that some forms ask for, if they ask about the entry at all. -/
def capture (ids : Ids) (qs : List Request) : Option Capture :=
  if (fields qs).isEmpty then none
  else some ⟨ids.groups + 1, .ofList (.timestamp :: fields qs)⟩

/-- How many groups some forms take: one, if they ask about the entry at all. -/
def groupCount (qs : List Request) : Nat := if (fields qs).isEmpty then 0 else 1

/-- What has been handed out after some forms. -/
def idsAfter (ids : Ids) (qs : List Request) : Ids :=
  ids.taking (groupCount qs) (qs.countP isCallers)

end Request

/-! ## One form more -/

namespace Request

variable {ids : Ids} {qs : List Request} {q : Request}

/-- One more form adds what it captures, if anything. -/
theorem fields_concat (qs : List Request) (q : Request) :
    fields (qs ++ [q]) = fields qs ++ q.form.captures?.toList := by
  rw [fields, List.filterMap_append, List.filterMap_cons, List.filterMap_nil]
  cases q.form.captures? <;> rfl

/-- A form asks about the entry, or for callers. -/
theorem targets?_of_captures? {f : EntryField} (h : q.form.captures? = some f) :
    q.targets? = none := by
  unfold targets?
  split
  · rename_i targets hform
    rw [hform] at h
    cases h
  · rfl

/-- One that does not ask about the entry asks for callers. -/
theorem isCallers_of_captures? (h : q.form.captures? = none) : q.isCallers = true := by
  obtain ⟨form, s⟩ := q
  cases form with
  | callers targets => rfl
  | arg n => cases h
  | field f => cases f <;> cases h

/-- A form that asks for no callers takes no counter. -/
theorem counters_concat_of_none (h : q.targets? = none) :
    counters ids (qs ++ [q]) = counters ids qs := by
  rw [counters, List.filterMap_append, List.filterMap_cons_none h, List.filterMap_nil,
    List.append_nil]
  rfl

/-- The counters are numbered on from those before. -/
theorem counters_concat_of_some {t : String × Span} (h : q.targets? = some t) :
    counters ids (qs ++ [q]) =
      counters ids qs ++ [⟨(idsAfter ids qs).counters + 1, t.1, t.2⟩] := by
  have hlength : (qs.filterMap targets?).length = qs.countP isCallers :=
    List.length_filterMap_eq_countP
  rw [counters, List.filterMap_append, List.filterMap_cons_some h, List.filterMap_nil,
    List.mapIdx_concat, hlength, idsAfter, Ids.taking, add_ofNat_add_one]
  rfl

/-- Counters are counted form by form. -/
theorem countP_isCallers_concat (qs : List Request) (q : Request) :
    (qs ++ [q]).countP isCallers = qs.countP isCallers + if q.isCallers then 1 else 0 := by
  rw [List.countP_append, List.countP_singleton]

end Request

namespace Resolution

variable {ids : Ids} {qs : List Request} {r : Resolution}

/-- Resolution has asked for what the forms `qs` need. -/
structure Asked (ids : Ids) (qs : List Request) (r : Resolution) : Prop where
  capture : r.capture = Request.capture ids qs
  counters : r.counters = Request.counters ids qs
  ids : r.ids = Request.idsAfter ids qs

/-- At the start nothing has been asked for. -/
theorem asked_start (ids : Ids) : Asked ids [] (.start ids) := ⟨rfl, rfl, ids.taking_zero.symm⟩

/-- What has been captured are the fields that the forms need. -/
theorem Asked.mem_fields (h : Asked ids qs r) {g : EntryField} :
    (g = .timestamp ∨ ∃ a, r.capture = some a ∧ g ∈ a.fields) ↔
      g = .timestamp ∨ g ∈ Request.fields qs := by
  rw [h.capture, Request.capture]
  by_cases hnone : (Request.fields qs).isEmpty = true
  · rw [if_pos hnone, List.isEmpty_iff.mp hnone]
    simp
  · rw [if_neg hnone]
    simp

/-- All fields go into one group, which the first of them takes. -/
theorem Asked.group (h : Asked ids qs r) (f : EntryField) :
    (r.withField f).1.group = ids.groups + 1 ∧
      (r.withField f).2 = ⟨ids.groups + 1, r.ids.counters⟩ := by
  have hcap := h.capture
  have hids := h.ids
  unfold Resolution.withField
  by_cases hnone : (Request.fields qs).isEmpty = true
  · rw [Request.capture, if_pos hnone] at hcap
    rw [Request.idsAfter, Request.groupCount, if_pos hnone] at hids
    have hgroups : r.ids.groups = ids.groups := by
      rw [hids]
      exact UInt32.add_zero _
    rw [hcap]
    exact ⟨congrArg (· + 1) hgroups, congrArg (Ids.mk · r.ids.counters) (congrArg (· + 1) hgroups)⟩
  · rw [Request.capture, if_neg hnone] at hcap
    rw [Request.idsAfter, Request.groupCount, if_neg hnone] at hids
    rw [hcap, hids]
    exact ⟨rfl, rfl⟩

/-- With one more field, the capture is the one that forms with one more field ask for. -/
theorem Asked.withField (h : Asked ids qs r) (f : EntryField) :
    (r.withField f).1 =
      ⟨ids.groups + 1, .ofList (.timestamp :: (Request.fields qs ++ [f]))⟩ := by
  have hfields : (r.withField f).1.fields =
      .ofList (.timestamp :: (Request.fields qs ++ [f])) := by
    refine FieldSet.eq_of_mem_iff fun g => ?_
    rw [mem_withField, or_left_comm, h.mem_fields, FieldSet.mem_ofList, List.mem_cons,
      List.mem_append, List.mem_singleton, or_left_comm, or_comm (a := g = f)]
  rw [← (h.group f).1, ← hfields]

/-- What resolution puts in the place of the next form. -/
theorem Asked.replacement (h : Asked ids qs r) (q : Request) :
    (r.replace q.form q.span).1 = q.form.replacement (ids.groups + 1)
      (ids.counters + .ofNat ((qs ++ [q]).countP Request.isCallers)) q.span := by
  obtain ⟨form, s⟩ := q
  cases form with
  | callers targets =>
      have hcount : r.ids.counters + 1 = ids.counters +
          .ofNat ((qs ++ [Request.mk (.callers targets) s]).countP Request.isCallers) := by
        rw [h.ids, List.countP_append, Request.idsAfter, Ids.taking, add_ofNat_add_one]
        rfl
      show (Slot.callers (r.ids.counters + 1)).expr s = _
      rw [hcount]
      rfl
  | arg n =>
      show (Slot.entry (.args n) (r.withField (.args n)).1.group).expr s = _
      rw [(h.group _).1]
      rfl
  | field f =>
      cases f with
      | elapsed unit =>
          show elapsed ((Slot.entry .timestamp (r.withField .timestamp).1.group).expr s) _ s = _
          rw [(h.group _).1]
          rfl
      | _ =>
          show (Slot.entry _ (r.withField _).1.group).expr s = _
          rw [(h.group _).1]
          rfl

/-- Replacing one more form asks for what that one needs. -/
theorem Asked.replace (h : Asked ids qs r) (q : Request) :
    Asked ids (qs ++ [q]) (r.replace q.form q.span).2 := by
  obtain ⟨e, r', hrep⟩ : ∃ e r', r.replace q.form q.span = (e, r') := ⟨_, _, rfl⟩
  rw [hrep]
  obtain ⟨-, ⟨f, hf, -, hcap, hids, hcnt⟩ | ⟨targets, hform, -, hcap, hids, hcnt⟩⟩ :=
    replace_cases hrep
  · have htargets := Request.targets?_of_captures? hf
    have hcapture := h.withField f
    have hafter := (h.group f).2
    have hfields : Request.fields (qs ++ [q]) = Request.fields qs ++ [f] := by
      rw [Request.fields_concat, hf]
      rfl
    have hsome : (Request.fields qs ++ [f]).isEmpty = false := by
      cases Request.fields qs <;> rfl
    refine ⟨?_, ?_, ?_⟩
    · rw [hcap, hcapture, Request.capture, hfields, hsome]
      rfl
    · rw [hcnt, h.counters, Request.counters_concat_of_none htargets]
    · rw [hids, hafter, Request.idsAfter, Request.groupCount, hfields, hsome,
        Request.countP_isCallers_concat, Request.isCallers, htargets, h.ids]
      rfl
  · have htargets : q.targets? = some (targets, q.span) := by rw [Request.targets?, hform]
    have hfields : Request.fields (qs ++ [q]) = Request.fields qs := by
      rw [Request.fields_concat, hform]
      exact List.append_nil _
    refine ⟨?_, ?_, ?_⟩
    · rw [hcap, h.capture, Request.capture, Request.capture, hfields]
    · rw [hcnt, h.counters, Request.counters_concat_of_some htargets, h.ids]
    · rw [hids, h.ids, Request.idsAfter, Request.idsAfter, Request.groupCount, Request.groupCount,
        hfields, Request.countP_isCallers_concat, Request.isCallers, htargets]
      exact congrArg (Ids.mk _) (add_ofNat_add_one ids.counters _)

/-- Replacing forms one after the other asks for what they all need. -/
theorem Asked.replaceAll {before : List Request} (h : Asked ids before r) (qs : List Request) :
    Asked ids (before ++ qs) (r.replaceAll qs).2 ∧
      (r.replaceAll qs).1 = qs.mapIdx fun i q => q.form.replacement (ids.groups + 1)
        (ids.counters + .ofNat ((before ++ qs.take (i + 1)).countP Request.isCallers)) q.span := by
  induction qs generalizing before r with
  | nil =>
      rw [List.append_nil]
      exact ⟨h, rfl⟩
  | cons q qs ih =>
      obtain ⟨hasked, hexprs⟩ := ih (h.replace q)
      rw [List.append_assoc] at hasked
      refine ⟨hasked, ?_⟩
      show (r.replace q.form q.span).1 :: ((r.replace q.form q.span).2.replaceAll qs).1 = _
      rw [List.mapIdx_cons, h.replacement, hexprs]
      simp only [List.take_succ_cons, List.take_zero, List.append_assoc, List.singleton_append]

/-- All requests of a list, by the step for one: what has been asked for is what the
    forms need, and the replacements are those of the closed form. -/
theorem asked_replaceAll (ids : Ids) (qs : List Request) :
    Asked ids qs ((start ids).replaceAll qs).2 ∧
      ((start ids).replaceAll qs).1 = Request.replacements ids qs :=
  (asked_start ids).replaceAll qs

end Resolution

/-! ## Numbers with room for them -/

/-- There is room for the numbers that some forms take. -/
def Ids.RoomFor (ids : Ids) (qs : List Request) : Prop :=
  ids.HasRoom (Request.groupCount qs) (qs.countP Request.isCallers)

instance (ids : Ids) (qs : List Request) : Decidable (ids.RoomFor qs) :=
  inferInstanceAs (Decidable (ids.HasRoom _ _))

namespace Request

variable {ids : Ids} {qs : List Request}

/-- What some forms take follows on what was handed out before: as numbers, the counters
    are the next ones, in the order of the forms, and the group is the next one; and
    these numbers stand in the names of the slots. -/
structure Follow (ids : Ids) (qs : List Request) : Prop where
  counters : (counters ids qs).map (·.id.toNat) =
    List.range' (ids.counters.toNat + 1) (qs.countP isCallers)
  group : ∀ a, capture ids qs = some a → a.group.toNat = ids.groups.toNat + 1
  groupsAfter : (idsAfter ids qs).groups.toNat = ids.groups.toNat + groupCount qs
  countersAfter : (idsAfter ids qs).counters.toNat = ids.counters.toNat + qs.countP isCallers
  names : (replacements ids qs).map Expr.reservedNames =
    qs.mapIdx fun i q => [q.form.slotName (ids.groups.toNat + 1)
      (ids.counters.toNat + (qs.take (i + 1)).countP isCallers)]

/-- A field that is captured belongs to a group. -/
theorem groupCount_of_mem_fields {f : EntryField} (h : f ∈ fields qs) : groupCount qs = 1 :=
  if_neg fun hnone => List.ne_nil_of_mem h (List.isEmpty_iff.mp hnone)

/-- What is captured is in the next group, which is the one group that is taken. -/
theorem group_of_capture {a : Capture} (h : capture ids qs = some a) :
    a.group = ids.groups + 1 ∧ groupCount qs = 1 := by
  unfold capture at h
  split at h
  · cases h
  · rename_i hsome
    obtain rfl := Option.some.inj h
    exact ⟨rfl, if_neg hsome⟩

/-- A group that is taken is the next one, if there is room for it. -/
theorem toNat_group (h : ids.RoomFor qs) (hone : groupCount qs = 1) :
    (ids.groups + 1).toNat = ids.groups.toNat + 1 := by
  have hnext := h.toNat_groups
  rw [hone] at hnext
  exact hnext

/-- The numbers of counters are exact up to the last one that there is room for. -/
theorem toNat_counter (h : ids.RoomFor qs) {n : Nat} (hn : n ≤ qs.countP isCallers) :
    (ids.counters + UInt32.ofNat n).toNat = ids.counters.toNat + n :=
  (h.mono (Nat.le_refl _) hn).toNat_counters

/-- There is a counter for each form that asks for callers. -/
theorem length_counters (ids : Ids) (qs : List Request) :
    (counters ids qs).length = qs.countP isCallers := by
  rw [counters, List.length_mapIdx]
  exact List.length_filterMap_eq_countP

/-- With room for them, the numbers follow on those before. -/
theorem follow_of_roomFor (h : ids.RoomFor qs) : Follow ids qs where
  counters := by
    refine List.ext_getElem ?_ fun i hi hi' => ?_
    · rw [List.length_map, length_counters, List.length_range']
    · rw [List.length_range'] at hi'
      have hid := toNat_counter h (Nat.succ_le_of_lt hi')
      simp only [counters, List.getElem_map, List.getElem_mapIdx, List.getElem_range', hid]
      omega
  group := by
    intro a ha
    obtain ⟨hgroup, hone⟩ := group_of_capture ha
    rw [hgroup, toNat_group h hone]
  groupsAfter := h.toNat_groups
  countersAfter := h.toNat_counters
  names := by
    refine List.ext_getElem (by simp [replacements]) fun i hi hi' => ?_
    rw [List.length_mapIdx] at hi'
    simp only [replacements, List.getElem_map, List.getElem_mapIdx,
      Form.reservedNames_replacement, Form.slotName]
    -- a form has the number of the group in its name, or that of a counter
    cases hf : qs[i].form.captures? with
    | some f =>
        have hmem : f ∈ fields qs := List.mem_filterMap.mpr ⟨qs[i], List.getElem_mem hi', hf⟩
        simp only [toNat_group h (groupCount_of_mem_fields hmem)]
    | none =>
        have hle : (qs.take (i + 1)).countP isCallers ≤ qs.countP isCallers :=
          (List.take_sublist _ _).countP_le
        simp only [toNat_counter h hle]

end Request

/-! ## Whole clauses -/

namespace Stmt

/-- Whether the statement is a branch. -/
def isBranch : Stmt → Bool
  | branch .. => true
  | _ => false

/-- Whether the statement is a loop. -/
def isLoop : Stmt → Bool
  | loop .. => true
  | _ => false

end Stmt

namespace Clause

/-- What the clause needs, if its forms are the ones given. -/
def needsOf (c : Clause) (ids : Ids) (qs : List Request) : Needs :=
  { capture := Request.capture ids qs
    counters := Request.counters ids qs
    branches := c.stmts.countP Stmt.isBranch
    loops := c.stmts.countP Stmt.isLoop }

/-- The forms that the expansion of a clause meets: those before the first place where
    nothing could be read. -/
def met (c : Clause) : List Request := Request.met c.allReturn c.exprNodes

variable {c : Clause} {inReturn : Bool} {ids : Ids}

/-- Resolution asks for what the forms that it meets need. -/
theorem asked_resolution (c : Clause) (inReturn : Bool) (ids : Ids) :
    Resolution.Asked ids (Request.met inReturn c.exprNodes) (c.resolution inReturn ids) := by
  obtain ⟨hcapture, hcounters, hids⟩ :=
    (Resolution.asked_replaceAll ids (Request.met inReturn c.exprNodes)).1
  rw [resolution_eq]
  exact ⟨hcapture, hcounters, hids⟩

/-- Resolution replaces the forms that come before the first place where nothing could
    be read, and hands out what they ask for. -/
theorem resolve_met (c : Clause) (inReturn : Bool) (ids : Ids) :
    (c.resolve inReturn ids).clause =
        c.substitute inReturn (Request.replacements ids (Request.met inReturn c.exprNodes)) ∧
      (c.resolve inReturn ids).ids =
        Request.idsAfter ids (Request.met inReturn c.exprNodes) := by
  refine ⟨?_, (c.asked_resolution inReturn ids).ids⟩
  rw [resolve_eq_substitute, (Resolution.asked_replaceAll ids _).2]

/-- It fails if there is such a place. -/
theorem needs_resolve_of_stop {s : Span} (h : Expr.stop? c.exprNodes = some s) :
    (c.resolve inReturn ids).needs = .error (.unexpectedPlaceholder s) := by
  have hstate := c.resolution_eq inReturn ids
  rw [h, resolution] at hstate
  unfold resolve
  simp only [hstate]

/-- Resolution changes no statement's kind, so branches and loops are counted in the
    clause itself. -/
private theorem structured_of_resolve_needs {needs : Needs}
    (h : (c.resolve inReturn ids).needs = .ok needs) :
    needs.branches = c.stmts.countP Stmt.isBranch ∧
      needs.loops = c.stmts.countP Stmt.isLoop := by
  have hf := (of_resolve_needs h).1
  unfold resolve at h
  rw [resolution] at hf
  simp only [hf] at h
  obtain rfl := Except.ok.inj h
  exact ⟨rfl, rfl⟩

/-- If there is none, the clause needs what its forms ask for. -/
theorem needs_resolve_of_readable (c : Clause) (inReturn : Bool) (ids : Ids)
    (h : ∀ x ∈ c.exprNodes, x.isReadable = true) :
    (c.resolve inReturn ids).needs = .ok (c.needsOf ids (c.requests inReturn)) := by
  have hfault : (c.resolution inReturn ids).fault = none := by
    rw [resolution_eq]
    exact Expr.stop?_eq_none_iff.mpr h
  obtain ⟨needs, hneeds⟩ := resolve_needs hfault
  obtain ⟨-, hcapture, hcounters, -⟩ := of_resolve_needs hneeds
  obtain ⟨hbranches, hloops⟩ := structured_of_resolve_needs hneeds
  have hasked := c.asked_resolution inReturn ids
  rw [Request.met_of_readable h] at hasked
  have hcapture' : needs.capture = Request.capture ids (c.requests inReturn) :=
    hcapture.trans hasked.capture
  have hcounters' : needs.counters = Request.counters ids (c.requests inReturn) :=
    hcounters.trans hasked.counters
  rw [hneeds, needsOf, ← hcapture', ← hcounters', ← hbranches, ← hloops]

/-- Resolution of a clause that could be read is collecting its forms and substituting
    for them, if there is room for the numbers that they take.  The forms are those
    among its nodes, in source order.  Each one is replaced at its own place, the
    counters numbered in the order of the forms and all fields in the next group, and
    nothing else changes.  What the clause needs and what has been handed out is what the
    forms ask for, and all numbers are the ones that follow on those before. -/
theorem resolve_of_readable (c : Clause) (inReturn : Bool) (ids : Ids)
    (hread : ∀ x ∈ c.exprNodes, x.isReadable = true)
    (hroom : ids.RoomFor (c.requests inReturn)) :
    (c.resolve inReturn ids).clause =
        c.substitute inReturn (Request.replacements ids (c.requests inReturn)) ∧
      (∀ pair ∈ (c.requests inReturn).zip (Request.replacements ids (c.requests inReturn)),
        ∀ x ∈ pair.2.nodes, x.span = pair.1.span) ∧
      (c.resolve inReturn ids).needs = .ok (c.needsOf ids (c.requests inReturn)) ∧
      (c.resolve inReturn ids).ids = Request.idsAfter ids (c.requests inReturn) ∧
      Request.Follow ids (c.requests inReturn) := by
  obtain ⟨hclause, hids⟩ := c.resolve_met inReturn ids
  rw [Request.met_of_readable hread] at hclause hids
  refine ⟨hclause, ?_, c.needs_resolve_of_readable inReturn ids hread, hids,
    Request.follow_of_roomFor hroom⟩
  intro pair hpair
  obtain ⟨i, hi, rfl⟩ := List.mem_iff_getElem.mp hpair
  simp only [Request.replacements, List.getElem_zip, List.getElem_mapIdx]
  obtain ⟨slot, hslot⟩ := Form.standsIn_replacement _ _ _ _
  exact hslot.span_of_mem_nodes

/-- Forms in the predicate, in the tests of a branch and a loop, and inside a call.  The
    counters take the last two words. -/
theorem resolve_of_readable_nested :
    let pos (n : UInt32) : Span := ⟨0, n, n + 1, 1⟩
    let entry (field : String) (n : UInt32) : Expr :=
      .binary .ptr (.ident "entry" (pos 90)) (.ident field (pos 91)) (pos n)
    let callers (targets : String) (n : UInt32) : Expr :=
      .index (.ident "callers" (pos 92)) [.str targets (pos 93)] (pos n)
    let body (a b d e f : Expr) : List Stmt :=
      [.branch (.binary .and a b (pos 2))
        [.loop d 2 [.expr (.call "trace" [.inline "t" e (pos 7), .ident "pid" (pos 8)] (pos 6))]
          (pos 5)] [.expr f] (pos 1)]
    let slot (f : EntryField) (n : UInt32) : Expr := (Slot.entry f 5).expr (pos n)
    let c : Clause := ⟨[⟨"fbt", "", "f", "return"⟩], some (entry "errno" 10),
      body (callers "g" 11) (entry "execname" 12) (entry "arg1" 13) (entry "elapsed_us" 14)
        (.index (callers "h,k" 15) [.index (entry "args" 16) [.int 3 (pos 17)] (pos 18)] (pos 19)),
      pos 0⟩
    (∀ x ∈ c.exprNodes, x.isReadable = true) ∧ Ids.RoomFor ⟨4, 4294967293⟩ (c.requests true) ∧
      (c.resolve true ⟨4, 4294967293⟩).clause = { c with
        predicate := some (slot .errno 10)
        actions := body ((Slot.callers 4294967294).expr (pos 11)) (entry "execname" 12)
          (slot (.arg 1) 13)
          (.binary .div (.binary .sub (.ident "timestamp" (pos 14)) (slot .timestamp 14) (pos 14))
            (.int 1000 (pos 14)) (pos 14))
          (.index ((Slot.callers 4294967295).expr (pos 15)) [slot (.args 3) 18] (pos 19)) } ∧
      (c.resolve true ⟨4, 4294967293⟩).needs = .ok
        { capture := some ⟨5, .ofList [.errno, .arg 1, .args 3, .timestamp]⟩
          counters := [⟨4294967294, "g", pos 11⟩, ⟨4294967295, "h,k", pos 15⟩]
          branches := 1
          loops := 1 } ∧
      (c.resolve true ⟨4, 4294967293⟩).ids = ⟨5, 4294967295⟩ := by
  intro pos entry callers body slot c
  have hread : ∀ x ∈ c.exprNodes, x.isReadable = true := by decide +kernel
  have hroom : Ids.RoomFor ⟨4, 4294967293⟩ (c.requests true) := by decide +kernel
  obtain ⟨hclause, -, hneeds, hids, -⟩ :=
    c.resolve_of_readable true ⟨4, 4294967293⟩ hread hroom
  rw [hclause, hneeds, hids]
  refine ⟨hread, hroom, ?_, ?_, ?_⟩
  · rfl
  · rfl
  · rfl

end Clause

end ProbeLang
