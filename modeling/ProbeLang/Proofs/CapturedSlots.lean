import ProbeLang.Proofs.Captured
import ProbeLang.Proofs.Requests
import ProbeLang.Proofs.Separation

/-! # The slots of captured values

    Three clauses have to agree on which values are captured: the one that looks at them,
    the one that stores them at the entry and the one that sets them to zero.  Resolution
    writes the fields down as it comes across the forms, and all three go by what it has
    written (`Clause.captured_slots`).

    That it provides for every slot it brings in is one half (`Resolution.Brings`).  The
    other is that it provides for nothing else but the time of entry
    (`Resolution.Accounts`). -/

namespace ProbeLang

/-! ## Fields in order -/

namespace EntryField

theorem registry_ordered : registry.Pairwise (· < ·) := by decide

/-- The expression that gives a field while its call is being entered. -/
def source (f : EntryField) (s : Span) : Expr :=
  match f with
  | args n => .index (.ident "args" s) [.int (UInt64.ofNat n) s] s
  | f => .ident f.name s

/-- A captured field is captured from the variable that is its source. -/
theorem captured?_of_isCaptured {f : EntryField} (h : f.isCaptured = true) (s : Span) :
    f.captured? s = some (f.source s) := by
  cases f with
  | elapsed unit => cases h
  | _ => rfl

end EntryField

/-- The members of a set stand in the order of all fields. -/
theorem FieldSet.sublist_registry {fields : FieldSet}
    (h : ∀ f ∈ fields, f ∈ EntryField.registry) :
    fields.toList.Sublist EntryField.registry :=
  List.sublist_of_subperm_of_pairwise (List.subperm_of_subset fields.ordered.nodup h)
    fields.ordered EntryField.registry_ordered

/-! ## What is provided for -/

namespace Resolution

variable {inReturn : Bool} {e e' : Expr} {r r' r'' : Resolution}

/-- Whatever is provided for at the end is the slot of a time of entry, has been brought in
    with one of the names, or was provided for before. -/
def Accounts (names : List String) (r r' : Resolution) : Prop :=
  ∀ slot, r'.Provides slot →
    (∃ group, slot = .entry .timestamp group) ∨ slot.name ∈ names ∨ r.Provides slot

theorem Accounts.nil (r : Resolution) : Accounts [] r r := fun _ h => .inr (.inr h)

/-- What is captured is accounted for by the names of both stretches of a walk. -/
theorem Accounts.append {xs ys : List String} (h : Accounts xs r r') (h' : Accounts ys r' r'') :
    Accounts (xs ++ ys) r r'' := by
  intro slot hslot
  rcases h' slot hslot with hmarker | hname | hslot
  · exact .inl hmarker
  · exact .inr (.inl (List.mem_append_right _ hname))
  · rcases h slot hslot with hmarker | hname | hslot
    · exact .inl hmarker
    · exact .inr (.inl (List.mem_append_left _ hname))
    · exact .inr (.inr hslot)

/-- A form makes resolution provide for the slot in its place, and for a time of entry. -/
theorem accounts_step (h : step inReturn e r = some (e', r')) :
    Accounts e'.reservedNames r r' := by
  intro slot hslot
  rcases step_cases h with ⟨-, rfl, rfl⟩ | ⟨-, form, -, hrep⟩ | ⟨-, s, -, rfl, rfl⟩
  · exact .inr (.inr hslot)
  · obtain ⟨-, ⟨f, -, hin, hcap, -, hcnt⟩ | ⟨targets, -, rfl, hcap, -, hcnt⟩⟩ :=
      replace_cases hrep
    · cases slot with
      | entry g group =>
          obtain ⟨a, ha, hgroup, hg⟩ := hslot
          obtain rfl := Option.some.inj (hcap.symm.trans ha)
          rcases mem_withField.mp hg with rfl | rfl | ⟨a, ha, hg⟩
          · exact .inl ⟨group, rfl⟩
          · rw [hin.reservedNames, hgroup]
            exact .inr (.inl List.mem_cons_self)
          · exact .inr (.inr ⟨a, ha, (group_withField ha f).symm.trans hgroup, hg⟩)
      | callers id =>
          have hid : id ∈ r'.counters.map (·.id) := hslot
          rw [hcnt] at hid
          exact .inr (.inr hid)
      | _ => exact .inr (.inr hslot)
    · cases slot with
      | entry g group =>
          obtain ⟨a, ha, hg⟩ := hslot
          exact .inr (.inr ⟨a, hcap.symm.trans ha, hg⟩)
      | callers id =>
          have hid : id ∈ r'.counters.map (·.id) := hslot
          rw [hcnt, List.map_append] at hid
          rcases List.mem_append.mp hid with hid | hid
          · exact .inr (.inr hid)
          · rw [List.mem_singleton.mp hid, Slot.reservedNames_expr]
            exact .inr (.inl List.mem_cons_self)
      | _ => exact .inr (.inr hslot)
  · cases slot <;> exact .inr (.inr hslot)

end Resolution

namespace Clause

variable {c : Clause} {inReturn : Bool} {ids : Ids} {needs : Needs} {a : Capture}

/-- Whatever resolution provides for is spoken of in the clause it leaves, or is the marker. -/
theorem accounts_resolution (hc : c.Unreserved) (inReturn : Bool) (ids : Ids) :
    Resolution.Accounts (c.resolve inReturn ids).clause.reservedNames (.start ids)
      (c.resolution inReturn ids) :=
  names_induction .nil .append (fun _ => Resolution.accounts_step) hc ids

/-- What a clause captures is what it looks at, and the time of entry. -/
theorem mem_captured_iff (hc : c.Unreserved) (ha : (c.resolution inReturn ids).capture = some a)
    (name : String) :
    (name ∈ (c.resolve inReturn ids).clause.reservedNames ∧ Slot.isEntryName name = true) ∨
        name = (Slot.entry .timestamp a.group).name ↔
      ∃ f ∈ a.fields, name = (Slot.entry f a.group).name := by
  constructor
  · rintro (⟨hname, hentry⟩ | rfl)
    · obtain ⟨slots, hnames, hslots, -⟩ := (c.brings_resolution hc inReturn ids).slots
      rw [hnames] at hname
      obtain ⟨slot, hslot, rfl⟩ := List.mem_map.mp hname
      have hprovides := hslots slot hslot
      cases slot with
      | entry f group =>
          obtain ⟨a', ha', rfl, hf⟩ := hprovides
          obtain rfl := Option.some.inj (ha.symm.trans ha')
          exact ⟨f, hf, rfl⟩
      | _ =>
          rw [Slot.isEntryName_name] at hentry
          cases hentry
    · exact ⟨.timestamp, (Clause.wellFormed_resolution ha).marker, rfl⟩
  · rintro ⟨f, hf, rfl⟩
    rcases accounts_resolution hc inReturn ids (.entry f a.group) ⟨a, ha, rfl, hf⟩ with
      ⟨group, heq⟩ | hname | ⟨a', ha', -⟩
    · obtain ⟨rfl, rfl⟩ := Slot.entry.inj heq
      exact .inr rfl
    · exact .inl ⟨hname, Slot.isEntryName_name _⟩
    · cases ha'

end Clause

/-! ## The clauses around a body -/

namespace Capture

variable {a : Capture}

/-- The capture assigns each field from its source, in the order of the registry. -/
theorem actions_captureClause (ha : a.WellFormed) (probes : List Probe) (s : Span) :
    (a.captureClause probes s).actions = a.fields.toList.map fun f =>
      .expr (((Slot.entry f a.group).expr s).assign (f.source s) s) := by
  show a.fields.toList.filterMap (a.capture? s) = _
  rw [← List.filterMap_eq_map]
  refine List.filterMap_congr ?_
  intro f hf
  rw [capture?, EntryField.captured?_of_isCaptured (ha.captured f hf)]
  rfl

/-- The release sets each of them to zero, in the same order. -/
theorem actions_releaseClause (ha : a.WellFormed) (probes : List Probe) (s : Span) :
    (a.releaseClause probes s).actions = a.fields.toList.map fun f =>
      .expr (((Slot.entry f a.group).expr s).assign (.int 0 s) s) := by
  show (a.fields.toList.filter (·.isCaptured)).map _ = _
  rw [List.filter_eq_self.mpr ha.captured]
  rfl

end Capture

namespace Clause

variable {c : Clause} {ids : Ids} {needs : Needs} {a : Capture}

/-- The slots that a clause looks at after resolution, and the one for the time of entry,
    are those that are stored at the entry and those that are set to zero.  Each of them is
    stored and set to zero once, in the order of all fields, the time of entry last; what
    is stored is the field that the slot is for, which is never an elapsed time.  The
    entries are those to the probes of the clause. -/
theorem captured_slots (hc : c.Unreserved) (hneeds : (c.resolve true ids).needs = .ok needs)
    (ha : needs.capture = some a) (s : Span) :
    let names := (c.resolve true ids).clause.reservedNames
    let fields := a.fields.toList
    let slot (f : EntryField) : Slot := .entry f a.group
    (∀ name, (name ∈ names ∧ Slot.isEntryName name = true) ∨ name = (slot .timestamp).name ↔
        name ∈ fields.map fun f => (slot f).name) ∧
      (a.captureClause c.probes s).actions =
        fields.map (fun f => .expr (((slot f).expr s).assign (f.source s) s)) ∧
      (a.releaseClause c.probes s).actions =
        fields.map (fun f => .expr (((slot f).expr s).assign (.int 0 s) s)) ∧
      fields.Sublist EntryField.registry ∧ fields.Nodup ∧
      (∃ others, fields = others ++ [.timestamp]) ∧
      (∀ unit, .elapsed unit ∉ fields ∧
        ∀ group, (Slot.entry (.elapsed unit) group).name ∉ names) ∧
      List.Forall₂ (fun p q => q.provider = p.provider ∧ q.module = p.module ∧
          q.function = p.function ∧ q.name = "entry")
        c.probes (a.captureClause c.probes s).probes ∧
      (a.releaseClause c.probes s).probes = c.probes := by
  intro names fields slot
  obtain ⟨-, hcap, -, -⟩ := of_resolve_needs hneeds
  rw [hcap] at ha
  have hwell := wellFormed_resolution ha
  have hslots : ∀ name,
      (name ∈ names ∧ Slot.isEntryName name = true) ∨ name = (slot .timestamp).name ↔
        name ∈ fields.map fun f => (slot f).name := by
    intro name
    rw [List.mem_map]
    exact (mem_captured_iff hc ha name).trans
      (exists_congr fun f => and_congr_right fun _ => eq_comm)
  have helapsed : ∀ unit, .elapsed unit ∉ fields := by
    intro unit hmem
    cases hwell.captured _ hmem
  obtain ⟨others, hothers, -⟩ := FieldSet.toList_eq_append hwell.marker
  refine ⟨hslots, Capture.actions_captureClause hwell c.probes s,
    Capture.actions_releaseClause hwell c.probes s, FieldSet.sublist_registry hwell.registered,
    a.fields.ordered.nodup, ⟨others, hothers⟩, ?_, ?_, rfl⟩
  · intro unit
    refine ⟨helapsed unit, ?_⟩
    intro group hname
    obtain ⟨f, hf, heq⟩ := List.mem_map.mp
      ((hslots _).mp (.inl ⟨hname, Slot.isEntryName_name _⟩))
    obtain ⟨rfl, -⟩ := Slot.entry.inj (Slot.name_injective heq)
    exact helapsed unit hf
  · show List.Forall₂ _ c.probes (c.probes.map (·.withName "entry"))
    rw [List.forall₂_map_right_iff]
    exact List.forall₂_same.mpr fun p _ => ⟨rfl, rfl, rfl, rfl⟩

/-- The time of entry has a slot here because of an elapsed time.  The fields are stored in
    the order of all fields, which is not that of the clause. -/
theorem captured_slots_elapsed :
    let name (text : String) : Expr := .ident text .nowhere
    let entry (field : String) : Expr := .binary .ptr (name "entry") (name field) .nowhere
    let third : Expr := .index (entry "args") [.int 2 .nowhere] .nowhere
    let trace (e : Expr) : Stmt := .expr (.call "trace" [e] .nowhere)
    let c : Clause :=
      ⟨[⟨"syscall", "", "read", "return"⟩, ⟨"syscall", "", "write", "return"⟩], some third,
        [trace (entry "arg7"), .branch (entry "errno") [trace (entry "elapsed_us")] [] .nowhere],
        .nowhere⟩
    ∃ needs a, (c.resolve true ⟨4, 2⟩).needs = .ok needs ∧ needs.capture = some a ∧ a.group = 5 ∧
      a.fields.toList = [.errno, .arg 7, .args 2, .timestamp] ∧
      (∀ name, (name ∈ (c.resolve true ⟨4, 2⟩).clause.reservedNames ∧
          Slot.isEntryName name = true) ∨ name = (Slot.entry .timestamp a.group).name ↔
        name ∈ a.fields.toList.map fun f => (Slot.entry f a.group).name) ∧
      (a.captureClause c.probes .nowhere).actions = a.fields.toList.map fun f =>
        .expr (((Slot.entry f a.group).expr .nowhere).assign (f.source .nowhere) .nowhere) := by
  intro name entry third trace c
  have hcapture : (c.resolve true ⟨4, 2⟩).needs.toOption.bind
      (fun needs => needs.capture.map fun a => (a.group, a.fields.toList)) =
        some (5, [.errno, .arg 7, .args 2, .timestamp]) := by decide +kernel
  cases hneeds : (c.resolve true ⟨4, 2⟩).needs with
  | error e =>
      rw [hneeds] at hcapture
      cases hcapture
  | ok needs =>
      rw [hneeds] at hcapture
      obtain ⟨a, ha, heq⟩ := Option.map_eq_some_iff.mp hcapture
      obtain ⟨hgroup, hfields⟩ := Prod.mk.inj heq
      obtain ⟨hslots, hstored, -⟩ := captured_slots (by decide +kernel) hneeds ha .nowhere
      exact ⟨needs, a, rfl, ha, hgroup, hfields, hslots, hstored⟩

end Clause

end ProbeLang
