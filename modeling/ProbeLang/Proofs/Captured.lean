import ProbeLang.Proofs.Stores

/-! # What is captured at an entry

    How the engine runs the clauses around a body that captures something.  The one at
    the entry stores the fields one after the other, up to one that cannot be read;
    the time of entry comes last, so it is there only if all the others are
    (`Engine.field_eq_read_capture`, `Engine.read_marker_capture`).  The one after the
    body sets them to zero (`Engine.read_release`).  Neither touches what belongs to
    another depth of the stack. -/

namespace ProbeLang

variable {S : Type}

/-! ## Storing values one after the other -/

namespace Machine

/-- Stores values one after the other, up to one that is missing. -/
def storeAll : List (Cell × Option Int) → Machine S → Machine S × Outcome
  | [], m => (m, .done)
  | (c, some v) :: ws, m => storeAll ws (m.write c v)
  | (_, none) :: _, m => (m, .fault)

variable {ws : List (Cell × Option Int)} {c : Cell} {v : Int}

theorem storeAll_append (ws ws' : List (Cell × Option Int)) (m : Machine S) :
    storeAll (ws ++ ws') m = Outcome.andThen (storeAll ws m) (storeAll ws') := by
  induction ws generalizing m with
  | nil => rfl
  | cons w ws ih =>
      obtain ⟨c, _ | v⟩ := w
      · rfl
      · exact ih (m.write c v)

/-- Frame: a run of stores leaves every cell that is not among its targets. -/
theorem slots_storeAll_of_ne (h : ∀ w ∈ ws, w.1 ≠ c) (m : Machine S) :
    (storeAll ws m).1.slots c = m.slots c := by
  induction ws generalizing m with
  | nil => rfl
  | cons w ws ih =>
      obtain ⟨c', _ | v⟩ := w
      · rfl
      · have hrest := ih (fun w hw => h w (List.mem_cons_of_mem _ hw)) (m.write c' v)
        exact hrest.trans (slots_write_of_ne (h _ List.mem_cons_self).symm)

/-- A run of stores comes to its end exactly if there is a value for each of them. -/
theorem storeAll_done_iff (m : Machine S) :
    (storeAll ws m).2 = .done ↔ ∀ w ∈ ws, w.2.isSome := by
  induction ws generalizing m with
  | nil => exact ⟨fun _ => List.forall_mem_nil _, fun _ => rfl⟩
  | cons w ws ih =>
      obtain ⟨c, _ | v⟩ := w
      · exact ⟨(nomatch ·), fun h => nomatch h _ List.mem_cons_self⟩
      · rw [List.forall_mem_cons]
        exact (ih (m.write c v)).trans ⟨fun h => ⟨rfl, h⟩, And.right⟩

/-- Values that go into different cells are all there at the end. -/
theorem slots_storeAll_of_mem (hnodup : (ws.map Prod.fst).Nodup) (m : Machine S)
    (hdone : (storeAll ws m).2 = .done) (h : (c, some v) ∈ ws) :
    (storeAll ws m).1.slots c = v := by
  induction ws generalizing m with
  | nil => cases h
  | cons w ws ih =>
      rw [List.map_cons, List.nodup_cons] at hnodup
      obtain ⟨c', _ | v'⟩ := w
      · cases hdone
      · rcases List.mem_cons.mp h with heq | h
        · obtain ⟨rfl, hv⟩ := Prod.mk.inj heq
          obtain rfl := Option.some.inj hv
          have hlast : ∀ w ∈ ws, w.1 ≠ c := fun w hw heq =>
            hnodup.1 (List.mem_map.mpr ⟨w, hw, heq⟩)
          show (storeAll ws (m.write c v)).1.slots c = v
          rw [slots_storeAll_of_ne hlast, slots_write_self]
        · exact ih hnodup.2 (m.write c' v') hdone h

end Machine

/-! ## Capturing and releasing -/

/-- The value of a field while the engine is at the entry, if it can be read. -/
def Engine.field (E : Engine S) : EntryField → Option Int
  | .args n => E.arg n
  | f => E.builtin f.name

/-- In the order of capture, the time of entry comes last. -/
theorem FieldSet.toList_eq_append {fields : FieldSet} (h : .timestamp ∈ fields) :
    ∃ before, fields.toList = before ++ [.timestamp] ∧ .timestamp ∉ before := by
  have hordered := fields.ordered
  obtain ⟨before, after, heq⟩ := List.append_of_mem h
  rw [heq, List.pairwise_append, List.pairwise_cons] at hordered
  obtain ⟨-, ⟨hafter, -⟩, hbefore⟩ := hordered
  have hlast : ∀ f : EntryField, ¬ .timestamp < f := by
    intro f hf
    rw [EntryField.lt_iff] at hf
    cases f <;> simp [EntryField.family, EntryField.position] at hf
  cases after with
  | nil =>
      refine ⟨before, heq, fun hmem => ?_⟩
      exact hlast _ (hbefore _ hmem _ List.mem_cons_self)
  | cons f after => exact absurd (hafter f List.mem_cons_self) (hlast f)

namespace Capture

variable (a : Capture)

/-- The cells of the captured fields at one depth, and values for them. -/
def cells (depth : Nat) (value : EntryField → Option Int) : List (Cell × Option Int) :=
  a.fields.toList.map fun f => ((Slot.entry f a.group).cell depth, value f)

variable {a}

/-- No field has the cell of another, so no value is written over. -/
theorem nodup_cells (depth : Nat) (value : EntryField → Option Int) :
    ((a.cells depth value).map Prod.fst).Nodup := by
  rw [cells, List.map_map]
  refine List.Pairwise.map _ (fun f g hfg heq => ?_) a.fields.ordered
  obtain ⟨rfl, -⟩ := Slot.entry.inj (Slot.cell_injective heq)
  rcases EntryField.lt_iff.mp hfg with h | ⟨-, h⟩ <;> exact Nat.lt_irrefl _ h

/-- With a value for every field, all of them are stored. -/
theorem storeAll_cells_done {depth : Nat} {value : EntryField → Option Int}
    (h : ∀ f ∈ a.fields, (value f).isSome) (m : Machine S) :
    (Machine.storeAll (a.cells depth value) m).2 = .done := by
  rw [Machine.storeAll_done_iff]
  intro w hw
  obtain ⟨f, hf, rfl⟩ := List.mem_map.mp hw
  exact h f hf

end Capture

namespace Engine

variable (E : Engine S) {a : Capture} {probes : List Probe} {s : Span}

/-- The value that is captured for a field is the field. -/
theorem value_captured (ha : a.WellFormed) {f : EntryField} (hf : f ∈ a.fields) (m : Machine S) :
    ∃ e, f.captured? s = some e ∧ E.value e m = (m, E.field f) := by
  have hcap := ha.captured f hf
  cases f with
  | elapsed unit => cases hcap
  | args n =>
      refine ⟨_, rfl, ?_⟩
      have hn : (UInt64.ofNat n).toNat = n :=
        UInt64.toNat_ofNat_of_lt' (Nat.lt_of_le_of_lt (ha.small n hf) (by decide))
      show (m, E.arg (UInt64.ofNat n).toNat) = (m, E.arg n)
      rw [hn]
  | _ => exact ⟨_, rfl, rfl⟩

/-- The clause at the entry stores the fields, up to one that cannot be read. -/
theorem runClause_captureClause (ha : a.WellFormed) (m : Machine S) :
    E.runClause (a.captureClause probes s) m =
      settle (Machine.storeAll (a.cells E.depth E.field) m) := by
  have hall : ∀ (fields : List EntryField), (∀ f ∈ fields, f ∈ a.fields) → ∀ m : Machine S,
      E.performAll (fields.filterMap (a.capture? s)) m =
        Machine.storeAll
          (fields.map fun f => ((Slot.entry f a.group).cell E.depth, E.field f)) m := by
    intro fields
    induction fields with
    | nil => exact fun _ _ => rfl
    | cons f fields ih =>
        intro hmem m
        obtain ⟨e, he, hval⟩ := E.value_captured (s := s) ha (hmem f List.mem_cons_self) m
        have hstmt : a.capture? s f =
            some (.expr (((Slot.entry f a.group).expr s).assign e s)) := by
          rw [Capture.capture?, he]
          rfl
        rw [List.filterMap_cons_some hstmt, performAll, perform_assign, hval, List.map_cons]
        cases hfield : E.field f with
        | none => rfl
        | some v => exact ih (fun g hg => hmem g (List.mem_cons_of_mem f hg)) _
  exact congrArg settle (hall a.fields.toList (fun _ h => h) m)

/-- The clause after the body sets the fields to zero. -/
theorem runClause_releaseClause (ha : a.WellFormed) (m : Machine S) :
    E.runClause (a.releaseClause probes s) m =
      (Machine.storeAll (a.cells E.depth fun _ => some 0) m).1 := by
  have hall : ∀ (fields : List EntryField) (m : Machine S),
      E.performAll (fields.map fun f => .expr ((a.slot f s).assign (.int 0 s) s)) m =
        Machine.storeAll (fields.map fun f => ((Slot.entry f a.group).cell E.depth, some 0)) m := by
    intro fields
    induction fields with
    | nil => exact fun _ => rfl
    | cons f fields ih =>
        intro m
        rw [List.map_cons, performAll, Capture.slot, perform_assign, List.map_cons]
        exact ih _
  have hdone : (Machine.storeAll (a.cells E.depth fun _ => some 0) m).2 = .done :=
    Capture.storeAll_cells_done (fun _ _ => rfl) m
  have hfields : a.fields.toList.filter (·.isCaptured) = a.fields.toList :=
    List.filter_eq_self.mpr ha.captured
  show settle (E.performAll ((a.fields.toList.filter (·.isCaptured)).map _) m) = _
  rw [hfields, hall]
  show settle (Machine.storeAll (a.cells E.depth fun _ => some 0) m) = _
  rcases hstore : Machine.storeAll (a.cells E.depth fun _ => some 0) m with ⟨m', _ | _⟩
  · rfl
  · rw [hstore] at hdone
    cases hdone

/-- All fields can be read at the entry. -/
def Completes (a : Capture) : Prop := ∀ f ∈ a.fields, (E.field f).isSome

/-- What is stored at one depth is of no concern to another. -/
private theorem read_storeAll_of_ne {depth depth' : Nat} (h : depth' ≠ depth)
    (value : EntryField → Option Int) (m : Machine S) (f : EntryField) (group : UInt32) :
    (Machine.storeAll (a.cells depth value) m).1.read depth' (.entry f group) =
      m.read depth' (.entry f group) := by
  refine Machine.slots_storeAll_of_ne (fun w hw heq => ?_) m
  obtain ⟨g, -, rfl⟩ := List.mem_map.mp hw
  exact h (Option.some.inj (congrArg Cell.index heq)).symm

private theorem keeps_settle (a : Machine S × Outcome) : a.1.Keeps (settle a) := by
  rcases a with ⟨m, _ | _⟩
  · exact .of_slots rfl
  · exact m.keeps_raise

/-- An entry leaves the values that were captured for other depths of the stack. -/
theorem read_capture_of_ne (ha : a.WellFormed) {depth : Nat} (h : depth ≠ E.depth)
    (m : Machine S) (f : EntryField) (group : UInt32) :
    (E.runClause (a.captureClause probes s) m).read depth (.entry f group) =
      m.read depth (.entry f group) := by
  rw [E.runClause_captureClause ha, (keeps_settle _).entry, read_storeAll_of_ne h]

/-- After an entry where all fields could be read, all of them are there. -/
theorem field_eq_read_capture (ha : a.WellFormed) (h : E.Completes a) (m : Machine S)
    {f : EntryField} (hf : f ∈ a.fields) :
    E.field f = some ((E.runClause (a.captureClause probes s) m).read E.depth
      (.entry f a.group)) := by
  obtain ⟨v, hv⟩ := Option.isSome_iff_exists.mp (h f hf)
  have hdone : (Machine.storeAll (a.cells E.depth E.field) m).2 = .done :=
    Capture.storeAll_cells_done h m
  have hmem : ((Slot.entry f a.group).cell E.depth, some v) ∈ a.cells E.depth E.field :=
    List.mem_map.mpr ⟨f, hf, by rw [hv]⟩
  rw [E.runClause_captureClause ha, (keeps_settle _).entry, hv]
  exact congrArg some (Machine.slots_storeAll_of_mem (a.nodup_cells _ _) m hdone hmem).symm

/-- After an entry where something was missing, the time of entry is what it was: it
    would have been stored last. -/
theorem read_marker_capture (ha : a.WellFormed) (h : ¬ E.Completes a) (m : Machine S) :
    (E.runClause (a.captureClause probes s) m).read E.depth (.entry .timestamp a.group) =
      m.read E.depth (.entry .timestamp a.group) := by
  obtain ⟨before, hfields, hnot⟩ := FieldSet.toList_eq_append ha.marker
  have hframe : ∀ m : Machine S, (Machine.storeAll (before.map fun f =>
      ((Slot.entry f a.group).cell E.depth, E.field f)) m).1.read E.depth
        (.entry .timestamp a.group) = m.read E.depth (.entry .timestamp a.group) := by
    refine Machine.slots_storeAll_of_ne fun w hw heq => hnot ?_
    obtain ⟨g, hg, rfl⟩ := List.mem_map.mp hw
    obtain ⟨rfl, -⟩ := Slot.entry.inj (Slot.cell_injective heq)
    exact hg
  rw [E.runClause_captureClause ha, (keeps_settle _).entry, Capture.cells, hfields,
    List.map_append, Machine.storeAll_append]
  have hbefore := hframe m
  -- it is missing itself, or nothing was stored after another one that is missing
  rcases hstore : Machine.storeAll (before.map fun f =>
      ((Slot.entry f a.group).cell E.depth, E.field f)) m with ⟨m', _ | _⟩
  all_goals rw [hstore] at hbefore
  · cases hmark : E.field .timestamp with
    | none =>
        show (Machine.storeAll [((Slot.entry .timestamp a.group).cell E.depth,
          E.field .timestamp)] m').1.read _ _ = _
        rw [hmark]
        exact hbefore
    | some v =>
        -- then all of them could be read
        refine absurd (fun f hf => ?_) h
        have hf : f ∈ a.fields.toList := hf
        rw [hfields] at hf
        rcases List.mem_append.mp hf with hf | hf
        · have hdone := congrArg Prod.snd hstore
          exact (Machine.storeAll_done_iff m).mp hdone _ (List.mem_map.mpr ⟨f, hf, rfl⟩)
        · rw [List.mem_singleton.mp hf, hmark]
          rfl
  · exact hbefore

/-- A release leaves what was captured for other depths. -/
theorem read_release_of_ne (ha : a.WellFormed) {depth : Nat} (h : depth ≠ E.depth)
    (m : Machine S) (f : EntryField) (group : UInt32) :
    (E.runClause (a.releaseClause probes s) m).read depth (.entry f group) =
      m.read depth (.entry f group) := by
  rw [E.runClause_releaseClause ha, read_storeAll_of_ne h]

/-- A release sets the slots of its own depth to zero, the marker included. -/
theorem read_release (ha : a.WellFormed) (m : Machine S) {f : EntryField} (hf : f ∈ a.fields) :
    (E.runClause (a.releaseClause probes s) m).read E.depth (.entry f a.group) = 0 := by
  rw [E.runClause_releaseClause ha]
  exact Machine.slots_storeAll_of_mem (a.nodup_cells _ _) m
    (Capture.storeAll_cells_done (fun _ _ => rfl) m) (List.mem_map.mpr ⟨f, hf, rfl⟩)

end Engine

end ProbeLang
