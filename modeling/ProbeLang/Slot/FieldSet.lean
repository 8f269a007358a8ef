import ProbeLang.Slot.EntryField

/-! # Sets of entry fields

    A set of fields is kept as the list of its members in the order of capture,
    each one once. -/

namespace ProbeLang

/-- A finite set of entry fields. -/
structure FieldSet where
  /-- The members, in order. -/
  toList : List EntryField
  ordered : toList.Pairwise (· < ·)
deriving DecidableEq

namespace FieldSet

/-- The list `fields` with `f` at its place, unless it is there already. -/
def place (f : EntryField) : List EntryField → List EntryField
  | [] => [f]
  | g :: gs => if f < g then f :: g :: gs else if g < f then g :: place f gs else g :: gs

theorem mem_place {f x : EntryField} {fields : List EntryField} :
    x ∈ place f fields ↔ x = f ∨ x ∈ fields := by
  induction fields with
  | nil => simp [place]
  | cons g gs ih =>
      by_cases hfg : f < g
      · simp [place, hfg]
      · by_cases hgf : g < f
        · simp [place, hfg, hgf, ih, or_left_comm]
        · obtain rfl := EntryField.eq_of_not_lt hfg hgf
          simp [place, hfg]

theorem ordered_place {f : EntryField} {fields : List EntryField}
    (h : fields.Pairwise (· < ·)) : (place f fields).Pairwise (· < ·) := by
  induction fields with
  | nil => simp [place]
  | cons g gs ih =>
      obtain ⟨hg, hgs⟩ := List.pairwise_cons.mp h
      unfold place
      split
      · rename_i hfg
        refine List.pairwise_cons.mpr ⟨?_, h⟩
        intro x hx
        rcases List.mem_cons.mp hx with rfl | hx
        · exact hfg
        · exact EntryField.lt_trans hfg (hg x hx)
      · split
        · rename_i hgf
          refine List.pairwise_cons.mpr ⟨?_, ih hgs⟩
          intro x hx
          rcases mem_place.mp hx with rfl | hx
          · exact hgf
          · exact hg x hx
        · exact h

/-- The set without members. -/
def empty : FieldSet := ⟨[], List.Pairwise.nil⟩

/-- The set with `f` added. -/
def insert (s : FieldSet) (f : EntryField) : FieldSet :=
  ⟨place f s.toList, ordered_place s.ordered⟩

/-- The set of the fields of a list. -/
def ofList (fields : List EntryField) : FieldSet := fields.foldl insert empty

instance : Membership EntryField FieldSet := ⟨fun s f => f ∈ s.toList⟩

@[simp] theorem mem_insert {s : FieldSet} {f x : EntryField} :
    x ∈ s.insert f ↔ x = f ∨ x ∈ s := mem_place

end FieldSet

end ProbeLang
