import ProbeLang.Proofs.Parts
import ProbeLang.Slot.Basic

/-! # The names of slots

    A slot is told by its name: `Slot.name_injective`.  The number at the end of a
    name is in decimal and holds no underscore, so the last underscore of the name
    of an entry slot divides its field from its group.

    A name is reserved if it starts with the mark that all slots have.  A source is
    expected to leave those names alone (`Clause.Unreserved`).

    Slots are told apart by their words.  The words of new groups and counters differ
    from the ones before as long as there is room for them (`Ids.HasRoom`): past the
    last word they start again at zero. -/

namespace ProbeLang

/-! ## Room for numbers -/

namespace Ids

/-- What has been handed out after so many groups and counters more. -/
def taking (ids : Ids) (groups counters : Nat) : Ids :=
  ⟨ids.groups + UInt32.ofNat groups, ids.counters + UInt32.ofNat counters⟩

theorem taking_zero (ids : Ids) : ids.taking 0 0 = ids :=
  congr (congrArg Ids.mk (UInt32.add_zero _)) (UInt32.add_zero _)

/-- So many groups and counters can be handed out without going past the last word. -/
structure HasRoom (ids : Ids) (groups counters : Nat) : Prop where
  groups : ids.groups.toNat + groups < UInt32.size
  counters : ids.counters.toNat + counters < UInt32.size

variable {ids : Ids} {groups groups' counters counters' : Nat}

instance : Decidable (ids.HasRoom groups counters) :=
  decidable_of_iff
    (ids.groups.toNat + groups < UInt32.size ∧ ids.counters.toNat + counters < UInt32.size)
    ⟨fun h => ⟨h.1, h.2⟩, fun h => ⟨h.1, h.2⟩⟩

namespace HasRoom

/-- With room for them, the numbers that have been handed out add up. -/
theorem toNat_groups (h : ids.HasRoom groups counters) :
    (ids.taking groups counters).groups.toNat = ids.groups.toNat + groups :=
  toNat_add_ofNat h.groups

/-- Counters are counted exactly, as long as there is room. -/
theorem toNat_counters (h : ids.HasRoom groups counters) :
    (ids.taking groups counters).counters.toNat = ids.counters.toNat + counters :=
  toNat_add_ofNat h.counters

/-- Room for more is room for less. -/
theorem mono (h : ids.HasRoom groups counters) (hg : groups' ≤ groups) (hk : counters' ≤ counters) :
    ids.HasRoom groups' counters' :=
  ⟨Nat.lt_of_le_of_lt (Nat.add_le_add_left hg _) h.groups,
    Nat.lt_of_le_of_lt (Nat.add_le_add_left hk _) h.counters⟩

/-- What is left of the room once some of it has been taken. -/
theorem taking (h : ids.HasRoom (groups + groups') (counters + counters')) :
    (ids.taking groups counters).HasRoom groups' counters' := by
  have hfirst := h.mono (Nat.le_add_right groups groups') (Nat.le_add_right counters counters')
  refine ⟨?_, ?_⟩
  · rw [hfirst.toNat_groups, Nat.add_assoc]
    exact h.groups
  · rw [hfirst.toNat_counters, Nat.add_assoc]
    exact h.counters

end HasRoom

end Ids

/-! ## Numbers in names -/

/-- A number is told by its decimal text. -/
theorem toDigits_injective {m n : Nat} (h : Nat.toDigits 10 m = Nat.toDigits 10 n) :
    m = n :=
  calc m = Nat.ofDigitChars 10 (Nat.toDigits 10 m) 0 := Nat.ofDigitChars_ten_toDigits.symm
    _ = Nat.ofDigitChars 10 (Nat.toDigits 10 n) 0 := by rw [h]
    _ = n := Nat.ofDigitChars_ten_toDigits

/-- No digit is anything but a digit, so a text around a number can be told from it. -/
theorem not_mem_toDigits {c : Char} (hc : c.isDigit = false) (n : Nat) :
    c ∉ Nat.toDigits 10 n := by
  intro h
  have hdigit := Nat.isDigit_of_mem_toDigits (by omega) (by omega) h
  rw [hc] at hdigit
  exact Bool.noConfusion hdigit

/-- The last separator divides a text in one way only. -/
private theorem append_separator_inj {sep : Char} {xs ys ds es : List Char}
    (hds : sep ∉ ds) (hes : sep ∉ es) (h : xs ++ sep :: ds = ys ++ sep :: es) :
    xs = ys ∧ ds = es := by
  rcases List.append_eq_append_iff.mp h with ⟨as, hys, htail⟩ | ⟨as, hxs, htail⟩
  · cases as with
    | nil => simp_all
    | cons a as =>
        obtain ⟨-, hd⟩ := List.cons.inj htail
        exact absurd (by rw [hd]; simp) hds
  · cases as with
    | nil => simp_all
    | cons a as =>
        obtain ⟨-, he⟩ := List.cons.inj htail
        exact absurd (by rw [he]; simp) hes

private theorem TimeUnit.name_injective {u v : TimeUnit} (h : u.name = v.name) : u = v := by
  cases u <;> cases v <;> simp_all [TimeUnit.name]

/-- A field is told by its name. -/
theorem EntryField.name_injective {f g : EntryField} (h : f.name = g.name) : f = g := by
  have hlist := congrArg String.toList h
  -- the first letters tell most families apart; `arg` and `args` need a look at the digits
  cases f <;> cases g <;> simp [name] at hlist ⊢
  case elapsed.elapsed u v => exact TimeUnit.name_injective (String.toList_inj.mp hlist)
  case arg.arg m n => exact toDigits_injective hlist
  case args.args m n => exact toDigits_injective hlist
  case arg.args m n => exact not_mem_toDigits (c := 's') rfl m (by simp [hlist])
  case args.arg m n => exact not_mem_toDigits (c := 's') rfl n (by simp [← hlist])

/-- A field and a number, with an underscore between them, are told apart again: whatever
    underscores and digits the name of the field has, the last underscore is not in it. -/
theorem EntryField.name_number_inj {f g : EntryField} {m n : Nat}
    (h : f.name.toList ++ '_' :: Nat.toDigits 10 m = g.name.toList ++ '_' :: Nat.toDigits 10 n) :
    f = g ∧ m = n := by
  obtain ⟨hfield, hnumber⟩ :=
    append_separator_inj (not_mem_toDigits rfl m) (not_mem_toDigits rfl n) h
  exact ⟨name_injective (String.toList_inj.mp hfield), toDigits_injective hnumber⟩

namespace Slot

/-- A slot is told by its name. -/
theorem name_injective {a b : Slot} (h : a.name = b.name) : a = b := by
  have hlist := congrArg String.toList h
  -- the letters after the mark tell the kinds of slots apart
  cases a <;> cases b <;> simp [name, mark, ConditionId.text] at hlist ⊢
  case condition.condition i j =>
    obtain ⟨i, hi⟩ := i
    obtain ⟨j, hj⟩ := j
    obtain rfl : i = j := toDigits_injective hlist
    rfl
  case callers.callers i j => exact UInt32.toNat_inj.mp (toDigits_injective hlist)
  case entry.entry f m g n =>
    obtain ⟨hfield, hgroup⟩ := EntryField.name_number_inj hlist
    exact ⟨hfield, UInt32.toNat_inj.mp hgroup⟩

/-- Slots have the same name only if they are the same: no kind of slot has names that
    another kind has, and no number is written like another one.  In particular the field
    and the group of an entry slot cannot be read off its name in a second way. -/
theorem name_eq_iff (a b : Slot) :
    (a.name = b.name ↔ a = b) ∧
      ∀ (f g : EntryField) (m n : Nat),
        f.name ++ "_" ++ toString m = g.name ++ "_" ++ toString n ↔ f = g ∧ m = n := by
  refine ⟨⟨name_injective, congrArg name⟩, ?_⟩
  intro f g m n
  constructor
  · intro h
    refine EntryField.name_number_inj ?_
    simpa using congrArg String.toList h
  · rintro ⟨rfl, rfl⟩
    rfl

/-! ## Reserved names -/

/-- Whether a name starts like those of slots. -/
def isReserved (name : String) : Bool := mark.toList.isPrefixOf name.toList

/-- A reserved name is the mark with anything behind it. -/
theorem isReserved_iff {name : String} :
    isReserved name = true ↔ ∃ rest, name.toList = mark.toList ++ rest := by
  rw [isReserved, List.isPrefixOf_iff_prefix]
  exact exists_congr fun rest => eq_comm

/-- All slots have reserved names; this is what keeps them apart from the script's own
    variables. -/
@[simp] theorem isReserved_name (slot : Slot) : isReserved slot.name = true := by
  rw [isReserved_iff]
  cases slot <;> simp [name, String.toList_append]

/-- No field is called like a slot. -/
theorem isReserved_fieldName (f : EntryField) : isReserved f.name = false := by
  cases f <;> simp [isReserved, EntryField.name, mark, List.isPrefixOf]

/-- The scopes of slots are names that scripts use too. -/
theorem isReserved_scope (slot : Slot) : isReserved slot.scope = false := by
  cases slot <;> simp only [scope] <;> decide

end Slot

namespace Expr

/-- The name, if the expression is an identifier with a reserved one. -/
def reservedName? (e : Expr) : Option String := e.identName?.filter Slot.isReserved

/-- The names of the slots that an expression speaks of, in source order. -/
def reservedNames (e : Expr) : List String := e.nodes.filterMap reservedName?

/-- The reserved names of an expression are its own one, if it is a name, and then those
    of its parts in order. -/
theorem reservedNames_eq (e : Expr) :
    e.reservedNames = e.reservedName?.toList ++ e.parts.flatMap reservedNames := by
  rw [reservedNames, nodes_eq, List.filterMap_cons, List.filterMap_flatMap]
  cases e.reservedName? <;> rfl

theorem reservedNames_ident (name : String) (s : Span) :
    (ident name s).reservedNames = if Slot.isReserved name then [name] else [] := by
  cases h : Slot.isReserved name <;>
    simp [reservedNames, nodes, reservedName?, identName?, Option.filter, h]

@[simp] theorem reservedNames_int (n : UInt64) (s : Span) : (int n s).reservedNames = [] := rfl

@[simp] theorem reservedNames_unary (op : UnaryOp) (a : Expr) (s : Span) :
    (unary op a s).reservedNames = a.reservedNames := by
  rw [reservedNames_eq]
  exact List.flatMap_singleton _ a

@[simp] theorem reservedNames_binary (op : BinaryOp) (a b : Expr) (s : Span) :
    (binary op a b s).reservedNames = a.reservedNames ++ b.reservedNames := by
  rw [reservedNames_eq]
  simp [parts, reservedName?, identName?]

/-- No identifier of the expression has a reserved name. -/
def Unreserved (e : Expr) : Prop := ∀ x ∈ e.nodes, x.reservedName? = none

instance (e : Expr) : Decidable e.Unreserved :=
  inferInstanceAs (Decidable (∀ x ∈ e.nodes, x.reservedName? = none))

/-- Code without reserved names has none to list. -/
theorem Unreserved.reservedNames {e : Expr} (h : e.Unreserved) : e.reservedNames = [] :=
  List.filterMap_eq_nil_iff.mpr h

/-- What is asked of all nodes is asked of the nodes of each part. -/
theorem Unreserved.of_mem_parts {e p : Expr} (h : e.Unreserved) (hp : p ∈ e.parts) :
    p.Unreserved :=
  fun x hx => h x (mem_nodes_of_mem_parts hp hx)

end Expr

/-- A reference to a slot speaks of that slot only. -/
@[simp] theorem Slot.reservedNames_expr (slot : Slot) (s : Span) :
    (slot.expr s).reservedNames = [slot.name] := by
  have hstorage : (slot.storage s).reservedNames = [slot.name] := by
    rw [Expr.reservedNames_eq, storage, Expr.scopeVar, Expr.ptr]
    simp [Expr.reservedName?, Expr.identName?, Expr.parts, Expr.reservedNames_ident,
      isReserved_scope]
  cases slot with
  | entry f group =>
      show (Expr.index ((Slot.entry f group).storage s) [.ident "stackdepth" s] s).reservedNames = _
      rw [Expr.reservedNames_eq, Expr.parts, List.flatMap_cons, hstorage]
      rfl
  | _ => exact hstorage

namespace Clause

/-- The names of the slots that a clause speaks of, in source order. -/
def reservedNames (c : Clause) : List String := c.exprs.flatMap Expr.reservedNames

/-- No identifier of the clause has a reserved name. -/
def Unreserved (c : Clause) : Prop := ∀ x ∈ c.exprNodes, x.reservedName? = none

instance (c : Clause) : Decidable c.Unreserved :=
  inferInstanceAs (Decidable (∀ x ∈ c.exprNodes, x.reservedName? = none))

/-- And a clause has no expression that speaks of a slot. -/
theorem Unreserved.of_mem_exprs {c : Clause} {e : Expr} (h : c.Unreserved) (he : e ∈ c.exprs) :
    e.Unreserved := by
  intro x hx
  refine h x ?_
  rw [exprNodes_eq]
  exact List.mem_flatMap.mpr ⟨e, he, hx⟩

end Clause

end ProbeLang
