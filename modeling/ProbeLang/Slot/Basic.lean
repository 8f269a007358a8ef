import ProbeLang.Slot.EntryField

/-! # Slots

    The variables that expansion brings into a script.  Their names all start with
    a mark that scripts do not use.  Conditions live for one firing of a probe and
    belong to `this`; what has to outlive it belongs to the thread, `self`.

    Slots are numbered with 32-bit words.  Capture groups and counters are numbered
    across a whole program, so that no two clauses of it share one; `Ids` counts them
    in words, and the number after the last word is zero again.

    Conditions are numbered within one clause, from one up.  A `ConditionId` holds the
    exact number; `ConditionId.word` is the word that it is kept in, and counts up
    by the addition of words.  The two agree below `2 ^ 32`: a clause with fewer
    conditions than that gives each one its word as its number and in its name. -/

namespace ProbeLang

/-! ## Numbers -/

/-- `n` steps up from a word are exact as long as they do not lead past the last word. -/
theorem toNat_add_ofNat {a : UInt32} {n : Nat} (h : a.toNat + n < UInt32.size) :
    (a + UInt32.ofNat n).toNat = a.toNat + n := by
  have hn : (UInt32.ofNat n).toNat = n :=
    UInt32.toNat_ofNat_of_lt' (Nat.lt_of_le_of_lt (Nat.le_add_left n a.toNat) h)
  rw [UInt32.toNat_add, hn]
  exact Nat.mod_eq_of_lt h

/-- One more step up from a word. -/
theorem add_ofNat_add_one (a : UInt32) (n : Nat) :
    a + UInt32.ofNat n + 1 = a + UInt32.ofNat (n + 1) := by
  rw [UInt32.ofNat_add, UInt32.add_assoc]
  rfl

/-- The number of a condition. -/
structure ConditionId where
  index : Nat
  pos : 0 < index
deriving DecidableEq

namespace ConditionId

/-- The condition numbered `n`; there is none numbered zero. -/
def ofNat? (n : Nat) : Option ConditionId :=
  if h : 0 < n then some ⟨n, h⟩ else none

/-- The condition that is numbered next after `n` others. -/
def after (n : Nat) : ConditionId := ⟨n + 1, Nat.succ_pos n⟩

/-- The first condition. -/
def first : ConditionId := after 0

/-- The condition after this one. -/
def next (c : ConditionId) : ConditionId := after c.index

/-- The number in decimal. -/
def text (c : ConditionId) : String := toString c.index

/-- The word that the number is kept in. -/
def word (c : ConditionId) : UInt32 := UInt32.ofNat c.index

/-- After `n` conditions the next word is the one after that of `n`, the wrap included. -/
theorem word_after (n : Nat) : (after n).word = UInt32.ofNat n + 1 := UInt32.ofNat_add n 1

/-- A number below `2 ^ 32` is its word. -/
theorem toNat_word {c : ConditionId} (h : c.index < UInt32.size) : c.word.toNat = c.index :=
  UInt32.toNat_ofNat_of_lt' h

end ConditionId

/-- How many capture groups and counters have been handed out. -/
structure Ids where
  groups : UInt32
  counters : UInt32
deriving DecidableEq, Repr

namespace Ids

/-- Nothing has been handed out. -/
def fresh : Ids := ⟨0, 0⟩

instance : Inhabited Ids := ⟨fresh⟩

/-- Hands out the number of a new capture group. -/
def newGroup (ids : Ids) : UInt32 × Ids :=
  (ids.groups + 1, { ids with groups := ids.groups + 1 })

/-- Hands out the number of a new counter. -/
def newCounter (ids : Ids) : UInt32 × Ids :=
  (ids.counters + 1, { ids with counters := ids.counters + 1 })

end Ids

/-! ## Variables -/

/-- A variable that expansion brings in. -/
inductive Slot where
  /-- Set when a clause has failed. -/
  | error
  /-- The value of a test. -/
  | condition (id : ConditionId)
  /-- The captured value of a field, one for each depth of the stack. -/
  | entry (field : EntryField) (group : UInt32)
  /-- How many calls of certain functions are open. -/
  | callers (id : UInt32)
deriving DecidableEq

namespace Slot

/-- How the name of every slot starts. -/
def mark : String := "_XD_"

/-- The scope that the slot belongs to. -/
def scope : Slot → String
  | condition _ => "this"
  | _ => "self"

/-- The name of the slot. -/
def name : Slot → String
  | error => mark ++ "error"
  | condition id => mark ++ "condition_" ++ id.text
  | entry field group => mark ++ "entry_" ++ field.name ++ "_" ++ toString group.toNat
  | callers id => mark ++ "callers_" ++ toString id.toNat

/-- The variable that the slot is kept in. -/
def storage (slot : Slot) (s : Span) : Expr := .scopeVar slot.scope slot.name s

/-- A reference to the slot.  That of an entry slot is to its value for the
    current depth of the stack. -/
def expr (slot : Slot) (s : Span) : Expr :=
  match slot with
  | entry .. => .index (slot.storage s) [.ident "stackdepth" s] s
  | _ => slot.storage s

end Slot

end ProbeLang
