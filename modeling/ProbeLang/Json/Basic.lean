/-! # JSON values

    The values in which scripts and options are exchanged, and the ways to take
    them apart.  What a value gives away is smaller than the value itself; the
    accessors say so in their types, which is what readers of nested values recurse
    on. -/

namespace ProbeLang

/-- A JSON value. -/
inductive Json where
  | null
  | bool (value : Bool)
  /-- The number `mantissa / 10 ^ scale`. -/
  | num (mantissa : Int) (scale : Nat)
  | str (value : String)
  | arr (items : List Json)
  | obj (members : List (String × Json))
deriving Inhabited

namespace Json

/-- A natural number as a value. -/
def nat (n : Nat) : Json := num n 0

/-- An object with one member. -/
def tagged (tag : String) (content : Json) : Json := obj [(tag, content)]

/-- The value of the first member called `key`. -/
def find? (key : String) :
    (members : List (String × Json)) → Option { v : Json // sizeOf v < sizeOf members }
  | [] => none
  | (k, v) :: rest =>
      if k = key then some ⟨v, by simp; omega⟩
      else (find? key rest).map fun r => ⟨r.val, by have := r.property; simp; omega⟩

/-- The member `key` of an object. -/
def field? (key : String) : (j : Json) → Option { v : Json // sizeOf v < sizeOf j }
  | obj members =>
      (find? key members).map fun r => ⟨r.val, by have := r.property; simp; omega⟩
  | _ => none

/-- The member `key` of an object, unless it is null. -/
def present? (key : String) (j : Json) : Option { v : Json // sizeOf v < sizeOf j } :=
  match j.field? key with
  | some ⟨null, _⟩ => none
  | r => r

/-- The only member of an object that has no other one. -/
def variant? : (j : Json) → Option (String × { v : Json // sizeOf v < sizeOf j })
  | obj [(tag, v)] => some (tag, ⟨v, by simp; omega⟩)
  | _ => none

/-- The name of a form without content: it stands alone, or it is the only member
    of an object and has a null as its content. -/
def unit? : Json → Option String
  | str tag => some tag
  | obj [(tag, null)] => some tag
  | _ => none

/-- The item at the place that `key` has in `layout`. -/
def itemAt? (key : String) :
    (layout : List String) → (items : List Json) → Option { v : Json // sizeOf v < sizeOf items }
  | k :: layout, v :: rest =>
      if k = key then some ⟨v, by simp; omega⟩
      else (itemAt? key layout rest).map fun r => ⟨r.val, by have := r.property; simp; omega⟩
  | _, _ => none

/-- The field `key` of a record: the member of an object, or the item of an array
    that lists the values of all fields in the order of `layout`. -/
def recordField? (layout : List String) (key : String) :
    (j : Json) → Option { v : Json // sizeOf v < sizeOf j }
  | arr items =>
      if items.length = layout.length then
        (itemAt? key layout items).map fun r => ⟨r.val, by have := r.property; simp; omega⟩
      else none
  | j => j.field? key

/-- The items of an array. -/
def items? : (j : Json) → Option { vs : List Json // sizeOf vs < sizeOf j }
  | arr items => some ⟨items, by simp⟩
  | _ => none

/-- The text of a string. -/
def text? : Json → Option String
  | str s => some s
  | _ => none

/-- The truth value of a boolean. -/
def bool? : Json → Option Bool
  | bool b => some b
  | _ => none

/-- The value of a whole number that is not negative and less than `bound`. -/
def natBelow? (bound : Nat) : Json → Option Nat
  | num (.ofNat n) 0 => if n < bound then some n else none
  | _ => none

/-- The value of a number that fits in 16 bits. -/
def uint16? (j : Json) : Option UInt16 := (j.natBelow? UInt16.size).map UInt16.ofNat

/-- The value of a number that fits in 32 bits. -/
def uint32? (j : Json) : Option UInt32 := (j.natBelow? UInt32.size).map UInt32.ofNat

/-- The value of a number that fits in 64 bits. -/
def uint64? (j : Json) : Option UInt64 := (j.natBelow? UInt64.size).map UInt64.ofNat

/-- What `read` makes of each item of an array, if it accepts them all. -/
def listOf? {α : Type} (read : Json → Option α) (j : Json) : Option (List α) :=
  j.items?.bind fun items => items.val.mapM read

end Json

end ProbeLang
