import ProbeLang.Expr.Basic

/-! # Entry fields

    What a clause at a return can ask about the entry of the same call.  Most
    fields are values that are captured at the entry; the elapsed times are worked
    out at the return, from the captured time of entry. -/

namespace ProbeLang

/-- A unit in which an elapsed time is asked for. -/
inductive TimeUnit where
  | ns
  | us
  | ms
  | sec
deriving DecidableEq, Repr

namespace TimeUnit

/-- The name of the unit. -/
def name : TimeUnit → String
  | ns => "ns"
  | us => "us"
  | ms => "ms"
  | sec => "sec"

/-- How many nanoseconds the unit has. -/
def nanoseconds : TimeUnit → UInt64
  | ns => 1
  | us => 1000
  | ms => 1000000
  | sec => 1000000000

/-- The units, from the shortest to the longest. -/
def all : List TimeUnit := [ns, us, ms, sec]

/-- The position of the unit among all units. -/
def index : TimeUnit → Nat
  | ns => 0
  | us => 1
  | ms => 2
  | sec => 3

end TimeUnit

/-- A field of the entry of a call. -/
inductive EntryField where
  | vtimestamp
  | walltimestamp
  | errno
  /-- The time since the entry. -/
  | elapsed (unit : TimeUnit)
  /-- The argument `n` as an integer. -/
  | arg (n : Nat)
  /-- The argument `n` with its type. -/
  | args (n : Nat)
  /-- The time of the entry; a captured time also marks that the entry was seen. -/
  | timestamp
deriving DecidableEq, Repr

namespace EntryField

/-- The last argument that can be asked for. -/
def maxArg : Nat := 9

/-- The name of the field. -/
def name : EntryField → String
  | vtimestamp => "vtimestamp"
  | walltimestamp => "walltimestamp"
  | errno => "errno"
  | elapsed unit => "elapsed_" ++ unit.name
  | arg n => "arg" ++ toString n
  | args n => "args" ++ toString n
  | timestamp => "timestamp"

/-- All fields that can be asked for, in the order in which they are captured. -/
def registry : List EntryField :=
  [vtimestamp, walltimestamp, errno] ++ TimeUnit.all.map elapsed ++
    (List.range (maxArg + 1)).map arg ++ (List.range (maxArg + 1)).map args ++ [timestamp]

/-- The number that a text of one decimal digit stands for. -/
def digit? : List Char → Option Nat
  | [c] => if '0' ≤ c ∧ c ≤ '9' then some (c.toNat - '0'.toNat) else none
  | _ => none

/-- The field whose name has one of the shapes with a varying end. -/
def ofFamily? (name : List Char) : Option EntryField :=
  match "elapsed_".toList.isPrefixOf? name with
  | some unit => (TimeUnit.all.find? fun u => u.name.toList == unit).map elapsed
  | none =>
      match "args".toList.isPrefixOf? name with
      | some n => (digit? n).map args
      | none => (("arg".toList.isPrefixOf? name).bind digit?).map arg

/-- The field with a given name. -/
def ofName? (name : String) : Option EntryField :=
  if name = "vtimestamp" then some vtimestamp
  else if name = "walltimestamp" then some walltimestamp
  else if name = "errno" then some errno
  else if name = "timestamp" then some timestamp
  else ofFamily? name.toList

/-- The unit of an elapsed time, in nanoseconds. -/
def divisor? : EntryField → Option UInt64
  | elapsed unit => some unit.nanoseconds
  | _ => none

/-- Whether the field is captured at the entry. -/
def isCaptured (f : EntryField) : Bool := f.divisor?.isNone

/-- The expression whose value at the entry is the field, if the field is captured. -/
def captured? (f : EntryField) (s : Span) : Option Expr :=
  match f with
  | elapsed _ => none
  | args n => some (.index (.ident "args" s) [.int (UInt64.ofNat n) s] s)
  | f => some (.ident f.name s)

/-! ## The order of capture -/

/-- The family that a field belongs to. -/
def family : EntryField → Nat
  | vtimestamp => 0
  | walltimestamp => 1
  | errno => 2
  | elapsed _ => 3
  | arg _ => 4
  | args _ => 5
  | timestamp => 6

/-- The position of a field in its family. -/
def position : EntryField → Nat
  | elapsed unit => unit.index
  | arg n => n
  | args n => n
  | _ => 0

/-- Fields are ordered by family, and within one by position. -/
instance : LT EntryField :=
  ⟨fun f g => f.family < g.family ∨ f.family = g.family ∧ f.position < g.position⟩

instance (f g : EntryField) : Decidable (f < g) :=
  inferInstanceAs (Decidable (_ ∨ _))

theorem lt_iff {f g : EntryField} :
    f < g ↔ f.family < g.family ∨ f.family = g.family ∧ f.position < g.position :=
  Iff.rfl

theorem lt_trans {f g h : EntryField} (hfg : f < g) (hgh : g < h) : f < h := by
  rw [lt_iff] at *
  omega

/-- Two fields of which neither comes first are the same. -/
theorem eq_of_not_lt {f g : EntryField} (hfg : ¬ f < g) (hgf : ¬ g < f) : f = g := by
  rw [lt_iff] at hfg hgf
  have hfam : f.family = g.family := by omega
  have hpos : f.position = g.position := by omega
  cases f <;> cases g <;> simp_all [family, position]
  case elapsed.elapsed u v => cases u <;> cases v <;> simp_all [TimeUnit.index]

/-- The fields of a list in order, each as often as before. -/
def sort (fields : List EntryField) : List EntryField :=
  fields.mergeSort fun f g => !decide (g < f)

end EntryField

end ProbeLang
