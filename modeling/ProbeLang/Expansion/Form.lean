import ProbeLang.Slot.Basic
import ProbeLang.Slot.FieldSet

/-! # Forms, and what they need

    The expressions that ask for something that only expansion can provide:
    `entry->field`, `entry->args[n]` and `callers["targets"]`.  An expression that
    looks like one of them but has another shape is no form, and means what it
    says.

    A clause with such forms needs more than its own statements: values that are
    captured at the entry of a call, and counters of open calls. -/

namespace ProbeLang

/-- What a form asks for. -/
inductive Form where
  /-- A field of the entry. -/
  | field (f : EntryField)
  /-- An argument of the entry. -/
  | arg (n : Nat)
  /-- The number of open calls of the targets. -/
  | callers (targets : String)
deriving DecidableEq, Repr

namespace Form

/-- The member, if the expression is `entry->member`. -/
def entryMember? : Expr → Option String
  | .binary .ptr base member _ => if base.isIdent "entry" then member.identName? else none
  | _ => none

/-- The field, if the expression is `entry->field`. -/
def entryField? (e : Expr) : Option EntryField :=
  (entryMember? e).bind EntryField.ofName?

/-- The number, if the expression is `entry->args[n]`. -/
def entryArg? : Expr → Option Nat
  | .index base [.int n _] _ =>
      if entryMember? base = some "args" ∧ n.toNat ≤ EntryField.maxArg then some n.toNat
      else none
  | _ => none

/-- The targets, if the expression is `callers["targets"]`. -/
def callersTargets? : Expr → Option String
  | .index base [.str targets _] _ => if base.isIdent "callers" then some targets else none
  | _ => none

/-- The form that asks for something about the entry. -/
def ofEntry? (e : Expr) : Option Form :=
  match entryField? e with
  | some f => some (field f)
  | none => (entryArg? e).map arg

/-- The form that an expression is.  The entry can only be asked about at returns. -/
def of? (inReturn : Bool) (e : Expr) : Option Form :=
  match if inReturn then ofEntry? e else none with
  | some f => some f
  | none => (callersTargets? e).map callers

end Form

/-! ## What a clause needs -/

/-- The fields that a clause captures, and the group that their slots are in. -/
structure Capture where
  group : UInt32
  fields : FieldSet
deriving DecidableEq

/-- A counter of the open calls of its targets. -/
structure Counter where
  id : UInt32
  /-- Probe descriptions without their names, with commas between them. -/
  targets : String
  span : Span
deriving DecidableEq, Repr

/-- What a clause needs besides its own statements. -/
structure Needs where
  capture : Option Capture
  /-- In source order. -/
  counters : List Counter
  branches : Nat
  loops : Nat
deriving DecidableEq

namespace Needs

/-- Whether something about the entry has to be captured. -/
def needsCapture (n : Needs) : Bool := n.capture.isSome

/-- Whether there is a branch or a loop. -/
def hasControlFlow (n : Needs) : Bool := 0 < n.branches || 0 < n.loops

end Needs

end ProbeLang
