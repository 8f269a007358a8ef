import ProbeLang.Clause.Walk
import ProbeLang.Expansion.Form
import ProbeLang.Expansion.Report

/-! # Resolving the forms of a clause

    Every form of a clause is replaced by a reference to a slot, and what the slots
    need is written down: the fields to capture and the counters to keep.

    The forms are met in source order.  A place where no expression could be read
    ends it: the forms before it have been replaced, and their numbers handed out;
    what comes after it stays as it is. -/

namespace ProbeLang

/-- How far the forms of a clause have been resolved. -/
structure Resolution where
  ids : Ids
  capture : Option Capture
  counters : List Counter
  events : List Event
  /-- Where no expression could be read. -/
  fault : Option Span

namespace Resolution

/-- No form has been met yet. -/
def start (ids : Ids) : Resolution := ⟨ids, none, [], [], none⟩

/-- The capture that also has the field `f`, and the time of entry with it.  The
    first field of a clause takes a new group. -/
def withField (r : Resolution) (f : EntryField) : Capture × Ids :=
  match r.capture with
  | some c => ({ c with fields := (c.fields.insert f).insert .timestamp }, r.ids)
  | none =>
      ({ group := r.ids.newGroup.1, fields := (FieldSet.empty.insert f).insert .timestamp },
        r.ids.newGroup.2)

/-- Captures the field `f`, and gives a reference to its slot. -/
def captureField (r : Resolution) (f : EntryField) (s : Span) : Expr × Resolution :=
  let a := r.withField f
  ((Slot.entry f a.1.group).expr s, { r with capture := some a.1, ids := a.2 })

/-- Assigns a counter to some targets, and gives a reference to its slot. -/
def assignCounter (r : Resolution) (targets : String) (s : Span) : Expr × Resolution :=
  let counter : Counter := ⟨r.ids.newCounter.1, targets, s⟩
  ((Slot.callers counter.id).expr s,
    { r with ids := r.ids.newCounter.2, counters := r.counters ++ [counter] })

/-- Adds an event to the log. -/
def log (r : Resolution) (e : Event) : Resolution := { r with events := r.events ++ [e] }

/-- The time since `start`, in units of `divisor` nanoseconds. -/
def elapsed (start : Expr) (divisor : UInt64) (s : Span) : Expr :=
  .binary .div (.binary .sub (.ident EntryField.timestamp.name s) start s) (.int divisor s) s

/-- Replaces a form that stands at `s`. -/
def replace (r : Resolution) (form : Form) (s : Span) : Expr × Resolution :=
  match form with
  | .field f =>
      match f.divisor? with
      | some divisor =>
          let a := r.captureField .timestamp s
          let e := elapsed a.1 divisor s
          (e, a.2.log (.fieldReplaced f e))
      | none =>
          let a := r.captureField f s
          (a.1, a.2.log (.fieldReplaced f a.1))
  | .arg n =>
      let a := r.captureField (.args n) s
      (a.1, a.2.log (.argReplaced n a.1))
  | .callers targets =>
      let a := r.assignCounter targets s
      (a.1, a.2.log (.counterAssigned r.ids.newCounter.1 targets))

/-- What resolution does at an expression. -/
def step (inReturn : Bool) : WalkStep Resolution := fun e r =>
  if r.fault.isSome then some (e, r)
  else
    match Form.of? inReturn e with
    | some form => some (r.replace form e.span)
    | none =>
        match e with
        | .placeholder s => some (e, { r with fault := some s })
        | _ => none

end Resolution

/-- A clause with its forms replaced. -/
structure Resolved where
  clause : Clause
  ids : Ids
  events : List Event
  needs : Except ExpansionError Needs

/-- Resolves the forms of a clause, with `ids` handed out before.  The entry can be
    asked about if `inReturn` is set. -/
def Clause.resolve (c : Clause) (inReturn : Bool) (ids : Ids) : Resolved :=
  let a := c.walk (Resolution.step inReturn) (.start ids)
  { clause := a.1
    ids := a.2.ids
    events := a.2.events
    needs :=
      match a.2.fault with
      | some s => .error (.unexpectedPlaceholder s)
      | none =>
          .ok
            { capture := a.2.capture
              counters := a.2.counters
              branches := c.stmts.countP fun s => s matches .branch ..
              loops := c.stmts.countP fun s => s matches .loop .. } }

end ProbeLang
