import ProbeLang.Expansion.Form
import ProbeLang.Expansion.Guard
import ProbeLang.Expansion.Report

/-! # The clauses around a body

    What a clause needs is provided by clauses of their own, which stand before and
    after the ones of its body. -/

namespace ProbeLang

/-! ## Capturing the entry of a call

    The values that a clause asks about are kept from the entry of a call until its
    return.  At the entry each one is put into its slot, the time of entry last; at
    the return, that time says whether the entry was seen; after the clause has run
    all slots are set to zero again. -/

namespace Capture

/-- A reference to the slot of a field. -/
def slot (c : Capture) (f : EntryField) (s : Span) : Expr := (Slot.entry f c.group).expr s

/-- The assignment that captures a field, if the field is captured. -/
def capture? (c : Capture) (s : Span) (f : EntryField) : Option Stmt :=
  (f.captured? s).map fun value => .expr ((c.slot f s).assign value s)

/-- The clause that captures the fields, at the entries to the given returns. -/
def captureClause (c : Capture) (probes : List Probe) (s : Span) : Clause :=
  { probes := probes.map (·.withName "entry")
    predicate := none
    actions := c.fields.toList.filterMap (c.capture? s)
    span := s }

/-- The clause that works out whether the entry was seen, as the first condition. -/
def primingClause (c : Capture) (probes : List Probe) (s : Span) : Clause :=
  .setCondition probes none .first (c.slot .timestamp s) s

/-- The clause that sets the slots to zero. -/
def releaseClause (c : Capture) (probes : List Probe) (s : Span) : Clause :=
  { probes
    predicate := none
    actions := (c.fields.toList.filter (·.isCaptured)).map fun f =>
      .expr ((c.slot f s).assign (.int 0 s) s)
    span := s }

end Capture

/-! ## Counting callers

    A counter goes up at each entry to one of its targets and down at each return.
    It never goes below zero: a return that is seen without its entry leaves it as
    it is. -/

namespace Counter

/-- A reference to the slot of the counter. -/
def slot (c : Counter) (s : Span) : Expr := (Slot.callers c.id).expr s

/-- The probe called `name` at one of the targets. -/
def targetProbe (c : Counter) (name target : String) : Except ExpansionError Probe :=
  let text := Text.trim target ++ ":" ++ name
  match Probe.read text with
  | .ok p => .ok p
  | .error cause => .error (.invalidProbe text c.span cause)

/-- The probes called `name` at all targets. -/
def targetProbes (c : Counter) (name : String) : Except ExpansionError (List Probe) :=
  (Text.fields ',' c.targets).mapM (c.targetProbe name)

/-- The clause that counts up, at the given entries. -/
def increment (c : Counter) (probes : List Probe) : Clause :=
  { probes
    predicate := none
    actions := [.expr (.unary .preInc (c.slot c.span) c.span)]
    span := c.span }

/-- The clause that counts down, at the given returns. -/
def decrement (c : Counter) (probes : List Probe) : Clause :=
  { probes
    predicate := some (c.slot c.span)
    actions := [.expr (.unary .preDec (c.slot c.span) c.span)]
    span := c.span }

/-- The two clauses of a counter. -/
def clauses (c : Counter) : Except ExpansionError (Clause × Clause) := do
  let entries ← c.targetProbes "entry"
  let returns ← c.targetProbes "return"
  return (c.increment entries, c.decrement returns)

end Counter

/-- The clauses that keep some counters. -/
structure CallersClauses where
  increments : List Clause
  decrements : List Clause

/-- The clauses of some counters, in their order. -/
def CallersClauses.ofCounters (counters : List Counter) :
    Except ExpansionError CallersClauses := do
  let pairs ← counters.mapM Counter.clauses
  return ⟨pairs.map Prod.fst, pairs.map Prod.snd⟩

end ProbeLang
