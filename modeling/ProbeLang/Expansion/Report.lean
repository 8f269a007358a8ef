import ProbeLang.Clause.Printer
import ProbeLang.Config
import ProbeLang.Slot.Basic

/-! # What expansion reports

    Why a script cannot be expanded, where each error says where in the script its
    cause is; and the steps of an expansion that are worth a line in a log, with how
    each one is written there. -/

namespace ProbeLang

/-! ## Errors -/

/-- A reason for which a script cannot be expanded. -/
inductive ExpansionError where
  /-- A node stands where no expression could be read. -/
  | unexpectedPlaceholder (span : Span)
  /-- A target of a counter is no probe description. -/
  | invalidProbe (text : String) (span : Span) (cause : Probe.ReadError)
  /-- A statement needs features that are off. -/
  | experimentalDisabled (span : Span)
  /-- The options are wrong. -/
  | invalidConfig (fault : Config.Fault)
deriving DecidableEq, Repr

namespace ExpansionError

/-- The message for an error. -/
def message : ExpansionError → String
  | unexpectedPlaceholder span =>
      "internal compiler error: unexpected " ++ (Expr.placeholder span).kindName ++
        " node at " ++ span.text
  | invalidProbe text span cause =>
      "invalid probe description '" ++ text ++ "' at " ++ span.text ++ ": " ++ cause.message
  | experimentalDisabled span =>
      "if and while statements require experimental features to be enabled (at " ++
        span.text ++ ")"
  | invalidConfig fault => "invalid configuration: " ++ fault.message

/-- Whether the error shows a defect of the compiler and not of the script. -/
def isInternal : ExpansionError → Bool
  | unexpectedPlaceholder _ => true
  | _ => false

end ExpansionError

/-! ## The log -/

/-- How much an event matters. -/
inductive LogLevel where
  | info
  | debug
  | trace
deriving DecidableEq, Repr

/-- The name of the level. -/
def LogLevel.name : LogLevel → String
  | info => "INFO"
  | debug => "DEBUG"
  | trace => "TRACE"

/-- A step of an expansion. -/
inductive Event where
  /-- The expansion of a clause begins. -/
  | expanding (probes : Nat) (span : Span)
  /-- A field of the entry has been replaced. -/
  | fieldReplaced (field : EntryField) (replacement : Expr)
  /-- An argument of the entry has been replaced. -/
  | argReplaced (index : Nat) (replacement : Expr)
  /-- A counter has been given to a list of targets. -/
  | counterAssigned (id : UInt32) (targets : String)
  /-- A loop has been unrolled into `length` clauses. -/
  | loopUnrolled (condition : ConditionId) (maxIter : UInt32) (length : Nat)
  /-- The expansion of a clause is complete. -/
  | expanded (fastPath : Bool) (conditions : Nat) (group : Option UInt32) (counters clauses : Nat)
  /-- A clause that came out of an expansion, and its position. -/
  | subClause (index : Nat) (clause : Clause)
  /-- A whole program has been expanded. -/
  | compiled (clauses : Nat)

namespace Event

/-- What an event is called: the beginning of a span of time has a name, any other
    event a message. -/
inductive Title where
  | span (name : String)
  | message (text : String)
deriving DecidableEq, Repr

/-- What the event is called in the log. -/
def title : Event → Title
  | expanding .. => .span "expand"
  | fieldReplaced .. => .message "rewrote entry variable"
  | argReplaced .. => .message "rewrote entry args subscript"
  | counterAssigned .. => .message "rewrote callers counter"
  | loopUnrolled .. => .message "unrolled while loop"
  | expanded .. => .message "expanded clause"
  | subClause _ clause => .message ("sub-clause:\n" ++ clause.text)
  | compiled .. => .message "compiled program"

/-- How much the event matters. -/
def level : Event → LogLevel
  | expanding .. => .info
  | fieldReplaced .. | argReplaced .. | counterAssigned .. | loopUnrolled .. => .trace
  | expanded .. | subClause .. | compiled .. => .debug

/-- The text of a truth value. -/
def flagText (b : Bool) : String := if b then "true" else "false"

/-- The text of a group that may be missing. -/
def groupText : Option UInt32 → String
  | none => "None"
  | some group => "Some(" ++ toString group.toNat ++ ")"

/-- The details of the event, each with its name. -/
def details : Event → List (String × String)
  | expanding probes span => [("probes", toString probes), ("at", span.text)]
  | fieldReplaced field replacement =>
      [("field", field.name), ("replacement", replacement.text)]
  | argReplaced index replacement =>
      [("index", toString index), ("replacement", replacement.text)]
  | counterAssigned id targets => [("counter", toString id.toNat), ("targets", targets)]
  | loopUnrolled condition maxIter length =>
      [("condition", condition.text), ("max_iter", toString maxIter.toNat),
        ("group_len", toString length)]
  | expanded fastPath conditions group counters clauses =>
      [("fast_path", flagText fastPath), ("conditions", toString conditions),
        ("capture_group", groupText group), ("counters", toString counters),
        ("sub_clauses", toString clauses)]
  | subClause index _ => [("index", toString index)]
  | compiled clauses => [("sub_clauses", toString clauses)]

end Event

end ProbeLang
