import ProbeLang.Text

/-! # Probe descriptions

    A probe is described by four components, `provider:module:function:name`.
    A description may leave out components on the left; the missing ones are
    empty, and an empty component matches anything. -/

namespace ProbeLang

/-- A description of the probes that a clause is attached to. -/
structure Probe where
  provider : String
  module : String
  function : String
  name : String
deriving DecidableEq, Repr, Inhabited

namespace Probe

/-- Why a text is no probe description. -/
inductive ReadError where
  /-- The text has `count` components, and only four have a meaning. -/
  | tooManyComponents (text : String) (count : Nat)
deriving DecidableEq, Repr

/-- The message for a text that is no probe description. -/
def ReadError.message : ReadError → String
  | .tooManyComponents text count =>
      "probe description '" ++ text ++ "' has " ++ toString count ++
        " components, at most 4 are allowed"

/-- The description with the given components, the last of which is the name.
    Components to the left that are missing are empty. -/
def ofComponents? : List String → Option Probe
  | [n] => some ⟨"", "", "", n⟩
  | [f, n] => some ⟨"", "", f, n⟩
  | [m, f, n] => some ⟨"", m, f, n⟩
  | [p, m, f, n] => some ⟨p, m, f, n⟩
  | _ => none

/-- Reads a description whose components are divided by colons. -/
def read (text : String) : Except ReadError Probe :=
  match ofComponents? (Text.fields ':' text) with
  | some p => .ok p
  | none => .error (.tooManyComponents text (Text.fields ':' text).length)

/-- The four components, divided by colons. -/
def text (p : Probe) : String :=
  p.provider ++ ":" ++ p.module ++ ":" ++ p.function ++ ":" ++ p.name

/-- Whether the probe fires where a function is entered. -/
def isEntry (p : Probe) : Bool := p.name == "entry"

/-- Whether the probe fires where a function returns. -/
def isReturn (p : Probe) : Bool := p.name == "return"

/-- The same description with another name. -/
def withName (p : Probe) (name : String) : Probe := { p with name }

end Probe

end ProbeLang
