import ProbeLang.Probe

/-! # Options

    Which features of the language are on, and the probe that fires when a clause
    fails. -/

namespace ProbeLang

/-- The options of a session. -/
structure Config where
  /-- Whether programs are expanded; if not, `if` and `while` may not be used. -/
  experimental : Bool
  /-- Whether each clause that comes out is logged. -/
  dumpSubclauses : Bool
  /-- The description of the probe that fires when a clause fails. -/
  errorProbe : String
deriving DecidableEq, Repr

namespace Config

/-- The options that hold where none are given. -/
def standard : Config := ⟨false, false, "dtrace:::ERROR"⟩

instance : Inhabited Config := ⟨standard⟩

/-- The options with the experimental features on. -/
def experimentalOn : Config := { standard with experimental := true }

/-- The extension of the scripts that use experimental features. -/
def scriptExtension : String := "xd"

/-- The options for the script at `path`: its extension may turn the experimental
    features on, and never turns them off. -/
def forScript (c : Config) (path : String) : Config :=
  if Text.extension? path = some scriptExtension then { c with experimental := true } else c

/-- What is wrong with some options. -/
inductive Fault where
  | blankErrorProbe
  | unreadableErrorProbe (text : String) (cause : Probe.ReadError)
deriving DecidableEq, Repr

/-- The message for options that are wrong. -/
def Fault.message : Fault → String
  | blankErrorProbe => "error_probe must not be empty"
  | unreadableErrorProbe text cause => "error_probe '" ++ text ++ "': " ++ cause.message

/-- The probe that fires when a clause fails. -/
def readErrorProbe (c : Config) : Except Fault Probe :=
  if Text.isBlankText c.errorProbe then .error .blankErrorProbe
  else
    match Probe.read c.errorProbe with
    | .ok p => .ok p
    | .error cause => .error (.unreadableErrorProbe c.errorProbe cause)

end Config

end ProbeLang
