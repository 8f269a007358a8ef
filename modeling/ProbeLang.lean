import ProbeLang.Text
import ProbeLang.Probe
import ProbeLang.Config
import ProbeLang.Expr.Operator
import ProbeLang.Expr.Basic
import ProbeLang.Clause.Basic
import ProbeLang.Clause.Equality
import ProbeLang.Clause.Printer
import ProbeLang.Clause.Walk
import ProbeLang.Json.Basic
import ProbeLang.Json.Encode
import ProbeLang.Json.Decode
import ProbeLang.Slot.EntryField
import ProbeLang.Slot.FieldSet
import ProbeLang.Slot.Basic
import ProbeLang.Expansion.Form
import ProbeLang.Expansion.Guard
import ProbeLang.Expansion.Report
import ProbeLang.Expansion.Blocks
import ProbeLang.Expansion.Resolution
import ProbeLang.Expansion.Surround
import ProbeLang.Session
import ProbeLang.Proofs.Parts
import ProbeLang.Proofs.Names
import ProbeLang.Proofs.Lookup
import ProbeLang.Proofs.Resolve
import ProbeLang.Proofs.Emission
import ProbeLang.Proofs.Semantics
import ProbeLang.Proofs.Forms
import ProbeLang.Proofs.Engine
import ProbeLang.Proofs.Expand
import ProbeLang.Proofs.Simulation
import ProbeLang.Proofs.Preservation
import ProbeLang.Proofs.Idempotence
import ProbeLang.Proofs.Separation
import ProbeLang.Proofs.Stores
import ProbeLang.Proofs.Captured
import ProbeLang.Proofs.Correlation
import ProbeLang.Proofs.Handler
import ProbeLang.Proofs.ErrorEvent
import ProbeLang.Proofs.Counting
import ProbeLang.Proofs.Renaming
import ProbeLang.Proofs.Equivariance
import ProbeLang.Proofs.Substitution
import ProbeLang.Proofs.Requests
import ProbeLang.Proofs.Failure
import ProbeLang.Proofs.Lexemes
import ProbeLang.Proofs.Regrouping
import ProbeLang.Proofs.RoundTrip
import ProbeLang.Proofs.Phrase
import ProbeLang.Proofs.Unambiguity
import ProbeLang.Proofs.Splitting
import ProbeLang.Proofs.ReadOrder
import ProbeLang.Proofs.Unrolling
import ProbeLang.Proofs.Numbering
import ProbeLang.Proofs.CapturedSlots
import ProbeLang.Proofs.Descriptions
import ProbeLang.Proofs.Pairing
import ProbeLang.Proofs.Passthrough
import ProbeLang.Proofs.SingleHandler
import ProbeLang.Proofs.InPlace
import ProbeLang.Proofs.Locations
import ProbeLang.Proofs.Copies
