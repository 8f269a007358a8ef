import ProbeLang.Expansion.Blocks
import ProbeLang.Expansion.Resolution
import ProbeLang.Expansion.Surround

/-! # Sessions

    A session expands the clauses of a program one after the other.  It keeps what
    they share: the numbers of groups and counters that have been handed out, and
    whether the clause that handles errors is there already.

    A clause comes out as, in this order: the error handler, if this is the first
    expansion with more than one clause; the clauses that count callers up; the
    clause that captures the entry; the clause that takes the error flag down, if
    there are conditions; the clause that works out whether the entry was seen; the
    clauses of the body; the clause that releases the captured values; the clauses
    that count callers down. -/

namespace ProbeLang

/-- The state that the clauses of a program share. -/
structure Session where
  config : Config
  errorProbe : Probe
  ids : Ids
  handlerEmitted : Bool

/-- What a step of a session leads to.  A step that fails keeps what it has done so
    far: the numbers it has handed out and its log. -/
structure Step (α : Type) where
  session : Session
  events : List Event
  result : Except ExpansionError α

/-- The clauses that the statements of a clause turn into. -/
structure Body where
  clauses : List Clause
  conditions : Nat
  events : List Event

namespace Body

/-- Whether a clause stays as it is: it has neither branches nor loops and captures
    nothing. -/
def isFast (needs : Needs) : Bool := !needs.hasControlFlow && !needs.needsCapture

/-- The clauses of a clause whose forms have been replaced.  If something is
    captured, the first condition says whether the entry was seen, and all others
    are under it; the predicate becomes a condition around the statements. -/
def ofClause (c : Clause) (needs : Needs) : Body :=
  if isFast needs then ⟨[c], 0, []⟩
  else
    let start := Blocks.start c.probes
    let seen := if needs.needsCapture then start.allocate.2 else start
    let around := if needs.needsCapture then some start.allocate.1 else none
    let done :=
      match c.predicate with
      | none => seen.visit c.actions around
      | some p =>
          let a := seen.newCondition p around p.span
          a.2.visit c.actions (some a.1)
    ⟨done.clauses, done.conditions, done.events⟩

end Body

namespace Session

/-- A session that has expanded nothing yet. -/
def start (config : Config) : Except ExpansionError Session :=
  match config.readErrorProbe with
  | .ok errorProbe => .ok ⟨config, errorProbe, .fresh, false⟩
  | .error fault => .error (.invalidConfig fault)

/-- The clauses around a body, and the body in its place among them. -/
def surround (c : Clause) (capture : Option Capture) (callers : CallersClauses) (body : Body) :
    List Clause :=
  callers.increments ++
    (capture.map (·.captureClause c.probes c.span)).toList ++
    (if 0 < body.conditions then [Clause.clearError c.probes c.span] else []) ++
    (capture.map (·.primingClause c.probes c.span)).toList ++
    body.clauses ++
    (capture.map (·.releaseClause c.probes c.span)).toList ++
    callers.decrements

/-- Whether the error handler goes before some clauses. -/
def needsHandler (s : Session) (clauses : List Clause) : Bool :=
  1 < clauses.length && !s.handlerEmitted

/-- Puts the error handler before some clauses if it is needed there. -/
def withHandler (s : Session) (clauses : List Clause) (span : Span) : List Clause :=
  if s.needsHandler clauses then Clause.errorHandler s.errorProbe span :: clauses else clauses

/-- The log of the clauses that came out, if it is asked for. -/
def dump (s : Session) (clauses : List Clause) : List Event :=
  if s.config.dumpSubclauses then clauses.mapIdx Event.subClause else []

/-- Expands one clause. -/
def expand (s : Session) (c : Clause) : Step (List Clause) :=
  let opening := Event.expanding c.probes.length c.span
  let r := c.resolve c.allReturn s.ids
  let s := { s with ids := r.ids }
  match r.needs with
  | .error e => ⟨s, opening :: r.events, .error e⟩
  | .ok needs =>
      match CallersClauses.ofCounters needs.counters with
      | .error e => ⟨s, opening :: r.events, .error e⟩
      | .ok callers =>
          let body := Body.ofClause r.clause needs
          let clauses := surround r.clause needs.capture callers body
          let out := s.withHandler clauses c.span
          let summary := Event.expanded (Body.isFast needs) body.conditions
            (needs.capture.map (·.group)) needs.counters.length out.length
          ⟨{ s with handlerEmitted := s.handlerEmitted || s.needsHandler clauses },
            opening :: (r.events ++ body.events ++ summary :: s.dump out), .ok out⟩

/-- Expands clauses one after the other, up to the first one that fails. -/
def expandAll (s : Session) : List Clause → Step (List Clause)
  | [] => ⟨s, [], .ok []⟩
  | c :: cs =>
      let a := s.expand c
      match a.result with
      | .error e => ⟨a.session, a.events, .error e⟩
      | .ok out =>
          let b := a.session.expandAll cs
          ⟨b.session, a.events ++ b.events, b.result.map (out ++ ·)⟩

/-- The first branch or loop of a program, in source order. -/
def firstStructured? (p : Program) : Option Stmt :=
  (p.clauses.flatMap Clause.stmts).find? Stmt.isStructured

/-- Expands a program.  With the experimental features off, a program without
    branches and loops is left as it is, and no other one is accepted. -/
def compile (s : Session) (p : Program) : Step Program :=
  if s.config.experimental then
    let a := s.expandAll p.clauses
    match a.result with
    | .error e => ⟨a.session, a.events, .error e⟩
    | .ok clauses => ⟨a.session, a.events ++ [.compiled clauses.length], .ok ⟨clauses⟩⟩
  else
    match firstStructured? p with
    | some stmt => ⟨s, [], .error (.experimentalDisabled stmt.span)⟩
    | none => ⟨s, [], .ok p⟩

end Session

end ProbeLang
