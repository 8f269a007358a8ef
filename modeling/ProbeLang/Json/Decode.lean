import ProbeLang.Clause.Basic
import ProbeLang.Config
import ProbeLang.Json.Basic

/-! # Scripts and options read from JSON values

    A record is read from an object, whose other members are ignored, or from an
    array with the values of its fields in order.  What a form of an expression or a
    statement holds is read from an object only.  A form without content may be
    written as its name alone or with a null as its content.  A predicate or an
    aggregating function that is null is not there, and either one may be left out
    of an object.  Each reader answers `none` for a value of any other shape.

    Options are an object, or an array with their values in order.  An option that
    is left out has its standard value, in an array the ones after its last item;
    one that is there has to have the right type. -/

namespace ProbeLang

/-- The unary operator with a given name. -/
def UnaryOp.ofTag? : String → Option UnaryOp
  | "Not" => some not
  | "BitNot" => some bitNot
  | "Neg" => some neg
  | "Deref" => some deref
  | "AddrOf" => some addrOf
  | "PreInc" => some preInc
  | "PreDec" => some preDec
  | "PostInc" => some postInc
  | "PostDec" => some postDec
  | _ => none

/-- The binary operator with a given name. -/
def BinaryOp.ofTag? : String → Option BinaryOp
  | "Add" => some add
  | "Sub" => some sub
  | "Mul" => some mul
  | "Div" => some div
  | "Mod" => some mod
  | "BitAnd" => some bitAnd
  | "BitOr" => some bitOr
  | "BitXor" => some bitXor
  | "Shl" => some shl
  | "Shr" => some shr
  | "Eq" => some eq
  | "Ne" => some ne
  | "Lt" => some lt
  | "Le" => some le
  | "Gt" => some gt
  | "Ge" => some ge
  | "And" => some and
  | "Or" => some or
  | "Xor" => some xor
  | "Assign" => some assign
  | "Ptr" => some ptr
  | "Dot" => some dot
  | _ => none

/-- Reads a unary operator. -/
def UnaryOp.ofJson? (j : Json) : Option UnaryOp := j.unit?.bind ofTag?

/-- Reads a binary operator. -/
def BinaryOp.ofJson? (j : Json) : Option BinaryOp := j.unit?.bind ofTag?

/-- The fields of a span, in order. -/
def Span.layout : List String := ["file_id", "start", "end", "start_line"]

/-- Reads a span. -/
def Span.ofJson? (j : Json) : Option Span := do
  let fileId ← j.recordField? layout "file_id"
  let start ← j.recordField? layout "start"
  let stop ← j.recordField? layout "end"
  let line ← j.recordField? layout "start_line"
  return ⟨← fileId.val.uint16?, ← start.val.uint32?, ← stop.val.uint32?, ← line.val.uint16?⟩

/-- The fields of a probe description, in order. -/
def Probe.layout : List String := ["provider", "module", "function", "name"]

/-- Reads a probe description. -/
def Probe.ofJson? (j : Json) : Option Probe := do
  let provider ← j.recordField? layout "provider"
  let module ← j.recordField? layout "module"
  let function ← j.recordField? layout "function"
  let name ← j.recordField? layout "name"
  return ⟨← provider.val.text?, ← module.val.text?, ← function.val.text?, ← name.val.text?⟩

namespace Expr

/-- The fields of an expression, in order. -/
def layout : List String := ["kind", "span"]

mutual
/-- Reads an expression. -/
def ofJson? (j : Json) : Option Expr := do
  let ⟨kind, _⟩ ← j.recordField? layout "kind"
  let span ← j.recordField? layout "span"
  ofKind? kind (← Span.ofJson? span.val)
termination_by sizeOf j

/-- Reads what the form of an expression holds, and puts `s` on it. -/
def ofKind? (kind : Json) (s : Span) : Option Expr :=
  if kind.unit? = some "Error" then some (placeholder s)
  else
    match kind.variant? with
    | none => none
    | some (tag, ⟨content, _⟩) =>
      match tag with
      | "Int" => content.uint64?.map (int · s)
      | "Str" => content.text?.map (str · s)
      | "Ident" => content.text?.map (ident · s)
      | "Sym" => content.text?.map (sym · s)
      | "Type" => content.text?.map (typeName · s)
      | "Unary" => do
          let op ← content.field? "op"
          let ⟨operand, _⟩ ← content.field? "operand"
          return unary (← UnaryOp.ofJson? op.val) (← ofJson? operand) s
      | "Binary" => do
          let op ← content.field? "op"
          let ⟨left, _⟩ ← content.field? "left"
          let ⟨right, _⟩ ← content.field? "right"
          return binary (← BinaryOp.ofJson? op.val) (← ofJson? left) (← ofJson? right) s
      | "Ternary" => do
          let ⟨cond, _⟩ ← content.field? "cond"
          let ⟨onTrue, _⟩ ← content.field? "then_expr"
          let ⟨onFalse, _⟩ ← content.field? "else_expr"
          return ternary (← ofJson? cond) (← ofJson? onTrue) (← ofJson? onFalse) s
      | "Index" => do
          let ⟨base, _⟩ ← content.field? "base"
          let ⟨keys, _⟩ ← content.field? "keys"
          let ⟨keys, _⟩ ← keys.items?
          return index (← ofJson? base) (← ofJsons? keys) s
      | "Call" => do
          let func ← content.field? "func"
          let ⟨args, _⟩ ← content.field? "args"
          let ⟨args, _⟩ ← args.items?
          return call (← func.val.text?) (← ofJsons? args) s
      | "Agg" => do
          let name ← content.field? "name"
          let ⟨keys, _⟩ ← content.field? "keys"
          let ⟨keys, _⟩ ← keys.items?
          let func ←
            match content.present? "func" with
            | none => some none
            | some ⟨func, _⟩ => (ofJson? func).map some
          return agg (← name.val.text?) (← ofJsons? keys) func s
      | "Inline" => do
          let name ← content.field? "name"
          let ⟨body, _⟩ ← content.field? "body"
          return inline (← name.val.text?) (← ofJson? body) s
      | _ => none
termination_by sizeOf kind

/-- Reads a list of expressions. -/
def ofJsons? (js : List Json) : Option (List Expr) :=
  match js with
  | [] => some []
  | j :: js => do return (← ofJson? j) :: (← ofJsons? js)
termination_by sizeOf js
end

/-- Reads an expression that may be left out or null. -/
def optionOfJson? : Option Json → Option (Option Expr)
  | none => some none
  | some .null => some none
  | some j => (ofJson? j).map some

end Expr

namespace Stmt

mutual
/-- Reads a statement. -/
def ofJson? (j : Json) : Option Stmt :=
  match j.variant? with
  | none => none
  | some (tag, ⟨content, _⟩) =>
      match tag with
      | "Expr" => (Expr.ofJson? content).map expr
      | "If" => do
          let cond ← content.field? "cond"
          let ⟨onTrue, _⟩ ← content.field? "then_body"
          let ⟨onTrue, _⟩ ← onTrue.items?
          let ⟨onFalse, _⟩ ← content.field? "else_body"
          let ⟨onFalse, _⟩ ← onFalse.items?
          let span ← content.field? "span"
          return branch (← Expr.ofJson? cond.val) (← ofJsons? onTrue) (← ofJsons? onFalse)
            (← Span.ofJson? span.val)
      | "While" => do
          let cond ← content.field? "cond"
          let maxIter ← content.field? "max_iter"
          let ⟨body, _⟩ ← content.field? "body"
          let ⟨body, _⟩ ← body.items?
          let span ← content.field? "span"
          return loop (← Expr.ofJson? cond.val) (← maxIter.val.uint32?) (← ofJsons? body)
            (← Span.ofJson? span.val)
      | _ => none
termination_by sizeOf j

/-- Reads a list of statements. -/
def ofJsons? (js : List Json) : Option (List Stmt) :=
  match js with
  | [] => some []
  | j :: js => do return (← ofJson? j) :: (← ofJsons? js)
termination_by sizeOf js
end

end Stmt

/-- The fields of a clause, in order. -/
def Clause.layout : List String := ["probes", "predicate", "actions", "span"]

/-- Reads a clause. -/
def Clause.ofJson? (j : Json) : Option Clause := do
  let probes ← j.recordField? layout "probes"
  let predicate := (j.recordField? layout "predicate").map (·.val)
  let actions ← j.recordField? layout "actions"
  let actions ← actions.val.items?
  let span ← j.recordField? layout "span"
  return ⟨← probes.val.listOf? Probe.ofJson?, ← Expr.optionOfJson? predicate,
    ← Stmt.ofJsons? actions.val, ← Span.ofJson? span.val⟩

/-- The fields of a program, in order. -/
def Program.layout : List String := ["clauses"]

/-- Reads a program. -/
def Program.ofJson? (j : Json) : Option Program := do
  let clauses ← j.recordField? layout "clauses"
  return ⟨← clauses.val.listOf? Clause.ofJson?⟩

namespace Config

/-- The options, in order. -/
def layout : List String := ["experimental", "dump_subclauses", "error_probe"]

/-- The value of the option `key`, if it is there; `none` for what cannot be options. -/
def option? (j : Json) (key : String) : Option (Option Json) :=
  match j with
  | .obj members => some ((Json.find? key members).map (·.val))
  | .arr items =>
      if items.length ≤ layout.length then some ((Json.itemAt? key layout items).map (·.val))
      else none
  | _ => none

/-- What `read` makes of a value, or `standard` if there is none. -/
def orStandard? {α : Type} (read : Json → Option α) (standard : α) : Option Json → Option α
  | none => some standard
  | some v => read v

/-- Reads options. -/
def ofJson? (j : Json) : Option Config := do
  let experimental ← option? j "experimental"
  let dumpSubclauses ← option? j "dump_subclauses"
  let errorProbe ← option? j "error_probe"
  return ⟨← orStandard? Json.bool? standard.experimental experimental,
    ← orStandard? Json.bool? standard.dumpSubclauses dumpSubclauses,
    ← orStandard? Json.text? standard.errorProbe errorProbe⟩

end Config

end ProbeLang
