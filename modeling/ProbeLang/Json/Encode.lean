import ProbeLang.Clause.Basic
import ProbeLang.Config
import ProbeLang.Json.Basic

/-! # Scripts and options as JSON values

    A record is an object with a member for each of its fields.  A value of a type
    with several forms is an object whose only member is called after the form; a
    form without content is its name alone.  What is missing is written as null. -/

namespace ProbeLang

/-- The name of a unary operator in JSON. -/
def UnaryOp.tag : UnaryOp → String
  | not => "Not"
  | bitNot => "BitNot"
  | neg => "Neg"
  | deref => "Deref"
  | addrOf => "AddrOf"
  | preInc => "PreInc"
  | preDec => "PreDec"
  | postInc => "PostInc"
  | postDec => "PostDec"

/-- The name of a binary operator in JSON. -/
def BinaryOp.tag : BinaryOp → String
  | add => "Add"
  | sub => "Sub"
  | mul => "Mul"
  | div => "Div"
  | mod => "Mod"
  | bitAnd => "BitAnd"
  | bitOr => "BitOr"
  | bitXor => "BitXor"
  | shl => "Shl"
  | shr => "Shr"
  | eq => "Eq"
  | ne => "Ne"
  | lt => "Lt"
  | le => "Le"
  | gt => "Gt"
  | ge => "Ge"
  | and => "And"
  | or => "Or"
  | xor => "Xor"
  | assign => "Assign"
  | ptr => "Ptr"
  | dot => "Dot"

/-- A span as an object. -/
def Span.toJson (s : Span) : Json :=
  .obj [("file_id", .nat s.fileId.toNat), ("start", .nat s.start.toNat),
    ("end", .nat s.stop.toNat), ("start_line", .nat s.line.toNat)]

/-- A probe description as an object. -/
def Probe.toJson (p : Probe) : Json :=
  .obj [("provider", .str p.provider), ("module", .str p.module),
    ("function", .str p.function), ("name", .str p.name)]

namespace Expr

/-- An expression as an object of its form and its span. -/
def node (kind : Json) (span : Span) : Json :=
  .obj [("kind", kind), ("span", span.toJson)]

mutual
/-- An expression as an object. -/
def toJson : Expr → Json
  | int value s => node (.tagged "Int" (.nat value.toNat)) s
  | str value s => node (.tagged "Str" (.str value)) s
  | ident name s => node (.tagged "Ident" (.str name)) s
  | sym name s => node (.tagged "Sym" (.str name)) s
  | typeName name s => node (.tagged "Type" (.str name)) s
  | unary op operand s =>
      node (.tagged "Unary" (.obj [("op", .str op.tag), ("operand", operand.toJson)])) s
  | binary op left right s =>
      node (.tagged "Binary"
        (.obj [("op", .str op.tag), ("left", left.toJson), ("right", right.toJson)])) s
  | ternary cond onTrue onFalse s =>
      node (.tagged "Ternary"
        (.obj [("cond", cond.toJson), ("then_expr", onTrue.toJson),
          ("else_expr", onFalse.toJson)])) s
  | index base keys s =>
      node (.tagged "Index" (.obj [("base", base.toJson), ("keys", .arr (toJsons keys))])) s
  | call func args s =>
      node (.tagged "Call" (.obj [("func", .str func), ("args", .arr (toJsons args))])) s
  | agg name keys func s =>
      node (.tagged "Agg"
        (.obj [("name", .str name), ("keys", .arr (toJsons keys)),
          ("func", optionToJson func)])) s
  | inline name body s =>
      node (.tagged "Inline" (.obj [("name", .str name), ("body", body.toJson)])) s
  | placeholder s => node (.str "Error") s

/-- Each expression of a list as an object. -/
def toJsons : List Expr → List Json
  | [] => []
  | e :: es => e.toJson :: toJsons es

/-- An expression that may be missing. -/
def optionToJson : Option Expr → Json
  | none => .null
  | some e => e.toJson
end

end Expr

namespace Stmt

mutual
/-- A statement as an object. -/
def toJson : Stmt → Json
  | expr e => .tagged "Expr" e.toJson
  | branch cond onTrue onFalse s =>
      .tagged "If"
        (.obj [("cond", cond.toJson), ("then_body", .arr (toJsons onTrue)),
          ("else_body", .arr (toJsons onFalse)), ("span", s.toJson)])
  | loop cond maxIter body s =>
      .tagged "While"
        (.obj [("cond", cond.toJson), ("max_iter", .nat maxIter.toNat),
          ("body", .arr (toJsons body)), ("span", s.toJson)])

/-- Each statement of a list as an object. -/
def toJsons : List Stmt → List Json
  | [] => []
  | s :: ss => s.toJson :: toJsons ss
end

end Stmt

/-- A clause as an object. -/
def Clause.toJson (c : Clause) : Json :=
  .obj [("probes", .arr (c.probes.map Probe.toJson)),
    ("predicate", Expr.optionToJson c.predicate),
    ("actions", .arr (Stmt.toJsons c.actions)), ("span", c.span.toJson)]

/-- A program as an object. -/
def Program.toJson (p : Program) : Json :=
  .obj [("clauses", .arr (p.clauses.map Clause.toJson))]

/-- Options as an object. -/
def Config.toJson (c : Config) : Json :=
  .obj [("experimental", .bool c.experimental), ("dump_subclauses", .bool c.dumpSubclauses),
    ("error_probe", .str c.errorProbe)]

end ProbeLang
