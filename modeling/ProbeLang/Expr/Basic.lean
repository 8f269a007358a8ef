import ProbeLang.Expr.Operator

/-! # Expressions

    The expressions of a tracing script.  Every node carries the span it was read
    from; a node that is made for another one takes over that one's span. -/

namespace ProbeLang

/-! ## Source spans

    Where a piece of a script stands in its source file. -/

/-- The stretch `start ≤ offset < stop` of a source file, and the line it starts on. -/
structure Span where
  fileId : UInt16
  start : UInt32
  stop : UInt32
  line : UInt16
deriving DecidableEq, Repr

namespace Span

/-- The span of a piece that has no place in a source file. -/
def nowhere : Span := ⟨0, 0, 0, 0⟩

instance : Inhabited Span := ⟨nowhere⟩

/-- The text that messages show for a span. -/
def text (s : Span) : String :=
  "file " ++ toString s.fileId.toNat ++ " line " ++ toString s.line.toNat ++
    " [" ++ toString s.start.toNat ++ ".." ++ toString s.stop.toNat ++ ")"

end Span

/-! ## The forms of expressions -/

/-- An expression.  The last argument of each form is its span. -/
inductive Expr where
  /-- An integer literal. -/
  | int (value : UInt64) (span : Span)
  /-- A string literal. -/
  | str (value : String) (span : Span)
  /-- A variable, a member or a built-in name. -/
  | ident (name : String) (span : Span)
  /-- A symbol of the traced system. -/
  | sym (name : String) (span : Span)
  /-- The name of a type. -/
  | typeName (name : String) (span : Span)
  | unary (op : UnaryOp) (operand : Expr) (span : Span)
  | binary (op : BinaryOp) (left right : Expr) (span : Span)
  /-- `cond ? onTrue : onFalse`. -/
  | ternary (cond onTrue onFalse : Expr) (span : Span)
  /-- `base[keys]`. -/
  | index (base : Expr) (keys : List Expr) (span : Span)
  | call (func : String) (args : List Expr) (span : Span)
  /-- An aggregation `@name[keys]`, with the aggregating function assigned to it if there is one. -/
  | agg (name : String) (keys : List Expr) (func : Option Expr) (span : Span)
  /-- A name that stands for `body`. -/
  | inline (name : String) (body : Expr) (span : Span)
  /-- Stands where no expression could be read. -/
  | placeholder (span : Span)
deriving Repr, Inhabited

namespace Expr

/-- Where the expression stands. -/
def span : Expr → Span
  | int _ s | str _ s | ident _ s | sym _ s | typeName _ s | unary _ _ s | binary _ _ _ s
  | ternary _ _ _ s | index _ _ s | call _ _ s | agg _ _ _ s | inline _ _ s
  | placeholder s => s

/-- What messages call an expression of this form. -/
def kindName : Expr → String
  | int .. => "integer"
  | str .. => "string"
  | ident .. => "identifier"
  | sym .. => "symbol"
  | typeName .. => "type"
  | unary .. => "unary operator"
  | binary .. => "binary operator"
  | ternary .. => "conditional"
  | index .. => "subscript"
  | call .. => "function call"
  | agg .. => "aggregation"
  | inline .. => "inline"
  | placeholder .. => "error placeholder"

/-- The name, if the expression is an identifier. -/
def identName? : Expr → Option String
  | ident name _ => some name
  | _ => none

/-- Whether the expression is the identifier `name`. -/
def isIdent (e : Expr) (name : String) : Bool := e.identName? == some name

/-! ## Expressions made at one place

    Each of these puts the span `s` on every node that it makes. -/

/-- `base->member`. -/
def ptr (base : Expr) (member : String) (s : Span) : Expr :=
  binary .ptr base (ident member s) s

/-- The variable `name` of a scope such as `self` or `this`. -/
def scopeVar (scope name : String) (s : Span) : Expr :=
  ptr (ident scope s) name s

/-- `target = value`. -/
def assign (target value : Expr) (s : Span) : Expr :=
  binary .assign target value s

/-- `left && right`. -/
def and (left right : Expr) (s : Span) : Expr :=
  binary .and left right s

/-- `!operand`. -/
def not (operand : Expr) (s : Span) : Expr :=
  unary .not operand s

/-! ## Nodes

    An expression and all expressions inside it, in source order: a node comes
    before what it is built from, and its parts from left to right. -/

mutual
/-- The expression itself and the expressions inside it. -/
def nodes : Expr → List Expr
  | e@(unary _ operand _) => e :: operand.nodes
  | e@(binary _ left right _) => e :: (left.nodes ++ right.nodes)
  | e@(ternary cond onTrue onFalse _) => e :: (cond.nodes ++ onTrue.nodes ++ onFalse.nodes)
  | e@(index base keys _) => e :: (base.nodes ++ nodesList keys)
  | e@(call _ args _) => e :: nodesList args
  | e@(agg _ keys func _) => e :: (nodesList keys ++ nodesOption func)
  | e@(inline _ body _) => e :: body.nodes
  | e => [e]

/-- The nodes of each expression of a list. -/
def nodesList : List Expr → List Expr
  | [] => []
  | e :: es => e.nodes ++ nodesList es

/-- The nodes of an expression that may be missing. -/
def nodesOption : Option Expr → List Expr
  | none => []
  | some e => e.nodes
end

@[simp] theorem nodesList_eq_flatMap (es : List Expr) : nodesList es = es.flatMap nodes := by
  induction es with
  | nil => rfl
  | cons e es ih => simp [nodesList, ih]

end Expr

end ProbeLang
