import ProbeLang.Clause.Basic
import ProbeLang.Text

/-! # The text of scripts

    An operation between two or three operands is put in parentheses where it is an
    operand itself, so that no reader needs to know how tightly its operator binds.
    Signs, suffixes, subscripts and members have no parentheses of their own.  Only an
    operand can need parentheses: the items of a list stand between commas.

    A statement takes whole lines.  The statements of a block stand between braces,
    one level further in than the block itself. -/

namespace ProbeLang

namespace Expr

/-- Whether the expression is put in parentheses where it is an operand. -/
def isCompound : Expr → Bool
  | binary op _ _ _ => !op.isMemberAccess
  | ternary .. => true
  | _ => false

/-- `text`, in parentheses if `compound` says so. -/
def enclose (compound : Bool) (text : String) : String :=
  if compound then "(" ++ text ++ ")" else text

/-- `text` between a pair of brackets. -/
def bracket (text : String) : String := "[" ++ text ++ "]"

/-- Items with commas between them. -/
def commaSeparated (items : List String) : String := ", ".intercalate items

mutual
/-- The text of an expression. -/
def text : Expr → String
  | int value _ => toString value.toNat
  | str value _ => Text.quote value
  | ident name _ => name
  | sym name _ => "`" ++ name
  | typeName name _ => name
  | unary op operand _ =>
      if op.followsOperand then enclose operand.isCompound operand.text ++ op.symbol
      else op.symbol ++ enclose operand.isCompound operand.text
  | binary op left right _ =>
      if op.isMemberAccess then
        enclose left.isCompound left.text ++ op.symbol ++ enclose right.isCompound right.text
      else
        enclose left.isCompound left.text ++ " " ++ op.symbol ++ " " ++
          enclose right.isCompound right.text
  | ternary cond onTrue onFalse _ =>
      enclose cond.isCompound cond.text ++ " ? " ++ enclose onTrue.isCompound onTrue.text ++
        " : " ++ enclose onFalse.isCompound onFalse.text
  | index base keys _ =>
      enclose base.isCompound base.text ++ bracket (commaSeparated (texts keys))
  | call func args _ => func ++ "(" ++ commaSeparated (texts args) ++ ")"
  | agg name keys func _ =>
      "@" ++ name ++ (if keys.isEmpty then "" else bracket (commaSeparated (texts keys))) ++
        assignedText func
  | inline name _ _ => name
  | placeholder _ => "<error>"

/-- The text of each expression of a list. -/
def texts : List Expr → List String
  | [] => []
  | e :: es => e.text :: texts es

/-- The text of the assignment of an aggregating function, if there is one. -/
def assignedText : Option Expr → String
  | none => ""
  | some func => " = " ++ func.text
end

@[simp] theorem texts_eq_map (es : List Expr) : texts es = es.map text := by
  induction es with
  | nil => rfl
  | cons e es ih => simp [texts, ih]

end Expr

/-- The blanks before a line that is `depth` levels in. -/
def indent (depth : Nat) : String := String.ofList (List.replicate (4 * depth) ' ')

/-- A block whose statements have the text `body`; its closing brace is `depth` levels in. -/
def blockText (depth : Nat) (body : String) : String :=
  "\x7b\n" ++ body ++ indent depth ++ "\x7d"

namespace Stmt

mutual
/-- The lines of a statement that is `depth` levels in. -/
def textAt (depth : Nat) : Stmt → String
  | expr e => indent depth ++ e.text ++ ";\n"
  | branch cond onTrue onFalse _ =>
      indent depth ++ "if (" ++ cond.text ++ ") " ++
        blockText depth (textsAt (depth + 1) onTrue) ++
        (if onFalse.isEmpty then ""
          else " else " ++ blockText depth (textsAt (depth + 1) onFalse)) ++ "\n"
  | loop cond maxIter body _ =>
      indent depth ++ "while<" ++ toString maxIter.toNat ++ "> (" ++ cond.text ++ ") " ++
        blockText depth (textsAt (depth + 1) body) ++ "\n"

/-- The lines of the statements of a list. -/
def textsAt (depth : Nat) : List Stmt → String
  | [] => ""
  | s :: ss => s.textAt depth ++ textsAt depth ss
end

/-- The text of a statement that stands on its own. -/
def text (s : Stmt) : String := s.textAt 0

end Stmt

/-- The text of a clause: its probes, one a line, its predicate, if any, and its block. -/
def Clause.text (c : Clause) : String :=
  ",\n".intercalate (c.probes.map Probe.text) ++ "\n" ++
    (match c.predicate with
      | none => ""
      | some p => "/" ++ p.text ++ "/\n") ++
    blockText 0 (Stmt.textsAt 1 c.actions) ++ "\n"

/-- The text of a program: its clauses, with an empty line between them. -/
def Program.text (p : Program) : String :=
  "\n".intercalate (p.clauses.map Clause.text)

end ProbeLang
