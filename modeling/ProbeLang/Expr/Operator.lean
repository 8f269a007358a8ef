/-! # Operators

    The operators of expressions, how each one is written, and the two facts about
    an operator that the layout of an expression hangs on: whether it follows its
    operand, and whether it reaches into its left operand. -/

namespace ProbeLang

/-- Operators with one operand. -/
inductive UnaryOp where
  | not
  | bitNot
  | neg
  | deref
  | addrOf
  | preInc
  | preDec
  | postInc
  | postDec
deriving DecidableEq, Repr

namespace UnaryOp

/-- How the operator is written. -/
def symbol : UnaryOp → String
  | not => "!"
  | bitNot => "~"
  | neg => "-"
  | deref => "*"
  | addrOf => "&"
  | preInc | postInc => "++"
  | preDec | postDec => "--"

/-- Whether the operator is written after its operand. -/
def followsOperand : UnaryOp → Bool
  | postInc | postDec => true
  | _ => false

end UnaryOp

/-- Operators with two operands. -/
inductive BinaryOp where
  | add
  | sub
  | mul
  | div
  | mod
  | bitAnd
  | bitOr
  | bitXor
  | shl
  | shr
  | eq
  | ne
  | lt
  | le
  | gt
  | ge
  | and
  | or
  | xor
  | assign
  | ptr
  | dot
deriving DecidableEq, Repr

namespace BinaryOp

/-- How the operator is written. -/
def symbol : BinaryOp → String
  | add => "+"
  | sub => "-"
  | mul => "*"
  | div => "/"
  | mod => "%"
  | bitAnd => "&"
  | bitOr => "|"
  | bitXor => "^"
  | shl => "<<"
  | shr => ">>"
  | eq => "=="
  | ne => "!="
  | lt => "<"
  | le => "<="
  | gt => ">"
  | ge => ">="
  | and => "&&"
  | or => "||"
  | xor => "^^"
  | assign => "="
  | ptr => "->"
  | dot => "."

/-- Whether the operator names a member of its left operand.  Such an operator
    binds tightest and is written without blanks. -/
def isMemberAccess : BinaryOp → Bool
  | ptr | dot => true
  | _ => false

end BinaryOp

end ProbeLang
