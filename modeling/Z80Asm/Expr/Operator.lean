/-!
# Operators

The unary and binary operators of expressions and how they are written.
-/
set_option autoImplicit false

namespace Z80Asm

inductive UnaryOp where
  | plus | minus | bitNot | logicNot
  deriving DecidableEq, Repr, Inhabited

inductive BinaryOp where
  | mul | div | mod | add | sub | shl | shr
  | lt | le | gt | ge | eq | ne
  | bitAnd | bitXor | bitOr | logicAnd | logicOr
  deriving DecidableEq, Repr, Inhabited

def UnaryOp.symbol : UnaryOp → String
  | plus => "+" | minus => "-" | bitNot => "~" | logicNot => "!"

def BinaryOp.symbol : BinaryOp → String
  | mul => "*" | div => "/" | mod => "%" | add => "+" | sub => "-" | shl => "<<" | shr => ">>"
  | lt => "<" | le => "<=" | gt => ">" | ge => ">=" | eq => "=" | ne => "!="
  | bitAnd => "&" | bitXor => "^" | bitOr => "|" | logicAnd => "&&" | logicOr => "||"

def UnaryOp.all : List UnaryOp :=
  [plus, minus, bitNot, logicNot]

def BinaryOp.all : List BinaryOp :=
  [mul, div, mod, add, sub, shl, shr, lt, le, gt, ge, eq, ne, bitAnd, bitXor, bitOr, logicAnd,
    logicOr]

end Z80Asm
