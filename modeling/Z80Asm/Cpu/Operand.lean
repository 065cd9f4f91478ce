import Z80Asm.Expr.Eval

/-!
# Operands

An argument of an instruction is classified by its shape. Names are followed as far as they
resolve; what is no register, condition or parenthesized form is an immediate value, and a value
is only asked for when code is generated.
-/
set_option autoImplicit false

namespace Z80Asm.Cpu

inductive Operand where
  | reg (register : Register)
  | cond (condition : Condition)
  /-- `(BC)`, `(DE)`, `(HL)`, `(SP)` and `(C)`. -/
  | indirect (register : Register)
  /-- `(IX+d)` and `(IY+d)`; without a displacement it is zero. -/
  | indexed (register : Register) (displacement : Expr)
  /-- `(nn)`. -/
  | address (e : Expr)
  | immediate (e : Expr)
  deriving Repr, Inhabited

namespace Operand

def register? : Operand → Option Register
  | reg register => some register
  | _ => none

/-- The condition of an operand; register `c` stands for the carry condition. -/
def condition? : Operand → Option Condition
  | cond condition => some condition
  | reg .c => some .c
  | _ => none

/-- The expression whose value an operand carries. -/
def value? : Operand → Option Expr
  | address e => some e
  | immediate e => some e
  | indexed _ displacement => some displacement
  | _ => none

/-- Memory at `HL` or at an index register with displacement. -/
def isMemory : Operand → Bool
  | indirect .hl => true
  | indexed _ _ => true
  | _ => false

/-- The registers that parentheses turn into an indirect operand. -/
def isIndirectBase : Register → Bool
  | .bc | .de | .hl | .sp | .c => true
  | _ => false

/-- The operand that parentheses around an expression make, given what it stands for. -/
def ofGroup (inner value : Expr) : Operand :=
  match value with
  | .register register =>
    if register.isIndex then indexed register (.int 0)
    else if isIndirectBase register then indirect register
    else address inner
  | .indexed register displacement => indexed register displacement
  | _ => address inner

/-- The operand that an argument is. -/
def classify (s : Scopes) (e : Expr) : Operand :=
  match e.resolveOrSelf s with
  | .register register => reg register
  | .condition condition => cond condition
  | .group inner => ofGroup inner (inner.resolveOrSelf s)
  | _ => immediate e

end Operand

/-- The shapes of operands that instruction forms accept. -/
inductive Pattern where
  /-- Exactly this register. -/
  | reg (register : Register)
  /-- An eight-bit register with a code, index halves included. -/
  | reg8
  /-- As `reg8`, or memory. -/
  | mem8
  /-- Exactly this indirect register. -/
  | indirect (register : Register)
  /-- An index register without a displacement. -/
  | bareIndex
  /-- `BC DE HL SP IX IY`. -/
  | pair
  /-- `BC DE HL AF IX IY`. -/
  | pairAf
  /-- `HL IX IY`. -/
  | hlIndex
  /-- Any condition. -/
  | cond
  /-- `NZ Z NC C`. -/
  | condShort
  /-- `(nn)`. -/
  | address
  | immediate
  deriving DecidableEq, Repr, Inhabited

namespace Pattern

def isPair : Register → Bool
  | .bc | .de | .hl | .sp | .ix | .iy => true
  | _ => false

def isPairAf : Register → Bool
  | .bc | .de | .hl | .af | .ix | .iy => true
  | _ => false

def isHlIndex : Register → Bool
  | .hl | .ix | .iy => true
  | _ => false

def isShort : Condition → Bool
  | .nz | .z | .nc | .c => true
  | _ => false

/-- Whether an operand has the shape. -/
def accepts : Pattern → Operand → Bool
  | reg register, operand => operand.register? == some register
  | reg8, operand => (operand.register?.bind Register.code8?).isSome
  | mem8, operand => (operand.register?.bind Register.code8?).isSome || operand.isMemory
  | indirect register, .indirect other => other == register
  | bareIndex, .indexed _ (.int displacement) => displacement == 0
  | pair, operand => operand.register?.any isPair
  | pairAf, operand => operand.register?.any isPairAf
  | hlIndex, operand => operand.register?.any isHlIndex
  | cond, operand => operand.condition?.isSome
  | condShort, operand => operand.condition?.any isShort
  | address, .address _ => true
  | immediate, .immediate _ => true
  | _, _ => false

end Pattern

/-- Whether operands have the shapes of a form, one to one. -/
def acceptsAll : List Pattern → List Operand → Bool
  | [], [] => true
  | pattern :: patterns, operand :: operands =>
    pattern.accepts operand && acceptsAll patterns operands
  | _, _ => false

end Z80Asm.Cpu
