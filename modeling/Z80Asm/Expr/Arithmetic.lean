import Z80Asm.Error.Cause

/-!
# Arithmetic on values

Values are signed 64-bit words and arithmetic wraps around. Truth is any word but zero, and the
operators that compare give one or zero. Division is toward zero; only its divisor can make an
operator fail.
-/
set_option autoImplicit false

namespace Z80Asm

/-- One for true and zero for false. -/
def truth (b : Bool) : Int64 :=
  if b then 1 else 0

def UnaryOp.apply : UnaryOp → Int64 → Int64
  | plus, v => v
  | minus, v => -v
  | bitNot, v => ~~~v
  | logicNot, v => truth (v == 0)

/-- The value of a binary operator. A shift takes its amount modulo 64 and keeps the sign. -/
def BinaryOp.apply : BinaryOp → Int64 → Int64 → Except Cause Int64
  | add, l, r => .ok (l + r)
  | sub, l, r => .ok (l - r)
  | mul, l, r => .ok (l * r)
  | div, l, r => if r == 0 then .error .divisionByZero else .ok (l / r)
  | mod, l, r => if r == 0 then .error .moduloByZero else .ok (l % r)
  | bitAnd, l, r => .ok (l &&& r)
  | bitOr, l, r => .ok (l ||| r)
  | bitXor, l, r => .ok (l ^^^ r)
  | shl, l, r => .ok (l <<< (r &&& 0x3F))
  | shr, l, r => .ok (l >>> (r &&& 0x3F))
  | eq, l, r => .ok (truth (l == r))
  | ne, l, r => .ok (truth (l != r))
  | lt, l, r => .ok (truth (l < r))
  | le, l, r => .ok (truth (l ≤ r))
  | gt, l, r => .ok (truth (r < l))
  | ge, l, r => .ok (truth (r ≤ l))
  | logicAnd, l, r => .ok (truth (l != 0 && r != 0))
  | logicOr, l, r => .ok (truth (l != 0 || r != 0))

/-! ## Ranges -/

/-- Whether `lo ≤ v ≤ hi`. -/
def Int64.within (lo hi v : Int64) : Bool :=
  lo ≤ v && v ≤ hi

/-- A byte, read as signed or unsigned. -/
def fitsByte (v : Int64) : Bool :=
  Int64.within (-0x80) 0xFF v

/-- A 16-bit word, read as signed or unsigned. -/
def fitsWord (v : Int64) : Bool :=
  Int64.within (-0x8000) 0xFFFF v

/-- A 32-bit word, read as signed or unsigned. -/
def fitsLong (v : Int64) : Bool :=
  Int64.within (-0x80000000) 0xFFFFFFFF v

/-- A signed byte: the displacement of an index register or of a relative jump. -/
def fitsDisplacement (v : Int64) : Bool :=
  Int64.within (-0x80) 0x7F v

/-- The units that a data directive of this width accepts. -/
def DataWidth.fits : DataWidth → Int64 → Bool
  | byte => fitsByte
  | word => fitsWord
  | long => fitsLong

/-! ## Bytes -/

/-- The lowest byte of a value. -/
def lowByte (v : Int64) : UInt8 :=
  v.toUInt64.toUInt8

/-- The lowest `count` bytes of a value, least significant first. -/
def littleEndian : Nat → Int64 → List UInt8
  | 0, _ => []
  | count + 1, v => lowByte v :: littleEndian count (v >>> 8)

end Z80Asm
