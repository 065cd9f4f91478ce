/-!
# Registers and conditions

The operands that instructions name by a word, with the codes under which they are merged into
an opcode.
-/
set_option autoImplicit false

namespace Z80Asm.Cpu

/-- Registers as operands. `af'` is the shadow of `af`, and `f` is only ever read into. -/
inductive Register where
  | a | b | c | d | e | h | l | i | r | f
  | ixh | ixl | iyh | iyl
  | af | afShadow | bc | de | hl | sp | ix | iy
  deriving DecidableEq, Repr, Inhabited

namespace Register

/-- All registers, eight-bit ones first. -/
def all : List Register :=
  [a, b, c, d, e, h, l, i, r, f, ixh, ixl, iyh, iyl, af, afShadow, bc, de, hl, sp, ix, iy]

def name : Register → String
  | a => "a" | b => "b" | c => "c" | d => "d" | e => "e" | h => "h" | l => "l"
  | i => "i" | r => "r" | f => "f"
  | ixh => "ixh" | ixl => "ixl" | iyh => "iyh" | iyl => "iyl"
  | af => "af" | afShadow => "af'" | bc => "bc" | de => "de" | hl => "hl" | sp => "sp"
  | ix => "ix" | iy => "iy"

def isIndex : Register → Bool
  | ix | iy => true
  | _ => false

/-- The index register that a register is, or is a half of. -/
def indexBase? : Register → Option Register
  | ix | ixh | ixl => some ix
  | iy | iyh | iyl => some iy
  | _ => none

/-- The three-bit field. Six stands for memory and is no register; a half of an index register
    has the code of `h` or `l`. -/
def code8? : Register → Option UInt8
  | b => some 0
  | c => some 1
  | d => some 2
  | e => some 3
  | h | ixh | iyh => some 4
  | l | ixl | iyl => some 5
  | a => some 7
  | _ => none

/-- The two-bit field of a register pair. `af` shares a code with `sp`, and an index register
    takes the place of `hl`. -/
def code16? : Register → Option UInt8
  | bc => some 0
  | de => some 1
  | hl | ix | iy => some 2
  | sp | af => some 3
  | _ => none

/-- The byte in front of an instruction that selects the register's index register. -/
def indexByte? (reg : Register) : Option UInt8 :=
  reg.indexBase?.map fun base => if base = ix then 0xDD else 0xFD

end Register

/-- Condition codes of jumps, calls and returns. -/
inductive Condition where
  | nz | z | nc | c | po | pe | p | m
  deriving DecidableEq, Repr, Inhabited

namespace Condition

/-- The conditions that are names of their own. The carry condition is spelled like register
    `c`, which stands for it wherever a condition is expected. -/
def named : List Condition :=
  [nz, z, nc, po, pe, p, m]

def name : Condition → String
  | nz => "nz" | z => "z" | nc => "nc" | c => "c"
  | po => "po" | pe => "pe" | p => "p" | m => "m"

/-- The three-bit field. -/
def code : Condition → UInt8
  | nz => 0 | z => 1 | nc => 2 | c => 3 | po => 4 | pe => 5 | p => 6 | m => 7

end Condition

end Z80Asm.Cpu
