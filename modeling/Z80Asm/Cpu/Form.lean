import Z80Asm.Cpu.Operand

/-!
# Instruction forms

Each mnemonic has one or more forms. A form says which operands it accepts, which opcode it has
and how the operands are merged into that. Forms are tried in the order of the table and the first
that accepts counts, so the more specific ones come first.

Index registers have no forms of their own: where `HL`, `H`, `L` or `(HL)` is accepted, so is
what takes its place behind the byte `DD` or `FD`.
-/
set_option autoImplicit false

namespace Z80Asm.Cpu

/-- The opcode pages. All but the main one are selected by a byte in front of the opcode. -/
inductive Page where
  | main | cb | ed
  deriving DecidableEq, Repr, Inhabited

/-- The byte that selects a page. -/
def Page.byte? : Page → Option UInt8
  | main => none
  | cb => some 0xCB
  | ed => some 0xED

/-- What is merged into the opcode. The numbers count operands. -/
inductive Field where
  /-- An eight-bit register or memory in bits 5 to 3. -/
  | high (operand : Nat)
  /-- An eight-bit register or memory in bits 2 to 0. -/
  | low (operand : Nat)
  /-- A register pair in bits 5 and 4. -/
  | pair (operand : Nat)
  /-- A condition in bits 5 to 3. -/
  | cond (operand : Nat)
  /-- A bit number in bits 5 to 3. -/
  | bit (operand : Nat)
  /-- A restart address, a multiple of eight up to 38H. -/
  | rst (operand : Nat)
  /-- An interrupt mode, which selects among three opcodes. -/
  | mode (operand : Nat)
  /-- An operand that has to be zero and leaves no trace. -/
  | zero (operand : Nat)
  deriving DecidableEq, Repr, Inhabited

/-- What follows the opcode and the displacement. -/
inductive Tail where
  | none
  | imm8 (operand : Nat)
  | imm16 (operand : Nat)
  /-- The distance from the next instruction to a target. -/
  | rel (operand : Nat)
  deriving DecidableEq, Repr, Inhabited

def Tail.size : Tail → Nat
  | none => 0
  | imm8 _ | rel _ => 1
  | imm16 _ => 2

structure Form where
  mnemonic : String
  operands : List Pattern
  page : Page
  opcode : UInt8
  fields : List Field
  tail : Tail
  deriving DecidableEq, Repr, Inhabited

namespace Form

/-- Eight-bit loads. -/
def loads8 : List Form := [
  ⟨"ld", [.mem8, .mem8], .main, 0x40, [.high 0, .low 1], .none⟩,
  ⟨"ld", [.mem8, .immediate], .main, 0x06, [.high 0], .imm8 1⟩,
  ⟨"ld", [.reg .a, .indirect .bc], .main, 0x0A, [], .none⟩,
  ⟨"ld", [.reg .a, .indirect .de], .main, 0x1A, [], .none⟩,
  ⟨"ld", [.indirect .bc, .reg .a], .main, 0x02, [], .none⟩,
  ⟨"ld", [.indirect .de, .reg .a], .main, 0x12, [], .none⟩,
  ⟨"ld", [.reg .a, .address], .main, 0x3A, [], .imm16 1⟩,
  ⟨"ld", [.address, .reg .a], .main, 0x32, [], .imm16 0⟩,
  ⟨"ld", [.reg .a, .reg .i], .ed, 0x57, [], .none⟩,
  ⟨"ld", [.reg .a, .reg .r], .ed, 0x5F, [], .none⟩,
  ⟨"ld", [.reg .i, .reg .a], .ed, 0x47, [], .none⟩,
  ⟨"ld", [.reg .r, .reg .a], .ed, 0x4F, [], .none⟩]

/-- 16-bit loads and the stack. -/
def loads16 : List Form := [
  ⟨"ld", [.pair, .immediate], .main, 0x01, [.pair 0], .imm16 1⟩,
  ⟨"ld", [.hlIndex, .address], .main, 0x2A, [], .imm16 1⟩,
  ⟨"ld", [.address, .hlIndex], .main, 0x22, [], .imm16 0⟩,
  ⟨"ld", [.pair, .address], .ed, 0x4B, [.pair 0], .imm16 1⟩,
  ⟨"ld", [.address, .pair], .ed, 0x43, [.pair 1], .imm16 0⟩,
  ⟨"ld", [.reg .sp, .hlIndex], .main, 0xF9, [], .none⟩,
  ⟨"push", [.pairAf], .main, 0xC5, [.pair 0], .none⟩,
  ⟨"pop", [.pairAf], .main, 0xC1, [.pair 0], .none⟩]

/-- Exchange, block transfer and search. -/
def exchange : List Form := [
  ⟨"ex", [.reg .de, .reg .hl], .main, 0xEB, [], .none⟩,
  ⟨"ex", [.reg .af, .reg .afShadow], .main, 0x08, [], .none⟩,
  ⟨"ex", [.indirect .sp, .hlIndex], .main, 0xE3, [], .none⟩,
  ⟨"exx", [], .main, 0xD9, [], .none⟩,
  ⟨"ldi", [], .ed, 0xA0, [], .none⟩,
  ⟨"ldir", [], .ed, 0xB0, [], .none⟩,
  ⟨"ldd", [], .ed, 0xA8, [], .none⟩,
  ⟨"lddr", [], .ed, 0xB8, [], .none⟩,
  ⟨"cpi", [], .ed, 0xA1, [], .none⟩,
  ⟨"cpir", [], .ed, 0xB1, [], .none⟩,
  ⟨"cpd", [], .ed, 0xA9, [], .none⟩,
  ⟨"cpdr", [], .ed, 0xB9, [], .none⟩]

/-- Eight-bit arithmetic and logic. The accumulator may be left out. -/
def arithmetic8 : List Form := [
  ⟨"add", [.reg .a, .mem8], .main, 0x80, [.low 1], .none⟩,
  ⟨"add", [.reg .a, .immediate], .main, 0xC6, [], .imm8 1⟩,
  ⟨"add", [.mem8], .main, 0x80, [.low 0], .none⟩,
  ⟨"add", [.immediate], .main, 0xC6, [], .imm8 0⟩,
  ⟨"adc", [.reg .a, .mem8], .main, 0x88, [.low 1], .none⟩,
  ⟨"adc", [.reg .a, .immediate], .main, 0xCE, [], .imm8 1⟩,
  ⟨"adc", [.mem8], .main, 0x88, [.low 0], .none⟩,
  ⟨"adc", [.immediate], .main, 0xCE, [], .imm8 0⟩,
  ⟨"sub", [.reg .a, .mem8], .main, 0x90, [.low 1], .none⟩,
  ⟨"sub", [.reg .a, .immediate], .main, 0xD6, [], .imm8 1⟩,
  ⟨"sub", [.mem8], .main, 0x90, [.low 0], .none⟩,
  ⟨"sub", [.immediate], .main, 0xD6, [], .imm8 0⟩,
  ⟨"sbc", [.reg .a, .mem8], .main, 0x98, [.low 1], .none⟩,
  ⟨"sbc", [.reg .a, .immediate], .main, 0xDE, [], .imm8 1⟩,
  ⟨"sbc", [.mem8], .main, 0x98, [.low 0], .none⟩,
  ⟨"sbc", [.immediate], .main, 0xDE, [], .imm8 0⟩,
  ⟨"and", [.reg .a, .mem8], .main, 0xA0, [.low 1], .none⟩,
  ⟨"and", [.reg .a, .immediate], .main, 0xE6, [], .imm8 1⟩,
  ⟨"and", [.mem8], .main, 0xA0, [.low 0], .none⟩,
  ⟨"and", [.immediate], .main, 0xE6, [], .imm8 0⟩,
  ⟨"xor", [.reg .a, .mem8], .main, 0xA8, [.low 1], .none⟩,
  ⟨"xor", [.reg .a, .immediate], .main, 0xEE, [], .imm8 1⟩,
  ⟨"xor", [.mem8], .main, 0xA8, [.low 0], .none⟩,
  ⟨"xor", [.immediate], .main, 0xEE, [], .imm8 0⟩,
  ⟨"or", [.reg .a, .mem8], .main, 0xB0, [.low 1], .none⟩,
  ⟨"or", [.reg .a, .immediate], .main, 0xF6, [], .imm8 1⟩,
  ⟨"or", [.mem8], .main, 0xB0, [.low 0], .none⟩,
  ⟨"or", [.immediate], .main, 0xF6, [], .imm8 0⟩,
  ⟨"cp", [.reg .a, .mem8], .main, 0xB8, [.low 1], .none⟩,
  ⟨"cp", [.reg .a, .immediate], .main, 0xFE, [], .imm8 1⟩,
  ⟨"cp", [.mem8], .main, 0xB8, [.low 0], .none⟩,
  ⟨"cp", [.immediate], .main, 0xFE, [], .imm8 0⟩,
  ⟨"inc", [.mem8], .main, 0x04, [.high 0], .none⟩,
  ⟨"dec", [.mem8], .main, 0x05, [.high 0], .none⟩]

/-- 16-bit arithmetic. -/
def arithmetic16 : List Form := [
  ⟨"add", [.hlIndex, .pair], .main, 0x09, [.pair 1], .none⟩,
  ⟨"adc", [.reg .hl, .pair], .ed, 0x4A, [.pair 1], .none⟩,
  ⟨"sbc", [.reg .hl, .pair], .ed, 0x42, [.pair 1], .none⟩,
  ⟨"inc", [.pair], .main, 0x03, [.pair 0], .none⟩,
  ⟨"dec", [.pair], .main, 0x0B, [.pair 0], .none⟩]

/-- General purpose and control of the processor. -/
def control : List Form := [
  ⟨"nop", [], .main, 0x00, [], .none⟩,
  ⟨"halt", [], .main, 0x76, [], .none⟩,
  ⟨"di", [], .main, 0xF3, [], .none⟩,
  ⟨"ei", [], .main, 0xFB, [], .none⟩,
  ⟨"daa", [], .main, 0x27, [], .none⟩,
  ⟨"cpl", [], .main, 0x2F, [], .none⟩,
  ⟨"scf", [], .main, 0x37, [], .none⟩,
  ⟨"ccf", [], .main, 0x3F, [], .none⟩,
  ⟨"neg", [], .ed, 0x44, [], .none⟩,
  ⟨"im", [.immediate], .ed, 0x46, [.mode 0], .none⟩]

/-- Rotates and shifts. -/
def rotate : List Form := [
  ⟨"rlca", [], .main, 0x07, [], .none⟩,
  ⟨"rrca", [], .main, 0x0F, [], .none⟩,
  ⟨"rla", [], .main, 0x17, [], .none⟩,
  ⟨"rra", [], .main, 0x1F, [], .none⟩,
  ⟨"rld", [], .ed, 0x6F, [], .none⟩,
  ⟨"rrd", [], .ed, 0x67, [], .none⟩,
  ⟨"rlc", [.mem8], .cb, 0x00, [.low 0], .none⟩,
  ⟨"rrc", [.mem8], .cb, 0x08, [.low 0], .none⟩,
  ⟨"rl", [.mem8], .cb, 0x10, [.low 0], .none⟩,
  ⟨"rr", [.mem8], .cb, 0x18, [.low 0], .none⟩,
  ⟨"sla", [.mem8], .cb, 0x20, [.low 0], .none⟩,
  ⟨"sra", [.mem8], .cb, 0x28, [.low 0], .none⟩,
  ⟨"sll", [.mem8], .cb, 0x30, [.low 0], .none⟩,
  ⟨"srl", [.mem8], .cb, 0x38, [.low 0], .none⟩]

/-- Setting, resetting and testing bits. -/
def bits : List Form := [
  ⟨"bit", [.immediate, .mem8], .cb, 0x40, [.bit 0, .low 1], .none⟩,
  ⟨"res", [.immediate, .mem8], .cb, 0x80, [.bit 0, .low 1], .none⟩,
  ⟨"set", [.immediate, .mem8], .cb, 0xC0, [.bit 0, .low 1], .none⟩]

/-- Jumps, calls and returns. -/
def branch : List Form := [
  ⟨"jp", [.immediate], .main, 0xC3, [], .imm16 0⟩,
  ⟨"jp", [.cond, .immediate], .main, 0xC2, [.cond 0], .imm16 1⟩,
  ⟨"jp", [.indirect .hl], .main, 0xE9, [], .none⟩,
  ⟨"jp", [.bareIndex], .main, 0xE9, [], .none⟩,
  ⟨"jr", [.immediate], .main, 0x18, [], .rel 0⟩,
  ⟨"jr", [.condShort, .immediate], .main, 0x20, [.cond 0], .rel 1⟩,
  ⟨"djnz", [.immediate], .main, 0x10, [], .rel 0⟩,
  ⟨"call", [.immediate], .main, 0xCD, [], .imm16 0⟩,
  ⟨"call", [.cond, .immediate], .main, 0xC4, [.cond 0], .imm16 1⟩,
  ⟨"ret", [], .main, 0xC9, [], .none⟩,
  ⟨"ret", [.cond], .main, 0xC0, [.cond 0], .none⟩,
  ⟨"reti", [], .ed, 0x4D, [], .none⟩,
  ⟨"retn", [], .ed, 0x45, [], .none⟩,
  ⟨"rst", [.immediate], .main, 0xC7, [.rst 0], .none⟩]

/-- Input and output. -/
def ports : List Form := [
  ⟨"in", [.reg .a, .address], .main, 0xDB, [], .imm8 1⟩,
  ⟨"in", [.reg8, .indirect .c], .ed, 0x40, [.high 0], .none⟩,
  ⟨"in", [.reg .f, .indirect .c], .ed, 0x70, [], .none⟩,
  ⟨"in", [.indirect .c], .ed, 0x70, [], .none⟩,
  ⟨"out", [.address, .reg .a], .main, 0xD3, [], .imm8 0⟩,
  ⟨"out", [.indirect .c, .reg8], .ed, 0x41, [.high 1], .none⟩,
  ⟨"out", [.indirect .c, .immediate], .ed, 0x71, [.zero 1], .none⟩,
  ⟨"ini", [], .ed, 0xA2, [], .none⟩,
  ⟨"inir", [], .ed, 0xB2, [], .none⟩,
  ⟨"ind", [], .ed, 0xAA, [], .none⟩,
  ⟨"indr", [], .ed, 0xBA, [], .none⟩,
  ⟨"outi", [], .ed, 0xA3, [], .none⟩,
  ⟨"otir", [], .ed, 0xB3, [], .none⟩,
  ⟨"outd", [], .ed, 0xAB, [], .none⟩,
  ⟨"otdr", [], .ed, 0xBB, [], .none⟩]

/-- All forms, in the order in which they are tried. -/
def table : List Form :=
  loads8 ++ loads16 ++ exchange ++ arithmetic8 ++ arithmetic16 ++ control ++ rotate ++ bits ++
    branch ++ ports

/-- The forms of a mnemonic, which is given in lower case. -/
def ofMnemonic (mnemonic : String) : List Form :=
  table.filter (·.mnemonic == mnemonic)

/-- The mnemonics of the table, each where it occurs first. -/
def mnemonics : List String :=
  (table.map mnemonic).foldl (fun names name => if names.contains name then names else names ++ [name])
    []

end Form

end Z80Asm.Cpu
