import Z80Asm.Cpu.Form

/-!
# Encoding

`Instruction.select` picks the form for classified operands and fixes the size of the code, which
depends on shapes alone. `Instruction.encode` evaluates the operands and checks their ranges.

The bytes of an instruction are, in this order: the byte of an index register, the byte of the
opcode's page, the opcode, a displacement and an operand. On page `CB` the displacement comes
before the opcode.
-/
set_option autoImplicit false

namespace Z80Asm.Cpu

/-- A form with operands that it accepts, and the index register they use. -/
structure Instruction where
  form : Form
  operands : List Operand
  index : Option Register
  deriving Repr, Inhabited

/-! ## Operands together -/

/-- How the operands of an instruction use index registers and `HL`. -/
structure IndexUse where
  index : Option Register := none
  /-- An index register or a half of one is an operand. -/
  asRegister : Bool := false
  /-- An index register addresses memory. -/
  asMemory : Bool := false
  /-- `HL`, `H`, `L` or `(HL)` is an operand. -/
  plain : Bool := false
  deriving DecidableEq, Repr, Inhabited

/-- `H`, `L` and `HL`, which an index register would take the place of. -/
def isPlainHl : Register → Bool
  | .h | .l | .hl => true
  | _ => false

/-- Notes an index register, which must be the only one. -/
def IndexUse.note (use : IndexUse) (mnemonic : String) (base : Register) :
    Except Cause IndexUse :=
  if use.index.any (· != base) then .error (.mixedIndex mnemonic)
  else .ok { use with index := some base }

/-- Notes what an operand uses. -/
def IndexUse.add (mnemonic : String) (use : IndexUse) : Operand → Except Cause IndexUse
  | .reg register =>
    match register.indexBase? with
    | some base => { use with asRegister := true }.note mnemonic base
    | none => .ok { use with plain := use.plain || isPlainHl register }
  | .indexed register _ => { use with asMemory := true }.note mnemonic register
  | .indirect .hl => .ok { use with plain := true }
  | _ => .ok use

/-- The index register that the operands of a form share. One byte in front of the instruction
    turns every `HL` in it, so operands that need both cannot be combined. -/
def indexRegister (form : Form) (operands : List Operand) : Except Cause (Option Register) := do
  let use ← operands.foldlM (IndexUse.add form.mnemonic) {}
  if use.index.isNone then return none
  if form.page == .ed || (form.page == .cb && use.asRegister) then
    throw (.indexNotAllowed form.mnemonic)
  if use.asRegister && (use.plain || use.asMemory) then
    throw (.registerCombination form.mnemonic)
  return use.index

/-- The operand that a field merges as an eight-bit register or memory. -/
def Field.mem8? : Field → Option Nat
  | high operand => some operand
  | low operand => some operand
  | _ => none

/-- The operands that the fields of a form merge as registers or memory. -/
def mergedOperands (form : Form) (operands : List Operand) : List Operand :=
  form.fields.filterMap fun field => field.mem8?.bind (operands[·]?)

/-- Two memory operands would encode as another instruction. -/
def checkMemory (form : Form) (operands : List Operand) : Except Cause Unit :=
  if 1 < (mergedOperands form operands).countP Operand.isMemory then
    .error (.operandCombination form.mnemonic)
  else .ok ()

namespace Instruction

/-- The first form of a mnemonic that accepts the operands. A failure shows the arguments. -/
def select (mnemonic : String) (arguments : Option Expr) (operands : List Operand) :
    Except Cause Instruction := do
  match (Form.ofMnemonic mnemonic).find? fun form => acceptsAll form.operands operands with
  | none => throw (.invalidOperands mnemonic arguments)
  | some form =>
    let index ← indexRegister form operands
    checkMemory form operands
    return { form, operands, index }

/-- The displacement of the operand that is merged into the opcode. -/
def displacement? (instr : Instruction) : Option Expr :=
  (mergedOperands instr.form instr.operands).findSome? fun
    | .indexed _ displacement => some displacement
    | _ => none

/-- The number of bytes, which follows from the form and the shapes of the operands. -/
def size (instr : Instruction) : Nat :=
  1 + instr.form.tail.size + (if instr.index.isSome then 1 else 0) +
    (if instr.form.page != .main then 1 else 0) +
    (if instr.displacement?.isSome then 1 else 0)

/-! ## Values -/

/-- The value of an operand. -/
def value (s : Scopes) (instr : Instruction) (operand : Nat) : Except Cause Int64 :=
  match instr.operands[operand]?.bind Operand.value? with
  | some e => e.integer s
  | none => .error (.missingOperandValue instr.form.mnemonic)

/-- The code of a register or memory operand. -/
def code8 (instr : Instruction) (operand : Nat) : Except Cause UInt8 :=
  let code? : Option UInt8 :=
    match instr.operands[operand]? with
    | some (.reg register) => register.code8?
    | some operand => if operand.isMemory then some 6 else none
    | none => none
  match code? with
  | some code => .ok code
  | none => .error (.invalidRegister instr.form.mnemonic)

/-- The code of a register pair. -/
def code16 (instr : Instruction) (operand : Nat) : Except Cause UInt8 :=
  match (instr.operands[operand]?.bind Operand.register?).bind Register.code16? with
  | some code => .ok code
  | none => .error (.invalidPair instr.form.mnemonic)

/-- The code of a condition. -/
def conditionCode (instr : Instruction) (operand : Nat) : Except Cause UInt8 :=
  match instr.operands[operand]?.bind Operand.condition? with
  | some condition => .ok condition.code
  | none => .error (.invalidCondition instr.form.mnemonic)

/-- Merges a field into an opcode. -/
def merge (s : Scopes) (instr : Instruction) (opcode : UInt8) : Field → Except Cause UInt8
  | .high operand => do return opcode ||| ((← instr.code8 operand) <<< 3)
  | .low operand => do return opcode ||| (← instr.code8 operand)
  | .pair operand => do return opcode ||| ((← instr.code16 operand) <<< 4)
  | .cond operand => do return opcode ||| ((← instr.conditionCode operand) <<< 3)
  | .bit operand => do
    let bit ← instr.value s operand
    if !Int64.within 0 7 bit then throw (.bitRange bit)
    return opcode ||| (lowByte bit <<< 3)
  | .rst operand => do
    let target ← instr.value s operand
    if !Int64.within 0 0x38 target || target % 8 != 0 then throw (.restartAddress target)
    return opcode ||| lowByte target
  | .mode operand => do
    let mode ← instr.value s operand
    if mode == 0 then return 0x46
    else if mode == 1 then return 0x56
    else if mode == 2 then return 0x5E
    else throw (.interruptMode mode)
  | .zero operand => do
    let value ← instr.value s operand
    if value != 0 then throw (.notZero value)
    return opcode

def opcode (s : Scopes) (instr : Instruction) : Except Cause UInt8 :=
  instr.form.fields.foldlM (instr.merge s) instr.form.opcode

/-- The displacement byte, if the instruction has one. -/
def displacementByte (s : Scopes) (instr : Instruction) : Except Cause (Option UInt8) := do
  match instr.displacement? with
  | none => return none
  | some e =>
    let offset ← e.integer s
    if !fitsDisplacement offset then throw (.displacementRange offset)
    return some (lowByte offset)

/-- The bytes behind the opcode and the displacement of an instruction at an address. -/
def tailBytes (s : Scopes) (address : UInt32) (instr : Instruction) :
    Except Cause (List UInt8) := do
  match instr.form.tail with
  | .none => return []
  | .imm8 operand =>
    let value ← instr.value s operand
    if !fitsByte value then throw (.valueRange value)
    return [lowByte value]
  | .imm16 operand =>
    let value ← instr.value s operand
    if !fitsWord value then throw (.valueRange value)
    return littleEndian 2 value
  | .rel operand =>
    let target ← instr.value s operand
    let offset := target - Int64.ofNat (address.toNat + instr.size)
    if !fitsDisplacement offset then throw (.jumpRange offset)
    return [lowByte offset]

/-- The bytes of an instruction at an address. -/
def encode (s : Scopes) (address : UInt32) (instr : Instruction) : Except Cause (List UInt8) := do
  let opcode ← instr.opcode s
  let displacement ← instr.displacementByte s
  let front := (instr.index.bind Register.indexByte?).toList ++ instr.form.page.byte?.toList
  let core :=
    match instr.form.page, displacement with
    | .cb, some d => [d, opcode]
    | _, d => opcode :: d.toList
  let tail ← instr.tailBytes s address
  return front ++ core ++ tail

end Instruction

end Z80Asm.Cpu
