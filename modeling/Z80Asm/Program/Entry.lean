import Z80Asm.Program.Session
import Z80Asm.Cpu.Encode

/-!
# Entries of a program

An entry is a line with its address and what it contributes to the image. Most lines contribute a
piece of code of their own. A `DS` line contributes a region, and the sections that were sent to it
are entries inside the region.
-/
set_option autoImplicit false

namespace Z80Asm

/-- The number of addresses. -/
def addressSpace : UInt32 := 0x10000

/-- What a line contributes at its own address. -/
inductive Code
  | empty
  /-- Numbers and texts, with the number of bytes that they take. -/
  | data (width : DataWidth) (items : List Expr) (size : UInt32)
  | org (target : UInt32)
  | binary (bytes : List UInt8)
  | diagnostic (severity : Severity) (message : Option Expr)
  | machine (instruction : Cpu.Instruction)
  deriving Repr, Inhabited

namespace Code

/-- The number of bytes. -/
def size : Code → UInt32
  | data _ _ size => size
  | binary bytes => UInt32.ofNat bytes.length
  | machine instruction => UInt32.ofNat instruction.size
  | empty | org _ | diagnostic _ _ => 0

/-- The address that follows code at an address. -/
def next (address : UInt32) : Code → UInt32
  | org target => target
  | code => address + code.size

end Code

/-- The region that a `DS` line reserves. -/
structure Region where
  size : UInt32
  /-- A virtual region has addresses, and nothing is written there. -/
  isVirtual : Bool
  fill : Option Expr
  /-- How many bytes, from the start, the sections inside take. -/
  used : UInt32 := 0
  deriving Repr, Inhabited

/-- A placed line. -/
inductive Entry
  | code (line : Line) (address : UInt32) (body : Code)
  | space (line : Line) (address : UInt32) (region : Region) (parts : List Entry)
  deriving Inhabited

namespace Entry

def line : Entry → Line
  | code line _ _ => line
  | space line _ _ _ => line

def address : Entry → UInt32
  | code _ address _ => address
  | space _ address _ _ => address

/-- The number of bytes. -/
def size : Entry → UInt32
  | code _ _ body => body.size
  | space _ _ region _ => region.size

/-- The address that follows. -/
def next : Entry → UInt32
  | code _ address body => body.next address
  | space _ address region _ => address + region.size

end Entry

/-- A placed source. The symbols of its scope are the program's symbols. -/
structure Program where
  scope : ScopeId
  entries : List Entry
  deriving Inhabited

/-! ## What a line contributes

The size of code depends on the form of its arguments only, not on the values of labels that come
later. -/

/-- What a line contributes, before the sections of a space are placed. -/
inductive Plan
  | code (body : Code)
  | space (region : Region) (id : Option SpaceId)
  deriving Repr, Inhabited

/-- A value as a 32-bit number below a bound. -/
def below? (bound : Nat) (v : Int64) : Option UInt32 :=
  if 0 ≤ v.toInt ∧ v.toInt < bound then some (UInt32.ofNat v.toInt.toNat) else none

/-- The number of bytes that an item of a data statement takes. -/
def DataWidth.itemSize (width : DataWidth) (s : Scopes) (item : Expr) : UInt32 :=
  match width, item.resolve s with
  | .byte, .ok (.str bytes) => UInt32.ofNat bytes.size
  | _, _ => UInt32.ofNat width.bytes

/-- The size argument of a `DS` line, and whether it is marked as virtual. -/
def spaceSize? : List Expr → Option (Bool × Expr)
  | [] => none
  | .annotated name size :: _ =>
    if Text.lower name == "virtual" then some (true, size)
    else some (false, .annotated name size)
  | size :: _ => some (false, size)

/-- The space that was bound to the label of a line. -/
def spaceOf? (s : Scopes) (line : Line) : Option SpaceId := do
  let label ← line.label
  let parent ← s.parent? line.scope
  match s.member parent label with
  | .ok (.space id scope) => if scope = line.scope then some id else none
  | _ => none

def planSpace (s : Scopes) (line : Line) : Except Cause Plan := do
  let args := line.argumentList
  let some (isVirtual, size) := spaceSize? args | throw .missingSize
  let count ← size.integer s
  let some size := below? (addressSpace.toNat + 1) count | throw (.invalidSize count)
  return .space { size, isVirtual, fill := args[1]? } (spaceOf? s line)

def planOrg (s : Scopes) (line : Line) : Except Cause Code := do
  let some target := line.arguments | throw .missingAddress
  let value ← target.integer s
  let some target := below? addressSpace.toNat value | throw (.invalidAddress value)
  return .org target

/-- The part of a file that starts at an offset and has a length, if the file has it. -/
def part? (bytes : List UInt8) (offset length : Int64) : Option (List UInt8) :=
  let offset := offset.toInt
  let length := length.toInt
  if 0 ≤ offset ∧ 0 ≤ length ∧ offset + length ≤ bytes.length then
    some ((bytes.drop offset.toNat).take length.toNat)
  else none

def planIncbin (files : FileAccess) (s : Scopes) (line : Line) (path : String) :
    Except Cause Code := do
  let bytes ← (files.read path).mapError (.unreadable · path)
  let args := line.argumentList
  let offset ← (args[1]?.map (·.integer s)).getD (.ok 0)
  let length ← (args[2]?.map (·.integer s)).getD (.ok (Int64.ofNat bytes.length - offset))
  let some part := part? bytes offset length | throw (.rangeOutsideFile offset length)
  return .binary part

/-- What an expanded item contributes. -/
def Item.plan (files : FileAccess) (s : Scopes) (item : Item) : Except Cause Plan := do
  let line := item.line
  match line.operation with
  | some (.data width) =>
    let items := line.argumentList
    return .code (.data width items (items.foldr (fun item size => width.itemSize s item + size) 0))
  | some .space => planSpace s line
  | some .org => return .code (← planOrg s line)
  | some .incbin =>
    match item with
    | .plain _ (.incbin path) => return .code (← planIncbin files s line path)
    | _ => throw .missingFileName
  | some (.diagnostic severity) =>
    if severity = .warning ∧ line.arguments.isNone then return .code .empty
    else return .code (.diagnostic severity line.arguments)
  | some (.machine mnemonic) =>
    let operands := line.argumentList.map (Cpu.Operand.classify s)
    return .code (.machine (← Cpu.Instruction.select mnemonic line.arguments operands))
  | _ => return .code .empty

end Z80Asm
