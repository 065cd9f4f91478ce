import Z80Asm.Program.Entry

/-!
# Generating code

Every entry of a program writes its bytes into the image, in the order of the entries. Now that all
lines are placed, every label has an address and every argument a value; what does not fit its
place is an error. What earlier entries wrote stays when a later one fails.
-/
set_option autoImplicit false

namespace Z80Asm

/-- Generating code: failures have a context, and what was written until then is kept. -/
abbrev Emit := EStateM Failure Output

namespace Emit

def ofExcept {α : Type} : Except Cause α → Emit α
  | .ok a => pure a
  | .error cause => throw cause.untraced

/-- Gives failures that have no context yet a position. -/
def traced {α : Type} (position : Position) (x : Emit α) : Emit α :=
  EStateM.adaptExcept (·.at position none) x

/-- Writes bytes from an address on. -/
def storeBytes (address : UInt32) (bytes : List UInt8) : Emit Unit :=
  modify fun out => { out with image := out.image.storeBytes address bytes }

/-- Writes into an image of its own, which is then forgotten. Only the warnings remain. -/
def onScratch (x : Emit Unit) : Emit Unit := fun out =>
  match x { out with image := {} } with
  | .ok () after => .ok () { after with image := out.image }
  | .error failure after => .error failure { after with image := out.image }

end Emit

/-- The bytes of an item of a data statement. -/
def DataWidth.itemBytes (width : DataWidth) (s : Scopes) (item : Expr) :
    Except Cause (List UInt8) := do
  if width = .byte ∧ item.isString s then item.string s
  else
    let value ← item.integer s
    if width.fits value then return littleEndian width.bytes value
    else throw (.valueRange value)

/-- The bytes of a data statement, which take as many places as were planned. -/
def dataBytes (s : Scopes) (width : DataWidth) (items : List Expr) (size : UInt32) :
    Except Cause (List UInt8) := do
  let bytes := (← items.mapM (width.itemBytes s)).flatten
  if UInt32.ofNat bytes.length != size then throw .dataSizeChanged
  return bytes

/-- The bytes of an instruction, which take as many places as were planned. -/
def machineBytes (s : Scopes) (address : UInt32) (instruction : Cpu.Instruction) :
    Except Cause (List UInt8) := do
  let bytes ← instruction.encode s address
  if bytes.length != instruction.size then
    throw (.instructionSizeChanged instruction.form.mnemonic)
  return bytes

/-- The byte that fills a region. -/
def Region.fillByte (s : Scopes) (region : Region) : Except Cause UInt8 := do
  let some fill := region.fill | return 0
  let value ← fill.integer s
  if fitsByte value then return lowByte value else throw (.valueRange value)

/-- The message of an `ERROR` or `WARNING` statement. -/
def messageText (s : Scopes) (message : Option Expr) : Except Cause (Option String) :=
  message.mapM fun e => return Text.ofBytes (← e.string s)

/-- Writes what a line contributes at its own address. -/
def Code.emit (s : Scopes) (line : Line) (address : UInt32) : Code → Emit Unit
  | empty | org _ => return ()
  | data width items size => do
    Emit.storeBytes address (← Emit.ofExcept (dataBytes s width items size))
  | binary bytes => Emit.storeBytes address bytes
  | machine instruction => do
    Emit.storeBytes address (← Emit.ofExcept (machineBytes s address instruction))
  | diagnostic .error message => do
    throw (Cause.directive (← Emit.ofExcept (messageText s message))).untraced
  | diagnostic .warning message => do
    let text ← Emit.ofExcept (messageText s message)
    let site := line.position.here
    modify fun out =>
      { out with warnings := out.warnings ++ [⟨site.file, site.line, text.getD ""⟩] }

mutual

/-- Writes an entry. Failures inside a region have the position of the line there. -/
def Entry.emit (s : Scopes) : Entry → Emit Unit
  | .code line address code => code.emit s line address
  | .space _ address region parts => do
    if region.isVirtual then Emit.onScratch (emitAll s parts)
    else
      emitAll s parts
      let fill ← Emit.ofExcept (region.fillByte s)
      let rest := List.replicate (region.size.toNat - region.used.toNat) fill
      Emit.storeBytes (address + region.used) rest

/-- Writes entries in their order. -/
def emitAll (s : Scopes) : List Entry → Emit Unit
  | [] => return ()
  | entry :: rest => do
    Emit.traced entry.line.position (entry.emit s)
    emitAll s rest

end

namespace Assembly

/-- Runs a generation on the output of the session. -/
def emitting {α : Type} (x : Scopes → Emit α) : Assembly α := fun session =>
  match x session.scopes session.output with
  | .ok a output => .ok a { session with output }
  | .error failure output => .error failure { session with output }

/-- Writes a program into the image. -/
def generate (program : Program) : Assembly Unit :=
  emitting fun scopes => emitAll scopes program.entries

/-- The bytes of a single entry. -/
def entryBytes (entry : Entry) : Assembly (List UInt8) := fun session =>
  match entry.emit session.scopes { session.output with image := {} } with
  | .ok () after =>
    let offsets := List.range entry.size.toNat
    .ok (offsets.filterMap fun offset => after.image.get? (entry.address + UInt32.ofNat offset))
      { session with output.warnings := after.warnings }
  | .error failure after => .error failure { session with output.warnings := after.warnings }

end Assembly

end Z80Asm
