import Z80Asm.Program.Entry

/-!
# Placing lines

Lines are placed in their order from address 0. Placing a line fixes the address of its scope, and
the line after it starts where it ends. A `DS` line places the sections that were sent to its space
from its own address on; they have to fit into the region. Every space that sections were sent to
has to be placed.

A section can hold a `DS` line of its own. Placing takes the waiting lines out of their space, so
regions nest no deeper than there are waiting lines; that number is the argument of the recursion.
-/
set_option autoImplicit false

namespace Z80Asm

/-- The number of lines that wait for a space. -/
def Session.waiting (s : Session) : Nat :=
  s.spaces.toList.foldr (fun lines count => lines.length + count) 0

namespace Assembly

/-- Places lines one after the other, from an address on. -/
abbrev Placer := List Item → UInt32 → Assembly (List Entry × UInt32)

/-- The lines that wait for a space. Nothing waits for it afterwards. -/
def takeSections (id : SpaceId) : Assembly (List Item) := do
  let lines := ((← get).spaces[id.index]?).getD []
  modify fun s => { s with spaces := s.spaces.modify id.index fun _ => [] }
  return lines

/-- Places one line. `placeParts` places the sections inside a region. -/
def placeWith (placeParts : Placer) (item : Item) (address : UInt32) : Assembly Entry :=
  traced item.line.position do
    onScopes (Scopes.bindAddress item.line.scope address)
    match ← ofExcept (item.plan (← get).library.files (← scopes)) with
    | .code code => return .code item.line address code
    | .space region none => return .space item.line address region []
    | .space region (some id) =>
      let (parts, cursor) ← placeParts (← takeSections id) address
      let used := cursor - address
      if region.size < used then fail (.sectionTooLarge used region.size)
      return .space item.line address { region with used } parts

/-- Places lines one after the other. -/
def placeAll (placeItem : Item → UInt32 → Assembly Entry) : Placer
  | [], address => return ([], address)
  | item :: rest, address => do
    let entry ← placeItem item address
    let (entries, last) ← placeAll placeItem rest entry.next
    return (entry :: entries, last)

/-- Places one line, with regions inside it nested at most `levels` deep. -/
def placeLevels : Nat → Item → UInt32 → Assembly Entry
  | 0 => placeWith fun lines address =>
    if lines.isEmpty then return ([], address) else fail .spaceNeverPlaced
  | levels + 1 => placeWith (placeAll (placeLevels levels))

/-- Places one line. -/
def place (item : Item) (address : UInt32) : Assembly Entry := do
  placeLevels (← get).waiting item address

/-- Places the lines of a program. None ends behind the last address. -/
def placeLines : List Item → UInt32 → Assembly (List Entry)
  | [], _ => return []
  | item :: rest, address => do
    let entry ← place item address
    if addressSpace < entry.next then
      throw ((Cause.addressOutOfRange entry.next).at item.line.position)
    return entry :: (← placeLines rest entry.next)

/-- Places the lines of a source. -/
def resolve (scope : ScopeId) (items : List Item) : Assembly Program := do
  let entries ← placeLines items 0
  if (← get).waiting != 0 then fail .spaceNeverPlaced
  return { scope, entries }

end Assembly

end Z80Asm
