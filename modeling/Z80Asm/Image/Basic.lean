import Std.Data.ExtTreeMap

/-!
# Images

The memory that a program writes: a byte for each address written so far, the last one winning.
Two images are equal if they hold the same bytes at the same addresses.
-/
set_option autoImplicit false

namespace Z80Asm

structure Image where
  cells : Std.ExtTreeMap UInt32 UInt8 := {}

namespace Image

def empty : Image := {}

instance : Inhabited Image := ⟨empty⟩

/-- The number of addresses written. -/
def size (image : Image) : Nat :=
  image.cells.size

def isEmpty (image : Image) : Bool :=
  image.cells.isEmpty

def store (image : Image) (address : UInt32) (byte : UInt8) : Image :=
  { cells := image.cells.insert address byte }

/-- Stores bytes at consecutive addresses, which wrap around. -/
def storeBytes (image : Image) (address : UInt32) : List UInt8 → Image
  | [] => image
  | byte :: rest => (image.store address byte).storeBytes (address + 1) rest

def get? (image : Image) (address : UInt32) : Option UInt8 :=
  image.cells[address]?

/-- What is stored, by address. -/
def toList (image : Image) : List (UInt32 × UInt8) :=
  image.cells.toList

/-- The lowest and the highest address written. -/
def range? (image : Image) : Option (UInt32 × UInt32) :=
  match image.cells.minKey?, image.cells.maxKey? with
  | some low, some high => some (low, high)
  | _, _ => none

/-- The bytes from the lowest to the highest address, with zeros in the gaps. -/
def toBinary (image : Image) : List UInt8 :=
  match image.range? with
  | none => []
  | some (low, high) =>
    (List.range (high.toNat - low.toNat + 1)).map fun i =>
      (image.get? (low + UInt32.ofNat i)).getD 0

end Image

end Z80Asm
