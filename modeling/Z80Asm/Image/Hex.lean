import Z80Asm.Image.Basic
import Z80Asm.Line.Number

/-!
# Intel HEX

An image is written as text in records of at most 32 bytes. A record holds a length, a 16-bit
address, a type, its data and a checksum that makes the sum of all its bytes zero. Runs of
consecutive addresses are cut into full records; what is left of a run is a record of its own, so
no record spans a gap. The last record ends the file.

Reading accepts records in any order and of any length that match their length byte, and stops at
the end record.
-/
set_option autoImplicit false

namespace Z80Asm.Image

/-! ## Writing -/

/-- The bytes that one record may hold. -/
def recordLimit : Nat := 32

/-- Bytes at consecutive addresses. -/
structure Chunk where
  address : UInt32
  bytes : List UInt8
  deriving DecidableEq, Repr, Inhabited

/-- Puts a cell in front of runs that begin at higher addresses. -/
def extendRuns (cell : UInt32 × UInt8) : List Chunk → List Chunk
  | [] => [⟨cell.1, [cell.2]⟩]
  | run :: later =>
    if cell.1.toNat + 1 = run.address.toNat then ⟨cell.1, cell.2 :: run.bytes⟩ :: later
    else ⟨cell.1, [cell.2]⟩ :: run :: later

/-- Maximal runs of consecutive addresses among cells in the order of their addresses. -/
def runs (cells : List (UInt32 × UInt8)) : List Chunk :=
  cells.foldr extendRuns []

/-- Cuts bytes into pieces of `recordLimit`, the last of which may be shorter. -/
def chunksFrom : Nat → UInt32 → List UInt8 → List Chunk
  | 0, _, _ => []
  | fuel + 1, address, bytes =>
    if bytes.isEmpty then []
    else
      ⟨address, bytes.take recordLimit⟩ ::
        chunksFrom fuel (address + UInt32.ofNat recordLimit) (bytes.drop recordLimit)

def Chunk.split (run : Chunk) : List Chunk :=
  chunksFrom run.bytes.length run.address run.bytes

/-- What the data records of an image hold. -/
def chunks (image : Image) : List Chunk :=
  (runs image.toList).flatMap Chunk.split

/-- The sum of bytes, modulo 256. -/
def byteSum (bytes : List UInt8) : UInt8 :=
  bytes.foldl (· + ·) 0

/-- The text of a record: its bytes and the checksum. -/
def recordText (bytes : List UInt8) : List Char :=
  ':' :: (bytes ++ [-(byteSum bytes)]).flatMap Text.hexByte ++ ['\r', '\n']

/-- The bytes of a data record before its checksum. -/
def Chunk.record (chunk : Chunk) : List UInt8 :=
  let address := chunk.address.toNat
  UInt8.ofNat chunk.bytes.length :: UInt8.ofNat (address / 256) :: UInt8.ofNat address :: 0 ::
    chunk.bytes

/-- The record that ends a file. -/
def endRecord : List UInt8 :=
  [0, 0, 0, 1]

/-- The highest address at which a record can begin. -/
def lastRecordAddress : UInt32 := 0xFFFF

/-- Why text is no image or an image has no text. -/
inductive HexError where
  | addressRange (address : UInt32)
  | noStart (line : String)
  | malformed (line : String)
  | badDigit (line : String)
  | checksum (line : String)
  | length (line : String)
  | recordType (line : String)
  deriving DecidableEq, Repr, Inhabited

def HexError.message : HexError → String
  | addressRange address => "Address " ++ Text.hex address.toNat ++ "H out of 16-bit range"
  | noStart line => "record must start with ':': " ++ line
  | malformed line => "malformed record: " ++ line
  | badDigit line => "invalid hex digit: " ++ line
  | checksum line => "checksum mismatch: " ++ line
  | length line => "length mismatch: " ++ line
  | recordType line => "unsupported record type: " ++ line

/-- The records that can be written before the first whose address is out of range, and that
    address. -/
def writable (image : Image) : List Chunk × Option UInt32 :=
  let (written, rest) := image.chunks.span (·.address ≤ lastRecordAddress)
  (written, rest.head?.map Chunk.address)

/-- The text of data records. -/
def recordsText (chunks : List Chunk) : List Char :=
  chunks.flatMap fun chunk => recordText chunk.record

/-- The text of an image. -/
def writeHex (image : Image) : Except HexError String :=
  match image.writable with
  | (chunks, none) => .ok (String.ofList (recordsText chunks ++ recordText endRecord))
  | (_, some address) => .error (.addressRange address)

/-- The text that is written before a record out of range, or all of it. -/
def writtenHex (image : Image) : String :=
  match image.writable with
  | (chunks, none) => String.ofList (recordsText chunks ++ recordText endRecord)
  | (chunks, some _) => String.ofList (recordsText chunks)

/-! ## Reading -/

/-- The bytes that pairs of digits denote. -/
def pairs (shown : String) : List Char → Except HexError (List UInt8)
  | [] => .ok []
  | [_] => .error (.malformed shown)
  | high :: low :: rest =>
    match Number.unsigned? 16 256 [high, low] with
    | some n => do return UInt8.ofNat n :: (← pairs shown rest)
    | none => .error (.badDigit shown)

/-- The bytes of a record, the checksum included. -/
def recordBytes (line : List Char) : Except HexError (List UInt8) :=
  let shown := String.ofList line
  match line with
  | ':' :: digits =>
    let size := digits.foldr (fun c size => c.utf8Size + size) 0
    if size % 2 ≠ 0 || size < 10 || !digits.all (·.toNat < 128) then .error (.malformed shown)
    else pairs shown digits
  | _ => .error (.noStart shown)

/-- Reads records into an image. -/
def readRecords (image : Image) : List (List Char) → Except HexError Image
  | [] => .ok image
  | line :: rest => do
    if line.isEmpty then readRecords image rest
    else
      let shown := String.ofList line
      let bytes ← recordBytes line
      if byteSum bytes ≠ 0 then throw (.checksum shown)
      match bytes with
      | length :: high :: low :: type :: body =>
        if body.length ≠ length.toNat + 1 then throw (.length shown)
        let address := UInt32.ofNat (high.toNat * 256 + low.toNat)
        if type = 0 then readRecords (image.storeBytes address body.dropLast) rest
        else if type = 1 then return image
        else throw (.recordType shown)
      | _ => throw (.malformed shown)

/-- The image that a text holds. Blanks around a record and empty lines do not count. -/
def readHex (text : String) : Except HexError Image :=
  readRecords empty ((Text.linesFrom [] text.toList).map Text.trim)

end Z80Asm.Image
