/-!
# Text

Character classes of source text, its division into physical lines, and the spellings that
several modules share: single-byte text, directive keys and hexadecimal literals.

Everything works on lists of characters, so that a statement about text is a statement about
lists. A class that a rule restricts to ASCII says so; `isBlank` is the one Unicode class.
-/
set_option autoImplicit false

namespace Z80Asm.Text

/-! ## Character classes -/

/-- The characters a name may begin with: ASCII letters and `_ . ? @`. -/
def isIdentStart (c : Char) : Bool :=
  c.isAlpha || c == '_' || c == '.' || c == '?' || c == '@'

/-- The characters a name may go on with: those it may begin with, ASCII digits and `$`. -/
def isIdentChar (c : Char) : Bool :=
  isIdentStart c || c.isDigit || c == '$'

/-- The blanks inside a line. -/
def isSpace (c : Char) : Bool :=
  c == ' ' || c == '\t'

/-- ASCII hexadecimal digits of either case. -/
def isHexDigit (c : Char) : Bool :=
  c.isDigit || ('a' ≤ c && c ≤ 'f') || ('A' ≤ c && c ≤ 'F')

/-- The code points with the Unicode property `White_Space`. -/
def isBlank (c : Char) : Bool :=
  let n := c.toNat
  (9 ≤ n && n ≤ 13) || n == 0x20 || n == 0x85 || n == 0xA0 || n == 0x1680 ||
    (0x2000 ≤ n && n ≤ 0x200A) || n == 0x2028 || n == 0x2029 || n == 0x202F || n == 0x205F ||
    n == 0x3000

/-- The text without the blanks at its end. -/
def trimEnd (cs : List Char) : List Char :=
  (cs.reverse.dropWhile isBlank).reverse

/-- The text without the blanks at either end. -/
def trim (cs : List Char) : List Char :=
  trimEnd (cs.dropWhile isBlank)

/-! ## Case -/

/-- ASCII letters in lower case, all else unchanged. -/
def lower (s : String) : String :=
  String.ofList (s.toList.map Char.toLower)

/-- ASCII letters in upper case, all else unchanged. -/
def upper (s : String) : String :=
  String.ofList (s.toList.map Char.toUpper)

/-- The form under which a mnemonic is compared with the directives: one leading dot is dropped
    and letters are in lower case. -/
def directiveKey (mnemonic : String) : String :=
  match mnemonic.toList with
  | '.' :: rest => lower (String.ofList rest)
  | _ => lower mnemonic

/-! ## Physical lines -/

/-- Drops one carriage return from a line that is held back to front. -/
def dropReturn : List Char → List Char
  | '\r' :: rest => rest
  | line => line

/-- Lines of a text whose current line so far is `line`, back to front. -/
def linesFrom (line : List Char) : List Char → List (List Char)
  | [] => if line.isEmpty then [] else [line.reverse]
  | c :: rest =>
    if c == '\n' then (dropReturn line).reverse :: linesFrom [] rest
    else linesFrom (c :: line) rest

/-- The physical lines of a text. A line feed ends a line and takes one carriage return before
    it along; what follows the last line feed is a line only if it is not empty. -/
def lines (text : String) : List String :=
  (linesFrom [] text.toList).map String.ofList

/-! ## Bytes -/

/-- Text whose characters are the code points of the bytes. -/
def ofBytes (bytes : List UInt8) : String :=
  String.ofList (bytes.map Char.ofUInt8)

/-- The hexadecimal digits of `n` in upper case, at least `width` of them. -/
def hexDigits (width n : Nat) : List Char :=
  let digits := (Nat.toDigits 16 n).map Char.toUpper
  List.replicate (width - digits.length) '0' ++ digits

/-- Hexadecimal digits of `n` in upper case. -/
def hex (n : Nat) : String :=
  String.ofList (hexDigits 1 n)

/-- The two hexadecimal digits of a byte. -/
def hexByte (b : UInt8) : List Char :=
  hexDigits 2 b.toNat

/-- A value as a literal that source text can hold: at least four hexadecimal digits and `H`,
    with a zero in front of a leading letter so that it is not read as a name. -/
def hexLiteral (v : Int64) : String :=
  let digits := hexDigits 4 v.toInt.natAbs
  let digits := if digits.head?.any Char.isAlpha then '0' :: digits else digits
  String.ofList ((if v < 0 then ['-'] else []) ++ digits ++ ['H'])

end Z80Asm.Text
