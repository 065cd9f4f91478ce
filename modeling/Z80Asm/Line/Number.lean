import Z80Asm.Error.Cause

/-!
# Number literals

A number is written in decimal, with a mark in front (`0x`, `#`, `%`) or with a letter behind
(`H`, `O`, `Q`, `B`). It is an unsigned 64-bit number and denotes the signed word with the same
bits. Letters may have either case.
-/
set_option autoImplicit false

namespace Z80Asm.Number

/-- The value of a digit or letter, if it is a digit in this radix. -/
def digitValue? (radix : Nat) (c : Char) : Option Nat :=
  let value? : Option Nat :=
    if c.isDigit then some (c.toNat - '0'.toNat)
    else if 'a' ≤ c && c ≤ 'z' then some (c.toNat - 'a'.toNat + 10)
    else if 'A' ≤ c && c ≤ 'Z' then some (c.toNat - 'A'.toNat + 10)
    else none
  value?.filter (· < radix)

/-- The number that digits denote after others that denote `n`. -/
def ofDigitsFrom? (radix n : Nat) : List Char → Option Nat
  | [] => some n
  | c :: rest => (digitValue? radix c).bind fun d => ofDigitsFrom? radix (n * radix + d) rest

/-- The unsigned number below `bound` that digits denote. One plus sign may stand in front. -/
def unsigned? (radix bound : Nat) (cs : List Char) : Option Nat :=
  let digits :=
    match cs with
    | '+' :: rest => rest
    | _ => cs
  if digits.isEmpty then none else (ofDigitsFrom? radix 0 digits).filter (· < bound)

/-- The value of digits in a radix. A failure shows `shown`. -/
def ofRadix (radix : Nat) (digits : List Char) (shown : String) : Except Cause Int64 :=
  match unsigned? radix UInt64.size digits with
  | some n => .ok (Int64.ofNat n)
  | none => .error (.invalidNumber shown)

/-- Reads a literal whose radix is told by its last character. -/
def ofSuffixed (cs : List Char) (shown : String) : Except Cause Int64 :=
  let front := cs.dropLast
  match cs.getLast? with
  | some 'h' => ofRadix 16 front shown
  | some 'o' | some 'q' => ofRadix 8 front shown
  | some 'b' =>
    if !front.isEmpty && front.all (fun c => c == '0' || c == '1') then ofRadix 2 front shown
    else ofRadix 10 cs shown
  | _ => ofRadix 10 cs shown

/-- Reads a number literal. A mark in front wins over a letter behind. -/
def parse (text : String) : Except Cause Int64 :=
  match (Text.lower text).toList with
  | '0' :: 'x' :: rest => ofRadix 16 rest text
  | '#' :: rest => ofRadix 16 rest text
  | '%' :: rest => ofRadix 2 rest text
  | cs => ofSuffixed cs text

end Z80Asm.Number
