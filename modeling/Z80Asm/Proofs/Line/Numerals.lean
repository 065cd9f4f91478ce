import Z80Asm.Proofs.Text.Digits

/-!
# Numerals

A number can be written in eight styles: in decimal, with a mark in front of its digits or with a
letter behind them. The rules for marks and letters overlap, since `b` is a digit as well as a
letter behind binary digits and `0` is a digit as well as half of a mark. They are tried in a fixed
order, and `Style.parse_eq_ofRadix` says that this order mistakes no style for another: whatever the
digits are, they are read in the radix of the style.

So every numeral denotes the number that it was written for, with any zeros in front of it and with
letters of either case, as long as the number has at most 64 bits.
-/
set_option autoImplicit false

namespace Z80Asm.Number

/-! ## Digits -/

theorem digitValue?_lower {radix d : Nat} (hradix : radix ≤ 16) (h : d < radix) :
    digitValue? radix d.digitChar = some d := by
  have hall : ∀ radix ∈ List.range 17, ∀ d ∈ List.range radix,
      digitValue? radix (Nat.digitChar d) = some d := by decide
  exact hall radix (List.mem_range.mpr (by omega)) d (List.mem_range.mpr h)

/-- A number in some radix with zeros in front of its digits. -/
def zeroPadded (radix zeros n : Nat) : List Char :=
  List.replicate zeros '0' ++ Nat.toDigits radix n

theorem zeroPadded_ne_nil (radix zeros n : Nat) : zeroPadded radix zeros n ≠ [] := by
  simp [zeroPadded, Nat.toDigits_ne_nil]

theorem exists_of_mem_zeroPadded {radix zeros n : Nat} (hradix : 1 < radix) {c : Char}
    (h : c ∈ zeroPadded radix zeros n) : ∃ d < radix, c = Nat.digitChar d := by
  rcases List.mem_append.mp h with hzero | hdigit
  · exact ⟨0, by omega, (List.mem_replicate.mp hzero).2⟩
  · exact exists_of_mem_toDigits hradix hdigit

theorem ofDigitsFrom?_zeroPadded {radix : Nat} (hlow : 1 < radix) (hhigh : radix ≤ 16)
    (zeros n : Nat) : ofDigitsFrom? radix 0 (zeroPadded radix zeros n) = some n := by
  have hread := ofDigitsFrom?_map_toDigits (f := id) hlow
    (fun d hd => digitValue?_lower hhigh hd) n
  rw [List.map_id] at hread
  rw [zeroPadded, ofDigitsFrom?_zeros radix zeros (by omega), hread]

/-- Digits carry no sign, so they are read as they stand. -/
theorem unsigned?_zeroPadded {radix : Nat} (hlow : 1 < radix) (hhigh : radix ≤ 16)
    (bound zeros n : Nat) :
    unsigned? radix bound (zeroPadded radix zeros n) = if n < bound then some n else none := by
  have hplus : ∀ rest, zeroPadded radix zeros n ≠ '+' :: rest := by
    intro rest heq
    obtain ⟨d, hd, hdigit⟩ := exists_of_mem_zeroPadded hlow (heq ▸ List.mem_cons_self)
    have hnone : ∀ d ∈ List.range 16, '+' ≠ Nat.digitChar d := by decide
    exact hnone d (List.mem_range.mpr (by omega)) hdigit
  unfold unsigned?
  split
  next rest heq => exact absurd heq (hplus rest)
  next =>
    dsimp only
    rw [ofDigitsFrom?_zeroPadded hlow hhigh]
    simp [zeroPadded_ne_nil, Option.filter_some]

/-- What does not fit into 64 bits is refused. -/
theorem ofRadix_zeroPadded {radix : Nat} (hlow : 1 < radix) (hhigh : radix ≤ 16) (zeros n : Nat)
    (shown : String) :
    ofRadix radix (zeroPadded radix zeros n) shown =
      if n < UInt64.size then .ok (Int64.ofNat n) else .error (.invalidNumber shown) := by
  rw [ofRadix, unsigned?_zeroPadded hlow hhigh]
  by_cases h : n < UInt64.size
  · rw [if_pos h, if_pos h]
  · rw [if_neg h, if_neg h]

/-! ## Styles -/

/-- The ways to write a number. -/
inductive Style where
  | plain
  | zeroX | hash | percent
  | letterH | letterO | letterQ | letterB
  deriving DecidableEq, Repr, Inhabited

namespace Style

def radix : Style → Nat
  | plain => 10
  | zeroX | hash | letterH => 16
  | letterO | letterQ => 8
  | percent | letterB => 2

/-- The mark in front of the digits. -/
def front : Style → List Char
  | zeroX => ['0', 'x']
  | hash => ['#']
  | percent => ['%']
  | _ => []

/-- The letter behind the digits. -/
def behind : Style → List Char
  | letterH => ['h']
  | letterO => ['o']
  | letterQ => ['q']
  | letterB => ['b']
  | _ => []

/-- A number with zeros in front of its digits, in lower case. -/
def spelled (style : Style) (zeros n : Nat) : List Char :=
  style.front ++ zeroPadded style.radix zeros n ++ style.behind

theorem radix_bounds (style : Style) : 1 < style.radix ∧ style.radix ≤ 16 := by
  cases style <;> decide

end Style

theorem toList_lower (text : String) : (Text.lower text).toList = text.toList.map Char.toLower :=
  String.toList_ofList

/-- Without a mark in front the letter behind tells the radix. -/
theorem parse_eq_ofSuffixed {text : String} {cs : List Char}
    (htext : text.toList.map Char.toLower = cs)
    (hmarks : ∀ c ∈ cs, c ≠ 'x' ∧ c ≠ '#' ∧ c ≠ '%') : parse text = ofSuffixed cs text := by
  unfold parse
  rw [toList_lower, htext]
  split
  next rest => exact absurd rfl (hmarks 'x' (by simp)).1
  next rest => exact absurd rfl (hmarks '#' (by simp)).2.1
  next rest => exact absurd rfl (hmarks '%' (by simp)).2.2
  next => rfl

/-- Behind decimal digits there is no letter. -/
theorem ofSuffixed_decimal {cs : List Char} (h : ∀ c ∈ cs, c.isDigit = true) (shown : String) :
    ofSuffixed cs shown = ofRadix 10 cs shown := by
  have hlast {c : Char} (hc : c.isDigit = false) : cs.getLast? ≠ some c := by
    intro heq
    rw [h c (List.mem_of_getLast? heq)] at hc
    cases hc
  unfold ofSuffixed
  dsimp only
  split
  next heq => exact absurd heq (hlast rfl)
  next heq => exact absurd heq (hlast rfl)
  next heq => exact absurd heq (hlast rfl)
  next heq => exact absurd heq (hlast rfl)
  next => rfl

/-- Digits in front of `b` are binary if they can be. -/
theorem ofSuffixed_binary {digits : List Char} (hne : digits ≠ [])
    (h : ∀ c ∈ digits, (c == '0' || c == '1') = true) (shown : String) :
    ofSuffixed (digits ++ ['b']) shown = ofRadix 2 digits shown := by
  have hbinary : (!digits.isEmpty && digits.all (fun c => c == '0' || c == '1')) = true := by
    rw [List.all_eq_true.mpr h]
    simp [hne]
  rw [ofSuffixed, List.getLast?_concat, List.dropLast_concat]
  exact if_pos hbinary

/-- No style is mistaken for another: the digits, whatever they are, are read in the radix of the
    style. -/
theorem Style.parse_eq_ofRadix (style : Style) {digits : List Char} {text : String}
    (hne : digits ≠ []) (hdigits : ∀ c ∈ digits, ∃ d < style.radix, c = Nat.digitChar d)
    (htext : text.toList.map Char.toLower = style.front ++ digits ++ style.behind) :
    parse text = ofRadix style.radix digits text := by
  have hdigit {p : Char → Prop} (h : ∀ d ∈ List.range style.radix, p (Nat.digitChar d)) :
      ∀ c ∈ digits, p c := by
    intro c hc
    obtain ⟨d, hd, rfl⟩ := hdigits c hc
    exact h d (List.mem_range.mpr hd)
  -- No digit is a mark, and no letter behind is one.
  have hmarks : ∀ c ∈ digits ++ style.behind, c ≠ 'x' ∧ c ≠ '#' ∧ c ≠ '%' := by
    refine List.forall_mem_append.mpr ⟨hdigit ?_, ?_⟩
    · cases style <;> decide
    · cases style <;> simp [Style.behind]
  cases style with
  | zeroX | hash | percent =>
    rw [show Style.behind _ = [] from rfl, List.append_nil] at htext
    unfold parse
    rw [toList_lower, htext]
    rfl
  | plain =>
    rw [show Style.behind _ = [] from rfl, List.append_nil] at htext hmarks
    rw [parse_eq_ofSuffixed htext hmarks]
    exact ofSuffixed_decimal (hdigit (by decide)) text
  | letterH | letterO | letterQ =>
    rw [parse_eq_ofSuffixed htext hmarks]
    show ofSuffixed (digits ++ [_]) text = _
    rw [ofSuffixed, List.getLast?_concat, List.dropLast_concat]
    rfl
  | letterB =>
    rw [parse_eq_ofSuffixed htext hmarks]
    exact ofSuffixed_binary hne (hdigit (by decide)) text

/-! ## Numerals -/

/-- A numeral is read as its number if that has at most 64 bits. -/
theorem parse_numeral (style : Style) (zeros n : Nat) {text : String}
    (htext : text.toList.map Char.toLower = style.spelled zeros n) :
    parse text =
      if n < UInt64.size then .ok (Int64.ofNat n) else .error (.invalidNumber text) := by
  obtain ⟨hlow, hhigh⟩ := style.radix_bounds
  rw [style.parse_eq_ofRadix (zeroPadded_ne_nil _ zeros n)
    (fun c hc => exists_of_mem_zeroPadded hlow hc) htext, ofRadix_zeroPadded hlow hhigh]

/-- **Numerals read back.** In every style, with any number of zeros in front and with letters of
    either case, a number below 2^64 is read as the signed word with the same bits, and a larger one
    is a syntax error. -/
theorem parse_reads_back (style : Style) (zeros n : Nat) {text : String}
    (htext : text.toList.map Char.toLower = style.spelled zeros n) :
    (n < UInt64.size → parse text = .ok (UInt64.ofNat n).toInt64) ∧
    (UInt64.size ≤ n → ∃ cause, parse text = .error cause ∧ cause.kind = .syntactic) := by
  rw [parse_numeral style zeros n htext]
  constructor
  · intro h
    rw [if_pos h]
    rfl
  · intro h
    rw [if_neg (Nat.not_lt.mpr h)]
    exact ⟨_, rfl, rfl⟩

/-- A number that ends in the letter of another style and has all 64 bits, in mixed case; and the
    first number that is too large, in octal. -/
theorem parse_reads_back_limits :
    parse "00fFFFffFFffFFfF0bH" = .ok (-245) ∧
    ∃ cause, parse "02000000000000000000000Q" = .error cause ∧ cause.kind = .syntactic := by
  have hbits : (UInt64.ofNat 0xFFFFFFFFFFFFFF0B).toInt64 = -245 := by decide
  have hhigh : parse "00fFFFffFFffFFfF0bH" = .ok (UInt64.ofNat 0xFFFFFFFFFFFFFF0B).toInt64 :=
    (parse_reads_back .letterH 2 0xFFFFFFFFFFFFFF0B (by decide)).1 (by decide)
  rw [hbits] at hhigh
  exact ⟨hhigh, (parse_reads_back .letterQ 1 0x10000000000000000 (by decide)).2 (by decide)⟩

end Z80Asm.Number
