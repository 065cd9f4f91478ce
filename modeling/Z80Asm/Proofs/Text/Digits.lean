import Z80Asm.Line.Number

/-!
# Digits read back

`Number.ofDigitsFrom?` reads the digits of a number in any radix, as long as each digit is spelled so
that it keeps its value (`ofDigitsFrom?_map_toDigits`). `Text.hexDigits` writes a number in upper case
and pads it with zeros; the two meet in `ofDigitsFrom?_hexDigits`, whatever the width.

A digit that is written is one of sixteen characters (`exists_of_mem_hexDigits`), so what holds of
all of them holds of every character of the text. Digits are also read with letters in lower case:
`IsHexText` are characters that are written digits in upper case.

Signs, marks and limits are not treated here; they belong to the numerals of a line.
-/
set_option autoImplicit false

namespace Z80Asm

namespace Number

theorem ofDigitsFrom?_append (radix n : Nat) (cs ds : List Char) :
    ofDigitsFrom? radix n (cs ++ ds) =
      (ofDigitsFrom? radix n cs).bind fun m => ofDigitsFrom? radix m ds := by
  induction cs generalizing n with
  | nil => rfl
  | cons c rest ih =>
    simp only [List.cons_append, ofDigitsFrom?, ih]
    cases digitValue? radix c with
    | none => rfl
    | some d => rfl

theorem ofDigitsFrom?_zeros (radix k : Nat) (hradix : 0 < radix) (cs : List Char) :
    ofDigitsFrom? radix 0 (List.replicate k '0' ++ cs) = ofDigitsFrom? radix 0 cs := by
  have hzero : digitValue? radix '0' = some 0 := by simp [digitValue?, Char.isDigit, hradix]
  induction k with
  | zero => rfl
  | succ k ih =>
    rw [List.replicate_succ, List.cons_append, ofDigitsFrom?, hzero]
    simpa using ih

/-- The sixteen digits that are written have the values they are written for. -/
theorem digitValue?_digitChar {d : Nat} (h : d < 16) :
    digitValue? 16 d.digitChar.toUpper = some d := by
  have hall : ∀ d ∈ List.range 16, digitValue? 16 (Nat.digitChar d).toUpper = some d := by decide
  exact hall d (List.mem_range.mpr h)

/-- **Digits, spelled in any way that keeps their values, denote the number that they were written
    for.** -/
theorem ofDigitsFrom?_map_toDigits {radix : Nat} {f : Char → Char} (hradix : 1 < radix)
    (h : ∀ d < radix, digitValue? radix (f d.digitChar) = some d) (n : Nat) :
    ofDigitsFrom? radix 0 ((Nat.toDigits radix n).map f) = some n := by
  induction n using Nat.strongRecOn with
  | ind n ih =>
    rw [Nat.toDigits_eq_if hradix]
    by_cases hlt : n < radix
    · simp [hlt, ofDigitsFrom?, h]
    · -- The digits in front denote `n / radix`, and one more digit follows.
      have hd : n % radix < radix := Nat.mod_lt _ (by omega)
      have hsmaller : n / radix < n := Nat.div_lt_self (by omega) hradix
      rw [if_neg hlt, List.map_append, ofDigitsFrom?_append, ih (n / radix) hsmaller]
      simp only [List.map_cons, List.map_nil, Option.bind_some, ofDigitsFrom?, h (n % radix) hd]
      rw [Nat.div_add_mod']

theorem ofDigitsFrom?_toDigits (n : Nat) :
    ofDigitsFrom? 16 0 ((Nat.toDigits 16 n).map Char.toUpper) = some n :=
  ofDigitsFrom?_map_toDigits (by omega) (fun _ hd => digitValue?_digitChar hd) n

/-- Every digit that is written is one of the digits of the radix. -/
theorem exists_of_mem_toDigits {radix n : Nat} {c : Char} (hradix : 1 < radix)
    (h : c ∈ Nat.toDigits radix n) : ∃ d < radix, c = Nat.digitChar d := by
  induction n using Nat.strongRecOn with
  | ind n ih =>
    rw [Nat.toDigits_eq_if hradix] at h
    split at h
    next hlt =>
      rw [List.mem_singleton.mp h]
      exact ⟨n, hlt, rfl⟩
    next hle =>
      rcases List.mem_append.mp h with hfront | hlast
      · exact ih (n / radix) (Nat.div_lt_self (by omega) hradix) hfront
      · rw [List.mem_singleton.mp hlast]
        exact ⟨n % radix, Nat.mod_lt _ (by omega), rfl⟩

end Number

namespace Text

theorem hexDigits_ne_nil (width n : Nat) : hexDigits width n ≠ [] := by
  simp [hexDigits]

/-- Every character that is written is one of the sixteen digits. -/
theorem exists_of_mem_hexDigits {width n : Nat} {c : Char} (h : c ∈ hexDigits width n) :
    ∃ d < 16, c = (Nat.digitChar d).toUpper := by
  simp only [hexDigits, List.mem_append, List.mem_replicate, List.mem_map] at h
  rcases h with ⟨-, rfl⟩ | ⟨e, he, rfl⟩
  · exact ⟨0, by omega, rfl⟩
  · obtain ⟨d, hd, rfl⟩ := Number.exists_of_mem_toDigits (by omega) he
    exact ⟨d, hd, rfl⟩

/-- What holds of the sixteen digits holds of all that is written. -/
theorem forall_mem_hexDigits {p : Char → Prop}
    (h : ∀ d ∈ List.range 16, p (Nat.digitChar d).toUpper) (width n : Nat) :
    ∀ c ∈ hexDigits width n, p c := by
  intro c hc
  obtain ⟨d, hd, rfl⟩ := exists_of_mem_hexDigits hc
  exact h d (List.mem_range.mpr hd)

/-- A character in upper case is unchanged, or it was a letter in lower case. -/
theorem eq_or_eq_toLower_of_toUpper_eq {c upper : Char} (h : c.toUpper = upper) :
    c = upper ∨ c = upper.toLower := by
  unfold Char.toUpper at h
  split at h
  next hlower =>
    have hge : 97 ≤ c.val.toNat := UInt32.le_iff_toNat_le.mp hlower.1
    have hle : c.val.toNat ≤ 122 := UInt32.le_iff_toNat_le.mp hlower.2
    have hval : upper.val.toNat = c.val.toNat - 32 := by
      rw [← h, UInt32.toNat_add, show ('A'.val - 'a'.val).toNat = 4294967264 from rfl]
      omega
    have hupper : upper.val ≥ 'A'.val ∧ upper.val ≤ 'Z'.val :=
      ⟨UInt32.le_iff_toNat_le.mpr (show 65 ≤ upper.val.toNat by omega),
        UInt32.le_iff_toNat_le.mpr (show upper.val.toNat ≤ 90 by omega)⟩
    have hback : upper.toLower.val = upper.val + ('a'.val - 'A'.val) :=
      congrArg Char.val (dif_pos hupper)
    right
    apply Char.ext
    apply UInt32.toNat_inj.mp
    rw [hback, UInt32.toNat_add, hval, show ('a'.val - 'A'.val).toNat = 32 from rfl]
    omega
  next => exact .inl h

/-- Hexadecimal digits with letters of either case. -/
def IsHexText (cs : List Char) : Prop :=
  ∀ c ∈ cs, ∃ d < 16, c.toUpper = (Nat.digitChar d).toUpper

/-- What holds of the sixteen digits in both cases holds of all digits. -/
theorem IsHexText.forall_mem {cs : List Char} (hcs : IsHexText cs) {p : Char → Prop}
    (h : ∀ d ∈ List.range 16, p (Nat.digitChar d) ∧ p (Nat.digitChar d).toUpper) : ∀ c ∈ cs, p c := by
  intro c hc
  have hback : ∀ d ∈ List.range 16, (Nat.digitChar d).toUpper.toLower = Nat.digitChar d := by decide
  obtain ⟨d, hd, hupper⟩ := hcs c hc
  have hd := List.mem_range.mpr hd
  rcases eq_or_eq_toLower_of_toUpper_eq hupper with rfl | rfl
  · exact (h d hd).2
  · rw [hback d hd]
    exact (h d hd).1

theorem isHexText_of_map_toUpper {cs : List Char} {width n : Nat}
    (h : cs.map Char.toUpper = hexDigits width n) : IsHexText cs := by
  intro c hc
  exact exists_of_mem_hexDigits (h ▸ List.mem_map_of_mem hc)

theorem length_hexByte (b : UInt8) : (hexByte b).length = 2 := by
  have hlt : b.toNat < 16 ^ 2 := b.toNat_lt
  have hle := (Nat.length_toDigits_le_iff (b := 16) (k := 2) (by omega) (by omega)).mpr hlt
  simp only [hexByte, hexDigits, List.length_append, List.length_replicate, List.length_map]
  omega

end Text

namespace Number

theorem ofDigitsFrom?_hexDigits (width n : Nat) :
    ofDigitsFrom? 16 0 (Text.hexDigits width n) = some n := by
  rw [Text.hexDigits, ofDigitsFrom?_zeros 16 _ (by omega), ofDigitsFrom?_toDigits]

theorem ofDigitsFrom?_map_toUpper {cs : List Char} (h : Text.IsHexText cs) (n : Nat) :
    ofDigitsFrom? 16 n (cs.map Char.toUpper) = ofDigitsFrom? 16 n cs := by
  have hvalue : ∀ c ∈ cs, digitValue? 16 c.toUpper = digitValue? 16 c := h.forall_mem (by decide)
  clear h
  induction cs generalizing n with
  | nil => rfl
  | cons c rest ih =>
    obtain ⟨hc, hrest⟩ := List.forall_mem_cons.mp hvalue
    rw [List.map_cons, ofDigitsFrom?, ofDigitsFrom?, hc]
    exact congrArg ((digitValue? 16 c).bind ·) (funext fun d => ih _ hrest)

/-- Digits carry no sign, so they are read as they stand, in either case. -/
theorem unsigned?_of_map_toUpper {cs : List Char} {width n bound : Nat}
    (hcs : cs.map Char.toUpper = Text.hexDigits width n) (h : n < bound) :
    unsigned? 16 bound cs = some n := by
  have hhex := Text.isHexText_of_map_toUpper hcs
  have hplus : ∀ c ∈ cs, c ≠ '+' := hhex.forall_mem (by decide)
  have hne : cs ≠ [] := by
    rintro rfl
    exact Text.hexDigits_ne_nil width n hcs.symm
  unfold unsigned?
  split
  next rest => exact absurd rfl (hplus '+' List.mem_cons_self)
  next =>
    dsimp only
    rw [← ofDigitsFrom?_map_toUpper hhex, hcs, ofDigitsFrom?_hexDigits]
    simp [hne, h]

end Number

end Z80Asm
