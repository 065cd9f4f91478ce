import Z80Asm.Error.Report

/-!
# Marking a column

A column counts characters where it is produced and bytes where it is marked. `splitAtByte` finds a
character if as many bytes are in front of it as the column says (`splitAtByte_eq_some`), and the
two counts agree as long as all characters in front take one byte. Behind a character that takes
more, the mark is on an earlier character or there is none (`highlight_marks_column`).

The theorem is about what is marked, given the column. Whether the column is that of the right
character is a matter of the line reader, which counts characters.
-/
set_option autoImplicit false

namespace Z80Asm

/-! ## Bytes and characters -/

theorem byteLength_cons (c : Char) (cs : List Char) :
    byteLength (c :: cs) = c.utf8Size + byteLength cs := rfl

theorem byteLength_append (front back : List Char) :
    byteLength (front ++ back) = byteLength front + byteLength back := by
  induction front with
  | nil => simp [byteLength]
  | cons c front ih =>
    rw [List.cons_append, byteLength_cons, byteLength_cons, ih, Nat.add_assoc]

theorem length_le_byteLength (cs : List Char) : cs.length ≤ byteLength cs := by
  induction cs with
  | nil => exact Nat.le_refl _
  | cons c cs ih =>
    have hpos := c.utf8Size_pos
    rw [List.length_cons, byteLength_cons]
    omega

theorem utf8Size_eq_one {c : Char} : c.utf8Size = 1 ↔ c.toNat < 128 := by
  rw [Char.utf8Size_eq_one_iff, UInt32.le_iff_toNat_le]
  exact Nat.lt_succ_iff.symm

/-- Characters and bytes are the same number exactly if every character takes one byte. -/
theorem byteLength_eq_length {cs : List Char} :
    byteLength cs = cs.length ↔ ∀ c ∈ cs, c.toNat < 128 := by
  induction cs with
  | nil => exact iff_of_true rfl (List.forall_mem_nil _)
  | cons c cs ih =>
    have hpos := c.utf8Size_pos
    have hle := length_le_byteLength cs
    rw [List.forall_mem_cons, ← ih, ← utf8Size_eq_one, byteLength_cons, List.length_cons]
    omega

theorem eq_append_of_splitAtByte {size : Nat} {cs front back : List Char}
    (h : splitAtByte size cs = some (front, back)) : cs = front ++ back ∧ byteLength front = size := by
  fun_induction splitAtByte generalizing front with
  | case1 cs =>
    cases h
    exact ⟨rfl, rfl⟩
  | case2 => cases h
  | case3 size c rest hfits ih =>
    obtain ⟨⟨front', back'⟩, hrest, heq⟩ := Option.map_eq_some_iff.mp h
    cases heq
    obtain ⟨hcs, hsize⟩ := ih hrest
    refine ⟨congrArg (c :: ·) hcs, ?_⟩
    rw [byteLength_cons, hsize]
    omega
  | case4 => cases h

theorem splitAtByte_byteLength (front back : List Char) :
    splitAtByte (byteLength front) (front ++ back) = some (front, back) := by
  induction front with
  | nil =>
    show splitAtByte 0 back = _
    rw [splitAtByte]
  | cons c front ih =>
    obtain ⟨size, hsize⟩ : ∃ size, byteLength (c :: front) = size + 1 := by
      have hpos := c.utf8Size_pos
      exact Nat.exists_eq_add_one.mpr (by rw [byteLength_cons]; omega)
    have hrest : size + 1 - c.utf8Size = byteLength front := by
      rw [← hsize, byteLength_cons, Nat.add_sub_cancel_left]
    have hfits : c.utf8Size ≤ size + 1 := by
      rw [← hsize, byteLength_cons]
      omega
    rw [hsize, List.cons_append, splitAtByte, if_pos hfits, hrest, ih]
    rfl

/-- A text is split where a character ends behind that many bytes. -/
theorem splitAtByte_eq_some {size : Nat} {cs front back : List Char} :
    splitAtByte size cs = some (front, back) ↔ cs = front ++ back ∧ byteLength front = size := by
  constructor
  · exact eq_append_of_splitAtByte
  · rintro ⟨rfl, rfl⟩
    exact splitAtByte_byteLength front back

/-! ## The mark -/

section

variable {line : String} (hends : ∀ c ∈ line.toList, c ≠ '\r' ∧ c ≠ '\n') (color : Bool)

include hends

/-- Without line ends the line is marked as it stands. -/
theorem dropWhile_ends :
    (line.toList.reverse.dropWhile fun c => c == '\r' || c == '\n').reverse = line.toList := by
  have hkept : (line.toList.reverse.dropWhile fun c => c == '\r' || c == '\n') =
      line.toList.reverse := by
    cases hreverse : line.toList.reverse with
    | nil => rfl
    | cons c rest =>
      have hmem : c ∈ line.toList := by
        rw [← List.mem_reverse, hreverse]
        exact List.mem_cons_self
      refine List.dropWhile_cons_of_neg ?_
      simpa using hends c hmem
  rw [hkept, List.reverse_reverse]

/-- A column marks the character that has as many bytes in front of it, less one. -/
theorem highlight_of_byteLength {front back : List Char} {marked : Char} {column : Nat}
    (hline : line.toList = front ++ marked :: back) (hcolumn : byteLength front = column - 1) :
    highlight line (some column) color = String.ofList (front ++ mark color [marked] ++ back) := by
  have hinside : min (column - 1) (byteLength line.toList) = byteLength front := by
    rw [hline, byteLength_append, hcolumn]
    omega
  unfold highlight
  dsimp only
  rw [dropWhile_ends hends, hinside, hline, splitAtByte_byteLength]

/-- A column inside a character marks nothing. -/
theorem highlight_of_inside {column : Nat} (hcolumn : column - 1 ≤ byteLength line.toList)
    (hinside : ∀ front back, line.toList = front ++ back → byteLength front ≠ column - 1) :
    highlight line (some column) color = line := by
  have hnone : splitAtByte (column - 1) line.toList = none := by
    rw [Option.eq_none_iff_forall_ne_some]
    rintro ⟨front, back⟩ hsplit
    obtain ⟨happend, hsize⟩ := splitAtByte_eq_some.mp hsplit
    exact hinside front back happend hsize
  unfold highlight
  dsimp only
  rw [dropWhile_ends hends, Nat.min_eq_left hcolumn, hnone]
  exact String.ofList_toList

end

/-- **Columns count characters and marks count bytes.** The column of a character, counted in
    characters, marks that character if all in front of it take one byte. Otherwise the mark is on
    an earlier character, with as many bytes in front of it as there are characters in front of the
    right one, or there is none because no character begins there. -/
theorem highlight_marks_column {line : String} {front back : List Char} {marked : Char}
    (hline : line.toList = front ++ marked :: back)
    (hends : ∀ c ∈ line.toList, c ≠ '\r' ∧ c ≠ '\n') :
    ((∀ c ∈ front, c.toNat < 128) →
      highlight line (some (front.length + 1)) false =
        String.ofList (front ++ '[' :: marked :: ']' :: back)) ∧
    ((∃ c ∈ front, 128 ≤ c.toNat) →
      (∃ front' other back', line.toList = front' ++ other :: back' ∧ front'.length < front.length ∧
        byteLength front' = front.length ∧
        highlight line (some (front.length + 1)) false =
          String.ofList (front' ++ '[' :: other :: ']' :: back')) ∨
      (∀ front' back', line.toList = front' ++ back' → byteLength front' ≠ front.length) ∧
        highlight line (some (front.length + 1)) false = line) := by
  constructor
  · intro hascii
    rw [highlight_of_byteLength hends false hline (byteLength_eq_length.mpr hascii)]
    simp [mark]
  · rintro ⟨c, hc, hwide⟩
    -- The characters in front take more bytes than there are characters.
    have hmore : front.length < byteLength front := by
      refine Nat.lt_of_le_of_ne (length_le_byteLength front) fun heq => ?_
      exact absurd (byteLength_eq_length.mp heq.symm c hc) (Nat.not_lt.mpr hwide)
    have hwithin : front.length < byteLength line.toList := by
      rw [hline, byteLength_append]
      omega
    cases hsplit : splitAtByte front.length line.toList with
    | none =>
      have hinside : ∀ front' back', line.toList = front' ++ back' →
          byteLength front' ≠ front.length := by
        intro front' back' happend hsize
        rw [splitAtByte_eq_some.mpr ⟨happend, hsize⟩] at hsplit
        cases hsplit
      exact .inr ⟨hinside, highlight_of_inside hends false (Nat.le_of_lt hwithin) hinside⟩
    | some parts =>
      obtain ⟨front', behind⟩ := parts
      obtain ⟨happend, hsize⟩ := splitAtByte_eq_some.mp hsplit
      cases behind with
      | nil =>
        rw [happend, List.append_nil, hsize] at hwithin
        exact absurd hwithin (Nat.lt_irrefl _)
      | cons other back' =>
        refine .inl ⟨front', other, back', happend, ?_, hsize, ?_⟩
        · have hle : front'.length ≤ front.length := hsize ▸ length_le_byteLength front'
          refine Nat.lt_of_le_of_ne hle fun hlength => ?_
          have hsame : front' = front :=
            (List.append_inj (happend.symm.trans hline) hlength).1
          rw [hsame] at hsize
          exact Nat.ne_of_gt hmore hsize
        · rw [highlight_of_byteLength hends false happend hsize]
          simp [mark]

/-- In the statement ` db "é",=` the equals sign is the ninth character, and the comma in front of it is
    marked. -/
theorem highlight_marks_column_comma :
    (∃ front' other back', " db \"é\",=".toList = front' ++ other :: back' ∧ front'.length < 8 ∧
      byteLength front' = 8 ∧
      highlight " db \"é\",=" (some 9) false = String.ofList (front' ++ '[' :: other :: ']' :: back')) ∧
    highlight " db \"é\",=" (some 9) false = " db \"é\"[,]=" := by
  have hmarked : highlight " db \"é\",=" (some 9) false = " db \"é\"[,]=" := by decide +kernel
  have hline : " db \"é\",=".toList = " db \"é\",".toList ++ '=' :: [] := by decide +kernel
  have hall : (" db \"é\",=".toList.all fun c => c != '\r' && c != '\n') = true := by decide +kernel
  have hends : ∀ c ∈ " db \"é\",=".toList, c ≠ '\r' ∧ c ≠ '\n' := by
    intro c hc
    have hc' := List.all_eq_true.mp hall c hc
    rwa [Bool.and_eq_true, bne_iff_ne, bne_iff_ne] at hc'
  have hmarks := (highlight_marks_column hline hends).2 ⟨'é', by decide +kernel, by decide⟩
  refine ⟨hmarks.resolve_right fun hnone => ?_, hmarked⟩
  exact absurd (hmarked.symm.trans hnone.2) (by decide +kernel)

end Z80Asm
