import Z80Asm.Proofs.Image.Records

/-!
# Damaged records

A byte of a HEX file that is replaced by another one is noticed. All records in front of it are read
as they were written, and none of them ends the file. The damaged record has as many digits as
before, so its bytes are read, and their sum is checked before any of them means anything: it
differs from the sum that was written by the difference of the two bytes.

Where a byte is in the text is told by the text alone: its digits follow a colon and an even number of
other digits.

Two damaged bytes may add up to the old sum, so nothing is said about more than one; nor about text
that is lost or added, which changes where digits are.
-/
set_option autoImplicit false

namespace Z80Asm.Image

/-! ## Where a byte is -/

/-- A character that is not in the first part of a text is behind that part. -/
theorem exists_append_of_notMem {α : Type} {x : α} {front rest earlier later : List α}
    (h : x ∉ front) (heq : front ++ rest = earlier ++ x :: later) :
    ∃ middle, earlier = front ++ middle ∧ rest = middle ++ x :: later := by
  rcases List.append_eq_append_iff.mp heq with ⟨middle, hearlier, hrest⟩ | ⟨middle, hfront, hlater⟩
  · exact ⟨middle, hearlier, hrest⟩
  · cases middle with
    | nil =>
      rw [List.append_nil] at hfront
      exact ⟨[], by rw [hfront, List.append_nil], hlater.symm⟩
    | cons y middle =>
      cases hlater
      exact absurd (hfront ▸ List.mem_append_right _ List.mem_cons_self) h

theorem colon_notMem (bytes : List UInt8) : ':' ∉ bytes.flatMap Text.hexByte ++ ['\r', '\n'] := by
  have hdigits : ∀ c ∈ bytes.flatMap Text.hexByte, c ≠ ':' :=
    (spellsBytes_flatMap bytes).isHexText.forall_mem (by decide)
  intro hmem
  rcases List.mem_append.mp hmem with hmem | hmem
  · exact hdigits ':' hmem rfl
  · exact absurd hmem (by decide)

/-- Every colon begins a record. -/
theorem exists_record_of_colon {lines : List (List UInt8)} {earlier later : List Char}
    (h : lines.flatMap hexLine = earlier ++ ':' :: later) :
    ∃ before bytes after, lines = before ++ bytes :: after ∧ earlier = before.flatMap hexLine ∧
      later = bytes.flatMap Text.hexByte ++ '\r' :: '\n' :: after.flatMap hexLine := by
  induction lines generalizing earlier with
  | nil =>
    have hlength := congrArg List.length h
    simp at hlength
  | cons bytes rest ih =>
    rw [List.flatMap_cons, hexLine, List.cons_append, List.cons_append] at h
    cases earlier with
    | nil =>
      refine ⟨[], bytes, rest, rfl, rfl, ?_⟩
      rw [← (List.cons.inj h).2, List.append_assoc]
      rfl
    | cons c earlier =>
      obtain ⟨hcolon, htail⟩ := List.cons.inj h
      obtain ⟨middle, hearlier, hrest⟩ := exists_append_of_notMem (colon_notMem bytes) htail
      obtain ⟨before, damaged, after, hlines, hmiddle, hlater⟩ := ih hrest
      refine ⟨bytes :: before, damaged, after, by rw [hlines, List.cons_append], ?_, hlater⟩
      rw [List.flatMap_cons, hexLine, ← hcolon, hearlier, hmiddle]
      rfl

theorem hexByte_inj {byte byte' : UInt8} (h : Text.hexByte byte = Text.hexByte byte') :
    byte = byte' := by
  have hread (b : UInt8) : pairs "" (Text.hexByte b) = .ok [b] := by
    have hspells := spellsBytes_flatMap [b]
    rw [List.flatMap_singleton] at hspells
    exact hspells.pairs_eq ""
  have hboth := (hread byte).symm.trans (h ▸ hread byte')
  cases hboth
  rfl

/-- An even number of digits in a record are the digits of its first bytes. -/
theorem exists_byte_of_digits {bytes : List UInt8} {digits later rest : List Char} {byte : UInt8}
    (hdigits : ∀ c ∈ digits, Text.isHexDigit c = true) (heven : digits.length % 2 = 0)
    (h : bytes.flatMap Text.hexByte ++ '\r' :: rest = digits ++ (Text.hexByte byte ++ later)) :
    ∃ front back, bytes = front ++ byte :: back ∧ digits = front.flatMap Text.hexByte ∧
      later = back.flatMap Text.hexByte ++ '\r' :: rest := by
  induction bytes generalizing digits with
  | nil =>
    -- The end of the line is no digit.
    cases digits with
    | nil =>
      have hplain : ∀ c ∈ Text.hexByte byte, c ≠ '\r' :=
        Text.forall_mem_hexDigits (by decide) 2 byte.toNat
      obtain ⟨high, low, hpair⟩ := List.length_eq_two.mp (Text.length_hexByte byte)
      rw [hpair] at h hplain
      exact absurd (List.cons.inj h).1.symm (hplain high List.mem_cons_self)
    | cons c digits =>
      have hc := hdigits c List.mem_cons_self
      rw [← (List.cons.inj h).1] at hc
      exact absurd hc (by decide)
  | cons first bytes ih =>
    obtain ⟨high, low, hpair⟩ := List.length_eq_two.mp (Text.length_hexByte first)
    rw [List.flatMap_cons, List.append_assoc] at h
    cases digits with
    | nil =>
      have hlength : (Text.hexByte first).length = (Text.hexByte byte).length := by
        rw [Text.length_hexByte, Text.length_hexByte]
      rw [List.nil_append] at h
      obtain ⟨hbyte, hlater⟩ := List.append_inj h hlength
      exact ⟨[], bytes, by rw [hexByte_inj hbyte]; rfl, rfl, hlater.symm⟩
    | cons c digits =>
      cases digits with
      | nil => cases heven
      | cons d digits =>
        rw [hpair] at h
        simp only [List.cons_append, List.cons.injEq, List.nil_append] at h
        obtain ⟨rfl, rfl, htail⟩ := h
        have hlater : ∀ c ∈ digits, Text.isHexDigit c = true := fun c hc =>
          hdigits c (List.mem_cons_of_mem _ (List.mem_cons_of_mem _ hc))
        simp only [List.length_cons] at heven
        obtain ⟨front, back, hbytes, hfront, hback⟩ := ih hlater (by omega) htail
        refine ⟨first :: front, back, by rw [hbytes, List.cons_append], ?_, hback⟩
        rw [List.flatMap_cons, hpair, hfront]
        rfl

/-! ## Reading up to the damage -/

/-- A line whose bytes do not add up to zero is refused. -/
theorem readRecords_of_byteSum {cs : List Char} {bytes : List UInt8} (h : SpellsBytes cs bytes)
    (hlength : 5 ≤ bytes.length) (hsum : byteSum bytes ≠ 0) (image : Image)
    (rest : List (List Char)) :
    readRecords image ((':' :: cs) :: rest) = .error (.checksum (String.ofList (':' :: cs))) := by
  simp only [readRecords, List.isEmpty_cons, h.recordBytes_eq hlength, bind, Except.bind, hsum, ne_eq,
    not_false_eq_true, if_true, Bool.false_eq_true, if_false]
  rfl

/-- Behind pieces that are read, such a line is noticed. -/
theorem readHex_of_byteSum {chunks : List Chunk}
    (haddress : ∀ chunk ∈ chunks, chunk.address ≤ lastRecordAddress)
    (hlimit : ∀ chunk ∈ chunks, chunk.bytes.length ≤ recordLimit) {cs : List Char}
    {bytes : List UInt8} (h : SpellsBytes cs bytes) (hlength : 5 ≤ bytes.length)
    (hsum : byteSum bytes ≠ 0) (rest : List Char) :
    readHex (String.ofList (recordsText chunks ++ (':' :: cs ++ '\r' :: '\n' :: rest))) =
      .error (.checksum (String.ofList (':' :: cs))) := by
  rw [readHex, String.toList_ofList, linesFrom_recordsText, h.linesFrom_line, List.map_append,
    map_trim_recordLine, List.map_cons, h.trim_line, readRecords_chunks haddress hlimit,
    readRecords_of_byteSum h hlength hsum]

/-- Another byte makes another sum. -/
theorem byteSum_ne_zero_of_ne {front back : List UInt8} {byte damaged : UInt8}
    (h : byteSum (front ++ byte :: back) = 0) (hne : damaged ≠ byte) :
    byteSum (front ++ damaged :: back) ≠ 0 := by
  rw [byteSum_append, byteSum_cons] at h ⊢
  grind

/-- Records in front of one that was written are data records. -/
theorem exists_chunks_of_lines {chunks : List Chunk} {before after : List (List UInt8)}
    {bytes : List UInt8}
    (h : chunks.map (withChecksum ·.record) ++ [withChecksum endRecord] = before ++ bytes :: after) :
    ∃ read : List Chunk, (∀ chunk ∈ read, chunk ∈ chunks) ∧
      before = read.map (withChecksum ·.record) := by
  refine ⟨chunks.take before.length, fun chunk hchunk => List.mem_of_mem_take hchunk, ?_⟩
  have hlength : before.length ≤ (chunks.map (withChecksum ·.record)).length := by
    have hcount := congrArg List.length h
    simp only [List.length_append, List.length_cons, List.length_nil] at hcount
    omega
  have htake := congrArg (List.take before.length) h
  rw [List.take_append_of_le_length hlength, List.take_left] at htake
  rw [List.map_take, htake]

/-- Every record that is written has its five fixed bytes, and adds up to zero. -/
theorem byteSum_of_mem_lines {chunks : List Chunk} {bytes : List UInt8}
    (h : bytes ∈ chunks.map (withChecksum ·.record) ++ [withChecksum endRecord]) :
    5 ≤ bytes.length ∧ byteSum bytes = 0 := by
  rcases List.mem_append.mp h with hdata | hend
  · obtain ⟨chunk, -, rfl⟩ := List.mem_map.mp hdata
    refine ⟨?_, byteSum_withChecksum chunk.record⟩
    simp [withChecksum, Chunk.record]
  · rw [List.mem_singleton.mp hend]
    exact ⟨by decide, byteSum_withChecksum endRecord⟩

/-- **A damaged byte is noticed.** If two digits of the text of an image that are a byte of one of
    its records are replaced by the digits of another byte, of either case, the text is refused: the
    checksum of that record does not match. The number of digits in front of the two is even, so
    that they are one byte and not the halves of two. -/
theorem readHex_damaged {image : Image} {text : String} (h : image.writeHex = .ok text)
    {earlier digits pair later : List Char} {byte damaged : UInt8}
    (htext : text.toList = earlier ++ ':' :: (digits ++ (Text.hexByte byte ++ later)))
    (hdigits : ∀ c ∈ digits, Text.isHexDigit c = true) (heven : digits.length % 2 = 0)
    (hpair : pair.map Char.toUpper = Text.hexByte damaged) (hne : damaged ≠ byte) :
    readHex (String.ofList (earlier ++ ':' :: (digits ++ (pair ++ later)))) =
      .error (.checksum (String.ofList
        (':' :: (digits ++ (pair ++ later.takeWhile (· ≠ '\r')))))) := by
  obtain ⟨haddress, rfl⟩ := writeHex_eq_ok.mp h
  have hlines : (image.chunks.map (withChecksum ·.record) ++ [withChecksum endRecord]).flatMap hexLine =
      earlier ++ ':' :: (digits ++ (Text.hexByte byte ++ later)) := by
    rw [← htext, String.toList_ofList, List.flatMap_append, flatMap_hexLine_map, List.flatMap_singleton]
    rfl
  -- The colon begins a record, and the digits up to the byte are those of its first bytes.
  obtain ⟨before, bytes, after, hrecords, rfl, hrest⟩ := exists_record_of_colon hlines
  obtain ⟨front, back, rfl, rfl, rfl⟩ := exists_byte_of_digits hdigits heven hrest.symm
  have hmem : front ++ byte :: back ∈
      image.chunks.map (withChecksum ·.record) ++ [withChecksum endRecord] := by
    rw [hrecords]
    exact List.mem_append_right _ List.mem_cons_self
  obtain ⟨hlength, hsum⟩ := byteSum_of_mem_lines hmem
  obtain ⟨read, hread, rfl⟩ := exists_chunks_of_lines hrecords
  have hspells : SpellsBytes
      (front.flatMap Text.hexByte ++ (pair ++ back.flatMap Text.hexByte))
      (front ++ damaged :: back) := by
    have hdamaged : SpellsBytes pair [damaged] := by
      rw [SpellsBytes, List.flatMap_singleton, hpair]
    exact (spellsBytes_flatMap front).append (hdamaged.append (spellsBytes_flatMap back))
  have hwhile : (back.flatMap Text.hexByte ++ '\r' :: '\n' :: after.flatMap hexLine).takeWhile
      (· ≠ '\r') = back.flatMap Text.hexByte := by
    have hplain : ∀ c ∈ back.flatMap Text.hexByte, c ≠ '\r' :=
      (spellsBytes_flatMap back).isHexText.forall_mem (by decide)
    rw [List.takeWhile_append_of_pos fun c hc => decide_eq_true (hplain c hc)]
    simp
  have hfound := readHex_of_byteSum (fun chunk hchunk => haddress chunk (hread chunk hchunk))
    (fun chunk hchunk => length_le_of_mem_chunks (hread chunk hchunk)) hspells
    (by simpa using hlength) (byteSum_ne_zero_of_ne hsum hne) (after.flatMap hexLine)
  rw [hwhile, ← hfound, flatMap_hexLine_map]
  simp only [List.cons_append, List.append_assoc]

/-- The type of the record that ends a file is damaged, so that it would be a data record; and the
    length of a data record, in lower case. -/
theorem readHex_damaged_header :
    readHex ":01000000AA55\r\n:00000000FF\r\n" = .error (.checksum ":00000000FF") ∧
    readHex ":0a000000AA55\r\n:00000001FF\r\n" = .error (.checksum ":0a000000AA55") := by
  have hwrite : (empty.storeBytes 0 [0xAA]).writeHex = .ok ":01000000AA55\r\n:00000001FF\r\n" := rfl
  have htype : ":01000000AA55\r\n:00000001FF\r\n".toList =
      ":01000000AA55\r\n".toList ++
        ':' :: ("000000".toList ++ (Text.hexByte 1 ++ "FF\r\n".toList)) := rfl
  have hlength : ":01000000AA55\r\n:00000001FF\r\n".toList =
      [] ++ ':' :: ([] ++ (Text.hexByte 1 ++ "000000AA55\r\n:00000001FF\r\n".toList)) := rfl
  have hzero : ['0', '0'].map Char.toUpper = Text.hexByte 0 := rfl
  have hten : ['0', 'a'].map Char.toUpper = Text.hexByte 10 := rfl
  have hdata := readHex_damaged hwrite htype (List.all_eq_true.mp rfl) rfl hzero (by decide)
  have hlong := readHex_damaged hwrite hlength (List.forall_mem_nil _) rfl hten (by decide)
  have hshown {line shown : String} (h : line = shown) :
      (.error (.checksum line) : Except HexError Image) = .error (.checksum shown) := by rw [h]
  exact ⟨(congrArg readHex (by decide)).trans (hdata.trans (hshown (by decide))),
    (congrArg readHex (by decide)).trans (hlong.trans (hshown (by decide)))⟩

end Z80Asm.Image
