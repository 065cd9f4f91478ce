import Mathlib.Data.List.Basic
import Mathlib.Data.List.TakeDrop
import Mathlib.Data.List.TakeWhile
import Z80Asm.Proofs.Image.Runs
import Z80Asm.Proofs.Text.Digits
import Z80Asm.Proofs.Text.Lines

/-!
# Intel HEX reads back

The text of an image is a line for each of its pieces and one that ends it. A line that was written
is read as the record it was written for: its digits pair up to its bytes, its checksum makes their
sum zero, and its length and address come back from theirs (`readRecords_data`). So what is read is
what the pieces store, and that is the image.

An image has a text if no piece begins above the 16-bit addresses. A piece that begins below may
end above: its bytes are stored behind each other wherever the first address is.

A reader takes more than what is written, digits of either case among it. What it does with other
texts is left out here; `Image/Damage` is about texts that are nearly right.
-/
set_option autoImplicit false

namespace Z80Asm

namespace Text

theorem trim_eq_self {cs : List Char} (h : ∀ c ∈ cs, isBlank c = false) : trim cs = cs := by
  have hdrop {ds : List Char} (hds : ∀ c ∈ ds, isBlank c = false) : ds.dropWhile isBlank = ds := by
    cases ds with
    | nil => rfl
    | cons c rest => rw [List.dropWhile_cons_of_neg]; simp [hds c List.mem_cons_self]
  rw [trim, trimEnd, hdrop h, hdrop fun c hc => h c (List.mem_reverse.mp hc), List.reverse_reverse]

end Text

namespace Image

/-! ## A line -/

/-- The bytes of a record with the checksum. -/
def withChecksum (bytes : List UInt8) : List UInt8 :=
  bytes ++ [-(byteSum bytes)]

/-- The line of a record without its end. -/
def recordLine (bytes : List UInt8) : List Char :=
  ':' :: (withChecksum bytes).flatMap Text.hexByte

theorem recordText_eq (bytes : List UInt8) :
    recordText bytes = recordLine bytes ++ ['\r', '\n'] := rfl

theorem byteSum_withChecksum (bytes : List UInt8) : byteSum (withChecksum bytes) = 0 := by
  rw [withChecksum, byteSum, List.foldl_append]
  exact UInt8.add_neg_eq_sub.trans (UInt8.sub_self (byteSum bytes))

/-- Digits of either case that pair up to bytes. -/
def SpellsBytes (cs : List Char) (bytes : List UInt8) : Prop :=
  cs.map Char.toUpper = bytes.flatMap Text.hexByte

theorem SpellsBytes.append {cs cs' : List Char} {bytes bytes' : List UInt8} (h : SpellsBytes cs bytes)
    (h' : SpellsBytes cs' bytes') : SpellsBytes (cs ++ cs') (bytes ++ bytes') := by
  unfold SpellsBytes at *
  rw [List.map_append, h, h', List.flatMap_append]

/-- Digits are written in upper case. -/
theorem spellsBytes_flatMap (bytes : List UInt8) :
    SpellsBytes (bytes.flatMap Text.hexByte) bytes := by
  refine (List.map_congr_left fun c hc => ?_).trans (List.map_id _)
  obtain ⟨byte, -, hbyte⟩ := List.mem_flatMap.mp hc
  exact Text.forall_mem_hexDigits (p := fun c => c.toUpper = c) (by decide) 2 byte.toNat c hbyte

theorem SpellsBytes.isHexText {cs : List Char} {bytes : List UInt8} (h : SpellsBytes cs bytes) :
    Text.IsHexText cs := by
  intro c hc
  have hmem : c.toUpper ∈ bytes.flatMap Text.hexByte := h ▸ List.mem_map_of_mem hc
  obtain ⟨byte, -, hbyte⟩ := List.mem_flatMap.mp hmem
  exact Text.exists_of_mem_hexDigits hbyte

/-- What holds of the colon and of the digits holds of all characters of a line. -/
theorem SpellsBytes.forall_mem_line {cs : List Char} {bytes : List UInt8} (h : SpellsBytes cs bytes)
    {p : Char → Prop} (hcolon : p ':')
    (hdigit : ∀ d ∈ List.range 16, p (Nat.digitChar d) ∧ p (Nat.digitChar d).toUpper) :
    ∀ c ∈ ':' :: cs, p c :=
  List.forall_mem_cons.mpr ⟨hcolon, h.isHexText.forall_mem hdigit⟩

/-- A line is divided from what follows by its end. -/
theorem SpellsBytes.linesFrom_line {cs : List Char} {bytes : List UInt8} (h : SpellsBytes cs bytes)
    (rest : List Char) :
    Text.linesFrom [] (':' :: cs ++ '\r' :: '\n' :: rest) = (':' :: cs) :: Text.linesFrom [] rest := by
  have hfeed : ∀ c ∈ ':' :: cs, c ≠ '\n' := h.forall_mem_line (by decide) (by decide)
  exact Text.linesFrom_crlf (fun hmem => hfeed _ hmem rfl) rest

/-- There is no blank in a line that a reader could take off. -/
theorem SpellsBytes.trim_line {cs : List Char} {bytes : List UInt8} (h : SpellsBytes cs bytes) :
    Text.trim (':' :: cs) = ':' :: cs :=
  Text.trim_eq_self (h.forall_mem_line (by decide) (by decide))

/-- The digits of the first byte are two characters, and those of the others follow. -/
theorem SpellsBytes.exists_cons {cs : List Char} {byte : UInt8} {rest : List UInt8}
    (h : SpellsBytes cs (byte :: rest)) :
    ∃ high low later, cs = high :: low :: later ∧
      [high, low].map Char.toUpper = Text.hexByte byte ∧ SpellsBytes later rest := by
  obtain ⟨upperHigh, upperLow, hdigits⟩ := List.length_eq_two.mp (Text.length_hexByte byte)
  unfold SpellsBytes at h
  rw [List.flatMap_cons, hdigits] at h
  obtain ⟨high, tail, rfl, hhigh, htail⟩ := List.map_eq_cons_iff.mp h
  obtain ⟨low, later, rfl, hlow, hlater⟩ := List.map_eq_cons_iff.mp htail
  refine ⟨high, low, later, rfl, ?_, hlater⟩
  rw [hdigits, ← hhigh, ← hlow]
  rfl

theorem SpellsBytes.pairs_eq (shown : String) {cs : List Char} {bytes : List UInt8}
    (h : SpellsBytes cs bytes) : pairs shown cs = .ok bytes := by
  induction bytes generalizing cs with
  | nil =>
    rw [List.map_eq_nil_iff.mp h]
    rfl
  | cons byte rest ih =>
    obtain ⟨high, low, later, rfl, hdigits, hlater⟩ := h.exists_cons
    have hread : Number.unsigned? 16 256 [high, low] = some byte.toNat :=
      Number.unsigned?_of_map_toUpper hdigits byte.toNat_lt
    simp only [pairs, hread, ih hlater]
    exact congrArg (fun b => Except.ok (b :: rest)) UInt8.ofNat_toNat

/-- Digits are single bytes of text, and there are two for each byte of a record. -/
theorem SpellsBytes.size_eq {cs : List Char} {bytes : List UInt8} (h : SpellsBytes cs bytes) :
    cs.foldr (fun c size => c.utf8Size + size) 0 = 2 * bytes.length := by
  have hsize : ∀ c ∈ cs, c.utf8Size = 1 := h.isHexText.forall_mem (by decide)
  induction bytes generalizing cs with
  | nil =>
    rw [List.map_eq_nil_iff.mp h]
    rfl
  | cons byte rest ih =>
    obtain ⟨high, low, later, rfl, -, hlater⟩ := h.exists_cons
    obtain ⟨hhigh, hrest⟩ := List.forall_mem_cons.mp hsize
    obtain ⟨hlow, hrest⟩ := List.forall_mem_cons.mp hrest
    simp only [List.foldr_cons, ih hlater hrest, hhigh, hlow, List.length_cons]
    omega

/-- A line with a colon in front of its digits is read as their bytes. -/
theorem SpellsBytes.recordBytes_eq {cs : List Char} {bytes : List UInt8} (h : SpellsBytes cs bytes)
    (hlength : 5 ≤ bytes.length) : recordBytes (':' :: cs) = .ok bytes := by
  have hascii : ∀ c ∈ cs, c.toNat < 128 := h.isHexText.forall_mem (by decide)
  have hall : cs.all (·.toNat < 128) = true :=
    List.all_eq_true.mpr fun c hc => decide_eq_true (hascii c hc)
  have hwell : (2 * bytes.length % 2 ≠ 0 || 2 * bytes.length < 10 ||
      !cs.all (·.toNat < 128)) = false := by
    simp only [hall, Bool.not_true, Bool.or_false, Bool.or_eq_false_iff, decide_eq_false_iff_not]
    omega
  simp only [recordBytes, h.size_eq, hwell, Bool.false_eq_true, if_false, h.pairs_eq]

/-- A line that was written is read as the bytes of its record. -/
theorem recordBytes_recordLine {bytes : List UInt8} (h : 4 ≤ bytes.length) :
    recordBytes (recordLine bytes) = .ok (withChecksum bytes) := by
  refine (spellsBytes_flatMap (withChecksum bytes)).recordBytes_eq ?_
  simp [withChecksum, h]

/-! ## Records -/

/-- What a line does whose bytes add up to zero and are as many as its length says. -/
theorem readRecords_line {line : List Char} {length high low type : UInt8} {body : List UInt8}
    (hline : line.isEmpty = false)
    (hbytes : recordBytes line = .ok (length :: high :: low :: type :: body))
    (hsum : byteSum (length :: high :: low :: type :: body) = 0)
    (hlength : body.length = length.toNat + 1) (image : Image) (rest : List (List Char)) :
    readRecords image (line :: rest) =
      if type = 0 then
        readRecords
          (image.storeBytes (UInt32.ofNat (high.toNat * 256 + low.toNat)) body.dropLast) rest
      else if type = 1 then .ok image
      else .error (.recordType (String.ofList line)) := by
  simp only [readRecords, hline, hbytes, bind, Except.bind, hsum, hlength, ne_eq,
    not_true_eq_false, if_false, Bool.false_eq_true]
  rfl

/-- A line for a piece that begins at a 16-bit address stores the piece. -/
theorem readRecords_data {chunk : Chunk} (haddress : chunk.address ≤ lastRecordAddress)
    (hlength : chunk.bytes.length ≤ recordLimit) (image : Image) (rest : List (List Char)) :
    readRecords image (recordLine chunk.record :: rest) =
      readRecords (image.storeBytes chunk.address chunk.bytes) rest := by
  have haddress : chunk.address.toNat < 0x10000 :=
    Nat.lt_succ_of_le (UInt32.le_iff_toNat_le.mp haddress)
  have hlength : chunk.bytes.length < 256 := Nat.lt_of_le_of_lt hlength (by decide)
  have hcount : (UInt8.ofNat chunk.bytes.length).toNat = chunk.bytes.length :=
    UInt8.toNat_ofNat_of_lt' hlength
  have hbody : (chunk.bytes ++ [-(byteSum chunk.record)]).length =
      (UInt8.ofNat chunk.bytes.length).toNat + 1 := by
    rw [hcount, List.length_append, List.length_singleton]
  -- The address comes back from its two bytes.
  have hback : UInt32.ofNat ((UInt8.ofNat (chunk.address.toNat / 256)).toNat * 256 +
      (UInt8.ofNat chunk.address.toNat).toNat) = chunk.address := by
    have hhigh : (UInt8.ofNat (chunk.address.toNat / 256)).toNat = chunk.address.toNat / 256 :=
      UInt8.toNat_ofNat_of_lt' (by show _ < 256; omega)
    have hlow : (UInt8.ofNat chunk.address.toNat).toNat = chunk.address.toNat % 256 :=
      UInt8.toNat_ofNat
    rw [hhigh, hlow, Nat.div_add_mod', UInt32.ofNat_toNat]
  have hbytes : recordBytes (recordLine chunk.record) = .ok (withChecksum chunk.record) :=
    recordBytes_recordLine (by simp [Chunk.record])
  rw [readRecords_line rfl hbytes (byteSum_withChecksum chunk.record) hbody, if_pos rfl, hback]
  exact congrArg (fun bytes => readRecords (image.storeBytes chunk.address bytes) rest)
    List.dropLast_concat

theorem readRecords_end (image : Image) (rest : List (List Char)) :
    readRecords image (recordLine endRecord :: rest) = .ok image := by
  have hbytes : recordBytes (recordLine endRecord) = .ok (withChecksum endRecord) :=
    recordBytes_recordLine (by decide)
  rw [readRecords_line rfl hbytes (byteSum_withChecksum endRecord) rfl, if_neg (by decide),
    if_pos rfl]

/-- The lines of pieces store them one after the other. -/
theorem readRecords_chunks {chunks : List Chunk}
    (haddress : ∀ chunk ∈ chunks, chunk.address ≤ lastRecordAddress)
    (hlength : ∀ chunk ∈ chunks, chunk.bytes.length ≤ recordLimit) (image : Image)
    (rest : List (List Char)) :
    readRecords image (chunks.map (recordLine ·.record) ++ rest) =
      readRecords (image.storeChunks chunks) rest := by
  induction chunks generalizing image with
  | nil => rfl
  | cons chunk later ih =>
    obtain ⟨haddr, haddress⟩ := List.forall_mem_cons.mp haddress
    obtain ⟨hlen, hlength⟩ := List.forall_mem_cons.mp hlength
    rw [List.map_cons, List.cons_append, readRecords_data haddr hlen]
    exact ih haddress hlength _

/-- The lines of pieces and of the end of a file store the pieces. -/
theorem readRecords_lines {chunks : List Chunk}
    (haddress : ∀ chunk ∈ chunks, chunk.address ≤ lastRecordAddress)
    (hlength : ∀ chunk ∈ chunks, chunk.bytes.length ≤ recordLimit) (image : Image) :
    readRecords image (chunks.map (recordLine ·.record) ++ [recordLine endRecord]) =
      .ok (image.storeChunks chunks) := by
  rw [readRecords_chunks haddress hlength, readRecords_end]

/-! ## The text of an image -/

theorem linesFrom_recordText (bytes : List UInt8) (rest : List Char) :
    Text.linesFrom [] (recordText bytes ++ rest) = recordLine bytes :: Text.linesFrom [] rest := by
  rw [recordText_eq, List.append_assoc]
  exact (spellsBytes_flatMap (withChecksum bytes)).linesFrom_line rest

theorem linesFrom_recordsText (chunks : List Chunk) (rest : List Char) :
    Text.linesFrom [] (recordsText chunks ++ rest) =
      chunks.map (recordLine ·.record) ++ Text.linesFrom [] rest := by
  induction chunks with
  | nil => rfl
  | cons chunk later ih =>
    rw [recordsText, List.flatMap_cons, List.append_assoc, linesFrom_recordText, ← recordsText, ih,
      List.map_cons, List.cons_append]

theorem map_trim_recordLine (chunks : List Chunk) :
    (chunks.map (recordLine ·.record)).map Text.trim = chunks.map (recordLine ·.record) := by
  rw [List.map_map]
  exact List.map_congr_left fun chunk _ => (spellsBytes_flatMap (withChecksum chunk.record)).trim_line

/-- Pieces that can be written are read back. -/
theorem readHex_records {chunks : List Chunk}
    (haddress : ∀ chunk ∈ chunks, chunk.address ≤ lastRecordAddress)
    (hlength : ∀ chunk ∈ chunks, chunk.bytes.length ≤ recordLimit) :
    readHex (String.ofList (recordsText chunks ++ recordText endRecord)) =
      .ok (empty.storeChunks chunks) := by
  have hlines : Text.linesFrom [] (recordsText chunks ++ recordText endRecord) =
      chunks.map (recordLine ·.record) ++ [recordLine endRecord] := by
    rw [linesFrom_recordsText, ← List.append_nil (recordText endRecord), linesFrom_recordText]
    rfl
  have htrim : Text.trim (recordLine endRecord) = recordLine endRecord :=
    (spellsBytes_flatMap (withChecksum endRecord)).trim_line
  rw [readHex, String.toList_ofList, hlines, List.map_append, map_trim_recordLine, List.map_singleton,
    htrim, readRecords_lines haddress hlength]

theorem writeHex_eq_ok {image : Image} {text : String} :
    image.writeHex = .ok text ↔
      (∀ chunk ∈ image.chunks, chunk.address ≤ lastRecordAddress) ∧
        text = String.ofList (recordsText image.chunks ++ recordText endRecord) := by
  have hspan : image.writable = (image.chunks.takeWhile (·.address ≤ lastRecordAddress),
      (image.chunks.dropWhile (·.address ≤ lastRecordAddress)).head?.map Chunk.address) := by
    rw [writable, List.span_eq_takeWhile_dropWhile]
  rw [writeHex, hspan]
  by_cases hall : ∀ chunk ∈ image.chunks, chunk.address ≤ lastRecordAddress
  · have htake : image.chunks.takeWhile (·.address ≤ lastRecordAddress) = image.chunks :=
      List.takeWhile_eq_self_iff.mpr fun chunk h => decide_eq_true (hall chunk h)
    have hdrop : image.chunks.dropWhile (·.address ≤ lastRecordAddress) = [] :=
      List.dropWhile_eq_nil_iff.mpr fun chunk h => decide_eq_true (hall chunk h)
    simp only [htake, hdrop, List.head?_nil, Option.map_none, Except.ok.injEq]
    exact ⟨fun h => ⟨hall, h.symm⟩, fun h => h.2.symm⟩
  · cases hdrop : image.chunks.dropWhile (·.address ≤ lastRecordAddress) with
    | nil =>
      refine absurd (fun chunk h => ?_) hall
      exact of_decide_eq_true (List.dropWhile_eq_nil_iff.mp hdrop chunk h)
    | cons chunk rest => simp [hall]

/-- **Intel HEX reads back.** An image has a text exactly if none of the pieces into which its
    maximal runs are cut begins above the 16-bit addresses, so in particular if none of its
    addresses is above them; and its text, if it has one, is read back as the image. -/
theorem writeHex_readHex (image : Image) :
    ((∃ text, image.writeHex = .ok text) ↔
      ∀ first last, image.IsRun first last →
        ∀ k, first.toNat + 32 * k ≤ last.toNat → first.toNat + 32 * k ≤ 0xFFFF) ∧
    ((∀ a, (image.get? a).isSome → a.toNat ≤ 0xFFFF) → ∃ text, image.writeHex = .ok text) ∧
    ∀ text, image.writeHex = .ok text → readHex text = .ok image := by
  have hlast : lastRecordAddress.toNat = 0xFFFF := rfl
  have hwritten : (∃ text, image.writeHex = .ok text) ↔
      ∀ first last, image.IsRun first last →
        ∀ k, first.toNat + 32 * k ≤ last.toNat → first.toNat + 32 * k ≤ 0xFFFF := by
    simp only [writeHex_eq_ok, exists_and_left, exists_eq, and_true]
    constructor
    · intro h first last hrun k hle
      obtain ⟨chunk, hchunk, haddress⟩ := (exists_chunk_iff _).mpr ⟨first, last, k, hrun, rfl, hle⟩
      have := UInt32.le_iff_toNat_le.mp (h chunk hchunk)
      omega
    · intro h chunk hchunk
      obtain ⟨first, last, k, hrun, haddress, hle⟩ := (exists_chunk_iff _).mp ⟨chunk, hchunk, rfl⟩
      have := h first last hrun k hle
      exact UInt32.le_iff_toNat_le.mpr (by omega)
  refine ⟨hwritten, ?_, ?_⟩
  · intro hlow
    rw [hwritten]
    intro first last hrun k hle
    have := hlow last (hrun.full last hrun.le (UInt32.le_refl _))
    omega
  · intro text htext
    obtain ⟨haddress, rfl⟩ := writeHex_eq_ok.mp htext
    rw [readHex_records haddress fun chunk h => length_le_of_mem_chunks h, storeChunks_chunks]

/-- Two bytes on either side of the end of the 16-bit addresses are one run and one record, which
    comes back. -/
theorem writeHex_readHex_straddling :
    (empty.storeBytes 0xFFFF [0x3E, 0x2A]).IsRun 0xFFFF 0x10000 ∧
    (empty.storeBytes 0xFFFF [0x3E, 0x2A]).writeHex =
      .ok ":02FFFF003E2A98\r\n:00000001FF\r\n" ∧
    readHex ":02FFFF003E2A98\r\n:00000001FF\r\n" =
      .ok (empty.storeBytes 0xFFFF [0x3E, 0x2A]) := by
  have hwrite : (empty.storeBytes 0xFFFF [0x3E, 0x2A]).writeHex =
      .ok ":02FFFF003E2A98\r\n:00000001FF\r\n" := rfl
  have hrun : ⟨0xFFFF, [0x3E, 0x2A]⟩ ∈ runs (empty.storeBytes 0xFFFF [0x3E, 0x2A]).toList := by
    decide
  exact ⟨isRun_iff.mpr ⟨_, hrun, rfl, rfl⟩, hwrite, (writeHex_readHex _).2.2 _ hwrite⟩

end Image

end Z80Asm
