import Mathlib.Data.List.Chain
import Mathlib.Data.List.Forall2
import Z80Asm.Proofs.Image.HexRoundTrip

/-!
# The records of a HEX file

What a file for an image has to be is said here without the writer: its data records hold every byte
of the image once and at its address, they are in the order of their addresses and hold at most 32
bytes each, and a record that the next one continues without a gap is full. There is one way to cut
an image like that (`IsCut.eq_of_places_eq`), so these rules determine the file, and the writer
writes it.

The rules do not say how to cut, so that the theorem is about the file and not about the writer:
another writer that follows them would give the same text.
-/
set_option autoImplicit false

namespace Z80Asm.Image

/-! ## Rules for records -/

/-- The bytes of a chunk with their addresses, which do not wrap around. -/
def Chunk.places (chunk : Chunk) : List (UInt8 × Nat) :=
  chunk.bytes.zipIdx chunk.address.toNat

/-- A record may follow another one if it begins behind it. Only a full record is continued without a
    gap. -/
def Chunk.Precedes (r next : Chunk) : Prop :=
  r.stop ≤ next.address.toNat ∧ (r.stop = next.address.toNat → r.bytes.length = 32)

/-- How records are cut: none is empty, none holds more than 32 bytes, and each may follow the one in
    front of it. -/
structure IsCut (records : List Chunk) : Prop where
  lengths : ∀ r ∈ records, 1 ≤ r.bytes.length ∧ r.bytes.length ≤ 32
  ordered : records.IsChain Chunk.Precedes

/-- The data records for an image: they hold every byte that it has, once and at its address, and
    nothing else. -/
structure Records (image : Image) (records : List Chunk) : Prop extends IsCut records where
  contents : ∀ byte n, (byte, n) ∈ records.flatMap Chunk.places ↔
    ∃ a : UInt32, a.toNat = n ∧ image.get? a = some byte
  once : (records.flatMap Chunk.places).Nodup

/-- The bytes of a data record: its length, its address, its type and its data, with a checksum
    behind them. -/
def Chunk.IsRecord (chunk : Chunk) (bytes : List UInt8) : Prop :=
  ∃ length high low checksum : UInt8,
    bytes = length :: high :: low :: 0 :: (chunk.bytes ++ [checksum]) ∧
      length.toNat = chunk.bytes.length ∧ high.toNat * 256 + low.toNat = chunk.address.toNat

/-- The sum of bytes. -/
def total (bytes : List UInt8) : Nat :=
  bytes.foldr (fun byte sum => byte.toNat + sum) 0

/-- The line of a record: a colon, the digits of its bytes, and the end of the line. -/
def hexLine (bytes : List UInt8) : List Char :=
  ':' :: bytes.flatMap Text.hexByte ++ ['\r', '\n']

/-- A text that has a line for each data record and one for the record that ends a file, and in which
    the bytes of every record add up to zero. -/
def IsFile (records : List Chunk) (text : String) : Prop :=
  ∃ lines, List.Forall₂ Chunk.IsRecord records lines ∧
    (∀ bytes ∈ lines ++ [[0, 0, 0, 1, 0xFF]], total bytes % 256 = 0) ∧
    text.toList = (lines ++ [[0, 0, 0, 1, 0xFF]]).flatMap hexLine

/-! ## Cutting -/

section

variable {r r' : Chunk} {rest rest' records records' : List Chunk}

theorem IsCut.tail (h : IsCut (r :: rest)) : IsCut rest :=
  ⟨fun other hother => h.lengths other (List.mem_cons_of_mem _ hother), h.ordered.tail⟩

theorem Chunk.mem_places {chunk : Chunk} {byte : UInt8} {n : Nat} (h : (byte, n) ∈ chunk.places) :
    chunk.address.toNat ≤ n ∧ n < chunk.stop := by
  obtain ⟨hle, hlt, -⟩ := List.mem_zipIdx h
  exact ⟨hle, hlt⟩

/-- No byte comes before the first address. -/
theorem IsCut.address_le (h : IsCut (r :: rest)) {byte : UInt8} {n : Nat}
    (hmem : (byte, n) ∈ (r :: rest).flatMap Chunk.places) : r.address.toNat ≤ n := by
  induction rest generalizing r with
  | nil =>
    rw [List.flatMap_singleton] at hmem
    exact (Chunk.mem_places hmem).1
  | cons next rest ih =>
    rw [List.flatMap_cons] at hmem
    rcases List.mem_append.mp hmem with hfirst | hlater
    · exact (Chunk.mem_places hfirst).1
    · have hnext := ih h.tail hlater
      have hstop := (List.isChain_cons_cons.mp h.ordered).1.1
      simp only [Chunk.stop] at hstop
      omega

/-- Nothing that follows a record comes before its end. -/
theorem IsCut.stop_le (h : IsCut (r :: rest)) {byte : UInt8} {n : Nat}
    (hmem : (byte, n) ∈ rest.flatMap Chunk.places) : r.stop ≤ n := by
  cases rest with
  | nil => cases hmem
  | cons next rest =>
    have hstop := (List.isChain_cons_cons.mp h.ordered).1.1
    exact Nat.le_trans hstop (h.tail.address_le hmem)

theorem Chunk.places_sorted (chunk : Chunk) :
    chunk.places.Pairwise fun place place' => place.2 < place'.2 := by
  unfold Chunk.places
  generalize chunk.address.toNat = n
  induction chunk.bytes generalizing n with
  | nil => exact List.Pairwise.nil
  | cons byte bytes ih =>
    rw [List.zipIdx_cons, List.pairwise_cons]
    refine ⟨fun place hplace => ?_, ih (n + 1)⟩
    exact (List.mem_zipIdx hplace).1

theorem IsCut.places_sorted (h : IsCut records) :
    (records.flatMap Chunk.places).Pairwise fun place place' => place.2 < place'.2 := by
  induction records with
  | nil => exact List.Pairwise.nil
  | cons r rest ih =>
    rw [List.flatMap_cons, List.pairwise_append]
    refine ⟨r.places_sorted, ih h.tail, ?_⟩
    intro place hplace place' hplace'
    exact Nat.lt_of_lt_of_le (Chunk.mem_places hplace).2 (h.stop_le hplace')

theorem IsCut.places_nodup (h : IsCut records) : (records.flatMap Chunk.places).Nodup := by
  refine h.places_sorted.imp fun hlt heq => ?_
  rw [heq] at hlt
  exact Nat.lt_irrefl _ hlt

/-- The first byte is at the address of the first record. -/
theorem IsCut.exists_places_eq_cons (h : IsCut (r :: rest)) :
    ∃ byte places, (r :: rest).flatMap Chunk.places = (byte, r.address.toNat) :: places := by
  obtain ⟨byte, bytes, hbytes⟩ := List.exists_cons_of_length_pos (h.lengths r List.mem_cons_self).1
  rw [List.flatMap_cons, Chunk.places, hbytes, List.zipIdx_cons]
  exact ⟨byte, _, rfl⟩

/-- A record that ends early has a gap behind it. -/
theorem IsCut.length_le (h : IsCut (r :: rest)) (haddress : r.address = r'.address)
    (hlimit : r'.bytes.length ≤ 32) {later : List (UInt8 × Nat)}
    (hplaces : r.places ++ rest.flatMap Chunk.places = r'.places ++ later) :
    r'.bytes.length ≤ r.bytes.length := by
  refine Nat.le_of_not_lt fun hlt => ?_
  -- The byte behind the record is in the other list at the address where the record stops.
  have hbehind := congrArg (fun places => places[r.bytes.length]?) hplaces
  have hlength : r.places.length = r.bytes.length := List.length_zipIdx
  have hlength' : r'.places.length = r'.bytes.length := List.length_zipIdx
  rw [List.getElem?_append_right (by omega), hlength, Nat.sub_self,
    List.getElem?_append_left (by omega), Chunk.places, List.getElem?_zipIdx,
    List.getElem?_eq_getElem hlt, Option.map_some] at hbehind
  cases rest with
  | nil => cases hbehind
  | cons next rest =>
    obtain ⟨byte, places, hcons⟩ := h.tail.exists_places_eq_cons
    rw [hcons] at hbehind
    have hnext : next.address.toNat = r'.address.toNat + r.bytes.length :=
      congrArg Prod.snd (Option.some.inj hbehind)
    have hfull := (List.isChain_cons_cons.mp h.ordered).1.2 (by rw [Chunk.stop, haddress, hnext])
    omega

theorem Chunk.eq_of_places_eq (haddress : r.address = r'.address) (hplaces : r.places = r'.places) :
    r = r' := by
  have hbytes := congrArg (List.map Prod.fst) hplaces
  rw [Chunk.places, Chunk.places, List.zipIdx_map_fst, List.zipIdx_map_fst] at hbytes
  cases r with
  | mk address bytes =>
    cases r' with
    | mk address' bytes' =>
      cases haddress
      cases hbytes
      rfl

/-- There is only one way to cut bytes at given addresses into records. -/
theorem IsCut.eq_of_places_eq (h : IsCut records) (h' : IsCut records')
    (hplaces : records.flatMap Chunk.places = records'.flatMap Chunk.places) :
    records = records' := by
  induction records generalizing records' with
  | nil =>
    cases records' with
    | nil => rfl
    | cons r' rest' =>
      obtain ⟨byte, places, hcons⟩ := h'.exists_places_eq_cons
      rw [hcons] at hplaces
      cases hplaces
  | cons r rest ih =>
    obtain ⟨byte, places, hcons⟩ := h.exists_places_eq_cons
    cases records' with
    | nil =>
      rw [hcons] at hplaces
      cases hplaces
    | cons r' rest' =>
      obtain ⟨byte', places', hcons'⟩ := h'.exists_places_eq_cons
      have haddress : r.address = r'.address := by
        rw [hcons, hcons'] at hplaces
        exact UInt32.toNat_inj.mp (congrArg Prod.snd (List.cons.inj hplaces).1)
      rw [List.flatMap_cons, List.flatMap_cons] at hplaces
      have hlimit := (h.lengths r List.mem_cons_self).2
      have hlimit' := (h'.lengths r' List.mem_cons_self).2
      have hlength : r.bytes.length = r'.bytes.length :=
        Nat.le_antisymm (h'.length_le haddress.symm hlimit hplaces.symm)
          (h.length_le haddress hlimit' hplaces)
      obtain ⟨hfront, hback⟩ := List.append_inj hplaces
        (by rw [Chunk.places, Chunk.places, List.length_zipIdx, List.length_zipIdx, hlength])
      rw [Chunk.eq_of_places_eq haddress hfront, ih h.tail h'.tail hback]

end

/-- Records for the same image are the same. -/
theorem Records.unique {image : Image} {records records' : List Chunk} (h : image.Records records)
    (h' : image.Records records') : records = records' := by
  have hperm : (records.flatMap Chunk.places).Perm (records'.flatMap Chunk.places) := by
    refine (List.perm_ext_iff_of_nodup h.once h'.once).mpr ?_
    rintro ⟨byte, n⟩
    rw [h.contents, h'.contents]
  refine h.toIsCut.eq_of_places_eq h'.toIsCut ?_
  refine hperm.eq_of_pairwise ?_ h.places_sorted h'.places_sorted
  intro place place' _ _ hlt hgt
  exact absurd hlt (Nat.lt_asymm hgt)

/-! ## What is written is cut like that -/

theorem exists_chunksFrom_cons {fuel : Nat} {bytes : List UInt8} (hfuel : bytes.length ≤ fuel)
    (hpos : 0 < bytes.length) (address : UInt32) :
    ∃ more, chunksFrom fuel address bytes = ⟨address, bytes.take recordLimit⟩ :: more := by
  obtain ⟨fuel, rfl⟩ : ∃ k, fuel = k + 1 := ⟨fuel - 1, by omega⟩
  have hmore : ¬ bytes.isEmpty = true := by
    rw [List.isEmpty_iff_length_eq_zero]
    omega
  rw [chunksFrom, if_neg hmore]
  exact ⟨_, rfl⟩

/-- Full pieces follow each other without a gap, and behind the last one there is a gap. -/
theorem isChain_chunksFrom_append {fuel : Nat} {address : UInt32} {bytes : List UInt8}
    (hfuel : bytes.length ≤ fuel) (hbound : address.toNat + bytes.length ≤ 0x100000000)
    {later : List Chunk}
    (hlater : later.IsChain Chunk.Precedes)
    (hgap : ∀ next ∈ later, address.toNat + bytes.length < next.address.toNat) :
    (chunksFrom fuel address bytes ++ later).IsChain Chunk.Precedes := by
  induction fuel generalizing address bytes with
  | zero => exact hlater
  | succ fuel ih =>
    unfold chunksFrom
    split
    next => exact hlater
    next hcons =>
      have hpos := List.length_pos_iff.mpr (mt List.isEmpty_iff.mpr hcons)
      have hdrop : (bytes.drop 32).length = bytes.length - 32 := List.length_drop
      have htake : (bytes.take 32).length = min 32 bytes.length := List.length_take
      simp only [show recordLimit = 32 from rfl]
      rw [List.cons_append, List.isChain_cons]
      by_cases hshort : bytes.length ≤ 32
      · -- The piece takes all that is left.
        rw [List.drop_eq_nil_of_le hshort, chunksFrom_nil, List.nil_append]
        refine ⟨fun next hnext => ?_, hlater⟩
        have hbehind := hgap next (List.mem_of_mem_head? hnext)
        simp only [Chunk.Precedes, Chunk.stop]
        omega
      · have hnext : (address + UInt32.ofNat 32).toNat = address.toNat + 32 := by
          rw [UInt32.toNat_add, show (UInt32.ofNat 32).toNat = 32 from rfl]
          omega
        refine ⟨fun next hhead => ?_, ih (by omega) (by omega) fun next hmem => ?_⟩
        · have hfirst : next.address = address + UInt32.ofNat 32 := by
            have hleft : (bytes.drop 32).length ≤ fuel := by omega
            obtain ⟨more, hmore⟩ :=
              exists_chunksFrom_cons hleft (by omega) (address + UInt32.ofNat 32)
            rw [hmore] at hhead
            cases hhead
            rfl
          simp only [Chunk.Precedes, Chunk.stop, hfirst]
          omega
        · have hbehind := hgap next hmem
          omega

theorem isCut_chunks (image : Image) : IsCut image.chunks := by
  refine ⟨fun chunk hchunk => ?_, ?_⟩
  · obtain ⟨hpos, hlimit, -⟩ := bounds_of_mem_chunks hchunk
    exact ⟨hpos, hlimit⟩
  · have hseparate := separate_runs (toList_sorted image)
    unfold chunks
    revert hseparate
    generalize runs image.toList = rs
    intro hseparate
    induction rs with
    | nil => exact List.IsChain.nil
    | cons run later ih =>
      obtain ⟨-, hnonempty⟩ := List.forall_mem_cons.mp hseparate.nonempty
      obtain ⟨hbound, hbounded⟩ := List.forall_mem_cons.mp hseparate.bounded
      obtain ⟨hapart, hlater⟩ := List.pairwise_cons.mp hseparate.apart
      rw [List.flatMap_cons]
      refine isChain_chunksFrom_append (Nat.le_refl _) hbound (ih ⟨hnonempty, hbounded, hlater⟩) ?_
      intro next hnext
      obtain ⟨other, hother, hpiece⟩ := List.mem_flatMap.mp hnext
      have hinside := (bounds_of_mem_chunksFrom (hbounded other hother) hpiece).2.2.1
      exact Nat.lt_of_lt_of_le (hapart other hother) hinside

theorem map_cellsFrom {address : UInt32} {bytes : List UInt8}
    (hbound : address.toNat + bytes.length ≤ 0x100000000) :
    (cellsFrom address bytes).map (fun cell => (cell.2, cell.1.toNat)) =
      bytes.zipIdx address.toNat := by
  induction bytes generalizing address with
  | nil => rfl
  | cons byte rest ih =>
    rw [cellsFrom, List.map_cons, List.zipIdx_cons]
    congr 1
    simp only [List.length_cons] at hbound
    by_cases hrest : rest = []
    · rw [hrest]
      rfl
    · -- Bytes follow, so the next address does not wrap around.
      have hpos := List.length_pos_iff.mpr hrest
      have hnext : (address + 1).toNat = address.toNat + 1 := by
        rw [UInt32.toNat_add, show (1 : UInt32).toNat = 1 from rfl]
        omega
      rw [ih (by omega), hnext]

theorem places_chunks (image : Image) :
    image.chunks.flatMap Chunk.places = image.toList.map fun cell => (cell.2, cell.1.toNat) := by
  rw [← chunks_cells, List.map_flatMap]
  exact List.flatMap_congr fun chunk hchunk =>
    (map_cellsFrom (bounds_of_mem_chunks hchunk).2.2).symm

/-- The pieces of an image are its data records. -/
theorem records_chunks (image : Image) : image.Records image.chunks where
  toIsCut := isCut_chunks image
  contents := by
    intro byte n
    rw [places_chunks, List.mem_map]
    constructor
    · rintro ⟨⟨a, other⟩, hmem, heq⟩
      cases heq
      exact ⟨a, rfl, mem_toList.mp hmem⟩
    · rintro ⟨a, rfl, hget⟩
      exact ⟨(a, byte), mem_toList.mpr hget, rfl⟩
  once := (isCut_chunks image).places_nodup

/-! ## Checksums -/

theorem byteSum_append (front back : List UInt8) :
    byteSum (front ++ back) = byteSum front + byteSum back := by
  have hfold (sum : UInt8) : back.foldl (· + ·) sum = sum + back.foldl (· + ·) 0 := by
    induction back generalizing sum with
    | nil => simp
    | cons byte rest ih =>
      rw [List.foldl_cons, List.foldl_cons, ih (sum + byte), ih (0 + byte), UInt8.zero_add,
        UInt8.add_assoc]
  rw [byteSum, List.foldl_append]
  exact hfold _

theorem byteSum_singleton (byte : UInt8) : byteSum [byte] = byte :=
  UInt8.zero_add byte

theorem byteSum_cons (byte : UInt8) (rest : List UInt8) :
    byteSum (byte :: rest) = byte + byteSum rest := by
  rw [← List.singleton_append, byteSum_append, byteSum_singleton]

theorem toNat_byteSum (bytes : List UInt8) : (byteSum bytes).toNat = total bytes % 256 := by
  induction bytes with
  | nil => rfl
  | cons byte rest ih =>
    rw [byteSum_cons, UInt8.toNat_add, ih]
    show _ = (byte.toNat + total rest) % 256
    omega

theorem byteSum_eq_zero_iff {bytes : List UInt8} : byteSum bytes = 0 ↔ total bytes % 256 = 0 := by
  rw [← toNat_byteSum, ← UInt8.toNat_inj]
  rfl

/-! ## Lines -/

/-- A record for a chunk adds up to zero exactly if it is the one that is written for it. -/
theorem isRecord_iff {chunk : Chunk} (hlength : chunk.bytes.length ≤ 32) {bytes : List UInt8} :
    chunk.IsRecord bytes ∧ total bytes % 256 = 0 ↔
      chunk.address ≤ lastRecordAddress ∧ bytes = withChecksum chunk.record := by
  have hlast : lastRecordAddress.toNat = 0xFFFF := rfl
  rw [← byteSum_eq_zero_iff, UInt32.le_iff_toNat_le, hlast]
  constructor
  · rintro ⟨⟨length, high, low, checksum, rfl, hcount, haddress⟩, hsum⟩
    have hhigh := high.toNat_lt
    have hlow := low.toNat_lt
    refine ⟨by omega, ?_⟩
    have hrecord : chunk.record = length :: high :: low :: 0 :: chunk.bytes := by
      have hdiv : chunk.address.toNat / 256 = high.toNat := by omega
      have hmod : UInt8.ofNat chunk.address.toNat = low := by
        apply UInt8.toNat_inj.mp
        rw [UInt8.toNat_ofNat']
        omega
      rw [Chunk.record, ← hcount, hdiv, hmod, UInt8.ofNat_toNat, UInt8.ofNat_toNat]
    -- The last byte is the only one that makes the sum zero.
    have hchecksum : checksum = -(byteSum chunk.record) := by
      have hfront : byteSum chunk.record + checksum = 0 := by
        rw [hrecord, ← byteSum_singleton checksum, ← byteSum_append]
        exact hsum
      grind
    rw [withChecksum, hrecord, hchecksum, hrecord]
    rfl
  · rintro ⟨haddress, rfl⟩
    refine ⟨⟨_, _, _, _, rfl, ?_, ?_⟩, byteSum_withChecksum chunk.record⟩
    · rw [UInt8.toNat_ofNat']
      omega
    · rw [UInt8.toNat_ofNat', UInt8.toNat_ofNat']
      omega

theorem flatMap_hexLine_map (chunks : List Chunk) :
    (chunks.map (withChecksum ·.record)).flatMap hexLine = recordsText chunks := by
  rw [List.flatMap_map]
  rfl

/-- One record after the other is the one that is written. -/
theorem forall₂_isRecord_iff {records : List Chunk} (hlimit : ∀ r ∈ records, r.bytes.length ≤ 32)
    {lines : List (List UInt8)} :
    List.Forall₂ Chunk.IsRecord records lines ∧ (∀ bytes ∈ lines, total bytes % 256 = 0) ↔
      (∀ r ∈ records, r.address ≤ lastRecordAddress) ∧
        lines = records.map (withChecksum ·.record) := by
  induction records generalizing lines with
  | nil =>
    rw [List.forall₂_nil_left_iff]
    constructor
    · rintro ⟨rfl, -⟩
      exact ⟨List.forall_mem_nil _, rfl⟩
    · rintro ⟨-, rfl⟩
      exact ⟨rfl, List.forall_mem_nil _⟩
  | cons r rest ih =>
    obtain ⟨hr, hrest⟩ := List.forall_mem_cons.mp hlimit
    rw [List.forall₂_cons_left_iff, List.map_cons, List.forall_mem_cons]
    constructor
    · rintro ⟨⟨bytes, later, hrecord, hrecords, rfl⟩, hsums⟩
      obtain ⟨hsum, hlater⟩ := List.forall_mem_cons.mp hsums
      obtain ⟨haddress, hbytes⟩ := (isRecord_iff hr).mp ⟨hrecord, hsum⟩
      obtain ⟨haddresses, hlines⟩ := (ih hrest).mp ⟨hrecords, hlater⟩
      exact ⟨⟨haddress, haddresses⟩, by rw [hbytes, hlines]⟩
    · rintro ⟨⟨haddress, haddresses⟩, rfl⟩
      obtain ⟨hrecord, hsum⟩ := (isRecord_iff hr).mpr ⟨haddress, rfl⟩
      obtain ⟨hrecords, hsums⟩ := (ih hrest).mpr ⟨haddresses, rfl⟩
      exact ⟨⟨_, _, hrecord, hrecords, rfl⟩, List.forall_mem_cons.mpr ⟨hsum, hsums⟩⟩

/-- The text of records that follow the rules is the text that is written for them. -/
theorem isFile_iff {records : List Chunk} (hlimit : ∀ r ∈ records, r.bytes.length ≤ 32)
    {text : String} :
    IsFile records text ↔
      (∀ r ∈ records, r.address ≤ lastRecordAddress) ∧
        text = String.ofList (recordsText records ++ recordText endRecord) := by
  have hend : hexLine [0, 0, 0, 1, 0xFF] = recordText endRecord := rfl
  unfold IsFile
  constructor
  · rintro ⟨lines, hrecords, hsums, htext⟩
    obtain ⟨haddress, rfl⟩ :=
      (forall₂_isRecord_iff hlimit).mp ⟨hrecords, (List.forall_mem_append.mp hsums).1⟩
    rw [List.flatMap_append, flatMap_hexLine_map, List.flatMap_singleton, hend] at htext
    exact ⟨haddress, by rw [← htext, String.ofList_toList]⟩
  · rintro ⟨haddress, rfl⟩
    obtain ⟨hrecords, hsums⟩ := (forall₂_isRecord_iff hlimit).mpr ⟨haddress, rfl⟩
    refine ⟨_, hrecords, List.forall_mem_append.mpr ⟨hsums, by decide⟩, ?_⟩
    rw [List.flatMap_append, flatMap_hexLine_map, List.flatMap_singleton, hend, String.toList_ofList]

/-- **The rules for its records determine the file.** The text of an image consists of its data
    records and the record that ends a file, and it is the only text that does: an image has this
    text exactly if the text is a file of records that follow the rules for the image. -/
theorem writeHex_iff_isFile (image : Image) (text : String) :
    image.writeHex = .ok text ↔ ∃ records, image.Records records ∧ IsFile records text := by
  have hwritten := records_chunks image
  have hlimit : ∀ r ∈ image.chunks, r.bytes.length ≤ 32 := fun r hr => (hwritten.lengths r hr).2
  rw [writeHex_eq_ok, ← isFile_iff hlimit]
  constructor
  · intro hfile
    exact ⟨image.chunks, hwritten, hfile⟩
  · rintro ⟨records, hrecords, hfile⟩
    rw [hwritten.unique hrecords]
    exact hfile

end Z80Asm.Image
