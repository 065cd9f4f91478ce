import Mathlib.Data.List.Forall2
import Z80Asm.Proofs.Cpu.Ranges
import Z80Asm.Proofs.Expr.Shape
import Z80Asm.Proofs.Program.Emission

/-!
# What data statements store

A `DB`, `DW` or `DD` line is planned before its items have values, and generated when they have. Each
time it is decided again which items are strings. In one arena the two decisions agree, so the check
that the planned number of bytes was generated never fails there: a data statement is generated if and
only if each of its items is a string of a `DB` line or a number in range, and then it stores
the bytes of its items one behind the other (`data_statement_stores`).

In two arenas the decisions may differ, since what is a string can depend on an address;
`Expr/Shape` says when it does not. If the numbers of bytes differ then, generating fails.
-/
set_option autoImplicit false

namespace Z80Asm

open Success

/-! ## Numbers -/

/-- The number that bytes stand for, the least significant first. -/
def ofLittleEndian : List UInt8 → Nat
  | [] => 0
  | byte :: rest => byte.toNat + 0x100 * ofLittleEndian rest

namespace DataWidth

/-- How many numbers have codes of their own in a width. -/
def codes : DataWidth → Int
  | byte => 0x100
  | word => 0x10000
  | long => 0x100000000

/-- The numbers of a width, read as signed or as unsigned. -/
def Holds (width : DataWidth) (v : Int) : Prop :=
  -(width.codes / 2) ≤ v ∧ v < width.codes

theorem fits_iff (width : DataWidth) (v : Int64) : width.fits v = true ↔ width.Holds v.toInt := by
  cases width with
  | byte =>
    show Int64.within (-0x80) 0xFF v = true ↔ -0x80 ≤ v.toInt ∧ v.toInt < 0x100
    rw [Cpu.within_iff, show (-0x80 : Int64).toInt = -0x80 from rfl,
      show (0xFF : Int64).toInt = 0xFF from rfl]
    omega
  | word =>
    show Int64.within (-0x8000) 0xFFFF v = true ↔ -0x8000 ≤ v.toInt ∧ v.toInt < 0x10000
    rw [Cpu.within_iff, show (-0x8000 : Int64).toInt = -0x8000 from rfl,
      show (0xFFFF : Int64).toInt = 0xFFFF from rfl]
    omega
  | long =>
    show Int64.within (-0x80000000) 0xFFFFFFFF v = true ↔
      -0x80000000 ≤ v.toInt ∧ v.toInt < 0x100000000
    rw [Cpu.within_iff, show (-0x80000000 : Int64).toInt = -0x80000000 from rfl,
      show (0xFFFFFFFF : Int64).toInt = 0xFFFFFFFF from rfl]
    omega

theorem length_littleEndian (count : Nat) (v : Int64) : (littleEndian count v).length = count := by
  induction count generalizing v with
  | zero => rfl
  | succ count ih => rw [littleEndian, List.length_cons, ih]

theorem ofLittleEndian_littleEndian (width : DataWidth) (v : Int64) :
    (ofLittleEndian (littleEndian width.bytes v) : Int) = v.toInt % width.codes := by
  have hfirst := toNat_lowByte v
  have hsecond := toNat_lowByte (v >>> 8)
  have hthird := toNat_lowByte (v >>> 8 >>> 8)
  have hfourth := toNat_lowByte (v >>> 8 >>> 8 >>> 8)
  simp only [toInt_shiftRight_eight] at hsecond hthird hfourth
  cases width with
  | byte =>
    simp only [bytes, littleEndian, ofLittleEndian, codes]
    omega
  | word =>
    simp only [bytes, littleEndian, ofLittleEndian, codes]
    omega
  | long =>
    simp only [bytes, littleEndian, ofLittleEndian, codes]
    omega

end DataWidth

/-! ## Items -/

/-- The bytes of an item: those of a string where units are bytes, else those of a number in
    range. -/
inductive DataWidth.Stores (width : DataWidth) (s : Scopes) (e : Expr) : List UInt8 → Prop
  | string {text : List UInt8} (hwidth : width = .byte) (htext : e.resolve s = .ok (.str text)) :
      Stores width s e text
  | number {v : Int64} {bytes : List UInt8}
      (hnumber : ¬(width = .byte ∧ ∃ text, e.resolve s = .ok (.str text)))
      (hvalue : e.integer s = .ok v) (hrange : width.Holds v.toInt)
      (hlength : bytes.length = width.bytes)
      (hbytes : (ofLittleEndian bytes : Int) = v.toInt % width.codes) : Stores width s e bytes

/-- Whether there are bytes for an item: it is a string where units are bytes, or a number in range. A
    string in parentheses is no string here. -/
def DataWidth.Takes (width : DataWidth) (s : Scopes) (e : Expr) : Prop :=
  (width = .byte ∧ ∃ text, e.resolve s = .ok (.str text)) ∨
    ∃ v, e.integer s = .ok v ∧ width.Holds v.toInt

section

variable {width : DataWidth} {s : Scopes} {e : Expr} {bytes : List UInt8}

theorem Expr.isString_iff : e.isString s = true ↔ ∃ text, e.resolve s = .ok (.str text) := by
  unfold Expr.isString
  constructor
  · intro h
    split at h
    · next text htext => exact ⟨text, htext⟩
    · cases h
  · rintro ⟨text, htext⟩
    rw [htext]

theorem Expr.string_of_resolve {text : List UInt8} (h : e.resolve s = .ok (.str text)) :
    e.string s = .ok text := by
  simp only [Expr.string, resolveUngrouped, h]
  rfl

/-- Planning and generating see the same strings. -/
theorem DataWidth.itemSize_string {text : List UInt8} (h : e.resolve s = .ok (.str text)) :
    DataWidth.byte.itemSize s e = UInt32.ofNat text.length := by
  simp only [itemSize, h, List.size_toArray]

theorem DataWidth.itemSize_number (h : ¬(width = .byte ∧ ∃ text, e.resolve s = .ok (.str text))) :
    width.itemSize s e = UInt32.ofNat width.bytes := by
  unfold itemSize
  split
  · next text htext => exact absurd ⟨rfl, text, htext⟩ h
  · rfl

theorem DataWidth.stores_of_itemBytes (h : width.itemBytes s e = .ok bytes) :
    width.Stores s e bytes ∧ UInt32.ofNat bytes.length = width.itemSize s e := by
  unfold itemBytes at h
  by_cases hstring : width = .byte ∧ e.isString s = true
  · rw [if_pos hstring] at h
    obtain ⟨rfl, hstring⟩ := hstring
    obtain ⟨text, htext⟩ := Expr.isString_iff.mp hstring
    cases (Expr.string_of_resolve htext).symm.trans h
    exact ⟨.string rfl htext, (itemSize_string htext).symm⟩
  · rw [if_neg hstring] at h
    rw [Expr.isString_iff] at hstring
    obtain ⟨v, hvalue, h⟩ := except_bind_eq_ok.mp h
    split at h
    · next hfits =>
      cases h
      rw [itemSize_number hstring, length_littleEndian]
      exact ⟨.number hstring hvalue ((width.fits_iff v).mp hfits) (length_littleEndian _ v)
        (width.ofLittleEndian_littleEndian v), rfl⟩
    · cases h

theorem DataWidth.itemBytes_iff : (∃ bytes, width.itemBytes s e = .ok bytes) ↔ width.Takes s e := by
  constructor
  · rintro ⟨bytes, h⟩
    cases (stores_of_itemBytes h).1 with
    | string hwidth htext => exact .inl ⟨hwidth, bytes, htext⟩
    | number _ hvalue hrange _ _ => exact .inr ⟨_, hvalue, hrange⟩
  · intro h
    unfold itemBytes
    by_cases hstring : width = .byte ∧ e.isString s = true
    · rw [if_pos hstring]
      obtain ⟨text, htext⟩ := Expr.isString_iff.mp hstring.2
      exact ⟨text, Expr.string_of_resolve htext⟩
    · rw [if_neg hstring]
      rw [Expr.isString_iff] at hstring
      obtain ⟨v, hvalue, hrange⟩ := h.resolve_left hstring
      refine ⟨littleEndian width.bytes v, except_bind_eq_ok.mpr ⟨v, hvalue, ?_⟩⟩
      rw [if_pos ((width.fits_iff v).mpr hrange)]
      rfl

end

/-! ## Statements -/

theorem mapM_eq_ok_iff {α β ε : Type} {f : α → Except ε β} {as : List α} {bs : List β} :
    as.mapM f = .ok bs ↔ List.Forall₂ (fun a b => f a = .ok b) as bs := by
  induction as generalizing bs with
  | nil =>
    rw [List.mapM_nil, except_pure_eq_ok, List.forall₂_nil_left_iff]
    exact eq_comm
  | cons a rest ih =>
    simp only [List.mapM_cons, except_bind_eq_ok, except_pure_eq_ok, ih, List.forall₂_cons_left_iff]
    constructor
    · rintro ⟨b, hb, bs, hbs, rfl⟩
      exact ⟨b, bs, hb, hbs, rfl⟩
    · rintro ⟨b, bs, hb, hbs, rfl⟩
      exact ⟨b, hb, bs, hbs, rfl⟩

theorem exists_mapM_iff {α β ε : Type} {f : α → Except ε β} {as : List α} :
    (∃ bs, as.mapM f = .ok bs) ↔ ∀ a ∈ as, ∃ b, f a = .ok b := by
  induction as with
  | nil => simp
  | cons a rest ih =>
    rw [List.forall_mem_cons, ← ih]
    simp only [List.mapM_cons, except_bind_eq_ok, except_pure_eq_ok]
    constructor
    · rintro ⟨_, b, hb, bs, hbs, -⟩
      exact ⟨⟨b, hb⟩, bs, hbs⟩
    · rintro ⟨⟨b, hb⟩, bs, hbs⟩
      exact ⟨b :: bs, b, hb, bs, hbs, rfl⟩

/-- The number of bytes that is planned for items. -/
def DataWidth.plannedSize (width : DataWidth) (s : Scopes) (items : List Expr) : UInt32 :=
  items.foldr (fun item size => width.itemSize s item + size) 0

section

variable {width : DataWidth} {s : Scopes} {items : List Expr}

theorem DataWidth.ofNat_length_flatten {pieces : List (List UInt8)}
    (h : List.Forall₂ (fun item bytes => width.itemBytes s item = .ok bytes) items pieces) :
    UInt32.ofNat pieces.flatten.length = width.plannedSize s items := by
  induction h with
  | nil => rfl
  | cons hitem _ ih =>
    rw [List.flatten_cons, List.length_append, UInt32.ofNat_add, ih, (stores_of_itemBytes hitem).2]
    rfl

/-- With the planned size nothing more is asked of the items than that each has bytes. -/
theorem dataBytes_planned {bytes : List UInt8} :
    dataBytes s width items (width.plannedSize s items) = .ok bytes ↔
      ∃ pieces, items.mapM (width.itemBytes s) = .ok pieces ∧ bytes = pieces.flatten := by
  simp only [dataBytes, except_bind_eq_ok]
  refine exists_congr fun pieces => and_congr_right fun hpieces => ?_
  have hsize := DataWidth.ofNat_length_flatten (mapM_eq_ok_iff.mp hpieces)
  rw [hsize, bne_self_eq_false, if_neg Bool.false_ne_true, except_pure_eq_ok]
  exact eq_comm

theorem exists_dataBytes_planned_iff :
    (∃ bytes, dataBytes s width items (width.plannedSize s items) = .ok bytes) ↔
      ∀ e ∈ items, width.Takes s e := by
  simp only [dataBytes_planned, ← DataWidth.itemBytes_iff, ← exists_mapM_iff]
  constructor
  · rintro ⟨_, pieces, hpieces, -⟩
    exact ⟨pieces, hpieces⟩
  · rintro ⟨pieces, hpieces⟩
    exact ⟨_, pieces, hpieces, rfl⟩

end

/-- What generating a data statement does to the output: it puts these bytes behind each other from
    an address on, as many as were planned.

    Sizes have 32 bits, and so has the number of bytes when it is compared with the size. A
    statement with 4 GiB of strings has the size 0 and is generated nevertheless. -/
structure Output.Gains (out out' : Output) (address : UInt32) (size : UInt32) (bytes : List UInt8) :
    Prop where
  stored : out' = { out with image := out.image.storeBytes address bytes }
  planned : UInt32.ofNat bytes.length = size
  /-- The size is the number of bytes as long as that has 32 bits, and not from there on. -/
  exactly : bytes.length = size.toNat ↔ bytes.length < 0x100000000
  holds : bytes.length ≤ 0x100000000 → ∀ a, out'.image.get? a =
    (bytes[(a - address).toNat]?).or (out.image.get? a)

/-- To store as many bytes as planned is to gain them. -/
theorem Output.gains_storeBytes (out : Output) (address : UInt32) {size : UInt32}
    {bytes : List UInt8} (hplanned : UInt32.ofNat bytes.length = size) :
    out.Gains { out with image := out.image.storeBytes address bytes } address size bytes where
  stored := rfl
  planned := hplanned
  exactly := by
    constructor
    · intro hsize
      rw [hsize]
      exact UInt32.toNat_lt _
    · intro hshort
      rw [← hplanned, UInt32.toNat_ofNat_of_lt' hshort]
  holds hshort a := Image.get?_storeBytes hshort out.image address a

/-- **A data statement that is planned and generated in one arena stores exactly its items**, or fails
    and stores nothing. Its size is the number of bytes that it stores, modulo 4 GiB.

    An item that cannot be evaluated has no bytes. Among these are items whose evaluation does not end
    where nothing bounds it, see `Terminates`. -/
theorem data_statement_stores {files : FileAccess} {s : Scopes} {item : Item} {width : DataWidth}
    (hop : item.line.operation = some (.data width)) :
    ∃ size, item.plan files s = .ok (.code (.data width item.line.argumentList size)) ∧
      ∀ (address : UInt32) (out : Output),
        ((∃ out', (Code.data width item.line.argumentList size).emit s item.line address out =
            .ok () out') ↔ ∀ e ∈ item.line.argumentList, width.Takes s e) ∧
        (∀ out', (Code.data width item.line.argumentList size).emit s item.line address out =
            .ok () out' →
          ∃ pieces, List.Forall₂ (width.Stores s) item.line.argumentList pieces ∧
            out.Gains out' address size pieces.flatten) ∧
        ∀ failure out', (Code.data width item.line.argumentList size).emit s item.line address out =
          .error failure out' → out' = out := by
  refine ⟨width.plannedSize s item.line.argumentList, plan_data hop, fun address out => ?_⟩
  generalize item.line.argumentList = items
  have hemit : (Code.data width items (width.plannedSize s items)).emit s item.line address =
      Emit.ofExcept (dataBytes s width items (width.plannedSize s items)) >>=
        Emit.storeBytes address := rfl
  rw [hemit]
  cases hbytes : dataBytes s width items (width.plannedSize s items) with
  | ok bytes =>
    refine ⟨⟨fun _ => exists_dataBytes_planned_iff.mp ⟨bytes, hbytes⟩, fun _ => ⟨_, rfl⟩⟩, ?_, ?_⟩
    · intro out' h
      cases h
      obtain ⟨pieces, hpieces, rfl⟩ := dataBytes_planned.mp hbytes
      have hall := mapM_eq_ok_iff.mp hpieces
      exact ⟨pieces, hall.imp fun _ _ h => (DataWidth.stores_of_itemBytes h).1,
        out.gains_storeBytes address (DataWidth.ofNat_length_flatten hall)⟩
    · intro failure out' h
      cases h
  | error cause =>
    refine ⟨⟨?_, ?_⟩, ?_, ?_⟩
    · rintro ⟨out', h⟩
      cases h
    · intro htakes
      obtain ⟨bytes, h⟩ := exists_dataBytes_planned_iff.mpr htakes
      cases hbytes.symm.trans h
    · intro out' h
      cases h
    · intro failure out' h
      cases h
      rfl

/-- An arena in which `x` is a string of two bytes, and the line `DB x,-1` in it. -/
def arenaOfString : Scopes where
  nodes := #[{ parent := none, bindings := [⟨"x", .str #[0x61, 0x62], 1⟩] }]
  serial := 1

def stringAndNumber : Item :=
  .plain
    { label := none
      mnemonic := some "db"
      arguments := some (.seq [.ident "x" ⟨0⟩, .int (-1)])
      comment := none
      position := default
      scope := ⟨0⟩
      operation := some (.data .byte) }
    .instruction

/-- A string behind a name and a negative number take three bytes. -/
theorem data_statement_stores_string : ∃ out' pieces,
    stringAndNumber.plan ({} : FileSystem) arenaOfString =
      .ok (.code (.data .byte stringAndNumber.line.argumentList 3)) ∧
    (Code.data .byte stringAndNumber.line.argumentList 3).emit arenaOfString stringAndNumber.line 0x100
      {} = .ok () out' ∧
    List.Forall₂ (DataWidth.byte.Stores arenaOfString) stringAndNumber.line.argumentList pieces ∧
    Output.Gains {} out' 0x100 3 pieces.flatten := by
  obtain ⟨size, hplan, hemit⟩ :=
    @data_statement_stores ({} : FileSystem) arenaOfString stringAndNumber .byte rfl
  have hsize : size = 3 := by
    have hplanned : stringAndNumber.plan ({} : FileSystem) arenaOfString =
        .ok (.code (.data .byte stringAndNumber.line.argumentList 3)) := rfl
    cases hplan.symm.trans hplanned
    rfl
  subst hsize
  obtain ⟨hiff, hstores, -⟩ := hemit 0x100 {}
  have htakes : ∀ e ∈ stringAndNumber.line.argumentList, DataWidth.byte.Takes arenaOfString e := by
    intro e he
    rcases List.mem_pair.mp he with rfl | rfl
    · exact .inl ⟨rfl, #[0x61, 0x62], rfl⟩
    · exact .inr ⟨-1, rfl, by decide, by decide⟩
  obtain ⟨out', hout'⟩ := hiff.mpr htakes
  obtain ⟨pieces, hpieces, hgains⟩ := hstores out' hout'
  exact ⟨out', pieces, hplan, hout', hpieces, hgains⟩

end Z80Asm
