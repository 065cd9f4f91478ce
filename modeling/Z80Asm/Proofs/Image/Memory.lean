import Mathlib.Data.Finset.Card
import Z80Asm.Proofs.Image.Runs

/-!
# An image is a memory

Writes of single bytes and of slices, made in any order, are one history of cells: slices overlap,
repeat and wrap around, and all that counts of them is which byte came last at which address. What
is read off an image is said here by the history alone (`Image.Remembers`), and every image holds
what its history says (`Image.writeAll_remembers`).

The specification never mentions the order inside a slice or how an image is stored. It is about a
list of cells and what comes last in it.
-/
set_option autoImplicit false

namespace Z80Asm.Image

/-! ## Histories -/

/-- A call that writes to an image. -/
inductive Write where
  | byte (address : UInt32) (value : UInt8)
  | slice (address : UInt32) (values : List UInt8)
  deriving Repr, Inhabited

/-- The cells that a write sets, in their order. A byte of a slice lies as far behind the first as its
    place in the slice says, and behind the last address comes the first one. -/
def Write.cells : Write → List (UInt32 × UInt8)
  | .byte address value => [(address, value)]
  | .slice address values =>
    values.zipIdx.map fun place => (address + UInt32.ofNat place.2, place.1)

def write (image : Image) : Write → Image
  | .byte address value => image.store address value
  | .slice address values => image.storeBytes address values

/-- Makes writes in their order. -/
def writeAll (image : Image) (writes : List Write) : Image :=
  writes.foldl write image

/-- The last cell of an address in a history. -/
def IsLast (history : List (UInt32 × UInt8)) (a : UInt32) (byte : UInt8) : Prop :=
  ∃ earlier later, history = earlier ++ (a, byte) :: later ∧ ∀ cell ∈ later, cell.1 ≠ a

/-- The lowest and the highest of some addresses. -/
structure Bounds (addresses : List UInt32) (low high : UInt32) : Prop where
  low_mem : low ∈ addresses
  low_le : ∀ a ∈ addresses, low ≤ a
  high_mem : high ∈ addresses
  le_high : ∀ a ∈ addresses, a ≤ high

/-- What is read off an image, said by the cells that were written to it. -/
structure Remembers (image : Image) (history : List (UInt32 × UInt8)) : Prop where
  /-- The last byte of an address wins. -/
  get : ∀ a byte, image.get? a = some byte ↔ IsLast history a byte
  unwritten : ∀ a, image.get? a = none ↔ a ∉ history.map Prod.fst
  size : image.size = (history.map Prod.fst).toFinset.card
  range : ∀ low high, image.range? = some (low, high) ↔ Bounds (history.map Prod.fst) low high
  no_range : image.range? = none ↔ history = []
  /-- The binary reaches from the lowest address to the highest, with zeros in the gaps. -/
  binary : ∀ low high, Bounds (history.map Prod.fst) low high →
    image.toBinary.length = high.toNat - low.toNat + 1 ∧
      ∀ a, low ≤ a → a ≤ high →
        image.toBinary[a.toNat - low.toNat]? = some ((image.get? a).getD 0)
  no_binary : history = [] → image.toBinary = []

/-! ## Writes are stored cell by cell -/

theorem map_zipIdx_eq_cellsFrom (address : UInt32) (values : List UInt8) (n : Nat) :
    (values.zipIdx n).map (fun place => (address + UInt32.ofNat place.2, place.1)) =
      cellsFrom (address + UInt32.ofNat n) values := by
  induction values generalizing n with
  | nil => rfl
  | cons value rest ih =>
    have hnext : address + UInt32.ofNat (n + 1) = address + UInt32.ofNat n + 1 := by
      rw [UInt32.ofNat_add, UInt32.add_assoc]
      rfl
    rw [List.zipIdx_cons, List.map_cons, cellsFrom, ih, hnext]

theorem write_eq_storeCells (image : Image) (w : Write) :
    image.write w = image.storeCells w.cells := by
  cases w with
  | byte address value => rfl
  | slice address values =>
    have hcells : (Write.slice address values).cells = cellsFrom address values := by
      rw [Write.cells, map_zipIdx_eq_cellsFrom]
      exact congrArg (cellsFrom · values) (UInt32.add_zero address)
    rw [write, storeBytes_eq, hcells]

theorem storeCells_append (image : Image) (cells more : List (UInt32 × UInt8)) :
    image.storeCells (cells ++ more) = (image.storeCells cells).storeCells more :=
  List.foldl_append

theorem writeAll_eq_storeCells (image : Image) (writes : List Write) :
    image.writeAll writes = image.storeCells (writes.flatMap Write.cells) := by
  induction writes generalizing image with
  | nil => rfl
  | cons w rest ih =>
    rw [List.flatMap_cons, storeCells_append, ← write_eq_storeCells]
    exact ih _

/-! ## The last cell of an address -/

section

variable {history : List (UInt32 × UInt8)} {a : UInt32} {byte : UInt8}

theorem exists_isLast (h : a ∈ history.map Prod.fst) : ∃ byte, IsLast history a byte := by
  induction history with
  | nil => cases h
  | cons cell rest ih =>
    by_cases hrest : a ∈ rest.map Prod.fst
    · obtain ⟨byte, earlier, later, rfl, hlater⟩ := ih hrest
      exact ⟨byte, cell :: earlier, later, rfl, hlater⟩
    · -- Nothing behind the cell has its address, so the cell itself is the last one.
      obtain ⟨address, byte⟩ := cell
      rcases List.mem_cons.mp h with rfl | hmem
      · refine ⟨byte, [], rest, rfl, fun cell hcell heq => hrest ?_⟩
        exact heq ▸ List.mem_map_of_mem hcell
      · exact absurd hmem hrest

theorem IsLast.mem (h : IsLast history a byte) : a ∈ history.map Prod.fst := by
  obtain ⟨earlier, later, rfl, -⟩ := h
  simp

theorem IsLast.get?_storeCells (h : IsLast history a byte) (image : Image) :
    (image.storeCells history).get? a = some byte := by
  obtain ⟨earlier, later, rfl, hlater⟩ := h
  rw [storeCells_append]
  refine (get?_storeCells_of_forall_ne hlater _).trans ?_
  rw [get?_store, if_pos rfl]

theorem get?_storeCells_eq_none_iff : (empty.storeCells history).get? a = none ↔
    a ∉ history.map Prod.fst := by
  constructor
  · intro hnone hmem
    obtain ⟨byte, hlast⟩ := exists_isLast hmem
    rw [hlast.get?_storeCells] at hnone
    cases hnone
  · intro h
    refine (get?_storeCells_of_forall_ne (fun cell hcell heq => h ?_) _).trans (get?_empty a)
    exact heq ▸ List.mem_map_of_mem hcell

theorem get?_storeCells_eq_some_iff : (empty.storeCells history).get? a = some byte ↔
    IsLast history a byte := by
  refine ⟨fun hsome => ?_, fun h => h.get?_storeCells _⟩
  have hmem : a ∈ history.map Prod.fst := by
    by_contra hnot
    rw [get?_storeCells_eq_none_iff.mpr hnot] at hsome
    cases hsome
  obtain ⟨other, hlast⟩ := exists_isLast hmem
  have heq := (hlast.get?_storeCells empty).symm.trans hsome
  exact Option.some.inj heq ▸ hlast

end

/-! ## What is read off an image -/

theorem mem_cells_iff {image : Image} {a : UInt32} : a ∈ image.cells ↔ image.get? a ≠ none := by
  rw [Std.ExtTreeMap.mem_iff_isSome_getElem?, Option.isSome_iff_ne_none]
  rfl

section

variable {image : Image} {addresses : List UInt32} (h : ∀ a, a ∈ image.cells ↔ a ∈ addresses)

include h

theorem size_eq_card : image.size = addresses.toFinset.card := by
  have hnodup : image.cells.keys.Nodup := by
    refine Std.ExtTreeMap.distinct_keys.imp fun hne heq => hne ?_
    exact Std.LawfulEqCmp.compare_eq_iff_eq.mpr heq
  have hkeys : image.cells.keys.toFinset = addresses.toFinset := by
    ext a
    rw [List.mem_toFinset, List.mem_toFinset, Std.ExtTreeMap.mem_keys, h]
  rw [size, ← Std.ExtTreeMap.length_keys, ← hkeys, List.toFinset_card_of_nodup hnodup]

theorem range?_eq_some_iff {low high : UInt32} :
    image.range? = some (low, high) ↔ Bounds addresses low high := by
  have hends : image.range? = some (low, high) ↔
      image.cells.minKey? = some low ∧ image.cells.maxKey? = some high := by
    rw [range?]
    split
    · next hmin hmax => simp [hmin, hmax]
    · next hnone =>
      constructor
      · intro hsome
        cases hsome
      · rintro ⟨hmin, hmax⟩
        exact (hnone low high hmin hmax).elim
  rw [hends, Std.ExtTreeMap.minKey?_eq_some_iff_mem_and_forall,
    Std.ExtTreeMap.maxKey?_eq_some_iff_mem_and_forall]
  simp only [h, Std.isLE_compare]
  constructor
  · rintro ⟨⟨hlow, hle⟩, hhigh, hge⟩
    exact ⟨hlow, hle, hhigh, hge⟩
  · intro hbounds
    exact ⟨⟨hbounds.low_mem, hbounds.low_le⟩, hbounds.high_mem, hbounds.le_high⟩

theorem range?_eq_none_iff : image.range? = none ↔ addresses = [] := by
  constructor
  · intro hnone
    refine List.eq_nil_iff_forall_not_mem.mpr fun a ha => ?_
    have hmem := (h a).mpr ha
    obtain ⟨low, hlow⟩ := Option.isSome_iff_exists.mp (Std.ExtTreeMap.isSome_minKey?_of_mem hmem)
    obtain ⟨high, hhigh⟩ := Option.isSome_iff_exists.mp (Std.ExtTreeMap.isSome_maxKey?_of_mem hmem)
    rw [range?, hlow, hhigh] at hnone
    cases hnone
  · rintro rfl
    have hempty : image.cells = ∅ :=
      Std.ExtTreeMap.eq_empty_iff_forall_not_mem.mpr fun a ha => List.not_mem_nil ((h a).mp ha)
    rw [range?, hempty, Std.ExtTreeMap.minKey?_empty]

end

section

variable {image : Image} {low high : UInt32} (h : image.range? = some (low, high))

include h

theorem length_toBinary : image.toBinary.length = high.toNat - low.toNat + 1 := by
  rw [toBinary, h]
  simp

/-- At its distance from the lowest address the binary holds the byte of an address. -/
theorem getElem?_toBinary {a : UInt32} (hlow : low ≤ a) (hhigh : a ≤ high) :
    image.toBinary[a.toNat - low.toNat]? = some ((image.get? a).getD 0) := by
  rw [UInt32.le_iff_toNat_le] at hlow hhigh
  have hplace : low + UInt32.ofNat (a.toNat - low.toNat) = a := by
    apply UInt32.toNat_inj.mp
    have := a.toNat_lt
    rw [UInt32.toNat_add, UInt32.toNat_ofNat']
    omega
  rw [toBinary, h]
  simp only [List.getElem?_map]
  rw [List.getElem?_range (by omega), Option.map_some, hplace]

end

theorem remembers_storeCells (history : List (UInt32 × UInt8)) :
    (empty.storeCells history).Remembers history := by
  have hmem : ∀ a, a ∈ (empty.storeCells history).cells ↔ a ∈ history.map Prod.fst := by
    intro a
    rw [mem_cells_iff, ne_eq, get?_storeCells_eq_none_iff, Decidable.not_not]
  refine ⟨fun a byte => get?_storeCells_eq_some_iff, fun a => get?_storeCells_eq_none_iff,
    size_eq_card hmem, fun low high => range?_eq_some_iff hmem, ?_, ?_, ?_⟩
  · rw [range?_eq_none_iff hmem, List.map_eq_nil_iff]
  · intro low high hbounds
    have hrange := (range?_eq_some_iff hmem).mpr hbounds
    exact ⟨length_toBinary hrange, fun a => getElem?_toBinary hrange⟩
  · intro hnil
    have hnone := (range?_eq_none_iff hmem).mpr (List.map_eq_nil_iff.mpr hnil)
    rw [toBinary, hnone]

/-- **The last write wins.** After any writes to an empty image, an address has the last byte that was
    written to it, the size is the number of different addresses written, the range goes from the
    lowest of them to the highest, and the binary holds the bytes in between with zeros in the gaps. -/
theorem writeAll_remembers (writes : List Write) :
    (empty.writeAll writes).Remembers (writes.flatMap Write.cells) := by
  rw [writeAll_eq_storeCells]
  exact remembers_storeCells _

end Z80Asm.Image
