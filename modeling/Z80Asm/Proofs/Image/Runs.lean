import Z80Asm.Image.Hex
import Z80Asm.Proofs.Image.Stores

/-!
# Runs of an image and their pieces

The writer groups the cells of an image into runs and cuts the runs into records. No cell is lost or
made on the way (`chunks_cells`), so storing the pieces into an empty image gives the image back
(`storeChunks_chunks`).

What the writer takes for runs are the maximal stretches of addresses that have a byte
(`isRun_iff`), and the pieces begin at every 32nd address of a run (`exists_chunk_iff`).

Runs are given by their first and last address. The last one is part of the run, since the address
behind it need not exist.
-/
set_option autoImplicit false

namespace Z80Asm.Image

/-! ## Cells -/

/-- The cells of bytes at consecutive addresses. -/
def cellsFrom (address : UInt32) : List UInt8 → List (UInt32 × UInt8)
  | [] => []
  | byte :: rest => (address, byte) :: cellsFrom (address + 1) rest

namespace Chunk

def cells (chunk : Chunk) : List (UInt32 × UInt8) :=
  cellsFrom chunk.address chunk.bytes

/-- The address behind the last byte, which may be one too large for an address. -/
def stop (chunk : Chunk) : Nat :=
  chunk.address.toNat + chunk.bytes.length

end Chunk

theorem cellsFrom_append (address : UInt32) (front back : List UInt8) :
    cellsFrom address (front ++ back) =
      cellsFrom address front ++ cellsFrom (address + UInt32.ofNat front.length) back := by
  induction front generalizing address with
  | nil => simp [cellsFrom]
  | cons byte rest ih =>
    have hnext : address + 1 + UInt32.ofNat rest.length = address + UInt32.ofNat (rest.length + 1) := by
      rw [UInt32.ofNat_add, UInt32.add_assoc, UInt32.add_comm 1]
      rfl
    simp only [List.cons_append, cellsFrom, ih, hnext, List.length_cons]

/-- Bytes that do not run past the last address have the addresses from the first on. -/
theorem exists_mem_cellsFrom {bytes : List UInt8} {address a : UInt32}
    (hbound : address.toNat + bytes.length ≤ 0x100000000) :
    (∃ byte, (a, byte) ∈ cellsFrom address bytes) ↔
      address.toNat ≤ a.toNat ∧ a.toNat < address.toNat + bytes.length := by
  induction bytes generalizing address with
  | nil => simp [cellsFrom]
  | cons byte rest ih =>
    simp only [List.length_cons] at hbound ⊢
    have hhead : (∃ b, (a, b) ∈ cellsFrom address (byte :: rest)) ↔
        a = address ∨ ∃ b, (a, b) ∈ cellsFrom (address + 1) rest := by
      simp only [cellsFrom, List.mem_cons, Prod.mk.injEq]
      constructor
      · rintro ⟨b, ⟨rfl, -⟩ | hb⟩
        · exact .inl rfl
        · exact .inr ⟨b, hb⟩
      · rintro (rfl | ⟨b, hb⟩)
        · exact ⟨byte, .inl ⟨rfl, rfl⟩⟩
        · exact ⟨b, .inr hb⟩
    rw [hhead, ← UInt32.toNat_inj]
    by_cases hrest : rest = []
    · subst hrest
      simp only [cellsFrom, List.not_mem_nil, exists_false, or_false, List.length_nil]
      omega
    · -- Bytes follow, so the next address does not wrap around.
      have hpos := List.length_pos_iff.mpr hrest
      have hsucc : (address + 1).toNat = address.toNat + 1 := by
        rw [UInt32.toNat_add, show (1 : UInt32).toNat = 1 from rfl]
        omega
      rw [ih (by omega), hsucc]
      omega

/-! ## Storing cells -/

/-- Stores cells in their order. -/
def storeCells (image : Image) (cells : List (UInt32 × UInt8)) : Image :=
  cells.foldl (fun image cell => image.store cell.1 cell.2) image

/-- Stores the bytes of chunks in their order. -/
def storeChunks (image : Image) (chunks : List Chunk) : Image :=
  chunks.foldl (fun image chunk => image.storeBytes chunk.address chunk.bytes) image

theorem storeBytes_eq (image : Image) (address : UInt32) (bytes : List UInt8) :
    image.storeBytes address bytes = image.storeCells (cellsFrom address bytes) := by
  induction bytes generalizing image address with
  | nil => rfl
  | cons byte rest ih => exact ih _ _

theorem storeChunks_eq (image : Image) (chunks : List Chunk) :
    image.storeChunks chunks = image.storeCells (chunks.flatMap Chunk.cells) := by
  induction chunks generalizing image with
  | nil => rfl
  | cons chunk rest ih =>
    rw [List.flatMap_cons, storeCells, List.foldl_append, ← storeCells, ← storeCells]
    exact (ih _).trans (congrArg (storeCells · _) (storeBytes_eq _ _ _))

theorem get?_storeCells_of_forall_ne {cells : List (UInt32 × UInt8)} {a : UInt32}
    (h : ∀ cell ∈ cells, cell.1 ≠ a) (image : Image) :
    (image.storeCells cells).get? a = image.get? a := by
  induction cells generalizing image with
  | nil => rfl
  | cons cell rest ih =>
    obtain ⟨hcell, hrest⟩ := List.forall_mem_cons.mp h
    exact (ih hrest _).trans (by rw [get?_store, if_neg hcell])

theorem get?_storeCells_of_mem {cells : List (UInt32 × UInt8)}
    (hdistinct : cells.Pairwise fun cell cell' => cell.1 ≠ cell'.1) {a : UInt32} {byte : UInt8}
    (h : (a, byte) ∈ cells) (image : Image) :
    (image.storeCells cells).get? a = some byte := by
  induction cells generalizing image with
  | nil => cases h
  | cons cell rest ih =>
    obtain ⟨hcell, hrest⟩ := List.pairwise_cons.mp hdistinct
    rcases List.mem_cons.mp h with rfl | hmem
    · have hlater : ∀ cell' ∈ rest, cell'.1 ≠ a := fun cell' h' => (hcell cell' h').symm
      exact (get?_storeCells_of_forall_ne hlater _).trans (by rw [get?_store, if_pos rfl])
    · exact ih hrest hmem _

theorem mem_toList {image : Image} {a : UInt32} {byte : UInt8} :
    (a, byte) ∈ image.toList ↔ image.get? a = some byte :=
  Std.ExtTreeMap.mem_toList_iff_getElem?_eq_some

/-- The cells of an image are in the order of their addresses. -/
theorem toList_sorted (image : Image) : image.toList.Pairwise fun cell cell' => cell.1 < cell'.1 := by
  have h := Std.ExtTreeMap.ordered_keys_toList (t := image.cells)
  exact h.imp fun hlt => Std.compare_eq_lt.mp hlt

theorem ext_get? {image image' : Image} (h : ∀ a, image.get? a = image'.get? a) : image = image' := by
  cases image with
  | mk cells =>
    cases image' with
    | mk cells' => exact congrArg Image.mk (Std.ExtTreeMap.ext_getElem? fun a => h a)

/-- Storing the cells of an image into an empty one gives the image. -/
theorem storeCells_toList (image : Image) : empty.storeCells image.toList = image := by
  apply ext_get?
  intro a
  cases hget : image.get? a with
  | some byte =>
    have hdistinct : image.toList.Pairwise fun cell cell' => cell.1 ≠ cell'.1 :=
      (toList_sorted image).imp fun hlt => UInt32.ne_of_lt hlt
    exact get?_storeCells_of_mem hdistinct (mem_toList.mpr hget) _
  | none =>
    refine (get?_storeCells_of_forall_ne ?_ _).trans (get?_empty a)
    rintro ⟨a', byte⟩ hmem rfl
    rw [mem_toList.mp hmem] at hget
    cases hget

/-! ## Runs and pieces keep the cells -/

theorem extendRuns_cells (cell : UInt32 × UInt8) (rs : List Chunk) :
    (extendRuns cell rs).flatMap Chunk.cells = cell :: rs.flatMap Chunk.cells := by
  cases rs with
  | nil => rfl
  | cons run later =>
    rw [extendRuns]
    split
    next hnext =>
      have hsucc : cell.1 + 1 = run.address := by
        rw [← UInt32.toNat_inj, UInt32.toNat_add, ← hnext, show (1 : UInt32).toNat = 1 from rfl]
        have := run.address.toNat_lt
        omega
      simp only [List.flatMap_cons, Chunk.cells, cellsFrom, hsucc, List.cons_append]
    next => rfl

theorem runs_cells (cells : List (UInt32 × UInt8)) :
    (runs cells).flatMap Chunk.cells = cells := by
  induction cells with
  | nil => rfl
  | cons cell rest ih => exact (extendRuns_cells cell (runs rest)).trans (by rw [ih])

theorem chunksFrom_nil (fuel : Nat) (address : UInt32) : chunksFrom fuel address [] = [] := by
  cases fuel with
  | zero => rfl
  | succ fuel => rfl

theorem chunksFrom_cells {fuel : Nat} {bytes : List UInt8} (hfuel : bytes.length ≤ fuel)
    (address : UInt32) :
    (chunksFrom fuel address bytes).flatMap Chunk.cells = cellsFrom address bytes := by
  induction fuel generalizing address bytes with
  | zero => rw [List.eq_nil_of_length_eq_zero (Nat.le_zero.mp hfuel)]; rfl
  | succ fuel ih =>
    unfold chunksFrom
    split
    next hnil => rw [List.isEmpty_iff.mp hnil]; rfl
    next hcons =>
      have hpos := List.length_pos_iff.mpr (mt List.isEmpty_iff.mpr hcons)
      have hdrop : (bytes.drop recordLimit).length ≤ fuel := by
        rw [List.length_drop]
        simp only [recordLimit]
        omega
      rw [List.flatMap_cons, ih hdrop, Chunk.cells]
      by_cases hshort : bytes.length ≤ recordLimit
      · rw [List.take_of_length_le hshort, List.drop_eq_nil_of_le hshort]
        exact List.append_nil _
      · have hlen : (bytes.take recordLimit).length = recordLimit :=
          List.length_take_of_le (Nat.le_of_not_le hshort)
        have happend := cellsFrom_append address (bytes.take recordLimit) (bytes.drop recordLimit)
        rw [List.take_append_drop, hlen] at happend
        exact happend.symm

theorem chunks_cells (image : Image) : image.chunks.flatMap Chunk.cells = image.toList := by
  have hsplit : ∀ run : Chunk, run.split.flatMap Chunk.cells = run.cells :=
    fun run => chunksFrom_cells (Nat.le_refl _) _
  rw [chunks, List.flatMap_assoc]
  simp only [hsplit]
  exact runs_cells _

/-- **The pieces of an image hold all of it.** -/
theorem storeChunks_chunks (image : Image) : empty.storeChunks image.chunks = image := by
  rw [storeChunks_eq, chunks_cells, storeCells_toList]

/-! ## Runs are maximal -/

/-- A maximal run of addresses that have a byte: every address from the first to the last has one,
    and the addresses next to them have none. -/
structure IsRun (image : Image) (first last : UInt32) : Prop where
  le : first ≤ last
  full : ∀ a, first ≤ a → a ≤ last → (image.get? a).isSome
  before : ∀ a, a.toNat + 1 = first.toNat → image.get? a = none
  after : ∀ a, last.toNat + 1 = a.toNat → image.get? a = none

/-- Chunks with a gap between each and the next. -/
structure Separate (rs : List Chunk) : Prop where
  nonempty : ∀ run ∈ rs, run.bytes ≠ []
  bounded : ∀ run ∈ rs, run.stop ≤ 0x100000000
  apart : rs.Pairwise fun run later => run.stop < later.address.toNat

/-- The first address of a chunk is one of its cells. -/
theorem Chunk.exists_mem_cells {run : Chunk} (h : run.bytes ≠ []) :
    ∃ byte, (run.address, byte) ∈ run.cells := by
  obtain ⟨byte, rest, hbytes⟩ := List.exists_cons_of_ne_nil h
  refine ⟨byte, ?_⟩
  rw [Chunk.cells, hbytes]
  exact List.mem_cons_self

theorem Separate.extendRuns {rs : List Chunk} (h : Separate rs) {cell : UInt32 × UInt8}
    (hbelow : ∀ run ∈ rs, cell.1.toNat < run.address.toNat) : Separate (extendRuns cell rs) := by
  have hcell := cell.1.toNat_lt
  have hsingle : (Chunk.mk cell.1 [cell.2]).stop = cell.1.toNat + 1 := rfl
  cases rs with
  | nil =>
    refine ⟨?_, ?_, List.pairwise_singleton _ _⟩
    · rintro run hrun
      rw [List.mem_singleton.mp hrun]
      exact List.cons_ne_nil _ _
    · rintro run hrun
      rw [List.mem_singleton.mp hrun, hsingle]
      omega
  | cons run later =>
    obtain ⟨hnonempty, hlaterNonempty⟩ := List.forall_mem_cons.mp h.nonempty
    obtain ⟨hbounded, hlaterBounded⟩ := List.forall_mem_cons.mp h.bounded
    obtain ⟨hapart, hlaterApart⟩ := List.pairwise_cons.mp h.apart
    rw [Image.extendRuns]
    split
    next hnext =>
      -- The run becomes longer at its front and ends where it did.
      have hstop : (Chunk.mk cell.1 (cell.2 :: run.bytes)).stop = run.stop := by
        simp only [Chunk.stop, List.length_cons]
        omega
      refine ⟨?_, ?_, List.pairwise_cons.mpr ⟨?_, hlaterApart⟩⟩
      · exact List.forall_mem_cons.mpr ⟨List.cons_ne_nil _ _, hlaterNonempty⟩
      · exact List.forall_mem_cons.mpr ⟨by rw [hstop]; exact hbounded, hlaterBounded⟩
      · intro other hother
        rw [hstop]
        exact hapart other hother
    next hgap =>
      refine ⟨?_, ?_, List.pairwise_cons.mpr ⟨?_, h.apart⟩⟩
      · exact List.forall_mem_cons.mpr ⟨List.cons_ne_nil _ _, h.nonempty⟩
      · exact List.forall_mem_cons.mpr ⟨by rw [hsingle]; omega, h.bounded⟩
      · intro other hother
        rw [hsingle]
        have hrun := hbelow run List.mem_cons_self
        rcases List.mem_cons.mp hother with rfl | hother
        · omega
        · have := hapart other hother
          simp only [Chunk.stop] at this
          omega

theorem separate_runs {cells : List (UInt32 × UInt8)}
    (hsorted : cells.Pairwise fun cell cell' => cell.1 < cell'.1) : Separate (runs cells) := by
  induction cells with
  | nil => exact ⟨by simp [runs], by simp [runs], List.Pairwise.nil⟩
  | cons cell rest ih =>
    obtain ⟨hcell, hrest⟩ := List.pairwise_cons.mp hsorted
    refine (ih hrest).extendRuns fun run hrun => ?_
    obtain ⟨byte, hbyte⟩ := Chunk.exists_mem_cells ((ih hrest).nonempty run hrun)
    have hmem : (run.address, byte) ∈ rest := by
      rw [← runs_cells rest]
      exact List.mem_flatMap.mpr ⟨run, hrun, hbyte⟩
    exact UInt32.lt_iff_toNat_lt.mp (hcell _ hmem)

/-- An address has a byte if it is inside a run. -/
theorem isSome_get?_iff {image : Image} {a : UInt32} :
    (image.get? a).isSome ↔
      ∃ run ∈ runs image.toList, run.address.toNat ≤ a.toNat ∧ a.toNat < run.stop := by
  have hbounded := (separate_runs (toList_sorted image)).bounded
  have hmem : (image.get? a).isSome ↔ ∃ byte, (a, byte) ∈ image.toList := by
    simp only [mem_toList, Option.isSome_iff_exists]
  have hcells := runs_cells image.toList
  rw [hmem]
  constructor
  · rintro ⟨byte, hbyte⟩
    rw [← hcells] at hbyte
    obtain ⟨run, hrun, hcell⟩ := List.mem_flatMap.mp hbyte
    exact ⟨run, hrun, (exists_mem_cellsFrom (hbounded run hrun)).mp ⟨byte, hcell⟩⟩
  · rintro ⟨run, hrun, hinside⟩
    obtain ⟨byte, hcell⟩ := (exists_mem_cellsFrom (hbounded run hrun)).mpr hinside
    exact ⟨byte, hcells ▸ List.mem_flatMap.mpr ⟨run, hrun, hcell⟩⟩

/-- Of two runs, one ends before the address in front of the other. -/
theorem Separate.eq_or_apart {rs : List Chunk} (h : Separate rs) {run run' : Chunk}
    (hrun : run ∈ rs) (hrun' : run' ∈ rs) :
    run = run' ∨ run.stop < run'.address.toNat ∨ run'.stop < run.address.toNat := by
  have happart := h.apart
  clear h
  induction rs with
  | nil => cases hrun
  | cons first later ih =>
    obtain ⟨hfirst, hlater⟩ := List.pairwise_cons.mp happart
    rcases List.mem_cons.mp hrun with rfl | hmem
    · rcases List.mem_cons.mp hrun' with rfl | hmem'
      · exact .inl rfl
      · exact .inr (.inl (hfirst run' hmem'))
    · rcases List.mem_cons.mp hrun' with rfl | hmem'
      · exact .inr (.inr (hfirst run hmem))
      · exact ih hmem hmem' hlater

/-- What is inside a run or just outside of it is inside no other. -/
theorem get?_eq_none_of_next {image : Image} {run : Chunk} (hrun : run ∈ runs image.toList)
    {a : UInt32} (h : a.toNat + 1 = run.address.toNat ∨ a.toNat = run.stop) :
    image.get? a = none := by
  have hseparate := separate_runs (toList_sorted image)
  apply Option.not_isSome_iff_eq_none.mp
  intro hsome
  obtain ⟨other, hother, hle, hlt⟩ := isSome_get?_iff.mp hsome
  have hpos := List.length_pos_iff.mpr (hseparate.nonempty run hrun)
  simp only [Chunk.stop] at h hlt
  rcases hseparate.eq_or_apart hrun hother with rfl | hapart | hapart
  · omega
  · simp only [Chunk.stop] at hapart
    omega
  · simp only [Chunk.stop] at hapart
    omega

/-- **What the writer takes for runs are the maximal runs.** -/
theorem isRun_iff {image : Image} {first last : UInt32} :
    image.IsRun first last ↔
      ∃ run ∈ runs image.toList, run.address = first ∧ run.stop = last.toNat + 1 := by
  have hseparate := separate_runs (toList_sorted image)
  constructor
  · intro h
    have hle := UInt32.le_iff_toNat_le.mp h.le
    -- The first address is inside a run, and can only be the first address of that.
    obtain ⟨run, hrun, hfirst, hstop⟩ :=
      isSome_get?_iff.mp (h.full first (UInt32.le_refl _) h.le)
    have inside {a : UInt32} (hge : run.address.toNat ≤ a.toNat) (hlt : a.toNat < run.stop) :
        image.get? a ≠ none :=
      Option.isSome_iff_ne_none.mp (isSome_get?_iff.mpr ⟨run, hrun, hge, hlt⟩)
    have hbounded := hseparate.bounded run hrun
    have hlastLt := last.toNat_lt
    have haddress : run.address.toNat = first.toNat := by
      refine Decidable.byContradiction fun hne => ?_
      have hpred : (first - 1).toNat = first.toNat - 1 := by
        rw [UInt32.toNat_sub, show (1 : UInt32).toNat = 1 from rfl]
        have := first.toNat_lt
        omega
      exact inside (by omega) (by omega) (h.before (first - 1) (by omega))
    refine ⟨run, hrun, UInt32.toNat_inj.mp haddress, ?_⟩
    -- The run ends behind the last address, or one of the two would have a neighbour.
    rcases Nat.lt_trichotomy run.stop (last.toNat + 1) with hlt | heq | hgt
    · have hbehind : (UInt32.ofNat run.stop).toNat = run.stop :=
        UInt32.toNat_ofNat_of_lt' (by show run.stop < 0x100000000; omega)
      have hsome := h.full (UInt32.ofNat run.stop)
        (UInt32.le_iff_toNat_le.mpr (by omega)) (UInt32.le_iff_toNat_le.mpr (by omega))
      rw [get?_eq_none_of_next hrun (.inr hbehind)] at hsome
      cases hsome
    · exact heq
    · have hnext : (last + 1).toNat = last.toNat + 1 := by
        rw [UInt32.toNat_add, show (1 : UInt32).toNat = 1 from rfl]
        omega
      exact absurd (h.after (last + 1) hnext.symm) (inside (by omega) (by omega))
  · rintro ⟨run, hrun, rfl, hstop⟩
    have hpos := List.length_pos_iff.mpr (hseparate.nonempty run hrun)
    have hend : run.stop = run.address.toNat + run.bytes.length := rfl
    refine ⟨UInt32.le_iff_toNat_le.mpr (by omega), ?_, ?_, ?_⟩
    · intro a hge hle
      have hge := UInt32.le_iff_toNat_le.mp hge
      have hle := UInt32.le_iff_toNat_le.mp hle
      exact isSome_get?_iff.mpr ⟨run, hrun, hge, by omega⟩
    · intro a ha
      exact get?_eq_none_of_next hrun (.inl ha)
    · intro a ha
      exact get?_eq_none_of_next hrun (.inr (by omega))

/-! ## Pieces of a run -/

/-- A piece holds something, no more than a record can, and nothing from outside of the run. -/
theorem bounds_of_mem_chunksFrom {fuel : Nat} {address : UInt32} {bytes : List UInt8}
    (hbound : address.toNat + bytes.length ≤ 0x100000000) {chunk : Chunk}
    (h : chunk ∈ chunksFrom fuel address bytes) :
    0 < chunk.bytes.length ∧ chunk.bytes.length ≤ recordLimit ∧
      address.toNat ≤ chunk.address.toNat ∧ chunk.stop ≤ address.toNat + bytes.length := by
  induction fuel generalizing address bytes with
  | zero => cases h
  | succ fuel ih =>
    unfold chunksFrom at h
    split at h
    · cases h
    next hcons =>
      have hpos := List.length_pos_iff.mpr (mt List.isEmpty_iff.mpr hcons)
      simp only [Chunk.stop, show recordLimit = 32 from rfl] at h ih ⊢
      rcases List.mem_cons.mp h with rfl | hlater
      · dsimp only
        rw [List.length_take]
        omega
      · have hdrop : (bytes.drop 32).length = bytes.length - 32 := List.length_drop
        have hmore : 0 < (bytes.drop 32).length := by
          -- Where nothing is left there are no more pieces.
          refine Nat.pos_of_ne_zero fun hzero => ?_
          rw [List.eq_nil_of_length_eq_zero hzero, chunksFrom_nil] at hlater
          cases hlater
        have hnext : (address + UInt32.ofNat 32).toNat = address.toNat + 32 := by
          rw [UInt32.toNat_add, show (UInt32.ofNat 32).toNat = 32 from rfl]
          omega
        have hbounds := ih (by omega) hlater
        omega

theorem bounds_of_mem_chunks {image : Image} {chunk : Chunk} (h : chunk ∈ image.chunks) :
    0 < chunk.bytes.length ∧ chunk.bytes.length ≤ recordLimit ∧ chunk.stop ≤ 0x100000000 := by
  obtain ⟨run, hrun, hchunk⟩ := List.mem_flatMap.mp h
  have hbound := (separate_runs (toList_sorted image)).bounded run hrun
  obtain ⟨hpos, hlimit, -, hstop⟩ := bounds_of_mem_chunksFrom hbound hchunk
  exact ⟨hpos, hlimit, Nat.le_trans hstop hbound⟩

theorem length_le_of_mem_chunks {image : Image} {chunk : Chunk} (h : chunk ∈ image.chunks) :
    chunk.bytes.length ≤ recordLimit :=
  (bounds_of_mem_chunks h).2.1

/-- Pieces begin at every 32nd address. -/
theorem exists_mem_chunksFrom {fuel : Nat} {address : UInt32} {bytes : List UInt8}
    (hfuel : bytes.length ≤ fuel) (hbound : address.toNat + bytes.length ≤ 0x100000000) (n : Nat) :
    (∃ chunk ∈ chunksFrom fuel address bytes, chunk.address.toNat = n) ↔
      ∃ k, n = address.toNat + 32 * k ∧ 32 * k < bytes.length := by
  induction fuel generalizing address bytes with
  | zero =>
    have hnil := List.eq_nil_of_length_eq_zero (Nat.le_zero.mp hfuel)
    simp [hnil, chunksFrom]
  | succ fuel ih =>
    unfold chunksFrom
    split
    next hnil => simp [List.isEmpty_iff.mp hnil]
    next hcons =>
      have hpos := List.length_pos_iff.mpr (mt List.isEmpty_iff.mpr hcons)
      have hdrop : (bytes.drop recordLimit).length = bytes.length - recordLimit := List.length_drop
      have htwo : (UInt32.ofNat recordLimit).toNat = recordLimit := rfl
      simp only [List.mem_cons, exists_eq_or_imp]
      simp only [show recordLimit = 32 from rfl] at hdrop htwo ⊢
      by_cases hshort : bytes.length ≤ 32
      · -- One piece takes all.
        have hnil : bytes.drop 32 = [] := List.drop_eq_nil_of_le hshort
        simp only [hnil, chunksFrom_nil, List.not_mem_nil, false_and, exists_false, or_false]
        constructor
        · intro h
          exact ⟨0, by omega, by omega⟩
        · rintro ⟨k, hn, hk⟩
          omega
      · have hnext : (address + UInt32.ofNat 32).toNat = address.toNat + 32 := by
          rw [UInt32.toNat_add, htwo]
          omega
        rw [ih (by omega) (by omega), hnext, hdrop]
        constructor
        · rintro (h | ⟨k, hn, hk⟩)
          · exact ⟨0, by omega, by omega⟩
          · exact ⟨k + 1, by omega, by omega⟩
        · rintro ⟨k, hn, hk⟩
          cases k with
          | zero => exact .inl (by omega)
          | succ k => exact .inr ⟨k, by omega, by omega⟩

/-- The pieces of an image begin at every 32nd address of its maximal runs. -/
theorem exists_chunk_iff {image : Image} (n : Nat) :
    (∃ chunk ∈ image.chunks, chunk.address.toNat = n) ↔
      ∃ first last k, image.IsRun first last ∧ n = first.toNat + 32 * k ∧
        first.toNat + 32 * k ≤ last.toNat := by
  have hseparate := separate_runs (toList_sorted image)
  constructor
  · rintro ⟨chunk, hchunk, rfl⟩
    obtain ⟨run, hrun, hsplit⟩ := List.mem_flatMap.mp hchunk
    have hbounded := hseparate.bounded run hrun
    have hpos := List.length_pos_iff.mpr (hseparate.nonempty run hrun)
    have hend : run.stop = run.address.toNat + run.bytes.length := rfl
    obtain ⟨k, hn, hk⟩ :=
      (exists_mem_chunksFrom (Nat.le_refl _) hbounded _).mp ⟨chunk, hsplit, rfl⟩
    have hlast : (UInt32.ofNat (run.stop - 1)).toNat = run.stop - 1 :=
      UInt32.toNat_ofNat_of_lt' (by show run.stop - 1 < 0x100000000; omega)
    refine ⟨run.address, UInt32.ofNat (run.stop - 1), k, ?_, by omega, by omega⟩
    exact isRun_iff.mpr ⟨run, hrun, rfl, by omega⟩
  · rintro ⟨first, last, k, hisRun, rfl, hle⟩
    obtain ⟨run, hrun, rfl, hstop⟩ := isRun_iff.mp hisRun
    have hend : run.stop = run.address.toNat + run.bytes.length := rfl
    obtain ⟨chunk, hchunk, haddress⟩ :=
      (exists_mem_chunksFrom (Nat.le_refl _) (hseparate.bounded run hrun) _).mpr
        ⟨k, rfl, by omega⟩
    exact ⟨chunk, List.mem_flatMap.mpr ⟨run, hrun, hchunk⟩, haddress⟩

end Z80Asm.Image
