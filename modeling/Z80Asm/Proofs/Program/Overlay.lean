import Mathlib.Data.List.Basic
import Z80Asm.Proofs.Image.Runs
import Z80Asm.Proofs.Program.Confinement

/-!
# The image of a program is that of its lines

What an entry writes does not depend on what is in the image already, and a region that is virtual
writes to an image of its own. So a program can be generated entry by entry, each into an empty image:
laid over each other in the order of the entries, these images are the image of the program
(`emitAll_overlays`). Where only one entry writes, its bytes are those of the program, and
`Assembly.entryBytes` reads them off.

Entries that overlap are no error, so nothing better can be said of a program in which they do: the
later one wins.
-/
set_option autoImplicit false

namespace Z80Asm

open Success

/-! ## Images on top of each other -/

theorem Stretch.mem_of_lt_count {st : Stretch} {offset : Nat} (h : offset < st.count.toNat) :
    st.first + UInt32.ofNat offset ∈ st := by
  rw [Stretch.mem_iff, UInt32.add_comm, UInt32.add_sub_cancel,
    UInt32.toNat_ofNat_of_lt' (Nat.lt_trans h st.count.toNat_lt)]
  exact h

namespace Image

/-- An image laid over another one: where both hold a byte, that of the upper one counts. -/
def overlay (lower upper : Image) : Image where
  cells := lower.cells ∪ upper.cells

/-- The bytes that an image holds at consecutive addresses, in the order of these. -/
def read (image : Image) (st : Stretch) : List UInt8 :=
  (List.range st.count.toNat).filterMap fun offset => image.get? (st.first + UInt32.ofNat offset)

variable (lower upper : Image) (address a : UInt32)

@[simp] theorem get?_overlay : (lower.overlay upper).get? a = (upper.get? a).or (lower.get? a) :=
  Std.ExtTreeMap.getElem?_union

@[simp] theorem overlay_empty : lower.overlay {} = lower := by
  apply ext_get?
  intro a
  rw [get?_overlay, get?_empty, Option.none_or]

theorem store_overlay (byte : UInt8) :
    (lower.overlay upper).store address byte = lower.overlay (upper.store address byte) := by
  apply ext_get?
  intro a
  rw [get?_overlay, get?_store, get?_store, get?_overlay]
  by_cases h : address = a
  · simp [h]
  · simp [h]

theorem storeBytes_overlay (bytes : List UInt8) :
    (lower.overlay upper).storeBytes address bytes =
      lower.overlay (upper.storeBytes address bytes) := by
  induction bytes generalizing upper address with
  | nil => rfl
  | cons byte rest ih => rw [storeBytes, store_overlay, ih, storeBytes]

theorem storeAll_overlay (ws : List Store) :
    (lower.overlay upper).storeAll ws = lower.overlay (upper.storeAll ws) := by
  induction ws generalizing upper with
  | nil => rfl
  | cons w rest ih => rw [storeAll, storeBytes_overlay, ih, storeAll]

/-- Stores can be made in an empty image, which is then laid over the one they were meant for. -/
theorem storeAll_eq_overlay (image : Image) (ws : List Store) :
    image.storeAll ws = image.overlay (storeAll {} ws) := by
  rw [← storeAll_overlay, overlay_empty]

/-- Images that hold nothing at an address do not show there. -/
theorem get?_foldl_overlay {images : List Image} {a : UInt32} (base : Image)
    (h : ∀ image ∈ images, image.get? a = none) :
    (images.foldl overlay base).get? a = base.get? a := by
  induction images generalizing base with
  | nil => rfl
  | cons image rest ih =>
    obtain ⟨himage, hrest⟩ := List.forall_mem_cons.mp h
    rw [List.foldl_cons, ih _ hrest, get?_overlay, himage, Option.none_or]

theorem read_congr {image other : Image} {st : Stretch}
    (h : ∀ a ∈ st, image.get? a = other.get? a) : image.read st = other.read st := by
  apply List.filterMap_congr
  intro offset hoffset
  exact h _ (Stretch.mem_of_lt_count (List.mem_range.mp hoffset))

theorem read_eq_nil_iff {image : Image} {st : Stretch} :
    image.read st = [] ↔ ∀ a ∈ st, image.get? a = none := by
  rw [read, List.filterMap_eq_nil_iff]
  constructor
  · intro h a ha
    have hoffset := h _ (List.mem_range.mpr (Stretch.mem_iff.mp ha))
    rwa [UInt32.ofNat_toNat, UInt32.add_comm, UInt32.sub_add_cancel] at hoffset
  · intro h offset hoffset
    exact h _ (Stretch.mem_of_lt_count (List.mem_range.mp hoffset))

end Image

/-! ## Entries alone -/

/-- The image that an entry generates alone. -/
def Entry.image (s : Scopes) (entry : Entry) : Except Failure Image :=
  match entry.emit s {} with
  | .ok () out => .ok out.image
  | .error failure _ => .error failure

section

variable {s : Scopes} {entry : Entry} {a : UInt32}

theorem Entry.image_eq_ok_iff {image : Image} :
    entry.image s = .ok image ↔ ∃ ws, entry.stores s = .ok ws ∧ Image.storeAll {} ws = image := by
  unfold Entry.image
  cases hemit : entry.emit s {} with
  | ok _ out =>
    obtain ⟨ws, hws⟩ := Entry.stores_of_emit hemit
    rw [Except.ok.injEq, (Entry.emit_makes hws).image_eq hemit, hws]
    simp
  | error failure out =>
    constructor
    · intro h
      cases h
    · rintro ⟨ws, hws, -⟩
      obtain ⟨out', hout', -⟩ := Entry.emit_makes hws {}
      cases hemit.symm.trans hout'

theorem Entry.not_writes_iff {image : Image} (himage : entry.image s = .ok image) :
    ¬entry.Writes s a ↔ image.get? a = none := by
  obtain ⟨ws, hws, rfl⟩ := Entry.image_eq_ok_iff.mp himage
  obtain ⟨out, hout, himage⟩ := Entry.emit_makes hws {}
  rw [← Option.not_isSome_iff_eq_none, not_iff_not, ← himage]
  constructor
  · rintro ⟨out', hout', h⟩
    cases hout.symm.trans hout'
    exact h
  · exact fun h => ⟨out, hout, h⟩

/-- Entries that are generated behind each other lay their own images over what was there. -/
theorem emitAll_overlays {entries : List Entry} {out out' : Output}
    (h : emitAll s entries out = .ok () out') :
    ∃ images, entries.mapM (Entry.image s) = .ok images ∧
      out'.image = images.foldl Image.overlay out.image := by
  induction entries generalizing out with
  | nil =>
    cases h
    exact ⟨[], rfl, rfl⟩
  | cons entry rest ih =>
    simp only [emitAll, bind_eq_ok, Emit.traced_eq_ok] at h
    obtain ⟨_, between, hentry, hrest⟩ := h
    obtain ⟨ws, hws⟩ := Entry.stores_of_emit hentry
    obtain ⟨images, himages, hlast⟩ := ih hrest
    refine ⟨Image.storeAll {} ws :: images, ?_, ?_⟩
    · rw [List.mapM_cons, Entry.image_eq_ok_iff.mpr ⟨ws, hws, rfl⟩, himages]
      rfl
    · rw [hlast, List.foldl_cons, ← Image.storeAll_eq_overlay,
        (Entry.emit_makes hws).image_eq hentry]

/-- The bytes of an entry are those that its image holds at its addresses. -/
theorem Assembly.entryBytes_eq_read {t : Session} {image : Image}
    (h : entry.image t.scopes = .ok image) :
    ∃ t', Assembly.entryBytes entry t = .ok (image.read entry.stretch) t' := by
  obtain ⟨ws, hws, rfl⟩ := Entry.image_eq_ok_iff.mp h
  obtain ⟨after, hafter, himage⟩ := Entry.emit_makes hws { t.output with image := {} }
  refine ⟨{ t with output.warnings := after.warnings }, ?_⟩
  rw [Assembly.entryBytes, hafter]
  dsimp only
  rw [himage]
  rfl

theorem Entry.image_virtual {line : Line} {address : UInt32} {region : Region} {parts : List Entry}
    {image : Image} (h : (Entry.space line address region parts).image s = .ok image)
    (hvirtual : region.isVirtual = true) : image = {} := by
  obtain ⟨ws, hws, rfl⟩ := Entry.image_eq_ok_iff.mp h
  simp only [Entry.stores, hvirtual, if_true, except_bind_eq_ok, except_pure_eq_ok] at hws
  obtain ⟨inner, -, rfl⟩ := hws
  rfl

theorem get?_of_mapM_image {entries : List Entry} {images : List Image}
    (h : entries.mapM (Entry.image s) = .ok images) (hsilent : ∀ entry ∈ entries, ¬entry.Writes s a) :
    ∀ image ∈ images, image.get? a = none := by
  induction entries generalizing images with
  | nil =>
    cases h
    exact List.forall_mem_nil _
  | cons entry rest ih =>
    simp only [List.mapM_cons, except_bind_eq_ok, except_pure_eq_ok] at h
    obtain ⟨image, himage, images, himages, rfl⟩ := h
    obtain ⟨hentry, hrest⟩ := List.forall_mem_cons.mp hsilent
    exact List.forall_mem_cons.mpr ⟨(Entry.not_writes_iff himage).mp hentry, ih himages hrest⟩

/-- Where no other entry writes, entries that lie over each other show this one. -/
theorem read_overlays {before after : List Entry} {images : List Image} {st : Stretch}
    (h : (before ++ entry :: after).mapM (Entry.image s) = .ok images)
    (hothers : ∀ other ∈ before ++ after, ∀ a ∈ st, ¬other.Writes s a) :
    ∃ image, entry.image s = .ok image ∧ (images.foldl Image.overlay {}).read st = image.read st := by
  simp only [List.mapM_append, List.mapM_cons, except_bind_eq_ok, except_pure_eq_ok] at h
  obtain ⟨below, hbelow, _, ⟨image, himage, above, habove, rfl⟩, rfl⟩ := h
  obtain ⟨hbefore, hafter⟩ := List.forall_mem_append.mp hothers
  refine ⟨image, himage, Image.read_congr ?_⟩
  intro a ha
  have hbelow := get?_of_mapM_image hbelow fun other hother => hbefore other hother a ha
  have habove := get?_of_mapM_image habove fun other hother => hafter other hother a ha
  rw [List.foldl_append, List.foldl_cons, Image.get?_foldl_overlay _ habove, Image.get?_overlay,
    Image.get?_foldl_overlay _ hbelow, Image.get?_empty, Option.or_none]

end

/-! ## Programs -/

namespace Assembly

/-- **The image of a program is that of its lines**: it is what its entries generate alone, one laid
    over the other in their order. So the bytes of an entry are those of the image at its addresses,
    unless another entry writes there; for a virtual region these are none. The image is empty
    before, since what an earlier program left would show between the entries. -/
theorem assemble_overlays {source : Source} {program : Program} {s s' : Session}
    (hempty : s.output.image = {}) (h : assemble source s = .ok program s') :
    (∃ images, program.entries.mapM (Entry.image s'.scopes) = .ok images ∧
      s'.output.image = images.foldl Image.overlay {}) ∧
    ∀ before entry after, program.entries = before ++ entry :: after →
      (∀ other ∈ before ++ after, ∀ a ∈ entry.stretch, ¬other.Writes s'.scopes a) →
      (∃ t, entryBytes entry s' = .ok (s'.output.image.read entry.stretch) t) ∧
      ∀ line address region parts, entry = .space line address region parts →
        region.isVirtual = true → s'.output.image.read entry.stretch = [] := by
  obtain ⟨-, -, hemit⟩ := assemble_eq_ok h
  obtain ⟨images, himages, hlast⟩ := emitAll_overlays hemit
  rw [hempty] at hlast
  refine ⟨⟨images, himages, hlast⟩, ?_⟩
  intro before entry after hentries hothers
  rw [hentries] at himages
  obtain ⟨image, himage, hread⟩ := read_overlays himages hothers
  rw [hlast, hread]
  refine ⟨entryBytes_eq_read himage, ?_⟩
  rintro line address region parts rfl hvirtual
  rw [Entry.image_virtual himage hvirtual, Image.read_eq_nil_iff]
  exact fun a _ => Image.get?_empty a

/-- The second of two lines at an address wins, and a line that is alone at its addresses is found
    there. -/
theorem assemble_overlays_org : ∃ program s',
    (loadText " db 1,2\n org 1\n db 7\nv: ds virtual 2\n ld bc,1234h\n" >>= assemble)
        (Session.new {}) = .ok program s' ∧
      (∃ images, program.entries.mapM (Entry.image s'.scopes) = .ok images ∧
        s'.output.image = images.foldl Image.overlay {}) ∧
      s'.output.image.read ⟨0, 7⟩ = [1, 7, 0x01, 0x34, 0x12] ∧
      ∃ entry t, program.entries.getLast? = some entry ∧
        entryBytes entry s' = .ok [0x01, 0x34, 0x12] t := by
  have hpasses : passes (fun (program : Program) (s' : Session) =>
      decide (s'.output.image.read ⟨0, 7⟩ = [1, 7, 0x01, 0x34, 0x12] ∧
        s'.output.image.read ⟨4, 3⟩ = [0x01, 0x34, 0x12] ∧
        (program.entries.drop 4).map Entry.stretch = [⟨4, 3⟩] ∧
        ∀ other ∈ program.entries.take 4,
          ((other.image s'.scopes).toOption.map fun image => Image.read image ⟨4, 3⟩) = some []))
      ((loadText " db 1,2\n org 1\n db 7\nv: ds virtual 2\n ld bc,1234h\n" >>= assemble)
        (Session.new {})) = true := by
    decide +kernel
  obtain ⟨program, s', hrun, htest⟩ := eq_ok_of_passes hpasses
  obtain ⟨hall, hlast, hstretch, hothers⟩ := of_decide_eq_true htest
  obtain ⟨source, s, hload, hassemble⟩ := bind_eq_ok.mp hrun
  have hempty : s.output.image = {} := congrArg Output.image (loadText_output hload)
  obtain ⟨himage, hbytes⟩ := assemble_overlays hempty hassemble
  refine ⟨program, s', hrun, himage, hall, ?_⟩
  obtain ⟨entry, rest, hdrop, hst, hrest⟩ := List.map_eq_cons_iff.mp hstretch
  obtain rfl := List.map_eq_nil_iff.mp hrest
  have hentries : program.entries = program.entries.take 4 ++ [entry] := by
    rw [← hdrop, List.take_append_drop]
  have hsilent : ∀ other ∈ program.entries.take 4 ++ [], ∀ a ∈ entry.stretch,
      ¬other.Writes s'.scopes a := by
    rw [List.append_nil, hst]
    intro other hother a ha
    have hread := hothers other hother
    cases himage : other.image s'.scopes with
    | error failure =>
      rw [himage] at hread
      cases hread
    | ok image =>
      rw [himage] at hread
      exact (Entry.not_writes_iff himage).mpr (Image.read_eq_nil_iff.mp (Option.some.inj hread) a ha)
  obtain ⟨⟨t, ht⟩, -⟩ := hbytes _ entry [] hentries hsilent
  rw [hst, hlast] at ht
  exact ⟨entry, t, by rw [hentries, List.getLast?_concat], ht⟩

end Assembly

end Z80Asm
