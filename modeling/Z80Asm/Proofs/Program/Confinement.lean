import Z80Asm.Proofs.Program.Layout

/-!
# Whether code stays inside its space

A program is confined if every byte of the image lies inside the line that wrote it, and every byte
of a section inside the region that the section was sent to. Placing does not make sure of that: it
checks where the last line of a section ends, and an `ORG` line in a section can leave the region
and come back.

Which addresses an entry writes is fixed when it is placed: `Entry.stretches`. So whether a program
is confined can be read off its layout, and `Entry.Contained` is the condition. It holds wherever
the sections have no `ORG` line and are not so long that the running address wraps around.

The 16-bit address space is checked by placing, and what is said about it is in `Program/Layout`.
-/
set_option autoImplicit false

namespace Z80Asm

open Success

/-! ## The addresses that an entry writes -/

def Entry.stretch (entry : Entry) : Stretch :=
  ⟨entry.address, entry.size⟩

/-- Whether an entry, generated on its own, writes to an address. -/
def Entry.Writes (s : Scopes) (entry : Entry) (a : UInt32) : Prop :=
  ∃ out, entry.emit s {} = .ok () out ∧ (out.image.get? a).isSome

mutual

/-- Where an entry writes. A region that is not virtual is filled behind its sections. -/
def Entry.stretches : Entry → List Stretch
  | .code _ address code => [⟨address, code.size⟩]
  | .space _ address region parts =>
    if region.isVirtual then []
    else stretchesOf parts ++ [⟨address + region.used, region.size - region.used⟩]

def stretchesOf : List Entry → List Stretch
  | [] => []
  | entry :: rest => entry.stretches ++ stretchesOf rest

end

/-- The addresses of a store. -/
def Store.stretch (w : Store) : Stretch :=
  ⟨w.address, UInt32.ofNat w.bytes.length⟩

theorem Store.covers_iff {w : Store} {a : UInt32} (h : w.bytes.length < 0x100000000) :
    w.Covers a ↔ a ∈ w.stretch := by
  rw [Stretch.mem_iff, Store.stretch, UInt32.toNat_ofNat_of_lt' h]
  rfl

mutual

/-- The stores of a placed entry have the addresses that its layout says. -/
theorem Entry.map_stretch_stores {s : Scopes} : ∀ {entry : Entry} {ws : List Store},
    entry.Placed → entry.stores s = .ok ws → ws.map Store.stretch = entry.stretches
  | .code line address code, ws, _, h => by
    simp only [Entry.stores, except_bind_eq_ok, except_pure_eq_ok] at h
    obtain ⟨bytes, hbytes, rfl⟩ := h
    simp only [List.map_cons, List.map_nil, Store.stretch, Entry.stretches,
      Code.ofNat_length_bytes hbytes]
  | .space line address region parts, ws, hplaced, h => by
    obtain ⟨-, hused, hparts⟩ := hplaced
    simp only [Entry.stores, except_bind_eq_ok] at h
    obtain ⟨inner, hinner, h⟩ := h
    rw [Entry.stretches]
    by_cases hv : region.isVirtual
    · simp only [hv, if_true, except_pure_eq_ok] at h ⊢
      subst h
      rfl
    · simp only [hv, Bool.false_eq_true, if_false, except_bind_eq_ok, except_pure_eq_ok] at h ⊢
      obtain ⟨fill, -, rfl⟩ := h
      -- Behind the sections the region is filled up to its size.
      have hfill :
          UInt32.ofNat (region.size.toNat - region.used.toNat) = region.size - region.used := by
        rw [← UInt32.toNat_sub_of_le _ _ hused, UInt32.ofNat_toNat]
      simp only [List.map_append, map_stretch_storesOf hparts hinner, List.map_cons, List.map_nil,
        Store.stretch, List.length_replicate, hfill]

theorem map_stretch_storesOf {s : Scopes} : ∀ {entries : List Entry} {first last : UInt32}
    {ws : List Store}, PlacedFrom first entries last → storesOf s entries = .ok ws →
      ws.map Store.stretch = stretchesOf entries
  | [], _, _, ws, _, h => by
    simp only [storesOf, except_pure_eq_ok] at h
    subst h
    rfl
  | entry :: rest, _, _, ws, hplaced, h => by
    obtain ⟨-, hentry, hrest⟩ := hplaced
    simp only [storesOf, except_bind_eq_ok, except_pure_eq_ok] at h
    obtain ⟨vs, hvs, us, hus, rfl⟩ := h
    rw [List.map_append, Entry.map_stretch_stores hentry hvs, map_stretch_storesOf hrest hus,
      stretchesOf]

end

theorem exists_covers_iff {ws : List Store} {sts : List Stretch} {a : UInt32}
    (hmap : ws.map Store.stretch = sts) (hshort : ∀ w ∈ ws, w.bytes.length < 0x100000000) :
    (∃ w ∈ ws, w.Covers a) ↔ ∃ st ∈ sts, a ∈ st := by
  subst hmap
  constructor
  · rintro ⟨w, hw, hcovers⟩
    exact ⟨w.stretch, List.mem_map_of_mem hw, (Store.covers_iff (hshort w hw)).mp hcovers⟩
  · rintro ⟨_, hst, ha⟩
    obtain ⟨w, hw, rfl⟩ := List.mem_map.mp hst
    exact ⟨w, hw, (Store.covers_iff (hshort w hw)).mpr ha⟩

variable {s : Scopes} {entry : Entry} {ws : List Store} {a : UInt32}

theorem Entry.writes_iff_covers (hstores : entry.stores s = .ok ws)
    (hshort : ∀ w ∈ ws, w.bytes.length < 0x100000000) :
    entry.Writes s a ↔ ∃ w ∈ ws, w.Covers a := by
  obtain ⟨out, hout, himage⟩ := Entry.emit_makes hstores {}
  rw [← Image.isSome_get?_storeAll_empty fun w hw => Nat.le_of_lt (hshort w hw)]
  constructor
  · rintro ⟨out', hout', h⟩
    rw [hout] at hout'
    cases hout'
    exact himage ▸ h
  · exact fun h => ⟨out, hout, himage ▸ h⟩

/-- A placed entry writes where its layout says. -/
theorem Entry.writes_iff (hplaced : entry.Placed) (hstores : entry.stores s = .ok ws)
    (hshort : ∀ w ∈ ws, w.bytes.length < 0x100000000) :
    entry.Writes s a ↔ ∃ st ∈ entry.stretches, a ∈ st := by
  rw [Entry.writes_iff_covers hstores hshort,
    exists_covers_iff (Entry.map_stretch_stores hplaced hstores) hshort]

/-- The writes of an entry stay inside a stretch if its layout does. -/
theorem Entry.writes_inside_iff {st : Stretch} (hplaced : entry.Placed)
    (hstores : entry.stores s = .ok ws) (hshort : ∀ w ∈ ws, w.bytes.length < 0x100000000) :
    (∀ a, entry.Writes s a → a ∈ st) ↔ ∀ b ∈ entry.stretches, b ⊆ st := by
  constructor
  · exact fun h b hb a ha => h a ((writes_iff hplaced hstores hshort).mpr ⟨b, hb, ha⟩)
  · intro h a ha
    obtain ⟨b, hb, hab⟩ := (writes_iff hplaced hstores hshort).mp ha
    exact h b hb a hab

/-! ## Sections inside their regions -/

mutual

/-- Every byte that a section writes lies inside the region that it was sent to, also where
    regions are nested. What is sent to a virtual region is not written. -/
def Entry.SectionsInside (s : Scopes) : Entry → Prop
  | .code _ _ _ => True
  | .space _ address region parts =>
    region.isVirtual = false → partsInside s ⟨address, region.size⟩ parts

def partsInside (s : Scopes) (st : Stretch) : List Entry → Prop
  | [] => True
  | part :: rest =>
    (∀ a, part.Writes s a → a ∈ st) ∧ part.SectionsInside s ∧ partsInside s st rest

end

mutual

/-- The layout of every section lies inside the region that it was sent to. Nothing has to be
    generated to find that out. -/
def Entry.Contained : Entry → Prop
  | .code _ _ _ => True
  | .space _ address region parts =>
    region.isVirtual = false → partsContained ⟨address, region.size⟩ parts

def partsContained (st : Stretch) : List Entry → Prop
  | [] => True
  | part :: rest => (∀ b ∈ part.stretches, b ⊆ st) ∧ part.Contained ∧ partsContained st rest

end

mutual

theorem Entry.sectionsInside_iff {s : Scopes} : ∀ {entry : Entry} {ws : List Store},
    entry.Placed → entry.stores s = .ok ws → (∀ w ∈ ws, w.bytes.length < 0x100000000) →
      (entry.SectionsInside s ↔ entry.Contained)
  | .code _ _ _, _, _, _, _ => Iff.rfl
  | .space line address region parts, ws, hplaced, h, hshort => by
    obtain ⟨-, -, hparts⟩ := hplaced
    simp only [Entry.stores, except_bind_eq_ok] at h
    obtain ⟨inner, hinner, h⟩ := h
    rw [Entry.SectionsInside, Entry.Contained]
    by_cases hv : region.isVirtual
    · simp [hv]
    · simp only [hv, Bool.false_eq_true, if_false, except_bind_eq_ok, except_pure_eq_ok] at h
      obtain ⟨fill, -, rfl⟩ := h
      exact forall_congr' fun _ => partsInside_iff hparts hinner
        fun w hw => hshort w (List.mem_append_left _ hw)

theorem partsInside_iff {s : Scopes} {st : Stretch} : ∀ {parts : List Entry} {first last : UInt32}
    {ws : List Store}, PlacedFrom first parts last → storesOf s parts = .ok ws →
      (∀ w ∈ ws, w.bytes.length < 0x100000000) → (partsInside s st parts ↔ partsContained st parts)
  | [], _, _, _, _, _, _ => Iff.rfl
  | part :: rest, _, _, ws, hplaced, h, hshort => by
    obtain ⟨-, hpart, hrest⟩ := hplaced
    simp only [storesOf, except_bind_eq_ok, except_pure_eq_ok] at h
    obtain ⟨vs, hvs, us, hus, rfl⟩ := h
    obtain ⟨hshortVs, hshortUs⟩ := List.forall_mem_append.mp hshort
    exact and_congr (Entry.writes_inside_iff hpart hvs hshortVs)
      (and_congr (Entry.sectionsInside_iff hpart hvs hshortVs) (partsInside_iff hrest hus hshortUs))

end

/-! ## Layouts that are contained -/

theorem partsContained.stretches_subset {st : Stretch} {parts : List Entry}
    (h : partsContained st parts) : ∀ b ∈ stretchesOf parts, b ⊆ st := by
  induction parts with
  | nil => simp [stretchesOf]
  | cons part rest ih =>
    obtain ⟨hpart, -, hrest⟩ := h
    rw [stretchesOf]
    exact List.forall_mem_append.mpr ⟨hpart, ih hrest⟩

/-- Where its sections stay inside, an entry writes to its own addresses only. -/
theorem Entry.Contained.stretches_subset (hplaced : entry.Placed) (h : entry.Contained) :
    ∀ b ∈ entry.stretches, b ⊆ entry.stretch := by
  cases entry with
  | code line address code =>
    intro b hb
    cases List.mem_singleton.mp hb
    exact fun a ha => ha
  | space line address region parts =>
    obtain ⟨-, hused, -⟩ := hplaced
    rw [Entry.stretches]
    split
    · simp
    · next hv =>
      have hparts : partsContained ⟨address, region.size⟩ parts := h (by simpa using hv)
      refine List.forall_mem_append.mpr ⟨hparts.stretches_subset, ?_⟩
      -- The last stretch is the fill, which ends with the region.
      intro b hb
      cases List.mem_singleton.mp hb
      refine Stretch.subset_iff.mpr (.inr ?_)
      show (address + region.used - address).toNat + (region.size - region.used).toNat ≤
        region.size.toNat
      rw [UInt32.add_comm, UInt32.add_sub_cancel, UInt32.toNat_sub_of_le _ _ hused]
      have := UInt32.le_iff_toNat_le.mp hused
      omega

/-- The number of addresses that lines take, in all. -/
def totalSize (entries : List Entry) : Nat :=
  entries.foldr (fun entry size => entry.size.toNat + size) 0

mutual

/-- No section has an `ORG` line or is so long that the running address wraps around. -/
def Entry.Straight : Entry → Prop
  | .code _ _ _ => True
  | .space _ _ region parts =>
    region.isVirtual = false → totalSize parts < 0x100000000 ∧ partsStraight parts

def partsStraight : List Entry → Prop
  | [] => True
  | part :: rest => part.orgTarget? = none ∧ part.Straight ∧ partsStraight rest

end

/-- Lines without `ORG` that stand one behind the other, some way behind `start`, all end before
    the last of them does. -/
theorem PlacedFrom.stretch_subset {start : UInt32} {parts : List Entry} {first last : UInt32}
    (hplaced : PlacedFrom first parts last) (hstraight : partsStraight parts)
    (hsize : (first - start).toNat + totalSize parts < 0x100000000) :
    (last - start).toNat = (first - start).toNat + totalSize parts ∧
      ∀ part ∈ parts, part.stretch ⊆ ⟨start, last - start⟩ := by
  induction parts generalizing first with
  | nil =>
    cases hplaced
    simp [totalSize]
  | cons part rest ih =>
    obtain ⟨rfl, -, hrest⟩ := hplaced
    obtain ⟨horg, -, hstraight⟩ := hstraight
    have htotal : totalSize (part :: rest) = part.size.toNat + totalSize rest := by
      simp [totalSize]
    -- Without `ORG` the address goes on by the size, and `hsize` keeps it from wrapping.
    have hnext : (part.next - start).toNat = (part.address - start).toNat + part.size.toNat := by
      have := part.address.toNat_lt
      have := start.toNat_lt
      rw [Entry.next_eq, horg]
      simp only [Option.getD_none, UInt32.toNat_sub, UInt32.toNat_add] at hsize ⊢
      omega
    obtain ⟨hlast, hsubset⟩ := ih hrest hstraight (by omega)
    refine ⟨by omega, List.forall_mem_cons.mpr ⟨?_, hsubset⟩⟩
    refine Stretch.subset_iff.mpr (.inr ?_)
    show (part.address - start).toNat + part.size.toNat ≤ (last - start).toNat
    omega

mutual

/-- Sections without `ORG` that are not too long are contained. -/
theorem Entry.Straight.contained : ∀ {entry : Entry},
    entry.Placed → entry.Straight → entry.Contained
  | .code _ _ _, _, _ => trivial
  | .space line address region parts, hplaced, h => by
    intro hv
    obtain ⟨-, hused, hparts⟩ := hplaced
    obtain ⟨htotal, hstraight⟩ := h hv
    have hsize : (address - address).toNat + totalSize parts < 0x100000000 := by simpa using htotal
    obtain ⟨-, hsubset⟩ := hparts.stretch_subset hstraight hsize
    have hregion :
        (⟨address, address + region.used - address⟩ : Stretch) ⊆ ⟨address, region.size⟩ := by
      refine Stretch.subset_iff.mpr (.inr ?_)
      show (address - address).toNat + (address + region.used - address).toNat ≤ region.size.toNat
      rw [UInt32.add_comm address region.used, UInt32.add_sub_cancel]
      simpa using UInt32.le_iff_toNat_le.mp hused
    exact partsStraight.contained hparts hstraight fun part hpart =>
      Stretch.subset_trans (hsubset part hpart) hregion

theorem partsStraight.contained {st : Stretch} : ∀ {parts : List Entry} {first last : UInt32},
    PlacedFrom first parts last → partsStraight parts → (∀ part ∈ parts, part.stretch ⊆ st) →
      partsContained st parts
  | [], _, _, _, _, _ => trivial
  | part :: rest, _, _, hplaced, hstraight, hsubset => by
    obtain ⟨-, hpart, hrest⟩ := hplaced
    obtain ⟨-, hpartStraight, hrestStraight⟩ := hstraight
    obtain ⟨hinside, hsubset⟩ := List.forall_mem_cons.mp hsubset
    have hcontained := Entry.Straight.contained hpart hpartStraight
    exact ⟨fun b hb => Stretch.subset_trans (hcontained.stretches_subset hpart b hb) hinside,
      hcontained,
      partsStraight.contained hrest hrestStraight hsubset⟩

end

/-! ## Deciding it -/

mutual

def Entry.decContained : ∀ entry : Entry, Decidable entry.Contained
  | .code _ _ _ => .isTrue trivial
  | .space _ address region parts =>
    have := decPartsContained ⟨address, region.size⟩ parts
    inferInstanceAs (Decidable (region.isVirtual = false →
      partsContained ⟨address, region.size⟩ parts))

def decPartsContained (st : Stretch) : ∀ parts : List Entry, Decidable (partsContained st parts)
  | [] => .isTrue trivial
  | part :: rest =>
    have := part.decContained
    have := decPartsContained st rest
    inferInstanceAs (Decidable
      ((∀ b ∈ part.stretches, b ⊆ st) ∧ part.Contained ∧ partsContained st rest))

end

instance (entry : Entry) : Decidable entry.Contained :=
  entry.decContained

mutual

def Entry.decStraight : ∀ entry : Entry, Decidable entry.Straight
  | .code _ _ _ => .isTrue trivial
  | .space _ _ region parts =>
    have := decPartsStraight parts
    inferInstanceAs (Decidable (region.isVirtual = false →
      totalSize parts < 0x100000000 ∧ partsStraight parts))

def decPartsStraight : ∀ parts : List Entry, Decidable (partsStraight parts)
  | [] => .isTrue trivial
  | part :: rest =>
    have := part.decStraight
    have := decPartsStraight rest
    inferInstanceAs (Decidable (part.orgTarget? = none ∧ part.Straight ∧ partsStraight rest))

end

instance (entry : Entry) : Decidable entry.Straight :=
  entry.decStraight

/-! ## Assembled programs -/

/-- Code stays inside the space it was placed in. -/
structure Program.Confined (program : Program) (s : Scopes) (image : Image) : Prop where
  /-- Every byte of the image has a true address and was written by a line of the program. -/
  inside : ∀ a, (image.get? a).isSome → a < addressSpace ∧ ∃ e ∈ program.entries, e.Writes s a
  /-- Every line writes inside its own addresses. -/
  own : ∀ e ∈ program.entries, ∀ a, e.Writes s a → a ∈ e.stretch
  /-- Every section writes inside its region. -/
  sections : ∀ e ∈ program.entries, e.SectionsInside s

namespace Assembly

variable {source : Source} {s s' : Session} {program : Program}

/-- Into an empty image, the lines of a program write all that is in it afterwards. -/
theorem isSome_get?_of_assemble (h : assemble source s = .ok program s')
    (hempty : s.output.image = {})
    (hshort : ∀ e ∈ program.entries, e.ShorterThan s'.scopes 0x100000000) (a : UInt32) :
    (s'.output.image.get? a).isSome ↔ ∃ e ∈ program.entries, e.Writes s'.scopes a := by
  obtain ⟨-, -, hemit⟩ := assemble_eq_ok h
  obtain ⟨ws, hws⟩ := storesOf_of_emitAll hemit
  have hshortWs : ∀ w ∈ ws, w.bytes.length < 0x100000000 := by
    intro w hw
    obtain ⟨e, he, vs, hvs, hw⟩ := Entry.exists_of_mem_storesOf hws hw
    exact hshort e he vs hvs w hw
  rw [(emitAll_makes hws).image_eq hemit, hempty,
    Image.isSome_get?_storeAll_empty fun w hw => Nat.le_of_lt (hshortWs w hw)]
  constructor
  · rintro ⟨w, hw, hcovers⟩
    obtain ⟨e, he, vs, hvs, hw⟩ := Entry.exists_of_mem_storesOf hws hw
    exact ⟨e, he, (Entry.writes_iff_covers hvs (hshort e he vs hvs)).mpr ⟨w, hw, hcovers⟩⟩
  · rintro ⟨e, he, hwrites⟩
    obtain ⟨vs, hvs, hsub⟩ := Entry.stores_of_mem hws he
    obtain ⟨w, hw, hcovers⟩ := (Entry.writes_iff_covers hvs (hshort e he vs hvs)).mp hwrites
    exact ⟨w, hsub w hw, hcovers⟩

/-- A line that writes inside its own addresses writes to true addresses. -/
theorem lt_addressSpace_of_mem {e : Entry} {a : UInt32} (h : assemble source s = .ok program s')
    (he : e ∈ program.entries) (hshort : e.ShorterThan s'.scopes 0xFFFF0000)
    (ha : a ∈ e.stretch) : a < addressSpace := by
  by_cases horg : e.orgTarget? = none
  · have hend : e.address.toNat + e.size.toNat ≤ addressSpace.toNat :=
      end_le_of_assemble h he horg hshort
    have hwrap : e.stretch.first.toNat + e.stretch.count.toNat ≤ 0x100000000 :=
      Nat.le_trans hend (by decide)
    have hlt := ((Stretch.mem_iff_between hwrap).mp ha).2
    exact UInt32.lt_iff_toNat_lt.mpr (Nat.lt_of_lt_of_le hlt hend)
  · -- An `ORG` line has no addresses.
    cases e with
    | space line address region parts => exact absurd rfl horg
    | code line address code =>
      cases code with
      | org target => exact absurd (Stretch.mem_iff.mp ha) (Nat.not_lt_zero _)
      | _ => exact absurd rfl horg

/-- **Whether code stays inside its space can be read off the layout.** A program that was assembled
    into an empty image is confined if and only if the layout of its sections lies inside their
    regions, and that is so if no section has an `ORG` line. The image has to be empty, for else it
    holds bytes that no line of the program wrote. Lines begin inside the 16-bit addresses or right
    behind them, so one that is shorter than the rest of the 32-bit addresses does not come around
    to its own region. -/
theorem confined_iff_contained (h : assemble source s = .ok program s')
    (hempty : s.output.image = {})
    (hshort : ∀ e ∈ program.entries, e.ShorterThan s'.scopes 0xFFFF0000) :
    (program.Confined s'.scopes s'.output.image ↔ ∀ e ∈ program.entries, e.Contained) ∧
      ((∀ e ∈ program.entries, e.Straight) →
        program.Confined s'.scopes s'.output.image) := by
  obtain ⟨⟨last, hplaced⟩, -, -⟩ := assemble_eq_ok h
  have hshort32 : ∀ e ∈ program.entries, e.ShorterThan s'.scopes 0x100000000 :=
    fun e he ws hws w hw => Nat.lt_of_lt_of_le (hshort e he ws hws w hw) (by decide)
  have hiff : program.Confined s'.scopes s'.output.image ↔ ∀ e ∈ program.entries, e.Contained := by
    constructor
    · intro hconfined e he
      obtain ⟨ws, hws⟩ := stores_of_assemble h he
      exact (Entry.sectionsInside_iff (hplaced.placed he) hws (hshort32 e he ws hws)).mp
        (hconfined.sections e he)
    · intro hcontained
      have hown : ∀ e ∈ program.entries, ∀ a, e.Writes s'.scopes a → a ∈ e.stretch := by
        intro e he
        obtain ⟨ws, hws⟩ := stores_of_assemble h he
        exact (Entry.writes_inside_iff (hplaced.placed he) hws (hshort32 e he ws hws)).mpr
          ((hcontained e he).stretches_subset (hplaced.placed he))
      refine ⟨fun a ha => ?_, hown, fun e he => ?_⟩
      · obtain ⟨e, he, hwrites⟩ := (isSome_get?_of_assemble h hempty hshort32 a).mp ha
        exact ⟨lt_addressSpace_of_mem h he (hshort e he) (hown e he a hwrites), e, he, hwrites⟩
      · obtain ⟨ws, hws⟩ := stores_of_assemble h he
        exact (Entry.sectionsInside_iff (hplaced.placed he) hws (hshort32 e he ws hws)).mpr
          (hcontained e he)
  exact ⟨hiff, fun hstraight => hiff.mpr fun e he =>
    (hstraight e he).contained (hplaced.placed he)⟩

/-- A section that leaves its region of two bytes by `ORG` and comes back, and one that does not. -/
theorem confined_iff_contained_org :
    (∃ program s',
      (loadText "buf: ds 2\n section buf\n org 4\n db 7\n org buf\n ends\n" >>= assemble)
        (Session.new {}) = .ok program s' ∧
      s'.output.image.get? 4 = some 7 ∧
      ¬ program.Confined s'.scopes s'.output.image) ∧
    ∃ program s',
      (loadText "buf: ds 4\n section buf\n db 7\n ds 2\n ends\n nop\n" >>= assemble)
        (Session.new {}) = .ok program s' ∧
      program.Confined s'.scopes s'.output.image := by
  constructor
  · have hpasses : passes (fun (program : Program) (s' : Session) =>
        decide ((s'.output.image.get? 4 = some 7 ∧ ¬ ∀ e ∈ program.entries, e.Contained) ∧
          ∀ e ∈ program.entries, e.ShorterThan s'.scopes 0xFFFF0000))
        ((loadText "buf: ds 2\n section buf\n org 4\n db 7\n org buf\n ends\n" >>= assemble)
          (Session.new {})) = true := by
      decide +kernel
    obtain ⟨program, s', hrun, htest⟩ := eq_ok_of_passes hpasses
    obtain ⟨⟨himage, hnot⟩, hshort⟩ := of_decide_eq_true htest
    obtain ⟨source, s, hload, hassemble⟩ := bind_eq_ok.mp hrun
    have hempty : s.output.image = {} := congrArg Output.image (loadText_output hload)
    exact ⟨program, s', hrun, himage,
      fun hconfined => hnot ((confined_iff_contained hassemble hempty hshort).1.mp hconfined)⟩
  · have hpasses : passes (fun (program : Program) (s' : Session) =>
        decide ((∀ e ∈ program.entries, e.Straight) ∧
          ∀ e ∈ program.entries, e.ShorterThan s'.scopes 0xFFFF0000))
        ((loadText "buf: ds 4\n section buf\n db 7\n ds 2\n ends\n nop\n" >>= assemble)
          (Session.new {})) = true := by
      decide +kernel
    obtain ⟨program, s', hrun, htest⟩ := eq_ok_of_passes hpasses
    obtain ⟨hstraight, hshort⟩ := of_decide_eq_true htest
    obtain ⟨source, s, hload, hassemble⟩ := bind_eq_ok.mp hrun
    have hempty : s.output.image = {} := congrArg Output.image (loadText_output hload)
    exact ⟨program, s', hrun, (confined_iff_contained hassemble hempty hshort).2 hstraight⟩

end Assembly

end Z80Asm
