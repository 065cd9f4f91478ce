import Z80Asm.Proofs.Program.Addresses
import Z80Asm.Proofs.Program.Confinement
import Z80Asm.Proofs.Program.Sections

/-!
# Sections fill their space

The entries inside a region are the lines that were sent to its space (`Sections`). Unless there is
an `ORG` line or a virtual region among them, they stand one behind the other without a gap, so what
they store is one list of bytes from the start of the region on, and the fill byte follows it up to
the end (`storesOf_bytes`). A region that is too small for its sections is refused as soon as they are
placed, and then the source is (`Visits.fails`).

Addresses have 32 bits, and so has the number of bytes in use: sections of 4 GiB in all count as
none.

`Visits` says that placing gets to a line. It is needed for regions that are refused: of these there
is no program, so they cannot be found among its entries.
-/
set_option autoImplicit false

namespace Z80Asm

open Success

/-! ## The bytes of entries -/

mutual

/-- The bytes of an entry: a region consists of the bytes of its sections and of the fill byte, up to
    its size. -/
def Entry.bytes (s : Scopes) : Entry → Except Cause (List UInt8)
  | .code _ address body => body.bytes s address
  | .space _ _ region parts => do
    let inside ← bytesOf s parts
    let fill ← region.fillByte s
    return inside ++ List.replicate (region.size.toNat - inside.length) fill

def bytesOf (s : Scopes) : List Entry → Except Cause (List UInt8)
  | [] => return []
  | entry :: rest => do return (← entry.bytes s) ++ (← bytesOf s rest)

end

/-- Whether an entry is written where the entry before it ends: it is no `ORG` line and no virtual
    region. -/
def Entry.isPlain : Entry → Bool
  | .code _ _ (.org _) => false
  | .code _ _ _ => true
  | .space _ _ region _ => !region.isVirtual

/-- Whether the entry is that of a `DS` line. -/
def Entry.isRegion : Entry → Bool
  | .code _ _ _ => false
  | .space _ _ _ _ => true

/-- The sections inside an entry. -/
def Entry.parts : Entry → List Entry
  | .code _ _ _ => []
  | .space _ _ _ parts => parts

theorem Entry.mem_all (entry : Entry) : entry ∈ entry.all := by
  cases entry with
  | code line address body => exact List.mem_cons_self
  | space line address region parts => exact List.mem_cons_self

theorem Entry.next_of_isPlain {entry : Entry} (h : entry.isPlain = true) :
    entry.next = entry.address + entry.size := by
  cases entry with
  | code line address body =>
    cases body with
    | org target => cases h
    | _ => rfl
  | space line address region parts => rfl

/-- Sections that end where the part in use ends have as many bytes as are in use. -/
theorem Region.used_eq {region : Region} {address : UInt32} {count : Nat}
    (hlast : address + region.used = address + UInt32.ofNat count) (hcount : count < 0x100000000)
    (hused : region.used ≤ region.size) :
    region.used = UInt32.ofNat count ∧ region.used.toNat = count ∧ count ≤ region.size.toNat := by
  have heq : region.used = UInt32.ofNat count := by
    rwa [UInt32.add_right_inj] at hlast
  have htoNat : region.used.toNat = count := by
    rw [heq, UInt32.toNat_ofNat_of_lt' hcount]
  exact ⟨heq, htoNat, htoNat ▸ UInt32.le_iff_toNat_le.mp hused⟩

mutual

/-- What is stored for an entry is its bytes, from its address on, as many as its size says. -/
theorem Entry.stores_bytes {s : Scopes} : ∀ {entry : Entry} {ws : List Store},
    entry.Placed → (∀ e ∈ entry.all, e.isPlain) → entry.stores s = .ok ws →
      ∃ bytes, entry.bytes s = .ok bytes ∧ (bytes.length < 0x100000000 →
        UInt32.ofNat bytes.length = entry.size ∧
          ∀ image : Image, image.storeAll ws = image.storeBytes entry.address bytes)
  | .code line address body, ws, _, _, h => by
    simp only [Entry.stores, except_bind_eq_ok, except_pure_eq_ok] at h
    obtain ⟨bytes, hbytes, rfl⟩ := h
    exact ⟨bytes, hbytes, fun _ => ⟨Code.ofNat_length_bytes hbytes, fun _ => rfl⟩⟩
  | .space line address region parts, ws, hplaced, hplain, h => by
    obtain ⟨hsize, hused, hparts⟩ := hplaced
    obtain ⟨hregion, hinner⟩ := List.forall_mem_cons.mp hplain
    have hvirtual : region.isVirtual = false := by simpa [Entry.isPlain] using hregion
    simp only [Entry.stores, hvirtual, Bool.false_eq_true, if_false, except_bind_eq_ok,
      except_pure_eq_ok] at h
    obtain ⟨vs, hvs, fill, hfill, rfl⟩ := h
    obtain ⟨inside, hinside, hstored⟩ := storesOf_bytes hparts hinner hvs
    refine ⟨inside ++ List.replicate (region.size.toNat - inside.length) fill,
      by simp [Entry.bytes, hinside, hfill], fun hlen => ?_⟩
    rw [List.length_append] at hlen
    have hshort : inside.length < 0x100000000 := by omega
    obtain ⟨hlast, himage⟩ := hstored hshort
    obtain ⟨hcount, htoNat, hfits⟩ := Region.used_eq hlast hshort hused
    refine ⟨?_, fun image => ?_⟩
    · rw [List.length_append, List.length_replicate, Nat.add_sub_cancel' hfits]
      exact UInt32.ofNat_toNat
    · rw [Image.storeAll_append, himage, htoNat, hcount]
      exact (Image.storeBytes_append image address inside _).symm

/-- Entries that stand one behind the other are stored like one list of bytes. -/
theorem storesOf_bytes {s : Scopes} : ∀ {entries : List Entry} {first last : UInt32} {ws : List Store},
    PlacedFrom first entries last → (∀ e ∈ entriesOf entries, e.isPlain) →
      storesOf s entries = .ok ws →
      ∃ bytes, bytesOf s entries = .ok bytes ∧ (bytes.length < 0x100000000 →
        last = first + UInt32.ofNat bytes.length ∧
          ∀ image : Image, image.storeAll ws = image.storeBytes first bytes)
  | [], first, last, ws, hplaced, _, h => by
    cases hplaced
    simp only [storesOf, except_pure_eq_ok] at h
    subst h
    exact ⟨[], rfl, fun _ => ⟨by simp, fun _ => rfl⟩⟩
  | entry :: rest, first, last, ws, hplaced, hplain, h => by
    obtain ⟨rfl, hentry, hrest⟩ := hplaced
    obtain ⟨hplain, hothers⟩ := List.forall_mem_append.mp hplain
    simp only [storesOf, except_bind_eq_ok, except_pure_eq_ok] at h
    obtain ⟨vs, hvs, us, hus, rfl⟩ := h
    obtain ⟨bytes, hbytes, hstored⟩ := Entry.stores_bytes hentry hplain hvs
    obtain ⟨more, hmore, hstored'⟩ := storesOf_bytes hrest hothers hus
    refine ⟨bytes ++ more, by simp [bytesOf, hbytes, hmore], fun hlen => ?_⟩
    rw [List.length_append] at hlen
    obtain ⟨hsize, himage⟩ := hstored (by omega)
    obtain ⟨hlast, himage'⟩ := hstored' (by omega)
    rw [Entry.next_of_isPlain (hplain entry entry.mem_all), ← hsize] at hlast himage'
    refine ⟨?_, fun image => ?_⟩
    · rw [hlast, List.length_append, UInt32.ofNat_add, UInt32.add_assoc]
    · rw [Image.storeAll_append, himage, himage', Image.storeBytes_append]

end

theorem filterMap_getElem?_range {α : Type} (as : List α) (n : Nat) :
    (List.range n).filterMap (fun i => as[i]?) = as.take n := by
  induction n with
  | zero => rfl
  | succ n ih =>
    rw [List.range_succ, List.filterMap_append, ih, List.take_add_one]
    cases hn : as[n]? with
    | none => simp [hn]
    | some a => simp [hn]

/-- An entry alone generates its bytes. -/
theorem Assembly.entryBytes_eq {t : Session} {entry : Entry} {ws : List Store} {bytes : List UInt8}
    (hstores : entry.stores t.scopes = .ok ws) (hlen : bytes.length < 0x100000000)
    (hsize : UInt32.ofNat bytes.length = entry.size)
    (himage : ∀ image : Image, image.storeAll ws = image.storeBytes entry.address bytes) :
    ∃ t', Assembly.entryBytes entry t = .ok bytes t' := by
  obtain ⟨after, hemit, hafter⟩ := Entry.emit_makes hstores { t.output with image := {} }
  refine ⟨{ t with output.warnings := after.warnings }, ?_⟩
  have hcount : entry.size.toNat = bytes.length := by
    rw [← hsize, UInt32.toNat_ofNat_of_lt' hlen]
  have hread : ∀ offset ∈ List.range bytes.length,
      after.image.get? (entry.address + UInt32.ofNat offset) = bytes[offset]? := by
    intro offset hoffset
    have hlt := List.mem_range.mp hoffset
    have hback : (entry.address + UInt32.ofNat offset - entry.address).toNat = offset := by
      rw [UInt32.add_comm, UInt32.add_sub_cancel, UInt32.toNat_ofNat_of_lt' (Nat.lt_trans hlt hlen)]
    rw [hafter, himage, Image.get?_storeBytes (Nat.le_of_lt hlen), hback,
      List.getElem?_eq_getElem hlt, Option.some_or]
  rw [Assembly.entryBytes, hemit]
  simp only [hcount]
  rw [List.filterMap_congr hread, filterMap_getElem?_range, List.take_length]

mutual

theorem Entry.Placed.of_mem_all : ∀ {entry : Entry}, entry.Placed → ∀ e ∈ entry.all, e.Placed
  | .code _ _ _, h => List.forall_mem_singleton.mpr h
  | .space _ _ _ _, h => List.forall_mem_cons.mpr ⟨h, PlacedFrom.of_mem_entriesOf h.2.2⟩

theorem PlacedFrom.of_mem_entriesOf : ∀ {entries : List Entry} {first last : UInt32},
    PlacedFrom first entries last → ∀ e ∈ entriesOf entries, e.Placed
  | [], _, _, _ => List.forall_mem_nil _
  | _ :: _, _, _, h =>
    List.forall_mem_append.mpr ⟨Entry.Placed.of_mem_all h.2.1, PlacedFrom.of_mem_entriesOf h.2.2⟩

end

/-- Lines without `ORG` go as far as their sizes say, up to the width of an address. -/
theorem PlacedFrom.sub_eq {first last : UInt32} {entries : List Entry}
    (h : PlacedFrom first entries last) (hplain : ∀ e ∈ entriesOf entries, e.isPlain) :
    last - first = UInt32.ofNat (totalSize entries) := by
  induction entries generalizing first with
  | nil =>
    cases h
    simp [totalSize]
  | cons entry rest ih =>
    obtain ⟨rfl, -, hrest⟩ := h
    obtain ⟨hentry, hothers⟩ := List.forall_mem_append.mp hplain
    have hsize := ih hrest hothers
    rw [Entry.next_of_isPlain (hentry entry entry.mem_all)] at hsize
    rw [totalSize, List.foldr_cons, ← totalSize, UInt32.ofNat_add, ← hsize, UInt32.ofNat_toNat]
    grind

/-! ## Lines that placing gets to -/

/-- The space, if the value is the one that was made for the line with this scope. -/
def Expr.spaceFor? (owner : ScopeId) : Expr → Option SpaceId
  | .space id scope => if scope = owner then some id else none
  | _ => none

theorem spaceOf?_eq {s : Scopes} {line : Line} {label : String} {parent : ScopeId} {value : Expr}
    (hlabel : line.label = some label) (hparent : s.parent? line.scope = some parent)
    (hbinds : s.Binds parent label value) : spaceOf? s line = value.spaceFor? line.scope := by
  simp only [spaceOf?, hlabel, Option.bind_eq_bind, Option.bind_some, hparent, hbinds.member_eq]
  cases value <;> rfl

theorem spaceOf?_eq_none {s : Scopes} {line : Line} (hlabel : line.label = none) :
    spaceOf? s line = none := by
  rw [spaceOf?, hlabel]
  rfl

/-- The label of a line is bound before lines are placed, so its space stays the same. -/
theorem spaceOf?_extends {s t : Scopes} {item : Item} (h : item.Located s)
    (hrequires : item.requiresLabel = false) (hst : s.Extends t) :
    spaceOf? t item.line = spaceOf? s item.line := by
  cases hlabel : item.line.label with
  | none => rw [spaceOf?_eq_none hlabel, spaceOf?_eq_none hlabel]
  | some label =>
    obtain ⟨parent, value, hparent, hbinds, -⟩ := h hrequires label hlabel
    have hparent' : t.parent? item.line.scope = some parent := by
      rw [hst.parent?_eq (Scopes.index_lt_of_parent? hparent)]
      exact hparent
    rw [spaceOf?_eq hlabel hparent hbinds, spaceOf?_eq hlabel hparent' (hst.binds hbinds)]

namespace Assembly

/-- The address behind entries. -/
def endOf (first : UInt32) (entries : List Entry) : UInt32 :=
  entries.foldl (fun _ entry => entry.next) first

/-- Placing these lines, in `s`, gets to this item, which is then placed at this address in `t`.
    Regions inside it nest at most `levels` deep. -/
inductive Visits (s : Session) (lines : List Item) : Nat → Item → UInt32 → Session → Prop
  | line {before after : List Item} {item : Item} {entries : List Entry} {t : Session} :
    lines = before ++ item :: after → placeLines before 0 s = .ok entries t →
      Visits s lines t.waiting item (endOf 0 entries) t
  | inside {levels : Nat} {outer item : Item} {start address : UInt32} {region : Region}
      {id : SpaceId} {before after : List Item} {entries : List Entry} {t t₁ t₂ t₃ : Session} :
    Visits s lines (levels + 1) outer start t →
      Opens t outer start (.space region (some id)) t₁ →
      takeSections id t₁ = .ok (before ++ item :: after) t₂ →
      placeAll (placeLevels levels) before start t₂ = .ok (entries, address) t₃ →
      Visits s lines levels item address t₃

variable {s t t₁ t₂ t₃ : Session} {lines : List Item} {levels : Nat} {item : Item} {address : UInt32}

theorem Visits.lays {count : Nat} (hprepared : s.scopes.Prepared count)
    (h : Visits s lines levels item address t) : s.Lays t := by
  induction h with
  | line _ hplaced => exact (placeLines_takes hprepared (.refl s) hplaced).1
  | @inside levels _ _ _ _ _ _ _ _ _ _ _ _ _ _ hopens htake hplaced ih =>
    obtain ⟨-, -, hlays⟩ := hopens.taken hprepared ih htake
    exact (placeParts_takes hprepared (levels + 1) hlays hplaced).1

theorem placeAll_of_error {placeItem : Item → UInt32 → Assembly Entry} {before : List Item}
    {first : UInt32} {entries : List Entry} {failure : Failure} (after : List Item)
    (h : placeAll placeItem before first s = .ok (entries, address) t)
    (hitem : placeItem item address t = .error failure t₁) :
    placeAll placeItem (before ++ item :: after) first s = .error failure t₁ := by
  induction before generalizing first entries s with
  | nil =>
    simp only [placeAll, pure_eq_ok, Prod.mk.injEq] at h
    obtain ⟨⟨rfl, rfl⟩, rfl⟩ := h
    exact bind_eq_error.mpr (.inl hitem)
  | cons head rest ih =>
    simp only [placeAll, bind_eq_ok, pure_eq_ok, Prod.mk.injEq] at h
    obtain ⟨entry, u, hhead, ⟨others, _⟩, _, hrest, ⟨rfl, rfl⟩, rfl⟩ := h
    refine bind_eq_error.mpr (.inr ⟨entry, u, hhead, ?_⟩)
    exact bind_eq_error.mpr (.inl (ih hrest))

theorem placeLines_of_error {before : List Item} {first : UInt32} {entries : List Entry}
    {failure : Failure} (after : List Item) (h : placeLines before first s = .ok entries t)
    (hitem : placeLevels t.waiting item (endOf first entries) t = .error failure t₁) :
    placeLines (before ++ item :: after) first s = .error failure t₁ := by
  induction before generalizing first entries s with
  | nil =>
    obtain ⟨rfl, rfl⟩ := pure_eq_ok.mp h
    exact bind_eq_error.mpr (.inl hitem)
  | cons head rest ih =>
    simp only [placeLines, bind_eq_ok] at h
    obtain ⟨entry, u, hhead, h⟩ := h
    split at h
    · simp at h
    · next hnext =>
      simp only [bind_eq_ok, pure_eq_ok] at h
      obtain ⟨others, _, hrest, rfl, rfl⟩ := h
      refine bind_eq_error.mpr (.inr ⟨entry, u, hhead, ?_⟩)
      rw [if_neg hnext]
      exact bind_eq_error.mpr (.inl (ih hrest hitem))

/-- Sections are placed one behind the other. -/
theorem placeParts_placed (levels : Nat) : Placer.Sound (placeParts levels) := by
  cases levels with
  | zero =>
    intro items first last parts u u' h
    simp only [placeParts] at h
    split at h
    · simp only [pure_eq_ok, Prod.mk.injEq] at h
      obtain ⟨⟨rfl, rfl⟩, -⟩ := h
      rfl
    · simp at h
  | succ levels => exact placeAll_placed placeLevels_placed

/-- When a line that placing gets to cannot be placed, the source cannot. -/
theorem Visits.fails {failure : Failure} (h : Visits s lines levels item address t)
    (hitem : placeLevels levels item address t = .error failure t₁) :
    ∃ failure' t', placeLines lines 0 s = .error failure' t' ∧ failure'.what = failure.what := by
  induction h generalizing failure t₁ with
  | line hlines hplaced =>
    rw [hlines]
    exact ⟨failure, t₁, placeLines_of_error _ hplaced hitem, rfl⟩
  | @inside levels outer _ start _ _ _ _ after _ u _ _ _ _ hopens htake hplaced ih =>
    have hparts := placeAll_of_error after hplaced hitem
    have houter : placeLevels (levels + 1) outer start u =
        .error (failure.at outer.line.position none) t₁ := by
      rw [placeLevels_eq, placeWith_of_opens hopens]
      refine adaptExcept_eq_error.mpr ⟨failure, ?_, rfl⟩
      refine bind_eq_error.mpr (.inr ⟨_, _, htake, ?_⟩)
      exact bind_eq_error.mpr (.inl hparts)
    obtain ⟨failure', t', hfails, hwhat⟩ := ih houter
    exact ⟨failure', t', hfails, hwhat.trans (Traced.what_at _ _ _)⟩

/-- Once its sections are placed, a region is refused if they take more than there is. -/
theorem placeLevels_region {region : Region} {id : SpaceId} {taken : List Item} {parts : List Entry}
    {cursor : UInt32} (hopens : Opens t item address (.space region (some id)) t₁)
    (htake : takeSections id t₁ = .ok taken t₂)
    (hparts : placeParts levels taken address t₂ = .ok (parts, cursor) t₃) :
    placeLevels levels item address t =
      if region.size < cursor - address then
        .error ((Cause.sectionTooLarge (cursor - address) region.size).at item.line.position) t₃
      else .ok (.space item.line address { region with used := cursor - address } parts) t₃ := by
  rw [placeLevels_eq, placeWith_of_opens hopens]
  by_cases hlarge : region.size < cursor - address
  · rw [if_pos hlarge]
    refine adaptExcept_eq_error.mpr ⟨_, ?_, rfl⟩
    refine bind_eq_error.mpr (.inr ⟨_, _, htake, bind_eq_error.mpr (.inr ⟨_, _, hparts, ?_⟩)⟩)
    simp only [if_pos hlarge]
    rfl
  · rw [if_neg hlarge]
    refine traced_eq_ok.mpr ?_
    refine bind_eq_ok.mpr ⟨_, _, htake, bind_eq_ok.mpr ⟨_, _, hparts, ?_⟩⟩
    simp only [if_neg hlarge]
    rfl

end Assembly

/-! ## Assembled programs -/

/-- Nothing waits for any space. -/
theorem Session.Prepared.waitingFor_eq_nil {s : Session} {least : Nat} (h : s.Prepared least [])
    (id : SpaceId) : s.waitingFor id = [] := by
  rw [Session.waitingFor]
  cases hitems : s.spaces[id.index]? with
  | none => rfl
  | some items =>
    refine List.eq_nil_iff_forall_not_mem.mpr fun item hitem => ?_
    have hmem : item ∈ s.spaces.toList.flatten :=
      List.mem_flatten.mpr ⟨items, (Array.mem_of_getElem? hitems).val, hitem⟩
    exact List.not_mem_nil (h.waiting.mem_iff.mp hmem)

/-- The sections inside a region are these lines in their order. Their bytes, unless there are 4 GiB of
    them, are no more than the region has; and these bytes and then the fill byte, which is 0 unless the
    line says otherwise, are what the region generates. -/
structure Region.FilledWith (t : Session) (sections : List Item) (line : Line) (address : UInt32)
    (region : Region) (parts : List Entry) : Prop where
  lines : parts.map Entry.line = sections.map Item.line
  bytes : ∃ inside fill, bytesOf t.scopes parts = .ok inside ∧
    region.fillByte t.scopes = .ok fill ∧ (region.fill = none → fill = 0) ∧
    (inside.length < 0x100000000 → inside.length ≤ region.size.toNat ∧
      ∃ t', Assembly.entryBytes (.space line address region parts) t =
        .ok (inside ++ List.replicate (region.size.toNat - inside.length) fill) t')

/-- The line at which placing has arrived in `t` is refused if and only if its sections take more bytes
    than its region has, as far as 32 bits can tell. If it is, the source is refused for that reason. -/
structure Region.Judged (s : Session) (scope : ScopeId) (lines : List Item) (t : Session) (levels : Nat)
    (item : Item) (address : UInt32) (region : Region) (parts : List Entry) : Prop where
  refused : (∃ failure u, Assembly.placeLevels levels item address t = .error failure u) ↔
    region.size.toNat < totalSize parts % 0x100000000
  fails : region.size.toNat < totalSize parts % 0x100000000 → ∃ failure u,
    Assembly.resolve scope lines s = .error failure u ∧
      failure.what = .sectionTooLarge (UInt32.ofNat (totalSize parts)) region.size

namespace Assembly

variable {s s₁ s₂ t t₁ t₂ t₃ : Session} {source : Source} {lines : List Item}

/-- The lines that these blocks send to the space of a line. -/
def linesFor (s : Scopes) (line : Line) (log : List Sending) : List Item :=
  (spaceOf? s line).elim [] (sectionLines · log)

/-- Every placed line was registered. -/
theorem located_of_assemble {library : Library} {origin : Origin} {program : Program}
    (hload : origin.load (Session.new library) = .ok source s)
    (hregister : register source.items s = .ok () s₁)
    (hexpand : Assembly.expand source.items s₁ = .ok lines s₂)
    (h : assemble source s = .ok program t) {entry : Entry}
    (hentry : entry ∈ entriesOf program.entries) (hline : ¬entry.line.Defines) :
    ∃ item : Item, item.line = entry.line ∧ item.requiresLabel = false ∧ item.Located s₂.scopes := by
  obtain ⟨hs, htextual⟩ := Origin.load_prepared hload (Session.prepared_new library)
  obtain ⟨hdistinct, hknown⟩ := Origin.load_distinct hload
  obtain ⟨lines', sent, _, _, hregister', hexpand', hexpands, -, hplaces⟩ :=
    (assemble_once hs htextual hdistinct hknown).post h
  rw [hregister] at hregister'
  cases hregister'
  rw [hexpand] at hexpand'
  cases hexpand'
  have hmem : entry.line ∈ (lines ++ sent).map Item.line :=
    hplaces.entries.mem_iff.mp (List.mem_map_of_mem hentry)
  obtain ⟨item, hitem, hsame⟩ := List.mem_map.mp hmem
  obtain ⟨hovert, htemplates⟩ := Origin.load_overt hload
  have hfresh : s.Overt := by
    rw [Session.Overt, htemplates]
    exact fun template h => absurd h (Array.not_mem_empty template)
  obtain ⟨-, hlines, hsent⟩ :=
    hexpands.overt (overt_register _ hovert hregister hfresh) hovert
  refine ⟨item, hsame, Bool.eq_false_iff.mpr fun hrequires => hline ?_,
    hexpands.located (register_located hregister) item hitem⟩
  rw [← hsame]
  exact ((hlines.append hsent).of_mem hitem).defines hrequires

/-- What a region with sections inside generates, if it is generated at all. -/
theorem filledWith_of_stores {line : Line} {address : UInt32} {region : Region} {parts : List Entry}
    {sections : List Item} {ws : List Store} (hplaced : (Entry.space line address region parts).Placed)
    (hstores : (Entry.space line address region parts).stores t.scopes = .ok ws)
    (hvirtual : region.isVirtual = false) (hplain : ∀ e ∈ entriesOf parts, e.isPlain)
    (hlines : parts.map Entry.line = sections.map Item.line) :
    region.FilledWith t sections line address parts := by
  have hall : ∀ e ∈ (Entry.space line address region parts).all, e.isPlain :=
    List.forall_mem_cons.mpr ⟨by simp [Entry.isPlain, hvirtual], hplain⟩
  obtain ⟨bytes, hbytes, hstored⟩ := Entry.stores_bytes hplaced hall hstores
  obtain ⟨hsize, hused, hparts⟩ := hplaced
  have hinner := hstores
  simp only [Entry.stores, except_bind_eq_ok] at hinner
  obtain ⟨vs, hvs, -⟩ := hinner
  obtain ⟨inside, hinside, hfrom⟩ := storesOf_bytes hparts hplain hvs
  simp only [Entry.bytes, hinside, except_bind_eq_ok, except_pure_eq_ok, Except.ok.injEq,
    exists_eq_left'] at hbytes
  obtain ⟨fill, hfill, rfl⟩ := hbytes
  refine ⟨hlines, inside, fill, hinside, hfill, ?_, fun hshort => ?_⟩
  · intro hnone
    simp only [Region.fillByte, hnone, except_pure_eq_ok] at hfill
    exact hfill.symm
  · obtain ⟨-, -, hfits⟩ := Region.used_eq (hfrom hshort).1 hshort hused
    have hlen : (inside ++ List.replicate (region.size.toNat - inside.length) fill).length <
        0x100000000 := by
      rw [List.length_append, List.length_replicate, Nat.add_sub_cancel' hfits]
      exact region.size.toNat_lt
    obtain ⟨hcount, himage⟩ := hstored hlen
    exact ⟨hfits, entryBytes_eq hstores hlen hcount himage⟩

theorem judged_of_visits {scope : ScopeId} {levels : Nat} {item : Item} {address cursor : UInt32}
    {region : Region} {id : SpaceId} {taken : List Item} {parts : List Entry}
    (h : Visits s lines levels item address t)
    (hopens : Opens t item address (.space region (some id)) t₁)
    (htake : takeSections id t₁ = .ok taken t₂)
    (hparts : placeParts levels taken address t₂ = .ok (parts, cursor) t₃)
    (hplain : ∀ e ∈ entriesOf parts, e.isPlain) :
    region.Judged s scope lines t levels item address parts := by
  have hregion := placeLevels_region hopens htake hparts
  have hused : cursor - address = UInt32.ofNat (totalSize parts) :=
    (placeParts_placed levels hparts).sub_eq hplain
  have hlarge : region.size < cursor - address ↔
      region.size.toNat < totalSize parts % 0x100000000 := by
    rw [hused, UInt32.lt_iff_toNat_lt]
    exact Iff.rfl
  refine ⟨?_, fun hmore => ?_⟩
  · rw [← hlarge, hregion]
    by_cases hmore : region.size < cursor - address
    · simp [hmore]
    · simp [hmore]
  · rw [if_pos (hlarge.mpr hmore)] at hregion
    obtain ⟨failure, u, hfails, hwhat⟩ := h.fails hregion
    refine ⟨failure, u, bind_eq_error.mpr (.inl hfails), ?_⟩
    rw [hwhat, ← hused]
    exact Traced.what_at _ _ _

/-- **Sections fill their space** in the order in which they were expanded. If a source of a new
    session is assembled, every region that is not virtual, and has no `ORG` line and no virtual
    region inside, is filled with the sections that were sent to its space. If placing gets to such
    a region and its sections have been placed, it is refused if and only if they are too large for
    it.

    With an `ORG` line inside, sections leave gaps or lie over each other, and a virtual region
    takes addresses and stores nothing; then the bytes are not one list. -/
theorem sections_fill_space {library : Library} {origin : Origin}
    (hload : origin.load (Session.new library) = .ok source s)
    (hregister : register source.items s = .ok () s₁)
    (hexpand : Assembly.expand source.items s₁ = .ok lines s₂) :
    ∃ log, Sends (.items source.items) s₁ lines log s₂ ∧
      (∀ program t, assemble source s = .ok program t → ∀ line address region parts,
        .space line address region parts ∈ entriesOf program.entries → ¬line.Defines →
        region.isVirtual = false → (∀ e ∈ entriesOf parts, e.isPlain) →
          region.FilledWith t (linesFor s₂.scopes line log) line address parts) ∧
      ∀ levels item address t, Visits s₂ lines levels item address t →
        ∀ region id t₁ taken t₂ parts cursor t₃,
        Opens t item address (.space region (some id)) t₁ → takeSections id t₁ = .ok taken t₂ →
        placeParts levels taken address t₂ = .ok (parts, cursor) t₃ →
        (∀ e ∈ entriesOf parts, e.isPlain) →
          taken = sectionLines id log ∧ parts.map Entry.line = taken.map Item.line ∧
          region.Judged s₂ source.scope lines t levels item address parts := by
  obtain ⟨hs, htextual⟩ := Origin.load_prepared hload (Session.prepared_new library)
  have hs₁ := prepares_register _ htextual hregister hs
  obtain ⟨_, _, log, hunfolds, hlines⟩ := expandLevels_unfolds _ [] hexpand
  have hs₂ := hunfolds.prepared htextual hs₁
  have hsent : s₂.waitingFor = (sectionLines · log) := by
    funext id
    rw [hunfolds.waitingFor htextual hs₁, hs₁.waitingFor_eq_nil, List.nil_append]
  refine ⟨log, ⟨_, _, _, hunfolds, hlines⟩, ?_, ?_⟩
  · intro program t h line address region parts hentry hline hvirtual hplain
    obtain ⟨item, hsame, hrequires, hlocated⟩ :=
      located_of_assemble hload hregister hexpand h hentry hline
    obtain ⟨_, _, _, u, hregister', hexpand', hplace, -, -, hemit, ht⟩ := phases_of_assemble h
    rw [hregister] at hregister'
    cases hregister'
    rw [hexpand] at hexpand'
    cases hexpand'
    have hscopes : t.scopes = u.scopes := by rw [ht]
    obtain ⟨-, htakes⟩ := placeLines_takes hs₂.scopes (.refl s₂) hplace
    obtain ⟨later, hgrowth, hparts⟩ := htakes _ hentry
    obtain ⟨⟨last, hplaced⟩, -⟩ := placeLines_placed hplace
    obtain ⟨ws, hstores⟩ := storesOf_of_emitAll hemit
    obtain ⟨vs, hvs, -⟩ := generatedAt_of_storesOf hstores _ hentry
    refine filledWith_of_stores (hplaced.of_mem_entriesOf _ hentry) (hscopes ▸ hvs) hvirtual hplain ?_
    have hspace : spaceOf? later line = spaceOf? s₂.scopes line := by
      have hline : item.line = line := hsame
      rw [← hline]
      exact spaceOf?_extends hlocated hrequires hgrowth
    rw [hparts, hspace, hsent]
    rfl
  · intro levels item address t h region id t₁ taken t₂ parts cursor t₃ hopens htake hparts hplain
    have hlays := h.lays hs₂.scopes
    obtain ⟨htaken, -, hlays'⟩ := hopens.taken hs₂.scopes hlays htake
    obtain ⟨-, hlines, -⟩ := placeParts_takes hs₂.scopes levels hlays' hparts
    refine ⟨?_, hlines, judged_of_visits h hopens htake hparts hplain⟩
    rw [htaken, hsent]

/-- Two sections, the second of them through another name of the space, in a region that is filled up
    with `0FFh`. -/
theorem sections_fill_space_alias : ∃ source s s₁ s₂ lines program t line region parts,
    (Origin.text ("buf: ds 6,0ffh\nalias: equ buf\n section buf\n db 1\n ends\n" ++
        " section alias\n dw 203h\n ends\n")).load (Session.new {}) = .ok source s ∧
      register source.items s = .ok () s₁ ∧ Assembly.expand source.items s₁ = .ok lines s₂ ∧
      assemble source s = .ok program t ∧ .space line 0 region parts ∈ entriesOf program.entries ∧
      bytesOf t.scopes parts = .ok [1, 3, 2] ∧
      ∃ log, Sends (.items source.items) s₁ lines log s₂ ∧
        region.FilledWith t (linesFor s₂.scopes line log) line 0 parts := by
  have hpasses : passes (fun (program : Program) (t : Session) =>
      (entriesOf program.entries).any fun entry =>
        decide (entry.isRegion = true ∧ entry.address = 0 ∧ ¬entry.line.Defines ∧
          (∀ e ∈ entry.all, e.isPlain) ∧ (bytesOf t.scopes entry.parts).toOption = some [1, 3, 2]))
      (((Origin.text ("buf: ds 6,0ffh\nalias: equ buf\n section buf\n db 1\n ends\n" ++
        " section alias\n dw 203h\n ends\n")).load >>= assemble) (Session.new {})) = true := by
    decide +kernel
  obtain ⟨program, t, hrun, htest⟩ := eq_ok_of_passes hpasses
  obtain ⟨source, s, hload, hassemble⟩ := bind_eq_ok.mp hrun
  obtain ⟨lines, s₁, s₂, _, hregister, hexpand, -⟩ := phases_of_assemble hassemble
  obtain ⟨entry, hentry, hfound⟩ := List.any_eq_true.mp htest
  obtain ⟨hregion, haddress, hline, hplain, hbytes⟩ := of_decide_eq_true hfound
  obtain ⟨log, hsends, hfills, -⟩ := sections_fill_space hload hregister hexpand
  cases entry with
  | code line address body => cases hregion
  | space line address region parts =>
    cases haddress
    obtain ⟨hvirtual, hinner⟩ := List.forall_mem_cons.mp hplain
    have hinside : bytesOf t.scopes parts = .ok [1, 3, 2] := by
      cases hparts : bytesOf t.scopes parts with
      | error cause => simp [Entry.parts, hparts, Except.toOption] at hbytes
      | ok bytes => simpa [Entry.parts, hparts, Except.toOption] using hbytes
    exact ⟨source, s, s₁, s₂, lines, program, t, line, region, parts, hload, hregister, hexpand,
      hassemble, hentry, hinside, log, hsends, hfills program t hassemble line 0 region parts hentry
        hline (by simpa [Entry.isPlain] using hvirtual) hinner⟩

end Assembly

end Z80Asm
