import Z80Asm.Proofs.Program.Emission
import Z80Asm.Proofs.Program.Expansions

/-!
# Where lines are placed

Placing threads a running address through the lines. `PlacedFrom first entries last` says that
entries stand one behind the other, the first of them at `first`, and that `last` is the address
behind them all. Inside a region the same holds of the sections, from the address of the region
on; they take the part of the region that is in use.

The lines of a program are placed from 0, and each of them ends inside the address space. With
what generating an entry writes (`Emission`), this gives the layout of an assembled program.

Lines may lie over each other, since an `ORG` line can set the running address back. Which byte is
seen then is not a matter of the layout (`Program/Overlay`).
-/
set_option autoImplicit false

namespace Z80Asm

open Success

/-! ## Placed entries -/

mutual

/-- What placing makes sure of inside an entry: a region is no larger than the address space, and
    its sections stand one behind the other from its start on and fit into it. -/
def Entry.Placed : Entry → Prop
  | .code _ _ _ => True
  | .space _ address region parts =>
    region.size ≤ addressSpace ∧ region.used ≤ region.size ∧
      PlacedFrom address parts (address + region.used)

def PlacedFrom : UInt32 → List Entry → UInt32 → Prop
  | first, [], last => first = last
  | first, entry :: rest, last =>
    entry.address = first ∧ entry.Placed ∧ PlacedFrom entry.next rest last

end

namespace PlacedFrom

variable {first last : UInt32} {entries : List Entry}

theorem address_first {entry : Entry} (h : PlacedFrom first entries last)
    (h0 : entries[0]? = some entry) : entry.address = first := by
  cases entries with
  | nil => simp at h0
  | cons e rest =>
    cases h0
    exact h.1

theorem address_succ {i : Nat} {entry next : Entry} (h : PlacedFrom first entries last)
    (hi : entries[i]? = some entry) (hnext : entries[i + 1]? = some next) :
    next.address = entry.next := by
  induction entries generalizing first i with
  | nil => simp at hi
  | cons e rest ih =>
    obtain ⟨-, -, hrest⟩ := h
    cases i with
    | zero =>
      cases hi
      exact hrest.address_first hnext
    | succ i => exact ih hrest hi hnext

theorem placed {entry : Entry} (h : PlacedFrom first entries last) (hmem : entry ∈ entries) :
    entry.Placed := by
  induction entries generalizing first with
  | nil => cases hmem
  | cons e rest ih =>
    obtain ⟨-, he, hrest⟩ := h
    cases hmem with
    | head => exact he
    | tail _ hmem => exact ih hrest hmem

theorem address_le {bound : UInt32} {entry : Entry} (h : PlacedFrom first entries last)
    (hfirst : first ≤ bound) (hnext : ∀ e ∈ entries, e.next ≤ bound) (hmem : entry ∈ entries) :
    entry.address ≤ bound := by
  induction entries generalizing first with
  | nil => cases hmem
  | cons e rest ih =>
    obtain ⟨rfl, -, hrest⟩ := h
    obtain ⟨he, hnext⟩ := List.forall_mem_cons.mp hnext
    cases hmem with
    | head => exact hfirst
    | tail _ hmem => exact ih hrest he hnext hmem

end PlacedFrom

/-! ## Regions -/

theorem below?_lt {bound : Nat} {v : Int64} {n : UInt32} (hbound : bound ≤ 0x100000000)
    (h : below? bound v = some n) : n.toNat < bound := by
  unfold below? at h
  split at h
  · next hv =>
    cases h
    have hlt : v.toInt.toNat < bound := by omega
    rw [UInt32.toNat_ofNat_of_lt' (Nat.lt_of_lt_of_le hlt hbound)]
    exact hlt
  · cases h

/-- A planned region is no larger than the address space, and nothing is in it yet. -/
theorem planSpace_region {s : Scopes} {line : Line} {region : Region} {id : Option SpaceId}
    (h : planSpace s line = .ok (.space region id)) :
    region.size ≤ addressSpace ∧ region.used = 0 := by
  unfold planSpace at h
  simp only at h
  split at h
  · simp only [except_bind_eq_ok] at h
    obtain ⟨count, -, h⟩ := h
    split at h
    · next size hsize =>
      simp only [except_pure_eq_ok, Plan.space.injEq] at h
      obtain ⟨rfl, -⟩ := h
      have hlt := below?_lt (by decide) hsize
      exact ⟨UInt32.le_iff_toNat_le.mpr (Nat.le_of_lt_succ hlt), rfl⟩
    · simp at h
  · simp at h

theorem plan_region {files : FileAccess} {s : Scopes} {item : Item} {region : Region}
    {id : Option SpaceId} (h : item.plan files s = .ok (.space region id)) :
    region.size ≤ addressSpace ∧ region.used = 0 := by
  unfold Item.plan at h
  simp only at h
  split at h
  case h_2 => exact planSpace_region h
  case h_4 => split at h <;> simp at h
  case h_5 => split at h <;> simp at h
  all_goals simp at h

/-! ## Placing -/

namespace Assembly

variable {item : Item} {address : UInt32} {entry : Entry} {s s' : Session}

/-- A placer is sound if what it places stands one behind the other. -/
def Placer.Sound (placeParts : Placer) : Prop :=
  ∀ {items : List Item} {address last : UInt32} {parts : List Entry} {s s' : Session},
    placeParts items address s = .ok (parts, last) s' → PlacedFrom address parts last

theorem placeWith_placed {placeParts : Placer} (hparts : placeParts.Sound)
    (h : placeWith placeParts item address s = .ok entry s') :
    entry.address = address ∧ entry.Placed := by
  simp only [placeWith, traced_eq_ok, bind_eq_ok, get_eq_ok, scopes_eq_ok, ofExcept_eq_ok] at h
  obtain ⟨_, _, -, _, _, -, _, _, -, plan, _, ⟨hplan, -⟩, h⟩ := h
  cases plan with
  | code code =>
    simp only [pure_eq_ok] at h
    obtain ⟨rfl, -⟩ := h
    exact ⟨rfl, trivial⟩
  | space region id =>
    obtain ⟨hsize, hused⟩ := plan_region hplan
    cases id with
    | none =>
      simp only [pure_eq_ok] at h
      obtain ⟨rfl, -⟩ := h
      refine ⟨rfl, hsize, ?_, ?_⟩
      · simp [hused]
      · simp [PlacedFrom, hused]
    | some id =>
      simp only [bind_eq_ok] at h
      obtain ⟨lines, _, -, ⟨parts, cursor⟩, _, hplaced, h⟩ := h
      split at h
      · simp at h
      · next hfits =>
        simp only [pure_eq_ok] at h
        obtain ⟨rfl, -⟩ := h
        -- What is used is the way of the cursor, so the sections end where the cursor is.
        refine ⟨rfl, hsize, UInt32.not_lt.mp hfits, ?_⟩
        show PlacedFrom address parts (address + (cursor - address))
        rw [UInt32.add_comm, UInt32.sub_add_cancel]
        exact hparts hplaced

theorem placeAll_placed {placeItem : Item → UInt32 → Assembly Entry}
    (hitem : ∀ {item address entry s s'}, placeItem item address s = .ok entry s' →
      entry.address = address ∧ entry.Placed) :
    Placer.Sound (placeAll placeItem) := by
  intro items
  induction items with
  | nil =>
    intro address last parts s s' h
    simp only [placeAll, pure_eq_ok, Prod.mk.injEq] at h
    obtain ⟨⟨rfl, rfl⟩, -⟩ := h
    rfl
  | cons item rest ih =>
    intro address last parts s s' h
    simp only [placeAll, bind_eq_ok, pure_eq_ok, Prod.mk.injEq] at h
    obtain ⟨entry, _, hentry, ⟨entries, end'⟩, _, hrest, ⟨rfl, rfl⟩, -⟩ := h
    obtain ⟨haddress, hplaced⟩ := hitem hentry
    exact ⟨haddress, hplaced, ih hrest⟩

theorem placeLevels_placed {levels : Nat}
    (h : placeLevels levels item address s = .ok entry s') :
    entry.address = address ∧ entry.Placed := by
  induction levels generalizing item address entry s s' with
  | zero =>
    refine placeWith_placed ?_ h
    intro items address last parts s s' h
    dsimp only at h
    split at h
    · simp only [pure_eq_ok, Prod.mk.injEq] at h
      obtain ⟨⟨rfl, rfl⟩, -⟩ := h
      rfl
    · simp at h
  | succ levels ih => exact placeWith_placed (placeAll_placed ih) h

/-- The lines of a program stand one behind the other, and each ends inside the address space. -/
theorem placeLines_placed {items : List Item} {entries : List Entry}
    (h : placeLines items address s = .ok entries s') :
    (∃ last, PlacedFrom address entries last) ∧ ∀ e ∈ entries, e.next ≤ addressSpace := by
  induction items generalizing address entries s s' with
  | nil =>
    simp only [placeLines, pure_eq_ok] at h
    obtain ⟨rfl, -⟩ := h
    exact ⟨⟨address, rfl⟩, by simp⟩
  | cons item rest ih =>
    simp only [placeLines, place, bind_eq_ok, get_eq_ok] at h
    obtain ⟨entry, _, ⟨_, _, -, hentry⟩, h⟩ := h
    split at h
    · simp at h
    · next hnext =>
      simp only [bind_eq_ok, pure_eq_ok] at h
      obtain ⟨entries, _, hrest, rfl, -⟩ := h
      obtain ⟨haddress, hplaced⟩ := placeLevels_placed hentry
      obtain ⟨⟨last, hlast⟩, hends⟩ := ih hrest
      exact ⟨⟨last, haddress, hplaced, hlast⟩,
        List.forall_mem_cons.mpr ⟨UInt32.not_lt.mp hnext, hends⟩⟩

/-- An assembled program is placed from 0 on, each of its lines ends inside the address space, and
    what is in the image afterwards was there before or was written by its entries. -/
theorem assemble_eq_ok {source : Source} {program : Program}
    (h : assemble source s = .ok program s') :
    (∃ last, PlacedFrom 0 program.entries last) ∧
      (∀ e ∈ program.entries, e.next ≤ addressSpace) ∧
      emitAll s'.scopes program.entries s.output = .ok () s'.output := by
  obtain ⟨items, s₁, s₂, t, -, -, hplace, -, hadvances, hemit, hlast⟩ := phases_of_assemble h
  obtain ⟨hplaced, hends⟩ := placeLines_placed hplace
  rw [hadvances.output] at hemit
  rw [hlast]
  exact ⟨hplaced, hends, hemit⟩

end Assembly

/-! ## The layout of an assembled program -/

/-- The address that an `ORG` line continues at. -/
def Entry.orgTarget? : Entry → Option UInt32
  | .code _ _ (.org target) => some target
  | _ => none

theorem Entry.next_eq (entry : Entry) :
    entry.next = entry.orgTarget?.getD (entry.address + entry.size) := by
  cases entry with
  | code line address code => cases code <;> rfl
  | space line address region parts => rfl

/-- The generation succeeds whatever was written before, writes one byte to each address of the
    stretch, the same ones each time, and writes nowhere else. -/
def Emit.WritesExactly (x : Emit Unit) (st : Stretch) : Prop :=
  ∃ bytes : List UInt8, bytes.length = st.count.toNat ∧
    ∀ out, ∃ out', x out = .ok () out' ∧ ∀ a, out'.image.get? a =
      if a ∈ st then bytes[(a - st.first).toNat]? else out.image.get? a

theorem Emit.Makes.writesExactly {x : Emit Unit} {st : Stretch} {bytes : List UInt8}
    (hx : x.Makes [⟨st.first, bytes⟩]) (hlen : bytes.length = st.count.toNat) :
    x.WritesExactly st := by
  refine ⟨bytes, hlen, fun out => ?_⟩
  obtain ⟨out', hout', himage⟩ := hx out
  refine ⟨out', hout', fun a => ?_⟩
  have hsize : bytes.length ≤ 0x100000000 := by
    have := st.count.toNat_lt
    omega
  rw [himage]
  show (out.image.storeBytes st.first bytes).get? a = _
  rw [Image.get?_storeBytes hsize]
  by_cases h : a ∈ st
  · have hlt : (a - st.first).toNat < bytes.length := hlen ▸ Stretch.mem_iff.mp h
    rw [if_pos h, List.getElem?_eq_getElem hlt, Option.some_or]
  · have hle : bytes.length ≤ (a - st.first).toNat :=
      hlen ▸ Nat.le_of_not_lt fun hlt => h (Stretch.mem_iff.mpr hlt)
    rw [if_neg h, List.getElem?_eq_none hle, Option.none_or]

/-- An entry is no longer than what it stores at once, or a region inside the address space. -/
theorem Entry.size_lt {entry : Entry} {scopes : Scopes} {limit : Nat} {ws : List Store}
    (hplaced : entry.Placed) (hstores : entry.stores scopes = .ok ws)
    (hshort : entry.ShorterThan scopes limit) (hlow : 0x10000 < limit)
    (hhigh : limit ≤ 0x100000000) :
    entry.size.toNat < limit := by
  cases entry with
  | code line address code =>
    simp only [Entry.stores, except_bind_eq_ok] at hstores
    obtain ⟨bytes, hbytes, -⟩ := hstores
    have hlen := hshort.length_lt hbytes
    rw [Code.length_bytes hbytes (by omega)] at hlen
    exact hlen
  | space line address region parts =>
    have hsize : region.size.toNat ≤ 0x10000 := UInt32.le_iff_toNat_le.mp hplaced.1
    exact Nat.lt_of_le_of_lt hsize hlow

/-- The end of an entry is no 32-bit number. -/
def Entry.Wraps (entry : Entry) : Prop :=
  0x100000000 ≤ entry.address.toNat + entry.size.toNat

theorem Entry.toNat_end {entry : Entry} (h : ¬entry.Wraps) :
    (entry.address + entry.size).toNat = entry.address.toNat + entry.size.toNat := by
  rw [UInt32.toNat_add]
  exact Nat.mod_eq_of_lt (Nat.not_le.mp h)

/-- The lines of a program lie where the running address says. Generation is meant with the symbols
    of `s`.

    The running address has 32 bits, and so has its comparison with the address space. A line whose
    end wraps around is accepted, and the lines behind it are placed from a low address on again.
    Such a line nearly fills all addresses of 32 bits, so that only a data statement or a binary
    file can be one. -/
structure Program.LaidOut (program : Program) (s : Scopes) : Prop where
  /-- The running address starts at 0. -/
  first : ∀ e, program.entries[0]? = some e → e.address = 0
  /-- An `ORG` line sets it, and every other line moves it by its size, in 32 bits. -/
  next : ∀ i e e', program.entries[i]? = some e → program.entries[i + 1]? = some e' →
    e'.address = e.orgTarget?.getD (e.address + e.size)
  nextTrue : ∀ i e e', program.entries[i]? = some e → program.entries[i + 1]? = some e' →
    e.orgTarget? = none → ¬e.Wraps → e'.address.toNat = e.address.toNat + e.size.toNat
  /-- Every line ends inside the address space, or its end wraps around. -/
  inside : ∀ e ∈ program.entries, e.orgTarget? = none →
    e.Wraps ∨ e.address.toNat + e.size.toNat ≤ addressSpace.toNat
  /-- What wraps around is longer than anything else in a program can be. -/
  wraps : ∀ e ∈ program.entries, e.Wraps → 0xFFFF0000 ≤ e.size.toNat ∧ ¬e.ShorterThan s 0xFFFF0000
  /-- A line that is not a region writes to its own addresses and nowhere else. -/
  exact : ∀ line address code, .code line address code ∈ program.entries →
    ((Entry.code line address code).emit s).WritesExactly ⟨address, code.size⟩

namespace Assembly

variable {source : Source} {s s' : Session} {program : Program}

theorem stores_of_assemble {entry : Entry} (h : assemble source s = .ok program s')
    (hmem : entry ∈ program.entries) : ∃ ws, entry.stores s'.scopes = .ok ws := by
  obtain ⟨-, -, hemit⟩ := assemble_eq_ok h
  obtain ⟨ws, hws⟩ := storesOf_of_emitAll hemit
  obtain ⟨vs, hvs, -⟩ := Entry.stores_of_mem hws hmem
  exact ⟨vs, hvs⟩

theorem writesExactly_of_assemble {line : Line} {address : UInt32} {code : Code}
    (h : assemble source s = .ok program s') (hmem : .code line address code ∈ program.entries)
    (hshort : (Entry.code line address code).ShorterThan s'.scopes 0x100000000) :
    (code.emit s'.scopes line address).WritesExactly ⟨address, code.size⟩ := by
  obtain ⟨ws, hws⟩ := stores_of_assemble h hmem
  simp only [Entry.stores, except_bind_eq_ok] at hws
  obtain ⟨bytes, hbytes, -⟩ := hws
  exact (Code.emit_makes line hbytes).writesExactly
    (Code.length_bytes hbytes (hshort.length_lt hbytes))

theorem address_le_of_assemble {entry : Entry} (h : assemble source s = .ok program s')
    (hmem : entry ∈ program.entries) : entry.address.toNat ≤ 0x10000 := by
  obtain ⟨⟨last, hplaced⟩, hends, -⟩ := assemble_eq_ok h
  exact UInt32.le_iff_toNat_le.mp (hplaced.address_le (by decide) hends hmem)

/-- Unless something that is stored at once nearly fills the memory, the end of a line is computed
    without wrapping around. -/
theorem not_wraps_of_assemble {entry : Entry} (h : assemble source s = .ok program s')
    (hmem : entry ∈ program.entries) (hshort : entry.ShorterThan s'.scopes 0xFFFF0000) :
    ¬entry.Wraps := by
  obtain ⟨⟨last, hplaced⟩, -, -⟩ := assemble_eq_ok h
  obtain ⟨ws, hws⟩ := stores_of_assemble h hmem
  have haddress := address_le_of_assemble h hmem
  have hsize : entry.size.toNat < 0xFFFF0000 :=
    Entry.size_lt (hplaced.placed hmem) hws hshort (by decide) (by decide)
  unfold Entry.Wraps
  omega

theorem inside_of_assemble {entry : Entry} (h : assemble source s = .ok program s')
    (hmem : entry ∈ program.entries) (horg : entry.orgTarget? = none) (hwraps : ¬entry.Wraps) :
    entry.address.toNat + entry.size.toNat ≤ addressSpace.toNat := by
  obtain ⟨-, hends, -⟩ := assemble_eq_ok h
  have hend := hends entry hmem
  rw [Entry.next_eq, horg] at hend
  rw [← Entry.toNat_end hwraps]
  exact UInt32.le_iff_toNat_le.mp hend

theorem end_le_of_assemble {entry : Entry} (h : assemble source s = .ok program s')
    (hmem : entry ∈ program.entries) (horg : entry.orgTarget? = none)
    (hshort : entry.ShorterThan s'.scopes 0xFFFF0000) :
    entry.address.toNat + entry.size.toNat ≤ addressSpace.toNat :=
  inside_of_assemble h hmem horg (not_wraps_of_assemble h hmem hshort)

/-- **An assembled program is laid out by the running address.** What is stored at once has to fit into
    the addresses of 32 bits, for else the size of a line is not the number of its bytes. -/
theorem assemble_laidOut (h : assemble source s = .ok program s')
    (hshort : ∀ e ∈ program.entries, e.ShorterThan s'.scopes 0x100000000) :
    program.LaidOut s'.scopes := by
  obtain ⟨⟨last, hplaced⟩, -, -⟩ := assemble_eq_ok h
  have hnext : ∀ i e e', program.entries[i]? = some e → program.entries[i + 1]? = some e' →
      e'.address = e.orgTarget?.getD (e.address + e.size) := by
    intro i e next he hnext
    rw [hplaced.address_succ he hnext, Entry.next_eq]
  refine ⟨fun e he => hplaced.address_first he, hnext, ?_, ?_, ?_, ?_⟩
  · intro i e e' he he' horg hwraps
    rw [hnext i e e' he he', horg, ← Entry.toNat_end hwraps]
    rfl
  · intro e he horg
    by_cases hwraps : e.Wraps
    · exact .inl hwraps
    · exact .inr (inside_of_assemble h he horg hwraps)
  · intro e he hwraps
    have haddress := address_le_of_assemble h he
    refine ⟨?_, fun hshort => not_wraps_of_assemble h he hshort hwraps⟩
    unfold Entry.Wraps at hwraps
    omega
  · intro line address code hmem
    rw [Entry.emit]
    exact writesExactly_of_assemble h hmem (hshort _ hmem)

/-- A source with a jump to a label behind an `ORG` line, data and a region. -/
theorem assemble_laidOut_org_data_region : ∃ program s',
    (loadText " jp go\n org 100h\n db 1,\"ab\"\n ds 4\ngo: ld a,(ix+2)\n" >>= assemble)
        (Session.new {}) = .ok program s' ∧
      program.entries.map (·.address) = [0, 3, 0x100, 0x103, 0x107] ∧
      program.LaidOut s'.scopes := by
  have hpasses : passes (fun (program : Program) (s' : Session) =>
      decide (program.entries.map (·.address) = [0, 3, 0x100, 0x103, 0x107] ∧
        ∀ e ∈ program.entries, e.ShorterThan s'.scopes 0x100000000))
      ((loadText " jp go\n org 100h\n db 1,\"ab\"\n ds 4\ngo: ld a,(ix+2)\n" >>= assemble)
        (Session.new {})) = true := by
    decide +kernel
  obtain ⟨program, s', hrun, htest⟩ := eq_ok_of_passes hpasses
  obtain ⟨haddresses, hshort⟩ := of_decide_eq_true htest
  obtain ⟨source, s, -, hassemble⟩ := bind_eq_ok.mp hrun
  exact ⟨program, s', hrun, haddresses, assemble_laidOut hassemble hshort⟩

end Assembly

end Z80Asm
