import Z80Asm.Image.Basic

/-!
# What storing bytes changes

Addresses have 32 bits and storing wraps around, so consecutive addresses are a `Stretch`, given by
the first of them and their number. The place of an address `a` in it is `a - first`. A stretch
that does not wrap around is an interval, and one stretch is inside another if their numbers say
so (`Stretch.subset_iff`).

Numbers of bytes are natural numbers here. They are bounded where it matters, by as many as there
are addresses, for beyond that a store overwrites itself.
-/
set_option autoImplicit false

namespace Z80Asm

/-- Consecutive addresses, which wrap around. -/
structure Stretch where
  first : UInt32
  count : UInt32
  deriving DecidableEq, Repr, Inhabited

namespace Stretch

instance : Membership UInt32 Stretch :=
  ⟨fun st a => a - st.first < st.count⟩

instance (a : UInt32) (st : Stretch) : Decidable (a ∈ st) :=
  inferInstanceAs (Decidable (a - st.first < st.count))

instance : HasSubset Stretch :=
  ⟨fun st st' => ∀ a, a ∈ st → a ∈ st'⟩

variable {st st' : Stretch} {a : UInt32}

theorem mem_iff : a ∈ st ↔ (a - st.first).toNat < st.count.toNat :=
  UInt32.lt_iff_toNat_lt

theorem mem_iff_between (h : st.first.toNat + st.count.toNat ≤ 0x100000000) :
    a ∈ st ↔ st.first.toNat ≤ a.toNat ∧ a.toNat < st.first.toNat + st.count.toNat := by
  rw [mem_iff, UInt32.toNat_sub]
  have := a.toNat_lt
  have := st.first.toNat_lt
  omega

theorem subset_trans {st'' : Stretch} (h : st ⊆ st') (h' : st' ⊆ st'') : st ⊆ st'' :=
  fun a ha => h' a (h a ha)

/-- One stretch is inside another if it is empty, or starts there and ends there. -/
theorem subset_iff :
    st ⊆ st' ↔
      st.count = 0 ∨ (st.first - st'.first).toNat + st.count.toNat ≤ st'.count.toNat := by
  have hf := st.first.toNat_lt
  have hf' := st'.first.toNat_lt
  have hc := st.count.toNat_lt
  have hc' := st'.count.toNat_lt
  constructor
  · intro h
    by_cases hzero : st.count = 0
    · exact .inl hzero
    have hpos : 0 < st.count.toNat := Nat.pos_of_ne_zero fun h0 => hzero (UInt32.toNat_inj.mp h0)
    refine .inr (Nat.le_of_not_lt fun hlt => ?_)
    -- The first address is inside, so the one behind the end of the outer stretch is in the inner.
    have hfirst := mem_iff.mp (h st.first (mem_iff.mpr (by simpa using hpos)))
    have hlast := mem_iff.mp (h (st'.first + st'.count) (mem_iff.mpr ?_))
    · rw [UInt32.toNat_sub, UInt32.toNat_add] at hlast
      omega
    · rw [UInt32.toNat_sub] at hlt hfirst
      rw [UInt32.toNat_sub, UInt32.toNat_add]
      omega
  · rintro (hzero | hle) a ha
    · rw [mem_iff, hzero] at ha
      exact absurd ha (Nat.not_lt_zero _)
    · rw [mem_iff] at ha ⊢
      have := a.toNat_lt
      rw [UInt32.toNat_sub] at ha hle ⊢
      omega

instance (st st' : Stretch) : Decidable (st ⊆ st') :=
  decidable_of_iff _ subset_iff.symm

end Stretch

namespace Image

@[simp] theorem get?_empty (a : UInt32) : ({} : Image).get? a = none := by
  simp [get?]

theorem get?_store (image : Image) (address : UInt32) (byte : UInt8) (a : UInt32) :
    (image.store address byte).get? a = if address = a then some byte else image.get? a := by
  simp only [get?, store, Std.ExtTreeMap.getElem?_insert, Std.LawfulEqCmp.compare_eq_iff_eq]

/-- The address of the first byte is the place zero; every other place is one less from the next
    address on. -/
theorem toNat_sub_succ {a address : UInt32} (h : address ≠ a) :
    (a - address).toNat = (a - (address + 1)).toNat + 1 := by
  have hne : address.toNat ≠ a.toNat := fun heq => h (UInt32.toNat_inj.mp heq)
  rw [UInt32.toNat_sub, UInt32.toNat_sub, UInt32.toNat_add]
  have := a.toNat_lt
  have := address.toNat_lt
  have : (1 : UInt32).toNat = 1 := rfl
  omega

/-- Bytes that have a place hide what was there; fewer than fill the memory keep their places. -/
theorem get?_storeBytes {bytes : List UInt8} (hlen : bytes.length ≤ 0x100000000) (image : Image)
    (address a : UInt32) :
    (image.storeBytes address bytes).get? a =
      (bytes[(a - address).toNat]?).or (image.get? a) := by
  induction bytes generalizing image address with
  | nil => simp [storeBytes]
  | cons byte rest ih =>
    simp only [List.length_cons] at hlen
    rw [storeBytes, ih (by omega), get?_store]
    by_cases h : address = a
    · -- The rest is too short to come around to the first byte again.
      subst h
      have hlast : (address - (address + 1)).toNat = 0x100000000 - 1 := by
        rw [UInt32.toNat_sub, UInt32.toNat_add]
        have := address.toNat_lt
        have : (1 : UInt32).toNat = 1 := rfl
        omega
      rw [hlast, List.getElem?_eq_none (by omega)]
      simp
    · rw [toNat_sub_succ h, List.getElem?_cons_succ, if_neg h]

end Image

/-! ## Several stores -/

/-- Bytes that are stored from an address on. -/
structure Store where
  address : UInt32
  bytes : List UInt8
  deriving Repr, Inhabited

/-- Whether the store writes to an address. -/
def Store.Covers (w : Store) (a : UInt32) : Prop :=
  (a - w.address).toNat < w.bytes.length

namespace Image

/-- Makes stores in their order. -/
def storeAll (image : Image) : List Store → Image
  | [] => image
  | w :: rest => (image.storeBytes w.address w.bytes).storeAll rest

theorem storeBytes_append (image : Image) (address : UInt32) (bytes more : List UInt8) :
    image.storeBytes address (bytes ++ more) =
      (image.storeBytes address bytes).storeBytes (address + UInt32.ofNat bytes.length) more := by
  induction bytes generalizing image address with
  | nil => simp [storeBytes]
  | cons byte rest ih =>
    rw [List.cons_append, storeBytes, storeBytes, ih, List.length_cons, UInt32.ofNat_add,
      UInt32.add_comm (UInt32.ofNat rest.length), UInt32.add_assoc]
    rfl

theorem storeAll_append (image : Image) (ws vs : List Store) :
    image.storeAll (ws ++ vs) = (image.storeAll ws).storeAll vs := by
  induction ws generalizing image with
  | nil => rfl
  | cons w rest ih => exact ih _

theorem isSome_get?_storeBytes {bytes : List UInt8} (hlen : bytes.length ≤ 0x100000000)
    (image : Image) (address a : UInt32) :
    ((image.storeBytes address bytes).get? a).isSome ↔
      Store.Covers ⟨address, bytes⟩ a ∨ (image.get? a).isSome := by
  rw [get?_storeBytes hlen, Option.isSome_or, Bool.or_eq_true, isSome_getElem?]
  rfl

/-- **What has a byte after some stores**: what one of them covers, and what had one before. -/
theorem isSome_get?_storeAll {ws : List Store} (hlen : ∀ w ∈ ws, w.bytes.length ≤ 0x100000000)
    (image : Image) (a : UInt32) :
    ((image.storeAll ws).get? a).isSome ↔ (∃ w ∈ ws, w.Covers a) ∨ (image.get? a).isSome := by
  induction ws generalizing image with
  | nil => simp [storeAll]
  | cons w rest ih =>
    obtain ⟨hw, hrest⟩ := List.forall_mem_cons.mp hlen
    rw [storeAll, ih hrest, isSome_get?_storeBytes hw]
    simp only [List.mem_cons, exists_eq_or_imp]
    exact or_left_comm.trans or_assoc.symm

/-- From an empty image on, exactly what the stores cover has a byte. -/
theorem isSome_get?_storeAll_empty {ws : List Store} (hlen : ∀ w ∈ ws, w.bytes.length ≤ 0x100000000)
    (a : UInt32) : ((storeAll {} ws).get? a).isSome ↔ ∃ w ∈ ws, w.Covers a := by
  rw [isSome_get?_storeAll hlen, get?_empty]
  simp

end Image

end Z80Asm
