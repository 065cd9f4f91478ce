import Z80Asm.Expr.Arithmetic

/-!
# Values and their bytes

The lowest bytes of a value give it modulo a power of two, and a value in the range of a signed byte
is given back by its lowest byte.

Only what code and data need is here: one, two or four bytes of a 64-bit word.
-/
set_option autoImplicit false

namespace Z80Asm

theorem Int64.toInt_of_within {lo hi v : Int64} (h : Int64.within lo hi v = true) :
    lo.toInt ≤ v.toInt ∧ v.toInt ≤ hi.toInt := by
  rw [Int64.within, Bool.and_eq_true, decide_eq_true_iff, decide_eq_true_iff] at h
  exact ⟨Int64.le_iff_toInt_le.mp h.1, Int64.le_iff_toInt_le.mp h.2⟩

theorem Int64.exists_ofNat_of_within {hi v : Int64} (h : Int64.within 0 hi v = true) :
    ∃ n ≤ hi.toInt.toNat, v = Int64.ofNat n := by
  obtain ⟨hlo, hhi⟩ := Int64.toInt_of_within h
  rw [Int64.toInt_zero] at hlo
  refine ⟨v.toInt.toNat, by omega, ?_⟩
  rw [← Int64.ofInt_eq_ofNat, Int.toNat_of_nonneg hlo, Int64.ofInt_toInt]

/-- A word is read as unsigned or as signed. -/
theorem Int64.toInt_eq_or (v : Int64) :
    v.toInt = v.toUInt64.toNat ∨ v.toInt = v.toUInt64.toNat - 0x10000000000000000 := by
  show v.toBitVec.toInt = v.toBitVec.toNat ∨
    v.toBitVec.toInt = v.toBitVec.toNat - 0x10000000000000000
  rw [BitVec.toInt_eq_toNat_cond]
  split
  · exact .inl rfl
  · exact .inr rfl

theorem toNat_lowByte (v : Int64) : ((lowByte v).toNat : Int) = v.toInt % 0x100 := by
  have hlow : (lowByte v).toNat = v.toUInt64.toNat % 0x100 := UInt64.toNat_toUInt8 _
  rcases Int64.toInt_eq_or v with h | h <;> omega

theorem toInt_shiftRight_eight (v : Int64) : (v >>> 8).toInt = v.toInt / 0x100 := by
  show (v.toBitVec.sshiftRight' _).toInt = v.toBitVec.toInt / 0x100
  rw [BitVec.sshiftRight', BitVec.toInt_sshiftRight, Int.shiftRight_eq_div_pow]
  rfl

theorem toNat_lowBytes (v : Int64) :
    ((lowByte v).toNat + 0x100 * (lowByte (v >>> 8)).toNat : Int) = v.toInt % 0x10000 := by
  rw [toNat_lowByte, toNat_lowByte, toInt_shiftRight_eight]
  omega

/-- A byte as a signed number. -/
def signedByte (byte : UInt8) : Int64 :=
  byte.toInt8.toInt64

theorem signedByte_lowByte {v : Int64} (h : fitsDisplacement v = true) :
    signedByte (lowByte v) = v := by
  obtain ⟨hlo, hhi⟩ := Int64.toInt_of_within h
  have hlo : -0x80 ≤ v.toInt := hlo
  have hhi : v.toInt ≤ 0x7F := hhi
  have hlow := toNat_lowByte v
  have hlt := (lowByte v).toNat_lt
  rw [← Int64.toInt_inj, signedByte, Int8.toInt_toInt64]
  show (lowByte v).toBitVec.toInt = v.toInt
  rw [BitVec.toInt_eq_toNat_cond]
  show (if 2 * (lowByte v).toNat < 0x100 then ((lowByte v).toNat : Int)
    else (lowByte v).toNat - 0x100) = v.toInt
  split <;> omega

end Z80Asm
