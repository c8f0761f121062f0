import Mathlib.Data.Nat.ModEq
import Mathlib.Tactic.Ring

/-! # Fixed-width C integers

On the LP64 targets of the library `int` and `uint32_t` have 32 bits, `uint64_t`
and `size_t` have 64. A conversion from `int` to `uint64_t` extends the sign, a
conversion back keeps the low 32 bits. Signed overflow wraps.
-/

namespace Libibtl.Foundation

abbrev CInt := BitVec 32
abbrev UInt32T := BitVec 32
abbrev UInt64T := BitVec 64

/-- The conversion `(uint64_t)x` of an `int`. -/
def uint64OfInt (x : CInt) : UInt64T := x.signExtend 64

/-- The conversion `(int)x` of a `uint64_t`. -/
def intOfUint64 (x : UInt64T) : CInt := x.setWidth 32

/-- The conversion `(uint32_t)x` of a `uint64_t`. -/
def uint32OfUint64 (x : UInt64T) : UInt32T := x.setWidth 32

@[simp] theorem intOfUint64_uint64OfInt (x : CInt) : intOfUint64 (uint64OfInt x) = x := by
  apply BitVec.eq_of_getLsbD_eq
  intro i hi
  rw [intOfUint64, uint64OfInt, BitVec.getLsbD_setWidth, BitVec.getLsbD_signExtend]
  simp [hi, show i < 64 by omega]

theorem uint64OfInt_injective : Function.Injective uint64OfInt := by
  intro x y h
  rw [← intOfUint64_uint64OfInt x, h, intOfUint64_uint64OfInt]

@[simp] theorem uint64OfInt_inj {x y : CInt} : uint64OfInt x = uint64OfInt y ↔ x = y :=
  uint64OfInt_injective.eq_iff

theorem msb_false_of_nonneg {x : CInt} (h : 0 ≤ x.toInt) : x.msb = false := by
  rw [BitVec.msb_eq_toInt]
  simpa using h

theorem toNat_lt_of_nonneg {x : CInt} (h : 0 ≤ x.toInt) : x.toNat < 2 ^ 31 := by
  have hmsb := msb_false_of_nonneg h
  rw [BitVec.msb_eq_decide] at hmsb
  simpa using hmsb

theorem toInt_eq_toNat_of_nonneg {x : CInt} (h : 0 ≤ x.toInt) : x.toInt = x.toNat :=
  BitVec.toInt_eq_toNat_of_msb (msb_false_of_nonneg h)

theorem toNat_uint64OfInt_of_nonneg {x : CInt} (h : 0 ≤ x.toInt) : (uint64OfInt x).toNat = x.toNat := by
  rw [uint64OfInt, BitVec.signExtend_eq_setWidth_of_msb_false (msb_false_of_nonneg h), BitVec.toNat_setWidth]
  exact Nat.mod_eq_of_lt (x.isLt.trans (by decide))

theorem toNat_uint64OfInt_mod (x : CInt) : (uint64OfInt x).toNat % 2 ^ 32 = x.toNat := by
  have h := congrArg BitVec.toNat (intOfUint64_uint64OfInt x)
  rwa [intOfUint64, BitVec.toNat_setWidth] at h

theorem toNat_uint64OfInt_modEq (x : CInt) : (uint64OfInt x).toNat ≡ x.toNat [MOD 2 ^ 32] := by
  rw [Nat.ModEq, toNat_uint64OfInt_mod, Nat.mod_eq_of_lt x.isLt]

theorem toNat_mul_modEq_64 (x y : UInt64T) : (x * y).toNat ≡ x.toNat * y.toNat [MOD 2 ^ 32] := by
  rw [BitVec.toNat_mul]
  exact (Nat.mod_modEq _ _).of_dvd (by decide)

theorem toNat_mul_modEq_32 (x y : CInt) : (x * y).toNat ≡ x.toNat * y.toNat [MOD 2 ^ 32] := by
  rw [BitVec.toNat_mul]
  exact Nat.mod_modEq _ _

theorem toNat_uint32OfUint64 (x : UInt64T) : (uint32OfUint64 x).toNat = x.toNat % 2 ^ 32 := by
  rw [uint32OfUint64, BitVec.toNat_setWidth]

/-- A `size_t` product of non-negative factors is exact below `2 ^ 64`. -/
theorem toNat_mul_of_lt {x y : UInt64T} (h : x.toNat * y.toNat < 2 ^ 64) :
    (x * y).toNat = x.toNat * y.toNat := by
  rw [BitVec.toNat_mul, Nat.mod_eq_of_lt h]

/-! ## Values that are given as natural numbers -/

section OfNat

variable {a b : Nat}

theorem toInt_ofNat_of_lt (h : a < 2 ^ 31) : (BitVec.ofNat 32 a).toInt = a := by
  rw [BitVec.toInt_ofNat', Int.bmod_eq_of_le]
  · omega
  · omega

theorem uint64OfInt_ofNat (h : a < 2 ^ 31) : uint64OfInt (BitVec.ofNat 32 a) = BitVec.ofNat 64 a := by
  apply BitVec.eq_of_toNat_eq
  rw [toNat_uint64OfInt_of_nonneg (by rw [toInt_ofNat_of_lt h]; omega)]
  simp only [BitVec.toNat_ofNat]
  omega

theorem intOfUint64_ofNat (a : Nat) : intOfUint64 (BitVec.ofNat 64 a) = BitVec.ofNat 32 a := by
  apply BitVec.eq_of_toNat_eq
  simp only [intOfUint64, BitVec.toNat_setWidth, BitVec.toNat_ofNat]
  omega

theorem ofNat_sub_ofNat_of_le (w : Nat) (h : a ≤ b) : BitVec.ofNat w b - BitVec.ofNat w a = BitVec.ofNat w (b - a) := by
  obtain ⟨c, rfl⟩ := Nat.exists_eq_add_of_le h
  rw [Nat.add_sub_cancel_left, BitVec.ofNat_add, BitVec.add_comm, BitVec.add_sub_cancel]

theorem ofNat_lt_ofNat (ha : a < 2 ^ 64) (hb : b < 2 ^ 64) : BitVec.ofNat 64 a < BitVec.ofNat 64 b ↔ a < b := by
  rw [BitVec.lt_def, BitVec.toNat_ofNat, BitVec.toNat_ofNat, Nat.mod_eq_of_lt ha, Nat.mod_eq_of_lt hb]

theorem ofNat_slt_ofNat (ha : a < 2 ^ 31) (hb : b < 2 ^ 31) :
    (BitVec.ofNat 32 a).slt (BitVec.ofNat 32 b) = decide (a < b) := by
  rw [BitVec.slt, toInt_ofNat_of_lt ha, toInt_ofNat_of_lt hb]
  simp

end OfNat

end Libibtl.Foundation
