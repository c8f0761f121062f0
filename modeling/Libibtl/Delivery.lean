import Libibtl.Posting

/-! # Typed data and its exact size

The size of typed data as a natural number, and what the C expressions for it
compute. The blocks of a message are numbered through all of its elements; the
block of number `b` starts `b` steps after the user pointer, on both sides.
-/

namespace Libibtl

open Foundation

/-- The number of blocks of a message. -/
def Datatype.blocks (d : Datatype) (n : CInt) : Nat := turns d.count * turns n

/-- The number of bytes of a message, without overflow. -/
def Datatype.dataSize (d : Datatype) (n : CInt) : Nat := d.blocks n * blockLen d

/-- The distance from one block to the next. A type of one block is contiguous. -/
def Datatype.stepLen (d : Datatype) : Nat := if d.count = 1 then blockLen d else strideLen d

/-- Every block of the receive buffer holds the bytes of that block of the send buffer. -/
def SameBlocks (d : Datatype) (n : CInt) (send : Buffer) (sendOff : Nat) (recv : Buffer) (recvOff : Nat) : Prop :=
  ∀ b < d.blocks n, ∀ k < blockLen d, recv (recvOff + b * d.stepLen + k) = send (sendOff + b * d.stepLen + k)

theorem turns_of_nonneg {x : CInt} (h : 0 ≤ x.toInt) : turns x = x.toNat := by
  rw [turns, toInt_eq_toNat_of_nonneg h, Int.toNat_natCast]

namespace Datatype.Regular

variable {d : Datatype} {n : CInt}

theorem mul_size {x : CInt} (h : d.Regular) (hx : 0 ≤ x.toInt) :
    (uint64OfInt x * d.size).toNat = x.toNat * d.size.toNat := by
  have hlt : x.toNat * d.size.toNat ≤ 2 ^ 31 * 8 :=
    Nat.mul_le_mul (toNat_lt_of_nonneg hx).le h.size_le
  rw [toNat_mul_of_lt, toNat_uint64OfInt_of_nonneg hx]
  rw [toNat_uint64OfInt_of_nonneg hx]
  omega

theorem blockLen_eq (h : d.Regular) : blockLen d = d.blength.toNat * d.size.toNat := h.mul_size h.blength_nonneg

theorem dataSize_eq (h : d.Regular) (hn : 0 ≤ n.toInt) :
    d.dataSize n = d.blength.toNat * d.count.toNat * n.toNat * d.size.toNat := by
  rw [dataSize, blocks, h.blockLen_eq, turns_of_nonneg h.count_nonneg, turns_of_nonneg hn]
  ring

theorem dataSize_eq_zero (h : d.Regular) (hn : 0 ≤ n.toInt) :
    d.dataSize n = 0 ↔ n = 0 ∨ d.count = 0 ∨ d.blength = 0 := by
  have hzero : ∀ x : CInt, x.toNat = 0 ↔ x = 0 := fun x => BitVec.toNat_inj (y := 0)
  rw [h.dataSize_eq hn, Nat.mul_eq_zero, Nat.mul_eq_zero, Nat.mul_eq_zero, hzero, hzero, hzero]
  constructor
  · rintro (((hblength | hcount) | hn) | hsize)
    · exact .inr (.inr hblength)
    · exact .inr (.inl hcount)
    · exact .inl hn
    · exact absurd hsize (Nat.ne_of_gt h.size_pos)
  · rintro (hn | hcount | hblength)
    · exact .inl (.inr hn)
    · exact .inl (.inl (.inr hcount))
    · exact .inl (.inl (.inl hblength))

/-- The `int` product of `fdmi_post_send_msg` may overflow, but its low 32 bits are right. -/
theorem totalSendSize_modEq (h : d.Regular) (hn : 0 ≤ n.toInt) :
    (totalSendSize d n).toNat ≡ d.dataSize n [MOD 2 ^ 32] := by
  rw [totalSendSize, toNat_uint32OfUint64, h.dataSize_eq hn]
  calc
    _ ≡ (uint64OfInt (d.blength * d.count * n) * d.size).toNat [MOD 2 ^ 32] := Nat.mod_modEq _ _
    _ ≡ (uint64OfInt (d.blength * d.count * n)).toNat * d.size.toNat [MOD 2 ^ 32] := toNat_mul_modEq_64 _ _
    _ ≡ (d.blength * d.count * n).toNat * d.size.toNat [MOD 2 ^ 32] := (toNat_uint64OfInt_modEq _).mul_right _
    _ ≡ (d.blength * d.count).toNat * n.toNat * d.size.toNat [MOD 2 ^ 32] := (toNat_mul_modEq_32 _ _).mul_right _
    _ ≡ d.blength.toNat * d.count.toNat * n.toNat * d.size.toNat [MOD 2 ^ 32] :=
      ((toNat_mul_modEq_32 _ _).mul_right _).mul_right _

theorem totalSendSize_eq (h : d.Regular) (hn : 0 ≤ n.toInt) (hfit : d.dataSize n ≤ eagerBuffSize) :
    (totalSendSize d n).toNat = d.dataSize n := by
  have hlt : d.dataSize n < 2 ^ 32 := lt_of_le_of_lt hfit (by decide)
  exact (h.totalSendSize_modEq hn).eq_of_lt_of_lt (totalSendSize d n).isLt hlt

end Datatype.Regular

end Libibtl
