import Libibtl.Extents

/-! # Packing and unpacking are inverse on blocks

The pack loop of `fdmi_post_send_msg` and the unpack loops move one pointer by the
stride and the other one by the block length. As long as the buffers hold all bytes of
the blocks, no step of the pointers wraps, and the blocks do not overlap.
-/

namespace Libibtl

open Foundation

namespace Datatype

/-- The bytes of one block, without overflow. -/
def blockBytes (d : Datatype) : Nat := d.blength.toNat * d.size.toNat

/-- Byte `i` of block `k`, counted from the user pointer, without overflow. -/
def byteAt (d : Datatype) (k i : Nat) : Nat := k * (d.stride.toNat * d.size.toNat) + i

/-- Behind the user pointer there are `length` bytes, and all blocks of `n` elements lie in them. -/
def FitsIn (d : Datatype) (n : CInt) (length : UInt64T) : Prop :=
  ∀ k < d.blocks n, ∀ i < d.blockBytes, d.byteAt k i < length.toNat

/-- The types that the loops serve. Blocks may touch, and there may be none. -/
structure Strided (d : Datatype) : Prop where
  count_nonneg : 0 ≤ d.count.toInt
  count_ne : d.count ≠ 1
  blength_nonneg : 0 ≤ d.blength.toInt
  blength_le : d.blength.toInt ≤ d.stride.toInt
  size_pos : 1 ≤ d.size.toNat

end Datatype

/-- The packed bytes of `send` are unpacked into `recv`, and what is there is packed again. -/
structure Restores (d : Datatype) (n : CInt) (send : Buffer) (sendOff : Nat) (recv : Buffer) (recvOff : Nat)
    (packed : CopyState Byte) (target : Buffer) : Prop where
  length : packed.dstOff = d.blocks n * d.blockBytes
  blocks : ∀ k < d.blocks n, ∀ i < d.blockBytes, target (recvOff + d.byteAt k i) = send (sendOff + d.byteAt k i)
  others : ∀ p, (∀ k < d.blocks n, ∀ i < d.blockBytes, p ≠ recvOff + d.byteAt k i) → target p = recv p
  again : ∀ eager, (packLoop d n eager target recvOff).dstOff = d.blocks n * d.blockBytes ∧
    ∀ i < d.blocks n * d.blockBytes, (packLoop d n eager target recvOff).dst i = packed.dst i

section

variable {d : Datatype} {n : CInt} {length : UInt64T}

theorem packLoop_dst (d : Datatype) (n : CInt) (eager send : Buffer) (sendOff : Nat) :
    (packLoop d n eager send sendOff).dst = pack send eager sendOff (blockLen d) (strideLen d) (d.blocks n) := by
  rw [packLoop, copyLoop_eq_iterate, pack, Datatype.blocks]

theorem unpackEager_strided (hcount : d.count ≠ 1) (n : CInt) (recv eager : Buffer) (recvOff : Nat) :
    unpackEager d n recv recvOff eager = unpack eager recv recvOff (blockLen d) (strideLen d) (d.blocks n) := by
  rw [unpackEager, if_neg hcount, unpackLoop, copyLoop_eq_iterate, unpack, Datatype.blocks]

namespace Datatype.Strided

theorem blockBytes_le (h : d.Strided) : d.blockBytes ≤ d.stride.toNat * d.size.toNat := by
  have hstride : 0 ≤ d.stride.toInt := h.blength_nonneg.trans h.blength_le
  have hle := h.blength_le
  rw [toInt_eq_toNat_of_nonneg h.blength_nonneg, toInt_eq_toNat_of_nonneg hstride] at hle
  exact Nat.mul_le_mul_right _ (Int.ofNat_le.1 hle)

theorem one_lt_blocks (h : d.Strided) (hpos : 0 < d.blocks n) : 1 < d.blocks n := by
  have hcount : 0 < turns d.count := Nat.pos_of_mul_pos_right hpos
  have hn : 0 < turns n := Nat.pos_of_mul_pos_left hpos
  have hne : turns d.count ≠ 1 := by
    rw [turns_of_nonneg h.count_nonneg]
    exact fun heq => h.count_ne (BitVec.eq_of_toNat_eq heq)
  have hle : turns d.count * 1 ≤ turns d.count * turns n := Nat.mul_le_mul_left _ hn
  rw [Datatype.blocks]
  omega

/-- The second block lies in the buffer, so the size of a block and the distance of the blocks are exact. -/
theorem exact_sizes (h : d.Strided) (hfit : d.FitsIn n length) (hpos : 0 < d.blocks n) (hbytes : 0 < d.blockBytes) :
    blockLen d = d.blockBytes ∧ strideLen d = d.stride.toNat * d.size.toNat := by
  have hlast := hfit 1 (h.one_lt_blocks hpos) (d.blockBytes - 1) (by omega)
  have hlength := length.isLt
  have hle := h.blockBytes_le
  have hstride : 0 ≤ d.stride.toInt := h.blength_nonneg.trans h.blength_le
  rw [Datatype.byteAt, Nat.one_mul] at hlast
  have hb := toNat_uint64OfInt_of_nonneg h.blength_nonneg
  have hs := toNat_uint64OfInt_of_nonneg hstride
  constructor
  · rw [blockLen, toNat_mul_of_lt, hb, Datatype.blockBytes]
    rw [hb, ← Datatype.blockBytes]
    omega
  · rw [strideLen, toNat_mul_of_lt, hs]
    rw [hs]
    omega

/-- A block without bytes is copied as such. -/
theorem blockLen_eq_zero (h : d.Strided) (hbytes : d.blockBytes = 0) : blockLen d = 0 := by
  have hblength : d.blength.toNat = 0 := by
    rcases Nat.mul_eq_zero.1 hbytes with hzero | hzero
    · exact hzero
    · have := h.size_pos
      omega
  have hb := toNat_uint64OfInt_of_nonneg h.blength_nonneg
  rw [hblength] at hb
  rw [blockLen, toNat_mul_of_lt, hb, Nat.zero_mul]
  rw [hb, Nat.zero_mul]
  exact Nat.two_pow_pos 64

theorem packed_length (h : d.Strided) (hfit : d.FitsIn n length) : d.dataSize n = d.blocks n * d.blockBytes := by
  rw [Datatype.dataSize]
  rcases Nat.eq_zero_or_pos (d.blocks n) with hzero | hpos
  · rw [hzero, Nat.zero_mul, Nat.zero_mul]
  · rcases Nat.eq_zero_or_pos d.blockBytes with hempty | hbytes
    · rw [h.blockLen_eq_zero hempty, hempty]
    · rw [(h.exact_sizes hfit hpos hbytes).1]

/-- The sizes are exact as soon as a byte is copied, and then the blocks do not overlap. -/
theorem sizes_of_copied (h : d.Strided) (hfit : d.FitsIn n length) (hpos : 0 < d.blocks n) (hlen : 0 < blockLen d) :
    blockLen d = d.blockBytes ∧ strideLen d = d.stride.toNat * d.size.toNat ∧ blockLen d ≤ strideLen d := by
  have hbytes : 0 < d.blockBytes := by
    refine Nat.pos_of_ne_zero fun hempty => ?_
    rw [h.blockLen_eq_zero hempty] at hlen
    exact Nat.lt_irrefl 0 hlen
  obtain ⟨hblock, hstep⟩ := h.exact_sizes hfit hpos hbytes
  refine ⟨hblock, hstep, ?_⟩
  rw [hblock, hstep]
  exact h.blockBytes_le

/-- What is copied for a block are the bytes of this block. -/
theorem offset_of_copied (h : d.Strided) (hfit : d.FitsIn n length) {k i : Nat} (hk : k < d.blocks n) (hi : i < blockLen d) :
    i < d.blockBytes ∧ k * strideLen d + i = d.byteAt k i := by
  obtain ⟨hblock, hstep, -⟩ := h.sizes_of_copied hfit (Nat.zero_lt_of_lt hk) (Nat.zero_lt_of_lt hi)
  rw [hblock] at hi
  rw [hstep, Datatype.byteAt]
  exact ⟨hi, rfl⟩

/-- Every byte of a block is copied. -/
theorem copied_of_offset (h : d.Strided) (hfit : d.FitsIn n length) {k i : Nat} (hk : k < d.blocks n)
    (hi : i < d.blockBytes) : i < blockLen d ∧ blockLen d ≤ strideLen d ∧ d.byteAt k i = k * strideLen d + i := by
  obtain ⟨hblock, hstep⟩ := h.exact_sizes hfit (Nat.zero_lt_of_lt hk) (Nat.zero_lt_of_lt hi)
  have hle := h.blockBytes_le
  rw [hblock, hstep, Datatype.byteAt]
  exact ⟨hi, hle, rfl⟩

end Datatype.Strided

theorem restores_of_fits (h : d.Strided) (hfit : d.FitsIn n length) (eager send recv : Buffer) (sendOff recvOff : Nat) :
    Restores d n send sendOff recv recvOff (packLoop d n eager send sendOff)
      (unpackEager d n recv recvOff (packLoop d n eager send sendOff).dst) where
  length := by rw [packLoop_dstOff, h.packed_length hfit]
  blocks k hk i hi := by
    obtain ⟨hcopied, hle, hoff⟩ := h.copied_of_offset hfit hk hi
    rw [hoff, ← Nat.add_assoc, ← Nat.add_assoc, unpackEager_strided h.count_ne, packLoop_dst]
    exact unpack_pack_block _ _ _ _ _ hle hk hcopied
  others p hp := by
    rw [unpackEager_strided h.count_ne]
    refine unpack_other _ _ _ fun k hk i hi => ?_
    obtain ⟨hbyte, hoff⟩ := h.offset_of_copied hfit hk hi
    rw [Nat.add_assoc, hoff]
    exact hp k hk i hbyte
  again eager' := by
    refine ⟨by rw [packLoop_dstOff, h.packed_length hfit], fun i hi => ?_⟩
    rw [← h.packed_length hfit, Datatype.dataSize] at hi
    obtain ⟨-, -, hle⟩ := h.sizes_of_copied hfit (Nat.pos_of_mul_pos_right (Nat.zero_lt_of_lt hi))
      (Nat.pos_of_mul_pos_left (Nat.zero_lt_of_lt hi))
    rw [unpackEager_strided h.count_ne, packLoop_dst, packLoop_dst]
    exact pack_unpack_pack _ _ _ _ _ _ hle hi

/-! ## Accesses -/

/-- The pack loop reads the blocks of its source only. -/
theorem pack_reads_within (h : d.Strided) (hfit : d.FitsIn n length) :
    ∀ c ∈ packCopies d n, ∀ i, c.Reads i → i < length.toNat := by
  rw [packCopies, if_neg h.count_ne, forall_reads_blocks]
  intro k hk p hlow hhigh
  obtain ⟨i, rfl⟩ := Nat.exists_eq_add_of_le hlow
  obtain ⟨hbyte, hoff⟩ := h.offset_of_copied hfit hk (Nat.add_lt_add_iff_left.1 hhigh)
  rw [hoff]
  exact hfit k hk i hbyte

/-- The unpack loops write the blocks of their target only. -/
theorem unpack_writes_within (h : d.Strided) (hfit : d.FitsIn n length) :
    ∀ c ∈ eagerCopies d n, ∀ i, c.Writes i → i < length.toNat := by
  rw [eagerCopies, if_neg h.count_ne, forall_writes_blocks]
  intro k hk p hlow hhigh
  obtain ⟨i, rfl⟩ := Nat.exists_eq_add_of_le hlow
  obtain ⟨hbyte, hoff⟩ := h.offset_of_copied hfit hk (Nat.add_lt_add_iff_left.1 hhigh)
  rw [hoff]
  exact hfit k hk i hbyte

end

/-- Unpacking restores the blocks that were packed and leaves the rest of the target alone, and no access leaves one of
the two buffers. -/
theorem unpack_restores {d : Datatype} {n : CInt} {sendLength recvLength : UInt64T} (hd : d.Strided)
    (hsend : d.FitsIn n sendLength) (hrecv : d.FitsIn n recvLength) (eager send recv : Buffer) (sendOff recvOff : Nat) :
    Restores d n send sendOff recv recvOff (packLoop d n eager send sendOff)
      (unpackEager d n recv recvOff (packLoop d n eager send sendOff).dst) ∧
    (∀ c ∈ packCopies d n, ∀ i, c.Reads i → i < sendLength.toNat) ∧
    ∀ c ∈ eagerCopies d n, ∀ i, c.Writes i → i < recvLength.toNat :=
  ⟨restores_of_fits hd hsend eager send recv sendOff recvOff, pack_reads_within hd hsend, unpack_writes_within hd hrecv⟩

/-- Two elements of two bytes with one byte between them lie in 7 bytes. -/
theorem unpack_restores_spaced : spacedBytes.Strided ∧ spacedBytes.FitsIn 2 7 ∧ spacedBytes.FitsIn 2 9 ∧
    ∀ (eager send recv : Buffer) (sendOff recvOff : Nat),
      Restores spacedBytes 2 send sendOff recv recvOff (packLoop spacedBytes 2 eager send sendOff)
        (unpackEager spacedBytes 2 recv recvOff (packLoop spacedBytes 2 eager send sendOff).dst) ∧
      (∀ c ∈ packCopies spacedBytes 2, ∀ i, c.Reads i → i < (7 : UInt64T).toNat) ∧
      ∀ c ∈ eagerCopies spacedBytes 2, ∀ i, c.Writes i → i < (9 : UInt64T).toNat := by
  have hd : spacedBytes.Strided := ⟨by decide, by decide, by decide, by decide, by decide⟩
  have hsend : spacedBytes.FitsIn 2 7 := by
    unfold Datatype.FitsIn
    decide
  have hrecv : spacedBytes.FitsIn 2 9 := by
    unfold Datatype.FitsIn
    decide
  exact ⟨hd, hsend, hrecv, unpack_restores hd hsend hrecv⟩

end Libibtl
