import Libibtl.EagerDelivery

/-! # Rendezvous against typed delivery

The rendezvous path reads one flat region of the sender's memory. For one
contiguous block that is typed delivery, as long as the 32-bit length of the read
holds the size. For blocks with gaps it never is, unless both do nothing.
-/

namespace Libibtl

open Foundation

/-- Typed delivery of `n` elements of `d`: one copy for a contiguous type, else the pack loop of
`fdmi_post_send_msg` and then the unpack loop of `fdmi_cpy_eager_buff`. -/
def typedDelivery (d : Datatype) (n : CInt) (send : Buffer) (sendOff : Nat) (recv : Buffer) (recvOff : Nat) : Buffer :=
  if d.count = 1 then memcpy recv recvOff send sendOff (d.dataSize n)
  else (unpackLoop d n recv recvOff (packLoop d n (fun _ => 0) send sendOff).dst).dst

/-- The length of the read that `fdmi_post_rdma_read` posts. -/
def readLength (d : Datatype) (n : CInt) : Nat := (uint32OfUint64 (regSize d n)).toNat

/-- For all buffers, the read that is posted for a receive of `n` elements of `d` leaves what typed
delivery leaves. -/
def RendezvousDelivers (d : Datatype) (n : CInt) : Prop :=
  ∀ (τ : Proc) (p a : QueryId) (c : ConnId) (sge : Sge) (remote : Place) (send : Buffer) (sendOff : Nat),
    (τ.queries p).msg.dtype = d → (τ.queries p).msg.count = n → (τ.queries a).conn = some c → p ≠ a →
    (τ.postRdmaRead p a).sq = τ.sq ++ [⟨c, p, .rdmaRead sge remote⟩] →
    (τ.scatterRead sge fun i => send (sendOff + i)).mem (τ.queries p).msg.addr.obj =
      typedDelivery d n send sendOff (τ.mem (τ.queries p).msg.addr.obj) (τ.queries p).msg.addr.off

section

variable {d : Datatype} {n : CInt}

theorem memcpy_shift (dst src : Buffer) (d s len : Nat) :
    memcpy dst d (fun i => src (s + i)) 0 len = memcpy dst d src s len := by
  funext i
  simp only [memcpy, Nat.zero_add]

theorem scatterRead_readSge (τ : Proc) (m : Msg) (data : Buffer) :
    (τ.scatterRead (Proc.readSge m) data).mem m.addr.obj =
      memcpy (τ.mem m.addr.obj) m.addr.off data 0 (readLength m.dtype m.count) :=
  Function.update_self ..

theorem rendezvousDelivers_iff : RendezvousDelivers d n ↔ ∀ (send : Buffer) (sendOff : Nat) (recv : Buffer) (recvOff : Nat),
    memcpy recv recvOff send sendOff (readLength d n) = typedDelivery d n send sendOff recv recvOff := by
  constructor
  · intro h send sendOff recv recvOff
    let x := Boot.zeroed.queries 0
    let τ : Proc := { Proc.init Boot.zeroed with
      mem := fun _ => recv
      queries := fun _ => { x with conn := some 0, msg := { x.msg with dtype := d, count := n, addr := ⟨0, recvOff⟩ } } }
    obtain ⟨regs, cached, mr, hread⟩ := Proc.postRdmaRead_eq (σ := τ) (p := 0) (a := 1) (c := 0) rfl (by decide)
    have := h τ 0 1 0 _ _ send sendOff rfl rfl rfl (by decide) (by rw [hread])
    rw [scatterRead_readSge] at this
    rw [← memcpy_shift]
    exact this
  · intro h τ p a c sge remote send sendOff hdtype hcount hconn hne hposted
    obtain ⟨regs, cached, mr, hread⟩ := Proc.postRdmaRead_eq (σ := τ) hconn hne
    rw [hread] at hposted
    have hlast := List.append_cancel_left hposted
    simp only [List.cons.injEq, SendWr.mk.injEq, SendOp.rdmaRead.injEq, true_and, and_true] at hlast
    rw [← hlast.1, scatterRead_readSge, memcpy_shift, hdtype, hcount]
    exact h ..

theorem uint32OfUint64_regSize : uint32OfUint64 (regSize d n) =
    BitVec.ofInt 32 ((d.stride.toInt * (d.count.toInt - 1) + d.blength.toInt) * d.size.toNat * n.toInt) := by
  have hsize : uint32OfUint64 d.size = BitVec.ofInt 32 d.size.toNat := by
    rw [BitVec.ofInt_natCast, BitVec.ofNat_toNat, uint32OfUint64]
  have hint : ∀ x : CInt, uint32OfUint64 (uint64OfInt x) = x := intOfUint64_uint64OfInt
  have hmul : ∀ x y : UInt64T, uint32OfUint64 (x * y) = uint32OfUint64 x * uint32OfUint64 y := fun x y =>
    BitVec.setWidth_mul x y (by decide)
  have hpred : d.count - 1 = BitVec.ofInt 32 (d.count.toInt - 1) := by
    rw [Int.sub_eq_add_neg, BitVec.ofInt_add, BitVec.ofInt_toInt]
    exact BitVec.sub_eq_add_neg ..
  rw [regSize, hmul, hmul, hint, hint, hsize, hpred, BitVec.ofInt_mul, BitVec.ofInt_mul, BitVec.ofInt_add,
    BitVec.ofInt_mul]
  simp only [BitVec.ofInt_toInt]

theorem readLength_eq_zero : readLength d n = 0 ↔
    (2 ^ 32 : Int) ∣ (d.stride.toInt * (d.count.toInt - 1) + d.blength.toInt) * d.size.toNat * n.toInt := by
  rw [readLength, uint32OfUint64_regSize, BitVec.toNat_ofInt, Int.dvd_iff_emod_eq_zero]
  have := Int.emod_nonneg ((d.stride.toInt * (d.count.toInt - 1) + d.blength.toInt) * d.size.toNat * n.toInt)
    (show (2 ^ 32 : Int) ≠ 0 by decide)
  norm_num at this ⊢
  omega

theorem readLength_contiguous (hd : d.Regular) (hn : 0 ≤ n.toInt) (hcount : d.count = 1) :
    readLength d n = d.dataSize n % 2 ^ 32 := by
  have hsize : ((d.stride.toInt * (d.count.toInt - 1) + d.blength.toInt) * d.size.toNat * n.toInt) =
      (d.dataSize n : Int) := by
    rw [hd.dataSize_eq hn, hcount, toInt_eq_toNat_of_nonneg hd.blength_nonneg, toInt_eq_toNat_of_nonneg hn]
    have hone : (1 : CInt).toInt = 1 := by decide
    have hone' : (1 : CInt).toNat = 1 := by decide
    rw [hone, hone']
    push_cast
    ring
  rw [readLength, uint32OfUint64_regSize, hsize, BitVec.ofInt_natCast, BitVec.toNat_ofNat]

/-! ## Typed delivery of blocks with gaps -/

section Strided

variable (send recv : Buffer) (sendOff recvOff : Nat)

theorem typedDelivery_block (hd : d.Regular) (hcount : d.count ≠ 1) {k j : Nat} (hk : k < d.blocks n)
    (hj : j < blockLen d) : typedDelivery d n send sendOff recv recvOff (recvOff + k * strideLen d + j) =
      send (sendOff + k * strideLen d + j) := by
  have hpack := iterate_copyBlock_block send (blockLen d) (blockLen d) (strideLen d) ⟨fun _ => 0, 0, sendOff⟩
    (Nat.le_refl _) hk hj
  have hunpack := iterate_copyBlock_block (packLoop d n (fun _ => 0) send sendOff).dst (blockLen d) (strideLen d)
    (blockLen d) ⟨recv, recvOff, 0⟩ (hd.blockLen_lt_strideLen hcount).le hk hj
  rw [typedDelivery, if_neg hcount, unpackLoop, copyLoop_eq_iterate]
  refine hunpack.trans ?_
  rw [packLoop, copyLoop_eq_iterate]
  exact hpack

theorem typedDelivery_other (hcount : d.count ≠ 1) {i : Nat}
    (hi : ∀ k < d.blocks n, i < recvOff + k * strideLen d ∨ recvOff + k * strideLen d + blockLen d ≤ i) :
    typedDelivery d n send sendOff recv recvOff i = recv i := by
  rw [typedDelivery, if_neg hcount, unpackLoop, copyLoop_eq_iterate]
  exact iterate_copyBlock_other _ _ _ _ _ hi

end Strided

/-- A flat copy of any length differs from typed delivery of blocks with gaps: it writes the first
gap, or it misses the second block. -/
theorem not_flat_of_strided (hd : d.Regular) (hcount : d.count ≠ 1) (hpos : 0 < d.dataSize n)
    (length : Nat) : ∃ (send : Buffer) (sendOff : Nat) (recv : Buffer) (recvOff : Nat),
      memcpy recv recvOff send sendOff length ≠ typedDelivery d n send sendOff recv recvOff := by
  have hblock : 0 < blockLen d := Nat.pos_of_mul_pos_left hpos
  have hlt := hd.blockLen_lt_strideLen hcount
  have hblocks : 1 < d.blocks n := by
    have hprod : 0 < turns d.count * turns n := Nat.pos_of_mul_pos_right hpos
    have hturns : turns d.count ≠ 1 := by
      rw [turns_of_nonneg hd.count_nonneg]
      exact fun heq => hcount (BitVec.eq_of_toNat_eq heq)
    have hc : 0 < turns d.count := Nat.pos_of_mul_pos_right hprod
    exact Nat.lt_of_lt_of_le (by omega : 1 < turns d.count)
      (Nat.le_mul_of_pos_right _ (Nat.pos_of_mul_pos_left hprod))
  refine ⟨fun _ => 1, 0, fun _ => 0, 0, fun heq => ?_⟩
  by_cases hlen : length ≤ strideLen d
  · have htyped := typedDelivery_block (fun _ => 1) (fun _ => 0) 0 0 hd hcount hblocks hblock
    rw [← heq, memcpy_outside (by omega)] at htyped
    cases htyped
  · have htyped := typedDelivery_other (n := n) (fun _ => 1) (fun _ => 0) 0 0 hcount (i := blockLen d) fun k hk => by
      rcases Nat.eq_zero_or_pos k with rfl | hk
      · exact .inr (by omega)
      · have := Nat.mul_le_mul_right (strideLen d) hk
        exact .inl (by omega)
    rw [← heq, memcpy, if_pos ⟨by omega, by omega⟩] at htyped
    cases htyped

theorem typedDelivery_of_dataSize_eq_zero (hcount : d.count ≠ 1) (hzero : d.dataSize n = 0) (send recv : Buffer)
    (sendOff recvOff : Nat) : typedDelivery d n send sendOff recv recvOff = recv := by
  funext i
  refine typedDelivery_other _ _ _ _ hcount fun k hk => ?_
  rcases Nat.mul_eq_zero.1 hzero with hblocks | hlen <;> omega

theorem memcpy_ne_of_lt {length length' : Nat} (h : length < length') :
    memcpy (fun _ => 0) 0 (fun _ => 1) 0 length ≠ (memcpy (fun _ => 0) 0 (fun _ => 1) 0 length' : Buffer) := by
  intro heq
  have := congrFun heq length
  rw [memcpy_outside (by omega), memcpy, if_pos ⟨by omega, by omega⟩] at this
  cases this

end

theorem rendezvous_delivers_iff {d : Datatype} {n : CInt} (hd : d.Built) (hn : 0 ≤ n.toInt) :
    RendezvousDelivers d n ↔ (d.count = 1 ∧ d.dataSize n < 2 ^ 32) ∨
      (d.count ≠ 1 ∧ (n = 0 ∨ d.count = 0 ∨ d.blength = 0) ∧
        (2 ^ 32 : Int) ∣ (d.stride.toInt * (d.count.toInt - 1) + d.blength.toInt) * d.size.toNat * n.toInt) := by
  have hreg := hd.regular
  rw [rendezvousDelivers_iff, ← hreg.dataSize_eq_zero hn, ← readLength_eq_zero]
  by_cases hcount : d.count = 1
  · have hlength := readLength_contiguous hreg hn hcount
    simp only [typedDelivery, if_pos hcount]
    constructor
    · intro h
      refine .inl ⟨hcount, ?_⟩
      by_contra hlarge
      have hmod := Nat.mod_lt (d.dataSize n) (show 0 < 2 ^ 32 by decide)
      exact memcpy_ne_of_lt (by omega) (h (fun _ => 1) 0 (fun _ => 0) 0)
    · rintro (⟨-, hsmall⟩ | ⟨hne, -⟩)
      · rw [hlength, Nat.mod_eq_of_lt hsmall]
        exact fun _ _ _ _ => rfl
      · exact absurd hcount hne
  · constructor
    · intro h
      have hzero : d.dataSize n = 0 := by
        by_contra hpos
        obtain ⟨send, sendOff, recv, recvOff, hne⟩ :=
          not_flat_of_strided hreg hcount (Nat.pos_of_ne_zero hpos) (readLength d n)
        exact hne (h send sendOff recv recvOff)
      refine .inr ⟨hcount, hzero, ?_⟩
      by_contra hpos
      have := h (fun _ => 1) 0 (fun _ => 0) 0
      rw [typedDelivery_of_dataSize_eq_zero hcount hzero, ← memcpy_zero (fun _ => 0) (fun _ => 1) 0 0] at this
      exact memcpy_ne_of_lt (Nat.pos_of_ne_zero hpos) this.symm
    · rintro (⟨hone, -⟩ | ⟨-, hzero, hlength⟩)
      · exact absurd hone hcount
      · intro send sendOff recv recvOff
        rw [hlength, memcpy_zero, typedDelivery_of_dataSize_eq_zero hcount hzero]

theorem rendezvous_delivers_bytes : fmiByte.Built ∧ 0 ≤ (65537 : CInt).toInt ∧ RendezvousDelivers fmiByte 65537 := by
  have hn : 0 ≤ (65537 : CInt).toInt := by decide
  exact ⟨.byte, hn, (rendezvous_delivers_iff .byte hn).2 (.inl ⟨rfl, by decide⟩)⟩

/-- 40000 elements of two bytes with a gap are too large for the eager buffer, and the read overwrites
the gaps and misses the last blocks. -/
theorem rendezvous_spaced_flat : spacedBytes.Built ∧ 0 ≤ (40000 : CInt).toInt ∧
    ¬ (totalSendSize spacedBytes 40000).toNat ≤ eagerBuffSize ∧ ¬ RendezvousDelivers spacedBytes 40000 := by
  refine ⟨spacedBytes_built, by decide, by decide, fun h => ?_⟩
  obtain ⟨send, sendOff, recv, recvOff, hne⟩ := not_flat_of_strided (n := 40000) spacedBytes_built.regular
    (by decide) (by decide) (readLength spacedBytes 40000)
  exact hne (rendezvousDelivers_iff.1 h send sendOff recv recvOff)

end Libibtl
