import Libibtl.Datatype

/-! # What the file client and the file server share

Operations and descriptors travel in the tag of a message. Transfers are cut into
chunks of 64 MiB, and both sides compute the cut for themselves: the client with
`int` against `size_t`, the server with `size_t` or with `int`. Up to the size of
the server's buffer all of them give the same cut.
-/

namespace Libibtl.Ibio

open Foundation

/-! ## Tags -/

def opNoop : CInt := 0
def opOpen : CInt := 1
def opWrite : CInt := 2
def opWriteBegin : CInt := 3
def opWriteChunk : CInt := 4
def opRead : CInt := 5
def opClose : CInt := 6

/-- `ibvio_serialize_tag`. All callers of the client pass the operation as `fd` and the descriptor as `op`. -/
def serializeTag (fd op : CInt) : CInt := ((op &&& 0xffff) <<< 16) ||| (fd &&& 0xffff)

/-- `ibvio_deserialize_tag`, as the pair of `fd` and `op`. The server passes its variables in the same swapped order. -/
def deserializeTag (tag : CInt) : CInt × CInt := (tag &&& 0xffff, (tag.sshiftRight 16) &&& 0xffff)

theorem getLsbD_mask {i : Nat} : (0xffff#32).getLsbD i = decide (i < 16) := by
  by_cases hi : i < 32
  · revert i
    decide
  · rw [BitVec.getLsbD_of_ge _ _ (by omega)]
    exact (decide_eq_false (by omega)).symm

/-- What the client puts into a tag, the server takes out of it, up to 16 bits. -/
theorem deserializeTag_serializeTag (fd op : CInt) :
    deserializeTag (serializeTag fd op) = (fd &&& 0xffff, op &&& 0xffff) := by
  rw [deserializeTag, serializeTag, Prod.mk.injEq]
  constructor
  · apply BitVec.eq_of_getLsbD_eq
    intro i hi
    simp only [BitVec.getLsbD_and, BitVec.getLsbD_or, BitVec.getLsbD_shiftLeft, BitVec.ofNat_eq_ofNat, getLsbD_mask]
    by_cases h : i < 16 <;> simp [h]
  · apply BitVec.eq_of_getLsbD_eq
    intro i hi
    simp only [BitVec.getLsbD_and, BitVec.getLsbD_or, BitVec.getLsbD_shiftLeft, BitVec.ofNat_eq_ofNat, getLsbD_mask,
      BitVec.getLsbD_sshiftRight]
    by_cases h : i < 16
    · simp [h, show ¬ 32 ≤ i by omega, show 16 + i < 32 by omega]
    · simp [h]

theorem and_mask {n : Nat} (hn : n < 65536) : BitVec.ofNat 32 n &&& 0xffff = BitVec.ofNat 32 n := by
  apply BitVec.eq_of_toNat_eq
  simp only [BitVec.toNat_and, BitVec.toNat_ofNat, BitVec.ofNat_eq_ofNat]
  rw [Nat.mod_eq_of_lt (by omega), Nat.and_two_pow_sub_one_eq_mod _ 16]
  omega

/-! ## Chunks -/

def ibvioChunkSize : CInt := 64 * 1024 * 1024

/-- `BUF_SIZE` of the server. It is irreducible, like `chunkBytes` below: an unfolded literal would send unification
through its successors. -/
@[irreducible]
def bufSize : Nat := 1024 * 1024 * 1024

theorem bufSize_eq : bufSize = 1073741824 := by
  rw [bufSize]

/-- The cut of `ibtl_write`, `ibtl_dwrite` and `ibtl_read`: the sum is an `int`, the comparison is one of `size_t`. -/
def clientChunk (current chunk : CInt) (count : UInt64T) : CInt :=
  if count < uint64OfInt (current + chunk) then intOfUint64 (count - uint64OfInt current) else chunk

/-- The cut of `ibvio_swrite_chunk` and `ibvio_swrite_chunk_thread`, in `size_t`. -/
def serverChunk (current count : UInt64T) : CInt :=
  if count < current + uint64OfInt ibvioChunkSize then intOfUint64 (count - current) else ibvioChunkSize

/-- The cut of `ibvio_swrite` and `ibvio_sread`, in `int`. -/
def handlerChunk (current chunk count : CInt) : CInt :=
  if count.slt (current + chunk) then count - current else chunk

/-- The offsets and sizes of the loop that `ibtl_write`, `ibtl_dwrite` and `ibtl_read` share; `none` when the
turns do not suffice. -/
def clientLoop (count : UInt64T) : Nat → CInt → CInt → Option (List (CInt × CInt))
  | 0, _, _ => none
  | fuel + 1, current, chunk =>
    if uint64OfInt current < count then
      let chunk' := clientChunk current chunk count
      (clientLoop count fuel (current + chunk') chunk').map ((current, chunk') :: ·)
    else some []

/-- The whole loop, with one turn for every byte. -/
def clientChunks (count : UInt64T) : Option (List (CInt × CInt)) :=
  clientLoop count (count.toNat + 1) 0 ibvioChunkSize

/-! ## The cut in natural numbers -/

/-- The chunk size as a number. -/
@[irreducible]
def chunkBytes : Nat := 67108864

theorem chunkBytes_eq : chunkBytes = 67108864 := by
  rw [chunkBytes]

/-- The number of chunks of a transfer. -/
@[irreducible]
def chunkCount (n : Nat) : Nat := (n + (chunkBytes - 1)) / chunkBytes

/-- The size of the chunk that starts at `current`. -/
@[irreducible]
def chunkAt (n current : Nat) : Nat := min chunkBytes (n - current)

theorem ibvioChunkSize_eq : ibvioChunkSize = BitVec.ofNat 32 chunkBytes := by
  rw [chunkBytes_eq]
  decide

theorem ibvioChunkSize_toNat : ibvioChunkSize.toNat = chunkBytes := by
  rw [chunkBytes_eq]
  decide

section Cut

variable {n c j : Nat}

theorem lt_two_pow_of_le (hn : n ≤ bufSize) : n < 2 ^ 31 := by
  rw [bufSize_eq] at hn
  omega

theorem toNat_ofNat_of_le (hn : n ≤ bufSize) : (BitVec.ofNat 32 n).toNat = n := by
  rw [BitVec.toNat_ofNat, Nat.mod_eq_of_lt]
  exact (lt_two_pow_of_le hn).trans (by decide)

theorem slt_ofNat_of_le (hc : c ≤ bufSize) (hn : n ≤ bufSize) :
    (BitVec.ofNat 32 c).slt (BitVec.ofNat 32 n) = decide (c < n) :=
  ofNat_slt_ofNat (lt_two_pow_of_le hc) (lt_two_pow_of_le hn)

theorem lt_chunkCount : j < chunkCount n ↔ j * chunkBytes < n := by
  simp only [chunkCount, chunkBytes_eq]
  omega

theorem chunkCount_le (hn : n ≤ bufSize) : chunkCount n ≤ 16 := by
  simp only [chunkCount, chunkBytes_eq, bufSize_eq] at *
  omega

theorem mul_chunkBytes_le (hj : j ≤ 16) : j * chunkBytes ≤ bufSize := by
  simp only [chunkBytes_eq, bufSize_eq] at *
  omega

/-- From one chunk to the next. Behind the last chunk there are empty ones. -/
theorem min_add_chunkAt (n j : Nat) : min (j * chunkBytes) n + chunkAt n (j * chunkBytes) = min ((j + 1) * chunkBytes) n := by
  simp only [chunkAt, chunkBytes_eq]
  omega

theorem chunkAt_min (n j : Nat) : chunkAt n (min (j * chunkBytes) n) = chunkAt n (j * chunkBytes) := by
  simp only [chunkAt, chunkBytes_eq]
  omega

theorem add_chunkAt (hj : j < chunkCount n) : j * chunkBytes + chunkAt n (j * chunkBytes) = min ((j + 1) * chunkBytes) n := by
  rw [← min_add_chunkAt, Nat.min_eq_left (lt_chunkCount.1 hj).le]

theorem chunkAt_le (n c : Nat) : chunkAt n c ≤ n := by
  rw [chunkAt]
  exact (Nat.min_le_right ..).trans (Nat.sub_le ..)

/-- All chunks but the last are whole. -/
theorem chunkAt_of_lt (hj : j + 1 < chunkCount n) : chunkAt n (j * chunkBytes) = chunkBytes := by
  rw [lt_chunkCount] at hj
  rw [chunkAt]
  refine Nat.min_eq_left ?_
  rw [Nat.succ_mul] at hj
  omega

theorem serverChunk_eq (hn : n < 2 ^ 64) (hc : c ≤ n) (hb : c ≤ bufSize) :
    serverChunk (BitVec.ofNat 64 c) (BitVec.ofNat 64 n) = BitVec.ofNat 32 (chunkAt n c) := by
  rw [bufSize_eq] at hb
  have hchunk : uint64OfInt ibvioChunkSize = BitVec.ofNat 64 67108864 := by decide
  rw [serverChunk, hchunk, ← BitVec.ofNat_add, ofNat_sub_ofNat_of_le 64 hc, intOfUint64_ofNat, chunkAt, chunkBytes_eq]
  split
  · rename_i hlt
    rw [ofNat_lt_ofNat (by omega) (by omega)] at hlt
    rw [Nat.min_eq_right (by omega)]
  · rename_i hlt
    rw [ofNat_lt_ofNat (by omega) (by omega)] at hlt
    rw [Nat.min_eq_left (by omega)]
    decide

theorem clientChunk_eq (hn : n ≤ bufSize) (hc : c ≤ n) :
    clientChunk (BitVec.ofNat 32 c) ibvioChunkSize (BitVec.ofNat 64 n) = BitVec.ofNat 32 (chunkAt n c) := by
  rw [bufSize_eq] at hn
  have hchunk : ibvioChunkSize = BitVec.ofNat 32 67108864 := by decide
  rw [clientChunk, hchunk, ← BitVec.ofNat_add, uint64OfInt_ofNat (by omega), uint64OfInt_ofNat (by omega),
    ofNat_sub_ofNat_of_le 64 hc, intOfUint64_ofNat, chunkAt, chunkBytes_eq]
  split
  · rename_i hlt
    rw [ofNat_lt_ofNat (by omega) (by omega)] at hlt
    rw [Nat.min_eq_right (by omega)]
  · rename_i hlt
    rw [ofNat_lt_ofNat (by omega) (by omega)] at hlt
    rw [Nat.min_eq_left (by omega)]

theorem handlerChunk_eq (hn : n < 2 ^ 31) (hc : c ≤ n) (hb : c ≤ bufSize) :
    handlerChunk (BitVec.ofNat 32 c) ibvioChunkSize (BitVec.ofNat 32 n) = BitVec.ofNat 32 (chunkAt n c) := by
  rw [bufSize_eq] at hb
  have hchunk : ibvioChunkSize = BitVec.ofNat 32 67108864 := by decide
  rw [handlerChunk, hchunk, ← BitVec.ofNat_add, ofNat_slt_ofNat (by omega) (by omega), ofNat_sub_ofNat_of_le 32 hc,
    chunkAt, chunkBytes_eq]
  split
  · rename_i hlt
    rw [Nat.min_eq_right (by simp at hlt; omega)]
  · rename_i hlt
    rw [Nat.min_eq_left (by simp at hlt; omega)]

theorem clientLoop_eq (hn : n ≤ bufSize) {k fuel : Nat} {chunk : CInt} (hjk : j + k = chunkCount n)
    (hfuel : k < fuel) (hchunk : 0 < k → chunk = ibvioChunkSize) :
    clientLoop (BitVec.ofNat 64 n) fuel (BitVec.ofNat 32 (min (j * chunkBytes) n)) chunk =
      some ((List.range' j k).map fun i =>
        (BitVec.ofNat 32 (i * chunkBytes), BitVec.ofNat 32 (chunkAt n (i * chunkBytes)))) := by
  have hb : n ≤ 1073741824 := bufSize_eq ▸ hn
  induction k generalizing j fuel chunk with
  | zero =>
    obtain ⟨fuel, rfl⟩ := Nat.exists_eq_succ_of_ne_zero (by omega : fuel ≠ 0)
    have hend : ¬ j * chunkBytes < n := fun hlt => by
      have := lt_chunkCount.2 hlt
      omega
    rw [clientLoop, uint64OfInt_ofNat (by omega), if_neg]
    · rfl
    · rw [ofNat_lt_ofNat (by omega) (by omega)]
      omega
  | succ k ih =>
    obtain ⟨fuel, rfl⟩ := Nat.exists_eq_succ_of_ne_zero (by omega : fuel ≠ 0)
    obtain rfl := hchunk (by omega)
    have hj : j < chunkCount n := by omega
    have hlt := lt_chunkCount.1 hj
    have hmin : min (j * chunkBytes) n = j * chunkBytes := Nat.min_eq_left hlt.le
    rw [hmin, clientLoop, uint64OfInt_ofNat (by omega), if_pos ((ofNat_lt_ofNat (by omega) (by omega)).2 hlt)]
    simp only [clientChunk_eq hn hlt.le, ← BitVec.ofNat_add, add_chunkAt hj]
    rw [ih (by omega) (by omega)]
    · rfl
    · intro hk
      rw [chunkAt_of_lt (by omega), ibvioChunkSize_eq]

/-- The chunks of a transfer that fits the server's buffer. -/
theorem clientChunks_eq (hn : n ≤ bufSize) :
    clientChunks (BitVec.ofNat 64 n) = some ((List.range (chunkCount n)).map fun i =>
      (BitVec.ofNat 32 (i * chunkBytes), BitVec.ofNat 32 (chunkAt n (i * chunkBytes)))) := by
  have hb : n ≤ 1073741824 := bufSize_eq ▸ hn
  have hfuel : chunkCount n < (BitVec.ofNat 64 n).toNat + 1 := by
    rw [BitVec.toNat_ofNat, Nat.mod_eq_of_lt (by omega), chunkCount, chunkBytes_eq]
    omega
  have h := clientLoop_eq hn (j := 0) (Nat.zero_add _) hfuel fun _ => rfl
  rwa [Nat.zero_mul, Nat.zero_min, ← List.range_eq_range'] at h

end Cut

end Libibtl.Ibio
