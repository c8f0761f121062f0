import Libibtl.Ibio.WriteProgress

/-! # Accesses to the cache

`file_info->cache` has `BUF_SIZE` bytes. The handlers pass pointers into it to
`fdmi_verbs_irecv`, `fdmi_verbs_isend`, `read` and `write`, with offsets that they
compute in `int` or in `size_t`. Each step of the server is given the ranges that it
passes on, and the condition that none of its offset computations wraps.
-/

namespace Libibtl.Ibio

open Foundation

/-- `length` bytes from `cache + offset` on. -/
structure Access where
  offset : Int
  length : Nat
  deriving DecidableEq, Repr

/-- The range lies in the memory that `ibvio_sopen` allocates. -/
def Access.Inside (a : Access) : Prop := 0 ≤ a.offset ∧ a.offset + a.length ≤ bufSize

namespace Swrite

variable (w : Swrite)

end Swrite

namespace ReadLocals

variable (r : ReadLocals)

/-- The locals after one turn of the loop of `ibvio_sread`. -/
def turn : ReadLocals :=
  let chunk := handlerChunk r.currentSendSize r.chunk r.count
  { count := r.count
    readSize := if r.readSize.slt r.count then r.readSize + ibvioChunkSize else r.readSize
    currentSendSize := r.currentSendSize + chunk
    chunk := chunk }

end ReadLocals

namespace Server

variable (s : Server) (fd : Nat)

end Server

/-! ## The loops in natural numbers -/

section Loops

variable {n j : Nat}

theorem min_le_bufSize (hj : j ≤ 16) : min (j * chunkBytes) n ≤ bufSize :=
  (Nat.min_le_left ..).trans (mul_chunkBytes_le hj)

theorem slt_min (hn : n < 2 ^ 31) (hj : j ≤ 16) :
    (BitVec.ofNat 32 (min (j * chunkBytes) n)).slt (BitVec.ofNat 32 n) = decide (j < chunkCount n) := by
  rw [ofNat_slt_ofNat (lt_two_pow_of_le (min_le_bufSize hj)) hn, decide_eq_decide, lt_chunkCount]
  omega

theorem handlerChunk_min (hn : n < 2 ^ 31) (hj : j ≤ 16) :
    handlerChunk (BitVec.ofNat 32 (min (j * chunkBytes) n)) ibvioChunkSize (BitVec.ofNat 32 n) =
      BitVec.ofNat 32 (chunkAt n (j * chunkBytes)) := by
  rw [handlerChunk_eq hn (Nat.min_le_right ..) (min_le_bufSize hj), chunkAt_min]

/-- The locals of `ibvio_sread` after `j` turns for `n` bytes. -/
structure ReadAt (n j : Nat) (r : ReadLocals) : Prop where
  count : r.count = BitVec.ofNat 32 n
  readSize : r.readSize = BitVec.ofNat 32 (readsAfter n j * chunkBytes)
  currentSendSize : r.currentSendSize = BitVec.ofNat 32 (min (j * chunkBytes) n)
  chunk : j < chunkCount n → r.chunk = ibvioChunkSize

/-- The locals of `ibvio_swrite` after `j` turns for `n` bytes; `v` and `u` are the values that were not initialised. -/
structure SwriteAt (n : Nat) (v u : CInt) (j : Nat) (w : Swrite) : Prop where
  count : w.count = BitVec.ofNat 32 n
  currentRecvSize : w.currentRecvSize = BitVec.ofNat 32 (min (j * chunkBytes) n)
  chunkSize : j < chunkCount n → w.chunkSize = ibvioChunkSize
  writeSize : w.writeSize = v + BitVec.ofNat 32 ((j - 1) * chunkBytes)
  writeChunkSize : w.writeChunkSize = if j = 0 then u else BitVec.ofNat 32 (chunkAt n ((j - 1) * chunkBytes))

theorem chunkAt_eq_ibvioChunkSize (hj : j + 1 < chunkCount n) :
    BitVec.ofNat 32 (chunkAt n (j * chunkBytes)) = ibvioChunkSize := by
  rw [chunkAt_of_lt hj, ibvioChunkSize_eq]

theorem min_advance (n j : Nat) : BitVec.ofNat 32 (min (j * chunkBytes) n) + BitVec.ofNat 32 (chunkAt n (j * chunkBytes)) =
    BitVec.ofNat 32 (min ((j + 1) * chunkBytes) n) := by
  rw [← BitVec.ofNat_add, min_add_chunkAt]

theorem readsAfter_le_succ (n j : Nat) : readsAfter n j ≤ j + 1 := by
  rw [readsAfter]
  omega

theorem slt_reads (hn : n < 2 ^ 31) (hj : j < 16) :
    (BitVec.ofNat 32 (readsAfter n j * chunkBytes)).slt (BitVec.ofNat 32 n) = decide (readsAfter n j < chunkCount n) := by
  have hle := mul_chunkBytes_le ((readsAfter_le_succ n j).trans hj)
  rw [ofNat_slt_ofNat (lt_two_pow_of_le hle) hn, decide_eq_decide, lt_chunkCount]

theorem ReadAt.turn {r : ReadLocals} (h : ReadAt n j r) (hn : n < 2 ^ 31) (hj : j < chunkCount n) (hlt : j < 16) :
    ReadAt n (j + 1) r.turn where
  count := h.count
  readSize := by
    have hslt := slt_reads hn hlt
    simp only [ReadLocals.turn, h.readSize, h.count, hslt, readsAfter_succ hj, decide_eq_true_eq]
    split
    · rw [ibvioChunkSize_eq, ← BitVec.ofNat_add, Nat.succ_mul]
    · rfl
  currentSendSize := by
    simp only [ReadLocals.turn, h.currentSendSize, h.chunk hj, h.count, handlerChunk_min hn hlt.le, min_advance]
  chunk hj' := by
    simp only [ReadLocals.turn, h.currentSendSize, h.chunk hj, h.count, handlerChunk_min hn hlt.le]
    exact chunkAt_eq_ibvioChunkSize hj'

theorem SwriteAt.slt_count {v u : CInt} {w : Swrite} (h : SwriteAt n v u j w) (hn : n < 2 ^ 31) (hj : j ≤ 16) :
    w.currentRecvSize.slt w.count = decide (j < chunkCount n) := by
  rw [h.currentRecvSize, h.count, slt_min hn hj]

theorem SwriteAt.zero_slt {v u : CInt} {w : Swrite} (h : SwriteAt n v u j w) (hj : j < chunkCount n) (hlt : j ≤ 16) :
    (0 : CInt).slt w.currentRecvSize = decide (0 < j) := by
  have hcut := lt_chunkCount.1 hj
  rw [h.currentRecvSize, Nat.min_eq_left hcut.le]
  refine (ofNat_slt_ofNat (a := 0) (by decide) (lt_two_pow_of_le (mul_chunkBytes_le hlt))).trans ?_
  rw [decide_eq_decide, chunkBytes_eq]
  omega

theorem SwriteAt.turn {v u : CInt} {w : Swrite} (h : SwriteAt n v u j w) (hn : n < 2 ^ 31) (hj : j < chunkCount n)
    (hlt : j < 16) : SwriteAt n v u (j + 1) w.turn where
  count := h.count
  currentRecvSize := by
    simp only [Swrite.turn, h.currentRecvSize, h.chunkSize hj, h.count, handlerChunk_min hn hlt.le, min_advance]
  chunkSize hj' := by
    simp only [Swrite.turn, h.currentRecvSize, h.chunkSize hj, h.count, handlerChunk_min hn hlt.le]
    exact chunkAt_eq_ibvioChunkSize hj'
  writeSize := by
    simp only [Swrite.turn, h.zero_slt hj hlt.le, h.writeSize, h.writeChunkSize, decide_eq_true_eq, Nat.add_sub_cancel]
    rcases Nat.eq_zero_or_pos j with rfl | hj0
    · simp
    · -- the chunk before this one is whole
      obtain ⟨i, rfl⟩ := Nat.exists_eq_add_of_le' hj0
      rw [if_pos hj0, if_neg (by omega), Nat.add_sub_cancel, chunkAt_of_lt hj, BitVec.add_assoc, ← BitVec.ofNat_add,
        Nat.succ_mul]
  writeChunkSize := by
    simp only [Swrite.turn, h.currentRecvSize, h.chunkSize hj, h.count, handlerChunk_min hn hlt.le, Nat.add_sub_cancel]
    rw [if_neg (Nat.succ_ne_zero j)]

theorem SwriteAt.start (n : Nat) (v u : CInt) : SwriteAt n v u 0 (.start (BitVec.ofNat 32 n) v u) where
  count := rfl
  currentRecvSize := by simp [Swrite.start]
  chunkSize _ := rfl
  writeSize := by simp [Swrite.start]
  writeChunkSize := rfl

end Loops

end Libibtl.Ibio
