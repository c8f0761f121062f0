import Libibtl.Message
import Libibtl.Ibio.Common

/-! # Remote reads

`ibvio_sread` reads one chunk ahead of what it sends. The chunks that it sends are cut
to the count of the request, the chunks that it reads from the file are not, so after a
call the file offset is rounded up to whole chunks.
-/

namespace Libibtl.Ibio

open Foundation

/-- The `n` bytes from `off` on. -/
def slice (b : Buffer) (off n : Nat) : List Byte := (List.range n).map fun i => b (off + i)

theorem slice_congr {b b' : Buffer} {off off' n : Nat} (h : ∀ i < n, b (off + i) = b' (off' + i)) :
    slice b off n = slice b' off' n :=
  List.map_congr_left fun i hi => h i (List.mem_range.1 hi)

theorem slice_append (b : Buffer) (off m n : Nat) : slice b off m ++ slice b (off + m) n = slice b off (m + n) := by
  rw [slice, slice, slice, List.range_add, List.map_append, List.map_map]
  congr 1
  refine List.map_congr_left fun i _ => ?_
  rw [Function.comp_apply, Nat.add_assoc]

/-- A file as the memory that `read` copies from. -/
def fileBytes (file : List Byte) : Buffer := fun i => file.getD i 0

/-- The data of one message, in the buffer of its sender. -/
structure Chunk where
  length : CInt
  data : Buffer

/-- The bytes that a receive of `posted` bytes gets: an eager message brings its own length, for a longer one the
receiver reads as much as it has posted. -/
def recvLength (posted sent : CInt) : Nat := if sent.toNat ≤ eagerBuffSize then sent.toNat else posted.toNat

theorem recvLength_self {a : Nat} (ha : a ≤ bufSize) : recvLength (BitVec.ofNat 32 a) (BitVec.ofNat 32 a) = a := by
  rw [recvLength, ite_self, toNat_ofNat_of_le ha]

/-! ## The server -/

/-- The variables of `ibvio_sread`, the cache and the offset of the file. -/
structure Sread where
  cache : Buffer
  offset : Nat
  readSize : CInt
  currentSendSize : CInt
  chunk : CInt
  sent : List Chunk

namespace Sread

/-- `read(fd, cache + read_size, read_chunk_size)` and the advance of `read_size`. -/
def fill (file : List Byte) (s : Sread) : Sread :=
  let n := min ibvioChunkSize.toNat (file.length - s.offset)
  { s with
    cache := memcpy s.cache s.readSize.toNat (fileBytes file) s.offset n
    offset := s.offset + n
    readSize := s.readSize + ibvioChunkSize }

def turn (file : List Byte) (count : CInt) (s : Sread) : Sread :=
  let chunk := handlerChunk s.currentSendSize s.chunk count
  let s' := { s with
    chunk := chunk
    sent := s.sent ++ [(⟨chunk, fun i => s.cache (s.currentSendSize.toNat + i)⟩ : Chunk)]
    currentSendSize := s.currentSendSize + chunk }
  if s'.readSize.slt count then s'.fill file else s'

def loop (file : List Byte) (count : CInt) : Nat → Sread → Option Sread
  | 0, _ => none
  | fuel + 1, s => if s.currentSendSize.slt count then loop file count fuel (s.turn file count) else some s

end Sread

/-- `ibvio_sread` of a request with `count`. -/
def sread (file : List Byte) (cache : Buffer) (offset : Nat) (count : CInt) : Option Sread :=
  Sread.loop file count (count.toNat + 1) (Sread.fill file ⟨cache, offset, 0, 0, ibvioChunkSize, []⟩)

/-! ## The client -/

/-- The receives of `ibtl_read`, in the order in which the chunks come. -/
def receiveChunks : Buffer → List (CInt × CInt) → List Chunk → Option (Buffer × List Chunk)
  | buf, [], inbox => some (buf, inbox)
  | _, _ :: _, [] => none
  | buf, (off, n) :: cuts, c :: inbox =>
    receiveChunks (memcpy buf off.toNat c.data 0 (recvLength n c.length)) cuts inbox

/-- An open descriptor: the cache and the file offset of the server, and the messages that wait at the client. -/
structure ReadSession where
  cache : Buffer
  offset : Nat
  inbox : List Chunk

/-- One `ibtl_read` into `buf`, together with the thread of the server that serves it. -/
def ibtlRead (file : List Byte) (s : ReadSession) (buf : Buffer) (count : UInt64T) : Option (ReadSession × Buffer) := do
  let served ← sread file s.cache s.offset (intOfUint64 count)
  let cuts ← clientChunks count
  let (buf', inbox) ← receiveChunks buf cuts (s.inbox ++ served.sent)
  return (⟨served.cache, served.offset, inbox⟩, buf')

/-- Successive reads, each with the bytes it delivers. -/
def ibtlReads (file : List Byte) : ReadSession → List (Buffer × UInt64T) → Option (List (List Byte))
  | _, [] => some []
  | s, (buf, count) :: calls => do
    let (s', buf') ← ibtlRead file s buf count
    let outs ← ibtlReads file s' calls
    return slice buf' 0 count.toNat :: outs

/-! ## What is delivered -/

/-- The cache after `m` reads of whole chunks, from the offset `o` on. -/
def cacheAfter (file : List Byte) (cache : Buffer) (o : Nat) : Nat → Buffer
  | 0 => cache
  | m + 1 =>
    memcpy (cacheAfter file cache o m) (m * chunkBytes) (fileBytes file) (min file.length (o + m * chunkBytes))
      (min chunkBytes (file.length - (o + m * chunkBytes)))

theorem cacheAfter_inside {file : List Byte} {cache : Buffer} {o m p : Nat} (hp : p < m * chunkBytes)
    (hlength : o + p < file.length) : cacheAfter file cache o m p = fileBytes file (o + p) := by
  induction m with
  | zero => omega
  | succ m ih =>
    rw [cacheAfter]
    rw [Nat.succ_mul] at hp
    by_cases hlast : m * chunkBytes ≤ p
    · obtain ⟨i, rfl⟩ := Nat.exists_eq_add_of_le hlast
      rw [memcpy_inside (by omega), Nat.min_eq_right (by omega), Nat.add_assoc]
    · rw [memcpy_outside (by omega)]
      exact ih (by omega)

/-- The chunks read after `j` turns. -/
def readsAfter (n j : Nat) : Nat := max 1 (min (j + 1) (chunkCount n))

/-- The state of the server after `m` reads. -/
def sreadState (file : List Byte) (cache : Buffer) (o m : Nat) (currentSendSize chunk : CInt) (sent : List Chunk) :
    Sread where
  cache := cacheAfter file cache o m
  offset := min file.length (o + m * chunkBytes)
  readSize := BitVec.ofNat 32 (m * chunkBytes)
  currentSendSize := currentSendSize
  chunk := chunk
  sent := sent

/-- The chunk that is sent in turn `i`. -/
def sentChunk (file : List Byte) (cache : Buffer) (o n i : Nat) : Chunk :=
  ⟨BitVec.ofNat 32 (chunkAt n (i * chunkBytes)), fun p => cacheAfter file cache o (readsAfter n i) (i * chunkBytes + p)⟩

/-- The state of the server before turn `j`. -/
def sreadAt (file : List Byte) (cache : Buffer) (o n : Nat) (chunk : CInt) (j : Nat) : Sread :=
  sreadState file cache o (readsAfter n j) (BitVec.ofNat 32 (min (j * chunkBytes) n)) chunk
    ((List.range j).map (sentChunk file cache o n))

section Fields

variable (file : List Byte) (cache : Buffer) (o n : Nat) (chunk : CInt) (j : Nat)

@[simp] theorem sreadAt_cache : (sreadAt file cache o n chunk j).cache = cacheAfter file cache o (readsAfter n j) := rfl

@[simp] theorem sreadAt_offset :
    (sreadAt file cache o n chunk j).offset = min file.length (o + readsAfter n j * chunkBytes) := rfl

@[simp] theorem sreadAt_sent : (sreadAt file cache o n chunk j).sent = (List.range j).map (sentChunk file cache o n) := rfl

end Fields

section Serve

variable {file : List Byte} {cache : Buffer} {o n : Nat}

theorem readsAfter_le (hn : n ≤ bufSize) (j : Nat) : readsAfter n j ≤ 16 := by
  have hcount := chunkCount_le hn
  rw [readsAfter]
  omega

/-- The server reads ahead. -/
theorem succ_le_readsAfter {j : Nat} (hj : j < chunkCount n) : j + 1 ≤ readsAfter n j :=
  le_max_of_le_right (le_min le_rfl hj)

theorem readsAfter_chunkCount : readsAfter n (chunkCount n) = max 1 (chunkCount n) := by
  rw [readsAfter, Nat.min_eq_right (Nat.le_succ _)]

theorem readsAfter_lt_iff {j : Nat} (hj : j < chunkCount n) : readsAfter n j < chunkCount n ↔ j + 1 < chunkCount n := by
  rw [readsAfter]
  omega

theorem readsAfter_succ {j : Nat} (hj : j < chunkCount n) :
    readsAfter n (j + 1) = if readsAfter n j < chunkCount n then readsAfter n j + 1 else readsAfter n j := by
  simp only [readsAfter_lt_iff hj]
  rw [readsAfter, readsAfter]
  split
  · omega
  · omega

theorem Sread.fill_eq {m : Nat} (hm : m ≤ 16) (currentSendSize chunk : CInt) (sent : List Chunk) :
    (sreadState file cache o m currentSendSize chunk sent).fill file =
      sreadState file cache o (m + 1) currentSendSize chunk sent := by
  have hread : min chunkBytes (file.length - min file.length (o + m * chunkBytes)) =
      min chunkBytes (file.length - (o + m * chunkBytes)) := by omega
  have hpos := toNat_ofNat_of_le (mul_chunkBytes_le hm)
  have hadvance : min file.length (o + m * chunkBytes) + min chunkBytes (file.length - (o + m * chunkBytes)) =
      min file.length (o + (m + 1) * chunkBytes) := by
    rw [Nat.succ_mul]
    omega
  simp only [fill, sreadState, ibvioChunkSize_toNat, hpos, hread, hadvance]
  rw [ibvioChunkSize_eq, ← BitVec.ofNat_add, cacheAfter, Nat.succ_mul]

theorem Sread.turn_eq (hn : n ≤ bufSize) {j : Nat} (hj : j < chunkCount n) :
    (sreadAt file cache o n ibvioChunkSize j).turn file (BitVec.ofNat 32 n) =
      sreadAt file cache o n (BitVec.ofNat 32 (chunkAt n (j * chunkBytes))) (j + 1) := by
  have hlt := lt_chunkCount.1 hj
  have hmin : min (j * chunkBytes) n = j * chunkBytes := Nat.min_eq_left hlt.le
  have hpos := toNat_ofNat_of_le (hlt.le.trans hn)
  have hreads := readsAfter_le hn j
  have hslt : (BitVec.ofNat 32 (readsAfter n j * chunkBytes)).slt (BitVec.ofNat 32 n) =
      decide (readsAfter n j < chunkCount n) := by
    rw [slt_ofNat_of_le (mul_chunkBytes_le hreads) hn, decide_eq_decide, lt_chunkCount]
  -- the chunk is sent, and then the file is read if there is more to send
  have hturn : (sreadAt file cache o n ibvioChunkSize j).turn file (BitVec.ofNat 32 n) =
      if readsAfter n j < chunkCount n then
        (sreadState file cache o (readsAfter n j) (BitVec.ofNat 32 (min ((j + 1) * chunkBytes) n))
          (BitVec.ofNat 32 (chunkAt n (j * chunkBytes))) ((List.range (j + 1)).map (sentChunk file cache o n))).fill file
      else sreadState file cache o (readsAfter n j) (BitVec.ofNat 32 (min ((j + 1) * chunkBytes) n))
        (BitVec.ofNat 32 (chunkAt n (j * chunkBytes))) ((List.range (j + 1)).map (sentChunk file cache o n)) := by
    simp only [turn, sreadAt, sreadState, hmin, handlerChunk_eq (lt_two_pow_of_le hn) hlt.le (hlt.le.trans hn), hpos, ← BitVec.ofNat_add, add_chunkAt hj,
      hslt, List.range_succ, List.map_append, List.map_singleton, sentChunk, decide_eq_true_eq]
  rw [hturn, sreadAt, readsAfter_succ hj]
  split
  · rw [fill_eq hreads]
  · rfl

theorem Sread.loop_eq (hn : n ≤ bufSize) {j k fuel : Nat} {chunk : CInt}
    (hjk : j + k = chunkCount n) (hfuel : k < fuel) (hchunk : 0 < k → chunk = ibvioChunkSize) :
    ∃ chunk', Sread.loop file (BitVec.ofNat 32 n) fuel (sreadAt file cache o n chunk j) =
      some (sreadAt file cache o n chunk' (chunkCount n)) := by
  have hslt : ∀ {j chunk}, (sreadAt file cache o n chunk j).currentSendSize.slt (BitVec.ofNat 32 n) =
      decide (j < chunkCount n) := by
    intro j chunk
    rw [sreadAt, sreadState, slt_ofNat_of_le ((Nat.min_le_right ..).trans hn) hn, decide_eq_decide, lt_chunkCount]
    omega
  induction k generalizing j fuel chunk with
  | zero =>
    obtain ⟨fuel, rfl⟩ := Nat.exists_eq_succ_of_ne_zero (by omega : fuel ≠ 0)
    obtain rfl : j = chunkCount n := hjk
    refine ⟨chunk, ?_⟩
    rw [loop, hslt, if_neg (by simp)]
  | succ k ih =>
    obtain ⟨fuel, rfl⟩ := Nat.exists_eq_succ_of_ne_zero (by omega : fuel ≠ 0)
    obtain rfl := hchunk (by omega)
    have hj : j < chunkCount n := by omega
    rw [loop, hslt, if_pos (decide_eq_true hj), turn_eq hn hj]
    refine ih (by omega) (by omega) fun hk => ?_
    rw [chunkAt_of_lt (by omega), ibvioChunkSize_eq]

/-- What the server sends, and where it leaves the file. -/
theorem sread_eq {c : Buffer} (hn : n ≤ bufSize) (ho : o ≤ file.length) :
    ∃ chunk, sread file c o (BitVec.ofNat 32 n) = some (sreadAt file c o n chunk (chunkCount n)) := by
  have hstart : (⟨c, o, 0, 0, ibvioChunkSize, []⟩ : Sread) = sreadState file c o 0 0 ibvioChunkSize [] := by
    simp [sreadState, cacheAfter, ho]
  have hone : readsAfter n 0 = 0 + 1 := by
    rw [readsAfter]
    omega
  have hfill : Sread.fill file ⟨c, o, 0, 0, ibvioChunkSize, []⟩ = sreadAt file c o n ibvioChunkSize 0 := by
    rw [hstart, Sread.fill_eq (by omega), sreadAt, hone, Nat.zero_mul, Nat.zero_min]
    rfl
  rw [sread, hfill]
  refine Sread.loop_eq hn (Nat.zero_add _) ?_ fun _ => rfl
  rw [toNat_ofNat_of_le hn, chunkCount, chunkBytes_eq]
  omega

end Serve

end Libibtl.Ibio
