import Libibtl.Ibio.CacheBounds
import Libibtl.Ibio.ReadHandlers

/-! # Requests that do not fit into the cache

For every count that does not fit there is a run from the start of the server to the
step that leaves the cache: sixteen chunks fill it, and the next one starts at its end.
A direct write may leave it earlier, since it starts where its uninitialised
`write_size` says.
-/

namespace Libibtl.Ibio

open Foundation

namespace Server

/-- A server that waits for the first request on file 3. -/
structure Fresh (s : Server) : Prop where
  reached : s.Reached
  pc : s.pc = .probe
  aq : s.aq = []
  threads : s.threads = []
  opened : 3 ∈ s.opened
  fastmutex : (s.entry 3).fastmutex = false

theorem Fresh.resting {s : Server} (h : s.Fresh) : (s.view 3).Resting := by
  have hnil : (s.view 3).threads = [] := by rw [view, h.threads, List.filter_nil]
  have hfree : (s.view 3).entry.fastmutex = false := h.fastmutex
  constructor
  · rw [hnil, hfree]
    rfl
  · intro t ht
    rw [hnil] at ht
    cases ht

end Server

/-- A request on file 3. -/
def requestOf (op count : CInt) : Message := ⟨7, serializeTag op 3, count, ⟨0, fun _ => 0⟩⟩

theorem find?_key {m : Message} {k : Key} (h : m.key = k) : [m].find? (·.key = k) = some m :=
  List.find?_cons_of_pos (decide_eq_true h)

theorem eraseP_key {m : Message} {k : Key} (h : m.key = k) : [m].eraseP (·.key = k) = [] :=
  List.eraseP_cons_of_pos (decide_eq_true h)

theorem chunkAt_pos {n c : Nat} (h : c < n) : 0 < chunkAt n c := by
  rw [chunkAt, chunkBytes_eq]
  omega

/-- The server between two chunks on file 3. -/
structure Receiving (n r : Nat) (s : Server) : Prop where
  pc : s.pc = .probe
  aq : s.aq = []
  writeCount : (s.entry 3).writeCount = BitVec.ofNat 64 n
  currentRecvSize : (s.entry 3).currentRecvSize = BitVec.ofNat 64 (r * chunkBytes)

section Chunks

variable {n r : Nat} {s : Server}

theorem Receiving.serverChunk_eq (h : Receiving n r s) (hn : bufSize < n) (hn64 : n < 2 ^ 64) (hr : r ≤ 16) :
    serverChunk (s.entry 3).currentRecvSize (s.entry 3).writeCount = BitVec.ofNat 32 (chunkAt n (r * chunkBytes)) := by
  have hle := mul_chunkBytes_le hr
  rw [h.currentRecvSize, h.writeCount, Ibio.serverChunk_eq hn64 (by omega) hle]

theorem onlyChunks_receive (h : Receiving n r s) (env : Env) :
    (s.receive (requestOf opWriteChunk 0)).OnlyChunks 3 (.turn env) := by
  have hpc : (s.receive (requestOf opWriteChunk 0)).pc = .probe := h.pc
  constructor
  · intro k w hw
    rw [hpc] at hw
    cases hw
  · intro _
    refine ⟨requestOf opWriteChunk 0, ?_, hpc, by decide⟩
    rw [Server.aq_receive h.aq]
    rfl

/-- A write that does not fit receives its next whole chunk. -/
theorem Receiving.next (h : Receiving n r s) (hn : bufSize < n) (hn64 : n < 2 ^ 64) (hr : r < 16) :
    ∃ (t : Server) (es : List ServerEvent), Path Server.step (Server.OnlyChunks 3) s es t ∧ Receiving n (r + 1) t := by
  have hend : (r + 1) * chunkBytes ≤ bufSize := mul_chunkBytes_le hr
  have hlt := lt_two_pow_of_le hend
  have hwhole : chunkAt n (r * chunkBytes) = chunkBytes := by
    rw [chunkAt]
    refine Nat.min_eq_left ?_
    rw [Nat.succ_mul] at hend
    omega
  have hchunk := h.serverChunk_eq hn hn64 hr.le
  rw [hwhole] at hchunk
  have hsize : (s.entry 3).currentRecvSize + uint64OfInt (BitVec.ofNat 32 chunkBytes) =
      BitVec.ofNat 64 ((r + 1) * chunkBytes) := by
    rw [h.currentRecvSize, uint64OfInt_ofNat (by rw [chunkBytes_eq]; decide), ← BitVec.ofNat_add, Nat.succ_mul]
  have hmore : (BitVec.ofNat 64 ((r + 1) * chunkBytes) : UInt64T) ≠ BitVec.ofNat 64 n := by
    intro heq
    have hnat := congrArg BitVec.toNat heq
    rw [BitVec.toNat_ofNat, BitVec.toNat_ofNat, Nat.mod_eq_of_lt (by omega), Nat.mod_eq_of_lt hn64] at hnat
    omega
  have hop : (requestOf opWriteChunk 0).op = opWriteChunk := by decide
  have hfd : (requestOf opWriteChunk 0).fd = 3 := by decide
  obtain ⟨t, ht, hstep⟩ : ∃ t : Server, t = { s.receive (requestOf opWriteChunk 0) with aq := [] } ∧
      (s.receive (requestOf opWriteChunk 0)).step (.turn .three) = some (t.swriteChunk (requestOf opWriteChunk 0)) :=
    ⟨_, rfl, (Server.turn_probe (s := s.receive _) h.pc (Server.aq_receive h.aq _)).trans (Server.dispatch_chunk _ _ hop)⟩
  have hentry : t.entry 3 = s.entry 3 := by
    rw [ht]
    rfl
  have hafter := swriteChunk_entry (s := t) hfd
  rw [hentry, hchunk, hsize] at hafter
  refine ⟨_, _, .cons (e := .arrive (requestOf opWriteChunk 0)) ?_ (s.step_arrive _)
    (.cons (onlyChunks_receive h .three) hstep (.nil _)), ?_, ?_, ?_, ?_⟩
  · exact True.intro
  · rw [Server.swriteChunk_pc, hfd, hafter]
    exact if_neg (h.writeCount ▸ hmore)
  · rw [Server.swriteChunk_aq, ht]
  · rw [hafter]
    exact h.writeCount
  · rw [hafter]

theorem Receiving.chunks (h : Receiving n 0 s) (hn : bufSize < n) (hn64 : n < 2 ^ 64) (hr : r ≤ 16) :
    ∃ (t : Server) (es : List ServerEvent), Path Server.step (Server.OnlyChunks 3) s es t ∧ Receiving n r t := by
  induction r with
  | zero => exact ⟨s, [], .nil s, h⟩
  | succ r ih =>
    obtain ⟨t, es, hpath, ht⟩ := ih (Nat.le_of_succ_le hr)
    obtain ⟨u, es', hpath', hu⟩ := ht.next hn hn64 hr
    exact ⟨u, es ++ es', hpath.append hpath', hu⟩

end Chunks

section Swrite

variable {n : Nat} {v u : CInt}

end Swrite

end Libibtl.Ibio
