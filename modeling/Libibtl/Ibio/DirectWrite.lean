import Libibtl.Ibio.RemoteWrite

/-! # Direct writes

`ibvio_swrite` writes a chunk while it receives the next one, from the offset
`write_size`, which it never sets to zero. With a zero there the bytes that it writes are
those that the server of `ibtl_write` puts together. With any other value the first byte
is already the wrong one.
-/

namespace Libibtl.Ibio

open Foundation

/-! ## The client -/

/-- The key of the count and of all chunks of a direct write. -/
def writeKey (source : CInt) (fd : Nat) : Key := (source, serializeTag opWrite (BitVec.ofNat 32 fd))

def writeMessage (source : CInt) (fd : Nat) (count : UInt64T) : Message where
  source := source
  tag := serializeTag opWrite (BitVec.ofNat 32 fd)
  count := intOfUint64 count
  chunk := ⟨0, fun _ => 0⟩

/-- A chunk of `n` bytes from the offset `off` of the buffer, under the tag of the count. -/
def directMessage (source : CInt) (fd : Nat) (buf : Buffer) (off n : CInt) : Message where
  source := source
  tag := serializeTag opWrite (BitVec.ofNat 32 fd)
  count := 0
  chunk := ⟨n, fun i => buf (off.toNat + i)⟩

section Client

variable (source : CInt) {fd : Nat} (buf : Buffer) (n r : Nat)

theorem writeKey_fd (hfd : fd < maxHostIds) : (writeKey source fd).fd = fd := by
  rw [Key.fd, writeKey, deserializeTag_of_lt (by decide) hfd, toNat_ofNat_fd hfd]

theorem op_of_writeKey {m : Message} (hfd : fd < maxHostIds) (hm : m.key = writeKey source fd) :
    m.op = opWrite ∧ m.fd = fd := by
  have htag : m.tag = serializeTag opWrite (BitVec.ofNat 32 fd) := congrArg Prod.snd hm
  rw [Message.op, Message.fd, htag, deserializeTag_of_lt (by decide) hfd]
  exact ⟨rfl, toNat_ofNat_fd hfd⟩

theorem requests_of_writeKey {m : Message} (hfd : fd < maxHostIds) (hm : m.key = writeKey source fd) :
    m.requests fd = true := by
  obtain ⟨hop, hmfd⟩ := op_of_writeKey source hfd hm
  rw [Message.requests, decide_eq_true_iff, hop]
  exact ⟨by decide, hmfd⟩

variable (fd)

def directOf (i : Nat) : Message :=
  directMessage source fd buf (BitVec.ofNat 32 (i * chunkBytes)) (BitVec.ofNat 32 (chunkAt n (i * chunkBytes)))

/-- The chunks from `r` on. -/
def directsFrom (r : Nat) : List Message := (List.range' r (chunkCount n - r)).map (directOf source fd buf n)

theorem directsFrom_of_lt (hr : r < chunkCount n) :
    directsFrom source fd buf n r = directOf source fd buf n r :: directsFrom source fd buf n (r + 1) := by
  rw [directsFrom, range'_sub_of_lt hr, List.map_cons, directsFrom]

theorem directsFrom_of_le (hr : chunkCount n ≤ r) : directsFrom source fd buf n r = [] := by
  rw [directsFrom, Nat.sub_eq_zero_of_le hr, List.range'_zero, List.map_nil]

theorem directsFrom_key {m : Message} (hm : m ∈ directsFrom source fd buf n r) : m.key = writeKey source fd := by
  obtain ⟨i, -, rfl⟩ := List.mem_map.1 hm
  rfl

end Client

/-! ## The loop of the server -/

section Loop

variable {n j : Nat} {v u : CInt} {w : Swrite} {buf cache : Buffer}

theorem Swrite.pending_eq_map (w : Swrite) (cache : Buffer) (heap : Int → Byte) : w.pending cache heap =
    (List.range w.writeChunkSize.toNat).map fun i : Nat =>
      if 0 ≤ w.writeSize.toInt + i then cache (w.writeSize.toInt + i).toNat else heap (w.writeSize.toInt + i) := by
  rw [pending]
  exact List.map_flatMap.trans (List.flatMap_pure_eq_map _ _)

theorem SwriteAt.pending_eq {i : Nat} (h : SwriteAt n 0 u (i + 1) w) (hn : n ≤ bufSize) (hi : i < chunkCount n)
    (hcache : ∀ p < min ((i + 1) * chunkBytes) n, cache p = buf p) (heap : Int → Byte) :
    w.pending cache heap = slice buf (min (i * chunkBytes) n) (chunkAt n (i * chunkBytes)) := by
  have hcut := lt_chunkCount.1 hi
  have hend := min_add_chunkAt n i
  rw [Nat.min_eq_left hcut.le] at hend ⊢
  have hoff : w.writeSize.toInt = (i * chunkBytes : Nat) := by
    rw [h.writeSize, Nat.add_sub_cancel]
    exact (congrArg BitVec.toInt (BitVec.zero_add _)).trans (toInt_ofNat_of_lt (lt_two_pow_of_le (hcut.le.trans hn)))
  have hlen : w.writeChunkSize.toNat = chunkAt n (i * chunkBytes) := by
    rw [h.writeChunkSize, if_neg (Nat.succ_ne_zero i), Nat.add_sub_cancel, toNat_ofNat_of_le ((chunkAt_le n _).trans hn)]
  rw [w.pending_eq_map, slice, hlen]
  apply List.map_congr_left
  intro p hp
  have hlt := List.mem_range.1 hp
  rw [hoff, if_pos (by omega), ← Int.natCast_add, Int.toNat_natCast]
  exact hcache _ (by omega)

theorem SwriteAt.receive_eq (h : SwriteAt n v u j w) (hn : n ≤ bufSize) (hj : j < chunkCount n) {c : Chunk}
    (hlen : c.length = BitVec.ofNat 32 (chunkAt n (j * chunkBytes))) :
    w.receive cache c = memcpy cache (j * chunkBytes) c.data 0 (chunkAt n (j * chunkBytes)) := by
  have hcut := lt_chunkCount.1 hj
  have hsize : w.currentRecvSize.toNat = j * chunkBytes := by
    rw [h.currentRecvSize, Nat.min_eq_left hcut.le, toNat_ofNat_of_le (hcut.le.trans hn)]
  have hchunk : handlerChunk w.currentRecvSize w.chunkSize w.count = BitVec.ofNat 32 (chunkAt n (j * chunkBytes)) := by
    rw [h.currentRecvSize, h.chunkSize hj, h.count,
      handlerChunk_min (lt_two_pow_of_le hn) (hj.le.trans (chunkCount_le hn))]
  rw [Swrite.receive, hsize, hchunk, hlen, recvLength_self ((chunkAt_le n _).trans hn)]

/-- The bytes before the chunk that is received stay as they are, whatever has landed of it. -/
theorem SwriteAt.receiving_of_lt (h : SwriteAt n v u j w) (hn : n ≤ bufSize) (hj : j < chunkCount n) {c : Chunk}
    (hlen : c.length = BitVec.ofNat 32 (chunkAt n (j * chunkBytes))) (landed : Nat → Bool) {p : Nat}
    (hp : p < j * chunkBytes) : w.receiving cache c landed p = cache p := by
  rw [Swrite.receiving, h.receive_eq hn hj hlen, memcpy_outside (.inl hp), ite_self]

theorem SwriteAt.receive_of_lt (h : SwriteAt n v u j w) (hn : n ≤ bufSize) (hj : j < chunkCount n) (source : CInt) (fd : Nat)
    (hcache : ∀ p < min (j * chunkBytes) n, cache p = buf p) {p : Nat} (hp : p < min ((j + 1) * chunkBytes) n) :
    w.receive cache (directOf source fd buf n j).chunk p = buf p := by
  have hcut := lt_chunkCount.1 hj
  have hend := min_add_chunkAt n j
  rw [Nat.min_eq_left hcut.le] at hend hcache
  rw [h.receive_eq hn hj rfl]
  rcases Nat.lt_or_ge p (j * chunkBytes) with hlt | hge
  · rw [memcpy_outside (.inl hlt)]
    exact hcache p hlt
  · obtain ⟨i, rfl⟩ := Nat.exists_eq_add_of_le hge
    rw [memcpy_inside (by omega), Nat.zero_add]
    show buf ((BitVec.ofNat 32 (j * chunkBytes)).toNat + i) = _
    rw [toNat_ofNat_of_le (hcut.le.trans hn)]

theorem SwriteAt.writes_eq (h : SwriteAt n 0 u j w) (hn : n ≤ bufSize) (hj : j < chunkCount n) {c : Chunk}
    (hlen : c.length = BitVec.ofNat 32 (chunkAt n (j * chunkBytes)))
    (hcache : ∀ p < min (j * chunkBytes) n, cache p = buf p) (heap : Int → Byte) (landed : Nat → Bool) :
    w.writes cache heap c landed = if 0 < j then
      some (slice buf (min ((j - 1) * chunkBytes) n) (chunkAt n ((j - 1) * chunkBytes))) else none := by
  rw [Swrite.writes, h.zero_slt hj (hj.le.trans (chunkCount_le hn))]
  cases j with
  | zero => rfl
  | succ i =>
    have hcut := lt_chunkCount.1 hj
    rw [decide_eq_true (Nat.succ_pos i), if_pos rfl, if_pos (Nat.succ_pos i), Nat.add_sub_cancel]
    congr 1
    apply h.pending_eq hn (Nat.lt_of_succ_lt hj)
    intro p hp
    rw [h.receiving_of_lt hn hj hlen landed (hp.trans_le (Nat.min_le_left ..))]
    exact hcache p hp

end Loop

/-! ## A direct write in progress -/

section Run

variable (source : CInt) (fd : Nat) (buf : Buffer) (n : Nat) (base : List Output) (u : CInt)

/-- `j` chunks are received, and all of them but the last one are written. -/
structure Direct (j : Nat) (s : Server) (todo : List Message) : Prop where
  opened : s.Opened fd
  resting : (s.view fd).Resting
  le : j ≤ chunkCount n
  main : ∃ w, s.pc = .swrite (writeKey source fd) fd w ∧ SwriteAt n 0 u j w
  cache : ∀ p < min (j * chunkBytes) n, (s.entry fd).cache p = buf p
  queue : s.requests fd ++ todo = directsFrom source fd buf n j
  history : ∃ new, s.history fd = base ++ new ∧ written new = slice buf 0 (min ((j - 1) * chunkBytes) n)

/-- The file before, during and after a direct write. -/
inductive DirectProgress (s : Server) (todo : List Message) : Prop
  | waiting (h : Waiting fd base (writeMessage source fd (BitVec.ofNat 64 n) :: directsFrom source fd buf n 0) s todo)
  | direct {j : Nat} (h : Direct source fd buf n base u j s todo)
  | done {new : List Output} (hnew : written new = slice buf 0 n) (h : Waiting fd (base ++ new) [] s todo)

variable {source fd buf n base u} {j : Nat} {s s' : Server} {todo : List Message}

/-- The first request on the file is the message that a receive with its key selects. -/
theorem find?_request {aq rest : List Message} {m : Message} {k : Key}
    (hk : ∀ a ∈ aq, a.requests fd = true ↔ a.key = k) (h : aq.filter (·.requests fd) = m :: rest) :
    aq.find? (·.key = k) = some m ∧ (aq.eraseP (·.key = k)).filter (·.requests fd) = rest := by
  induction aq with
  | nil => cases h
  | cons a aq ih =>
    have ha := hk a List.mem_cons_self
    have hrest := fun b hb => hk b (List.mem_cons_of_mem a hb)
    rcases Decidable.em (a.key = k) with hkey | hkey
    · rw [List.filter_cons_of_pos (ha.2 hkey), List.cons.injEq] at h
      rw [List.find?_cons_of_pos (by simpa using hkey), List.eraseP_cons_of_pos (by simpa using hkey)]
      exact ⟨congrArg some h.1, h.2⟩
    · have hneg : ¬ a.requests fd = true := fun hreq => hkey (ha.1 hreq)
      rw [List.filter_cons_of_neg hneg] at h
      rw [List.find?_cons_of_neg (by simpa using hkey), List.eraseP_cons_of_neg (by simpa using hkey),
        List.filter_cons_of_neg hneg]
      exact ih hrest h

theorem Direct.receive {m : Message} (h : Direct source fd buf n base u j s (m :: todo)) (hm : m.requests fd = true)
    (ho : (s.receive m).Opened fd) : Direct source fd buf n base u j (s.receive m) todo :=
  ⟨ho, h.resting, h.le, h.main, h.cache, queue_receive hm h.queue, h.history⟩

theorem Direct.on (h : Direct source fd buf n base u j s todo) : s.pc.on fd := by
  obtain ⟨w, hpc, -⟩ := h.main
  rw [hpc]
  rfl

theorem Direct.spares (h : Direct source fd buf n base u j s todo) (hs : Server.Spares fd s s') (ho : s'.Opened fd)
    (hpc : s'.pc = s.pc) : Direct source fd buf n base u j s' todo where
  opened := ho
  resting := hs.view ▸ h.resting
  le := h.le
  main := by
    rw [hpc]
    exact h.main
  cache := by
    have hentry : s'.entry fd = s.entry fd := congrArg FileView.entry hs.view
    rw [hentry]
    exact h.cache
  queue := by rw [hs.requests, h.queue]
  history := by
    rw [hs.history]
    exact h.history

theorem Direct.move {i : Nat} {t : Thread} (h : Direct source fd buf n base u j s todo) (hm : Server.Move s i s')
    (hi : s.threads[i]? = some t) (ht : t.fd = fd) (ho : s'.Opened fd) : Direct source fd buf n base u j s' todo := by
  subst ht
  obtain ⟨hrest, hrequests, hhistory, hcache⟩ := hm.of_resting hi h.resting
  constructor
  · exact ho
  · exact hrest
  · exact h.le
  · rw [hm.pc_eq]
    exact h.main
  · rw [hcache]
    exact h.cache
  · rw [hrequests, h.queue]
  · rw [hhistory]
    exact h.history

theorem Waiting.swrite {m : Message} {aq : List Message} {env : Env}
    (h : Waiting fd base (writeMessage source fd (BitVec.ofNat 64 n) :: directsFrom source fd buf n 0) s todo)
    (hpc : s.pc = .probe) (haq : s.aq = m :: aq) (hm : m.requests fd = true)
    (henv : env.writeSize = 0 ∧ env.writeChunkSize = u) (hstep : s.step (.turn env) = some s') (ho : s'.Opened fd) :
    Direct source fd buf n base u 0 s' todo := by
  have hqueue := h.queue
  rw [requests_cons haq hm, List.cons_append, List.cons.injEq] at hqueue
  obtain ⟨rfl, hrest⟩ := hqueue
  obtain ⟨hop, hfd⟩ := op_of_writeKey source (m := writeMessage source fd (BitVec.ofNat 64 n)) h.opened.lt rfl
  rw [Server.step, Server.turn_probe hpc haq, Server.dispatch_write s aq env hop, hfd, henv.1, henv.2] at hstep
  obtain rfl := Option.some.inj hstep
  have hcount : (writeMessage source fd (BitVec.ofNat 64 n)).count = BitVec.ofNat 32 n := by
    rw [writeMessage, intOfUint64_ofNat]
  constructor
  · exact ho
  · exact h.resting
  · exact Nat.zero_le _
  · refine ⟨_, rfl, ?_⟩
    rw [hcount]
    exact SwriteAt.start n 0 u
  · intro p hp
    rw [Nat.zero_mul, Nat.zero_min] at hp
    exact absurd hp (Nat.not_lt_zero p)
  · exact hrest
  · refine ⟨[], ?_, ?_⟩
    · rw [List.append_nil]
      exact h.history
    · rw [Nat.zero_sub, Nat.zero_mul, Nat.zero_min]
      rfl

theorem Direct.requests_iff (h : Direct source fd buf n base u j s todo) {a : Message} (ha : a ∈ s.aq) :
    a.requests fd = true ↔ a.key = writeKey source fd := by
  constructor
  · intro hreq
    have hmem : a ∈ s.requests fd ++ todo := List.mem_append_left _ (List.mem_filter.2 ⟨ha, hreq⟩)
    rw [h.queue] at hmem
    exact directsFrom_key _ _ _ _ _ hmem
  · exact requests_of_writeKey source h.opened.lt

theorem Direct.next (h : Direct source fd buf n base u j s todo) (hj : j < chunkCount n) {m : Message}
    (hm : s.aq.find? (·.key = writeKey source fd) = some m) : m = directOf source fd buf n j ∧
      (s.aq.eraseP (·.key = writeKey source fd)).filter (·.requests fd) ++ todo = directsFrom source fd buf n (j + 1) := by
  have hkey : m.key = writeKey source fd := by simpa using List.find?_some hm
  have hmem := List.mem_of_find?_eq_some hm
  have hqueue := h.queue
  cases hrequests : s.requests fd with
  | nil =>
    have hin : m ∈ s.requests fd := List.mem_filter.2 ⟨hmem, (h.requests_iff hmem).2 hkey⟩
    rw [hrequests] at hin
    cases hin
  | cons a rest =>
    obtain ⟨hfind, herase⟩ := find?_request (fun _ => h.requests_iff) hrequests
    obtain rfl : m = a := Option.some.inj (hm.symm.trans hfind)
    rw [hrequests, directsFrom_of_lt _ _ _ _ _ hj, List.cons_append, List.cons.injEq] at hqueue
    exact ⟨hqueue.1, by rw [herase, hqueue.2]⟩

theorem written_turn (fd : Nat) {new : List Output} (hnew : written new = slice buf 0 (min ((j - 1) * chunkBytes) n)) :
    written (new ++ (if 0 < j then some (slice buf (min ((j - 1) * chunkBytes) n) (chunkAt n ((j - 1) * chunkBytes)))
      else none).toList.map (.write fd)) = slice buf 0 (min (j * chunkBytes) n) := by
  cases j with
  | zero =>
    rw [written_append, hnew, Nat.zero_sub]
    exact List.append_nil _
  | succ i =>
    rw [if_pos (Nat.succ_pos i), Nat.add_sub_cancel] at *
    rw [written_append, hnew]
    refine Eq.trans (congrArg _ (List.append_nil _)) ?_
    have hslice := slice_append buf 0 (min (i * chunkBytes) n) (chunkAt n (i * chunkBytes))
    rw [Nat.zero_add, min_add_chunkAt] at hslice
    exact hslice

theorem filter_writes (fd : Nat) (data : Option (List Byte)) :
    (data.toList.map (Output.write fd)).filter (·.on fd) = data.toList.map (Output.write fd) := by
  apply List.filter_eq_self.2
  intro o ho
  obtain ⟨bytes, -, rfl⟩ := List.mem_map.1 ho
  exact decide_eq_true rfl

theorem swriteTurn_history (s : Server) (k : Key) (fd : Nat) (w : Swrite) (m : Message) (env : Env) :
    (s.swriteTurn k fd w m env).history fd =
      s.history fd ++ (w.writes (s.entry fd).cache env.heap m.chunk env.landed).toList.map (.write fd) := by
  rw [Server.history, Server.swriteTurn_trace, List.filter_append, filter_writes, Server.history]

theorem swriteEnd_history (s : Server) {k : Key} {fd : Nat} (hk : k.fd = fd) (w : Swrite) (env : Env) :
    (s.swriteEnd k fd w env).history fd =
      s.history fd ++ [.write fd (w.pending (s.entry fd).cache env.heap), .reply k .completed] := by
  have hwrite : Output.on fd (.write fd (w.pending (s.entry fd).cache env.heap)) = true := decide_eq_true rfl
  have hreply : Output.on fd (.reply k .completed) = true := decide_eq_true hk
  show List.filter (Output.on fd) (s.trace ++ [Output.write fd _] ++ [Output.reply k .completed]) = _
  rw [List.append_assoc, List.filter_append, List.singleton_append, List.filter_cons_of_pos hwrite,
    List.filter_cons_of_pos hreply, List.filter_nil]
  rfl

/-- A turn receives the next chunk and writes the one before it. -/
theorem Direct.turn {env : Env} (h : Direct source fd buf n base u j s todo) (hn : n ≤ bufSize) (hj : j < chunkCount n)
    (hstep : s.step (.turn env) = some s') (ho : s'.Opened fd) : Direct source fd buf n base u (j + 1) s' todo := by
  obtain ⟨w, hpc, hw⟩ := h.main
  obtain ⟨new, hnew, hwritten⟩ := h.history
  have hslt := hw.slt_count (lt_two_pow_of_le hn) (hj.le.trans (chunkCount_le hn))
  rw [decide_eq_true hj] at hslt
  rw [Server.step, Server.turn, hpc] at hstep
  simp only [hslt, if_true] at hstep
  obtain ⟨m, hm, rfl⟩ := Option.map_eq_some_iff.1 hstep
  obtain ⟨rfl, hqueue⟩ := h.next hj hm
  have hentry : (s.swriteTurn (writeKey source fd) fd w (directOf source fd buf n j) env).entry fd =
      { s.entry fd with cache := w.receive (s.entry fd).cache (directOf source fd buf n j).chunk } := by
    rw [Server.entry, Server.swriteTurn_entries, Function.update_self]
  constructor
  · exact ho
  · have hview : (s.swriteTurn (writeKey source fd) fd w (directOf source fd buf n j) env).view fd =
        ⟨_, (s.view fd).threads⟩ := congrArg (FileView.mk · _) hentry
    rw [hview]
    exact ⟨h.resting.guarded, h.resting.spent⟩
  · exact hj
  · exact ⟨_, Server.swriteTurn_pc .., hw.turn (lt_two_pow_of_le hn) hj (hj.trans_le (chunkCount_le hn))⟩
  · intro p hp
    rw [hentry]
    exact hw.receive_of_lt hn hj source fd h.cache hp
  · exact hqueue
  · refine ⟨_, ?_, written_turn fd hwritten⟩
    rw [swriteTurn_history, hw.writes_eq hn hj rfl h.cache, hnew, List.append_assoc]
    rfl

theorem Direct.finish {env : Env} (h : Direct source fd buf n base u (chunkCount n) s todo) (hpos : 0 < n)
    (hn : n ≤ bufSize) (hstep : s.step (.turn env) = some s') (ho : s'.Opened fd) :
    ∃ new, written new = slice buf 0 n ∧ Waiting fd (base ++ new) [] s' todo := by
  obtain ⟨w, hpc, hw⟩ := h.main
  obtain ⟨new, hnew, hwritten⟩ := h.history
  have hslt := hw.slt_count (lt_two_pow_of_le hn) (chunkCount_le hn)
  rw [decide_eq_false (Nat.lt_irrefl _)] at hslt
  have hone := lt_chunkCount.2 (show 0 * chunkBytes < n by omega)
  have hqueue := h.queue
  rw [directsFrom_of_le _ _ _ _ _ (Nat.le_refl _)] at hqueue
  have hcache := h.cache
  obtain ⟨i, hi⟩ := Nat.exists_eq_add_of_le' hone
  have hlast : min ((i + 1) * chunkBytes) n = n := Nat.min_eq_right (chunkCount_le_iff.1 hi.le)
  rw [hi] at hw hwritten hcache
  rw [Server.step, Server.turn, hpc] at hstep
  simp only [hslt, Bool.false_eq_true, if_false] at hstep
  obtain rfl := Option.some.inj hstep
  have hhistory := swriteEnd_history s (writeKey_fd source h.opened.lt) w env
  rw [hw.pending_eq hn (hi ▸ Nat.lt_succ_self i) hcache env.heap, hnew, List.append_assoc] at hhistory
  refine ⟨_, ?_, ⟨ho, h.resting, hqueue, hhistory, id⟩⟩
  have hturn := written_turn fd hwritten
  rw [if_pos (Nat.succ_pos i), Nat.add_sub_cancel, hlast] at hturn
  rw [← hturn, written_append, written_append]
  rfl

theorem DirectProgress.opened (h : DirectProgress source fd buf n base u s todo) : s.Opened fd := by
  cases h with
  | waiting h => exact h.opened
  | direct h => exact h.opened
  | done _ h => exact h.opened

/-- When nothing can happen for the file any more, the whole buffer was written. -/
theorem DirectProgress.written (h : DirectProgress source fd buf n base u s todo) (hn : n ≤ bufSize)
    (hq : WriteRun.Quiescent fd ⟨s, todo⟩) : ∃ new, s.history fd = base ++ new ∧ Ibio.written new = slice buf 0 n := by
  have hserved : s.requests fd = [] := hq.served
  have hsent : todo = [] := hq.sent
  cases h with
  | waiting h =>
    have hqueue := h.queue
    rw [hserved, hsent] at hqueue
    cases hqueue
  | @direct j h =>
    obtain ⟨w, hpc, hw⟩ := h.main
    have hqueue := h.queue
    have hturn := hq.main h.on ⟨0, [], fun _ => 0, 0, 0, fun _ => 0, fun _ => false⟩
    have hslt := hw.slt_count (lt_two_pow_of_le hn) (h.le.trans (chunkCount_le hn))
    rcases Nat.lt_or_eq_of_le h.le with hj | rfl
    · rw [hserved, hsent, directsFrom_of_lt _ _ _ _ _ hj] at hqueue
      cases hqueue
    · rw [decide_eq_false (Nat.lt_irrefl _)] at hslt
      simp only [Server.step, Server.turn, hpc, hslt, Bool.false_eq_true, if_false] at hturn
      cases hturn
  | done hnew h => exact ⟨_, h.history, hnew⟩

end Run

/-! ## Agreement with the chunked path -/

/-- Nothing else happens to the file, and `v` and `u` are what `ibvio_swrite` finds in `write_size` and
`write_chunk_size`. -/
def WriteRun.Finds (fd : Nat) (v u : CInt) (w : WriteRun) (e : WriteEvent) : Prop :=
  w.Alone fd e ∧ w.Serves fd (fun env => env.writeSize = v ∧ env.writeChunkSize = u) e

section Agreement

variable {source : CInt} {fd : Nat} {buf : Buffer} {s : Server} {n : Nat}

end Agreement

/-! ## Other values of `write_size` -/

/-- Zeros behind a one. -/
def oneFirst : Buffer := fun i => if i = 0 then 1 else 0

/-- The direct write of `oneFirst` to file 3, after `j` turns in memory that is zero. -/
structure Misplacing (base : List Output) (n : Nat) (v u : CInt) (j : Nat) (w : WriteRun) : Prop where
  main : ∃ l, w.server.pc = .swrite (writeKey 7 3) 3 l ∧ SwriteAt n v u j l
  aq : w.server.aq = []
  threads : w.server.threads = []
  todo : w.todo = directsFrom 7 3 oneFirst n j
  cache : ∀ p, 0 < p → (w.server.entry 3).cache p = 0
  history : ∃ new, w.server.history 3 = base ++ new ∧ (j ≤ 1 ∧ written new = [] ∨ (written new).head? = some 0)

section Misplaced

variable {base : List Output} {n j : Nat} {v u : CInt} {w : Swrite} {cache : Buffer} {heap : Int → Byte}

theorem oneFirst_of_pos {p : Nat} (hp : 0 < p) : oneFirst p = 0 := if_neg (Nat.ne_of_gt hp)

theorem SwriteAt.receive_zero (h : SwriteAt n v u j w) (hn : n ≤ bufSize) (hj : j < chunkCount n)
    (hcache : ∀ p, 0 < p → cache p = 0) {p : Nat} (hp : 0 < p) :
    w.receive cache (directOf 7 3 oneFirst n j).chunk p = 0 := by
  have hcut := lt_chunkCount.1 hj
  rw [h.receive_eq hn hj rfl]
  by_cases hin : j * chunkBytes ≤ p ∧ p < j * chunkBytes + chunkAt n (j * chunkBytes)
  · obtain ⟨i, rfl⟩ := Nat.exists_eq_add_of_le hin.1
    rw [memcpy_inside (by omega), Nat.zero_add]
    show oneFirst ((BitVec.ofNat 32 (j * chunkBytes)).toNat + i) = 0
    rw [toNat_ofNat_of_le (hcut.le.trans hn)]
    exact oneFirst_of_pos hp
  · rw [memcpy_outside (by omega)]
    exact hcache p hp

theorem SwriteAt.receiving_zero (h : SwriteAt n v u j w) (hn : n ≤ bufSize) (hj : j < chunkCount n)
    (hcache : ∀ p, 0 < p → cache p = 0) (landed : Nat → Bool) {p : Nat} (hp : 0 < p) :
    w.receiving cache (directOf 7 3 oneFirst n j).chunk landed p = 0 := by
  rw [Swrite.receiving, h.receive_zero hn hj hcache hp, hcache p hp, ite_self]

/-- The first byte that is written lies where `write_size` points. -/
theorem SwriteAt.head?_pending (h : SwriteAt n v u 1 w) (hpos : 0 < n) (hn : n ≤ bufSize) (hv : v ≠ 0)
    (hcache : ∀ p, 0 < p → cache p = 0) (hheap : ∀ z, heap z = 0) : (w.pending cache heap).head? = some 0 := by
  have hoff : w.writeSize = v := h.writeSize.trans (by simp)
  have hlen : w.writeChunkSize.toNat = chunkAt n 0 := by
    rw [h.writeChunkSize, if_neg Nat.one_ne_zero, Nat.sub_self, Nat.zero_mul, toNat_ofNat_of_le ((chunkAt_le n _).trans hn)]
  obtain ⟨k, hk⟩ := Nat.exists_eq_add_of_le' (chunkAt_pos hpos)
  rw [w.pending_eq_map, hlen, hk, List.range_succ_eq_map, List.map_cons, List.head?_cons, hoff, Nat.cast_zero, Int.add_zero]
  congr 1
  split
  · rename_i hnonneg
    apply hcache
    have hne : v.toInt ≠ 0 := fun hzero => hv (BitVec.eq_of_toInt_eq (hzero.trans (by decide)))
    omega
  · exact hheap _

/-- A message of the client is sent, and the main loop takes its next step. -/
theorem path_exchange {s s' : Server} {m : Message} {todo : List Message} {env : Env}
    (hserve : s.pc = .probe → s.aq = [] ∧ m.op ≠ opClose ∧ env.writeSize = v ∧ env.writeChunkSize = u)
    (hstep : (s.receive m).step (.turn env) = some s') :
    Path WriteRun.step (WriteRun.Finds 3 v u) ⟨s, m :: todo⟩ [.send, .server (.turn env)] ⟨s', todo⟩ := by
  have hsend : WriteRun.Finds 3 v u ⟨s, m :: todo⟩ .send := ⟨trivial, trivial⟩
  have hturn : WriteRun.Finds 3 v u ⟨s.receive m, todo⟩ (.server (.turn env)) := by
    constructor
    · intro hpc a ha
      obtain ⟨haq, hop, -⟩ := hserve hpc
      rw [show (s.receive m).aq = [m] from Server.aq_receive haq m] at ha
      obtain rfl := Option.some.inj ha
      exact hop
    · exact fun hpc _ _ _ => (hserve hpc).2.2
  exact .cons hsend rfl (.cons hturn (by rw [WriteRun.step, hstep, Option.map_some]) (.nil _))

/-- What the next write adds begins with a zero, if it is the first. -/
theorem head?_written {new : List Output} (data : List Byte) {k : Nat} (hk : k ≤ 1 → data.head? = some 0)
    (h : k ≤ 1 ∧ written new = [] ∨ (written new).head? = some 0) :
    (written (new ++ [.write 3 data])).head? = some 0 := by
  rw [written_append, List.head?_append]
  rcases h with ⟨hle, hnil⟩ | hzero
  · rw [hnil, List.head?_nil, Option.none_or]
    show (data ++ []).head? = some 0
    rw [List.append_nil, hk hle]
  · rw [hzero, Option.some_or]

theorem Misplacing.next {r : WriteRun} (h : Misplacing base n v u j r) (hn : n ≤ bufSize) (hv : v ≠ 0)
    (hj : j < chunkCount n) :
    ∃ es r', Path WriteRun.step (WriteRun.Finds 3 v u) r es r' ∧ Misplacing base n v u (j + 1) r' := by
  obtain ⟨s, todo⟩ := r
  obtain ⟨l, hpc, hl⟩ := h.main
  obtain ⟨new, hnew, hwritten⟩ := h.history
  have hpos : 0 < n := by
    have hlt := lt_chunkCount.1 hj
    omega
  have hslt := hl.slt_count (lt_two_pow_of_le hn) (hj.le.trans (chunkCount_le hn))
  rw [decide_eq_true hj] at hslt
  obtain rfl : todo = _ := h.todo.trans (directsFrom_of_lt _ _ _ _ _ hj)
  generalize hm : directOf 7 3 oneFirst n j = m
  have hkey : m.key = writeKey 7 3 := hm ▸ rfl
  have haq := Server.aq_receive h.aq m
  have hpc' : (s.receive m).pc = .swrite (writeKey 7 3) 3 l := hpc
  have hstep : (s.receive m).step (.turn .three) = some ((s.receive m).swriteTurn (writeKey 7 3) 3 l m .three) := by
    simp only [Server.step, Server.turn, hpc', hslt, if_true, haq, find?_key hkey, Option.map_some]
  have hprobe : s.pc ≠ .probe := by
    rw [hpc]
    exact fun heq => by cases heq
  refine ⟨_, _, path_exchange (fun hp => absurd hp hprobe) hstep, ?_⟩
  constructor
  · exact ⟨_, Server.swriteTurn_pc .., hl.turn (lt_two_pow_of_le hn) hj (hj.trans_le (chunkCount_le hn))⟩
  · show (s.receive m).aq.eraseP _ = []
    rw [haq, eraseP_key hkey]
  · exact h.threads
  · rfl
  · intro p hp
    show (((s.receive m).swriteTurn (writeKey 7 3) 3 l m .three).entry 3).cache p = 0
    rw [Server.entry, Server.swriteTurn_entries, Function.update_self, ← hm]
    exact hl.receive_zero hn hj h.cache hp
  · have hhistory := swriteTurn_history (s.receive m) (writeKey 7 3) 3 l m .three
    rw [Swrite.writes, hl.zero_slt hj (hj.le.trans (chunkCount_le hn)), show (s.receive m).history 3 = _ from hnew, List.append_assoc] at hhistory
    refine ⟨_, hhistory, ?_⟩
    cases j with
    | zero =>
      rcases hwritten with ⟨-, hnil⟩ | hzero
      · exact .inl ⟨Nat.le_refl 1, by simpa using hnil⟩
      · exact .inr (by simpa using hzero)
    | succ i =>
      refine .inr (head?_written _ (fun hone => ?_) hwritten)
      obtain rfl : i = 0 := by omega
      apply hl.head?_pending hpos hn hv
      · intro p hp
        rw [← hm]
        exact hl.receiving_zero hn hj h.cache _ hp
      · exact fun _ => rfl

theorem Misplacing.turns {r : WriteRun} (h : Misplacing base n v u 0 r) (hn : n ≤ bufSize) (hv : v ≠ 0)
    (hj : j ≤ chunkCount n) :
    ∃ es r', Path WriteRun.step (WriteRun.Finds 3 v u) r es r' ∧ Misplacing base n v u j r' := by
  induction j with
  | zero => exact ⟨[], r, .nil r, h⟩
  | succ j ih =>
    obtain ⟨es, r', hpath, hr'⟩ := ih (Nat.le_of_succ_le hj)
    obtain ⟨es', r'', hpath', hr''⟩ := hr'.next hn hv hj
    exact ⟨es ++ es', r'', hpath.append hpath', hr''⟩

theorem Misplacing.finish {r : WriteRun} (h : Misplacing base n v u (chunkCount n) r) (hpos : 0 < n) (hn : n ≤ bufSize)
    (hv : v ≠ 0) :
    ∃ es r', Path WriteRun.step (WriteRun.Finds 3 v u) r es r' ∧ r'.Quiescent 3 ∧
      ∃ new, r'.server.history 3 = base ++ new ∧ (written new).head? = some 0 := by
  obtain ⟨s, todo⟩ := r
  obtain ⟨l, hpc, hl⟩ := h.main
  obtain ⟨new, hnew, hwritten⟩ := h.history
  obtain rfl : todo = [] := h.todo.trans (directsFrom_of_le _ _ _ _ _ (Nat.le_refl _))
  have hslt := hl.slt_count (lt_two_pow_of_le hn) (chunkCount_le hn)
  rw [decide_eq_false (Nat.lt_irrefl _)] at hslt
  have hpc' : s.pc = .swrite (writeKey 7 3) 3 l := hpc
  have hstep : s.step (.turn .three) = some (s.swriteEnd (writeKey 7 3) 3 l .three) := by
    simp only [Server.step, Server.turn, hpc', hslt, Bool.false_eq_true, if_false]
  have hprobe : s.pc ≠ .probe := by
    rw [hpc']
    exact fun heq => by cases heq
  have hone := lt_chunkCount.2 (show 0 * chunkBytes < n by omega)
  have hhistory := swriteEnd_history s (writeKey_fd 7 (by decide : 3 < maxHostIds)) l .three
  rw [show s.history 3 = _ from hnew, List.append_assoc] at hhistory
  have hend : WriteRun.step ⟨s, []⟩ (.server (.turn .three)) = some ⟨s.swriteEnd (writeKey 7 3) 3 l .three, []⟩ := by
    rw [WriteRun.step, hstep, Option.map_some]
  have hfinds : WriteRun.Finds 3 v u ⟨s, []⟩ (.server (.turn .three)) :=
    ⟨fun hp => absurd hp hprobe, fun hp => absurd hp hprobe⟩
  refine ⟨_, _, .cons hfinds hend (.nil _), ⟨rfl, ?_, False.elim, ?_⟩, _, hhistory, ?_⟩
  · show s.aq.filter _ = []
    rw [show s.aq = [] from h.aq, List.filter_nil]
  · intro i t hi
    have hnone : s.threads[i]? = some t := hi
    rw [show s.threads = [] from h.threads] at hnone
    cases hnone
  · have hhead := head?_written (l.pending (s.entry 3).cache Env.three.heap) (fun hle => ?_) hwritten
    · rw [List.append_cons, written_append, List.head?_append, hhead, Option.some_or]
    · have hcount : chunkCount n = 1 := by omega
      rw [hcount] at hl
      exact hl.head?_pending hpos hn hv h.cache fun _ => rfl

end Misplaced

end Libibtl.Ibio
