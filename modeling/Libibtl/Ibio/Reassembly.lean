import Libibtl.Ibio.FileRuns

/-! # Remote writes are reassembled

Before `WRITE_BEGIN` is served the file rests. From then on, `r` chunks are received and
`d` of them are written and counted, and what was written is the beginning of the
buffer. A writer takes its range from the shared counter, so the bytes are in order for
every order of the writers.
-/

namespace Libibtl.Ibio

open Foundation

/-! ## What was done -/

/-- The receives that were posted for chunks. -/
def receives (l : List Output) : List (Nat × CInt) :=
  l.filterMap fun
    | .receive _ off n => some (off, n)
    | _ => none

/-- The bytes of all calls of `write`. -/
def written (l : List Output) : List Byte :=
  l.flatMap fun
    | .write _ data => data
    | _ => []

/-- The replies that complete a write. -/
def completions (l : List Output) : List Key :=
  l.filterMap fun
    | .reply k .completed => some k
    | _ => none

section Concat

variable (l l' : List Output)

theorem receives_append : receives (l ++ l') = receives l ++ receives l' := List.filterMap_append

theorem written_append : written (l ++ l') = written l ++ written l' := List.flatMap_append

theorem completions_append : completions (l ++ l') = completions l ++ completions l' := List.filterMap_append

end Concat

theorem range'_sub_of_lt {r k : Nat} (h : r < k) : List.range' r (k - r) = r :: List.range' (r + 1) (k - (r + 1)) := by
  have hlen : k - r = k - (r + 1) + 1 := by omega
  rw [hlen, List.range'_succ]

/-! ## The log of one write -/

section Write

variable (source : CInt) (fd : Nat) (buf : Buffer) (n : Nat)

/-- The request for chunk `i`. -/
def chunkOf (i : Nat) : Message :=
  chunkMessage source fd buf (BitVec.ofNat 32 (i * chunkBytes)) (BitVec.ofNat 32 (chunkAt n (i * chunkBytes)))

/-- `r` chunks were received and `x` written. -/
structure Logged (r x : Nat) (replied : Bool) (new : List Output) : Prop where
  receives : receives new = (List.range r).map fun i => (i * chunkBytes, BitVec.ofNat 32 (chunkAt n (i * chunkBytes)))
  written : written new = slice buf 0 (min (x * chunkBytes) n)
  completions : completions new = if replied then [chunkKey source fd] else []

variable {source fd buf n} {r x : Nat} {replied : Bool} {new : List Output}

theorem Logged.nil : Logged source fd buf n 0 0 false [] where
  receives := rfl
  written := by
    rw [Nat.zero_mul, Nat.zero_min]
    rfl
  completions := rfl

theorem Logged.receive (h : Logged source fd buf n r x replied new) : Logged source fd buf n (r + 1) x replied
    (new ++ [.receive fd (r * chunkBytes) (BitVec.ofNat 32 (chunkAt n (r * chunkBytes)))]) where
  receives := by
    rw [receives_append, h.receives, List.range_succ, List.map_append]
    rfl
  written := by
    rw [written_append, h.written]
    exact List.append_nil _
  completions := by
    rw [completions_append, h.completions]
    exact List.append_nil _

theorem Logged.write (h : Logged source fd buf n r x replied new) : Logged source fd buf n r (x + 1) replied
    (new ++ [.write fd (slice buf (min (x * chunkBytes) n) (chunkAt n (x * chunkBytes)))]) where
  receives := by
    rw [receives_append, h.receives]
    exact List.append_nil _
  written := by
    rw [written_append, h.written]
    refine Eq.trans (congrArg _ (List.append_nil _)) ?_
    have hslice := slice_append buf 0 (min (x * chunkBytes) n) (chunkAt n (x * chunkBytes))
    rw [Nat.zero_add, min_add_chunkAt] at hslice
    exact hslice
  completions := by
    rw [completions_append, h.completions]
    exact List.append_nil _

theorem Logged.reply (h : Logged source fd buf n r x false new) : Logged source fd buf n r x true
    (new ++ [.reply (chunkKey source fd) .completed]) where
  receives := by
    rw [receives_append, h.receives]
    exact List.append_nil _
  written := by
    rw [written_append, h.written]
    exact List.append_nil _
  completions := by
    rw [completions_append, h.completions]
    rfl

end Write

/-! ## Threads of the file -/

/-- A writer that has written its chunk and not yet counted it. -/
def Thread.isWritten : Thread → Bool
  | .writer _ (.written _) => true
  | _ => false

def FileView.inFlight (v : FileView) : Nat := v.threads.countP Thread.isWritten

section Threads

variable {fd n r d : Nat} {v v' : FileView}

/-- The writer that is about to write is the only one inside. -/
theorem inFlight_of_locked {b : Bool} (h : Guarded Thread.holds b v.threads) {j : Nat}
    (hj : v.threads[j]? = some (.writer fd .locked)) : v.inFlight = 0 := by
  rw [FileView.inFlight, List.countP_eq_zero]
  intro t ht hwritten
  obtain ⟨i, hi⟩ := List.mem_iff_getElem?.mp ht
  cases t with
  | writer g pc =>
    cases pc with
    | written m =>
      obtain rfl := h.unique hi hj rfl rfl
      rw [hj] at hi
      cases hi
    | start | locked | advanced | ended => cases hwritten
  | reader k g pc => cases hwritten

/-- A step that leaves the number of pending writers counts no chunk. -/
theorem Filling.move_of_eq (h : Filling n r d v) (hn : n ≤ bufSize) (hm : FileMove fd v v')
    (hp : v'.threads.countP Thread.pending = v.threads.countP Thread.pending) : Filling n r d v' := by
  rcases h.move hn hm with h' | h'
  · exact h'
  · have hcensus := h.census
    have hcensus' := h'.census
    omega

theorem Filling.move_of_succ (h : Filling n r d v) (hn : n ≤ bufSize) (hm : FileMove fd v v')
    (hp : v'.threads.countP Thread.pending + 1 = v.threads.countP Thread.pending) : Filling n r (d + 1) v' := by
  rcases h.move hn hm with h' | h'
  · have hcensus := h.census
    have hcensus' := h'.census
    omega
  · exact h'

end Threads

/-! ## Chunks in progress -/

section Run

variable (source : CInt) (fd : Nat) (buf : Buffer) (n : Nat) (base : List Output)

/-- The requests for the chunks from `r` on. -/
def chunksFrom (r : Nat) : List Message := (List.range' r (chunkCount n - r)).map (chunkOf source fd buf n)

/-- `r` chunks are received, `d` are written and counted. -/
structure Reassembling (r d : Nat) (replied : Bool) (s : Server) (todo : List Message) : Prop where
  opened : s.Opened fd
  filling : Filling n r d (s.view fd)
  le : r ≤ chunkCount n
  cache : ∀ p < min (r * chunkBytes) n, (s.entry fd).cache p = buf p
  queue : s.requests fd ++ todo = chunksFrom source fd buf n r
  history : ∃ new, s.history fd = base ++ new ∧ Logged source fd buf n r (d + (s.view fd).inFlight) replied new
  main : s.pc.on fd → s.pc = .await (chunkKey source fd) fd ∧ r = chunkCount n ∧ replied = false
  waits : r = chunkCount n → replied = false → s.pc.on fd
  replied : replied = true → d = chunkCount n

variable {source fd buf n base} {r d : Nat} {b : Bool} {s s' : Server} {todo : List Message}

theorem Reassembling.spares (h : Reassembling source fd buf n base r d b s todo) (hs : Server.Spares fd s s')
    (ho : s'.Opened fd) (hpc : s.pc.on fd → s'.pc = s.pc) : Reassembling source fd buf n base r d b s' todo where
  opened := ho
  filling := hs.view ▸ h.filling
  le := h.le
  cache := by
    have hentry : s'.entry fd = s.entry fd := congrArg FileView.entry hs.view
    rw [hentry]
    exact h.cache
  queue := by rw [hs.requests, h.queue]
  history := by
    rw [hs.history, hs.view]
    exact h.history
  main hon := by
    rw [hpc (hs.main hon)]
    exact h.main (hs.main hon)
  waits hr hb := by
    have hon := h.waits hr hb
    rw [hpc hon]
    exact hon
  replied := h.replied

/-- A step of a thread of the file that leaves the main loop and the cache alone. -/
theorem Reassembling.update {d' : Nat} {l : List Output} (h : Reassembling source fd buf n base r d b s todo)
    (ho : s'.Opened fd) (hfilling : Filling n r d' (s'.view fd)) (hd : d ≤ d')
    (hcache : (s'.entry fd).cache = (s.entry fd).cache) (haq : s'.requests fd = s.requests fd) (hpc : s'.pc = s.pc)
    (hhistory : s'.history fd = s.history fd ++ l)
    (hlog : ∀ new, Logged source fd buf n r (d + (s.view fd).inFlight) b new →
      Logged source fd buf n r (d' + (s'.view fd).inFlight) b (new ++ l)) :
    Reassembling source fd buf n base r d' b s' todo where
  opened := ho
  filling := hfilling
  le := h.le
  cache := hcache ▸ h.cache
  queue := by rw [haq, h.queue]
  history := by
    obtain ⟨new, hnew, hl⟩ := h.history
    exact ⟨new ++ l, by rw [hhistory, hnew, List.append_assoc], hlog new hl⟩
  main := hpc ▸ h.main
  waits := hpc ▸ h.waits
  replied hb := by
    have hle := hfilling.le_received
    have hr := h.le
    have hdone := h.replied hb
    omega

/-! ## Steps of the threads -/

/-- The data of a writer are in the part of the cache that was received. -/
theorem Reassembling.slice_cache (h : Reassembling source fd buf n base r d b s todo) (hn : n ≤ bufSize) (hd : d < r) :
    slice (s.entry fd).cache (s.entry fd).currentWriteCount.toNat (s.writerChunk fd).toNat =
      slice buf (min (d * chunkBytes) n) (chunkAt n (d * chunkBytes)) := by
  have hcount : (s.entry fd).currentWriteCount = BitVec.ofNat 64 (min (d * chunkBytes) n) := h.filling.currentWriteCount
  have hchunk : s.writerChunk fd = BitVec.ofNat 32 (chunkAt n (d * chunkBytes)) := h.filling.serverChunk_eq hn
  have hle : min (d * chunkBytes) n ≤ n := Nat.min_le_right ..
  have hlt := lt_two_pow_of_le hn
  have hend := min_add_chunkAt n d
  have hmono : min ((d + 1) * chunkBytes) n ≤ min (r * chunkBytes) n :=
    min_le_min (Nat.mul_le_mul_right _ hd) (Nat.le_refl n)
  rw [hcount, hchunk, BitVec.toNat_ofNat, Nat.mod_eq_of_lt (by omega),
    toNat_ofNat_of_le ((chunkAt_le n _).trans hn)]
  exact slice_congr fun p hp => h.cache _ (by omega)

/-- A step of a thread that is neither the write of a chunk nor its count. -/
theorem Reassembling.quiet {i : Nat} {t u : Thread} (h : Reassembling source t.fd buf n base r d b s todo)
    (hn : n ≤ bufSize) (hm : Server.Move s i s') (hi : s.threads[i]? = some t)
    (hthreads : s'.threads = s.threads.set i u) (hu : u.fd = t.fd) (hpending : u.pending = t.pending)
    (hwritten : u.isWritten = t.isWritten) (ho : s'.Opened t.fd)
    (hcache : (s'.entry t.fd).cache = (s.entry t.fd).cache) (haq : s'.aq = s.aq) (htrace : s'.trace = s.trace) :
    Reassembling source t.fd buf n base r d b s' todo := by
  obtain ⟨t', hi', hmove, -⟩ := hm.view
  obtain rfl : t = t' := Option.some.inj (hi.symm.trans hi')
  obtain ⟨j, hj, hset⟩ := Server.view_threads hi hthreads hu
  have hflight : (s'.view t.fd).inFlight = (s.view t.fd).inFlight := by
    rw [FileView.inFlight, hset]
    exact countP_set_of_eq hj hwritten
  refine h.update (l := []) ho (h.filling.move_of_eq hn hmove ?_) (Nat.le_refl d) hcache ?_ hm.pc_eq ?_ fun new hl => ?_
  · rw [hset]
    exact countP_set_of_eq hj hpending
  · rw [Server.requests, haq, Server.requests]
  · rw [Server.history, htrace, Server.history, List.append_nil]
  · rw [hflight, List.append_nil]
    exact hl

theorem Reassembling.write {i : Nat} (h : Reassembling source fd buf n base r d b s todo) (hn : n ≤ bufSize)
    (hi : s.threads[i]? = some (.writer fd .locked)) (hm : Server.Move s i s')
    (hs' : s' = (s.writeFile (s.entry fd).fd (slice (s.entry fd).cache (s.entry fd).currentWriteCount.toNat
      (s.writerChunk fd).toNat)).setThread i (.writer fd (.written (s.writerChunk fd)))) (ho : s'.Opened fd) :
    Reassembling source fd buf n base r d b s' todo := by
  obtain ⟨t', hi', hmove, -⟩ := hm.view
  obtain rfl : Thread.writer fd .locked = t' := Option.some.inj (hi.symm.trans hi')
  have hthreads : s'.threads = s.threads.set i (.writer fd (.written (s.writerChunk fd))) := by
    rw [hs']
    rfl
  obtain ⟨j, hj, hset⟩ := Server.view_threads hi hthreads rfl
  change FileMove fd (s.view fd) (s'.view fd) at hmove
  change (s.view fd).threads[j]? = some (.writer fd .locked) at hj
  change (s'.view fd).threads = (s.view fd).threads.set j _ at hset
  have hnone := inFlight_of_locked h.filling.guarded hj
  have hone : (s'.view fd).inFlight = 1 := by
    have hcount := countP_set_add (p := Thread.isWritten) (u := .writer fd (.written (s.writerChunk fd))) hj
    rw [FileView.inFlight] at hnone ⊢
    rw [hset]
    simpa [hnone, Thread.isWritten] using hcount
  have hd := h.filling.lt_received (List.mem_of_getElem? hj) rfl
  refine h.update (l := [.write fd (slice buf (min (d * chunkBytes) n) (chunkAt n (d * chunkBytes)))]) ho
    (h.filling.move_of_eq hn hmove ?_) (Nat.le_refl d) ?_ ?_ hm.pc_eq ?_ fun new hl => ?_
  · rw [hset]
    exact countP_set_of_eq hj rfl
  · rw [hs']
    rfl
  · rw [hs']
    rfl
  · refine Server.history_concat ?_ (decide_eq_true rfl)
    rw [hs', h.slice_cache hn hd, h.opened.name]
    rfl
  · rw [hnone, Nat.add_zero] at hl
    rw [hone]
    exact hl.write

theorem Reassembling.advance {i : Nat} {m : CInt} (h : Reassembling source fd buf n base r d b s todo) (hn : n ≤ bufSize)
    (hi : s.threads[i]? = some (.writer fd (.written m))) (hm : Server.Move s i s')
    (hs' : s' = (s.setEntry fd { s.entry fd with
      currentWriteCount := (s.entry fd).currentWriteCount + uint64OfInt m }).setThread i (.writer fd .advanced))
    (ho : s'.Opened fd) : Reassembling source fd buf n base r (d + 1) b s' todo := by
  obtain ⟨t', hi', hmove, -⟩ := hm.view
  obtain rfl : Thread.writer fd (.written m) = t' := Option.some.inj (hi.symm.trans hi')
  have hthreads : s'.threads = s.threads.set i (.writer fd .advanced) := by
    rw [hs']
    rfl
  obtain ⟨j, hj, hset⟩ := Server.view_threads hi hthreads rfl
  change FileMove fd (s.view fd) (s'.view fd) at hmove
  change (s.view fd).threads[j]? = some (.writer fd (.written m)) at hj
  change (s'.view fd).threads = (s.view fd).threads.set j _ at hset
  have hflight : (s'.view fd).inFlight + 1 = (s.view fd).inFlight := by
    rw [FileView.inFlight, hset]
    exact countP_set_add hj
  refine h.update (l := []) ho (h.filling.move_of_succ hn hmove ?_) (Nat.le_succ d) ?_ ?_ hm.pc_eq ?_ fun new hl => ?_
  · rw [hset]
    exact countP_set_add hj
  · rw [hs', Server.setThread_entry, Server.setEntry_entry_self]
  · rw [hs']
    rfl
  · rw [hs', List.append_nil]
    rfl
  · rw [← hflight] at hl
    rw [List.append_nil, Nat.add_right_comm]
    exact hl

theorem Reassembling.move {i : Nat} {t : Thread} (h : Reassembling source fd buf n base r d b s todo) (hn : n ≤ bufSize)
    (hm : Server.Move s i s') (hi : s.threads[i]? = some t) (ht : t.fd = fd) (ho : s'.Opened fd) :
    ∃ d', Reassembling source fd buf n base r d' b s' todo := by
  subst ht
  have hmem : t ∈ (s.view t.fd).threads := List.mem_filter.2 ⟨List.mem_of_getElem? hi, decide_eq_true rfl⟩
  have hkind := h.filling.kinds t hmem
  have hm' := hm
  cases hm with
  | @writerLock fd hi' hfree =>
    obtain rfl : t = .writer fd .start := Option.some.inj (hi.symm.trans hi')
    exact ⟨d, h.quiet hn hm' hi rfl rfl rfl rfl ho (Server.setMutex_cache s fd i _ _) rfl rfl⟩
  | @writerWrite fd hi' =>
    obtain rfl : t = .writer fd .locked := Option.some.inj (hi.symm.trans hi')
    exact ⟨d, h.write hn hi hm' rfl ho⟩
  | @writerAdvance fd m hi' =>
    obtain rfl : t = .writer fd (.written m) := Option.some.inj (hi.symm.trans hi')
    exact ⟨d + 1, h.advance hn hi hm' rfl ho⟩
  | @writerUnlock fd hi' =>
    obtain rfl : t = .writer fd .advanced := Option.some.inj (hi.symm.trans hi')
    exact ⟨d, h.quiet hn hm' hi rfl rfl rfl rfl ho (Server.setMutex_cache s fd i _ _) rfl rfl⟩
  | @readerUnlock k fd l hi' =>
    obtain rfl : t = .reader k fd (.sending l) := Option.some.inj (hi.symm.trans hi')
    exact ⟨d, h.quiet hn hm' hi rfl rfl rfl rfl ho (Server.setMutex_cache s fd i _ _) rfl rfl⟩
  | readerLock hi' _ | readerReceive hi' _ =>
    rw [hi] at hi'
    cases hi'
    rcases hkind with hfalse | hfalse
    · cases hfalse
    · cases hfalse
  | readerSend hi' hlt =>
    rw [hi] at hi'
    cases hi'
    rcases hkind with hfalse | hspent
    · cases hfalse
    · simp [Thread.spent, hlt] at hspent

/-! ## Steps of the main loop -/

theorem chunksFrom_of_lt (hr : r < chunkCount n) :
    chunksFrom source fd buf n r = chunkOf source fd buf n r :: chunksFrom source fd buf n (r + 1) := by
  rw [chunksFrom, range'_sub_of_lt hr, List.map_cons, chunksFrom]

theorem chunksFrom_of_le (hr : chunkCount n ≤ r) : chunksFrom source fd buf n r = [] := by
  rw [chunksFrom, Nat.sub_eq_zero_of_le hr, List.range'_zero, List.map_nil]

theorem requests_cons {m : Message} {aq : List Message} (haq : s.aq = m :: aq) (hm : m.requests fd = true) :
    s.requests fd = m :: aq.filter (·.requests fd) := by
  rw [Server.requests, haq, List.filter_cons_of_pos (by simpa using hm)]

theorem Waiting.begin {m : Message} {aq : List Message} {env : Env}
    (h : Waiting fd base (beginMessage source fd (BitVec.ofNat 64 n) :: chunksFrom source fd buf n 0) s todo)
    (hpos : 0 < n) (hn : n ≤ bufSize) (hpc : s.pc = .probe) (haq : s.aq = m :: aq) (hm : m.requests fd = true)
    (hstep : s.step (.turn env) = some s') (ho : s'.Opened fd) :
    Reassembling source fd buf n base 0 0 false s' todo := by
  have hqueue := h.queue
  rw [requests_cons haq hm, List.cons_append, List.cons.injEq] at hqueue
  obtain ⟨rfl, hrest⟩ := hqueue
  have hop := beginMessage_op source (BitVec.ofNat 64 n) h.opened.lt
  have hfd := beginMessage_fd source (BitVec.ofNat 64 n) h.opened.lt
  rw [Server.step, Server.turn_probe hpc haq, Server.dispatch_begin s aq env hop] at hstep
  obtain rfl := Option.some.inj hstep
  have hsize : uint64OfInt (beginMessage source fd (BitVec.ofNat 64 n)).count = BitVec.ofNat 64 n := by
    rw [beginMessage, intOfUint64_ofNat, uint64OfInt_ofNat_of_le hn]
  have hview := swriteBegin_view (s := { s with aq := aq }) hfd
  rw [hsize] at hview
  have hflight : (s.view fd).threads.countP Thread.isWritten = 0 := by
    rw [List.countP_eq_zero]
    intro t ht hwritten
    have hspent := h.resting.spent t ht
    cases t with
    | writer g pc => cases pc <;> simp_all [Thread.spent, Thread.isWritten]
    | reader k g pc => cases hwritten
  constructor
  · exact ho
  · rw [hview]
    exact Filling.begin h.resting _ _
  · exact Nat.zero_le _
  · intro p hp
    rw [Nat.zero_mul, Nat.zero_min] at hp
    exact absurd hp (Nat.not_lt_zero p)
  · exact hrest
  · refine ⟨[], ?_, ?_⟩
    · rw [List.append_nil]
      exact h.history
    · rw [hview]
      change Logged source fd buf n 0 (0 + (s.view fd).threads.countP Thread.isWritten) false []
      rw [hflight]
      exact Logged.nil
  · intro hon
    exact (h.main hon).elim
  · intro hzero
    have hone := lt_chunkCount.2 (show 0 * chunkBytes < n by omega)
    omega
  · exact fun hb => absurd hb Bool.false_ne_true

theorem chunkEntry_cache (s : Server) (m : Message) : (s.chunkEntry m).cache =
    memcpy (s.entry m.fd).cache (s.entry m.fd).currentRecvSize.toNat m.chunk.data 0
      (recvLength (serverChunk (s.entry m.fd).currentRecvSize (s.entry m.fd).writeCount) m.chunk.length) := by
  simp only [Server.chunkEntry]

theorem chunkOf_data (r i : Nat) :
    (chunkOf source fd buf n r).chunk.data i = buf ((BitVec.ofNat 32 (r * chunkBytes)).toNat + i) := by
  rw [chunkOf, chunkMessage]

theorem chunkOf_length (r : Nat) :
    (chunkOf source fd buf n r).chunk.length = BitVec.ofNat 32 (chunkAt n (r * chunkBytes)) := by
  rw [chunkOf, chunkMessage]

theorem Reassembling.recvSize (h : Reassembling source fd buf n base r d b s todo) (hn : n ≤ bufSize)
    (hr : r < chunkCount n) : (s.entry fd).currentRecvSize.toNat = r * chunkBytes := by
  have hcut := lt_chunkCount.1 hr
  have hlt := lt_two_pow_of_le hn
  have hsize : (s.entry fd).currentRecvSize = BitVec.ofNat 64 (min (r * chunkBytes) n) := h.filling.currentRecvSize
  rw [hsize, Nat.min_eq_left hcut.le, BitVec.toNat_ofNat, Nat.mod_eq_of_lt (by omega)]

theorem Reassembling.chunk_cache (h : Reassembling source fd buf n base r d b s todo) (hn : n ≤ bufSize)
    (hr : r < chunkCount n) (hfd : (chunkOf source fd buf n r).fd = fd) (aq : List Message) :
    ∀ p < min ((r + 1) * chunkBytes) n,
      (({ s with aq := aq } : Server).chunkEntry (chunkOf source fd buf n r)).cache p = buf p := by
  intro p hp
  have hcut := lt_chunkCount.1 hr
  have hrecv : serverChunk (s.entry fd).currentRecvSize (s.entry fd).writeCount =
      BitVec.ofNat 32 (chunkAt n (r * chunkBytes)) := h.filling.serverChunk_receive hn
  have hentry : ({ s with aq := aq } : Server).entry fd = s.entry fd := rfl
  have hend := min_add_chunkAt n r
  rw [Nat.min_eq_left hcut.le] at hend
  rw [chunkEntry_cache, hfd, hentry, hrecv, chunkOf_length, recvLength_self ((chunkAt_le n _).trans hn), h.recvSize hn hr]
  by_cases hbefore : p < r * chunkBytes
  · rw [memcpy_outside (.inl hbefore)]
    exact h.cache p (Nat.lt_min.2 ⟨hbefore, hbefore.trans hcut⟩)
  · obtain ⟨i, rfl⟩ := Nat.exists_eq_add_of_le (Nat.le_of_not_lt hbefore)
    rw [memcpy_inside (by omega), Nat.zero_add, chunkOf_data, toNat_ofNat_of_le (hcut.le.trans hn)]

theorem Reassembling.head {m : Message} {aq : List Message} (h : Reassembling source fd buf n base r d b s todo)
    (haq : s.aq = m :: aq) (hm : m.requests fd = true) : r < chunkCount n ∧ m = chunkOf source fd buf n r ∧
      aq.filter (·.requests fd) ++ todo = chunksFrom source fd buf n (r + 1) := by
  have hqueue := h.queue
  rw [requests_cons haq hm] at hqueue
  rcases Nat.lt_or_ge r (chunkCount n) with hr | hr
  · rw [chunksFrom_of_lt hr, List.cons_append, List.cons.injEq] at hqueue
    exact ⟨hr, hqueue⟩
  · rw [chunksFrom_of_le hr] at hqueue
    cases hqueue

theorem Reassembling.not_replied (h : Reassembling source fd buf n base r d b s todo) (hr : r < chunkCount n) :
    b = false := by
  cases b with
  | false => rfl
  | true =>
    have hdone := h.replied rfl
    have hle := h.filling.le_received
    omega

theorem Reassembling.chunk {m : Message} {aq : List Message} {env : Env}
    (h : Reassembling source fd buf n base r d b s todo) (hn : n ≤ bufSize) (hpc : s.pc = .probe)
    (haq : s.aq = m :: aq) (hm : m.requests fd = true) (hstep : s.step (.turn env) = some s') (ho : s'.Opened fd) :
    Reassembling source fd buf n base (r + 1) d b s' todo := by
  obtain ⟨hr, rfl, hrest⟩ := h.head haq hm
  have hb := h.not_replied hr
  have hop : (chunkOf source fd buf n r).op = opWriteChunk := chunkMessage_op _ _ _ _ h.opened.lt
  have hfd : (chunkOf source fd buf n r).fd = fd := chunkMessage_fd _ _ _ _ h.opened.lt
  rw [Server.step, Server.turn_probe hpc haq, Server.dispatch_chunk s aq hop] at hstep
  obtain rfl := Option.some.inj hstep
  have hview := (swriteChunk_view (s := { s with aq := aq }) hfd).trans
    (congrArg (FileView.mk · _) (swriteChunk_entry (s := { s with aq := aq }) hfd))
  have hrecv : serverChunk (s.entry fd).currentRecvSize (s.entry fd).writeCount =
      BitVec.ofNat 32 (chunkAt n (r * chunkBytes)) := h.filling.serverChunk_receive hn
  have hpc' : (({ s with aq := aq } : Server).swriteChunk (chunkOf source fd buf n r)).pc =
      if chunkCount n ≤ r + 1 then .await (chunkKey source fd) fd else .probe :=
    Filling.swriteChunk_pc (s := { s with aq := aq }) h.filling hn hfd
  have hflight : (({ s with aq := aq }.swriteChunk (chunkOf source fd buf n r)).view fd).inFlight =
      (s.view fd).inFlight := by
    rw [hview]
    exact countP_concat _ _ _
  constructor
  · exact ho
  · exact Filling.swriteChunk (s := { s with aq := aq }) h.filling hn hfd
  · exact hr
  · have hentry := swriteChunk_entry (s := { s with aq := aq }) hfd
    rw [hentry]
    exact h.chunk_cache hn hr hfd aq
  · rw [Server.requests, Server.swriteChunk_aq]
    exact hrest
  · obtain ⟨new, hnew, hl⟩ := h.history
    refine ⟨new ++ [.receive fd (r * chunkBytes) (BitVec.ofNat 32 (chunkAt n (r * chunkBytes)))], ?_, ?_⟩
    · rw [← List.append_assoc, ← hnew]
      refine Server.history_concat ?_ (decide_eq_true rfl)
      rw [Server.swriteChunk_trace, hfd]
      change s.trace ++ [.receive fd (s.entry fd).currentRecvSize.toNat
        (serverChunk (s.entry fd).currentRecvSize (s.entry fd).writeCount)] = _
      rw [hrecv, h.recvSize hn hr]
    · rw [hflight]
      exact hl.receive
  · rw [hpc']
    split
    · rename_i hlast
      exact fun _ => ⟨rfl, Nat.le_antisymm hr hlast, hb⟩
    · exact False.elim
  · intro hlast _
    rw [hpc', if_pos hlast.ge]
    rfl
  · intro hb'
    rw [hb] at hb'
    cases hb'

theorem Reassembling.complete {env : Env} (h : Reassembling source fd buf n base r d b s todo) (hn : n ≤ bufSize)
    (hon : s.pc.on fd) (hstep : s.step (.turn env) = some s') (ho : s'.Opened fd) :
    Reassembling source fd buf n base r d true s' todo := by
  obtain ⟨hpc, hr, rfl⟩ := h.main hon
  simp only [Server.step, Server.turn, hpc] at hstep
  split at hstep
  · rename_i hcount
    obtain rfl := Option.some.inj hstep
    have hall : chunkCount n ≤ d := (h.filling.counts_eq_iff hn).1 hcount
    have hle := h.filling.le_received
    constructor
    · exact ho
    · exact h.filling
    · exact h.le
    · exact h.cache
    · exact h.queue
    · obtain ⟨new, hnew, hl⟩ := h.history
      have hreply : ((s.emit [.reply (chunkKey source fd) .completed]).goto .probe).history fd =
          s.history fd ++ [.reply (chunkKey source fd) .completed] :=
        Server.history_concat rfl (decide_eq_true (chunkKey_fd source h.opened.lt))
      refine ⟨new ++ [.reply (chunkKey source fd) .completed], ?_, ?_⟩
      · rw [hreply, hnew, List.append_assoc]
      · exact hl.reply
    · exact False.elim
    · exact fun _ hb => absurd hb.symm Bool.false_ne_true
    · intro _
      omega
  · cases hstep

end Run

end Libibtl.Ibio
