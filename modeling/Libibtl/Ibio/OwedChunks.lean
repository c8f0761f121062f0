import Libibtl.Ibio.Clients

/-! # Chunks that the server owes

A queued read asks for its chunks, and a reader still has to send the rest of them. No
step of the server loses one: what is owed for a source and tag goes down only when
a chunk is sent.
-/

namespace Libibtl.Ibio

open Foundation

/-! ## Sums over threads and messages -/

section Sums

variable {T : Type} {l : List T} {i : Nat} {t u : T}

theorem sum_map_set_add (f : T → Nat) (h : l[i]? = some t) :
    ((l.set i u).map f).sum + f t = (l.map f).sum + f u := by
  induction l generalizing i with
  | nil => cases h
  | cons x l ih =>
    cases i with
    | zero =>
      obtain rfl : x = t := by simpa using h
      simp only [List.set_cons_zero, List.map_cons, List.sum_cons]
      omega
    | succ i =>
      have hset := ih (by simpa using h)
      simp only [List.set_cons_succ, List.map_cons, List.sum_cons]
      omega

theorem sum_map_eraseP_add (f : T → Nat) {q : T → Bool} (h : l.find? q = some t) :
    ((l.eraseP q).map f).sum + f t = (l.map f).sum := by
  induction l with
  | nil => cases h
  | cons x l ih =>
    by_cases hx : q x = true
    · rw [List.find?_cons_of_pos hx] at h
      cases h
      rw [List.eraseP_cons_of_pos hx, List.map_cons, List.sum_cons, Nat.add_comm]
    · rw [List.find?_cons_of_neg hx] at h
      have herase := ih h
      rw [List.eraseP_cons_of_neg hx, List.map_cons, List.map_cons, List.sum_cons, List.sum_cons]
      omega

end Sums

/-! ## Readers in the loop -/

/-- Of `n` bytes, `j` chunks are sent. -/
structure ReadLocals.Sends (r : ReadLocals) (n j : Nat) : Prop where
  bound : n ≤ bufSize
  count : r.count = BitVec.ofNat 32 n
  size : r.currentSendSize = BitVec.ofNat 32 (min (j * chunkBytes) n)
  chunk : j < chunkCount n → r.chunk = ibvioChunkSize

section Sends

variable {r : ReadLocals} {n j : Nat}

theorem chunkCount_sub (n j : Nat) : chunkCount (n - min (j * chunkBytes) n) = chunkCount n - j := by
  simp only [chunkCount, chunkBytes_eq]
  omega

theorem ReadLocals.Sends.unsent (h : r.Sends n j) :
    chunkCount (r.count.toNat - r.currentSendSize.toNat) = chunkCount n - j := by
  rw [h.count, h.size, toNat_ofNat_of_le h.bound, toNat_ofNat_of_le ((Nat.min_le_right ..).trans h.bound),
    chunkCount_sub]

theorem ReadLocals.Sends.slt (h : r.Sends n j) : r.currentSendSize.slt r.count = decide (j < chunkCount n) := by
  rw [h.count, h.size, slt_ofNat_of_le ((Nat.min_le_right ..).trans h.bound) h.bound, decide_eq_decide, lt_chunkCount]
  omega

theorem ReadLocals.Sends.turn (h : r.Sends n j) (hj : j < chunkCount n) (readSize : CInt) :
    ReadLocals.Sends ⟨r.count, readSize, r.currentSendSize + handlerChunk r.currentSendSize r.chunk r.count,
      handlerChunk r.currentSendSize r.chunk r.count⟩ n (j + 1) := by
  have hlt := lt_chunkCount.1 hj
  have hcut : handlerChunk r.currentSendSize r.chunk r.count = BitVec.ofNat 32 (chunkAt n (j * chunkBytes)) := by
    rw [h.size, h.chunk hj, h.count, Nat.min_eq_left hlt.le,
      handlerChunk_eq (lt_two_pow_of_le h.bound) hlt.le (hlt.le.trans h.bound)]
  refine ⟨h.bound, h.count, ?_, fun hnext => ?_⟩
  · rw [hcut, h.size, ← BitVec.ofNat_add, min_add_chunkAt]
  · rw [hcut, chunkAt_of_lt hnext, ibvioChunkSize_eq]

end Sends

theorem Sread.turn_sent (file : List Byte) (count : CInt) (l : Sread) :
    ∃ c, (l.turn file count).sent = l.sent ++ [c] := by
  simp only [Sread.turn]
  split
  · exact ⟨_, rfl⟩
  · exact ⟨_, rfl⟩

/-! ## What is owed -/

/-- The chunks that a reader still has to send. -/
def Thread.unsent (k : Key) : Thread → Nat
  | .reader k' _ (.sending r) => if k' = k then chunkCount (r.count.toNat - r.currentSendSize.toNat) else 0
  | _ => 0

/-- The chunks that a message asks for. -/
def Message.asks (k : Key) (m : Message) : Nat := if m.op = opRead ∧ m.key = k then chunkCount m.count.toNat else 0

/-- A chunk for the source and tag. -/
def Reply.isChunk (k : Key) (r : Reply) : Bool :=
  match r.2 with
  | .chunk _ => r.1 = k
  | _ => false

def asked (k : Key) (l : List Message) : Nat := (l.map (Message.asks k)).sum

theorem asked_append (k : Key) (l l' : List Message) : asked k (l ++ l') = asked k l + asked k l' := by
  rw [asked, asked, asked, List.map_append, List.sum_append]

theorem asks_of_ne {m : Message} (hop : m.op ≠ opRead) (k : Key) : m.asks k = 0 := if_neg fun h => hop h.1

theorem asked_cons_of_ne {m : Message} (hop : m.op ≠ opRead) (k : Key) (l : List Message) :
    asked k (m :: l) = asked k l := by
  rw [asked, List.map_cons, List.sum_cons, asks_of_ne hop, Nat.zero_add, asked]

theorem asked_of_ne {l : List Message} (h : ∀ m ∈ l, m.op ≠ opRead) (k : Key) : asked k l = 0 := by
  induction l with
  | nil => rfl
  | cons m l ih =>
    rw [asked_cons_of_ne (h m List.mem_cons_self)]
    exact ih fun m hm => h m (List.mem_cons_of_mem _ hm)

namespace Server

def owed (s : Server) (k : Key) : Nat := (s.threads.map (Thread.unsent k)).sum + asked k s.aq

theorem unsent_of_owed {s : Server} {k : Key} {t : Thread} (h : s.owed k = 0) (ht : t ∈ s.threads) : t.unsent k = 0 :=
  List.sum_eq_zero_iff_forall_eq_nat.1 (Nat.eq_zero_of_add_eq_zero h).1 _ (List.mem_map_of_mem ht)

/-- The counts of reads fit the cache, and the readers have them. -/
structure Sized (s : Server) : Prop where
  queued : ∀ m ∈ s.aq, m.op = opRead → ∃ n ≤ bufSize, m.count = BitVec.ofNat 32 n
  readers : ∀ k g r, Thread.reader k g (.sending r) ∈ s.threads → ∃ n j, r.Sends n j

variable {s s' : Server}

theorem sent_of_trace {l : List Output} (h : s'.trace = s.trace ++ l) : s.sent s' = l.filterMap Output.reply? := by
  rw [sent, h, List.drop_left]

/-! ## Steps of the main loop -/

theorem owed_runThread {t : Thread} {k : Key} (ht : t.unsent k = 0) (hthreads : s'.threads = s.threads ++ [t])
    (haq : asked k s'.aq = asked k s.aq) : s'.owed k = s.owed k := by
  rw [owed, hthreads, haq, List.map_append, List.sum_append, List.map_singleton, List.sum_singleton, ht, Nat.add_zero,
    owed]

theorem owed_tail {m : Message} {aq : List Message} {k : Key} (haq : s.aq = m :: aq) (hop : m.op ≠ opRead)
    (hthreads : s'.threads = s.threads) (haq' : s'.aq = aq) : s'.owed k = s.owed k := by
  rw [owed, owed, hthreads, haq', haq, asked_cons_of_ne hop]

/-- The main loop sends no chunks, outside of `ibvio_swrite`. -/
theorem Turn.owed {env : Env} (h : Turn s env s') (hpc : ∀ k fd w, s.pc ≠ .swrite k fd w) (k : Key) :
    s'.owed k = s.owed k := by
  cases h with
  | sopen _ haq hop _ _ | swrite _ haq hop | swriteBegin _ haq hop =>
    refine owed_tail haq ?_ rfl rfl
    rw [hop]
    decide
  | @swriteChunk m aq _ haq hop =>
    refine owed_runThread (t := .writer m.fd .start) rfl (swriteChunk_threads _ _) ?_
    rw [swriteChunk_aq, haq, asked_cons_of_ne]
    rw [hop]
    decide
  | sread => exact owed_runThread rfl rfl rfl
  | sclose _ haq hop =>
    refine owed_tail haq ?_ (sclose_threads _) (sclose_aq _)
    rw [hop]
    decide
  | noop | complete => rfl
  | swriteTurn hpc' | swriteEnd hpc' => exact absurd hpc' (hpc _ _ _)

/-- A turn starts at most a thread at its start, and takes messages out of the queue. -/
theorem Turn.queue {env : Env} (h : Turn s env s') :
    s'.aq.Sublist s.aq ∧ ∀ t ∈ s'.threads, t ∈ s.threads ∨ ∀ k g r, t ≠ .reader k g (.sending r) := by
  have htail : ∀ {m : Message} {aq : List Message}, s.aq = m :: aq → aq.Sublist s.aq := by
    intro m aq haq
    rw [haq]
    exact List.sublist_cons_self m aq
  have hconcat : ∀ {u : Thread}, (∀ k g r, u ≠ .reader k g (.sending r)) → ∀ t ∈ s.threads ++ [u], t ∈ s.threads ∨
      ∀ k g r, t ≠ .reader k g (.sending r) := by
    intro u hu t ht
    rcases List.mem_append.1 ht with ht | ht
    · exact .inl ht
    · cases List.mem_singleton.1 ht
      exact .inr hu
  cases h with
  | sopen _ haq | swrite _ haq | swriteBegin _ haq => exact ⟨htail haq, fun _ => .inl⟩
  | swriteChunk _ haq =>
    rw [swriteChunk_aq, swriteChunk_threads]
    exact ⟨htail haq, hconcat fun _ _ _ => nofun⟩
  | sread => exact ⟨.refl _, hconcat fun _ _ _ => nofun⟩
  | sclose _ haq =>
    rw [sclose_aq, sclose_threads]
    exact ⟨htail haq, fun _ => .inl⟩
  | swriteTurn => exact ⟨List.eraseP_sublist, fun _ => .inl⟩
  | noop | swriteEnd | complete => exact ⟨.refl _, fun _ => .inl⟩

theorem Sized.turn {env : Env} (hs : s.Sized) (h : Turn s env s') : s'.Sized where
  queued m hm := hs.queued m (h.queue.1.subset hm)
  readers k g r ht := hs.readers k g r ((h.queue.2 _ ht).resolve_right fun hne => hne k g r rfl)

/-! ## Steps of the threads -/

/-- What a thread sends is a chunk for its key. -/
theorem Move.sent {i : Nat} (h : Move s i s') : s.sent s' = [] ∨
    ∃ k g r c, s.threads[i]? = some (.reader k g (.sending r)) ∧ r.currentSendSize.slt r.count = true ∧
      s.sent s' = [(k, .chunk c)] := by
  cases h with
  | writerLock | writerAdvance | writerUnlock | readerLock | readerUnlock =>
    exact .inl (sent_of_trace (l := []) (List.append_nil _).symm)
  | writerWrite => exact .inl ((sent_of_trace (l := [_]) rfl).trans rfl)
  | readerReceive => exact .inl ((sent_of_trace (l := []) rfl).trans rfl)
  | @readerSend k g r hi hlt =>
    obtain ⟨c, hc⟩ := Sread.turn_sent (s.files g).content r.count (s.sreadState g r)
    refine .inr ⟨k, g, r, c, hi, hlt, ?_⟩
    rw [sent_of_trace (storeSread_trace s i k g r.count _), hc]
    rfl

theorem sent_of_trace_eq (h : s'.trace = s.trace) : s.sent s' = [] := by
  refine sent_of_trace (l := []) ?_
  rw [h, List.append_nil]

theorem owed_set {i : Nat} {t u : Thread} {k : Key} (hi : s.threads[i]? = some t)
    (hthreads : s'.threads = s.threads.set i u) (hu : u.unsent k = t.unsent k) (haq : s'.aq = s.aq)
    (hsent : s.sent s' = []) : s'.owed k + (s.sent s').countP (Reply.isChunk k) = s.owed k := by
  have hset := sum_map_set_add (u := u) (Thread.unsent k) hi
  rw [hsent, owed, owed, hthreads, haq, List.countP_nil]
  omega

theorem find?_key {k : Key} {m : Message} (hm : s.aq.find? (·.key = k) = some m) : m.key = k ∧ m ∈ s.aq :=
  ⟨by simpa using List.find?_some hm, List.mem_of_find?_eq_some hm⟩

theorem owed_receive {i g : Nat} {k k' : Key} {m : Message} {r : ReadLocals}
    (hi : s.threads[i]? = some (.reader k' g .locked)) (hm : s.aq.find? (·.key = k') = some m) (hop : m.op = opRead)
    (hthreads : s'.threads = s.threads.set i (.reader k' g (.sending r))) (haq : s'.aq = s.aq.eraseP (·.key = k'))
    (hr : r.count = m.count ∧ r.currentSendSize = 0) (hsent : s.sent s' = []) :
    s'.owed k + (s.sent s').countP (Reply.isChunk k) = s.owed k := by
  have hset := sum_map_set_add (u := .reader k' g (.sending r)) (Thread.unsent k) hi
  have herase := sum_map_eraseP_add (Message.asks k) hm
  have hunsent : Thread.unsent k (.reader k' g (.sending r)) = m.asks k := by
    simp [Thread.unsent, Message.asks, hr, hop, (find?_key hm).1]
  have hstart : Thread.unsent k (.reader k' g .locked) = 0 := rfl
  rw [hsent, owed, owed, hthreads, haq, List.countP_nil, asked, asked]
  omega

theorem owed_send {i g n j : Nat} {k k' : Key} {r r' : ReadLocals} {c : Chunk}
    (hi : s.threads[i]? = some (.reader k' g (.sending r))) (hr : r.Sends n j) (hj : j < chunkCount n)
    (hr' : r'.Sends n (j + 1)) (hthreads : s'.threads = s.threads.set i (.reader k' g (.sending r')))
    (haq : s'.aq = s.aq) (hsent : s.sent s' = [(k', .chunk c)]) :
    s'.owed k + (s.sent s').countP (Reply.isChunk k) = s.owed k := by
  have hset := sum_map_set_add (u := .reader k' g (.sending r')) (Thread.unsent k) hi
  have hunsent : Thread.unsent k (.reader k' g (.sending r')) + [((k', .chunk c) : Reply)].countP (Reply.isChunk k) =
      Thread.unsent k (.reader k' g (.sending r)) := by
    simp only [Thread.unsent, hr.unsent, hr'.unsent, List.countP_singleton, Reply.isChunk, decide_eq_true_eq]
    split
    · omega
    · rfl
  rw [hsent, owed, owed, hthreads, haq]
  omega

theorem storeSread_threads (s : Server) (i : Nat) (k : Key) (g : Nat) (count : CInt) (l : Sread) :
    (s.storeSread i k g count l).threads =
      s.threads.set i (.reader k g (.sending ⟨count, l.readSize, l.currentSendSize, l.chunk⟩)) := rfl

/-- What a step of a thread sends is not owed any more. -/
theorem Move.owed {i : Nat} (h : Move s i s') (hs : s.Sized)
    (hkeys : ∀ k g pc, Thread.reader k g pc ∈ s.threads → (deserializeTag k.2).1 = opRead) (k : Key) :
    s'.owed k + (s.sent s').countP (Reply.isChunk k) = s.owed k := by
  cases h with
  | writerLock hi | writerAdvance hi | writerUnlock hi | readerLock hi =>
    exact owed_set hi rfl rfl rfl (sent_of_trace_eq rfl)
  | writerWrite hi => exact owed_set hi rfl rfl rfl ((sent_of_trace (l := [_]) rfl).trans rfl)
  | @readerReceive k' g m hi hm =>
    have hop : m.op = opRead := by
      rw [← hkeys k' g _ (List.mem_of_getElem? hi), ← (find?_key hm).1]
      rfl
    exact owed_receive hi hm hop rfl rfl ⟨rfl, rfl⟩ (sent_of_trace_eq (List.append_nil _))
  | @readerSend k' g r hi hlt =>
    obtain ⟨n, j, hr⟩ := hs.readers k' g r (List.mem_of_getElem? hi)
    obtain ⟨c, hc⟩ := Sread.turn_sent (s.files g).content r.count (s.sreadState g r)
    have hj : j < chunkCount n := of_decide_eq_true (hr.slt ▸ hlt)
    refine owed_send (c := c) hi hr hj (hr.turn hj ((s.sreadState g r).turn (s.files g).content r.count).readSize) ?_
      rfl ?_
    · rw [storeSread_threads, Sread.turn_chunk, Sread.turn_currentSendSize]
      rfl
    · rw [sent_of_trace (storeSread_trace s i k' g r.count _), hc]
      rfl
  | @readerUnlock k' g r hi hlt =>
    obtain ⟨n, j, hr⟩ := hs.readers k' g r (List.mem_of_getElem? hi)
    refine owed_set hi rfl ?_ rfl (sent_of_trace_eq rfl)
    have hj : ¬ j < chunkCount n := of_decide_eq_false (hr.slt ▸ hlt)
    simp only [Thread.unsent, hr.unsent]
    rw [Nat.sub_eq_zero_of_le (Nat.le_of_not_lt hj), ite_self]

/-- A thread is replaced by one that is not in the loop, or that is in the loop of `ibvio_sread` as it should be. -/
theorem Sized.set (hs : s.Sized) {i : Nat} {u : Thread} (hthreads : s'.threads = s.threads.set i u)
    (hu : ∀ k g r, u = .reader k g (.sending r) → ∃ n j, r.Sends n j) (haq : s'.aq.Sublist s.aq) : s'.Sized where
  queued m hm := hs.queued m (haq.subset hm)
  readers k g r ht := by
    rw [hthreads] at ht
    rcases mem_set_cases ht with heq | ht
    · exact hu k g r heq.symm
    · exact hs.readers k g r ht

theorem Sized.move {i : Nat} (hs : s.Sized) (h : Move s i s')
    (hkeys : ∀ k g pc, Thread.reader k g pc ∈ s.threads → (deserializeTag k.2).1 = opRead) : s'.Sized := by
  cases h with
  | writerLock | writerWrite | writerAdvance | writerUnlock | readerLock | readerUnlock =>
    exact hs.set rfl (fun _ _ _ => nofun) (.refl _)
  | @readerReceive k g m hi hm =>
    have hop : m.op = opRead := by
      rw [← hkeys k g _ (List.mem_of_getElem? hi), ← (find?_key hm).1]
      rfl
    obtain ⟨n, hn, hcount⟩ := hs.queued m (find?_key hm).2 hop
    refine hs.set (storeSread_threads s i k g m.count _) ?_ List.eraseP_sublist
    rintro _ _ r ⟨⟩
    exact ⟨n, 0, hn, hcount, by rw [Nat.zero_mul, Nat.zero_min]; rfl, fun _ => rfl⟩
  | @readerSend k g r hi hlt =>
    obtain ⟨n, j, hr⟩ := hs.readers k g r (List.mem_of_getElem? hi)
    have hj : j < chunkCount n := of_decide_eq_true (hr.slt ▸ hlt)
    refine hs.set (storeSread_threads s i k g r.count _) ?_ (.refl _)
    rw [Sread.turn_chunk, Sread.turn_currentSendSize]
    rintro _ _ r' ⟨⟩
    exact ⟨n, j + 1, hr.turn hj _⟩

end Server

end Libibtl.Ibio
