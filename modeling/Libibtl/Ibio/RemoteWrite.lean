import Libibtl.Ibio.Reassembly

/-! # Runs of one remote write

A step of the run either works on the file, and then it is one of the steps of the
write, or it leaves the file alone. In a state in which nothing can happen for the file
any more the reply was sent.
-/

namespace Libibtl.Ibio

open Foundation

namespace WriteRun

/-- Nothing more can happen for the file: all requests are served, and neither a thread of the file nor the main loop,
if it waits for the file, has a step. -/
structure Quiescent (fd : Nat) (w : WriteRun) : Prop where
  sent : w.todo = []
  served : w.server.requests fd = []
  main : w.server.pc.on fd → ∀ env, w.server.step (.turn env) = none
  threads : ∀ i t, w.server.threads[i]? = some t → t.fd = fd → w.server.step (.thread i) = none

end WriteRun

/-- The file before and after `WRITE_BEGIN`. -/
def Progress (source : CInt) (fd : Nat) (buf : Buffer) (n : Nat) (base : List Output) (s : Server) (todo : List Message) :
    Prop :=
  Waiting fd base (beginMessage source fd (BitVec.ofNat 64 n) :: chunksFrom source fd buf n 0) s todo ∨
    ∃ r d b, Reassembling source fd buf n base r d b s todo

section Run

variable {source : CInt} {fd : Nat} {buf : Buffer} {n : Nat} {base : List Output} {s : Server} {todo : List Message}

/-! ## Steps -/

theorem Progress.opened (h : Progress source fd buf n base s todo) : s.Opened fd := by
  rcases h with hw | ⟨r, d, b, hr⟩
  · exact hw.opened
  · exact hr.opened

theorem Reassembling.receive {r d : Nat} {b : Bool} {m : Message} (h : Reassembling source fd buf n base r d b s (m :: todo))
    (hm : m.requests fd = true) (ho : (s.receive m).Opened fd) :
    Reassembling source fd buf n base r d b (s.receive m) todo :=
  ⟨ho, h.filling, h.le, h.cache, queue_receive hm h.queue, h.history, h.main, h.waits, h.replied⟩

/-- While a chunk is not counted, a thread of the file has a step: the one inside, or a writer that can lock. -/
theorem exists_enabled {r d : Nat} (h : Filling n r d (s.view fd)) (hd : d < r) :
    ∃ i t, s.threads[i]? = some t ∧ t.fd = fd ∧ s.step (.thread i) ≠ none := by
  have hguarded : Guarded Thread.holds (s.entry fd).fastmutex (s.view fd).threads := h.guarded
  cases hmutex : (s.entry fd).fastmutex with
  | false =>
    have hcensus := h.census
    have hpos : 0 < (s.view fd).threads.countP Thread.pending := by omega
    obtain ⟨t, ht, hpending⟩ := List.countP_pos_iff.1 hpos
    have hnone : t.holds ≠ true := by
      rw [hmutex] at hguarded
      exact List.countP_eq_zero.1 hguarded t ht
    obtain ⟨⟨i, hi⟩, rfl⟩ := Server.mem_view_threads ht
    refine ⟨i, t, hi, rfl, ?_⟩
    cases t with
    | writer g pc =>
      cases pc with
      | start =>
        change (s.entry g).fastmutex = false at hmutex
        rw [Server.step, Server.threadStep, hi]
        simp only [Server.writerStep, hmutex]
        exact Option.some_ne_none _
      | locked | written _ => exact absurd rfl hnone
      | advanced | ended => cases hpending
    | reader k g pc => cases hpending
  | true =>
    rw [hmutex] at hguarded
    obtain ⟨j, t, hj, hholds⟩ := hguarded.exists_holder
    have ht := List.mem_of_getElem? hj
    have hkind := h.kinds t ht
    obtain ⟨⟨i, hi⟩, rfl⟩ := Server.mem_view_threads ht
    refine ⟨i, t, hi, rfl, ?_⟩
    cases t with
    | writer g pc =>
      cases pc with
      | locked | written _ | advanced =>
        rw [Server.step, Server.threadStep, hi]
        exact Option.some_ne_none _
      | start | ended => cases hholds
    | reader k g pc =>
      have hspent := hkind.resolve_left Bool.false_ne_true
      cases pc with
      | sending l =>
        have hlt : l.currentSendSize.slt l.count = false := by simpa [Thread.spent] using hspent
        rw [Server.step, Server.threadStep, hi]
        simp only [Server.readerStep, hlt]
        exact Option.some_ne_none _
      | start | ended => cases hholds
      | locked => cases hspent

theorem chunkCount_le_iff {x : Nat} : chunkCount n ≤ x ↔ n ≤ x * chunkBytes := by
  rw [← Nat.not_lt, lt_chunkCount, Nat.not_lt]

variable {r d : Nat} {b : Bool}

/-- When nothing can happen for the file any more, all chunks are received and the reply was sent. -/
theorem WriteRun.Quiescent.replied (hq : WriteRun.Quiescent fd ⟨s, todo⟩)
    (h : Reassembling source fd buf n base r d b s todo) (hn : n ≤ bufSize) : r = chunkCount n ∧ b = true := by
  have hr : r = chunkCount n := by
    refine Nat.le_antisymm h.le (Nat.le_of_not_lt fun hlt => ?_)
    have hqueue := h.queue
    have hserved : s.requests fd = [] := hq.served
    have hsent : todo = [] := hq.sent
    rw [hserved, hsent, chunksFrom_of_lt hlt] at hqueue
    cases hqueue
  refine ⟨hr, ?_⟩
  cases b with
  | true => rfl
  | false =>
    have hon := h.waits hr rfl
    obtain ⟨hpc, -, -⟩ := h.main hon
    have hturn := hq.main hon ⟨0, [], fun _ => 0, 0, 0, fun _ => 0, fun _ => false⟩
    simp only [Server.step, Server.turn, hpc] at hturn
    split at hturn
    · cases hturn
    · rename_i hcount
      have hd : d < r := by
        rw [hr]
        exact Nat.lt_of_not_le fun hle => hcount ((h.filling.counts_eq_iff hn).2 hle)
      obtain ⟨i, t, hi, ht, henabled⟩ := exists_enabled h.filling hd
      exact absurd (hq.threads i t hi ht) henabled

end Run

/-- The cut of the client and its requests. -/
theorem ibtlWrite_eq (source : CInt) (fd : Nat) (buf : Buffer) {n : Nat} (hn : n ≤ bufSize) :
    ibtlWrite source fd buf (BitVec.ofNat 64 n) =
      some (beginMessage source fd (BitVec.ofNat 64 n) :: chunksFrom source fd buf n 0) := by
  rw [ibtlWrite, clientChunks_eq hn, Option.map_some, List.map_map, chunksFrom, Nat.sub_zero, ← List.range_eq_range']
  rfl

/-- A server that has just opened file 3. -/
structure Server.Idle (s : Server) : Prop where
  ready : s.Ready 3
  pc : s.pc = .probe
  aq : s.aq = []
  threads : s.threads = []
  cache : ∀ p, (s.entry 3).cache p = 0

end Libibtl.Ibio
