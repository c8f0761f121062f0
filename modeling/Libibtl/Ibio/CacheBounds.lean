import Libibtl.Ibio.CacheAccess

/-! # The bounds of the cache

A request fixes a count, and from then on the loops of its handler run over this count
alone. The count is an `int` that the client narrowed from a `size_t`, and no handler
compares it with `BUF_SIZE`.
-/

namespace Libibtl.Ibio

open Foundation

/-! ## One state of a loop -/

section Safe

variable {n j : Nat}

end Safe

/-! ## The loops inside of the server -/

namespace Server

variable {s s' : Server}

theorem storeSread_turn (s : Server) (i : Nat) (k : Key) (fd : Nat) (r : ReadLocals) :
    (s.storeSread i k fd r.count ((s.sreadState fd r).turn (s.files fd).content r.count)).threads =
      s.threads.set i (.reader k fd (.sending r.turn)) := by
  simp only [storeSread, Sread.turn_readSize, Sread.turn_currentSendSize, Sread.turn_chunk, ReadLocals.turn, sreadState]

/-- The thread `i` reads for the file `fd` with locals in `P`, or it has ended. -/
def ReaderIn (s : Server) (i : Nat) (k : Key) (fd : Nat) (P : ReadLocals → Prop) : Prop :=
  (∃ r, s.threads[i]? = some (.reader k fd (.sending r)) ∧ P r) ∨ s.threads[i]? = some (.reader k fd .ended)

/-- An invariant of the loop of `ibvio_sread` holds of a reader in every run. -/
theorem ReaderIn.step {i : Nat} {k : Key} {fd : Nat} {P : ReadLocals → Prop} {e : ServerEvent}
    (hP : ∀ r, P r → r.currentSendSize.slt r.count = true → P r.turn) (h : s.ReaderIn i k fd P)
    (hstep : s.step e = some s') : s'.ReaderIn i k fd P := by
  have hkeep : (∀ t, s.threads[i]? = some t → s'.threads[i]? = some t) → s'.ReaderIn i k fd P := by
    intro hsame
    rcases h with ⟨r, hi, hr⟩ | hi
    · exact .inl ⟨r, hsame _ hi, hr⟩
    · exact .inr (hsame _ hi)
  cases e with
  | arrive m =>
    cases hstep
    exact hkeep fun _ hi => hi
  | turn env => exact hkeep fun t hi => (turn_cases hstep).getElem?_threads hi
  | thread j =>
    have hmove := threadStep_cases hstep
    by_cases hne : j = i
    · subst hne
      rcases h with ⟨r, hi, hr⟩ | hi
      · have hlen := (List.getElem?_eq_some_iff.mp hi).1
        cases hmove with
        | @readerSend k' fd' r' hi' hlt =>
          rw [hi] at hi'
          cases Option.some.inj hi'
          refine .inl ⟨r.turn, ?_, hP r hr hlt⟩
          rw [storeSread_turn, List.getElem?_set_self hlen]
        | @readerUnlock k' fd' r' hi' hlt =>
          rw [hi] at hi'
          cases Option.some.inj hi'
          exact .inr (List.getElem?_set_self hlen)
        | writerLock hi' _ | writerWrite hi' | writerAdvance hi' | writerUnlock hi' | readerLock hi' _
        | readerReceive hi' _ =>
          rw [hi] at hi'
          cases hi'
      · cases hmove with
        | writerLock hi' _ | writerWrite hi' | writerAdvance hi' | writerUnlock hi' | readerLock hi' _
        | readerReceive hi' _ | readerSend hi' _ | readerUnlock hi' _ =>
          rw [hi] at hi'
          cases hi'
    · exact hkeep fun t hi => (hmove.getElem?_threads_of_ne hne).trans hi

/-- The main loop is inside of `ibvio_swrite` with locals in `P`. -/
def SwriteIn (s : Server) (k : Key) (fd : Nat) (P : Swrite → Prop) : Prop :=
  (∃ w, s.pc = .swrite k fd w ∧ P w) ∨ s.pc = .probe

/-- An invariant of the loop of `ibvio_swrite` holds until the main loop probes again. -/
theorem SwriteIn.step {k : Key} {fd : Nat} {P : Swrite → Prop} {e : ServerEvent}
    (hP : ∀ w, P w → w.currentRecvSize.slt w.count = true → P w.turn) (h : s.SwriteIn k fd P) (hpc : s.pc ≠ .probe)
    (hstep : s.step e = some s') : s'.SwriteIn k fd P := by
  obtain ⟨w, hw, hPw⟩ := h.resolve_right hpc
  cases e with
  | arrive m =>
    cases hstep
    exact .inl ⟨w, hw, hPw⟩
  | thread i => exact .inl ⟨w, (threadStep_cases hstep).pc_eq.trans hw, hPw⟩
  | turn env =>
    cases turn_cases hstep with
    | @swriteTurn k' fd' w' m hpc' hlt hm =>
      rw [hw] at hpc'
      cases hpc'
      exact .inl ⟨w.turn, rfl, hP w hPw hlt⟩
    | swriteEnd => exact .inr rfl
    | complete => exact .inr rfl
    | sopen hpc' | swrite hpc' | swriteBegin hpc' | swriteChunk hpc' | sread hpc' | sclose hpc' | noop hpc' =>
      exact absurd hpc' hpc

end Server

/-! ## Requests -/

/-- A request with a count, and for a direct write the two locals that `ibvio_swrite` does not initialise. -/
inductive Request
  | writeBegin
  | write (writeSize writeChunkSize : CInt)
  | read

/-- The main loop is not inside of `ibvio_swrite` for the file, and it changes nothing of the file but by
receiving a chunk. -/
def Server.OnlyChunks (fd : Nat) (s : Server) : ServerEvent → Prop
  | .turn env => (∀ k w, s.pc ≠ .swrite k fd w) ∧
      (s.Touches env fd → ∃ m ∈ s.aq.head?, s.pc = .probe ∧ m.op = opWriteChunk)
  | _ => True

/-- In `s` the step `e` works for one request with this count: `s` is reached from the state in which the handler
received it. After a `WRITE_BEGIN` any sequence of chunks may follow, and the writers run beside it. -/
def Request.Serves (count : CInt) (fd : Nat) (s : Server) (e : ServerEvent) : Request → Prop
  | .writeBegin => ∃ (s₀ : Server) (m : Message) (aq : List Message) (es : List ServerEvent),
      s₀.Reached ∧ (s₀.view fd).Resting ∧ fd ∈ s₀.opened ∧ s₀.pc = .probe ∧ s₀.aq = m :: aq ∧ m.op = opWriteBegin ∧ m.fd = fd ∧
      m.count = count ∧ Path Server.step (Server.OnlyChunks fd) ({ s₀ with aq := aq }.swriteBegin m) es s ∧
      s.OnlyChunks fd e
  | .write writeSize writeChunkSize => ∃ (s₀ : Server) (k : Key) (es : List ServerEvent) (env : Env),
      s₀.Reached ∧ s₀.pc = .swrite k fd (.start count writeSize writeChunkSize) ∧
      Path Server.step (fun s _ => s.pc ≠ .probe) s₀ es s ∧ s.pc ≠ .probe ∧ e = .turn env
  | .read => ∃ (s₀ s₁ : Server) (i : Nat) (k : Key) (m : Message) (es : List ServerEvent),
      s₀.Reached ∧ s₀.threads[i]? = some (.reader k fd .locked) ∧ s₀.aq.find? (·.key = k) = some m ∧ m.count = count ∧
      s₀.step (.thread i) = some s₁ ∧ e = .thread i ∧ (s = s₀ ∨ Path Server.step (fun _ _ => True) s₁ es s)

/-- The counts that fit. -/
def Request.Fits (count : CInt) : Request → Prop
  | .writeBegin => 0 ≤ count.toInt ∧ count.toInt ≤ bufSize
  | .write writeSize writeChunkSize => 0 ≤ writeSize.toInt ∧
      if 0 < count.toInt then count.toInt ≤ bufSize ∧ writeSize.toInt + count.toInt ≤ bufSize
      else 0 ≤ writeChunkSize.toInt ∧ writeSize.toInt + writeChunkSize.toInt ≤ bufSize
  | .read => count.toInt ≤ bufSize

section Requests

variable {count : CInt} {fd : Nat} {s : Server} {e : ServerEvent}

theorem ReadAt.start (n : Nat) : ReadAt n 0 ⟨BitVec.ofNat 32 n, ibvioChunkSize, 0, ibvioChunkSize⟩ where
  count := rfl
  readSize := by
    have hone : readsAfter n 0 = 1 := by
      rw [readsAfter]
      omega
    rw [hone, Nat.one_mul, ibvioChunkSize_eq]
  currentSendSize := by simp
  chunk _ := rfl

theorem swriteChunk_entry {m : Message} (hfd : m.fd = fd) : (s.swriteChunk m).entry fd =
    { s.entry fd with
      cache := (s.chunkEntry m).cache
      currentRecvSize := (s.entry fd).currentRecvSize +
        uint64OfInt (serverChunk (s.entry fd).currentRecvSize (s.entry fd).writeCount) } := by
  subst hfd
  simp only [Server.swriteChunk, Server.goto, Server.runThread, Server.emit, Server.entry, Server.setEntry,
    Function.update_self, Server.chunkEntry]

theorem swriteBegin_view {m : Message} (hfd : m.fd = fd) : (s.swriteBegin m).view fd =
    ⟨⟨(s.entry fd).fd, uint64OfInt m.count, 0, 0, (s.entry fd).fastmutex, (s.entry fd).cache⟩,
      (s.view fd).threads⟩ := by
  rw [Server.view, Server.swriteBegin, hfd, Server.setEntry_entry_self]
  rfl

theorem swriteChunk_view {m : Message} (hfd : m.fd = fd) : (s.swriteChunk m).view fd =
    ⟨(s.swriteChunk m).entry fd, (s.view fd).threads ++ [.writer fd .start]⟩ := by
  subst hfd
  rw [Server.view, Server.swriteChunk_threads, List.filter_append, Server.view]
  congr 1
  rw [List.filter_cons_of_pos (by simp [Thread.fd]), List.filter_nil]

section Chunk

variable {n r d : Nat} {m : Message}

theorem Filling.swriteChunk (h : Filling n r d (s.view fd)) (hn : n ≤ bufSize) (hfd : m.fd = fd) :
    Filling n (r + 1) d ((s.swriteChunk m).view fd) := by
  rw [swriteChunk_view hfd, swriteChunk_entry hfd]
  exact h.chunk (h.receive_advance hn) _ fd

theorem Filling.swriteChunk_pc (h : Filling n r d (s.view fd)) (hn : n ≤ bufSize) (hfd : m.fd = fd) :
    (s.swriteChunk m).pc = if chunkCount n ≤ r + 1 then .await m.key fd else .probe := by
  rw [Server.swriteChunk_pc, hfd]
  exact if_congr ((h.swriteChunk hn hfd).received_eq_iff hn) rfl rfl

end Chunk

end Requests

end Libibtl.Ibio
