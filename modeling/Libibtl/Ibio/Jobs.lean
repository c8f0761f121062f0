import Libibtl.Ibio.OwedChunks

/-! # What the files of the server are used for

A descriptor is free, or held by the client that opened it, or this client fills the
file with a write. The threads of a file fit its job: only a write has writers that are
not done, and the mutex of a free file is not locked.
-/

namespace Libibtl.Ibio

open Foundation

/-- Of a write of `n` bytes, `r` chunks are received. -/
inductive Job
  | free
  | held (c : CInt)
  | filling (c : CInt) (n r : Nat)

namespace Job

def owner : Job → Option CInt
  | .free => none
  | .held c | .filling c _ _ => some c

def Writers : Job → FileView → Prop
  | .filling _ n r, v => n ≤ bufSize ∧ ∃ d, Filling n r d v
  | _, v => ∀ t ∈ v.threads, t.pending = false

structure Fits (j : Job) (v : FileView) : Prop where
  guarded : Guarded Thread.holds v.entry.fastmutex v.threads
  unlocked : j = .free → v.entry.fastmutex = false
  writers : j.Writers v

end Job

/-! ## Threads -/

theorem FileMove.guarded {fd : Nat} {v v' : FileView} (hm : FileMove fd v v')
    (h : Guarded Thread.holds v.entry.fastmutex v.threads) : Guarded Thread.holds v'.entry.fastmutex v'.threads := by
  cases hm with
  | writerLock hj hfree | readerLock hj hfree =>
    rw [hfree] at h
    exact h.acquire hj rfl rfl
  | writerWrite hj | writerAdvance hj | readerReceive _ _ _ hj | readerSend _ _ hj => exact h.keep hj rfl
  | writerUnlock hj | readerUnlock hj => exact h.release hj rfl rfl

/-- Without writers that are not done, no step makes one. -/
theorem FileMove.done {fd : Nat} {v v' : FileView} (hm : FileMove fd v v') (h : ∀ t ∈ v.threads, t.pending = false) :
    ∀ t ∈ v'.threads, t.pending = false := by
  have hset : ∀ {j : Nat} {t : Thread}, t.pending = false → ∀ u ∈ v.threads.set j t, u.pending = false := by
    intro j t ht u hu
    rcases mem_set_cases hu with rfl | hu
    · exact ht
    · exact h u hu
  cases hm with
  | writerLock hj _ | writerWrite hj | writerAdvance hj _ => exact absurd (h _ (List.mem_of_getElem? hj)) nofun
  | writerUnlock | readerLock | readerReceive | readerSend | readerUnlock => exact hset rfl

/-- The mutex is only locked by a writer that is not done, or by a reader. -/
theorem FileMove.unlocked {fd : Nat} {v v' : FileView} (hm : FileMove fd v v')
    (hdone : ∀ t ∈ v.threads, t.pending = false) (hreaders : ∀ k g pc, .reader k g pc ∈ v.threads → pc = .ended)
    (h : v.entry.fastmutex = false) : v'.entry.fastmutex = false := by
  cases hm with
  | writerLock hj _ => exact absurd (hdone _ (List.mem_of_getElem? hj)) nofun
  | readerLock hj _ => exact absurd (hreaders _ _ _ (List.mem_of_getElem? hj)) nofun
  | writerUnlock | readerUnlock => rfl
  | writerWrite | writerAdvance | readerReceive | readerSend => exact h

namespace Job

variable {j : Job} {v v' : FileView} {fd : Nat}

theorem Fits.move (h : j.Fits v) (hm : FileMove fd v v')
    (hfree : j = .free → ∀ k g pc, .reader k g pc ∈ v.threads → pc = .ended) : j.Fits v' where
  guarded := hm.guarded h.guarded
  unlocked hj := by
    have hwriters := h.writers
    rw [hj] at hwriters
    exact hm.unlocked hwriters (hfree hj) (h.unlocked hj)
  writers := by
    have hwriters := h.writers
    cases j with
    | free => exact hm.done hwriters
    | held c => exact hm.done hwriters
    | filling c n r =>
      obtain ⟨hn, d, hfilling⟩ := hwriters
      rcases hfilling.move hn hm with hsame | hnext
      · exact ⟨hn, d, hsame⟩
      · exact ⟨hn, d + 1, hnext⟩

/-! ## The main loop -/

theorem Fits.opened (h : Fits .free v) (c : CInt) (memory : Buffer) (g : Nat) :
    Fits (.held c) ⟨⟨g, 0, 0, 0, false, memory⟩, v.threads⟩ where
  guarded := h.unlocked rfl ▸ h.guarded
  unlocked := nofun
  writers := h.writers

/-- `WRITE_BEGIN`, when all readers of the file are done. -/
theorem Fits.begin {c : CInt} {n : Nat} (h : Fits (.held c) v) (hn : n ≤ bufSize)
    (hreaders : ∀ k g pc, .reader k g pc ∈ v.threads → (Thread.reader k g pc).spent = true) :
    Fits (.filling c n 0)
      ⟨⟨v.entry.fd, BitVec.ofNat 64 n, 0, 0, v.entry.fastmutex, v.entry.cache⟩, v.threads⟩ where
  guarded := h.guarded
  unlocked := nofun
  writers := by
    refine ⟨hn, 0, Filling.begin ⟨h.guarded, fun t ht => ?_⟩ _ _⟩
    cases t with
    | writer g pc =>
      have hdone : (Thread.writer g pc).pending = false := h.writers _ ht
      cases pc with
      | start | locked | written => cases hdone
      | advanced | ended => rfl
    | reader k g pc => exact hreaders k g pc ht

theorem Fits.chunk {c : CInt} {n r : Nat} {size : UInt64T} (h : Fits (.filling c n r) v)
    (hsize : size = v.entry.currentRecvSize + uint64OfInt (serverChunk v.entry.currentRecvSize v.entry.writeCount))
    (cache : Buffer) (fd : Nat) : Fits (.filling c n (r + 1))
      ⟨{ v.entry with cache := cache, currentRecvSize := size }, v.threads ++ [.writer fd .start]⟩ where
  guarded := h.guarded.spawn rfl
  unlocked := nofun
  writers := by
    obtain ⟨hn, d, hfilling⟩ := h.writers
    exact ⟨hn, d, hfilling.chunk (hsize.trans (hfilling.receive_advance hn)) cache fd⟩

/-- The server has received all chunks, and its counters agree: the write is done. -/
theorem Fits.done {c : CInt} {n : Nat} (h : Fits (.filling c n (chunkCount n)) v)
    (hcount : v.entry.currentWriteCount = v.entry.writeCount) : Fits (.held c) v := by
  obtain ⟨hn, d, hfilling⟩ := h.writers
  have hall := (hfilling.counts_eq_iff hn).1 hcount
  have hcensus := hfilling.census
  refine ⟨h.guarded, nofun, fun t ht => Bool.eq_false_iff.2 ?_⟩
  exact List.countP_eq_zero.1 (by omega) t ht

theorem Fits.read {c : CInt} (h : Fits (.held c) v) (k : Key) (fd : Nat) :
    Fits (.held c) ⟨v.entry, v.threads ++ [.reader k fd .start]⟩ where
  guarded := h.guarded.spawn rfl
  unlocked := nofun
  writers t ht := by
    rcases List.mem_append.1 ht with ht | ht
    · exact h.writers t ht
    · cases List.mem_singleton.1 ht
      rfl

/-- A close clears the entry while the mutex is not locked. -/
theorem Fits.closed {c : CInt} (h : Fits (.held c) v) (hmutex : v.entry.fastmutex = false) (cache : Buffer) :
    Fits .free ⟨⟨0, 0, 0, 0, false, cache⟩, v.threads⟩ where
  guarded := hmutex ▸ h.guarded
  unlocked _ := rfl
  writers := h.writers

/-- The close of the file below clears the entry of a file that nobody fills. -/
theorem Fits.cleared (h : j.Fits v) (hj : ∀ c n r, j ≠ .filling c n r) (hmutex : v.entry.fastmutex = false)
    (cache : Buffer) : j.Fits ⟨⟨0, 0, 0, 0, false, cache⟩, v.threads⟩ where
  guarded := hmutex ▸ h.guarded
  unlocked _ := rfl
  writers := by
    cases j with
    | free => exact h.writers
    | held c => exact h.writers
    | filling c n r => exact absurd rfl (hj c n r)

end Job

end Libibtl.Ibio
