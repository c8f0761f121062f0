import Libibtl.Ibio.FileView

/-! # The counters of a write in progress

Of `n` bytes, `r` chunks have been received and `d` chunks are done. Every chunk that
was received started one writer, and a writer takes its range from the shared counter
when it has the mutex, so it is the number of writers that matters and not which writer
was started for which chunk.
-/

namespace Libibtl.Ibio

open Foundation

namespace Thread

/-- Between lock and unlock. -/
def holds : Thread → Bool
  | .writer _ .locked | .writer _ (.written _) | .writer _ .advanced => true
  | .reader _ _ .locked | .reader _ _ (.sending _) => true
  | _ => false

/-- A writer that has not added its chunk to the counter. -/
def pending : Thread → Bool
  | .writer _ .start | .writer _ .locked | .writer _ (.written _) => true
  | _ => false

/-- A thread that has nothing left to do but to unlock. -/
def spent : Thread → Bool
  | .writer _ .advanced | .writer _ .ended | .reader _ _ .ended => true
  | .reader _ _ (.sending r) => !r.currentSendSize.slt r.count
  | _ => false

end Thread

/-- No thread works on the file any more. -/
structure FileView.Resting (v : FileView) : Prop where
  guarded : Guarded Thread.holds v.entry.fastmutex v.threads
  spent : ∀ t ∈ v.threads, t.spent = true

/-- `r` of the chunks are received, `d` are written and counted. -/
structure Filling (n r d : Nat) (v : FileView) : Prop where
  writeCount : v.entry.writeCount = BitVec.ofNat 64 n
  currentRecvSize : v.entry.currentRecvSize = BitVec.ofNat 64 (min (r * chunkBytes) n)
  currentWriteCount : v.entry.currentWriteCount = BitVec.ofNat 64 (min (d * chunkBytes) n)
  guarded : Guarded Thread.holds v.entry.fastmutex v.threads
  census : d + v.threads.countP Thread.pending = r
  written : ∀ t ∈ v.threads, ∀ fd m, t = .writer fd (.written m) → m = BitVec.ofNat 32 (chunkAt n (d * chunkBytes))
  kinds : ∀ t ∈ v.threads, t.pending = true ∨ t.spent = true

theorem ofNat_inj_of_le {a b : Nat} (ha : a ≤ bufSize) (hb : b ≤ bufSize) :
    BitVec.ofNat 64 a = BitVec.ofNat 64 b ↔ a = b := by
  have hpow : 2 ^ 31 < 2 ^ 64 := by decide
  constructor
  · intro h
    have hmod := congrArg BitVec.toNat h
    rwa [BitVec.toNat_ofNat, BitVec.toNat_ofNat, Nat.mod_eq_of_lt ((lt_two_pow_of_le ha).trans hpow),
      Nat.mod_eq_of_lt ((lt_two_pow_of_le hb).trans hpow)] at hmod
  · exact congrArg _

theorem uint64OfInt_ofNat_of_le {a : Nat} (ha : a ≤ bufSize) : uint64OfInt (BitVec.ofNat 32 a) = BitVec.ofNat 64 a :=
  uint64OfInt_ofNat (lt_two_pow_of_le ha)

theorem mem_set_cases {l : List Thread} {i : Nat} {t u : Thread} (h : u ∈ l.set i t) : u = t ∨ u ∈ l :=
  (List.mem_or_eq_of_mem_set h).symm

namespace Filling

variable {n r d fd : Nat} {v v' : FileView}

theorem begin (h : v.Resting) (cache : Buffer) (g : Nat) : Filling n 0 0
    ⟨⟨g, BitVec.ofNat 64 n, 0, 0, v.entry.fastmutex, cache⟩, v.threads⟩ where
  writeCount := rfl
  currentRecvSize := by simp
  currentWriteCount := by simp
  guarded := h.guarded
  census := by
    rw [Nat.zero_add, List.countP_eq_zero]
    intro t ht hp
    have hs := h.spent t ht
    cases t with
    | writer fd pc => cases pc <;> simp_all [Thread.spent, Thread.pending]
    | reader k fd pc => cases hp
  written t ht fd m heq := by
    have hs := h.spent t ht
    rw [heq] at hs
    cases hs
  kinds t ht := .inr (h.spent t ht)

/-- The size that the server computes for a chunk, from one of the two counters. -/
theorem serverChunk_min (hn : n ≤ bufSize) (j : Nat) :
    serverChunk (BitVec.ofNat 64 (min (j * chunkBytes) n)) (BitVec.ofNat 64 n) =
      BitVec.ofNat 32 (chunkAt n (j * chunkBytes)) := by
  have hle : min (j * chunkBytes) n ≤ n := Nat.min_le_right ..
  rw [Ibio.serverChunk_eq ((lt_two_pow_of_le hn).trans (by decide)) hle (hle.trans hn), chunkAt_min]

theorem counter_advance (hn : n ≤ bufSize) (j : Nat) :
    BitVec.ofNat 64 (min (j * chunkBytes) n) + uint64OfInt (BitVec.ofNat 32 (chunkAt n (j * chunkBytes))) =
      BitVec.ofNat 64 (min ((j + 1) * chunkBytes) n) := by
  rw [uint64OfInt_ofNat_of_le ((chunkAt_le _ _).trans hn), ← BitVec.ofNat_add, min_add_chunkAt]

theorem serverChunk_receive (h : Filling n r d v) (hn : n ≤ bufSize) :
    serverChunk v.entry.currentRecvSize v.entry.writeCount = BitVec.ofNat 32 (chunkAt n (r * chunkBytes)) := by
  rw [h.currentRecvSize, h.writeCount, serverChunk_min hn]

theorem receive_advance (h : Filling n r d v) (hn : n ≤ bufSize) :
    v.entry.currentRecvSize + uint64OfInt (serverChunk v.entry.currentRecvSize v.entry.writeCount) =
      BitVec.ofNat 64 (min ((r + 1) * chunkBytes) n) := by
  rw [h.serverChunk_receive hn, h.currentRecvSize, counter_advance hn]

theorem chunk (h : Filling n r d v) {size : UInt64T} (hsize : size = BitVec.ofNat 64 (min ((r + 1) * chunkBytes) n))
    (cache : Buffer) (fd : Nat) :
    Filling n (r + 1) d
      ⟨{ v.entry with cache := cache, currentRecvSize := size }, v.threads ++ [.writer fd .start]⟩ where
  writeCount := h.writeCount
  currentRecvSize := hsize
  currentWriteCount := h.currentWriteCount
  guarded := h.guarded.spawn rfl
  census := by
    rw [countP_concat, ← Nat.add_assoc, h.census]
    rfl
  written t ht fd m heq := by
    rcases List.mem_append.1 ht with ht | ht
    · exact h.written t ht fd m heq
    · cases heq
      cases List.mem_singleton.1 ht
  kinds t ht := by
    rcases List.mem_append.1 ht with ht | ht
    · exact h.kinds t ht
    · cases List.mem_singleton.1 ht
      exact .inl rfl

theorem le_received (h : Filling n r d v) : d ≤ r := h.census ▸ Nat.le_add_right _ _

theorem lt_received (h : Filling n r d v) {t : Thread} (ht : t ∈ v.threads) (hp : t.pending = true) : d < r := by
  have hpos : 0 < v.threads.countP Thread.pending := List.countP_pos_iff.mpr ⟨t, ht, hp⟩
  have hcensus := h.census
  omega

/-- The size that a writer computes is that of the first chunk that is not done. -/
theorem serverChunk_eq (h : Filling n r d v) (hn : n ≤ bufSize) :
    serverChunk v.entry.currentWriteCount v.entry.writeCount = BitVec.ofNat 32 (chunkAt n (d * chunkBytes)) := by
  rw [h.currentWriteCount, h.writeCount, serverChunk_min hn]

/-- A step that changes at most the mutex, and neither the number of pending writers nor what was written. -/
theorem of_set (h : Filling n r d v) {j : Nat} {t t' : Thread} {b : Bool} (hj : v.threads[j]? = some t)
    (hguarded : Guarded Thread.holds b (v.threads.set j t')) (hpending : t'.pending = t.pending)
    (hkind : t'.pending = true ∨ t'.spent = true)
    (hwritten : ∀ fd m, t' = .writer fd (.written m) → m = BitVec.ofNat 32 (chunkAt n (d * chunkBytes))) :
    Filling n r d ⟨{ v.entry with fastmutex := b }, v.threads.set j t'⟩ where
  writeCount := h.writeCount
  currentRecvSize := h.currentRecvSize
  currentWriteCount := h.currentWriteCount
  guarded := hguarded
  census := by rw [countP_set_of_eq hj hpending, h.census]
  written u hu fd m heq := by
    rcases mem_set_cases hu with rfl | hu
    · exact hwritten fd m heq
    · exact h.written u hu fd m heq
  kinds u hu := by
    rcases mem_set_cases hu with rfl | hu
    · exact hkind
    · exact h.kinds u hu

theorem advance (h : Filling n r d v) (hn : n ≤ bufSize) {j : Nat} {m : CInt} {count : UInt64T}
    (hj : v.threads[j]? = some (.writer fd (.written m)))
    (hcount : count = v.entry.currentWriteCount + uint64OfInt m) :
    Filling n r (d + 1) ⟨{ v.entry with currentWriteCount := count }, v.threads.set j (.writer fd .advanced)⟩ := by
  have hmem := List.mem_of_getElem? hj
  have hguarded := h.guarded.keep (u := .writer fd .advanced) hj rfl
  refine ⟨h.writeCount, h.currentRecvSize, ?_, hguarded, ?_, ?_, ?_⟩
  · rw [hcount, h.written _ hmem fd m rfl, h.currentWriteCount, counter_advance hn]
  · have hset := countP_set_add (p := Thread.pending) (u := .writer fd .advanced) hj
    have hcensus := h.census
    simp only [Thread.pending, Bool.toNat_true, Bool.toNat_false, Nat.add_zero] at hset
    show d + 1 + (v.threads.set j _).countP Thread.pending = r
    omega
  · -- a second writer inside would hold the mutex as well
    intro u hu fd' m' heq
    obtain ⟨i, hi⟩ := List.mem_iff_getElem?.mp hu
    have hlength : j < v.threads.length := (List.getElem?_eq_some_iff.mp hj).1
    have hself : (v.threads.set j (.writer fd .advanced))[j]? = some (.writer fd .advanced) :=
      List.getElem?_set_self hlength
    obtain rfl := hguarded.unique hi hself (by rw [heq]; rfl) rfl
    rw [hi] at hself
    cases Option.some.inj hself
    cases heq
  · intro u hu
    rcases mem_set_cases hu with rfl | hu
    · exact .inr rfl
    · exact h.kinds u hu

/-- A step of a thread of the file: the counter stays, or the chunk of one writer is added. -/
theorem move (h : Filling n r d v) (hn : n ≤ bufSize) (hm : FileMove fd v v') :
    Filling n r d v' ∨ Filling n r (d + 1) v' := by
  cases hm with
  | writerLock hj hfree =>
    have hguarded := h.guarded
    rw [hfree] at hguarded
    exact .inl (h.of_set hj (hguarded.acquire hj rfl rfl) rfl (.inl rfl) nofun)
  | @writerWrite j hj =>
    refine .inl (h.of_set hj (h.guarded.keep hj rfl) rfl (.inl rfl) ?_)
    intro fd' m heq
    simp only [Thread.writer.injEq, WriterPc.written.injEq] at heq
    exact heq.2.symm.trans (h.serverChunk_eq hn)
  | writerAdvance hj hcount => exact .inr (h.advance hn hj hcount)
  | writerUnlock hj => exact .inl (h.of_set hj (h.guarded.release hj rfl rfl) rfl (.inr rfl) nofun)
  | readerLock hj _ => exact absurd (h.kinds _ (List.mem_of_getElem? hj)) (by simp [Thread.pending, Thread.spent])
  | readerReceive _ _ _ hj => exact absurd (h.kinds _ (List.mem_of_getElem? hj)) (by simp [Thread.pending, Thread.spent])
  | readerSend _ _ hj hlt =>
    exact absurd (h.kinds _ (List.mem_of_getElem? hj)) (by simp [Thread.pending, Thread.spent, hlt])
  | readerUnlock hj _ => exact .inl (h.of_set hj (h.guarded.release hj rfl rfl) rfl (.inr rfl) nofun)

/-- The counters of the entry agree when all chunks are done. -/
theorem counts_eq_iff (h : Filling n r d v) (hn : n ≤ bufSize) :
    v.entry.currentWriteCount = v.entry.writeCount ↔ chunkCount n ≤ d := by
  rw [h.currentWriteCount, h.writeCount, ofNat_inj_of_le ((Nat.min_le_right ..).trans hn) hn, min_eq_right_iff,
    ← Nat.not_lt, ← Nat.not_lt, lt_chunkCount]

/-- With all chunks received, the server waits for the writers. -/
theorem received_eq_iff (h : Filling n r d v) (hn : n ≤ bufSize) :
    v.entry.currentRecvSize = v.entry.writeCount ↔ chunkCount n ≤ r := by
  rw [h.currentRecvSize, h.writeCount, ofNat_inj_of_le ((Nat.min_le_right ..).trans hn) hn, min_eq_right_iff,
    ← Nat.not_lt, ← Nat.not_lt, lt_chunkCount]

/-- When every chunk that was received is done, the file rests. -/
theorem resting (h : Filling n r r v) : v.Resting where
  guarded := h.guarded
  spent t ht := by
    rcases h.kinds t ht with hp | hs
    · have hlt := h.lt_received ht hp
      omega
    · exact hs

end Filling

end Libibtl.Ibio
