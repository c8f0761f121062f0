import Libibtl.Foundation.Mutex
import Libibtl.Ibio.ServerSteps

/-! # The server as seen from one file

A file is its entry in `open_info` and the threads that work on it. A step of a thread
changes the view of its own file only, and a step of the main loop changes the view of
the files that it touches: the file of the message, the file that is opened, and for
a close also the next one.
-/

namespace Libibtl.Ibio

open Foundation

def Thread.fd : Thread → Nat
  | .writer fd _ => fd
  | .reader _ fd _ => fd

structure FileView where
  entry : Entry
  threads : List Thread

/-- One step of a thread of the file `fd`. -/
inductive FileMove (fd : Nat) (v : FileView) : FileView → Prop
  | writerLock {j : Nat} (hj : v.threads[j]? = some (.writer fd .start)) (hfree : v.entry.fastmutex = false) :
      FileMove fd v ⟨{ v.entry with fastmutex := true }, v.threads.set j (.writer fd .locked)⟩
  | writerWrite {j : Nat} (hj : v.threads[j]? = some (.writer fd .locked)) :
      FileMove fd v ⟨v.entry, v.threads.set j
        (.writer fd (.written (serverChunk v.entry.currentWriteCount v.entry.writeCount)))⟩
  | writerAdvance {j : Nat} {n : CInt} {count : UInt64T} (hj : v.threads[j]? = some (.writer fd (.written n)))
      (hcount : count = v.entry.currentWriteCount + uint64OfInt n) :
      FileMove fd v ⟨{ v.entry with currentWriteCount := count }, v.threads.set j (.writer fd .advanced)⟩
  | writerUnlock {j : Nat} (hj : v.threads[j]? = some (.writer fd .advanced)) :
      FileMove fd v ⟨{ v.entry with fastmutex := false }, v.threads.set j (.writer fd .ended)⟩
  | readerLock {j : Nat} {k : Key} (hj : v.threads[j]? = some (.reader k fd .start))
      (hfree : v.entry.fastmutex = false) :
      FileMove fd v ⟨{ v.entry with fastmutex := true }, v.threads.set j (.reader k fd .locked)⟩
  | readerReceive {j : Nat} {k : Key} (cache : Buffer) (count readSize : CInt)
      (hj : v.threads[j]? = some (.reader k fd .locked)) :
      FileMove fd v ⟨{ v.entry with cache := cache },
        v.threads.set j (.reader k fd (.sending ⟨count, readSize, 0, ibvioChunkSize⟩))⟩
  | readerSend {j : Nat} {k : Key} {r : ReadLocals} (cache : Buffer) (readSize : CInt)
      (hj : v.threads[j]? = some (.reader k fd (.sending r))) (hlt : r.currentSendSize.slt r.count = true) :
      FileMove fd v ⟨{ v.entry with cache := cache }, v.threads.set j (.reader k fd (.sending
        ⟨r.count, readSize, r.currentSendSize + handlerChunk r.currentSendSize r.chunk r.count,
          handlerChunk r.currentSendSize r.chunk r.count⟩))⟩
  | readerUnlock {j : Nat} {k : Key} {r : ReadLocals} (hj : v.threads[j]? = some (.reader k fd (.sending r)))
      (hlt : r.currentSendSize.slt r.count = false) :
      FileMove fd v ⟨{ v.entry with fastmutex := false }, v.threads.set j (.reader k fd .ended)⟩

namespace Sread

variable (file : List Byte) (count : CInt) (s : Sread)

theorem turn_chunk : (s.turn file count).chunk = handlerChunk s.currentSendSize s.chunk count := by
  simp only [turn]
  split <;> rfl

theorem turn_currentSendSize :
    (s.turn file count).currentSendSize = s.currentSendSize + handlerChunk s.currentSendSize s.chunk count := by
  simp only [turn]
  split <;> rfl

theorem turn_readSize : (s.turn file count).readSize =
    if s.readSize.slt count then s.readSize + ibvioChunkSize else s.readSize := by
  simp only [turn]
  split
  · rfl
  · rfl

end Sread

namespace Server

def view (s : Server) (fd : Nat) : FileView := ⟨s.entry fd, s.threads.filter (·.fd = fd)⟩

variable {s s' : Server} {i : Nat} {t t' : Thread}

theorem view_eq {fd : Nat} (hentry : s'.entry fd = s.entry fd) (hthreads : s'.threads = s.threads) :
    s'.view fd = s.view fd := by
  rw [view, view, hentry, hthreads]

theorem view_threads {u : Thread} (hi : s.threads[i]? = some t)
    (hthreads : s'.threads = s.threads.set i u) (hu : u.fd = t.fd) :
    ∃ j : Nat, (s.view t.fd).threads[j]? = some t ∧ (s'.view t.fd).threads = (s.view t.fd).threads.set j u := by
  obtain ⟨j, hj, hset⟩ := filter_set_of_pos (p := fun v : Thread => decide (v.fd = t.fd)) (u := u) hi
    (decide_eq_true rfl) (decide_eq_true hu)
  refine ⟨j, hj, ?_⟩
  rw [view, hthreads, hset, view]

theorem mem_view_threads {fd : Nat} {t : Thread} (ht : t ∈ (s.view fd).threads) :
    (∃ i : Nat, s.threads[i]? = some t) ∧ t.fd = fd := by
  obtain ⟨hmem, hfd⟩ := List.mem_filter.1 ht
  exact ⟨List.mem_iff_getElem?.1 hmem, of_decide_eq_true hfd⟩

theorem view_mem_threads {fd : Nat} {t : Thread} {i : Nat} (hi : s.threads[i]? = some t) (ht : t.fd = fd) :
    t ∈ (s.view fd).threads := List.mem_filter.2 ⟨List.mem_of_getElem? hi, decide_eq_true ht⟩

section Entries

variable (s) (fd : Nat) (e : Entry)

@[simp] theorem setEntry_entry_self : (s.setEntry fd e).entry fd = e := by simp [setEntry, entry]

@[simp] theorem setEntry_entry_of_ne {fd' : Nat} (h : fd' ≠ fd) : (s.setEntry fd e).entry fd' = s.entry fd' := by
  simp [setEntry, entry, h]

@[simp] theorem setThread_entry (i : Nat) (t : Thread) : (s.setThread i t).entry fd = s.entry fd := rfl

@[simp] theorem writeFile_entry (g : Nat) (data : List Byte) : (s.writeFile g data).entry fd = s.entry fd := rfl

@[simp] theorem setMutex_entry_self (b : Bool) : (s.setMutex fd b).entry fd = { s.entry fd with fastmutex := b } := by
  simp [setMutex]

@[simp] theorem setMutex_entry_of_ne (b : Bool) {fd' : Nat} (h : fd' ≠ fd) :
    (s.setMutex fd b).entry fd' = s.entry fd' := by
  simp [setMutex, h]

@[simp] theorem storeSread_entry_self (i : Nat) (k : Key) (count : CInt) (l : Sread) :
    (s.storeSread i k fd count l).entry fd = { s.entry fd with cache := l.cache } := by
  simp [storeSread, entry]

@[simp] theorem storeSread_entry_of_ne (i : Nat) (k : Key) (count : CInt) (l : Sread) {fd' : Nat} (h : fd' ≠ fd) :
    (s.storeSread i k fd count l).entry fd' = s.entry fd' := by
  simp [storeSread, entry, h]

end Entries

/-- The thread `t` has moved to `t'`, and only the entry of its file may have changed. -/
theorem view_set (hi : s.threads[i]? = some t) (hthreads : s'.threads = s.threads.set i t') (hfd : t'.fd = t.fd)
    (hentries : ∀ fd ≠ t.fd, s'.entry fd = s.entry fd)
    (hmove : ∀ j : Nat, (s.view t.fd).threads[j]? = some t →
      FileMove t.fd (s.view t.fd) ⟨s'.entry t.fd, (s.view t.fd).threads.set j t'⟩) :
    ∃ t, s.threads[i]? = some t ∧ FileMove t.fd (s.view t.fd) (s'.view t.fd) ∧
      ∀ fd ≠ t.fd, s'.view fd = s.view fd := by
  refine ⟨t, hi, ?_, fun fd hne => ?_⟩
  · obtain ⟨j, hj, hset⟩ := view_threads hi hthreads hfd
    have hview : s'.view t.fd = ⟨s'.entry t.fd, (s.view t.fd).threads.set j t'⟩ := congrArg (FileView.mk _) hset
    rw [hview]
    exact hmove j hj
  · have hneg : ∀ u : Thread, u.fd = t.fd → decide (u.fd = fd) = false := fun u hu =>
      decide_eq_false fun heq => hne (heq.symm.trans hu)
    rw [view, view, hentries fd hne, hthreads, filter_set_of_neg hi (hneg t rfl) (hneg t' hfd)]

/-- A step of a thread, seen from its own file and from all others. -/
theorem Move.view (h : Move s i s') : ∃ t, s.threads[i]? = some t ∧ FileMove t.fd (s.view t.fd) (s'.view t.fd) ∧
    ∀ fd ≠ t.fd, s'.view fd = s.view fd := by
  cases h with
  | @writerLock fd hi hfree =>
    refine view_set hi rfl rfl (fun fd' hne => setMutex_entry_of_ne s fd true hne) fun j hj => ?_
    rw [setThread_entry, Thread.fd, setMutex_entry_self]
    exact .writerLock hj hfree
  | writerWrite hi => exact view_set hi rfl rfl (fun _ _ => rfl) fun j hj => .writerWrite hj
  | @writerAdvance fd n hi =>
    refine view_set hi rfl rfl (fun fd' hne => setEntry_entry_of_ne s fd _ hne) fun j hj => ?_
    rw [setThread_entry, Thread.fd, setEntry_entry_self]
    exact .writerAdvance hj rfl
  | @writerUnlock fd hi =>
    refine view_set hi rfl rfl (fun fd' hne => setMutex_entry_of_ne s fd false hne) fun j hj => ?_
    rw [setThread_entry, Thread.fd, setMutex_entry_self]
    exact .writerUnlock hj
  | @readerLock k fd hi hfree =>
    refine view_set hi rfl rfl (fun fd' hne => setMutex_entry_of_ne s fd true hne) fun j hj => ?_
    rw [setThread_entry, Thread.fd, setMutex_entry_self]
    exact .readerLock hj hfree
  | @readerReceive k fd m hi hm =>
    refine view_set hi rfl rfl (fun fd' hne => storeSread_entry_of_ne s fd i k m.count _ hne) fun j hj => ?_
    rw [Thread.fd]
    have hentry := storeSread_entry_self s fd i k m.count
      ((s.sreadState fd ⟨m.count, 0, 0, ibvioChunkSize⟩).fill (s.files fd).content)
    exact hentry ▸ .readerReceive _ _ _ hj
  | @readerSend k fd r hi hlt =>
    refine view_set hi rfl rfl (fun fd' hne => storeSread_entry_of_ne s fd i k r.count _ hne) fun j hj => ?_
    rw [Thread.fd, storeSread_entry_self, Sread.turn_chunk, Sread.turn_currentSendSize]
    exact .readerSend _ _ hj hlt
  | @readerUnlock k fd r hi hlt =>
    refine view_set hi rfl rfl (fun fd' hne => setMutex_entry_of_ne s fd false hne) fun j hj => ?_
    rw [setThread_entry, Thread.fd, setMutex_entry_self]
    exact .readerUnlock hj hlt

/-! ## The main loop -/

/-- The files whose view the next step of the main loop can change. -/
def Touches (s : Server) (env : Env) (fd : Nat) : Prop :=
  match s.pc with
  | .probe => ∃ m ∈ s.aq.head?,
      m.op = opOpen ∧ env.fd = fd ∨
      m.op ∈ [opWriteBegin, opWriteChunk, opRead] ∧ m.fd = fd ∨
      m.op = opClose ∧ (m.fd = fd ∨ m.fd + 1 = fd)
  | .swrite _ fd' w => w.currentRecvSize.slt w.count ∧ fd' = fd
  | .await .. => False

theorem touches_probe {env : Env} {fd : Nat} {m : Message} {aq : List Message} (hpc : s.pc = .probe)
    (haq : s.aq = m :: aq) : s.Touches env fd ↔
      (m.op = opOpen ∧ env.fd = fd ∨ m.op ∈ [opWriteBegin, opWriteChunk, opRead] ∧ m.fd = fd ∨
        m.op = opClose ∧ (m.fd = fd ∨ m.fd + 1 = fd)) := by
  rw [Touches, hpc, haq]
  simp

theorem view_runThread_of_ne (s : Server) {t : Thread} {fd : Nat} (h : t.fd ≠ fd) :
    (s.runThread t).view fd = s.view fd := by
  have hnil : [t].filter (fun t => decide (t.fd = fd)) = [] := by simp [h]
  rw [view, view, runThread, List.filter_append, hnil, List.append_nil]
  rfl

theorem sclose_entry_of_ne (s : Server) (m : Message) {fd : Nat} (h : m.fd ≠ fd) (h' : m.fd + 1 ≠ fd) :
    (s.sclose m).entry fd = s.entry fd := by
  unfold sclose
  split
  · simp [entry, Ne.symm h, Ne.symm h']
  · rfl

/-- The view of a file is kept by all steps of the main loop that do not touch it. -/
theorem Turn.view_eq {env : Env} {fd : Nat} (h : Turn s env s') (hfd : ¬ s.Touches env fd) :
    s'.view fd = s.view fd := by
  cases h with
  | sopen hpc haq hop hfresh hlt =>
    rw [touches_probe hpc haq] at hfd
    refine Server.view_eq ?_ rfl
    have hne : fd ≠ env.fd := fun heq => hfd (.inl ⟨hop, heq.symm⟩)
    simp [Server.sopen, entry, hne]
  | swrite hpc haq hop => rfl
  | @swriteBegin m aq hpc haq hop =>
    rw [touches_probe hpc haq] at hfd
    have hne : fd ≠ m.fd := fun heq => hfd (.inr (.inl ⟨by simp [hop], heq.symm⟩))
    exact Server.view_eq (setEntry_entry_of_ne _ _ _ hne) rfl
  | @swriteChunk m aq hpc haq hop =>
    rw [touches_probe hpc haq] at hfd
    have hne : m.fd ≠ fd := fun heq => hfd (.inr (.inl ⟨by simp [hop], heq⟩))
    refine Eq.trans ?_ (view_runThread_of_ne s (t := .writer m.fd .start) hne)
    refine Server.view_eq ?_ rfl
    simp [Server.swriteChunk, goto, emit, runThread, setEntry, entry, hne.symm]
  | @sread m aq hpc haq hop =>
    rw [touches_probe hpc haq] at hfd
    have hne : m.fd ≠ fd := fun heq => hfd (.inr (.inl ⟨by simp [hop], heq⟩))
    exact view_runThread_of_ne s hne
  | @sclose m aq hpc haq hop =>
    rw [touches_probe hpc haq] at hfd
    have hne : m.fd ≠ fd := fun heq => hfd (.inr (.inr ⟨hop, .inl heq⟩))
    have hnext : m.fd + 1 ≠ fd := fun heq => hfd (.inr (.inr ⟨hop, .inr heq⟩))
    exact Server.view_eq (sclose_entry_of_ne _ _ hne hnext) (sclose_threads _)
  | noop hpc haq hop => rfl
  | @swriteTurn k fd' w m hpc hlt hm =>
    have hne : fd ≠ fd' := by
      rintro rfl
      exact hfd (by simp [Touches, hpc, hlt])
    refine Server.view_eq ?_ rfl
    simp [Server.swriteTurn, entry, hne]
  | swriteEnd hpc hlt => rfl
  | complete hpc hcount => rfl

end Server

end Libibtl.Ibio
