import Libibtl.Foundation.Path
import Libibtl.Ibio.Server

/-! # What a step of the server can do

One inversion for the main loop and one for the threads. Every case carries what the
step found and names the state that it leaves.
-/

namespace Libibtl.Ibio

open Foundation

namespace Server

/-- A step of the main loop. -/
inductive Turn (s : Server) (env : Env) : Server → Prop
  | sopen {m : Message} {aq : List Message} (hpc : s.pc = .probe) (haq : s.aq = m :: aq) (hop : m.op = opOpen)
      (hfresh : env.fd ∉ s.opened) (hlt : env.fd < maxHostIds) : Turn s env ({ s with aq := aq }.sopen m env)
  | swrite {m : Message} {aq : List Message} (hpc : s.pc = .probe) (haq : s.aq = m :: aq) (hop : m.op = opWrite) :
      Turn s env
        ({ s with aq := aq }.goto (.swrite m.key m.fd (.start m.count env.writeSize env.writeChunkSize)))
  | swriteBegin {m : Message} {aq : List Message} (hpc : s.pc = .probe) (haq : s.aq = m :: aq)
      (hop : m.op = opWriteBegin) : Turn s env ({ s with aq := aq }.swriteBegin m)
  | swriteChunk {m : Message} {aq : List Message} (hpc : s.pc = .probe) (haq : s.aq = m :: aq)
      (hop : m.op = opWriteChunk) : Turn s env ({ s with aq := aq }.swriteChunk m)
  | sread {m : Message} {aq : List Message} (hpc : s.pc = .probe) (haq : s.aq = m :: aq) (hop : m.op = opRead) :
      Turn s env (s.runThread (.reader m.key m.fd .start))
  | sclose {m : Message} {aq : List Message} (hpc : s.pc = .probe) (haq : s.aq = m :: aq) (hop : m.op = opClose) :
      Turn s env ({ s with aq := aq }.sclose m)
  | noop {m : Message} {aq : List Message} (hpc : s.pc = .probe) (haq : s.aq = m :: aq)
      (hop : m.op ∉ [opOpen, opWrite, opWriteBegin, opWriteChunk, opRead, opClose]) : Turn s env s
  | swriteTurn {k : Key} {fd : Nat} {w : Swrite} {m : Message} (hpc : s.pc = .swrite k fd w)
      (hlt : w.currentRecvSize.slt w.count = true) (hm : s.aq.find? (·.key = k) = some m) :
      Turn s env (s.swriteTurn k fd w m env)
  | swriteEnd {k : Key} {fd : Nat} {w : Swrite} (hpc : s.pc = .swrite k fd w)
      (hlt : w.currentRecvSize.slt w.count = false) : Turn s env (s.swriteEnd k fd w env)
  | complete {k : Key} {fd : Nat} (hpc : s.pc = .await k fd)
      (hcount : (s.entry fd).currentWriteCount = (s.entry fd).writeCount) :
      Turn s env ((s.emit [.reply k .completed]).goto .probe)

/-- A step of the thread at position `i`. -/
inductive Move (s : Server) (i : Nat) : Server → Prop
  | writerLock {fd : Nat} (hi : s.threads[i]? = some (.writer fd .start)) (hfree : (s.entry fd).fastmutex = false) :
      Move s i ((s.setMutex fd true).setThread i (.writer fd .locked))
  | writerWrite {fd : Nat} (hi : s.threads[i]? = some (.writer fd .locked)) :
      Move s i ((s.writeFile (s.entry fd).fd
        (slice (s.entry fd).cache (s.entry fd).currentWriteCount.toNat (s.writerChunk fd).toNat)).setThread i
          (.writer fd (.written (s.writerChunk fd))))
  | writerAdvance {fd : Nat} {n : CInt} (hi : s.threads[i]? = some (.writer fd (.written n))) :
      Move s i ((s.setEntry fd { s.entry fd with
        currentWriteCount := (s.entry fd).currentWriteCount + uint64OfInt n }).setThread i (.writer fd .advanced))
  | writerUnlock {fd : Nat} (hi : s.threads[i]? = some (.writer fd .advanced)) :
      Move s i ((s.setMutex fd false).setThread i (.writer fd .ended))
  | readerLock {k : Key} {fd : Nat} (hi : s.threads[i]? = some (.reader k fd .start))
      (hfree : (s.entry fd).fastmutex = false) :
      Move s i ((s.setMutex fd true).setThread i (.reader k fd .locked))
  | readerReceive {k : Key} {fd : Nat} {m : Message} (hi : s.threads[i]? = some (.reader k fd .locked))
      (hm : s.aq.find? (·.key = k) = some m) :
      Move s i { s.storeSread i k fd m.count
        ((s.sreadState fd ⟨m.count, 0, 0, ibvioChunkSize⟩).fill (s.files fd).content) with
          aq := s.aq.eraseP (·.key = k) }
  | readerSend {k : Key} {fd : Nat} {r : ReadLocals} (hi : s.threads[i]? = some (.reader k fd (.sending r)))
      (hlt : r.currentSendSize.slt r.count = true) :
      Move s i (s.storeSread i k fd r.count ((s.sreadState fd r).turn (s.files fd).content r.count))
  | readerUnlock {k : Key} {fd : Nat} {r : ReadLocals} (hi : s.threads[i]? = some (.reader k fd (.sending r)))
      (hlt : r.currentSendSize.slt r.count = false) :
      Move s i ((s.setMutex fd false).setThread i (.reader k fd .ended))

variable {s s' : Server}

/-! ## What handlers leave alone -/

@[simp] theorem sclose_aq (m : Message) : (s.sclose m).aq = s.aq := by
  unfold sclose
  split <;> rfl

@[simp] theorem sclose_pc (m : Message) : (s.sclose m).pc = s.pc := by
  unfold sclose
  split <;> rfl

@[simp] theorem sclose_threads (m : Message) : (s.sclose m).threads = s.threads := by
  unfold sclose
  split <;> rfl

@[simp] theorem sclose_arrived (m : Message) : (s.sclose m).arrived = s.arrived := by
  unfold sclose
  split <;> rfl

/-! ## Inversion -/

theorem dispatch_cases {m : Message} {aq : List Message} {env : Env} (hpc : s.pc = .probe) (haq : s.aq = m :: aq)
    (h : s.dispatch m aq env = some s') : Turn s env s' := by
  unfold dispatch at h
  by_cases hopen : m.op = opOpen
  · rw [if_pos hopen] at h
    split at h
    · rename_i hfd
      obtain rfl := Option.some.inj h
      exact .sopen hpc haq hopen hfd.1 hfd.2
    · cases h
  rw [if_neg hopen] at h
  by_cases hwrite : m.op = opWrite
  · rw [if_pos hwrite] at h
    obtain rfl := Option.some.inj h
    exact .swrite hpc haq hwrite
  rw [if_neg hwrite] at h
  by_cases hbegin : m.op = opWriteBegin
  · rw [if_pos hbegin] at h
    obtain rfl := Option.some.inj h
    exact .swriteBegin hpc haq hbegin
  rw [if_neg hbegin] at h
  by_cases hchunk : m.op = opWriteChunk
  · rw [if_pos hchunk] at h
    obtain rfl := Option.some.inj h
    exact .swriteChunk hpc haq hchunk
  rw [if_neg hchunk] at h
  by_cases hread : m.op = opRead
  · rw [if_pos hread] at h
    obtain rfl := Option.some.inj h
    exact .sread hpc haq hread
  rw [if_neg hread] at h
  by_cases hclose : m.op = opClose
  · rw [if_pos hclose] at h
    obtain rfl := Option.some.inj h
    exact .sclose hpc haq hclose
  rw [if_neg hclose] at h
  obtain rfl := Option.some.inj h
  exact .noop hpc haq (by simp [hopen, hwrite, hbegin, hchunk, hread, hclose])

theorem turn_cases {env : Env} (h : s.turn env = some s') : Turn s env s' := by
  unfold turn at h
  split at h
  · rename_i hpc
    split at h
    · cases h
    · rename_i m aq haq
      exact dispatch_cases hpc haq h
  · rename_i k fd w hpc
    split at h
    · rename_i hlt
      obtain ⟨m, hm, rfl⟩ := Option.map_eq_some_iff.mp h
      exact .swriteTurn hpc hlt hm
    · rename_i hlt
      obtain rfl := Option.some.inj h
      exact .swriteEnd hpc (Bool.eq_false_iff.mpr hlt)
  · rename_i k fd hpc
    split at h
    · rename_i hcount
      obtain rfl := Option.some.inj h
      exact .complete hpc hcount
    · cases h

theorem writerStep_cases {i fd : Nat} {pc : WriterPc} (hi : s.threads[i]? = some (.writer fd pc))
    (h : s.writerStep i fd pc = some s') : Move s i s' := by
  cases pc with
  | start =>
    rw [writerStep] at h
    split at h
    · cases h
    · rename_i hfree
      obtain rfl := Option.some.inj h
      exact .writerLock hi (Bool.eq_false_iff.mpr hfree)
  | locked =>
    obtain rfl := Option.some.inj h
    exact .writerWrite hi
  | written n =>
    obtain rfl := Option.some.inj h
    exact .writerAdvance hi
  | advanced =>
    obtain rfl := Option.some.inj h
    exact .writerUnlock hi
  | ended => cases h

theorem readerStep_cases {i fd : Nat} {k : Key} {pc : ReaderPc} (hi : s.threads[i]? = some (.reader k fd pc))
    (h : s.readerStep i k fd pc = some s') : Move s i s' := by
  cases pc with
  | start =>
    rw [readerStep] at h
    split at h
    · cases h
    · rename_i hfree
      obtain rfl := Option.some.inj h
      exact .readerLock hi (Bool.eq_false_iff.mpr hfree)
  | locked =>
    obtain ⟨m, hm, rfl⟩ := Option.map_eq_some_iff.mp h
    exact .readerReceive hi hm
  | sending r =>
    rw [readerStep] at h
    split at h
    · rename_i hlt
      obtain rfl := Option.some.inj h
      exact .readerSend hi hlt
    · rename_i hlt
      obtain rfl := Option.some.inj h
      exact .readerUnlock hi (Bool.eq_false_iff.mpr hlt)
  | ended => cases h

theorem threadStep_cases {i : Nat} (h : s.threadStep i = some s') : Move s i s' := by
  unfold threadStep at h
  split at h
  · cases h
  · rename_i fd pc hi
    exact writerStep_cases hi h
  · rename_i k fd pc hi
    exact readerStep_cases hi h

/-! ## Single steps -/

/-- The next message arrives. -/
def receive (s : Server) (m : Message) : Server := { s with aq := s.aq ++ [m], arrived := s.arrived ++ [m] }

theorem step_arrive (s : Server) (m : Message) : s.step (.arrive m) = some (s.receive m) := rfl

theorem aq_receive (h : s.aq = []) (m : Message) : (s.receive m).aq = [m] := by
  rw [receive, h, List.nil_append]

theorem turn_probe {m : Message} {aq : List Message} {env : Env} (hpc : s.pc = .probe) (haq : s.aq = m :: aq) :
    s.turn env = s.dispatch m aq env := by
  simp only [turn, hpc, haq]

theorem dispatch_chunk {m : Message} {env : Env} (s : Server) (aq : List Message) (hop : m.op = opWriteChunk) :
    s.dispatch m aq env = some ({ s with aq := aq }.swriteChunk m) := by
  rw [dispatch, hop]
  rfl

theorem dispatch_begin {m : Message} (s : Server) (aq : List Message) (env : Env) (hop : m.op = opWriteBegin) :
    s.dispatch m aq env = some (({ s with aq := aq } : Server).swriteBegin m) := by
  rw [dispatch, hop]
  rfl

theorem dispatch_write {m : Message} (s : Server) (aq : List Message) (env : Env) (hop : m.op = opWrite) :
    s.dispatch m aq env = some (({ s with aq := aq } : Server).goto
      (.swrite m.key m.fd (.start m.count env.writeSize env.writeChunkSize))) := by
  rw [dispatch, hop]
  rfl

/-! ## Runs -/

def Reached (s : Server) : Prop := ∃ es, Path Server.step (fun _ _ => True) .init es s

theorem Reached.step (h : s.Reached) {e : ServerEvent} (hstep : s.step e = some s') : s'.Reached := by
  obtain ⟨es, hpath⟩ := h
  exact ⟨es ++ [e], hpath.append (.cons trivial hstep (.nil s'))⟩

/-! ## What chunks and threads leave alone -/

theorem swriteChunk_threads (s : Server) (m : Message) :
    (s.swriteChunk m).threads = s.threads ++ [.writer m.fd .start] := by
  simp only [swriteChunk, goto, runThread, emit, setEntry]

theorem swriteChunk_pc (s : Server) (m : Message) : (s.swriteChunk m).pc =
    if ((s.swriteChunk m).entry m.fd).currentRecvSize = ((s.swriteChunk m).entry m.fd).writeCount then .await m.key m.fd
    else .probe := by
  simp only [swriteChunk, goto, runThread, emit, entry, setEntry, Function.update_self]

theorem swriteChunk_aq (s : Server) (m : Message) : (s.swriteChunk m).aq = s.aq := by
  simp only [swriteChunk, goto, runThread, emit, setEntry]

theorem swriteChunk_entries (s : Server) (m : Message) :
    (s.swriteChunk m).entries = Function.update s.entries m.fd (s.chunkEntry m) := by
  simp only [swriteChunk, goto, Server.runThread, emit, setEntry]

theorem swriteChunk_trace (s : Server) (m : Message) : (s.swriteChunk m).trace = s.trace ++
    [.receive m.fd (s.entry m.fd).currentRecvSize.toNat
      (serverChunk (s.entry m.fd).currentRecvSize (s.entry m.fd).writeCount)] := by
  simp only [swriteChunk, goto, Server.runThread, emit, setEntry]

theorem Turn.getElem?_threads {env : Env} {i : Nat} {t : Thread} (h : Turn s env s') (hi : s.threads[i]? = some t) :
    s'.threads[i]? = some t := by
  have happend : ∀ u : Thread, (s.threads ++ [u])[i]? = some t := fun u => by
    rw [List.getElem?_append_left (List.getElem?_eq_some_iff.mp hi).1, hi]
  cases h with
  | swriteChunk =>
    rw [swriteChunk_threads]
    exact happend _
  | sread => exact happend _
  | sclose =>
    rw [sclose_threads]
    exact hi
  | sopen | swrite | swriteBegin | noop | swriteTurn | swriteEnd | complete => exact hi

theorem Move.getElem?_threads_of_ne {i j : Nat} (h : Move s i s') (hne : i ≠ j) : s'.threads[j]? = s.threads[j]? := by
  cases h <;> exact List.getElem?_set_ne hne

theorem Move.pc_eq {i : Nat} (h : Move s i s') : s'.pc = s.pc := by
  cases h <;> rfl

end Server

end Libibtl.Ibio
