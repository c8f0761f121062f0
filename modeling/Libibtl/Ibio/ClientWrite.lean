import Libibtl.Ibio.OtherFiles

/-! # One write of a client

`ibtl_write` sends the count, then the chunks one after the other, and waits for the
reply. The run below has the requests that have not arrived yet beside the server;
requests on other files may come in between.
-/

namespace Libibtl.Ibio

open Foundation

/-! ## The client -/

/-- `WRITE_BEGIN`, with the count in a `struct ibvio_open`. -/
def beginMessage (source : CInt) (fd : Nat) (count : UInt64T) : Message where
  source := source
  tag := serializeTag opWriteBegin (BitVec.ofNat 32 fd)
  count := intOfUint64 count
  chunk := ⟨0, fun _ => 0⟩

/-- The tag of all chunks of a file. -/
def chunkKey (source : CInt) (fd : Nat) : Key := (source, serializeTag opWriteChunk (BitVec.ofNat 32 fd))

/-- `WRITE_CHUNK`, with `n` bytes from the offset `off` of the buffer. -/
def chunkMessage (source : CInt) (fd : Nat) (buf : Buffer) (off n : CInt) : Message where
  source := source
  tag := serializeTag opWriteChunk (BitVec.ofNat 32 fd)
  count := 0
  chunk := ⟨n, fun i => buf (off.toNat + i)⟩

/-- The requests of `ibtl_write`; `none` when its loop does not end. -/
def ibtlWrite (source : CInt) (fd : Nat) (buf : Buffer) (count : UInt64T) : Option (List Message) :=
  (clientChunks count).map fun cuts =>
    beginMessage source fd count :: cuts.map fun c => chunkMessage source fd buf c.1 c.2

section Tags

variable {fd : Nat} (source : CInt)

theorem deserializeTag_of_lt {op : CInt} (hop : op &&& 0xffff = op) (hfd : fd < maxHostIds) :
    deserializeTag (serializeTag op (BitVec.ofNat 32 fd)) = (op, BitVec.ofNat 32 fd) := by
  rw [maxHostIds] at hfd
  rw [deserializeTag_serializeTag, hop, and_mask (by omega)]

theorem toNat_ofNat_fd (hfd : fd < maxHostIds) : (BitVec.ofNat 32 fd).toNat = fd := by
  rw [maxHostIds] at hfd
  rw [BitVec.toNat_ofNat, Nat.mod_eq_of_lt (by omega)]

theorem beginMessage_op (count : UInt64T) (hfd : fd < maxHostIds) : (beginMessage source fd count).op = opWriteBegin := by
  rw [Message.op, beginMessage, deserializeTag_of_lt (by decide) hfd]

theorem beginMessage_fd (count : UInt64T) (hfd : fd < maxHostIds) : (beginMessage source fd count).fd = fd := by
  rw [Message.fd, beginMessage, deserializeTag_of_lt (by decide) hfd, toNat_ofNat_fd hfd]

variable (buf : Buffer) (off n : CInt)

theorem chunkMessage_op (hfd : fd < maxHostIds) : (chunkMessage source fd buf off n).op = opWriteChunk := by
  rw [Message.op, chunkMessage, deserializeTag_of_lt (by decide) hfd]

theorem chunkMessage_fd (hfd : fd < maxHostIds) : (chunkMessage source fd buf off n).fd = fd := by
  rw [Message.fd, chunkMessage, deserializeTag_of_lt (by decide) hfd, toNat_ofNat_fd hfd]

theorem chunkKey_fd (hfd : fd < maxHostIds) : (chunkKey source fd).fd = fd := by
  rw [Key.fd, chunkKey, deserializeTag_of_lt (by decide) hfd, toNat_ofNat_fd hfd]

end Tags

/-! ## The run -/

/-- The server and the requests that the client has not sent yet. -/
structure WriteRun where
  server : Server
  todo : List Message

inductive WriteEvent
  | send
  | server (e : ServerEvent)

namespace WriteRun

def step (w : WriteRun) : WriteEvent → Option WriteRun
  | .send =>
    match w.todo with
    | [] => none
    | m :: todo => some ⟨w.server.receive m, todo⟩
  | .server e => (w.server.step e).map fun s => ⟨s, w.todo⟩

/-- Nothing else arrives for the file, and no close is served meanwhile. -/
def Alone (fd : Nat) (w : WriteRun) : WriteEvent → Prop
  | .server (.arrive m) => m.requests fd = false
  | .server (.turn _) => w.server.pc = .probe → ∀ m ∈ w.server.aq.head?, m.op ≠ opClose
  | _ => True

end WriteRun

/-! ## The file before the write -/

namespace Server

/-- No close is served in this step. -/
def NoClose (s : Server) : ServerEvent → Prop
  | .turn _ => s.pc = .probe → ∀ m ∈ s.aq.head?, m.op ≠ opClose
  | _ => True

/-- The file was opened, and no close was served since. -/
def Open (fd : Nat) (s : Server) : Prop :=
  ∃ (s₀ s₁ : Server) (m : Message) (aq : List Message) (env : Env) (es : List ServerEvent),
    s₀.Reached ∧ s₀.pc = .probe ∧ s₀.aq = m :: aq ∧ m.op = opOpen ∧ env.fd = fd ∧ s₀.step (.turn env) = some s₁ ∧
    Path Server.step NoClose s₁ es s

/-- No request on the file is queued or worked on. -/
structure Ready (fd : Nat) (s : Server) : Prop where
  opened : s.Open fd
  resting : (s.view fd).Resting
  requests : s.requests fd = []
  main : ¬ s.pc.on fd

/-- What stays of an open. -/
structure Opened (fd : Nat) (s : Server) : Prop where
  orderly : s.Orderly
  mem : fd ∈ s.opened
  lt : fd < maxHostIds
  name : (s.entry fd).fd = fd

variable {s s' : Server} {fd : Nat} {e : ServerEvent}

theorem Reached.orderly (h : s.Reached) : s.Orderly := by
  obtain ⟨es, hpath⟩ := h
  exact hpath.invariant (fun s e t h _ hstep => h.step hstep) orderly_init

theorem Turn.opened {env : Env} (h : Turn s env s') (hclose : s.NoClose (.turn env)) (hfd : fd ∈ s.opened) :
    fd ∈ s'.opened ∧ (s'.entry fd).fd = (s.entry fd).fd := by
  cases h with
  | sopen hpc haq hop hfresh hlt =>
    have hne : fd ≠ env.fd := fun heq => hfresh (heq ▸ hfd)
    refine ⟨List.mem_cons_of_mem _ hfd, ?_⟩
    simp [Server.sopen, entry, hne]
  | swriteBegin hpc haq hop => exact ⟨hfd, update_fd rfl (by rfl) fd⟩
  | @swriteChunk m aq hpc haq hop =>
    constructor
    · simpa only [Server.swriteChunk, goto, Server.runThread, emit, setEntry] using hfd
    · exact update_fd (s := { s with aq := aq }) (swriteChunk_entries _ m) (chunkEntry_fd _ m) fd
  | sclose hpc haq hop =>
    refine absurd hop (hclose hpc _ ?_)
    rw [haq]
    rfl
  | swriteTurn hpc hlt hm => exact ⟨hfd, update_fd (swriteTurn_entries ..) (by rfl) fd⟩
  | swrite | sread | noop | swriteEnd | complete => exact ⟨hfd, rfl⟩

theorem Move.opened {i : Nat} (h : Move s i s') : s'.opened = s.opened ∧ (s'.entry fd).fd = (s.entry fd).fd := by
  cases h with
  | writerWrite => exact ⟨rfl, rfl⟩
  | writerLock | writerAdvance | writerUnlock | readerLock | readerUnlock => exact ⟨rfl, update_fd rfl (by rfl) fd⟩
  | @readerReceive k g m => exact ⟨rfl, update_fd (storeSread_entries s i k g m.count _) (by rfl) fd⟩
  | @readerSend k g r => exact ⟨rfl, update_fd (storeSread_entries s i k g r.count _) (by rfl) fd⟩

theorem Opened.step (h : s.Opened fd) (hclose : s.NoClose e) (hstep : s.step e = some s') : s'.Opened fd := by
  have horderly := h.orderly.step hstep
  cases e with
  | arrive m =>
    cases hstep
    exact ⟨horderly, h.mem, h.lt, h.name⟩
  | turn env =>
    obtain ⟨hmem, hname⟩ := (turn_cases hstep).opened hclose h.mem
    exact ⟨horderly, hmem, h.lt, hname.trans h.name⟩
  | thread i =>
    have hkeeps : s'.opened = s.opened ∧ (s'.entry fd).fd = (s.entry fd).fd := (threadStep_cases hstep).opened
    obtain ⟨hopened, hname⟩ := hkeeps
    exact ⟨horderly, hopened ▸ h.mem, h.lt, hname.trans h.name⟩

theorem step_sopen {m : Message} {aq : List Message} {env : Env} (hpc : s.pc = .probe) (haq : s.aq = m :: aq)
    (hop : m.op = opOpen) (hstep : s.step (.turn env) = some s') :
    env.fd ∈ s'.opened ∧ env.fd < maxHostIds ∧ s'.entry env.fd = ⟨env.fd, 0, 0, 0, false, env.memory⟩ := by
  rw [step, turn_probe hpc haq, dispatch, if_pos hop] at hstep
  split at hstep
  · rename_i hfd
    cases hstep
    exact ⟨List.mem_cons_self .., hfd.2, Function.update_self ..⟩
  · cases hstep

theorem Open.opened (h : s.Open fd) : s.Opened fd := by
  obtain ⟨s₀, s₁, m, aq, env, es, hreached, hpc, haq, hop, rfl, hstep, hpath⟩ := h
  obtain ⟨hmem, hlt, hentry⟩ := step_sopen hpc haq hop hstep
  apply hpath.invariant fun s e t h hclose hst => h.step hclose hst
  exact ⟨hreached.orderly.step hstep, hmem, hlt, by rw [hentry]⟩

end Server

end Libibtl.Ibio
