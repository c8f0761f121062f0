import Libibtl.Ibio.Reading
import Libibtl.Ibio.Routing

/-! # The file server

The main loop probes for a message and serves it, except for a read: a read gets a
detached thread, and this thread receives the request only when it has locked the
mutex of its file. Every chunk of a write gets a detached thread as well. The state
below has the program counter of the main loop and the list of all threads that were
ever started, and any of them may take the next step.
-/

namespace Libibtl.Ibio

open Foundation

/-! ## Messages -/

/-- Source and tag, by which a receive selects its message. -/
abbrev Key := CInt × CInt

/-- A message to the server. `count` is what a handler finds in it as a `struct ibvio_open`. -/
structure Message where
  source : CInt
  tag : CInt
  count : CInt
  chunk : Chunk

namespace Message

def key (m : Message) : Key := (m.source, m.tag)

def op (m : Message) : CInt := (deserializeTag m.tag).1

def fd (m : Message) : Nat := (deserializeTag m.tag).2.toNat

end Message

/-- What the server sends. The `struct ibvio_open` that completes a write is not initialised. -/
inductive ReplyBody
  | opened (fd : Nat)
  | completed
  | closed (stat : CInt)
  | chunk (c : Chunk)

/-- What the server does to the outside: the receives it posts for chunks, the calls of `write` and the messages. -/
inductive Output
  | receive (fd offset : Nat) (n : CInt)
  | write (fd : Nat) (data : List Byte)
  | reply (k : Key) (body : ReplyBody)

/-! ## Files -/

/-- The members of `struct ibvio_sopen_info` that the handlers use, with the cache behind `file_info`. -/
structure Entry where
  fd : Nat
  writeCount : UInt64T
  currentWriteCount : UInt64T
  currentRecvSize : UInt64T
  fastmutex : Bool
  cache : Buffer

structure File where
  content : List Byte
  offset : Nat

/-- `write` at the offset of the file, which writes everything that it is given. -/
def File.write (f : File) (data : List Byte) : File where
  content := f.content.take f.offset ++ data ++ f.content.drop (f.offset + data.length)
  offset := f.offset + data.length

/-! ## Direct writes -/

/-- The locals of `ibvio_swrite`. -/
structure Swrite where
  count : CInt
  currentRecvSize : CInt
  chunkSize : CInt
  writeSize : CInt
  writeChunkSize : CInt
  deriving DecidableEq, Repr

namespace Swrite

/-- The locals after the request was received; two of them are not initialised. -/
def start (count writeSize writeChunkSize : CInt) : Swrite := ⟨count, 0, ibvioChunkSize, writeSize, writeChunkSize⟩

/-- The bytes from `cache + write_size` on; `heap` is the memory below the cache. -/
def pending (w : Swrite) (cache : Buffer) (heap : Int → Byte) : List Byte :=
  (List.range w.writeChunkSize.toNat).map fun i =>
    if 0 ≤ w.writeSize.toInt + i then cache (w.writeSize.toInt + i).toNat else heap (w.writeSize.toInt + i)

/-- The cache when the chunk `c` was received. -/
def receive (w : Swrite) (cache : Buffer) (c : Chunk) : Buffer :=
  memcpy cache w.currentRecvSize.toNat c.data 0
    (recvLength (handlerChunk w.currentRecvSize w.chunkSize w.count) c.length)

/-- The cache while the receive is pending: `landed` says which bytes of the chunk are there already. -/
def receiving (w : Swrite) (cache : Buffer) (c : Chunk) (landed : Nat → Bool) : Buffer := fun i =>
  if landed i then w.receive cache c i else cache i

/-- The bytes that are written while the chunk `c` is received, if any. -/
def writes (w : Swrite) (cache : Buffer) (heap : Int → Byte) (c : Chunk) (landed : Nat → Bool) : Option (List Byte) :=
  if (0 : CInt).slt w.currentRecvSize then some (w.pending (w.receiving cache c landed) heap) else none

/-- The locals after one turn of the loop. -/
def turn (w : Swrite) : Swrite :=
  let chunk := handlerChunk w.currentRecvSize w.chunkSize w.count
  { count := w.count
    currentRecvSize := w.currentRecvSize + chunk
    chunkSize := chunk
    writeSize := if (0 : CInt).slt w.currentRecvSize then w.writeSize + w.writeChunkSize else w.writeSize
    writeChunkSize := chunk }

end Swrite

/-! ## State -/

inductive WriterPc
  | start
  | locked
  | written (n : CInt)
  | advanced
  | ended
  deriving DecidableEq, Repr

/-- The locals of `ibvio_sread` once the request is received. -/
structure ReadLocals where
  count : CInt
  readSize : CInt
  currentSendSize : CInt
  chunk : CInt
  deriving DecidableEq, Repr

inductive ReaderPc
  | start
  | locked
  | sending (r : ReadLocals)
  | ended
  deriving DecidableEq, Repr

/-- The threads: `ibvio_swrite_chunk_thread` with the file, `ibvio_sread_thread` with the probed message and the file. -/
inductive Thread
  | writer (fd : Nat) (pc : WriterPc)
  | reader (k : Key) (fd : Nat) (pc : ReaderPc)
  deriving DecidableEq, Repr

/-- The main loop: probing, inside of `ibvio_swrite`, or waiting in `ibvio_swrite_chunk` for the writers. -/
inductive MainPc
  | probe
  | swrite (k : Key) (fd : Nat) (w : Swrite)
  | await (k : Key) (fd : Nat)
  deriving DecidableEq, Repr

/-- `arrived` holds all messages that ever came, `trace` all that the server did. -/
structure Server where
  entries : Nat → Entry
  opened : List Nat
  files : Nat → File
  aq : List Message
  pc : MainPc
  threads : List Thread
  arrived : List Message
  trace : List Output

/-- What a step of the main loop takes from outside: the descriptor and the file that `open` gives, the memory that
`malloc` gives, locals that are not initialised, the memory below the cache and the bytes that have landed already. -/
structure Env where
  fd : Nat
  content : List Byte
  memory : Buffer
  writeSize : CInt
  writeChunkSize : CInt
  heap : Int → Byte
  landed : Nat → Bool

inductive ServerEvent
  | arrive (m : Message)
  | turn (env : Env)
  | thread (i : Nat)

namespace Server

def entry (s : Server) (fd : Nat) : Entry := s.entries fd

def setEntry (s : Server) (fd : Nat) (e : Entry) : Server := { s with entries := Function.update s.entries fd e }

def emit (s : Server) (l : List Output) : Server := { s with trace := s.trace ++ l }

def writeFile (s : Server) (fd : Nat) (data : List Byte) : Server :=
  { s with files := Function.update s.files fd ((s.files fd).write data), trace := s.trace ++ [.write fd data] }

def runThread (s : Server) (t : Thread) : Server := { s with threads := s.threads ++ [t] }

def setThread (s : Server) (i : Nat) (t : Thread) : Server := { s with threads := s.threads.set i t }

def goto (s : Server) (pc : MainPc) : Server := { s with pc := pc }

def setMutex (s : Server) (fd : Nat) (b : Bool) : Server := s.setEntry fd { s.entry fd with fastmutex := b }

/-! ## Handlers -/

def sopen (s : Server) (m : Message) (env : Env) : Server :=
  { s with
    entries := Function.update s.entries env.fd ⟨env.fd, 0, 0, 0, false, env.memory⟩
    opened := env.fd :: s.opened
    files := Function.update s.files env.fd ⟨env.content, 0⟩
    trace := s.trace ++ [.reply m.key (.opened env.fd)] }

def swriteBegin (s : Server) (m : Message) : Server :=
  s.setEntry m.fd { s.entry m.fd with writeCount := uint64OfInt m.count, currentRecvSize := 0, currentWriteCount := 0 }

/-- The entry after the chunk in `m` was received. -/
def chunkEntry (s : Server) (m : Message) : Entry :=
  let e := s.entry m.fd
  let n := serverChunk e.currentRecvSize e.writeCount
  { e with
    cache := memcpy e.cache e.currentRecvSize.toNat m.chunk.data 0 (recvLength n m.chunk.length)
    currentRecvSize := e.currentRecvSize + uint64OfInt n }

/-- The receive in `ibvio_swrite_chunk` and the start of the writer; after the last chunk the writers are awaited. -/
def swriteChunk (s : Server) (m : Message) : Server :=
  let e := s.entry m.fd
  let e' := s.chunkEntry m
  (((s.setEntry m.fd e').emit
      [.receive m.fd e.currentRecvSize.toNat (serverChunk e.currentRecvSize e.writeCount)]).runThread
    (.writer m.fd .start)).goto (if e'.currentRecvSize = e'.writeCount then .await m.key m.fd else .probe)

/-- The close of an open file. The `memset` has the size of `struct ibvio_open`, so it also clears the members from
`fd` to `fastmutex` of the next entry. -/
def sclose (s : Server) (m : Message) : Server :=
  if m.fd ∈ s.opened then
    { s with
      entries := Function.update
        (Function.update s.entries (m.fd + 1) ⟨0, 0, 0, 0, false, (s.entry (m.fd + 1)).cache⟩)
        m.fd ⟨0, 0, 0, 0, false, (s.entry m.fd).cache⟩
      opened := s.opened.erase m.fd
      trace := s.trace ++ [.reply m.key (.closed 0)] }
  else s.emit [.reply m.key (.closed (-1))]

/-- One message at the head of `aq`. Reads and unknown operations do not receive it. -/
def dispatch (s : Server) (m : Message) (aq : List Message) (env : Env) : Option Server :=
  let s' := { s with aq := aq }
  if m.op = opOpen then
    if env.fd ∉ s.opened ∧ env.fd < maxHostIds then some (s'.sopen m env) else none
  else if m.op = opWrite then
    some (s'.goto (.swrite m.key m.fd (.start m.count env.writeSize env.writeChunkSize)))
  else if m.op = opWriteBegin then some (s'.swriteBegin m)
  else if m.op = opWriteChunk then some (s'.swriteChunk m)
  else if m.op = opRead then some (s.runThread (.reader m.key m.fd .start))
  else if m.op = opClose then some (s'.sclose m)
  else some s

/-- A turn inside of `ibvio_swrite` that receives the chunk `m`. -/
def swriteTurn (s : Server) (k : Key) (fd : Nat) (w : Swrite) (m : Message) (env : Env) : Server :=
  let e := s.entry fd
  let data := w.writes e.cache env.heap m.chunk env.landed
  { s with
    aq := s.aq.eraseP (·.key = k)
    entries := Function.update s.entries fd { e with cache := w.receive e.cache m.chunk }
    files := Function.update s.files fd (data.elim (s.files fd) (s.files fd).write)
    pc := .swrite k fd w.turn
    trace := s.trace ++ data.toList.map (.write fd) }

/-- The end of `ibvio_swrite`. -/
def swriteEnd (s : Server) (k : Key) (fd : Nat) (w : Swrite) (env : Env) : Server :=
  ((s.writeFile fd (w.pending (s.entry fd).cache env.heap)).emit [.reply k .completed]).goto .probe

/-- A step of the main loop. With an empty `aq`, or while it waits for a chunk or for the writers, it has none. -/
def turn (s : Server) (env : Env) : Option Server :=
  match s.pc with
  | .probe =>
    match s.aq with
    | [] => none
    | m :: aq => s.dispatch m aq env
  | .swrite k fd w =>
    if w.currentRecvSize.slt w.count then (s.aq.find? (·.key = k)).map (s.swriteTurn k fd w · env)
    else some (s.swriteEnd k fd w env)
  | .await k fd =>
    if (s.entry fd).currentWriteCount = (s.entry fd).writeCount then some ((s.emit [.reply k .completed]).goto .probe)
    else none

/-! ## Threads -/

/-- The size that a writer computes when it has the mutex. -/
def writerChunk (s : Server) (fd : Nat) : CInt := serverChunk (s.entry fd).currentWriteCount (s.entry fd).writeCount

def writerStep (s : Server) (i fd : Nat) : WriterPc → Option Server
  | .start =>
    if (s.entry fd).fastmutex then none else some ((s.setMutex fd true).setThread i (.writer fd .locked))
  | .locked =>
    let e := s.entry fd
    some ((s.writeFile e.fd (slice e.cache e.currentWriteCount.toNat (s.writerChunk fd).toNat)).setThread i
      (.writer fd (.written (s.writerChunk fd))))
  | .written n =>
    let e := s.entry fd
    some ((s.setEntry fd { e with currentWriteCount := e.currentWriteCount + uint64OfInt n }).setThread i
      (.writer fd .advanced))
  | .advanced => some ((s.setMutex fd false).setThread i (.writer fd .ended))
  | .ended => none

/-- The locals and the cache of a reader, as the state of the loop of `ibvio_sread`. -/
def sreadState (s : Server) (fd : Nat) (r : ReadLocals) : Sread :=
  ⟨(s.entry fd).cache, (s.files fd).offset, r.readSize, r.currentSendSize, r.chunk, []⟩

/-- The state after a step of that loop, with what it sent. -/
def storeSread (s : Server) (i : Nat) (k : Key) (fd : Nat) (count : CInt) (l : Sread) : Server :=
  { s with
    entries := Function.update s.entries fd { s.entry fd with cache := l.cache }
    files := Function.update s.files fd { s.files fd with offset := l.offset }
    threads := s.threads.set i (.reader k fd (.sending ⟨count, l.readSize, l.currentSendSize, l.chunk⟩))
    trace := s.trace ++ l.sent.map fun c => .reply k (.chunk c) }

def readerStep (s : Server) (i : Nat) (k : Key) (fd : Nat) : ReaderPc → Option Server
  | .start =>
    if (s.entry fd).fastmutex then none else some ((s.setMutex fd true).setThread i (.reader k fd .locked))
  | .locked =>
    -- irecv selects the first message with the key of the probed one
    (s.aq.find? (·.key = k)).map fun m =>
      let l := (s.sreadState fd ⟨m.count, 0, 0, ibvioChunkSize⟩).fill (s.files fd).content
      { s.storeSread i k fd m.count l with aq := s.aq.eraseP (·.key = k) }
  | .sending r =>
    if r.currentSendSize.slt r.count then
      some (s.storeSread i k fd r.count ((s.sreadState fd r).turn (s.files fd).content r.count))
    else some ((s.setMutex fd false).setThread i (.reader k fd .ended))
  | .ended => none

def threadStep (s : Server) (i : Nat) : Option Server :=
  match s.threads[i]? with
  | none => none
  | some (.writer fd pc) => s.writerStep i fd pc
  | some (.reader k fd pc) => s.readerStep i k fd pc

def step (s : Server) : ServerEvent → Option Server
  | .arrive m => some { s with aq := s.aq ++ [m], arrived := s.arrived ++ [m] }
  | .turn env => s.turn env
  | .thread i => s.threadStep i

/-- The server before the first message. -/
def init : Server where
  entries _ := ⟨0, 0, 0, 0, false, fun _ => 0⟩
  opened := []
  files _ := ⟨[], 0⟩
  aq := []
  pc := .probe
  threads := []
  arrived := []
  trace := []

end Server

end Libibtl.Ibio
