import Libibtl.Pgz.Deflate
import Libibtl.Pgz.Format
import Libibtl.Pgz.Jobs
import Libibtl.Pgz.Spaces

/-! # The threads of the compressor

The main thread cuts the input into jobs and appends them to a list. Compress threads
pull jobs from this list and insert them, compressed, into the list of the write thread.
The write thread writes them in the order of their sequence numbers. A step of a thread
is what it does with one lock, and with what belongs to it alone.
-/

namespace Libibtl.Pgz

open Foundation CheckLib

/-- What does not change while the program compresses: the options, the globals of headers and trailers, the
compression library and the greatest number of compress threads. -/
structure Program where
  opt : Options
  header : Header
  lib : CheckLib
  codec : Codec
  procs : Nat

/-- `INBUFS(p)`. -/
def inBufs (p : Nat) : Nat := 2 * p + 3

/-- `OUTPOOL(s)`. -/
def outPoolSize (s : Nat) : Nat := s + s / 16

/-- The limits of the pools that `setup_jobs` makes. -/
def Program.limit (P : Program) : PoolName → Option Nat
  | .inPool => some (inBufs P.procs)
  | _ => none

/-- `struct job`. `out` is the dictionary, and then the result. -/
structure JobCell where
  seq : Nat
  more : Bool
  input : Space
  out : Option Space
  lens : Option Space

/-- The variables of the main thread between two turns of its loop. -/
structure Vars where
  offset : Nat
  seq : Nat
  next : Space
  hold : Option Space
  dict : Option Space
  scan : Nat
  hash : UInt32T
  left : Nat

/-- The main thread: before its first buffer, at the top of the loop, with the buffer that follows, with the block
lengths, with the input of the job, with the dictionary for the next job, behind the loop, and waiting for the write
thread. `collect` is the wait of `finish_jobs` for the compress threads. -/
inductive Main
  | start
  | top (v : Vars)
  | fed (v : Vars) (curr : Space)
  | scanned (v : Vars) (curr : Space) (c : Cut) (lens : Option Space)
  | filled (v : Vars) (curr : Space) (lens : Option Space)
  | ready (v : Vars) (job : JobCell)
  | last (next : Space)
  | join
  | returned
  | collect
  | finished

/-- A compress thread: waiting for a job, with a job, with its dictionary read, with the result, without the block
lengths, with the input reserved, with the job in the write list, with the check value, and returned. -/
inductive Worker (S : Type)
  | idle (strm : S)
  | got (strm : S) (job : JobCell)
  | fresh (strm : S) (job : JobCell) (dict : Option (List Byte))
  | compressed (strm : S) (job : JobCell)
  | released (strm : S) (job : JobCell)
  | reserved (strm : S) (job : JobCell)
  | listed (strm : S) (seq : Nat) (input : Space)
  | checked (strm : S) (seq : Nat) (check : ULong)
  | exited

def Worker.isExited {S : Type} : Worker S → Bool
  | .exited => true
  | _ => false

/-- The variables of the write thread between two turns of its loop. -/
structure Sums where
  seq : Nat
  head : ULong
  ulen : ULong
  clen : ULong
  check : ULong

/-- The write thread: before the header, waiting for a job, with a job, with its result written, without its buffers,
behind the loop, behind the trailer, behind the first check, and returned. -/
inductive Writer
  | header
  | wait (v : Sums)
  | took (v : Sums) (job : JobCell)
  | wrote (v : Sums) (job : JobCell) (len : Nat)
  | dropped (v : Sums) (more : Bool) (len : Nat)
  | trailer (v : Sums)
  | verify
  | verified
  | exited

/-- `compressHave` and `writeFirst` are the values of their locks, `stop` stands for the job with the sequence number
-1, and `checks` has the check value of a job from when its lock `calc` is 1. -/
structure State (S : Type) where
  heap : Spaces
  main : Main
  workers : List (Worker S)
  cthreads : Nat
  writer : Writer
  compress : List JobCell
  compressHave : Nat
  stop : Bool
  write : List JobCell
  writeFirst : Int
  checks : Nat → Option ULong
  output : List Byte

/-- The value of `write_first` for a list. -/
def firstSeq : List JobCell → Int
  | [] => -1
  | job :: _ => job.seq

/-- The insertion of a job before the first one with a greater sequence number. -/
def insertJob (job : JobCell) : List JobCell → List JobCell
  | [] => [job]
  | here :: rest => if job.seq < here.seq then job :: here :: rest else here :: insertJob job rest

/-- A buffer from a pool, for a step that goes on with it. -/
def withSpace {α : Type} (h : Spaces) (p : PoolName) (k : Space → Spaces → Outcome α) : Outcome α :=
  match getSpace h p with
  | .done (s, h') => k s h'
  | .wait => .wait
  | .abort => .abort

/-- A step that begins with `drop_space`. -/
def withDrop {α : Type} (h : Spaces) (s : Space) (k : Spaces → α) : Outcome α :=
  match dropSpace h s with
  | .done h' => .done (k h')
  | .wait => .wait
  | .abort => .abort

section Steps

variable (P : Program) (addr : List Byte)

namespace State

variable (σ : State P.codec.Stream)

/-- The variables of `cutBlocks` at the threads' buffers. -/
def feedVars {S : Type} (σ : State S) (v : Vars) (curr : Space) : Feed :=
  ⟨v.offset, v.seq, σ.heap.buf curr, v.hold.map σ.heap.buf, v.dict.map σ.heap.buf, v.scan, v.hash, v.left⟩

def mainStep : Outcome (State P.codec.Stream) :=
  match σ.main with
  | .start =>
    withSpace σ.heap .inPool fun next h =>
      let (bs, offset) := readn2 addr 0 P.opt.size
      .done { σ with heap := h.setBuf next bs, main := .top ⟨offset, 0, next, none, none, 0, rsyncHit, 0⟩ }
  | .top v =>
    match v.hold with
    | some hold => .done { σ with main := .fed { v with next := hold, hold := none } v.next }
    | none =>
      withSpace σ.heap .inPool fun next h =>
        let (bs, offset) := readn2 addr v.offset P.opt.size
        .done { σ with heap := h.setBuf next bs, main := .fed { v with next := next, offset := offset } v.next }
  | .fed v curr =>
    match (σ.feedVars v curr).cut P.opt (σ.heap.buf curr) (σ.heap.buf v.next) with
    | none => .abort
    | some c =>
      match c.lens with
      | none => .done { σ with main := .scanned v curr c none }
      | some bs =>
        withSpace σ.heap .lensPool fun lens h =>
          .done { σ with heap := h.setBuf lens bs, main := .scanned v curr c (some lens) }
  | .scanned v curr c lens =>
    let v' := { v with scan := c.scan, hash := c.hash, left := c.left }
    match c.hold with
    | none =>
      .done { σ with heap := (σ.heap.setBuf curr c.input).setBuf v.next c.next, main := .filled v' curr lens }
    | some _ =>
      withSpace σ.heap .inPool fun next h =>
        .done { σ with
          heap := (h.setBuf curr c.input).setBuf next c.next
          main := .filled { v' with next := next, hold := some v.next } curr lens }
  | .filled v curr lens =>
    let more : Bool := (σ.heap.buf v.next).length ≠ 0
    let job : JobCell := ⟨v.seq, more, curr, v.dict, lens⟩
    let shared : State P.codec.Stream := { σ with heap := useSpace σ.heap curr, main := .ready { v with dict := some curr } job }
    if more && P.opt.setdict then
      match v.dict with
      | none => .done shared
      | some d =>
        if dictSize ≤ (σ.heap.buf curr).length then .done shared
        else
          withSpace σ.heap .dictPool fun dict h =>
            let len := dictSize - (h.buf curr).length
            if len ≤ (h.buf d).length then
              .done { σ with
                heap := h.setBuf dict ((h.buf d).drop ((h.buf d).length - len) ++ h.buf curr)
                main := .ready { v with dict := some dict } job }
            else .abort
    else .done { σ with main := .ready v job }
  | .ready v job =>
    let seq := v.seq + 1
    let launch := σ.cthreads < seq ∧ σ.cthreads < P.procs
    .done { σ with
      workers := if launch then σ.workers ++ [.idle P.codec.init] else σ.workers
      cthreads := if launch then σ.cthreads + 1 else σ.cthreads
      compress := σ.compress ++ [job]
      compressHave := σ.compressHave + 1
      main := if job.more then .top { v with seq := seq } else .last v.next }
  | .last next => withDrop σ.heap next fun h => { σ with heap := h, main := .join }
  | .join =>
    match σ.writer with
    | .exited => .done { σ with main := .returned }
    | _ => .wait
  | .returned => .done { σ with stop := true, compress := [], compressHave := σ.compressHave + 1, main := .collect }
  | .collect =>
    if σ.workers.all Worker.isExited then
      if σ.workers.length = σ.cthreads ∧ (freePool σ.heap .lensPool).isSome ∧ (freePool σ.heap .dictPool).isSome ∧
          (freePool σ.heap .outPool).isSome ∧ (freePool σ.heap .inPool).isSome then
        .done { σ with workers := [], cthreads := 0, main := .finished }
      else .abort
    else .wait
  | .finished => .wait

/-- A step of a compress thread, and the thread after it. A step that compresses a job leaves the stream `strm'` and
the result `bytes`. -/
def workerStep (strm' : P.codec.Stream) (bytes : List Byte) :
    Worker P.codec.Stream → Outcome (State P.codec.Stream × Worker P.codec.Stream)
  | .idle strm =>
    if σ.compressHave = 0 then .wait
    else if σ.stop then .done (σ, .exited)
    else
      match σ.compress with
      | [] => .abort
      | job :: rest => .done ({ σ with compress := rest, compressHave := σ.compressHave - 1 }, .got strm job)
  | .got strm job =>
    match job.out with
    | none => .done (σ, .fresh strm job none)
    | some d =>
      withDrop σ.heap d fun h =>
        ({ σ with heap := h }, .fresh strm job (some (window (σ.heap.buf d))))
  | .fresh _ job _ =>
    if (blocks (job.lens.map σ.heap.buf) (σ.heap.buf job.input).length).isNone then .abort
    else
      withSpace σ.heap .outPool fun out h =>
        .done ({ σ with heap := h.setBuf out bytes }, .compressed strm' { job with out := some out })
  | .compressed strm job =>
    match job.lens with
    | none => .done (σ, .released strm job)
    | some lens =>
      withDrop σ.heap lens fun h => ({ σ with heap := h }, .released strm { job with lens := none })
  | .released strm job => .done ({ σ with heap := useSpace σ.heap job.input }, .reserved strm job)
  | .reserved strm job =>
    let write := insertJob job σ.write
    .done ({ σ with write := write, writeFirst := firstSeq write }, .listed strm job.seq job.input)
  | .listed strm seq input =>
    withDrop σ.heap input fun h =>
      ({ σ with heap := h }, .checked strm seq (P.lib.jobCheck P.header.form (σ.heap.buf input)))
  | .checked strm seq check => .done ({ σ with checks := Function.update σ.checks seq (some check) }, .idle strm)
  | .exited => .wait

def writerStep : Outcome (State P.codec.Stream) :=
  match σ.writer with
  | .header =>
    .done { σ with
      output := σ.output ++ P.header.putHeader
      writer := .wait ⟨0, P.header.headerLen, 0, 0, checkInit P.header.form⟩ }
  | .wait v =>
    if σ.writeFirst = v.seq then
      match σ.write with
      | [] => .abort
      | job :: rest => .done { σ with write := rest, writeFirst := firstSeq rest, writer := .took v job }
    else .wait
  | .took v job =>
    match job.out with
    | none => .abort
    | some out =>
      withDrop σ.heap job.input fun h =>
        let len := (σ.heap.buf job.input).length
        let v' := { v with
          ulen := v.ulen + BitVec.ofNat 64 len
          clen := v.clen + BitVec.ofNat 64 (σ.heap.buf out).length }
        { σ with heap := h, output := σ.output ++ σ.heap.buf out, writer := .wrote v' job len }
  | .wrote v job len =>
    match job.out with
    | none => .abort
    | some out => withDrop σ.heap out fun h => { σ with heap := h, writer := .dropped v job.more len }
  | .dropped v more len =>
    match σ.checks v.seq with
    | none => .wait
    | some check =>
      let v' := { v with
        seq := v.seq + 1
        check := comb P.header.form v.check check (BitVec.ofNat 64 len) }
      .done { σ with writer := if more then .wait v' else .trailer v' }
  | .trailer v =>
    .done { σ with output := σ.output ++ P.header.putTrailer v.ulen v.clen v.check v.head, writer := .verify }
  | .verify => if σ.compress = [] ∧ σ.compressHave = 0 then .done { σ with writer := .verified } else .abort
  | .verified => if σ.write = [] then .done { σ with writeFirst := -1, writer := .exited } else .abort
  | .exited => .wait

end State

/-- A result that `compress_thread` can come to with a job, in any buffer of the output pool. -/
def Yields (σ : State P.codec.Stream) (strm' : P.codec.Stream) (bytes : List Byte) : Worker P.codec.Stream → Prop
  | .fresh strm job dict => ∃ ls size b,
    blocks (job.lens.map σ.heap.buf) (σ.heap.buf job.input).length = some ls ∧ outPoolSize P.opt.size ≤ size ∧
      P.codec.Compress strm dict ls job.more (σ.heap.buf job.input) size strm' b ∧ bytes = b.bytes
  | _ => True

/-- One step of one thread. -/
inductive Step : State P.codec.Stream → State P.codec.Stream → Prop
  | main {σ σ' : State P.codec.Stream} (h : σ.mainStep P addr = .done σ') : Step σ σ'
  | worker {σ σ' : State P.codec.Stream} {i : Nat} {w w' : Worker P.codec.Stream} {strm' : P.codec.Stream} {bytes : List Byte}
    (hi : σ.workers[i]? = some w) (hyields : Yields P σ strm' bytes w)
    (h : σ.workerStep P strm' bytes w = .done (σ', w')) : Step σ { σ' with workers := σ'.workers.set i w' }
  | writer {σ σ' : State P.codec.Stream} (h : σ.writerStep P = .done σ') : Step σ σ'

/-- `n` steps of the threads, in any order. -/
inductive Run : State P.codec.Stream → Nat → State P.codec.Stream → Prop
  | nil (σ : State P.codec.Stream) : Run σ 0 σ
  | step {σ σ' σ'' : State P.codec.Stream} {n : Nat} (hrun : Run σ n σ') (hstep : Step P addr σ' σ'') : Run σ (n + 1) σ''

end Steps

/-- The state that `parallel_compress2` starts from: it has a new write thread. -/
def State.call {S : Type} (σ : State S) : State S :=
  { σ with main := .start, writer := .header, checks := fun _ => none }

/-- `setup_jobs`. -/
def Program.setup (P : Program) : State P.codec.Stream where
  heap := ⟨fun p => newPool (P.limit p), fun _ => 0, fun _ => []⟩
  main := .returned
  workers := []
  cthreads := 0
  writer := .exited
  compress := []
  compressHave := 0
  stop := false
  write := []
  writeFirst := -1
  checks := fun _ => none
  output := []

end Libibtl.Pgz
