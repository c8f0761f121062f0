import Libibtl.Ibio.Common

/-! # The table of open files as one array of bytes

`open_info` is one flat array of `struct ibvio_sopen_info`. The handlers write single
fields of the entry of their file, but a close clears its entry with the size of
`struct ibvio_open`, which is larger: it reaches into the next entry.
-/

namespace Libibtl.Ibio

open Foundation

/-! ## Layout -/

/-- Size and alignment of the members of a structure, in order. -/
abbrev Members := List (Nat × Nat)

def alignUp (n align : Nat) : Nat := (n + (align - 1)) / align * align

def offsetsFrom : Nat → Members → List Nat
  | _, [] => []
  | start, (size, align) :: rest => alignUp start align :: offsetsFrom (alignUp start align + size) rest

def endFrom : Nat → Members → Nat
  | start, [] => start
  | start, (size, align) :: rest => endFrom (alignUp start align + size) rest

def sizeofMembers (l : Members) : Nat := alignUp (endFrom 0 l) (l.foldl (fun n x => max n x.2) 1)

/-- `struct ibvio_open`: three `int`, `char path[256]`, two `int`. -/
def openMembers : Members := [(4, 4), (4, 4), (4, 4), (256, 1), (4, 4), (4, 4)]

/-- The members of `struct ibvio_sopen_info`. -/
inductive Field
  | fd | writeCount | currentWriteCount | currentRecvSize | writeThread | fastmutex | timestamp | readCount
  | currentReadCount | currentSendSize | readThread | readMutex | readTimestamp | fileInfo
  deriving DecidableEq, Repr

/-- On LP64 a `pthread_mutex_t` has 40 bytes, all other members have 8. -/
def sopenMembers : Members :=
  [(8, 8), (8, 8), (8, 8), (8, 8), (8, 8), (40, 8), (8, 8), (8, 8), (8, 8), (8, 8), (8, 8), (40, 8), (8, 8), (8, 8)]

def sizeofOpen : Nat := sizeofMembers openMembers
def sizeofSopenInfo : Nat := sizeofMembers sopenMembers

namespace Field

def all : List Field :=
  [.fd, .writeCount, .currentWriteCount, .currentRecvSize, .writeThread, .fastmutex, .timestamp, .readCount,
    .currentReadCount, .currentSendSize, .readThread, .readMutex, .readTimestamp, .fileInfo]

def index (f : Field) : Nat := all.idxOf f

def offset (f : Field) : Nat := (offsetsFrom 0 sopenMembers).getD f.index 0

def size (f : Field) : Nat := (sopenMembers.getD f.index (0, 1)).1

theorem offset_add_size_le (f : Field) : f.offset + f.size ≤ sizeofSopenInfo := by
  cases f <;> decide

/-- The members fill the structure without gaps. -/
theorem exists_offset_le {i : Nat} (hi : i < sizeofSopenInfo) : ∃ f : Field, f.offset ≤ i ∧ i < f.offset + f.size := by
  have hall : ∀ i < sizeofSopenInfo, ∃ f ∈ all, f.offset ≤ i ∧ i < f.offset + f.size := by decide +kernel
  obtain ⟨f, -, hf⟩ := hall i hi
  exact ⟨f, hf⟩

end Field

/-- The size of the table. -/
def maxFileOpen : Nat := 1024 * 1024

/-- `open_info`, from its first byte on. -/
abbrev Table := Buffer

namespace Table

def addr (g : Nat) (f : Field) : Nat := g * sizeofSopenInfo + f.offset

/-- The bytes of one member. -/
def field (m : Table) (g : Nat) (f : Field) : List Byte := (List.range f.size).map fun i => m (addr g f + i)

def put (m : Table) (g : Nat) (f : Field) (v : Buffer) : Table := memcpy m (addr g f) v 0 f.size

/-- A `size_t` in memory, least significant byte first. -/
def bytesOf (x : UInt64T) : Buffer := fun i => x.extractLsb' (8 * i) 8

def ofBytes (l : List Byte) : UInt64T := l.foldr (fun b x => (x <<< 8) ||| b.setWidth 64) 0

def getSize (m : Table) (g : Nat) (f : Field) : UInt64T := ofBytes (m.field g f)

def clear (m : Table) (start n : Nat) : Table := memcpy m start (fun _ => 0) 0 n

end Table

/-! ## Handlers -/

/-- A handler with what it takes from outside of the table: a pointer of `malloc`, the count of a request, the clock,
the number of a new thread, the return value of `close`, and the bytes that the mutex functions leave in a mutex. -/
inductive Handler
  | sopen (fileInfo : UInt64T) (mutex : Buffer)
  | swriteBegin (count : CInt)
  | swriteChunk (now thread : UInt64T)
  | swriteChunkThread (locked unlocked : Buffer)
  | sreadAsync (thread : UInt64T)
  | sread (locked unlocked : Buffer)
  | sclose (stat : CInt) (mutex : Buffer)

namespace Handler

open Table

/-- What the handler does to the table when it runs on the file `fd`. -/
def run (fd : Nat) (m : Table) : Handler → Table
  | .sopen fileInfo mutex =>
    let m := m.put fd .fd (bytesOf (BitVec.ofNat 64 fd))
    let m := m.put fd .fileInfo (bytesOf fileInfo)
    let m := m.put fd .writeCount (bytesOf 0)
    let m := m.put fd .currentWriteCount (bytesOf 0)
    let m := m.put fd .fastmutex mutex
    m.put fd .currentRecvSize (bytesOf 0)
  | .swriteBegin count =>
    let m := m.put fd .writeCount (bytesOf (uint64OfInt count))
    let m := m.put fd .currentRecvSize (bytesOf 0)
    m.put fd .currentWriteCount (bytesOf 0)
  | .swriteChunk now thread =>
    let m := if m.getSize fd .currentRecvSize = 0 then m.put fd .timestamp (bytesOf now) else m
    let chunk := serverChunk (m.getSize fd .currentRecvSize) (m.getSize fd .writeCount)
    let m := m.put fd .currentRecvSize (bytesOf (m.getSize fd .currentRecvSize + uint64OfInt chunk))
    m.put fd .writeThread (bytesOf thread)
  | .swriteChunkThread locked unlocked =>
    let m := m.put fd .fastmutex locked
    let chunk := serverChunk (m.getSize fd .currentWriteCount) (m.getSize fd .writeCount)
    let m := m.put fd .currentWriteCount (bytesOf (m.getSize fd .currentWriteCount + uint64OfInt chunk))
    m.put fd .fastmutex unlocked
  | .sreadAsync thread => m.put fd .readThread (bytesOf thread)
  | .sread locked unlocked => (m.put fd .fastmutex locked).put fd .fastmutex unlocked
  | .sclose stat mutex =>
    if stat = 0 then
      let m := m.put fd .fd (bytesOf (BitVec.ofInt 64 (-1)))
      let m := m.put fd .fileInfo (bytesOf 0)
      let m := m.put fd .writeCount (bytesOf 0)
      let m := m.put fd .currentWriteCount (bytesOf 0)
      let m := m.put fd .fastmutex mutex
      let m := m.put fd .currentRecvSize (bytesOf 0)
      -- memset(&open_info[fd], 0, sizeof(struct ibvio_open))
      m.clear (addr fd .fd) sizeofOpen
    else m

/-- The close of a file that was open. -/
def Closes : Handler → Prop
  | .sclose stat _ => stat = 0
  | _ => False

end Handler

/-- The arguments of the next `write` of a writer thread: the descriptor, the cache, the offset in it and the length. -/
def Table.writeArgs (m : Table) (g : Nat) : UInt64T × UInt64T × UInt64T × CInt :=
  (m.getSize g .fd, m.getSize g .fileInfo, m.getSize g .currentWriteCount,
    serverChunk (m.getSize g .currentWriteCount) (m.getSize g .writeCount))

end Libibtl.Ibio
