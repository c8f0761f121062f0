import Libibtl.Datatype
import Libibtl.Communicator
import Libibtl.Queue

/-! # Messages, queries and work requests

Pointers are identifiers. User memory is a family of objects, and a user pointer
names an object and an offset in it. The eager buffer is the last field of
`fdmi_msg`, so the adaptor can be given an address inside of it or behind it.
-/

namespace Libibtl

open Foundation

abbrev QueryId := Nat
abbrev ReqId := Nat
abbrev ConnId := Nat
abbrev CmId := Nat
abbrev Pd := Nat

/-- A pointer into user memory. -/
structure Ptr where
  obj : Nat
  off : Nat
  deriving DecidableEq, Repr

/-- An address that the adaptor can use: user memory, the `fdmi_msg` of a query, or `off` bytes
from the start of the eager buffer of a query. -/
inductive Place
  | user (p : Ptr)
  | msg (q : QueryId)
  | eager (q : QueryId) (off : Nat)
  deriving DecidableEq, Repr

/-- `struct ibv_mr`. -/
structure Mr where
  pd : Pd
  addr : Place
  length : UInt64T
  lkey : UInt32T
  rkey : UInt32T
  deriving DecidableEq, Repr

inductive MsgType
  | commInit | commFin
  deriving DecidableEq, Repr

inductive Opcode
  | eager | rdmaRead | loop
  deriving DecidableEq, Repr

/-- The control part of `fdmi_msg`: every field before `eager_buff`. -/
structure Ctl where
  type : MsgType
  opcode : Opcode
  epoch : CInt
  addr : Ptr
  rank : UInt64T
  tag : UInt64T
  op : CInt
  count : CInt
  commId : CInt
  dtype : Datatype
  rdmaMr : Mr
  eagerSize : CInt
  deriving DecidableEq, Repr

/-- `struct fdmi_msg`. The buffer is the memory from the start of `eager_buff` on; offsets from
`eagerBuffSize` on lie behind the structure. -/
structure Msg extends Ctl where
  eagerBuff : Buffer

def eagerBuffSize : Nat := 64 * 1024

/-- `sizeof(struct fdmi_msg)` in the LP64 layout. -/
def msgSize : Nat := 65688

/-- `fdmi_get_ctl_msg_size`; on LP64 this is the offset of `eager_buff`. -/
def ctlMsgSize : Nat := msgSize - eagerBuffSize

/-- `struct fdmi_query`. `msgMr` is uninitialised memory until a registration sets it. -/
structure Query where
  conn : Option ConnId
  msg : Msg
  msgMr : Mr
  activeQueryToFree : Option QueryId
  requestFlag : Option ReqId
  request : Option ReqId

/-- `struct fdmi_request`. -/
structure Request where
  prank : CInt
  tag : CInt
  requestFlag : CInt
  deriving DecidableEq, Repr

/-- `struct fdmi_connection`, with the protection domain of its `dctx`. -/
structure Connection where
  rcid : CmId
  pd : Pd
  deriving DecidableEq, Repr

/-- `struct fdmi_peer`, for the one domain that the library supports. -/
structure Peer where
  conn : Option ConnId
  isConnected : Bool
  onConnectingLock : Bool
  deriving DecidableEq, Repr

/-- A scatter/gather entry. -/
structure Sge where
  addr : Place
  length : UInt32T
  lkey : UInt32T
  deriving DecidableEq, Repr

/-- What travels for one SEND: the gathered control part, and the bytes of `sge[1]` if there is one. -/
structure Wire where
  ctl : Ctl
  payloadLen : Nat
  payload : Buffer

/-- A work request of the receive queue of a connection. -/
structure RecvWr where
  conn : ConnId
  wrId : QueryId
  sgList : List Sge
  deriving DecidableEq, Repr

inductive SendOp
  | send (wire : Wire)
  | rdmaRead (sge : Sge) (remoteAddr : Place)

/-- A work request of the send queue of a connection. -/
structure SendWr where
  conn : ConnId
  wrId : QueryId
  op : SendOp

def SendWr.isRead (wr : SendWr) : Bool :=
  match wr.op with
  | .send _ => false
  | .rdmaRead _ _ => true

@[simp] theorem SendWr.isRead_send (c : ConnId) (q : QueryId) (wire : Wire) :
    SendWr.isRead ⟨c, q, .send wire⟩ = false := rfl

@[simp] theorem SendWr.isRead_rdmaRead (c : ConnId) (q : QueryId) (sge : Sge) (remote : Place) :
    SendWr.isRead ⟨c, q, .rdmaRead sge remote⟩ = true := rfl

inductive FdmiState
  | compute | failure | recovery | joining
  deriving DecidableEq, Repr

/-- `FDMI_FORCE` and `FDMI_PRESV` of `enum fdmi_option`. -/
def fdmiForce : CInt := 2
def fdmiPresv : CInt := 4

/-- `FDMI_MAX_PENDING_RECV_QUERY`. -/
def maxPendingRecvQuery : Nat := 10

/-! ## Matching -/

/-- What a receive or a message shows to the matching code, in the C types of its caller. -/
structure Envelope where
  commId : CInt
  rank : CInt
  tag : CInt
  deriving DecidableEq, Repr

/-- Communicators equal, ranks equal or one of them a wildcard, tags equal or one of them a wildcard. -/
def Envelope.Matches (m r : Envelope) : Prop :=
  m.commId = r.commId ∧
  (m.rank = r.rank ∨ m.rank = fmiAnySource ∨ r.rank = fmiAnySource) ∧
  (m.tag = r.tag ∨ m.tag = fmiAnyTag ∨ r.tag = fmiAnyTag)

instance (m r : Envelope) : Decidable (m.Matches r) := inferInstanceAs (Decidable (_ ∧ _ ∧ _))

def Ctl.envelope (c : Ctl) : Envelope := ⟨c.commId, intOfUint64 c.rank, intOfUint64 c.tag⟩

/-- `fdmi_is_matched_query`: an arrived message against a waiting receive. Only the epoch of the
receive is looked at. -/
def isMatchedQuery (epoch : CInt) (msg1 msg2 : Ctl) : Bool :=
  if msg2.epoch.slt epoch then false
  else if ¬ msg1.commId = msg2.commId then false
  else if ¬ (msg1.rank = uint64OfInt fmiAnySource ∨ msg2.rank = uint64OfInt fmiAnySource ∨
      msg1.rank = msg2.rank) then false
  else if ¬ (msg1.tag = uint64OfInt fmiAnyTag ∨ msg2.tag = uint64OfInt fmiAnyTag ∨
      msg1.tag = msg2.tag) then false
  else true

/-- `fdmi_is_matched_query2`: the arguments of a receive against an arrived message. Only the epoch
of the message is looked at. -/
def isMatchedQuery2 (epoch : CInt) (rank tag commId : CInt) (msg : Ctl) : Bool :=
  if msg.epoch.slt epoch then false
  else if ¬ commId = msg.commId then false
  else if ¬ (rank = fmiAnySource ∨ msg.rank = uint64OfInt fmiAnySource ∨ uint64OfInt rank = msg.rank) then false
  else if ¬ (tag = fmiAnyTag ∨ msg.tag = uint64OfInt fmiAnyTag ∨ uint64OfInt tag = msg.tag) then false
  else true

/-- The test inside the loop of `fdmi_verbs_iprobe`: no wildcard on the side of the message. -/
def isProbed (epoch : CInt) (source tag commId : CInt) (msg : Ctl) : Bool :=
  if msg.epoch.slt epoch then false
  else if ¬ commId = msg.commId then false
  else if ¬ (source = fmiAnySource ∨ uint64OfInt source = msg.rank) then false
  else if ¬ (tag = fmiAnyTag ∨ uint64OfInt tag = msg.tag) then false
  else true

/-- The rank and the tag were stored from an `int`, as the senders and the poller do. -/
def Ctl.Stored (c : Ctl) : Prop :=
  c.rank = uint64OfInt (intOfUint64 c.rank) ∧ c.tag = uint64OfInt (intOfUint64 c.tag)

instance (c : Ctl) : Decidable c.Stored := inferInstanceAs (Decidable (_ ∧ _))

section Matched

variable {c d : Ctl} {epoch : CInt}

theorem isMatchedQuery_eq (hc : c.Stored) (hd : d.Stored) (he : d.epoch.slt epoch = false) :
    isMatchedQuery epoch c d = decide (c.envelope.Matches d.envelope) := by
  obtain ⟨hcr, hct⟩ := hc
  obtain ⟨hdr, hdt⟩ := hd
  rw [isMatchedQuery, hcr, hct, hdr, hdt, he, Bool.eq_iff_iff]
  simp only [uint64OfInt_inj, Envelope.Matches, Ctl.envelope]
  grind

theorem isMatchedQuery2_eq {rank tag commId : CInt} (hc : c.Stored) (he : c.epoch.slt epoch = false) :
    isMatchedQuery2 epoch rank tag commId c = decide (c.envelope.Matches ⟨commId, rank, tag⟩) := by
  obtain ⟨hcr, hct⟩ := hc
  rw [isMatchedQuery2, hcr, hct, he, Bool.eq_iff_iff]
  simp only [uint64OfInt_inj, Envelope.Matches, Ctl.envelope]
  grind

end Matched

end Libibtl
