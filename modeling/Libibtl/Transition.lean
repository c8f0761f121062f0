import Libibtl.Roles

/-! # What one step can do

`Wired` says what the queries in their places hold. In a state that is owned and
wired, every step is one of the cases of `Transition`, each with its post-state
written out. All invariants of runs are proved over these cases.
-/

namespace Libibtl

open Foundation

/-- An INIT message as the sending side of the library builds it, in epoch 0. -/
structure Wire.Sent (w : Wire) : Prop where
  epoch : w.ctl.epoch = 0
  opcode : w.ctl.opcode =
    if (totalSendSize w.ctl.dtype w.ctl.count).toNat ≤ eagerBuffSize then .eager else .rdmaRead
  tag : w.ctl.tag = uint64OfInt (intOfUint64 w.ctl.tag)

instance (w : Wire) : Decidable w.Sent :=
  decidable_of_iff (_ ∧ _ ∧ _) ⟨fun ⟨h₁, h₂, h₃⟩ => ⟨h₁, h₂, h₃⟩, fun h => ⟨h.epoch, h.opcode, h.tag⟩⟩

/-- INIT messages are produced by a peer that runs the same code; nothing is asked of a FIN. -/
def Wire.FromPeer (w : Wire) : Prop := w.ctl.type = .commInit → w.Sent

instance (w : Wire) : Decidable w.FromPeer := inferInstanceAs (Decidable (_ → _))

def Event.FromPeer : Event → Prop
  | .wcRecv _ w => w.FromPeer
  | _ => True

instance (e : Event) : Decidable e.FromPeer :=
  match e with
  | .wcRecv _ w => inferInstanceAs (Decidable w.FromPeer)
  | .isend _ | .irecv _ | .wcSend _ | .wcRdmaRead _ _ | .flush | .connect _ _ | .connectRequest _ _ _
  | .addrResolved _ _ _ | .routeResolved _ | .established _ => .isTrue trivial

namespace Query

/-- A query posted as a receive on `c`. -/
def Posted (x : Query) (c : ConnId) : Prop := x.conn = some c ∧ x.activeQueryToFree = none

/-- A message that waits for its receive. -/
def Arrived (x : Query) : Prop :=
  (∃ c, x.conn = some c) ∧ x.msg.opcode ≠ .loop ∧ x.msg.epoch = 0 ∧ x.msg.Stored

/-- A receive that waits for its message. -/
def Waiting (x : Query) : Prop :=
  (∃ r, x.requestFlag = some r ∧ x.request = some r) ∧ x.msg.epoch = 0 ∧ x.msg.Stored

/-- A message on its way out on `c`. -/
def Sending (x : Query) (c : ConnId) : Prop :=
  x.conn = some c ∧ (x.msg.type = .commInit → ∃ r, x.requestFlag = some r)

/-- A receive whose data is read on `c`; the query that carries the FIN is on `c` as well. -/
def Reading (x : Query) (c : ConnId) (queries : QueryId → Query) : Prop :=
  ∃ a r, x.activeQueryToFree = some a ∧ x.requestFlag = some r ∧ x.request = some r ∧ x.conn = some c ∧
    (queries a).conn = some c

end Query

namespace Proc

/-- What the queries in their places hold, in a process that never failed. -/
structure Wired (σ : Proc) : Prop where
  compute : σ.fdmiState = .compute
  epoch : σ.ftEpoch = 0
  posted : ∀ wr ∈ σ.rq, (σ.queries wr.wrId).Posted wr.conn
  arrived : ∀ a ∈ σ.aq, (σ.queries a).Arrived
  waiting : ∀ p ∈ σ.pq, (σ.queries p).Waiting
  sending : ∀ wr ∈ σ.sq, wr.isRead = false → (σ.queries wr.wrId).Sending wr.conn
  reading : ∀ wr ∈ σ.sq, wr.isRead = true → (σ.queries wr.wrId).Reading wr.conn σ.queries

/-! ## Post-states -/

def setDone (requests : ReqId → Request) (r : ReqId) : ReqId → Request :=
  Function.update requests r { requests r with requestFlag := 1 }

def setPending (requests : ReqId → Request) (r : ReqId) : ReqId → Request :=
  Function.update requests r { requests r with requestFlag := 0 }

/-- The request of a receive that has been completed by the message `c`. -/
def setReceived (requests : ReqId → Request) (r : ReqId) (c : Ctl) : ReqId → Request :=
  Function.update requests r ⟨intOfUint64 c.rank, intOfUint64 c.tag, 1⟩

/-- The control part of an outgoing INIT message before `fdmi_post_send_msg` looks at its size. -/
def sendCtl (σ : Proc) (prm : SendParam) (mr : Mr) (eagerSize : CInt) : Ctl where
  type := .commInit
  opcode := .rdmaRead
  epoch := σ.ftEpoch
  addr := prm.buf
  rank := uint64OfInt σ.prank
  tag := uint64OfInt prm.tag
  op := prm.op
  count := prm.count
  commId := prm.comm.id
  dtype := prm.datatype
  rdmaMr := mr
  eagerSize := eagerSize

/-- The query that carries an outgoing INIT message. -/
structure Carries (σ : Proc) (prm : SendParam) (c : ConnId) (x : Query) (wire : Wire) : Prop where
  conn : x.conn = some c
  requestFlag : x.requestFlag = some prm.request
  ctl : x.msg.toCtl = wire.ctl
  wire : ∃ mr eagerSize, wire.ctl = sentCtl (σ.sendCtl prm mr eagerSize)

/-- The content of the query `a` when the poller has received `w` into it on connection `c`. -/
def arrivedQuery (σ : Proc) (c : ConnId) (a : QueryId) (w : Wire) : Query :=
  { σ.queries a with msg := {
      toCtl := { w.ctl with rank := uint64OfInt (σ.rmapItopGet (σ.conns c).rcid) }
      eagerBuff := memcpy (σ.queries a).msg.eagerBuff 0 w.payload 0 w.payloadLen } }

/-- The poller has taken the oldest receive of `c` and received `w` into its query. -/
@[simps]
def arrive (σ : Proc) (c : ConnId) (a : QueryId) (w : Wire) : Proc :=
  { σ with
    rq := σ.rq.eraseP (·.conn = c)
    completed := Function.update σ.completed c (σ.completed c + 1)
    queries := Function.update σ.queries a (σ.arrivedQuery c a w) }

/-- `fdmi_cpy_eager_buff` for a receive that waited. -/
@[simps]
def deliver (σ : Proc) (p a : QueryId) (r : ReqId) : Proc :=
  { σ with
    pq := σ.pq.erase p
    mem := (σ.copyEager (σ.queries p).msg.addr (σ.queries p).msg.dtype a).mem
    requests := setReceived σ.requests r (σ.queries a).msg.toCtl
    freeQueryQ := σ.freeQueryQ ++ [p] ++ [a]
    counter := σ.counter - 1 - 1 }

/-- An RDMA read has been posted for a receive that waited. -/
@[simps]
def startRead (σ : Proc) (c : ConnId) (p a : QueryId) (regs : List Mr) (cached : UInt64T) (mr : Mr) : Proc :=
  { σ with
    pq := σ.pq.erase p
    regMrQ := regs
    regMrCachedSize := cached
    queries := Function.update σ.queries p
      { σ.queries p with activeQueryToFree := some a, conn := some c, msgMr := mr }
    sq := σ.sq ++ [⟨c, p, .rdmaRead (readSge (σ.queries p).msg) (σ.queries a).msg.rdmaMr.addr⟩] }

/-- An INIT message has been posted. -/
@[simps]
def launch (σ : Proc) (prm : SendParam) (c : ConnId) (g : Grab) (wire : Wire) : Proc :=
  { σ.grab g with
    sendReqQ := σ.sendReqQ ++ [prm.request]
    requests := setPending σ.requests prm.request
    sq := σ.sq ++ [⟨c, g.query, .send wire⟩] }

/-- A receive has taken the eager message `a` that was there before it. -/
@[simps]
def accept (σ : Proc) (prm : RecvParam) (a : QueryId) : Proc :=
  { σ with
    aq := σ.aq.erase a
    mem := (σ.copyEager prm.buf prm.datatype a).mem
    requests := setReceived σ.requests prm.request (σ.queries a).msg.toCtl
    freeQueryQ := σ.freeQueryQ ++ [a]
    counter := σ.counter - 1 }

/-- A receive has started to read the message `a` that was there before it. -/
@[simps]
def fetch (σ : Proc) (prm : RecvParam) (c : ConnId) (a : QueryId) (g : Grab) : Proc :=
  { σ.grab g with
    aq := σ.aq.erase a
    requests := setPending σ.requests prm.request
    sq := σ.sq ++ [⟨c, g.query, .rdmaRead (readSge g.content.msg) (σ.queries a).msg.rdmaMr.addr⟩] }

/-- A receive waits. -/
@[simps]
def await (σ : Proc) (prm : RecvParam) (g : Grab) : Proc :=
  { σ.grab g with
    requests := setPending σ.requests prm.request
    pq := σ.pq ++ [g.query] }

/-- A FIN has been received into `q`. -/
@[simps]
def finish (σ : Proc) (q : QueryId) : Proc :=
  { σ with
    sendReqQ := σ.sendReqQ.tail
    requests := (σ.sendReqQ.head?.map (setDone σ.requests)).getD σ.requests
    freeQueryQ := σ.freeQueryQ ++ [q]
    counter := σ.counter - 1 }

/-- A query whose completion the poller has read. -/
def stamped (σ : Proc) (c : ConnId) (q : QueryId) : Query :=
  { σ.queries q with msg := { (σ.queries q).msg with
      toCtl := { (σ.queries q).msg.toCtl with rank := uint64OfInt (σ.rmapItopGet (σ.conns c).rcid) } } }

/-- The oldest send of `c` has completed. -/
@[simps]
def sent (σ : Proc) (c : ConnId) (q : QueryId) (requests : ReqId → Request) (sendReqQ : List ReqId) : Proc :=
  { σ with
    sq := σ.sq.eraseP (·.conn = c)
    queries := Function.update σ.queries q (σ.stamped c q)
    requests := requests
    sendReqQ := sendReqQ
    freeQueryQ := σ.freeQueryQ ++ [q]
    counter := σ.counter - 1 }

/-- The oldest RDMA read of `c` has completed, and the FIN has been posted. -/
@[simps]
def readDone (σ : Proc) (c : ConnId) (p a : QueryId) (r : ReqId) (sge : Sge) (data : Buffer) (msg : Msg)
    (wire : Wire) : Proc :=
  { σ with
    sq := σ.sq.eraseP (·.conn = c) ++ [⟨c, a, .send wire⟩]
    mem := (σ.scatterRead sge data).mem
    queries := Function.update (Function.update σ.queries p (σ.stamped c p)) a { σ.queries a with msg := msg }
    requests := setReceived σ.requests r (σ.queries a).msg.toCtl
    freeQueryQ := σ.freeQueryQ ++ [p]
    counter := σ.counter - 1 }

/-- `FDMI_PRESV` is not set, so a flush discards the query. -/
def flushable (σ : Proc) (q : QueryId) : Bool := (σ.queries q).msg.op &&& fdmiPresv = 0

@[simps]
def flushed (σ : Proc) : Proc :=
  { σ with
    aq := σ.aq.filter (!σ.flushable ·)
    pq := σ.pq.filter (!σ.flushable ·)
    freeQueryQ := σ.freeQueryQ ++ σ.aq.filter σ.flushable ++ σ.pq.filter σ.flushable
    counter := σ.counter - (σ.aq.filter σ.flushable).length - (σ.pq.filter σ.flushable).length }

/-- `n` turns of posting a query from the pool on `c`. -/
inductive Refills (c : ConnId) (σ : Proc) : Nat → Proc → Prop
  | zero : Refills c σ 0 σ
  | succ {n : Nat} {τ : Proc} {g : Grab} (h : Refills c σ n τ) (hg : τ.Grabs g) (hx : τ.Blank (some c) g) :
    Refills c σ (n + 1) (τ.refill c g)

/-- Refills leave everything alone but the pool, the heap and the receive queue. -/
theorem Refills.rest {c : ConnId} {σ τ : Proc} {n : Nat} (h : Refills c σ n τ) :
    τ = { σ with
      counter := τ.counter, freeQueryQ := τ.freeQueryQ, nalloc := τ.nalloc, regMrQ := τ.regMrQ
      regMrCachedSize := τ.regMrCachedSize, queries := τ.queries, rq := τ.rq, posted := τ.posted } := by
  induction h with
  | zero => rfl
  | succ _ hg hx ih =>
    rw [ih]
    rfl

/-- A connection has been made for the identifier `id`. -/
@[simps]
def connected (σ : Proc) (id : CmId) (dctx : Option DomainContext) (pd : Pd) : Proc :=
  { σ with
    dctx := dctx
    conns := Function.update σ.conns σ.nconn ⟨id, pd⟩
    nconn := σ.nconn + 1 }

/-- A connection request has been accepted under the next rank. -/
@[simps]
def acceptRequest (σ : Proc) (id : CmId) (dctx : Option DomainContext) (pd : Pd) : Proc :=
  { σ.connected id dctx pd with
    peers := Function.update σ.peers σ.connectedRank.toInt
      { σ.peers σ.connectedRank.toInt with onConnectingLock := true, conn := some σ.nconn }
    hstbItop := σ.hstbItop.add id (uint64OfInt σ.connectedRank)
    connectedRank := σ.connectedRank + 1
    cm := Function.update σ.cm id .accepted }

/-- The connection for `id` has taken its slot. -/
@[simps]
def resolve (σ : Proc) (id : CmId) (dctx : Option DomainContext) (pd : Pd) : Proc :=
  { σ.connected id dctx pd with
    peers := Function.update σ.peers (σ.rmapItopGet id).toInt
      { σ.peers (σ.rmapItopGet id).toInt with conn := some σ.nconn }
    cm := Function.update σ.cm id .routing }

/-- The cases of a connection event that posts no receives. -/
inductive Linked (σ : Proc) : Event → Proc → Prop
  | connect {rank : CInt} {id : CmId} (hcm : σ.cm id = .unused) (htab : σ.InTable rank) :
    Linked σ (.connect rank id) { σ with
      hstbItop := σ.hstbItop.add id (uint64OfInt rank), cm := Function.update σ.cm id .resolving }
  | reject {id : CmId} {verbs : Nat} {pd : Pd} (hcm : σ.cm id = .unused) :
    Linked σ (.connectRequest id verbs pd) { σ with cm := Function.update σ.cm id .dropped }
  | acceptRequest {id : CmId} {verbs : Nat} {pd pd' : Pd} {dctx : Option DomainContext} (hcm : σ.cm id = .unused)
    (htab : σ.InTable σ.connectedRank) (hd : dctx.isSome) :
    Linked σ (.connectRequest id verbs pd) (σ.acceptRequest id dctx pd')
  | resolve {id : CmId} {verbs : Nat} {pd pd' : Pd} {dctx : Option DomainContext} (hcm : σ.cm id = .resolving)
    (hslot : (σ.peers (σ.rmapItopGet id).toInt).conn = none) (hd : dctx.isSome) :
    Linked σ (.addrResolved id verbs pd) (σ.resolve id dctx pd')
  | drop {id : CmId} {verbs : Nat} {pd pd' : Pd} {dctx : Option DomainContext} (hcm : σ.cm id = .resolving)
    (hd : dctx.isSome) :
    Linked σ (.addrResolved id verbs pd) { σ.connected id dctx pd' with cm := Function.update σ.cm id .dropped }
  | route {id : CmId} (hcm : σ.cm id = .routing) :
    Linked σ (.routeResolved id) { σ with cm := Function.update σ.cm id .connecting }

end Proc

/-- The cases of a step, from a state that is owned and wired. -/
inductive Transition (σ : Proc) : Event → Proc → Prop
  | launch {prm : SendParam} {c : ConnId} {g : Grab} {wire : Wire}
    (hpeer : (σ.peers prm.dest.toInt).conn = some c) (hg : σ.Grabs g)
    (hx : σ.Carries prm c g.content wire) :
    Transition σ (.isend prm) (σ.launch prm c g wire)
  | accept {prm : RecvParam} {source : CInt} {a : QueryId}
    (hsrc : commGetPrank prm.comm prm.source = some source)
    (hsel : σ.getMatchedQuery2 source prm.tag prm.comm σ.aq = some a)
    (hop : (σ.queries a).msg.opcode = .eager) :
    Transition σ (.irecv prm) (σ.accept prm a)
  | fetch {prm : RecvParam} {source : CInt} {a : QueryId} {c : ConnId} {g : Grab}
    (hsrc : commGetPrank prm.comm prm.source = some source)
    (hsel : σ.getMatchedQuery2 source prm.tag prm.comm σ.aq = some a)
    (hop : (σ.queries a).msg.opcode = .rdmaRead) (hconn : (σ.queries a).conn = some c) (hg : σ.Grabs g)
    (hx : Proc.Receives source prm g.content) (hc : g.content.conn = some c)
    (ha : g.content.activeQueryToFree = some a) :
    Transition σ (.irecv prm) (σ.fetch prm c a g)
  | await {prm : RecvParam} {source : CInt} {g : Grab}
    (hsrc : commGetPrank prm.comm prm.source = some source)
    (hsel : σ.getMatchedQuery2 source prm.tag prm.comm σ.aq = none) (hg : σ.Grabs g)
    (hx : Proc.Receives source prm g.content) (hepoch : g.content.msg.epoch = σ.ftEpoch) :
    Transition σ (.irecv prm) (σ.await prm g)
  | deliver {c : ConnId} {w : Wire} {wr : RecvWr} {p : QueryId} {r : ReqId} {g : Grab}
    (htype : w.ctl.type = .commInit) (hwr : σ.rq.find? (·.conn = c) = some wr)
    (hsel : (σ.arrive c wr.wrId w).getMatchedQuery wr.wrId σ.pq = some p)
    (hop : w.ctl.opcode = .eager) (hr : (σ.queries p).request = some r)
    (hg : ((σ.arrive c wr.wrId w).deliver p wr.wrId r).Grabs g)
    (hx : ((σ.arrive c wr.wrId w).deliver p wr.wrId r).Blank (some c) g) :
    Transition σ (.wcRecv c w) (((σ.arrive c wr.wrId w).deliver p wr.wrId r).refill c g)
  | startRead {c : ConnId} {w : Wire} {wr : RecvWr} {p : QueryId} {regs : List Mr} {cached : UInt64T}
    {mr : Mr} {g : Grab} (htype : w.ctl.type = .commInit) (hwr : σ.rq.find? (·.conn = c) = some wr)
    (hsel : (σ.arrive c wr.wrId w).getMatchedQuery wr.wrId σ.pq = some p)
    (hop : w.ctl.opcode = .rdmaRead)
    (hg : ((σ.arrive c wr.wrId w).startRead c p wr.wrId regs cached mr).Grabs g)
    (hx : ((σ.arrive c wr.wrId w).startRead c p wr.wrId regs cached mr).Blank (some c) g) :
    Transition σ (.wcRecv c w) (((σ.arrive c wr.wrId w).startRead c p wr.wrId regs cached mr).refill c g)
  | store {c : ConnId} {w : Wire} {wr : RecvWr} {g : Grab}
    (htype : w.ctl.type = .commInit) (hwr : σ.rq.find? (·.conn = c) = some wr)
    (hsel : (σ.arrive c wr.wrId w).getMatchedQuery wr.wrId σ.pq = none)
    (hg : ({ σ.arrive c wr.wrId w with aq := σ.aq ++ [wr.wrId] } : Proc).Grabs g)
    (hx : ({ σ.arrive c wr.wrId w with aq := σ.aq ++ [wr.wrId] } : Proc).Blank (some c) g) :
    Transition σ (.wcRecv c w) (({ σ.arrive c wr.wrId w with aq := σ.aq ++ [wr.wrId] } : Proc).refill c g)
  | finish {c : ConnId} {w : Wire} {wr : RecvWr} {g : Grab}
    (htype : w.ctl.type = .commFin) (hwr : σ.rq.find? (·.conn = c) = some wr)
    (hg : ((σ.arrive c wr.wrId w).finish wr.wrId).Grabs g)
    (hx : ((σ.arrive c wr.wrId w).finish wr.wrId).Blank (some c) g) :
    Transition σ (.wcRecv c w) (((σ.arrive c wr.wrId w).finish wr.wrId).refill c g)
  | sentEager {c : ConnId} {q : QueryId} {wire : Wire} {r : ReqId}
    (hwr : σ.sq.find? (·.conn = c) = some ⟨c, q, .send wire⟩)
    (htype : (σ.queries q).msg.type = .commInit) (hop : (σ.queries q).msg.opcode = .eager)
    (hr : (σ.queries q).requestFlag = some r) :
    Transition σ (.wcSend c) (σ.sent c q (Proc.setDone σ.requests r) (σ.sendReqQ.erase r))
  | sentOther {c : ConnId} {q : QueryId} {wire : Wire}
    (hwr : σ.sq.find? (·.conn = c) = some ⟨c, q, .send wire⟩)
    (hother : (σ.queries q).msg.type = .commFin ∨ (σ.queries q).msg.opcode ≠ .eager) :
    Transition σ (.wcSend c) (σ.sent c q σ.requests σ.sendReqQ)
  | readDone {c : ConnId} {p a : QueryId} {r : ReqId} {sge : Sge} {remote : Place} {data : Buffer}
    {msg : Msg} {wire : Wire}
    (hwr : σ.sq.find? (·.conn = c) = some ⟨c, p, .rdmaRead sge remote⟩)
    (ha : (σ.queries p).activeQueryToFree = some a) (hr : (σ.queries p).request = some r)
    (hmsg : msg.toCtl = Proc.sentCtl { (σ.queries a).msg.toCtl with type := .commFin })
    (hwire : wire.ctl = msg.toCtl) :
    Transition σ (.wcRdmaRead c data) (σ.readDone c p a r sge data msg wire)
  | flush : Transition σ .flush σ.flushed
  | link {e : Event} {σ' : Proc} (h : σ.Linked e σ') : Transition σ e σ'
  | establish {id : CmId} {c : ConnId} {τ : Proc} (hcm : σ.cm id = .connecting ∨ σ.cm id = .accepted)
    (hc : (σ.peers (σ.rmapItopGet id).toInt).conn = some c)
    (hτ : Proc.Refills c σ maxPendingRecvQuery τ) :
    Transition σ (.established id)
      ((τ.setPeer (σ.rmapItopGet id) fun x => { x with isConnected := true }).setPhase id .established)

end Libibtl
