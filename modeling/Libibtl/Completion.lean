import Libibtl.Posting

/-! # Completion handlers and the poller

One call of a handler is one step. The adaptor completes the work requests of
one queue of a connection in posting order, so a completion is named by its
connection: it belongs to the oldest outstanding request there.
-/

namespace Libibtl

open Foundation

namespace Proc

variable (σ : Proc)

/-! ## Handlers -/

/-- The discard test of a failed process, as written: the bit is set before it is tested. -/
def discards (c : Ctl) : Bool := σ.fdmiState = .failure ∧ c.op ||| fdmiForce = 0

/-- The end of the two handlers of receive completions: `fdmi_post_recv_msg(fdmi_create_query(conn))`
with the connection read from `q`, which may already be back in the pool. -/
def repost (q : QueryId) : Proc :=
  let (σ', n) := σ.createQuery (σ.queries q).conn
  σ'.postRecvMsg n

/-- What `fdmi_on_recv_cq_wc_recv` does with the message before it posts the next receive. -/
def matchArrival (a : QueryId) : Proc :=
  match σ.getMatchedQuery a σ.pq with
  | some p =>
    let σ₁ := { σ with pq := Queue.remove σ.pq p }
    match (σ₁.queries a).msg.opcode with
    | .eager => σ₁.cpyEagerBuff p a
    | .rdmaRead => (σ₁.setQuery p fun x => { x with activeQueryToFree := some a }).postRdmaRead p a
    | .loop => σ₁
  | none =>
    if (σ.queries a).msg.epoch.slt σ.ftEpoch then σ else { σ with aq := Queue.enq σ.aq a }

def onRecvCqWcRecv (a : QueryId) : Proc :=
  if σ.discards (σ.queries a).msg.toCtl then σ.destroyQuery a
  else (σ.matchArrival a).repost a

def onRecvCqWcRdmaRead (p : QueryId) : Proc :=
  match (σ.queries p).activeQueryToFree, (σ.queries p).requestFlag, (σ.queries p).request with
  | some a, some flag, some request =>
    let σ₁ := σ.setCtl a fun c => { c with type := .commFin }
    let σ₂ := (σ₁.setFlag flag 1).setStatus request (σ₁.queries a).msg.toCtl
    (σ₂.postSendMsg a).destroyQuery p
  | _, _, _ => σ.abort

def onRecvCqWcSend (q : QueryId) : Proc := σ.destroyQuery q

def onSendCqWcSend (q : QueryId) : Proc :=
  match (σ.queries q).msg.opcode, (σ.queries q).requestFlag with
  | .eager, some flag =>
    let σ₁ := σ.setFlag flag 1
    ({ σ₁ with sendReqQ := Queue.remove σ₁.sendReqQ flag } : Proc).destroyQuery q
  | .eager, none => σ.abort
  | _, _ => σ.destroyQuery q

/-- `fdmi_destroy_query(query->active_query_to_free)` if it is set, then the query itself. -/
def destroyBoth (q : QueryId) : Proc :=
  match (σ.queries q).activeQueryToFree with
  | none => σ.destroyQuery q
  | some x => (σ.destroyQuery x).destroyQuery q

/-- The FIN is attributed to whichever send stands first in the queue. -/
def completeOldestSend : Proc :=
  match Queue.deq σ.sendReqQ with
  | (none, _) => σ
  | (some r, rest) => ({ σ with sendReqQ := rest } : Proc).setFlag r 1

def onSendCqWcRecv (q : QueryId) : Proc :=
  if σ.discards (σ.queries q).msg.toCtl then (σ.destroyBoth q).repost q
  else (σ.completeOldestSend.destroyBoth q).repost q

/-! ## The poller -/

/-- The adaptor scatters a message over the control part and the eager buffer of `q`. -/
def scatter (q : QueryId) (w : Wire) : Proc :=
  σ.setQuery q fun x =>
    { x with msg := { toCtl := w.ctl, eagerBuff := memcpy x.msg.eagerBuff 0 w.payload 0 w.payloadLen } }

/-- `query->msg->rank = fdmi_rmap_itop_get(query->conn->rcid)`. -/
def stampRank (q : QueryId) : Proc :=
  match (σ.queries q).conn with
  | none => σ.abort
  | some c => σ.setCtl q fun x => { x with rank := uint64OfInt (σ.rmapItopGet (σ.conns c).rcid) }

/-- The oldest receive of connection `c` completes with the message `w`; the poller has read the
completion but not yet called a handler. -/
def takeRecv (c : ConnId) (w : Wire) : Option (Proc × QueryId) :=
  (σ.rq.find? (·.conn = c)).map fun wr =>
    let σ₁ := { σ with
      rq := σ.rq.eraseP (·.conn = c)
      completed := Function.update σ.completed c (σ.completed c + 1) }
    ((σ₁.scatter wr.wrId w).stampRank wr.wrId, wr.wrId)

def dispatchRecv (q : QueryId) : Proc :=
  match (σ.queries q).msg.type with
  | .commInit => σ.onRecvCqWcRecv q
  | .commFin => σ.onSendCqWcRecv q

def wcRecv (c : ConnId) (w : Wire) : Option Proc := (σ.takeRecv c w).map fun r => r.1.dispatchRecv r.2

def dispatchSend (q : QueryId) : Proc :=
  match (σ.queries q).msg.type with
  | .commInit => σ.onSendCqWcSend q
  | .commFin => σ.onRecvCqWcSend q

def takeSend (c : ConnId) : Proc := { σ with sq := σ.sq.eraseP (·.conn = c) }

/-- The oldest request of the send queue of `c` is a SEND, and it completes. -/
def wcSend (c : ConnId) : Option Proc :=
  match σ.sq.find? (·.conn = c) with
  | some ⟨_, q, .send _⟩ => some (((σ.takeSend c).stampRank q).dispatchSend q)
  | _ => none

/-- The adaptor has written the bytes it read from the peer to the local address. -/
def scatterRead (sge : Sge) (data : Buffer) : Proc :=
  match sge.addr with
  | .user p => σ.setMem p.obj fun b => memcpy b p.off data 0 sge.length.toNat
  | _ => σ

/-- The oldest request of the send queue of `c` is an RDMA read, and it completes with `data`. -/
def wcRdmaRead (c : ConnId) (data : Buffer) : Option Proc :=
  match σ.sq.find? (·.conn = c) with
  | some ⟨_, p, .rdmaRead sge _⟩ =>
    some ((((σ.takeSend c).scatterRead sge data).stampRank p).onRecvCqWcRdmaRead p)
  | _ => none

/-! ## Flushing -/

/-- One loop of `fdmi_flush_query_qp`, over the queries of one queue. -/
def flushQueue (remove : Proc → QueryId → Proc) (queue : List QueryId) : Proc :=
  queue.foldl
    (fun σ q => if (σ.queries q).msg.op &&& fdmiPresv = 0 then (remove σ q).destroyQuery q else σ) σ

def flushQueryQp : Proc :=
  let σ₁ := σ.flushQueue (fun σ q => { σ with aq := Queue.remove σ.aq q }) σ.aq
  σ₁.flushQueue (fun σ q => { σ with pq := Queue.remove σ.pq q }) σ₁.pq

end Proc

end Libibtl
