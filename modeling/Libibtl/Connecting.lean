import Libibtl.Completion

/-! # Connection events

The handlers of `fdmi_poll_event_recv_channel` and `fdmi_verbs_connect`, for the
one domain that the library supports. Ranks of outgoing connections are chosen by
the caller, ranks of incoming ones by the counter `connected_rank`.
-/

namespace Libibtl

open Foundation

namespace Proc

variable (σ : Proc)

def setPhase (id : CmId) (phase : CmPhase) : Proc := { σ with cm := Function.update σ.cm id phase }

/-- `fdmi_create_qp`: the first call makes the domain context, with the protection domain `pd` that
`ibv_alloc_pd` returns; later calls insist on the same device. -/
def createQp (verbs : Nat) (pd : Pd) : Proc :=
  match σ.dctx with
  | none => { σ with dctx := some ⟨verbs, pd⟩ }
  | some dctx => if dctx.ctx = verbs then σ else σ.abort

def createConnection (id : CmId) : Proc × ConnId :=
  let pd := match σ.dctx with
    | none => 0
    | some dctx => dctx.pd
  ({ σ with conns := Function.update σ.conns σ.nconn ⟨id, pd⟩, nconn := σ.nconn + 1 }, σ.nconn)

/-- `fdmi_verbs_connect`, up to the loop that waits for the connection. -/
def verbsConnect (rank : CInt) (id : CmId) : Proc :=
  if σ.InTable rank then (σ.rmapItopAdd id rank).setPhase id .resolving else σ.abort

/-- RDMA_CM_EVENT_CONNECT_REQUEST. The slot of the peer is overwritten without a test. -/
def onConnectRequest (id : CmId) (verbs : Nat) (pd : Pd) : Proc :=
  if ¬ σ.InTable σ.connectedRank then σ.abort
  else if (σ.peers σ.connectedRank.toInt).onConnectingLock then σ.setPhase id .dropped
  else
    let σ₁ := (σ.setPeer σ.connectedRank fun x => { x with onConnectingLock := true }).createQp verbs pd
    let (σ₂, c) := σ₁.createConnection id
    let σ₃ := (σ₂.setPeer σ.connectedRank fun x => { x with conn := some c }).setPhase id .accepted
    { σ₃.rmapItopAdd id σ.connectedRank with connectedRank := σ.connectedRank + 1 }

/-- RDMA_CM_EVENT_ADDR_RESOLVED. An occupied slot is kept, and the new connection goes no further. -/
def onAddrResolved (id : CmId) (verbs : Nat) (pd : Pd) : Proc :=
  let (σ₁, c) := (σ.createQp verbs pd).createConnection id
  let rank := σ₁.rmapItopGet id
  match (σ₁.peers rank.toInt).conn with
  | none => (σ₁.setPeer rank fun x => { x with conn := some c }).setPhase id .routing
  | some _ => σ₁.setPhase id .dropped

/-- `n` turns of `fdmi_post_recv_msg(fdmi_create_query(conn))`. -/
def postPending (conn : Option ConnId) : Nat → Proc
  | 0 => σ
  | n + 1 =>
    let (σ₁, q) := (postPending conn n).createQuery conn
    σ₁.postRecvMsg q

/-- RDMA_CM_EVENT_ESTABLISHED. -/
def onEstablished (id : CmId) : Proc :=
  let rank := σ.rmapItopGet id
  let σ₁ := σ.postPending (σ.peers rank.toInt).conn maxPendingRecvQuery
  (σ₁.setPeer rank fun x => { x with isConnected := true }).setPhase id .established

end Proc

/-- One step of a process: a call of the user, a completion, or an event of the connection manager. -/
inductive Event
  | isend (prm : SendParam)
  | irecv (prm : RecvParam)
  | wcRecv (c : ConnId) (w : Wire)
  | wcSend (c : ConnId)
  | wcRdmaRead (c : ConnId) (data : Buffer)
  | flush
  | connect (rank : CInt) (id : CmId)
  | connectRequest (id : CmId) (verbs : Nat) (pd : Pd)
  | addrResolved (id : CmId) (verbs : Nat) (pd : Pd)
  | routeResolved (id : CmId)
  | established (id : CmId)

namespace Proc

/-- The effect of an event, or `none` when the event cannot occur in the state. The identifier of a
connection request is fresh, and the manager reports on an identifier in the order of its phases.
A receive waits until the domain context exists. -/
def effect (σ : Proc) : Event → Option Proc
  | .isend prm => some (σ.isend prm)
  | .irecv prm => if σ.dctx.isSome then some (σ.irecv prm) else none
  | .wcRecv c w => σ.wcRecv c w
  | .wcSend c => σ.wcSend c
  | .wcRdmaRead c data => σ.wcRdmaRead c data
  | .flush => some σ.flushQueryQp
  | .connect rank id => if σ.cm id = .unused then some (σ.verbsConnect rank id) else none
  | .connectRequest id verbs pd =>
    if σ.cm id = .unused then some (σ.onConnectRequest id verbs pd) else none
  | .addrResolved id verbs pd =>
    if σ.cm id = .resolving then some (σ.onAddrResolved id verbs pd) else none
  | .routeResolved id => if σ.cm id = .routing then some (σ.setPhase id .connecting) else none
  | .established id =>
    if σ.cm id = .connecting ∨ σ.cm id = .accepted then some (σ.onEstablished id) else none

/-- A step that ends the process leads to no state. -/
def step (σ : Proc) (e : Event) : Option Proc :=
  (σ.effect e).bind fun σ' => if σ'.aborted then none else some σ'

end Proc

/-- A start with zeroed memory, and an adaptor that numbers its registrations. -/
def Boot.zeroed : Boot where
  queries _ :=
    let mr : Mr := ⟨0, .msg 0, 0, 0, 0⟩
    ⟨none, ⟨⟨.commInit, .eager, 0, ⟨0, 0⟩, 0, 0, 0, 0, 0, fmiByte, mr, 0⟩, fun _ => 0⟩, mr, none, none, none⟩
  requests _ := ⟨0, 0, 0⟩
  mem _ _ := 0
  conns _ := ⟨0, 0⟩
  ibvRegMr regs pd addr size := ⟨pd, addr, size.setWidth 64, regs.length, regs.length⟩

/-- The events of an outgoing connection that succeeds. -/
def Event.connecting (rank : CInt) (id : CmId) : List Event :=
  [.connect rank id, .addrResolved id 0 0, .routeResolved id, .established id]

end Libibtl
