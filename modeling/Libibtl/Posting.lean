import Libibtl.Process

/-! # Posting sends, receives and RDMA reads

The functions of `fdmi.c` that hand work requests to the adaptor, and the calls
`fdmi_verbs_isend`, `fdmi_verbs_irecv` and `fdmi_verbs_iprobe` above them. The
bytes of a gather entry are taken when the work request is posted.
-/

namespace Libibtl

open Foundation

/-- The arguments of `fdmi_verbs_isend`. The source never sets `psparam.op`, so its value is an
input as well. -/
structure SendParam where
  buf : Ptr
  count : CInt
  datatype : Datatype
  dest : CInt
  tag : CInt
  comm : Communicator
  request : ReqId
  op : CInt

/-- The arguments of `fdmi_verbs_irecv`, with the uninitialised `prparam.op`. -/
structure RecvParam where
  buf : Ptr
  count : CInt
  datatype : Datatype
  source : CInt
  tag : CInt
  comm : Communicator
  request : ReqId
  op : CInt

namespace Proc

variable (σ : Proc)

/-! ## Work requests -/

def postRecvMsg (q : QueryId) : Proc :=
  match (σ.queries q).conn with
  | none => σ.abort
  | some c =>
    let lkey := (σ.queries q).msgMr.lkey
    let wr : RecvWr :=
      ⟨c, q, [⟨.msg q, BitVec.ofNat 32 ctlMsgSize, lkey⟩, ⟨.eager q 0, BitVec.ofNat 32 eagerBuffSize, lkey⟩]⟩
    { σ with rq := σ.rq ++ [wr], posted := Function.update σ.posted c (σ.posted c + 1) }

/-- The bytes that a gather entry describes. The control part of a message is not taken as bytes. -/
def gather (sge : Sge) : Buffer :=
  match sge.addr with
  | .user p => fun i => σ.mem p.obj (p.off + i)
  | .eager q off => fun i => (σ.queries q).msg.eagerBuff (off + i)
  | .msg _ => fun _ => 0

/-- The eager part of `fdmi_post_send_msg`: the message as changed, and `sge[1]`. The pack loop
advances the very pointer that is then stored as the address of `sge[1]`. -/
def eagerEntry (q : QueryId) : Proc × Sge :=
  let m := (σ.queries q).msg
  let total := totalSendSize m.dtype m.count
  let σ' := σ.setCtl q fun c => { c with opcode := .eager, eagerSize := total }
  if m.dtype.count = 1 then
    (σ', ⟨.user m.addr, total, m.rdmaMr.lkey⟩)
  else
    let st := packLoop m.dtype m.count m.eagerBuff (σ.mem m.addr.obj) m.addr.off
    (σ'.setQuery q fun x => { x with msg := { x.msg with eagerBuff := st.dst } },
      ⟨.eager q st.dstOff, total, (σ.queries q).msgMr.lkey⟩)

/-- `ibv_post_send` of the control part and, when there is one, of `sge[1]`. -/
def ibvPostSend (q : QueryId) (sge1 : Option Sge) : Proc :=
  match (σ.queries q).conn with
  | none => σ.abort
  | some c =>
    let wire : Wire :=
      match sge1 with
      | none => ⟨(σ.queries q).msg.toCtl, 0, fun _ => 0⟩
      | some sge => ⟨(σ.queries q).msg.toCtl, sge.length.toNat, σ.gather sge⟩
    { σ with sq := σ.sq ++ [⟨c, q, .send wire⟩] }

def postSendMsg (q : QueryId) : Proc :=
  let m := (σ.queries q).msg
  if (totalSendSize m.dtype m.count).toNat ≤ eagerBuffSize then
    let (σ', sge1) := σ.eagerEntry q
    σ'.ibvPostSend q (some sge1)
  else σ.ibvPostSend q none

def postRdmaRead (p a : QueryId) : Proc :=
  match (σ.queries a).conn with
  | none => σ.abort
  | some c =>
    let (σ', mr) := σ.regMr (.msg p) msgSize (σ.conns c).pd
    let σ'' := σ'.setQuery p fun x => { x with conn := some c, msgMr := mr }
    let m := (σ''.queries p).msg
    let sge : Sge := ⟨.user m.addr, uint32OfUint64 (regSize m.dtype m.count), m.rdmaMr.lkey⟩
    { σ'' with sq := σ''.sq ++ [⟨c, p, .rdmaRead sge (σ''.queries a).msg.rdmaMr.addr⟩] }

/-! ## Sending -/

def postSendMsgParam (prm : SendParam) : Proc :=
  match (σ.peers prm.dest.toInt).conn with
  | none => σ.abort
  | some c =>
    let (σ₁, q) := σ.createQuery (some c)
    let (σ₂, mr) := σ₁.regMr (.user prm.buf) (uint32OfUint64 (regSize prm.datatype prm.count)) (σ₁.conns c).pd
    let σ₃ := σ₂.setQuery q fun x => { x with requestFlag := some prm.request, request := some prm.request }
    let σ₄ := σ₃.setCtl q fun x =>
      { x with
        type := .commInit, opcode := .rdmaRead, epoch := σ.ftEpoch, addr := prm.buf, rank := uint64OfInt σ.prank,
        tag := uint64OfInt prm.tag, count := prm.count, commId := prm.comm.id, dtype := prm.datatype,
        op := prm.op, rdmaMr := mr }
    σ₄.postSendMsg q

/-- An unconnected destination is not refused: `fdmi_connect` returns at once. -/
def isend (prm : SendParam) : Proc :=
  if σ.InTable prm.dest then
    (({ σ with sendReqQ := Queue.enq σ.sendReqQ prm.request } : Proc).setFlag prm.request 0).postSendMsgParam prm
  else σ.abort

/-! ## Receiving -/

def getMatchedQuery (a : QueryId) (queue : List QueryId) : Option QueryId :=
  queue.find? fun p => isMatchedQuery σ.ftEpoch (σ.queries a).msg.toCtl (σ.queries p).msg.toCtl

def getMatchedQuery2 (rank tag : CInt) (comm : Communicator) (queue : List QueryId) : Option QueryId :=
  queue.find? fun a => isMatchedQuery2 σ.ftEpoch rank tag comm.id (σ.queries a).msg.toCtl

/-- `rank` is the physical rank of the source. The type, the opcode and the epoch of the recycled
message stay as they are. -/
def initPassiveQuery (rank : CInt) (prm : RecvParam) : Proc × QueryId :=
  match σ.dctx with
  | none => (σ.abort, 0)
  | some dctx =>
    let (σ₁, p) := σ.createQuery none
    let (σ₂, mr) := σ₁.regMr (.user prm.buf) (uint32OfUint64 (regSize prm.datatype prm.count)) dctx.pd
    let σ₃ := σ₂.setQuery p fun x => { x with requestFlag := some prm.request, request := some prm.request }
    (σ₃.setCtl p fun x =>
      { x with
        addr := prm.buf, rank := uint64OfInt rank, tag := uint64OfInt prm.tag, count := prm.count,
        dtype := prm.datatype, commId := prm.comm.id, op := prm.op, rdmaMr := mr }, p)

/-- `memcpy` or the unpack loop, from the eager buffer of `a` to the user pointer `recv`. -/
def copyEager (recv : Ptr) (dtype : Datatype) (a : QueryId) : Proc :=
  σ.setMem recv.obj fun b =>
    unpackEager dtype (σ.queries a).msg.count b recv.off (σ.queries a).msg.eagerBuff

def cpyEagerBuff (p a : QueryId) : Proc :=
  let σ₁ := σ.copyEager (σ.queries p).msg.addr (σ.queries p).msg.dtype a
  match (σ.queries p).requestFlag, (σ.queries p).request with
  | some flag, some request =>
    (((σ₁.setFlag flag 1).setStatus request (σ.queries a).msg.toCtl).destroyQuery p).destroyQuery a
  | _, _ => σ₁.abort

def cpyEagerBuff2 (recv : Ptr) (dtype : Datatype) (requestFlag : ReqId) (a : QueryId) : Proc :=
  ((σ.copyEager recv dtype a).setFlag requestFlag 1).destroyQuery a

def postRecvMsgParam (rank : CInt) (prm : RecvParam) : Proc :=
  match σ.getMatchedQuery2 rank prm.tag prm.comm σ.aq with
  | some a =>
    let σ₁ := { σ with aq := Queue.remove σ.aq a }
    match (σ₁.queries a).msg.opcode with
    | .eager =>
      let σ₂ := σ₁.cpyEagerBuff2 prm.buf prm.datatype prm.request a
      σ₂.setStatus prm.request (σ₂.queries a).msg.toCtl
    | .rdmaRead =>
      let (σ₂, p) := σ₁.initPassiveQuery rank prm
      (σ₂.setQuery p fun x => { x with activeQueryToFree := some a }).postRdmaRead p a
    | .loop => σ₁
  | none =>
    let (σ₁, p) := σ.initPassiveQuery rank prm
    let σ₂ := σ₁.setCtl p fun x => { x with epoch := σ.ftEpoch }
    { σ₂ with pq := Queue.enq σ₂.pq p }

def irecv (prm : RecvParam) : Proc :=
  match commGetPrank prm.comm prm.source with
  | none => σ.abort
  | some source =>
    if source = fmiAnySource ∨ σ.InTable source then
      (σ.setFlag prm.request 0).postRecvMsgParam source prm
    else σ.abort

/-- The message that `fdmi_verbs_iprobe` reports; `none` is `flag = 0`. -/
def iprobe (source tag : CInt) (comm : Communicator) : Option QueryId :=
  σ.aq.find? fun a => isProbed σ.ftEpoch source tag comm.id (σ.queries a).msg.toCtl

end Proc

end Libibtl
