import Libibtl.Message

/-! # The state of one process and its pool of queries

The record holds the globals of `fdmi.c`, the heap objects they point to, and the
part of the adaptor and of the connection manager that decides which completions
and events can come next. `aborted` is set where the source dereferences NULL,
indexes a table out of bounds or calls `fdmi_err`.
-/

namespace Libibtl

open Foundation

/-- What the connection manager knows of an identifier. -/
inductive CmPhase
  | unused | resolving | routing | connecting | accepted | established | dropped
  deriving DecidableEq, Repr

/-- `struct fdmi_domain_context`, as far as the modelled code reads it. -/
structure DomainContext where
  ctx : Nat
  pd : Pd
  deriving DecidableEq, Repr

structure Proc where
  queries : QueryId → Query
  nalloc : Nat
  requests : ReqId → Request
  mem : Nat → Buffer
  counter : Int
  freeQueryQ : List QueryId
  aq : List QueryId
  pq : List QueryId
  sendReqQ : List ReqId
  regMrQ : List Mr
  regMrCachedSize : UInt64T
  ftEpoch : CInt
  fdmiState : FdmiState
  prank : CInt
  conns : ConnId → Connection
  nconn : Nat
  peers : Int → Peer
  numpeer : Nat
  connectedRank : CInt
  hstbItop : Hashtable
  dctx : Option DomainContext
  rq : List RecvWr
  sq : List SendWr
  posted : ConnId → Nat
  completed : ConnId → Nat
  cm : CmId → CmPhase
  ibvRegMr : List Mr → Pd → Place → UInt32T → Mr
  aborted : Bool

/-- What `fdmi_verbs_init` does not determine: uninitialised memory, user memory and the adaptor. -/
structure Boot where
  queries : QueryId → Query
  requests : ReqId → Request
  mem : Nat → Buffer
  conns : ConnId → Connection
  ibvRegMr : List Mr → Pd → Place → UInt32T → Mr

namespace Proc

/-- The state after `fdmi_verbs_init`, with `FDRANK` and `FDMI_SIZE` unset. -/
def init (b : Boot) : Proc where
  queries := b.queries
  nalloc := 0
  requests := b.requests
  mem := b.mem
  counter := 0
  freeQueryQ := []
  aq := []
  pq := []
  sendReqQ := []
  regMrQ := []
  regMrCachedSize := 0
  ftEpoch := 0
  fdmiState := .compute
  prank := 0
  conns := b.conns
  nconn := 0
  peers := fun _ => ⟨none, false, false⟩
  numpeer := 1024 * 1024
  connectedRank := 1
  hstbItop := Hashtable.create (4 * (1024 * 1024) * 2)
  dctx := none
  rq := []
  sq := []
  posted := fun _ => 0
  completed := fun _ => 0
  cm := fun _ => .unused
  ibvRegMr := b.ibvRegMr
  aborted := false

variable (σ : Proc)

def abort : Proc := { σ with aborted := true }

def setQuery (q : QueryId) (f : Query → Query) : Proc :=
  { σ with queries := Function.update σ.queries q (f (σ.queries q)) }

def setCtl (q : QueryId) (f : Ctl → Ctl) : Proc :=
  σ.setQuery q fun x => { x with msg := { x.msg with toCtl := f x.msg.toCtl } }

def setRequest (r : ReqId) (f : Request → Request) : Proc :=
  { σ with requests := Function.update σ.requests r (f (σ.requests r)) }

/-- `*request_flag = v`. -/
def setFlag (r : ReqId) (v : CInt) : Proc := σ.setRequest r fun x => { x with requestFlag := v }

/-- `request->prank` and `request->tag` from the fields of a message. -/
def setStatus (r : ReqId) (c : Ctl) : Proc :=
  σ.setRequest r fun x => { x with prank := intOfUint64 c.rank, tag := intOfUint64 c.tag }

def setMem (obj : Nat) (f : Buffer → Buffer) : Proc :=
  { σ with mem := Function.update σ.mem obj (f (σ.mem obj)) }

/-- An index into the peer table. -/
def InTable (rank : CInt) : Prop := 0 ≤ rank.toInt ∧ rank.toInt < σ.numpeer

instance (rank : CInt) : Decidable (σ.InTable rank) := inferInstanceAs (Decidable (_ ∧ _))

def setPeer (rank : CInt) (f : Peer → Peer) : Proc :=
  { σ with peers := Function.update σ.peers rank.toInt (f (σ.peers rank.toInt)) }

def rmapItopAdd (id : CmId) (prank : CInt) : Proc :=
  { σ with hstbItop := σ.hstbItop.add id (uint64OfInt prank) }

def rmapItopGet (id : CmId) : CInt := intOfUint64 (σ.hstbItop.get id)

/-! ## Registration cache -/

/-- The hit test of `fdmi_reg_mr`; both ends start at the same address. -/
def covers (pd : Pd) (addr : Place) (size : UInt32T) (mr : Mr) : Bool :=
  mr.pd = pd ∧ mr.addr = addr ∧ size.toNat ≤ mr.length.toNat

def regMr (addr : Place) (size : UInt32T) (pd : Pd) : Proc × Mr :=
  match σ.regMrQ.find? (covers pd addr size) with
  | some mr => (σ, mr)
  | none =>
    let mr := σ.ibvRegMr σ.regMrQ pd addr size
    ({ σ with regMrQ := Queue.enq σ.regMrQ mr, regMrCachedSize := σ.regMrCachedSize + mr.length }, mr)

/-! ## The pool -/

/-- The search test of `fdmi_create_query`: both passive, or both active in one protection domain. -/
def reusable (conn : Option ConnId) (q : QueryId) : Bool :=
  match (σ.queries q).conn, conn with
  | none, none => true
  | some c, some c' => (σ.conns c).pd = (σ.conns c').pd
  | _, _ => false

/-- The part of `fdmi_create_query` that finds or allocates the query. -/
def takeQuery (conn : Option ConnId) : Proc × QueryId :=
  match σ.freeQueryQ.find? (σ.reusable conn) with
  | some q => ({ σ with freeQueryQ := Queue.remove σ.freeQueryQ q }, q)
  | none =>
    let q := σ.nalloc
    let σ' := { σ with nalloc := q + 1 }
    match conn with
    | none => (σ', q)
    | some c =>
      let (σ'', mr) := σ'.regMr (.msg q) msgSize (σ'.conns c).pd
      (σ''.setQuery q fun x => { x with msgMr := mr }, q)

def createQuery (conn : Option ConnId) : Proc × QueryId :=
  let (σ', q) := ({ σ with counter := σ.counter + 1 } : Proc).takeQuery conn
  (σ'.setQuery q fun x => { x with conn := conn, requestFlag := none, activeQueryToFree := none }, q)

def destroyQuery (q : QueryId) : Proc :=
  { σ with freeQueryQ := Queue.enq σ.freeQueryQ q, counter := σ.counter - 1 }

end Proc

end Libibtl
