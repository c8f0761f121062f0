import Libibtl.Connecting
import Mathlib.Tactic.Simps.Basic

/-! # What the pool and the posting functions do

One equation for each function that takes a query from the pool or posts a work
request. A query is taken and filled in by several functions in turn; `grab`
puts all of that into one update of the state.
-/

namespace Libibtl

open Foundation

/-- A query that has left the pool, with its final content and the state of the allocator after it. -/
structure Grab where
  query : QueryId
  freeQueryQ : List QueryId
  nalloc : Nat
  regMrQ : List Mr
  regMrCachedSize : UInt64T
  content : Query

namespace Proc

@[simps]
def grab (σ : Proc) (g : Grab) : Proc :=
  { σ with
    counter := σ.counter + 1
    freeQueryQ := g.freeQueryQ
    nalloc := g.nalloc
    regMrQ := g.regMrQ
    regMrCachedSize := g.regMrCachedSize
    queries := Function.update σ.queries g.query g.content }

/-- The query was the pool's, or it is new. -/
def Grabs (σ : Proc) (g : Grab) : Prop :=
  (g.query ∈ σ.freeQueryQ ∧ g.freeQueryQ = σ.freeQueryQ.erase g.query ∧ g.nalloc = σ.nalloc) ∨
  (g.query = σ.nalloc ∧ g.freeQueryQ = σ.freeQueryQ ∧ g.nalloc = σ.nalloc + 1)

/-- The work request of `fdmi_post_recv_msg`. -/
def recvWr (c : ConnId) (q : QueryId) (lkey : UInt32T) : RecvWr :=
  ⟨c, q, [⟨.msg q, BitVec.ofNat 32 ctlMsgSize, lkey⟩, ⟨.eager q 0, BitVec.ofNat 32 eagerBuffSize, lkey⟩]⟩

/-- The grabbed query is posted as a receive on `c`. -/
@[simps]
def refill (σ : Proc) (c : ConnId) (g : Grab) : Proc :=
  { σ.grab g with
    rq := σ.rq ++ [recvWr c g.query g.content.msgMr.lkey]
    posted := Function.update σ.posted c (σ.posted c + 1) }

variable {σ : Proc}

theorem regMr_eq (addr : Place) (size : UInt32T) (pd : Pd) :
    ∃ regs cached, (σ.regMr addr size pd).1 = { σ with regMrQ := regs, regMrCachedSize := cached } := by
  rw [regMr]
  split
  · exact ⟨_, _, rfl⟩
  · exact ⟨_, _, rfl⟩

theorem grab_setQuery (g : Grab) (f : Query → Query) :
    (σ.grab g).setQuery g.query f = σ.grab { g with content := f g.content } := by
  simp [setQuery, grab]

theorem grab_regMr (g : Grab) (addr : Place) (size : UInt32T) (pd : Pd) :
    ∃ regs cached,
      ((σ.grab g).regMr addr size pd).1 = σ.grab { g with regMrQ := regs, regMrCachedSize := cached } := by
  obtain ⟨regs, cached, h⟩ := regMr_eq (σ := σ.grab g) addr size pd
  exact ⟨regs, cached, h⟩

/-- What `fdmi_create_query` leaves in the query it returns. -/
structure Blank (σ : Proc) (conn : Option ConnId) (g : Grab) : Prop where
  conn : g.content.conn = conn
  requestFlag : g.content.requestFlag = none
  activeQueryToFree : g.content.activeQueryToFree = none
  msg : g.content.msg = (σ.queries g.query).msg

theorem takeQuery_eq (conn : Option ConnId) :
    ∃ g, σ.Grabs g ∧ g.content.msg = (σ.queries g.query).msg ∧
      σ.takeQuery conn = ({ σ.grab g with counter := σ.counter }, g.query) := by
  rw [takeQuery]
  cases hfind : σ.freeQueryQ.find? (σ.reusable conn) with
  | some q =>
    refine ⟨⟨q, σ.freeQueryQ.erase q, σ.nalloc, σ.regMrQ, σ.regMrCachedSize, σ.queries q⟩,
      .inl ⟨List.mem_of_find?_eq_some hfind, rfl, rfl⟩, rfl, ?_⟩
    simp [grab, Queue.remove]
  | none =>
    cases conn with
    | none =>
      refine ⟨⟨σ.nalloc, σ.freeQueryQ, σ.nalloc + 1, σ.regMrQ, σ.regMrCachedSize, σ.queries σ.nalloc⟩,
        .inr ⟨rfl, rfl, rfl⟩, rfl, ?_⟩
      simp [grab]
    | some c =>
      obtain ⟨regs, cached, hreg⟩ :=
        regMr_eq (σ := { σ with nalloc := σ.nalloc + 1 }) (.msg σ.nalloc) msgSize (σ.conns c).pd
      refine ⟨⟨σ.nalloc, σ.freeQueryQ, σ.nalloc + 1, regs, cached, { σ.queries σ.nalloc with
        msgMr := (({ σ with nalloc := σ.nalloc + 1 } : Proc).regMr (.msg σ.nalloc) msgSize (σ.conns c).pd).2 }⟩,
        .inr ⟨rfl, rfl, rfl⟩, rfl, ?_⟩
      simp only [hreg, setQuery, grab]

theorem createQuery_eq (conn : Option ConnId) :
    ∃ g, σ.Grabs g ∧ σ.Blank conn g ∧ σ.createQuery conn = (σ.grab g, g.query) := by
  obtain ⟨g, hfrom, hmsg, heq⟩ := takeQuery_eq (σ := { σ with counter := σ.counter + 1 }) conn
  refine ⟨{ g with content :=
    { g.content with conn := conn, requestFlag := none, activeQueryToFree := none } },
    hfrom, ⟨rfl, rfl, rfl, hmsg⟩, ?_⟩
  rw [createQuery, heq]
  simp [setQuery, grab]

theorem postRecvMsg_grab {g : Grab} {c : ConnId} (hc : g.content.conn = some c) :
    (σ.grab g).postRecvMsg g.query = σ.refill c g := by
  simp only [postRecvMsg, grab_queries, Function.update_self, hc]
  rfl

theorem repost_eq {q : QueryId} {c : ConnId} (hc : (σ.queries q).conn = some c) :
    ∃ g, σ.Grabs g ∧ σ.Blank (some c) g ∧ σ.repost q = σ.refill c g := by
  obtain ⟨g, hfrom, hblank, heq⟩ := createQuery_eq (σ := σ) (some c)
  refine ⟨g, hfrom, hblank, ?_⟩
  rw [repost, hc, heq]
  exact postRecvMsg_grab hblank.conn

/-! ## Sending -/

/-- The control part that `fdmi_post_send_msg` puts on the wire. -/
def sentCtl (c : Ctl) : Ctl :=
  if (totalSendSize c.dtype c.count).toNat ≤ eagerBuffSize then
    { c with opcode := .eager, eagerSize := totalSendSize c.dtype c.count }
  else c

@[simp] theorem sentCtl_type (c : Ctl) : (sentCtl c).type = c.type := by
  rw [sentCtl]
  split <;> rfl

@[simp] theorem sentCtl_rdmaMr (c : Ctl) : (sentCtl c).rdmaMr = c.rdmaMr := by
  rw [sentCtl]
  split <;> rfl

theorem postSendMsg_eq {q : QueryId} {c : ConnId} (hc : (σ.queries q).conn = some c) :
    ∃ msg wire, msg.toCtl = sentCtl (σ.queries q).msg.toCtl ∧ wire.ctl = msg.toCtl ∧
      σ.postSendMsg q = { σ with
        queries := Function.update σ.queries q { σ.queries q with msg := msg }
        sq := σ.sq ++ [⟨c, q, .send wire⟩] } := by
  rw [postSendMsg, sentCtl]
  split
  · rw [eagerEntry]
    simp only [setCtl, setQuery]
    split
    · simp only [ibvPostSend, Function.update_self, hc]
      exact ⟨_, ⟨_, _, _⟩, rfl, rfl, rfl⟩
    · simp only [ibvPostSend, Function.update_self, Function.update_idem, hc]
      exact ⟨_, ⟨_, _, _⟩, rfl, rfl, rfl⟩
  · simp only [ibvPostSend, hc]
    refine ⟨(σ.queries q).msg, ⟨(σ.queries q).msg.toCtl, 0, fun _ => 0⟩, rfl, rfl, ?_⟩
    simp only [← hc, Function.update_eq_self]

/-! ## Receiving -/

/-- The fields of a query that `fdmi_init_passive_query` takes from the arguments of the receive. -/
structure Receives (rank : CInt) (prm : RecvParam) (x : Query) : Prop where
  requestFlag : x.requestFlag = some prm.request
  request : x.request = some prm.request
  addr : x.msg.addr = prm.buf
  rank : x.msg.rank = uint64OfInt rank
  tag : x.msg.tag = uint64OfInt prm.tag
  commId : x.msg.commId = prm.comm.id
  count : x.msg.count = prm.count
  dtype : x.msg.dtype = prm.datatype

theorem initPassiveQuery_eq (hd : σ.dctx.isSome) (rank : CInt) (prm : RecvParam) :
    ∃ g, σ.Grabs g ∧ Receives rank prm g.content ∧ g.content.conn = none ∧
      σ.initPassiveQuery rank prm = (σ.grab g, g.query) := by
  obtain ⟨dctx, hdctx⟩ := Option.isSome_iff_exists.1 hd
  obtain ⟨g, hfrom, hblank, heq⟩ := createQuery_eq (σ := σ) none
  obtain ⟨regs, cached, hreg⟩ :=
    grab_regMr (σ := σ) g (.user prm.buf) (uint32OfUint64 (regSize prm.datatype prm.count)) dctx.pd
  refine ⟨{ g with
    regMrQ := regs
    regMrCachedSize := cached
    content := { g.content with
      requestFlag := some prm.request
      request := some prm.request
      msg := { g.content.msg with
        addr := prm.buf
        rank := uint64OfInt rank
        tag := uint64OfInt prm.tag
        count := prm.count
        dtype := prm.datatype
        commId := prm.comm.id
        op := prm.op
        rdmaMr := ((σ.grab g).regMr (.user prm.buf)
          (uint32OfUint64 (regSize prm.datatype prm.count)) dctx.pd).2 } } },
    hfrom, ⟨rfl, rfl, rfl, rfl, rfl, rfl, rfl, rfl⟩, hblank.conn, ?_⟩
  rw [initPassiveQuery, hdctx]
  simp only [heq, hreg, setCtl, setQuery]
  simp only [grab, Function.update_self, Function.update_idem]

/-- The local address and length of the RDMA read for a passive query. -/
def readSge (m : Msg) : Sge :=
  ⟨.user m.addr, uint32OfUint64 (regSize m.dtype m.count), m.rdmaMr.lkey⟩

theorem postRdmaRead_eq {p a : QueryId} {c : ConnId} (hc : (σ.queries a).conn = some c) (hpa : p ≠ a) :
    ∃ regs cached mr, σ.postRdmaRead p a = { σ with
      regMrQ := regs
      regMrCachedSize := cached
      queries := Function.update σ.queries p { σ.queries p with conn := some c, msgMr := mr }
      sq := σ.sq ++ [⟨c, p, .rdmaRead (readSge (σ.queries p).msg) (σ.queries a).msg.rdmaMr.addr⟩] } := by
  obtain ⟨regs, cached, hreg⟩ := regMr_eq (σ := σ) (.msg p) msgSize (σ.conns c).pd
  rw [postRdmaRead, hc]
  refine ⟨regs, cached, (σ.regMr (.msg p) msgSize (σ.conns c).pd).2, ?_⟩
  simp only [hreg, setQuery, Function.update_self, Function.update_of_ne hpa.symm, readSge]

end Proc

end Libibtl
