import Libibtl.Foundation.Ledger
import Libibtl.MatchingLog
import Libibtl.Rendezvous

/-! # A set of messages and receives

The messages and the receives of a set are offered to the process in any order,
between completions of the reads that they cause. An eager receive copies from the
buffer in which the message arrived, and the bytes behind the payload are left from
earlier uses of that buffer.
-/

namespace Libibtl

open Foundation

universe u v

/-- Named messages and receives, and the memory that reads find behind a connection. -/
structure Traffic (ι : Type u) (κ : Type v) where
  conn : ι → ConnId
  wire : ι → Wire
  recv : κ → RecvParam
  remote : ConnId → Place → Buffer

inductive Act (ι : Type u) (κ : Type v)
  | arrival (i : ι)
  | post (k : κ)
  | readDone (c : ConnId)
  | sendDone (c : ConnId)

/-- What an act offers to the matching code. -/
def Act.offer {ι : Type u} {κ : Type v} : Act ι κ → Option (ι ⊕ κ)
  | .arrival i => some (.inl i)
  | .post k => some (.inr k)
  | .readDone _ | .sendDone _ => none

/-- The number of bytes that `fdmi_cpy_eager_buff` takes from the eager buffer. -/
def unpackSize (d : Datatype) (n : CInt) : Nat :=
  if d.count = 1 then (uint64OfInt d.blength * d.size * uint64OfInt n).toNat else d.dataSize n

theorem unpackEager_congr {d : Datatype} {n : CInt} {recv eager eager' : Buffer} {off : Nat}
    (h : ∀ j < unpackSize d n, eager j = eager' j) :
    unpackEager d n recv off eager = unpackEager d n recv off eager' := by
  rw [unpackSize] at h
  rw [unpackEager, unpackEager]
  split
  · rename_i hcount
    rw [if_pos hcount] at h
    refine memcpy_congr fun j hj => ?_
    rw [Nat.zero_add]
    exact h j hj
  · rename_i hcount
    rw [if_neg hcount] at h
    rw [unpackLoop, unpackLoop, copyLoop_eq_iterate, copyLoop_eq_iterate]
    congr 1
    refine iterate_copyBlock_congr _ _ _ _ fun j hj => h j ?_
    rw [Nat.zero_add] at hj
    exact hj

namespace Log

/-- A record that starts in the state `σ`. -/
def start {ι : Type u} {κ : Type v} [Inhabited ι] [Inhabited κ] (σ : Proc) : Log ι κ where
  proc := σ
  history := []
  pairs := []
  msgAt _ := default
  recvAt _ := default

end Log

namespace Traffic

variable {ι : Type u} {κ : Type v} (t : Traffic ι κ)

/-- The event of an act. A read brings what is stored at its remote address. -/
def event (σ : Proc) : Act ι κ → Option Event
  | .arrival i => some (.wcRecv (t.conn i) (t.wire i))
  | .post k => some (.irecv (t.recv k))
  | .readDone c =>
    match σ.sq.find? (·.conn = c) with
    | some ⟨_, _, .rdmaRead _ remote⟩ => some (.wcRdmaRead c (t.remote c remote))
    | _ => none
  | .sendDone c => some (.wcSend c)

def step (l : Log ι κ) (a : Act ι κ) : Option (Log ι κ) :=
  (t.event l.proc a).bind fun e => (l.proc.step e).map fun σ' => l.record σ' a.offer

/-- The physical rank of the source of a receive. -/
def source (k : κ) : CInt := (commGetPrank (t.recv k).comm (t.recv k).source).getD fmiAnySource

/-- The control part of a message after the poller has stamped its rank. -/
def ctl (σ : Proc) (i : ι) : Ctl :=
  { (t.wire i).ctl with rank := uint64OfInt (σ.rmapItopGet (σ.conns (t.conn i)).rcid) }

/-- A query that carries the message `i`. -/
structure Message (σ : Proc) (i : ι) (x : Query) : Prop where
  conn : x.conn = some (t.conn i)
  ctl : x.msg.toCtl = t.ctl σ i
  payload : ∀ j < (t.wire i).payloadLen, x.msg.eagerBuff j = (t.wire i).payload j

def naming (σ : Proc) : Naming ι κ where
  message := t.Message σ
  receive k := Proc.Receives (t.source k) (t.recv k)
  menv i := σ.arrivalEnvelope (t.conn i) (t.wire i)
  renv k := (t.recv k).envelope (t.source k)
  message_envelope i x h := by
    rw [h.ctl]
    simp [ctl, Ctl.envelope, Proc.arrivalEnvelope]
  receive_envelope k x h := h.envelope

/-- The messages come from peers, every receive has a request and a buffer of its own, and everyone has
at most one partner. -/
structure Separate (σ : Proc) (items : List (ι ⊕ κ)) : Prop where
  nodup : items.Nodup
  init : ∀ i ∈ arrivals items, (t.wire i).ctl.type = .commInit
  sent : ∀ i ∈ arrivals items, (t.wire i).Sent
  request : ∀ k ∈ posts items, ∀ k' ∈ posts items, (t.recv k).request = (t.recv k').request → k = k'
  buffer : ∀ k ∈ posts items, ∀ k' ∈ posts items, (t.recv k).buf.obj = (t.recv k').buf.obj → k = k'
  receive : ∀ i ∈ arrivals items, ∀ k ∈ posts items, ∀ k' ∈ posts items,
    (t.naming σ).ok i k = true → (t.naming σ).ok i k' = true → k = k'
  message : ∀ k ∈ posts items, ∀ i ∈ arrivals items, ∀ i' ∈ arrivals items,
    (t.naming σ).ok i k = true → (t.naming σ).ok i' k = true → i = i'

/-- No receive copies more than the payload of the eager message that it matches. -/
def Fits (σ : Proc) (items : List (ι ⊕ κ)) : Prop :=
  ∀ i ∈ arrivals items, ∀ k ∈ posts items, (t.naming σ).ok i k = true → (t.wire i).ctl.opcode = .eager →
    unpackSize (t.recv k).datatype (t.wire i).ctl.count ≤ (t.wire i).payloadLen

/-! ## What a completed pair leaves behind -/

/-- The receive buffer of `k` when it has received the message `i`. -/
def delivered (i : ι) (k : κ) (b : Buffer) : Buffer :=
  match (t.wire i).ctl.opcode with
  | .eager =>
    unpackEager (t.recv k).datatype (t.wire i).ctl.count b (t.recv k).buf.off (t.wire i).payload
  | .rdmaRead | .loop =>
    memcpy b (t.recv k).buf.off (t.remote (t.conn i) (t.wire i).ctl.rdmaMr.addr) 0
      (readLength (t.recv k).datatype (t.recv k).count)

/-- The request of a receive that has received the message `i`. -/
def received (σ : Proc) (i : ι) : Request := ⟨intOfUint64 (t.ctl σ i).rank, intOfUint64 (t.ctl σ i).tag, 1⟩

/-- An outstanding read for a pair. -/
structure Fetching (σ₀ σ : Proc) (wr : SendWr) (x : ι × κ) : Prop where
  conn : wr.conn = t.conn x.1
  opcode : (t.wire x.1).ctl.opcode = .rdmaRead
  op : ∃ sge, wr.op = .rdmaRead sge (t.wire x.1).ctl.rdmaMr.addr ∧ sge.addr = .user (t.recv x.2).buf ∧
    sge.length.toNat = readLength (t.recv x.2).datatype (t.recv x.2).count
  request : (σ.queries wr.wrId).request = some (t.recv x.2).request
  active : ∃ a, (σ.queries wr.wrId).activeQueryToFree = some a ∧ (σ.queries a).msg.toCtl = t.ctl σ₀ x.1

/-- Requests and user memory as the posted receives and the completed pairs leave them. -/
structure Ledger (σ₀ : Proc) (posted : List κ) (done : List (ι × κ)) (requests : ReqId → Request)
    (mem : Nat → Buffer) : Prop where
  requests : ∃ base, Written (fun k => (t.recv k).request)
      (fun k => { σ₀.requests (t.recv k).request with requestFlag := 0 }) σ₀.requests base posted ∧
    Written (fun x : ι × κ => (t.recv x.2).request) (fun x => t.received σ₀ x.1) base requests done
  mem : Written (fun x : ι × κ => (t.recv x.2).buf.obj)
    (fun x => t.delivered x.1 x.2 (σ₀.mem (t.recv x.2).buf.obj)) σ₀.mem mem done

/-- Every pair is completed or has an outstanding read. -/
structure Books (σ₀ : Proc) (l : Log ι κ) (done : List (ι × κ)) (readOf : QueryId → ι × κ) : Prop where
  pairs : l.pairs.Perm (done ++ l.proc.reads.map readOf)
  fetching : ∀ wr ∈ l.proc.sq, wr.isRead = true → t.Fetching σ₀ l.proc wr (readOf wr.wrId)
  ledger : t.Ledger σ₀ (posts l.history) done l.proc.requests l.proc.mem

section Ledger

variable {t} {σ₀ : Proc} {posted posted' : List κ} {done done' : List (ι × κ)} {requests requests' : ReqId → Request}
  {mem mem' : Nat → Buffer} {i : ι} {k : κ}

theorem Ledger.start : t.Ledger σ₀ [] [] σ₀.requests σ₀.mem := ⟨⟨_, .nil, .nil⟩, .nil⟩

theorem Ledger.post (h : t.Ledger σ₀ posted done requests mem)
    (hnew : ∀ k' ∈ posted, (t.recv k').request ≠ (t.recv k).request)
    (hdone : ∀ x ∈ done, (t.recv x.2).request ≠ (t.recv k).request) :
    t.Ledger σ₀ (posted ++ [k]) done (Proc.setPending requests (t.recv k).request) mem := by
  obtain ⟨base, hposts, hrequests⟩ := h.requests
  refine ⟨⟨_, hposts.concat hnew, ?_⟩, h.mem⟩
  have hvalue : requests (t.recv k).request = σ₀.requests (t.recv k).request := by
    rw [hrequests.rest _ hdone, hposts.rest _ hnew]
  rw [Proc.setPending, hvalue]
  exact hrequests.update_base hdone _

theorem Ledger.complete (h : t.Ledger σ₀ posted done requests mem)
    (hrequest : ∀ x ∈ done, (t.recv x.2).request ≠ (t.recv k).request)
    (hbuffer : ∀ x ∈ done, (t.recv x.2).buf.obj ≠ (t.recv k).buf.obj) :
    t.Ledger σ₀ posted (done ++ [(i, k)]) (Function.update requests (t.recv k).request (t.received σ₀ i))
      (Function.update mem (t.recv k).buf.obj (t.delivered i k (mem (t.recv k).buf.obj))) := by
  obtain ⟨base, hposts, hrequests⟩ := h.requests
  refine ⟨⟨base, hposts, hrequests.concat (x := (i, k)) hrequest⟩, ?_⟩
  rw [h.mem.rest _ hbuffer]
  exact h.mem.concat (x := (i, k)) hbuffer

theorem Ledger.unique (h : t.Ledger σ₀ posted done requests mem) (h' : t.Ledger σ₀ posted' done' requests' mem')
    (hposted : ∀ k, k ∈ posted ↔ k ∈ posted') (hdone : ∀ x, x ∈ done ↔ x ∈ done') :
    requests = requests' ∧ mem = mem' := by
  obtain ⟨base, hposts, hrequests⟩ := h.requests
  obtain ⟨base', hposts', hrequests'⟩ := h'.requests
  obtain rfl := hposts.unique hposts' hposted
  exact ⟨hrequests.unique hrequests' hdone, h.mem.unique h'.mem hdone⟩

end Ledger

end Traffic

end Libibtl
