import Libibtl.Connections
import Libibtl.Foundation.Exchange
import Libibtl.MatchingLog

/-! # Processes joined by reliable connections

Each end of a connection has a queue of messages on their way to the other end.
The adaptor begins the send requests of a connection in posting order; a SEND then
is on its way, and an RDMA read finds the memory of the peer as it is when the read
completes. The record of a process beside its state says what was sent and received.
-/

namespace Libibtl

open Foundation

universe u

/-- An INIT message that has arrived, the `index`-th of its connection. -/
structure Letter where
  conn : ConnId
  index : Nat
  rank : CInt
  wire : Wire

/-- The `index`-th receive that a process has posted, for the physical rank `source`. -/
structure Receipt where
  index : Nat
  source : CInt
  prm : RecvParam

/-- A message that `fdmi_verbs_isend` has posted, with the user memory of that moment. -/
structure Sending where
  prm : SendParam
  mem : Nat → Buffer
  wire : Wire

/-- A process with the record of its messages. `begun` counts the requests in the send queue of a
connection that the adaptor has begun, `answers` the FIN messages received. -/
structure Node where
  log : Log Letter Receipt
  sent : ConnId → List Sending
  begun : ConnId → Nat
  answers : ConnId → Nat

def Log.lettersOn {R : Type u} (l : Log Letter R) (c : ConnId) : List Letter :=
  (arrivals l.history).filter (·.conn = c)

namespace Node

def proc (n : Node) : Proc := n.log.proc

def init (b : Boot) : Node where
  log :=
    { proc := Proc.init b
      history := []
      pairs := []
      msgAt := fun q => ⟨0, 0, 0, ⟨(b.queries q).msg.toCtl, 0, fun _ => 0⟩⟩
      recvAt := fun _ => ⟨0, 0, ⟨⟨0, 0⟩, 0, fmiByte, 0, 0, fmiCommWorld, 0, 0⟩⟩ }
  sent := fun _ => []
  begun := fun _ => 0
  answers := fun _ => 0

variable (n : Node)

/-- The letter that `w` becomes when it arrives on `c`. -/
def letter (c : ConnId) (w : Wire) : Letter :=
  ⟨c, (n.log.lettersOn c).length, n.proc.rmapItopGet (n.proc.conns c).rcid, w⟩

def offer : Event → Option (Letter ⊕ Receipt)
  | .wcRecv c w =>
    match w.ctl.type with
    | .commInit => some (.inl (n.letter c w))
    | .commFin => none
  | .irecv prm =>
    (commGetPrank prm.comm prm.source).map fun source => .inr ⟨(posts n.log.history).length, source, prm⟩
  | _ => none

/-- The sent messages after `e` has led to `σ'`. -/
def sentAfter (e : Event) (σ' : Proc) : ConnId → List Sending :=
  match e, σ'.sq.getLast? with
  | .isend prm, some ⟨c, _, .send w⟩ => Function.update n.sent c (n.sent c ++ [⟨prm, n.proc.mem, w⟩])
  | _, _ => n.sent

def begunAfter : Event → ConnId → Nat
  | .wcSend c => Function.update n.begun c (n.begun c - 1)
  | .wcRdmaRead c _ => Function.update n.begun c (n.begun c - 1)
  | _ => n.begun

def answersAfter : Event → ConnId → Nat
  | .wcRecv c w =>
    match w.ctl.type with
    | .commInit => n.answers
    | .commFin => Function.update n.answers c (n.answers c + 1)
  | _ => n.answers

def step (e : Event) : Option Node :=
  (n.proc.step e).map fun σ' =>
    ⟨n.log.record σ' (n.offer e), n.sentAfter e σ', n.begunAfter e, n.answersAfter e⟩

/-- The program of the user stores `b` in an object of its memory. -/
def write (obj : Nat) (b : Buffer) : Node :=
  { n with log := { n.log with proc := n.proc.setMem obj fun _ => b } }

/-- The adaptor has begun the next request of a connection. -/
def start (c : ConnId) : Node := { n with begun := Function.update n.begun c (n.begun c + 1) }

/-- The requests of the send queue of a connection that the adaptor has not begun. -/
def waitingWrs (c : ConnId) : List SendWr := (n.proc.sq.filter (·.conn = c)).drop (n.begun c)

end Node

/-- `flight (i, c)` are the messages that process `i` has sent on `c` and that have not arrived yet. -/
structure Network (ν : Type u) where
  node : ν → Node
  flight : ν × ConnId → List Wire

/-- What happens in a network: a call or a connection event at a process, a store by its program, and the
moves of the adaptors. -/
inductive Happening (ν : Type u)
  | call (i : ν) (e : Event)
  | write (i : ν) (obj : Nat) (b : Buffer)
  | transmit (i : ν) (c : ConnId)
  | receive (j : ν) (d : ConnId)
  | sendDone (i : ν) (c : ConnId)
  | readDone (j : ν) (d : ConnId)

/-- The events that no adaptor decides on. -/
def Event.isLocal : Event → Bool
  | .wcRecv _ _ | .wcSend _ | .wcRdmaRead _ _ => false
  | _ => true

namespace Network

variable {ν : Type u}

def init (boot : ν → Boot) : Network ν := ⟨fun i => Node.init (boot i), fun _ => []⟩

variable [DecidableEq ν] (W : Pairing (ν × ConnId)) (s : Network ν)

def setNode (i : ν) (n : Node) : Network ν := { s with node := Function.update s.node i n }

def step : Happening ν → Option (Network ν)
  | .call i e => if e.isLocal then ((s.node i).step e).map (s.setNode i) else none
  | .write i obj b => some (s.setNode i ((s.node i).write obj b))
  | .transmit i c =>
    match (s.node i).waitingWrs c with
    | [] => none
    | wr :: _ =>
      let s' := s.setNode i ((s.node i).start c)
      match wr.op with
      | .send w => some { s' with flight := Function.update s.flight (i, c) (s.flight (i, c) ++ [w]) }
      | .rdmaRead _ _ => some s'
  | .receive j d =>
    match W.far (j, d) with
    | none => none
    | some end' =>
      match s.flight end' with
      | [] => none
      | w :: rest => ((s.node j).step (.wcRecv d w)).map fun n =>
          { s.setNode j n with flight := Function.update s.flight end' rest }
  | .sendDone i c =>
    if 0 < (s.node i).begun c then ((s.node i).step (.wcSend c)).map (s.setNode i) else none
  | .readDone j d =>
    match W.far (j, d), (s.node j).proc.sq.find? (·.conn = d) with
    | some (i, _), some ⟨_, _, .rdmaRead sge remote⟩ =>
      if 0 < (s.node j).begun d then
        ((s.node j).step (.wcRdmaRead d ((s.node i).proc.gather { sge with addr := remote }))).map (s.setNode j)
      else none
    | _, _ => none

end Network

/-- No queue is flushed. -/
def Happening.isFlush {ν : Type u} : Happening ν → Bool
  | .call _ .flush => true
  | _ => false

end Libibtl
