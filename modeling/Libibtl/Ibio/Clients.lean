import Libibtl.Ibio.ClientWrite

/-! # Clients of the file server

A call is the requests that it sends and the receives that it waits for afterwards. Any
number of clients make one call after the other, each on the files that it opened
itself, while the server serves what has arrived. A client is one connection: as
`ibtl_open` makes a new connection for every file, a process is one or more of them.
-/

namespace Libibtl.Ibio

open Foundation

/-! ## Calls -/

inductive Call
  | ibtlOpen
  | ibtlWrite (fd : Nat) (buf : Buffer) (count : UInt64T)
  | ibtlRead (fd : Nat) (count : UInt64T)
  | ibtlClose (fd : Nat)

/-- `OPEN`, which names no file. -/
def openMessage (source : CInt) : Message where
  source := source
  tag := serializeTag opOpen 0
  count := 0
  chunk := ⟨0, fun _ => 0⟩

/-- The tag of `READ`, and of the chunks that come back. -/
def readTag (fd : Nat) : CInt := serializeTag opRead (BitVec.ofNat 32 fd)

/-- `READ`, with the count in a `struct ibvio_open`. -/
def readMessage (source : CInt) (fd : Nat) (count : UInt64T) : Message where
  source := source
  tag := readTag fd
  count := intOfUint64 count
  chunk := ⟨0, fun _ => 0⟩

def closeMessage (source : CInt) (fd : Nat) : Message where
  source := source
  tag := serializeTag opClose (BitVec.ofNat 32 fd)
  count := 0
  chunk := ⟨0, fun _ => 0⟩

namespace Call

/-- The descriptor that is passed. -/
def fd? : Call → Option Nat
  | .ibtlOpen => none
  | .ibtlWrite fd _ _ | .ibtlRead fd _ | .ibtlClose fd => some fd

/-- What is sent; `none` when a loop does not end. -/
def requests (source : CInt) : Call → Option (List Message)
  | .ibtlOpen => some [openMessage source]
  | .ibtlWrite fd buf count => Ibio.ibtlWrite source fd buf count
  | .ibtlRead fd count => some [readMessage source fd count]
  | .ibtlClose fd => some [closeMessage source fd]

/-- The tags of the receives, where `none` is `FMI_ANY_TAG`. -/
def receives : Call → Option (List (Option CInt))
  | .ibtlOpen | .ibtlWrite .. | .ibtlClose _ => some [none]
  | .ibtlRead fd count => (clientChunks count).map fun cuts => cuts.map fun _ => some (readTag fd)

/-- The descriptors that the client has from then on. -/
def keeps : Call → List Nat → List Nat
  | .ibtlClose fd, files => files.filter (· ≠ fd)
  | _, files => files

end Call

/-! ## One client -/

/-- What is sent to a client. -/
abbrev Reply := Key × ReplyBody

def Output.reply? : Output → Option Reply
  | .reply k body => some (k, body)
  | _ => none

/-- A receive with this tag takes the reply. -/
def Reply.matches (want : Option CInt) (r : Reply) : Bool :=
  match want with
  | none => true
  | some tag => r.1.2 = tag

/-- The descriptors that a client has after it received this. -/
def ReplyBody.files : ReplyBody → List Nat → List Nat
  | .opened fd, files => fd :: files
  | _, files => files

/-- `todo` and `want` are what is left of the call. `flight` is on the way to the server, `inbox` on the way to the
client or queued there. -/
structure Client where
  todo : List Message
  want : List (Option CInt)
  files : List Nat
  flight : List Message
  inbox : List Reply

namespace Client

/-- Between two calls. -/
def Idle (cl : Client) : Prop := cl.todo = [] ∧ cl.want = []

instance (cl : Client) : Decidable cl.Idle :=
  inferInstanceAs (Decidable (_ = [] ∧ _ = []))

/-- In `fdmi_verbs_wait` for a reply or for a chunk. -/
def Blocked (cl : Client) : Prop := cl.todo = [] ∧ cl.want ≠ []

def call (cl : Client) (source : CInt) (c : Call) : Option Client :=
  if cl.Idle ∧ ∀ fd ∈ c.fd?, fd ∈ cl.files then do
    let todo ← c.requests source
    let want ← c.receives
    return { cl with todo := todo, want := want, files := c.keeps cl.files }
  else none

def send (cl : Client) : Option Client :=
  match cl.todo with
  | [] => none
  | m :: todo => some { cl with todo := todo, flight := cl.flight ++ [m] }

/-- The next receive, once everything is sent. -/
def receive (cl : Client) : Option Client :=
  match cl.todo, cl.want with
  | [], w :: want => (cl.inbox.find? (·.matches w)).map fun r =>
    { cl with want := want, files := r.2.files cl.files, inbox := cl.inbox.eraseP (·.matches w) }
  | _, _ => none

end Client

/-! ## The system -/

structure System where
  server : Server
  clients : CInt → Client

inductive SystemEvent
  | call (c : CInt) (call : Call)
  | send (c : CInt)
  | arrive (c : CInt)
  | receive (c : CInt)
  | turn (env : Env)
  | thread (i : Nat)

/-- The messages that the server has sent between two states. -/
def Server.sent (s s' : Server) : List Reply := (s'.trace.drop s.trace.length).filterMap Output.reply?

namespace System

def setClient (w : System) (c : CInt) (cl : Client) : System := { w with clients := Function.update w.clients c cl }

/-- The server has gone to `s`, and what it sent is on the way. -/
def serve (w : System) (s : Server) : System where
  server := s
  clients c := { w.clients c with inbox := (w.clients c).inbox ++ (w.server.sent s).filter (·.1.1 = c) }

/-- The messages of a client arrive in the order in which they were sent. -/
def step (w : System) : SystemEvent → Option System
  | .call c x => ((w.clients c).call c x).map (w.setClient c)
  | .send c => (w.clients c).send.map (w.setClient c)
  | .arrive c =>
    match (w.clients c).flight with
    | [] => none
    | m :: flight => some { w.setClient c { w.clients c with flight := flight } with server := w.server.receive m }
  | .receive c => (w.clients c).receive.map (w.setClient c)
  | .turn env => (w.server.step (.turn env)).map w.serve
  | .thread i => (w.server.step (.thread i)).map w.serve

def init : System where
  server := .init
  clients _ := ⟨[], [], [], [], []⟩

/-- A client waits, and nothing can happen: no message is on the way or queued, and neither the main loop nor a thread
has a step. -/
structure Deadlock (w : System) : Prop where
  blocked : ∃ c, (w.clients c).Blocked
  flight : ∀ c, (w.clients c).flight = []
  inbox : ∀ c, (w.clients c).inbox = []
  queue : w.server.aq = []
  main : ∀ env, w.server.step (.turn env) = none
  threads : ∀ i, w.server.step (.thread i) = none

end System

end Libibtl.Ibio
