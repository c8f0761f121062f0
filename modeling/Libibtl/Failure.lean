import Libibtl.ReceiveCredit

/-! # Arrivals in a failed process

The two handlers of receive completions discard a message of a failed process when
`!(op | FDMI_FORCE)`. The bit is set by the test itself, so no message is ever
discarded and a failed process handles its messages as a computing one does.
-/

namespace Libibtl

open Foundation

def Event.isArrival : Event → Bool
  | .wcRecv _ _ => true
  | _ => false

namespace Proc

/-- The process with another value of `fdmi_state`. -/
def inState (σ : Proc) (s : FdmiState) : Proc := { σ with fdmiState := s }

section InState

variable (σ : Proc) (s : FdmiState)

theorem or_force_ne_zero (op : CInt) : op ||| fdmiForce ≠ 0 := by
  intro h
  have hbit := congrArg (BitVec.getLsbD · 1) h
  simp [fdmiForce] at hbit

/-- The discard test never succeeds. -/
theorem discards_false (c : Ctl) : σ.discards c = false := by
  rw [discards, decide_eq_false]
  exact fun h => or_force_ne_zero c.op h.2

theorem regMr_inState (addr : Place) (size : UInt32T) (pd : Pd) :
    (σ.inState s).regMr addr size pd = ((σ.regMr addr size pd).1.inState s, (σ.regMr addr size pd).2) := by
  cases h : σ.regMrQ.find? (covers pd addr size) <;> simp only [regMr, inState, h]

theorem takeQuery_inState (conn : Option ConnId) :
    (σ.inState s).takeQuery conn = ((σ.takeQuery conn).1.inState s, (σ.takeQuery conn).2) := by
  have hreusable : (σ.inState s).reusable conn = σ.reusable conn := rfl
  cases h : σ.freeQueryQ.find? (σ.reusable conn) with
  | some q =>
    rw [takeQuery, takeQuery, hreusable]
    simp only [inState, h]
  | none =>
    cases conn with
    | none =>
      rw [takeQuery, takeQuery, hreusable]
      simp only [inState, h]
    | some c =>
      have hreg := regMr_inState { σ with nalloc := σ.nalloc + 1 } s (.msg σ.nalloc) msgSize (σ.conns c).pd
      simp only [inState] at hreg
      rw [takeQuery, takeQuery, hreusable]
      simp only [inState, h, hreg, setQuery]

theorem createQuery_inState (conn : Option ConnId) :
    (σ.inState s).createQuery conn = ((σ.createQuery conn).1.inState s, (σ.createQuery conn).2) := by
  have htake := takeQuery_inState { σ with counter := σ.counter + 1 } s conn
  simp only [inState] at htake
  simp only [createQuery, inState, htake, setQuery]

theorem postRecvMsg_inState (q : QueryId) : (σ.inState s).postRecvMsg q = (σ.postRecvMsg q).inState s := by
  cases h : (σ.queries q).conn <;> simp only [postRecvMsg, inState, h, abort]

theorem repost_inState (q : QueryId) : (σ.inState s).repost q = (σ.repost q).inState s := by
  have hcreate := createQuery_inState σ s (σ.queries q).conn
  rw [repost, repost]
  simp only [show (σ.inState s).queries = σ.queries from rfl, hcreate]
  exact postRecvMsg_inState ..

theorem cpyEagerBuff_inState (p a : QueryId) : (σ.inState s).cpyEagerBuff p a = (σ.cpyEagerBuff p a).inState s := by
  cases hflag : (σ.queries p).requestFlag <;> cases hr : (σ.queries p).request <;>
    simp only [cpyEagerBuff, inState, hflag, hr, copyEager, setMem, abort, setFlag, setStatus, setRequest, destroyQuery]

theorem postRdmaRead_inState (p a : QueryId) : (σ.inState s).postRdmaRead p a = (σ.postRdmaRead p a).inState s := by
  cases h : (σ.queries a).conn with
  | none => simp only [postRdmaRead, inState, h, abort]
  | some c =>
    have hreg := regMr_inState σ s (.msg p) msgSize (σ.conns c).pd
    simp only [inState] at hreg
    simp only [postRdmaRead, inState, h, hreg, setQuery]

theorem matchArrival_inState (a : QueryId) : (σ.inState s).matchArrival a = (σ.matchArrival a).inState s := by
  have hmatched : (σ.inState s).getMatchedQuery a (σ.inState s).pq = σ.getMatchedQuery a σ.pq := rfl
  cases h : σ.getMatchedQuery a σ.pq with
  | none =>
    rw [matchArrival, matchArrival, hmatched, h]
    simp only [show (σ.inState s).queries = σ.queries from rfl, show (σ.inState s).ftEpoch = σ.ftEpoch from rfl]
    split <;> rfl
  | some p =>
    rw [matchArrival, matchArrival, hmatched, h]
    cases hop : (σ.queries a).msg.opcode with
    | eager =>
      simp only [show (σ.inState s).queries = σ.queries from rfl, hop]
      exact cpyEagerBuff_inState { σ with pq := Queue.remove σ.pq p } s p a
    | rdmaRead =>
      simp only [show (σ.inState s).queries = σ.queries from rfl, hop]
      exact postRdmaRead_inState
        (({ σ with pq := Queue.remove σ.pq p } : Proc).setQuery p fun x => { x with activeQueryToFree := some a }) s p a
    | loop =>
      simp only [show (σ.inState s).queries = σ.queries from rfl, hop]
      rfl

theorem dispatchRecv_inState (q : QueryId) : (σ.inState s).dispatchRecv q = (σ.dispatchRecv q).inState s := by
  have hqueries : (σ.inState s).queries = σ.queries := rfl
  rw [dispatchRecv, dispatchRecv, hqueries]
  cases (σ.queries q).msg.type with
  | commInit =>
    simp only [onRecvCqWcRecv, discards_false, Bool.false_eq_true, if_false]
    rw [matchArrival_inState, repost_inState]
  | commFin =>
    simp only [onSendCqWcRecv, discards_false, Bool.false_eq_true, if_false]
    have hcomplete : (σ.inState s).completeOldestSend = σ.completeOldestSend.inState s := by
      cases h : Queue.deq σ.sendReqQ with
      | mk r rest => cases r <;> simp only [completeOldestSend, inState, h, setFlag, setRequest]
    have hdestroy : ∀ τ : Proc, (τ.inState s).destroyBoth q = (τ.destroyBoth q).inState s := by
      intro τ
      cases h : (τ.queries q).activeQueryToFree <;> simp only [destroyBoth, inState, h, destroyQuery]
    rw [hcomplete, hdestroy, repost_inState]

/-- No handler of a receive completion looks at the state of the process. -/
theorem step_inState (c : ConnId) (w : Wire) :
    (σ.inState s).step (.wcRecv c w) = (σ.step (.wcRecv c w)).map (inState · s) := by
  have htake : (σ.inState s).takeRecv c w = (σ.takeRecv c w).map fun r => (r.1.inState s, r.2) := by
    cases h : σ.rq.find? (·.conn = c) with
    | none => simp only [takeRecv, inState, h, Option.map_none]
    | some wr =>
      cases hconn : (σ.queries wr.wrId).conn <;>
        simp [takeRecv, inState, h, scatter, setQuery, stampRank, hconn, abort, setCtl, rmapItopGet]
  rw [step, step, effect, effect, wcRecv, wcRecv, htake]
  cases σ.takeRecv c w with
  | none => rfl
  | some r =>
    simp only [Option.map_some, Option.bind_some, dispatchRecv_inState]
    simp only [show ∀ τ : Proc, (τ.inState s).aborted = τ.aborted from fun _ => rfl]
    split <;> rfl

end InState

/-- What the discard rule promises of a message that arrives on `c`. -/
structure Isolated (σ : Proc) (c : ConnId) (w : Wire) (σ' : Proc) : Prop where
  init : w.ctl.type = .commInit → σ'.aq = σ.aq ∧ σ'.pq = σ.pq ∧ σ'.mem = σ.mem
  fin : w.ctl.type = .commFin → σ'.sendReqQ = σ.sendReqQ
  flags : ∀ r, (σ'.requests r).requestFlag = (σ.requests r).requestFlag
  returned : ∀ wr, σ.rq.find? (·.conn = c) = some wr → wr.wrId ∈ σ'.freeQueryQ ∨ wr.wrId ∈ σ'.rq.map RecvWr.wrId
  credit : ∀ c', (σ'.outstanding c').length = (σ.outstanding c').length

section Isolated

variable {σ σ' : Proc} {c : ConnId} {w : Wire}

/-- An INIT message always changes one of the two matching queues. -/
theorem not_isolated_of_init (ht : Transition σ (.wcRecv c w) σ') (htype : w.ctl.type = .commInit) :
    ¬ σ.Isolated c w σ' := by
  intro h
  obtain ⟨haq, hpq, -⟩ := h.init htype
  have herase : ∀ {p : QueryId}, p ∈ σ.pq → σ.pq.erase p ≠ σ.pq := by
    intro p hp heq
    have := List.length_erase_of_mem hp
    have := List.length_pos_of_mem hp
    rw [heq] at *
    omega
  cases ht with
  | deliver _ hwr hsel hop hr hg hx => exact herase (List.mem_of_find?_eq_some hsel) hpq
  | startRead _ hwr hsel hop hg hx => exact herase (List.mem_of_find?_eq_some hsel) hpq
  | store _ hwr hsel hg hx =>
    have := congrArg List.length haq
    simp at this
  | finish hfin hwr hg hx =>
    rw [htype] at hfin
    cases hfin
  | link hl => cases hl

theorem isolated_of_fin (ht : Transition σ (.wcRecv c w) σ') (htype : w.ctl.type = .commFin) :
    σ.Isolated c w σ' ↔ σ.sendReqQ = [] := by
  cases ht with
  | @finish _ _ wr g _ hwr hg hx =>
    constructor
    · intro h
      have := congrArg List.length (h.fin htype)
      simp only [refill_sendReqQ, grab_sendReqQ, finish_sendReqQ, arrive_sendReqQ, List.length_tail] at this
      exact List.eq_nil_of_length_eq_zero (by omega)
    · intro hempty
      refine ⟨fun hinit => ?_, fun _ => ?_, fun r => ?_, fun wr' hwr' => ?_, fun c' => length_filter_replace hwr _ _ c'⟩
      · rw [htype] at hinit
        cases hinit
      · simp [hempty]
      · simp [hempty]
      · obtain rfl := Option.some.inj (hwr.symm.trans hwr')
        rcases hg with ⟨hmem, hfree, -⟩ | ⟨hnew, hfree, -⟩
        · by_cases heq : wr.wrId = g.query
          · right
            simp [heq, recvWr]
          · left
            change wr.wrId ∈ g.freeQueryQ
            rw [hfree, List.mem_erase_of_ne heq]
            simp
        · left
          change wr.wrId ∈ g.freeQueryQ
          rw [hfree]
          simp
  | deliver hinit _ _ _ _ _ _ | startRead hinit _ _ _ _ _ | store hinit _ _ _ _ =>
    rw [htype] at hinit
    cases hinit
  | link hl => cases hl

end Isolated

/-- A failed process is a sound one in another state. -/
theorem sound_of_failure {b : Boot} {es arrivals : List Event} {σ₀ σ : Proc}
    (h₀ : Path Proc.step (fun _ e => e.FromPeer) (Proc.init b) es σ₀)
    (h : Path Proc.step (fun _ e => e.FromPeer ∧ e.isArrival) (σ₀.inState .failure) arrivals σ) :
    (σ.inState .compute).Sound [] := by
  refine h.invariant (I := fun σ => (σ.inState .compute).Sound []) ?_ ?_
  · rintro σ e σ' hs ⟨hpeer, harrival⟩ hstep
    cases e with
    | wcRecv c w =>
      have hcompute := step_inState σ .compute c w
      rw [hstep] at hcompute
      exact hs.step hpeer hcompute
    | _ => cases harrival
  · have hs := Sound.of_path h₀
    have hstate : (σ₀.inState .failure).inState .compute = σ₀ := by
      simp only [inState, ← hs.compute]
    rw [hstate]
    exact hs

end Proc

/-- In every failed process, after any arrivals: a message without `FDMI_FORCE` is isolated, and one with it is
handled as in `FDMI_COMPUTE`, exactly when it has the bit or is a FIN that finds no send request. -/
theorem failure_isolates_iff {b : Boot} {es arrivals : List Event} {σ₀ σ σ' : Proc} {c : ConnId} {w : Wire}
    (h₀ : Path Proc.step (fun _ e => e.FromPeer) (Proc.init b) es σ₀)
    (h : Path Proc.step (fun _ e => e.FromPeer ∧ e.isArrival) (σ₀.inState .failure) arrivals σ)
    (hw : w.FromPeer) (hstep : σ.step (.wcRecv c w) = some σ') :
    ((w.ctl.op &&& fdmiForce = 0 → σ.Isolated c w σ') ∧
      (w.ctl.op &&& fdmiForce ≠ 0 → (σ.inState .compute).step (.wcRecv c w) = some (σ'.inState .compute))) ↔
    (w.ctl.op &&& fdmiForce = 0 → w.ctl.type = .commFin ∧ σ.sendReqQ = []) := by
  have hs := Proc.sound_of_failure h₀ h
  have hcompute : (σ.inState .compute).step (.wcRecv c w) = some (σ'.inState .compute) := by
    rw [Proc.step_inState, hstep]
    rfl
  have ht := Proc.transition_of_step hs.toOwned hs.toWired (e := .wcRecv c w) hw hcompute
  have hisolated : (σ.inState .compute).Isolated c w (σ'.inState .compute) ↔ σ.Isolated c w σ' :=
    ⟨fun ⟨h₁, h₂, h₃, h₄, h₅⟩ => ⟨h₁, h₂, h₃, h₄, h₅⟩, fun ⟨h₁, h₂, h₃, h₄, h₅⟩ => ⟨h₁, h₂, h₃, h₄, h₅⟩⟩
  have hiff : σ.Isolated c w σ' ↔ w.ctl.type = .commFin ∧ σ.sendReqQ = [] := by
    rw [← hisolated]
    cases htype : w.ctl.type with
    | commInit => simpa using Proc.not_isolated_of_init ht htype
    | commFin =>
      rw [Proc.isolated_of_fin ht htype]
      simp [Proc.inState]
  rw [hiff]
  exact ⟨fun h => h.1, fun h => ⟨h, fun _ => hcompute⟩⟩

/-- A message of one byte without options, as an INIT or as a FIN. -/
def plainWire (type : MsgType) : Wire :=
  ⟨⟨type, .eager, 0, ⟨0, 0⟩, 0, 5, 0, 1, fmiCommWorld.id, fmiByte, ⟨0, .user ⟨0, 0⟩, 1, 0, 0⟩, 1⟩, 1, fun _ => 7⟩

theorem failure_isolates_fin : ∃ σ₀ σ σ',
    Path Proc.step (fun _ e => e.FromPeer) (Proc.init Boot.zeroed) (Event.connecting 1 16) σ₀ ∧
    Path Proc.step (fun _ e => e.FromPeer ∧ e.isArrival) (σ₀.inState .failure) [.wcRecv 0 (plainWire .commFin)] σ ∧
    σ.step (.wcRecv 0 (plainWire .commFin)) = some σ' ∧ σ.Isolated 0 (plainWire .commFin) σ' := by
  obtain ⟨σ₀, h₀, hσ₀⟩ := exists_path_of_runWhile Proc.step (fun _ e => e.FromPeer) (Proc.init Boot.zeroed)
    (Event.connecting 1 16) (fun σ₀ => decide (((runWhile Proc.step (fun _ e => e.FromPeer ∧ e.isArrival)
      (σ₀.inState .failure) [.wcRecv 0 (plainWire .commFin)]).map fun σ =>
        decide (σ.sendReqQ = [] ∧ (σ.step (.wcRecv 0 (plainWire .commFin))).isSome)) = some true)) (by decide +kernel)
  obtain ⟨σ, h, hσ⟩ := exists_path_of_runWhile Proc.step (fun _ e => e.FromPeer ∧ e.isArrival) (σ₀.inState .failure)
    [.wcRecv 0 (plainWire .commFin)]
    (fun σ => σ.sendReqQ = [] ∧ (σ.step (.wcRecv 0 (plainWire .commFin))).isSome) (of_decide_eq_true hσ₀)
  obtain ⟨hempty, hsome⟩ := of_decide_eq_true hσ
  obtain ⟨σ', hstep⟩ := Option.isSome_iff_exists.1 hsome
  have hiff := failure_isolates_iff (w := plainWire .commFin) h₀ h (by decide) hstep
  exact ⟨σ₀, σ, σ', h₀, h, hstep, (hiff.2 fun _ => ⟨rfl, hempty⟩).1 rfl⟩

/-- A plain INIT message is queued by a failed process. -/
theorem failure_queues_init : ∃ σ₀ σ',
    Path Proc.step (fun _ e => e.FromPeer) (Proc.init Boot.zeroed) (Event.connecting 1 16) σ₀ ∧
    (σ₀.inState .failure).step (.wcRecv 0 (plainWire .commInit)) = some σ' ∧
    (plainWire .commInit).ctl.op &&& fdmiForce = 0 ∧ ¬ (σ₀.inState .failure).Isolated 0 (plainWire .commInit) σ' := by
  obtain ⟨σ₀, h₀, hσ₀⟩ := exists_path_of_runWhile Proc.step (fun _ e => e.FromPeer) (Proc.init Boot.zeroed)
    (Event.connecting 1 16) (fun σ₀ => decide (σ₀.aq = [] ∧
      ((σ₀.inState .failure).step (.wcRecv 0 (plainWire .commInit))).map (·.aq.length) = some 1)) (by decide +kernel)
  obtain ⟨hempty, hsome⟩ := of_decide_eq_true hσ₀
  obtain ⟨σ', hstep, hlength⟩ := Option.map_eq_some_iff.1 hsome
  refine ⟨σ₀, σ', h₀, hstep, rfl, fun h => ?_⟩
  have haq := (h.init rfl).1
  have : (σ₀.inState .failure).aq = [] := hempty
  rw [haq, this] at hlength
  cases hlength

end Libibtl
