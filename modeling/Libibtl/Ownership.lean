import Libibtl.Foundation.Path
import Libibtl.Soundness

/-! # Every query has one place

Each case of a step keeps a state sound, so soundness holds in all reachable states
of runs with messages of peers. Counting places then gives the ownership theorem.
-/

namespace Libibtl

open Foundation

namespace Proc.Sound

variable {σ σ' : Proc} {hand : List QueryId} {q a : QueryId}

theorem launch (h : σ.Sound []) {prm : SendParam} {c : ConnId} {g : Grab} {wire : Wire} (hg : σ.Grabs g)
    (hx : σ.Carries prm c g.content wire) : (σ.launch prm c g wire).Sound [] := by
  refine putSend c wire ((h.user (setPending σ.requests prm.request) σ.mem (σ.sendReqQ ++ [prm.request]) σ.regMrQ
    σ.regMrCachedSize).grab hg) ?_
  have hself : (σ.grab g).queries g.query = g.content := Function.update_self ..
  change ((σ.grab g).queries g.query).Sending c
  rw [hself]
  exact ⟨hx.conn, fun _ => ⟨_, hx.requestFlag⟩⟩

theorem accept (h : σ.Sound []) {prm : RecvParam} {a : QueryId} (ha : a ∈ σ.aq) : (σ.accept prm a).Sound [] :=
  ((h.user (setReceived σ.requests prm.request (σ.queries a).msg.toCtl)
    (σ.copyEager prm.buf prm.datatype a).mem σ.sendReqQ σ.regMrQ σ.regMrCachedSize).takeArrived ha).release

theorem fetch (h : σ.Sound []) {prm : RecvParam} {source : CInt} {a : QueryId} {c : ConnId} {g : Grab}
    (ha : a ∈ σ.aq) (hconn : (σ.queries a).conn = some c) (hg : σ.Grabs g) (hx : Receives source prm g.content)
    (hc : g.content.conn = some c) (hatf : g.content.activeQueryToFree = some a) :
    (σ.fetch prm c a g).Sound [] := by
  have hne : a ≠ g.query := by
    rintro rfl
    exact h.not_mem_of_grabs (i := .arrived) hg (by decide) ha
  have hself : (σ.grab g).queries g.query = g.content := Function.update_self ..
  have haq : (σ.grab g).queries a = σ.queries a := Function.update_of_ne hne ..
  have hhand := ((h.user (setPending σ.requests prm.request) σ.mem σ.sendReqQ σ.regMrQ
    σ.regMrCachedSize).takeArrived ha).grab (g := g) hg
  refine hhand.putRead (c := c) ?_ ?_
  · change ((σ.grab g).queries g.query).activeQueryToFree = some a
    rw [hself, hatf]
  · change ((σ.grab g).queries g.query).Reading c (σ.grab g).queries
    rw [hself]
    exact ⟨a, prm.request, hatf, hx.requestFlag, hx.request, hc, by rw [haq, hconn]⟩

theorem await (h : σ.Sound []) {prm : RecvParam} {source : CInt} {g : Grab} (hg : σ.Grabs g)
    (hx : Receives source prm g.content) (hepoch : g.content.msg.epoch = σ.ftEpoch) :
    (σ.await prm g).Sound [] := by
  refine ((h.user (setPending σ.requests prm.request) σ.mem σ.sendReqQ σ.regMrQ
    σ.regMrCachedSize).grab hg).putWaiting ?_
  have hself : (σ.grab g).queries g.query = g.content := Function.update_self ..
  change ((σ.grab g).queries g.query).Waiting
  rw [hself]
  refine ⟨⟨_, hx.requestFlag, hx.request⟩, hepoch.trans h.epoch, ?_, ?_⟩
  · rw [hx.rank, intOfUint64_uint64OfInt]
  · rw [hx.tag, intOfUint64_uint64OfInt]

/-! ## Arrivals -/

section Arrive

variable {c : ConnId} {w : Wire} {wr : RecvWr}

theorem arrive (h : σ.Sound hand) (hwr : σ.rq.find? (·.conn = c) = some wr) :
    (σ.arrive c wr.wrId w).Sound (wr.wrId :: hand) :=
  (h.takePosted hwr).heap_of_hand List.mem_cons_self

theorem deliver (h : σ.Sound (q :: hand)) {p : QueryId} (hp : p ∈ σ.pq) (r : ReqId) :
    (σ.deliver p q r).Sound hand :=
  (((h.user (setReceived σ.requests r (σ.queries q).msg.toCtl)
    (σ.copyEager (σ.queries p).msg.addr (σ.queries p).msg.dtype q).mem σ.sendReqQ σ.regMrQ
    σ.regMrCachedSize).takeWaiting hp).release).release

theorem startRead (h : σ.Sound (a :: hand)) {p : QueryId} (hp : p ∈ σ.pq) (hconn : (σ.queries a).conn = some c)
    (regs : List Mr) (cached : UInt64T) (mr : Mr) : (σ.startRead c p a regs cached mr).Sound hand := by
  have hne : a ≠ p := by
    rintro rfl
    exact h.not_mem List.mem_cons_self .waiting hp
  obtain ⟨⟨r, hflag, hr⟩, -⟩ := h.waiting p hp
  have hhand := ((h.user σ.requests σ.mem σ.sendReqQ regs cached).takeWaiting hp).heap_of_hand (q := p)
    (x := { σ.queries p with activeQueryToFree := some a, conn := some c, msgMr := mr }) List.mem_cons_self
  refine hhand.putRead (c := c) (by simp) ?_
  simp only [Function.update_self]
  exact ⟨a, r, rfl, hflag, hr, rfl, by rw [Function.update_of_ne hne, hconn]⟩

theorem finish (h : σ.Sound (q :: hand)) : (σ.finish q).Sound hand :=
  (h.user ((σ.sendReqQ.head?.map (setDone σ.requests)).getD σ.requests) σ.mem σ.sendReqQ.tail σ.regMrQ
    σ.regMrCachedSize).release

theorem arrivedQuery_arrived (h : σ.Sound []) (hwr : σ.rq.find? (·.conn = c) = some wr)
    (htype : w.ctl.type = .commInit) (hpeer : w.FromPeer) : (σ.arrivedQuery c wr.wrId w).Arrived := by
  obtain ⟨hepoch, hop, htag⟩ := hpeer htype
  refine ⟨⟨_, (h.posted wr (List.mem_of_find?_eq_some hwr)).1⟩, ?_, hepoch, ?_, htag⟩
  · change w.ctl.opcode ≠ .loop
    rw [hop]
    split <;> decide
  · simp [arrivedQuery]

end Arrive

/-! ## Completions, flushing and connections -/

theorem sent (h : σ.Sound []) {c : ConnId} {wire : Wire}
    (hwr : σ.sq.find? (·.conn = c) = some ⟨c, q, .send wire⟩) (requests : ReqId → Request)
    (sendReqQ : List ReqId) : (σ.sent c q requests sendReqQ).Sound [] :=
  (((h.user requests σ.mem sendReqQ σ.regMrQ σ.regMrCachedSize).takeSend hwr rfl).heap_of_hand (q := q)
    List.mem_cons_self).release

theorem readDone (h : σ.Sound []) {c : ConnId} {p : QueryId} {r : ReqId} {sge : Sge} {remote : Place}
    {data : Buffer} {msg : Msg} {wire : Wire}
    (hwr : σ.sq.find? (·.conn = c) = some ⟨c, p, .rdmaRead sge remote⟩)
    (ha : (σ.queries p).activeQueryToFree = some a)
    (hmsg : msg.toCtl = sentCtl { (σ.queries a).msg.toCtl with type := .commFin }) :
    (σ.readDone c p a r sge data msg wire).Sound [] := by
  have htake := (h.user (setReceived σ.requests r (σ.queries a).msg.toCtl) (σ.scatterRead sge data).mem
    σ.sendReqQ σ.regMrQ σ.regMrCachedSize).takeRead hwr rfl ha
  have hstamp := htake.heap_of_hand (q := p) (x := σ.stamped c p) List.mem_cons_self
  have hfin := hstamp.heap_of_hand (q := a) (x := { σ.queries a with msg := msg })
    (List.mem_cons_of_mem _ List.mem_cons_self)
  refine release (putSend c wire (hfin.perm (.swap p a [])) ?_)
  obtain ⟨a', r', ha', -, -, -, hconn⟩ := h.reading _ (List.mem_of_find?_eq_some hwr) rfl
  obtain rfl : a' = a := Option.some.inj (ha'.symm.trans ha)
  simp only [Function.update_self]
  refine ⟨hconn, fun htype => ?_⟩
  rw [hmsg, sentCtl_type] at htype
  cases htype

theorem flushed (h : σ.Sound []) : σ.flushed.Sound [] := by
  refine ⟨⟨?_, ?_⟩, ⟨h.compute, h.epoch, h.posted, fun x hx => h.arrived x (List.mem_filter.1 hx).1,
    fun x hx => h.waiting x (List.mem_filter.1 hx).1, h.sending, h.reading⟩⟩
  · have haq := h.custody.transfer .arrived .free (by decide)
      (List.filter_append_perm σ.flushable σ.aq)
    have hpq := haq.transfer .waiting .free (by decide) (List.filter_append_perm σ.flushable σ.pq)
    refine hpq.congr_place fun i => ?_
    cases i <;> rfl
  · have := h.counter
    simp only [flushed_counter, flushed_freeQueryQ, flushed_nalloc, List.length_append]
    push_cast
    omega

theorem linked (h : σ.Sound []) {e : Event} (hl : σ.Linked e σ') : σ'.Sound [] := by
  cases hl <;>
    exact ⟨⟨h.custody, h.counter⟩, ⟨h.compute, h.epoch, h.posted, h.arrived, h.waiting, h.sending, h.reading⟩⟩

theorem refills (h : σ.Sound []) {c : ConnId} {n : Nat} (hr : Refills c σ n σ') : σ'.Sound [] := by
  induction hr with
  | zero => exact h
  | succ _ hg hx ih => exact ih.refill hg hx

theorem transition (h : σ.Sound []) {e : Event} (he : e.FromPeer) (ht : Transition σ e σ') : σ'.Sound [] := by
  cases ht with
  | launch hpeer hg hx => exact h.launch hg hx
  | accept hsrc hsel hop => exact h.accept (List.mem_of_find?_eq_some hsel)
  | fetch hsrc hsel hop hconn hg hx hc ha => exact h.fetch (List.mem_of_find?_eq_some hsel) hconn hg hx hc ha
  | await hsrc hsel hg hx hepoch => exact h.await hg hx hepoch
  | deliver htype hwr hsel hop hr hg hx =>
    exact ((h.arrive hwr).deliver (List.mem_of_find?_eq_some hsel) _).refill hg hx
  | startRead htype hwr hsel hop hg hx =>
    refine ((h.arrive hwr).startRead (List.mem_of_find?_eq_some hsel) ?_ _ _ _).refill hg hx
    have hc := (h.posted _ (List.mem_of_find?_eq_some hwr)).1
    rw [arrive_queries, Function.update_self]
    simpa [arrivedQuery, hc] using List.find?_some hwr
  | store htype hwr hsel hg hx =>
    refine ((h.arrive hwr).putArrived ?_).refill hg hx
    rw [arrive_queries, Function.update_self]
    exact h.arrivedQuery_arrived hwr htype he
  | finish htype hwr hg hx => exact (h.arrive hwr).finish.refill hg hx
  | sentEager hwr htype hop hr => exact h.sent hwr _ _
  | sentOther hwr hother => exact h.sent hwr _ _
  | readDone hwr ha hr hmsg hwire => exact h.readDone hwr ha hmsg
  | flush => exact h.flushed
  | link hl => exact h.linked hl
  | establish hcm hc hτ =>
    have hτ := h.refills hτ
    exact ⟨⟨hτ.custody, hτ.counter⟩,
      ⟨hτ.compute, hτ.epoch, hτ.posted, hτ.arrived, hτ.waiting, hτ.sending, hτ.reading⟩⟩

theorem step (h : σ.Sound []) {e : Event} (he : e.FromPeer) (hs : σ.step e = some σ') : σ'.Sound [] :=
  h.transition he (transition_of_step h.toOwned h.toWired he hs)

theorem of_path {b : Boot} {es : List Event} (h : Path Proc.step (fun _ e => e.FromPeer) (Proc.init b) es σ) :
    σ.Sound [] :=
  h.invariant (I := fun σ => σ.Sound []) (fun _ _ _ hs he hstep => hs.step he hstep) (init b)

end Proc.Sound

namespace Proc

/-! ## A process sends what its peers expect -/

/-- Every message in the send queue is one that a peer may receive. -/
def SendsToPeers (σ : Proc) : Prop := ∀ wr ∈ σ.sq, ∀ w, wr.op = .send w → w.FromPeer

theorem Carries.fromPeer {σ : Proc} {prm : SendParam} {c : ConnId} {x : Query} {wire : Wire}
    (h : σ.Carries prm c x wire) (hepoch : σ.ftEpoch = 0) : wire.FromPeer := by
  intro _
  obtain ⟨mr, eagerSize, hwire⟩ := h.wire
  rw [sentCtl] at hwire
  split at hwire
  · next hsize =>
    refine ⟨?_, ?_, ?_⟩ <;> rw [hwire]
    · exact hepoch
    · exact (if_pos hsize).symm
    · simp [sendCtl]
  · next hsize =>
    refine ⟨?_, ?_, ?_⟩ <;> rw [hwire]
    · exact hepoch
    · exact (if_neg hsize).symm
    · simp [sendCtl]

theorem SendsToPeers.append {σ σ' : Proc} {wr : SendWr} {l : List SendWr} (h : σ.SendsToPeers)
    (hl : ∀ x ∈ l, x ∈ σ.sq) (hsq : σ'.sq = l ++ [wr]) (hwr : ∀ w, wr.op = .send w → w.FromPeer) :
    σ'.SendsToPeers := by
  intro x hx
  rw [hsq] at hx
  rcases List.mem_append.1 hx with hx | hx
  · exact h x (hl x hx)
  · rw [List.mem_singleton.1 hx]
    exact hwr

theorem SendsToPeers.subset {σ σ' : Proc} (h : σ.SendsToPeers) (hsq : ∀ x ∈ σ'.sq, x ∈ σ.sq) : σ'.SendsToPeers :=
  fun x hx => h x (hsq x hx)

theorem SendsToPeers.transition {σ σ' : Proc} {e : Event} (h : σ.SendsToPeers) (hepoch : σ.ftEpoch = 0)
    (ht : Transition σ e σ') : σ'.SendsToPeers := by
  cases ht with
  | launch hpeer hg hx =>
    refine h.append (fun _ => id) rfl fun w hw => ?_
    cases hw
    exact hx.fromPeer hepoch
  | fetch hsrc hsel hop hconn hg hx hc ha => exact h.append (fun _ => id) rfl fun w hw => nomatch hw
  | startRead htype hwr hsel hop hg hx => exact h.append (fun _ => id) rfl fun w hw => nomatch hw
  | readDone hwr ha hr hmsg hwire =>
    refine h.append (fun _ => List.mem_of_mem_eraseP) rfl fun w hw => ?_
    cases hw
    intro htype
    rw [hwire, hmsg, sentCtl_type] at htype
    cases htype
  | sentEager hwr htype hop hr => exact h.subset fun _ => List.mem_of_mem_eraseP
  | sentOther hwr hother => exact h.subset fun _ => List.mem_of_mem_eraseP
  | accept _ _ _ | await _ _ _ _ _ | deliver _ _ _ _ _ _ _ | store _ _ _ _ _ | finish _ _ _ _ | flush => exact h
  | link hl => cases hl <;> exact h
  | establish hcm hc hτ =>
    rw [hτ.rest]
    exact h

/-- The two sides of the library agree on what an INIT message looks like. -/
theorem SendsToPeers.of_path {b : Boot} {es : List Event} {σ : Proc}
    (h : Path Proc.step (fun _ e => e.FromPeer) (Proc.init b) es σ) : σ.SendsToPeers :=
  (h.invariant (I := fun σ => σ.Sound [] ∧ σ.SendsToPeers)
    (fun _ _ _ hs he hstep => ⟨hs.1.step he hstep,
      hs.2.transition hs.1.epoch (transition_of_step hs.1.toOwned hs.1.toWired he hstep)⟩)
    ⟨Sound.init b, fun _ hx => nomatch hx⟩).2

end Proc

open Proc

/-- Exactly one place for every allocated query, none for the others, and `counter` counts the queries
outside of the pool. -/
theorem query_owned_once {b : Boot} {es : List Event} {σ : Proc}
    (h : Path Proc.step (fun _ e => e.FromPeer) (Proc.init b) es σ) :
    (∀ q < σ.nalloc, ∑ i, (σ.place i).count q = 1) ∧ (∀ q, σ.nalloc ≤ q → ∀ i, q ∉ σ.place i) ∧
    σ.counter = ((List.range σ.nalloc).filter (· ∉ σ.freeQueryQ)).length := by
  have hs := Sound.of_path h
  refine ⟨fun q hq => ?_, fun q hq i hmem => ?_, ?_⟩
  · have := hs.custody q
    rwa [List.count_nil, Nat.zero_add, List.count_eq_one_of_mem List.nodup_range (List.mem_range.2 hq)] at this
  · exact absurd (hs.lt hmem) (Nat.not_lt.2 hq)
  · have hnodup : σ.freeQueryQ.Nodup := hs.nodup .free
    have hpool : ((List.range σ.nalloc).filter (· ∈ σ.freeQueryQ)).Perm σ.freeQueryQ := by
      refine (List.perm_ext_iff_of_nodup (List.nodup_range.filter _) hnodup).2 fun q => ?_
      simp only [List.mem_filter, List.mem_range, decide_eq_true_eq, and_iff_right_iff_imp]
      exact fun hq => hs.lt (i := .free) hq
    have hsum := (List.filter_append_perm (· ∈ σ.freeQueryQ) (List.range σ.nalloc)).length_eq
    rw [List.length_append, hpool.length_eq, List.length_range] at hsum
    have hcounter := hs.counter
    simp only [decide_not]
    omega

/-- A rendezvous message is received, read and answered, an eager one is flushed. -/
def rendezvousRun : List Event :=
  let wire (opcode : Opcode) (count tag : CInt) : Wire :=
    ⟨⟨.commInit, opcode, 0, ⟨0, 0⟩, 0, uint64OfInt tag, 0, count, fmiCommWorld.id, fmiByte,
      ⟨0, .user ⟨0, 0⟩, 65537, 0, 0⟩, 0⟩, 0, fun _ => 0⟩
  Event.connecting 1 16 ++
    [.wcRecv 0 (wire .rdmaRead 65537 5), .irecv ⟨⟨1, 0⟩, 65537, fmiByte, 1, 5, fmiCommWorld, 0, 0⟩,
      .wcRdmaRead 0 (fun _ => 1), .wcSend 0, .wcRecv 0 (wire .eager 1 6), .flush]

theorem query_owned_once_rendezvous :
    ∃ σ, Path Proc.step (fun _ e => e.FromPeer) (Proc.init Boot.zeroed) rendezvousRun σ ∧
      σ.counter = 10 ∧ ∀ q < σ.nalloc, ∑ i, (σ.place i).count q = 1 := by
  obtain ⟨σ, hpath, hcounter⟩ := exists_path_of_runWhile Proc.step (fun _ e => e.FromPeer)
    (Proc.init Boot.zeroed) rendezvousRun (fun σ => decide (σ.counter = 10)) (by decide +kernel)
  exact ⟨σ, hpath, of_decide_eq_true hcounter, (query_owned_once hpath).1⟩

end Libibtl
