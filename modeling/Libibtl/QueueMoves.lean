import Mathlib.Data.List.Find
import Libibtl.Frame

/-! # What a step does to the two matching queues

An arriving message takes the first waiting receive that it matches, a new receive
takes the first waiting message that it matches, and whoever finds no partner goes
to the end of its own queue. No other step but a flush touches the queues. In a
sound state the two match functions of the source are one relation on envelopes.
-/

namespace Libibtl

open Foundation

/-- The envelope of a receive whose source has the physical rank `source`. -/
def RecvParam.envelope (prm : RecvParam) (source : CInt) : Envelope := ⟨prm.comm.id, source, prm.tag⟩

/-- The events that neither offer something to the matching code nor flush its queues. -/
def Event.Idle : Event → Prop
  | .wcRecv _ w => w.ctl.type = .commFin
  | .irecv _ | .flush => False
  | .isend _ | .wcSend _ | .wcRdmaRead _ _ | .connect _ _ | .connectRequest _ _ _ | .addrResolved _ _ _
  | .routeResolved _ | .established _ => True

namespace Proc

/-- The envelope of a message that arrives on `c`: its rank is the rank of the connection. -/
def arrivalEnvelope (σ : Proc) (c : ConnId) (w : Wire) : Envelope :=
  ⟨w.ctl.commId, σ.rmapItopGet (σ.conns c).rcid, intOfUint64 w.ctl.tag⟩

def envelope (σ : Proc) (q : QueryId) : Envelope := (σ.queries q).msg.envelope

theorem envelope_arrivedQuery (σ : Proc) (c : ConnId) (a : QueryId) (w : Wire) :
    (σ.arrivedQuery c a w).msg.envelope = σ.arrivalEnvelope c w := by
  simp [arrivedQuery, Ctl.envelope, arrivalEnvelope]

theorem Receives.envelope {source : CInt} {prm : RecvParam} {x : Query} (h : Receives source prm x) :
    x.msg.envelope = prm.envelope source := by
  rw [Ctl.envelope, h.rank, h.tag, h.commId, intOfUint64_uint64OfInt, intOfUint64_uint64OfInt]
  rfl

/-- The cases of a step that is not a flush, as the two queues see it. -/
inductive QueueMove (σ : Proc) : Event → Proc → Prop
  | paired {c : ConnId} {w : Wire} {p : QueryId} {σ' : Proc} (htype : w.ctl.type = .commInit)
    (hsel : σ.pq.find? (fun p => (σ.arrivalEnvelope c w).Matches (σ.envelope p)) = some p)
    (haq : σ'.aq = σ.aq) (hpq : σ'.pq = σ.pq.erase p) : QueueMove σ (.wcRecv c w) σ'
  | stored {c : ConnId} {w : Wire} {a : QueryId} {σ' : Proc} (htype : w.ctl.type = .commInit)
    (hsel : σ.pq.find? (fun p => (σ.arrivalEnvelope c w).Matches (σ.envelope p)) = none)
    (haq : σ'.aq = σ.aq ++ [a]) (hpq : σ'.pq = σ.pq) (hconn : (σ.queries a).conn = some c)
    (hx : σ'.queries a = σ.arrivedQuery c a w) : QueueMove σ (.wcRecv c w) σ'
  | received {prm : RecvParam} {source : CInt} {a : QueryId} {σ' : Proc}
    (hsrc : commGetPrank prm.comm prm.source = some source)
    (hsel : σ.aq.find? (fun a => (σ.envelope a).Matches (prm.envelope source)) = some a)
    (haq : σ'.aq = σ.aq.erase a) (hpq : σ'.pq = σ.pq) : QueueMove σ (.irecv prm) σ'
  | awaited {prm : RecvParam} {source : CInt} {p : QueryId} {σ' : Proc}
    (hsrc : commGetPrank prm.comm prm.source = some source)
    (hsel : σ.aq.find? (fun a => (σ.envelope a).Matches (prm.envelope source)) = none)
    (haq : σ'.aq = σ.aq) (hpq : σ'.pq = σ.pq ++ [p]) (hx : Receives source prm (σ'.queries p)) :
    QueueMove σ (.irecv prm) σ'
  | idle {e : Event} {σ' : Proc} (he : e.Idle) (haq : σ'.aq = σ.aq) (hpq : σ'.pq = σ.pq) : QueueMove σ e σ'

variable {σ σ' : Proc}

/-- `fdmi_get_matched_query` finds the first receive whose envelope matches. -/
theorem Sound.getMatchedQuery_eq (h : σ.Sound []) {c : ConnId} {w : Wire} {wr : RecvWr}
    (hwr : σ.rq.find? (·.conn = c) = some wr) (htype : w.ctl.type = .commInit) (hpeer : w.FromPeer) :
    (σ.arrive c wr.wrId w).getMatchedQuery wr.wrId σ.pq =
      σ.pq.find? fun p => (σ.arrivalEnvelope c w).Matches (σ.envelope p) := by
  obtain ⟨-, -, -, hstored⟩ := h.arrivedQuery_arrived hwr htype hpeer
  rw [getMatchedQuery]
  apply List.find?_congr
  intro p hp
  have hne : p ≠ wr.wrId := by
    rintro rfl
    exact h.not_mem_of_ne (i := .posted) (j := .waiting) (mem_posted_of_find hwr) (by decide) hp
  obtain ⟨-, hepoch, hp⟩ := h.waiting p hp
  simp only [arrive_queries, arrive_ftEpoch, Function.update_self, Function.update_of_ne hne]
  rw [isMatchedQuery_eq hstored hp (by rw [hepoch, h.epoch]; rfl), envelope_arrivedQuery]
  rfl

/-- `fdmi_get_matched_query2` finds the first message whose envelope matches. -/
theorem Sound.getMatchedQuery2_eq (h : σ.Sound []) (prm : RecvParam) (source : CInt) :
    σ.getMatchedQuery2 source prm.tag prm.comm σ.aq =
      σ.aq.find? fun a => (σ.envelope a).Matches (prm.envelope source) := by
  rw [getMatchedQuery2]
  apply List.find?_congr
  intro a ha
  obtain ⟨-, -, hepoch, hstored⟩ := h.arrived a ha
  rw [isMatchedQuery2_eq hstored (by rw [hepoch, h.epoch]; rfl)]
  rfl

theorem queueMove_of_transition {e : Event} (hs : σ.Sound []) (he : e.FromPeer) (hflush : e ≠ .flush)
    (ht : Transition σ e σ') : QueueMove σ e σ' := by
  cases ht with
  | launch hpeer hg hx => exact .idle trivial rfl rfl
  | accept hsrc hsel hop => exact .received hsrc (hs.getMatchedQuery2_eq _ _ ▸ hsel) rfl rfl
  | fetch hsrc hsel hop hconn hg hx hc ha => exact .received hsrc (hs.getMatchedQuery2_eq _ _ ▸ hsel) rfl rfl
  | await hsrc hsel hg hx hepoch =>
    refine .awaited hsrc (hs.getMatchedQuery2_eq _ _ ▸ hsel) rfl rfl ?_
    rw [await_queries, grab_queries, Function.update_self]
    exact hx
  | deliver htype hwr hsel hop hr hg hx =>
    rw [hs.getMatchedQuery_eq hwr htype he] at hsel
    exact .paired htype hsel rfl rfl
  | startRead htype hwr hsel hop hg hx =>
    rw [hs.getMatchedQuery_eq hwr htype he] at hsel
    exact .paired htype hsel rfl rfl
  | @store c w wr g htype hwr hsel hg hx =>
    rw [hs.getMatchedQuery_eq hwr htype he] at hsel
    have hconn : (σ.queries wr.wrId).conn = some c := by
      rw [(hs.posted wr (List.mem_of_find?_eq_some hwr)).1]
      simpa using List.find?_some hwr
    refine .stored (a := wr.wrId) htype hsel rfl rfl hconn ?_
    have hne : wr.wrId ≠ g.query := by
      have hput := (hs.arrive (w := w) hwr).putArrived (by
        rw [arrive_queries, Function.update_self]
        exact hs.arrivedQuery_arrived hwr htype he)
      intro heq
      refine hput.not_mem_of_grabs (i := .arrived) hg (by decide) ?_
      rw [← heq]
      simp [place]
    rw [refill_queries, grab_queries, Function.update_of_ne hne, arrive_queries, Function.update_self]
  | finish htype hwr hg hx => exact .idle htype rfl rfl
  | sentEager hwr htype hop hr => exact .idle trivial rfl rfl
  | sentOther hwr hother => exact .idle trivial rfl rfl
  | readDone hwr ha hr hmsg hwire => exact .idle trivial rfl rfl
  | flush => exact absurd rfl hflush
  | link hl => cases hl <;> exact .idle trivial rfl rfl
  | establish hcm hc hτ =>
    refine .idle trivial ?_ ?_ <;>
    · rw [hτ.rest]
      rfl

end Proc

end Libibtl
