import Libibtl.MatchingRuns
import Libibtl.Requests

/-! # A probe and the receive after it

A probe reports the first message that it accepts. With tags that are not negative
no message carries a wildcard, so that message is also the first one with its own
envelope, and it stays the first while more messages arrive. A receive for what
the probe reported then takes it.
-/

namespace Libibtl

open Foundation

/-- Every message of the event has a tag that is not negative. -/
def Event.TagNonneg : Event → Prop
  | .wcRecv _ w => 0 ≤ (intOfUint64 w.ctl.tag).toInt
  | _ => True

instance (e : Event) : Decidable e.TagNonneg :=
  match e with
  | .wcRecv _ w => inferInstanceAs (Decidable (0 ≤ (intOfUint64 w.ctl.tag).toInt))
  | .isend _ | .irecv _ | .wcSend _ | .wcRdmaRead _ _ | .flush | .connect _ _ | .connectRequest _ _ _
  | .addrResolved _ _ _ | .routeResolved _ | .established _ => .isTrue trivial

/-- The event takes waiting messages: it is a receive or a flush. -/
def Event.takesMessages : Event → Bool
  | .irecv _ | .flush => true
  | _ => false

section Probed

variable {c : Ctl} {epoch source tag commId : CInt}

end Probed

namespace Proc

/-- `status->FMI_SOURCE` and `status->FMI_TAG` of a probe that reports the message in `q`. -/
def status (σ : Proc) (q : QueryId) : CInt × CInt :=
  (intOfUint64 (σ.queries q).msg.rank, intOfUint64 (σ.queries q).msg.tag)

variable {σ σ' : Proc} {e : Event} {q : QueryId}

/-! ## Waiting messages -/

/-- Waiting messages carry a rank of the peer table and no wildcard tag. -/
def Plain (σ : Proc) : Prop :=
  ∀ a ∈ σ.aq, σ.InTable (σ.envelope a).rank ∧ 0 ≤ (σ.envelope a).tag.toInt

/-- Without a domain context there is no connection, no receive and no message. -/
def Unopened (σ : Proc) : Prop :=
  σ.dctx = none → (∀ i, (σ.peers i).conn = none) ∧ σ.rq = [] ∧ σ.aq = []

theorem Unopened.transition (h : σ.Unopened) (ht : Transition σ e σ') : σ'.Unopened := by
  have hrq : ∀ {c wr}, σ.dctx = none → σ.rq.find? (·.conn = c) = some wr → False := by
    intro c wr hd hwr
    rw [(h hd).2.1] at hwr
    cases hwr
  intro hd
  cases ht with
  | launch hpeer hg hx => exact h hd
  | accept hsrc hsel hop =>
    obtain ⟨hpeers, hrq, haq⟩ := h hd
    exact ⟨hpeers, hrq, by rw [accept_aq, haq, List.erase_nil]⟩
  | fetch hsrc hsel hop hconn hg hx hc ha =>
    obtain ⟨hpeers, hrq, haq⟩ := h hd
    exact ⟨hpeers, hrq, by rw [fetch_aq, haq, List.erase_nil]⟩
  | await hsrc hsel hg hx hepoch => exact h hd
  | deliver htype hwr hsel hop hr hg hx => exact (hrq hd hwr).elim
  | startRead htype hwr hsel hop hg hx => exact (hrq hd hwr).elim
  | store htype hwr hsel hg hx => exact (hrq hd hwr).elim
  | finish htype hwr hg hx => exact (hrq hd hwr).elim
  | sentEager hwr htype hop hr => exact h hd
  | sentOther hwr hother => exact h hd
  | readDone hwr ha hr hmsg hwire => exact h hd
  | flush =>
    obtain ⟨hpeers, hrq, haq⟩ := h hd
    exact ⟨hpeers, hrq, by rw [flushed_aq, haq, List.filter_nil]⟩
  | link hl =>
    cases hl with
    | connect hcm htab => exact h hd
    | reject hcm => exact h hd
    | @acceptRequest id verbs pd pd' dctx hcm htab hsome =>
      obtain rfl : dctx = none := hd
      cases hsome
    | @resolve id verbs pd pd' dctx hcm hslot hsome =>
      obtain rfl : dctx = none := hd
      cases hsome
    | @drop id verbs pd pd' dctx hcm hsome =>
      obtain rfl : dctx = none := hd
      cases hsome
    | route hcm => exact h hd
  | establish hcm hc hτ =>
    rw [hτ.rest] at hd
    rw [(h hd).1] at hc
    cases hc

/-- What holds of waiting messages in every state of a run. -/
structure Steady (σ : Proc) : Prop where
  sound : σ.Sound []
  registered : σ.Registered
  unopened : σ.Unopened
  plain : σ.Plain
  aborted : σ.aborted = false

theorem Plain.of_subset (h : σ.Plain) (hs : σ.Sound []) (hs' : σ'.Sound []) (hnum : σ'.numpeer = σ.numpeer)
    (ht : Transition σ e σ') (haq : ∀ a ∈ σ'.aq, a ∈ σ.aq) : σ'.Plain := by
  intro a ha
  rw [InTable, hnum, envelope, kept ht hs hs' (i := .arrived) (by decide) (by decide) (haq a ha) ha]
  exact h a (haq a ha)

theorem Plain.transition (h : σ.Plain) (hs : σ.Sound []) (hreg : σ.Registered) (he : e.FromPeer)
    (htag : e.TagNonneg) (ht : Transition σ e σ') : σ'.Plain := by
  have hs' := hs.transition he ht
  have hnum : σ'.numpeer = σ.numpeer := by rw [(hreg.transition ht).numpeer, hreg.numpeer]
  by_cases hflush : e = .flush
  · subst hflush
    cases ht with
    | flush => exact h.of_subset hs hs' hnum .flush fun a ha => (List.mem_filter.1 ha).1
    | link hl => cases hl
  · cases queueMove_of_transition hs he hflush ht with
    | paired htype hsel haq hpq => exact h.of_subset hs hs' hnum ht fun a ha => haq ▸ ha
    | @stored c w a _ htype hsel haq hpq hconn hx =>
      intro x hx'
      have hmem := hx'
      rw [haq] at hmem
      rcases List.mem_append.1 hmem with hold | hnew
      · rw [InTable, hnum, envelope, kept ht hs hs' (i := .arrived) (by decide) (by decide) hold hx']
        exact h x hold
      · rw [InTable, hnum, envelope, List.mem_singleton.1 hnew, hx, envelope_arrivedQuery]
        exact ⟨hreg.inTable (Recorded.conn_lt hreg ht c w rfl), htag⟩
    | received hsrc hsel haq hpq =>
      exact h.of_subset hs hs' hnum ht fun a ha => List.mem_of_mem_erase (haq ▸ ha)
    | awaited hsrc hsel haq hpq hx => exact h.of_subset hs hs' hnum ht fun a ha => haq ▸ ha
    | idle hidle haq hpq => exact h.of_subset hs hs' hnum ht fun a ha => haq ▸ ha

theorem Steady.step (h : σ.Steady) (he : e.FromPeer ∧ e.TagNonneg) (hstep : σ.step e = some σ') : σ'.Steady := by
  have ht := transition_of_step h.sound.toOwned h.sound.toWired he.1 hstep
  exact ⟨h.sound.transition he.1 ht, h.registered.transition ht, h.unopened.transition ht,
    h.plain.transition h.sound h.registered he.1 he.2 ht, (step_eq_some.1 hstep).2⟩

theorem Steady.init (b : Boot) : (Proc.init b).Steady where
  sound := Sound.init b
  registered := Registered.init b
  unopened _ := ⟨fun _ => rfl, rfl, rfl⟩
  plain := fun _ ha => (nomatch ha)
  aborted := rfl

/-! ## The first message of an envelope -/

/-- The message in `q` is the oldest one that shows `x`. -/
def Oldest (σ : Proc) (x : Envelope) (q : QueryId) : Prop := σ.aq.find? (σ.envelope · = x) = some q

/-- The oldest message stays the oldest until a receive or a flush. -/
theorem Oldest.transition {x : Envelope} (h : σ.Oldest x q) (hs : σ.Sound []) (he : e.FromPeer)
    (htakes : ¬ e.takesMessages) (ht : Transition σ e σ') :
    σ'.Oldest x q ∧ σ'.queries q = σ.queries q := by
  have hs' := hs.transition he ht
  have hq : q ∈ σ.aq := List.mem_of_find?_eq_some h
  have hgrow : ∃ l, σ'.aq = σ.aq ++ l := by
    have hflush : e ≠ .flush := by
      rintro rfl
      exact htakes rfl
    cases queueMove_of_transition hs he hflush ht with
    | paired htype hsel haq hpq => exact ⟨[], by simp [haq]⟩
    | stored htype hsel haq hpq hconn hx => exact ⟨_, haq⟩
    | received hsrc hsel haq hpq => exact absurd rfl htakes
    | awaited hsrc hsel haq hpq hx => exact absurd rfl htakes
    | idle hidle haq hpq => exact ⟨[], by simp [haq]⟩
  obtain ⟨l, haq⟩ := hgrow
  have hkept : ∀ a ∈ σ.aq, σ'.queries a = σ.queries a := fun a ha =>
    kept ht hs hs' (i := .arrived) (by decide) (by decide) ha (by rw [place, haq]; exact List.mem_append_left _ ha)
  refine ⟨?_, hkept q hq⟩
  have hsame : σ.aq.find? (σ'.envelope · = x) = some q := by
    rw [← h]
    apply List.find?_congr
    intro a ha
    rw [envelope, hkept a ha, envelope]
  rw [Oldest, haq, List.find?_append, hsame]
  rfl

/-! ## The receive -/

/-- The read for request `r` is outstanding, and it will report `s` and `t`. -/
structure Reads (σ : Proc) (r : ReqId) (s t : CInt) (wr : SendWr) (a : QueryId) : Prop where
  posted : wr ∈ σ.sq
  isRead : wr.isRead = true
  active : (σ.queries wr.wrId).activeQueryToFree = some a
  request : (σ.queries wr.wrId).request = some r
  status : σ.status a = (s, t)
  pending : (σ.requests r).requestFlag = 0
  queued : r ∉ σ.sendReqQ
  bound : ∀ x, σ.Binds x r → x = wr.wrId

/-- The request reports `s` and `t`, or it is not complete and its read is outstanding. -/
def Reports (σ : Proc) (r : ReqId) (s t : CInt) : Prop :=
  (σ.RequestIdle r ∧ σ.requests r = ⟨s, t, 1⟩) ∨ ∃ wr a, σ.Reads r s t wr a

theorem Reads.transition {r : ReqId} {s t : CInt} {wr : SendWr} {a : QueryId} (h : σ.Reads r s t wr a)
    (hs : σ.Sound []) (hs' : σ'.Sound []) (ht : Transition σ e σ') (he : e.request ≠ some r) : σ'.Reports r s t := by
  have hp : wr.wrId ∈ σ.place .reading := Sound.mem_reading h.posted h.isRead
  have hheld : a ∈ σ.place .held := Sound.mem_held h.posted h.isRead h.active
  have hqueued := sendReqQ_of_transition ht he h.queued
  rcases read_of_transition ht h.posted h.isRead with hposted | ⟨c, p, a', r', sge, remote, data, msg, wire, rfl, hwr, ha, hr, rfl⟩
  · have hp' : wr.wrId ∈ σ'.place .reading := Sound.mem_reading hposted h.isRead
    have hkept := kept ht hs hs' (by decide) (by decide) hp hp'
    have hactive : (σ'.queries wr.wrId).activeQueryToFree = some a := hkept ▸ h.active
    have hheld' : a ∈ σ'.place .held := Sound.mem_held hposted h.isRead hactive
    have hkept' := kept ht hs hs' (by decide) (by decide) hheld hheld'
    refine .inr ⟨wr, a, hposted, h.isRead, hactive, hkept ▸ h.request, ?_, ?_, hqueued, ?_⟩
    · rw [Proc.status, hkept']
      exact h.status
    · rw [requests_of_transition hs hs' ht he h.queued fun x hx => ⟨.reading, h.bound x hx ▸ hp, h.bound x hx ▸ hp'⟩]
      exact h.pending
    · exact fun x hx => h.bound x ((binds_of_transition hs hs' ht hx).resolve_right he)
  · subst hwr
    obtain rfl := Option.some.inj (h.active.symm.trans ha)
    obtain rfl := Option.some.inj (h.request.symm.trans hr)
    refine .inl ⟨⟨hqueued, fun x hx => ?_⟩, ?_⟩
    · have hxp : x = p := h.bound x ((binds_of_transition hs hs' ht hx).resolve_right he)
      subst hxp
      have hfree : x ∈ (σ.readDone c x a r sge data msg wire).place .free := by simp [place]
      rcases hx.1 with hmem | hmem | ⟨hmem, -⟩ <;> exact hs'.not_mem_of_ne hfree (by decide) hmem
    · obtain ⟨rfl, rfl⟩ := Prod.mk.inj h.status
      exact Function.update_self ..

theorem Reports.transition {r : ReqId} {s t : CInt} (h : σ.Reports r s t) (hs : σ.Sound []) (hs' : σ'.Sound [])
    (ht : Transition σ e σ') (he : e.request ≠ some r) : σ'.Reports r s t := by
  rcases h with ⟨hidle, hr⟩ | ⟨wr, a, h⟩
  · refine .inl ⟨hidle.transition hs hs' ht he, ?_⟩
    rw [requests_of_transition hs hs' ht he hidle.queued fun x hx => absurd hx (hidle.bound x), hr]
  · exact h.transition hs hs' ht he

end Proc

open Proc

/-- A message of rank 1 on connection 0, as a peer sends it. -/
def probeWire (opcode : Opcode) (count tag : CInt) : Wire :=
  ⟨⟨.commInit, opcode, 0, ⟨0, 0⟩, 0, uint64OfInt tag, 0, count, fmiCommWorld.id, fmiByte,
    ⟨0, .user ⟨0, 0⟩, 65537, 0, 0⟩, 0⟩, 0, fun _ => 0⟩

end Libibtl
