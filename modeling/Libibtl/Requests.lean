import Libibtl.Frame

/-! # Who writes a request

A request is written when a call takes it, when a query bound to it completes, and
when it stands first in the queue of send requests as a FIN arrives. A step leaves
every other request alone.
-/

namespace Libibtl

open Foundation

/-- The request that a call of the user takes. -/
def Event.request : Event → Option ReqId
  | .isend prm => some prm.request
  | .irecv prm => some prm.request
  | _ => none

namespace Proc

/-- The query completes the request `r` when its turn comes. -/
def Binds (σ : Proc) (q : QueryId) (r : ReqId) : Prop :=
  (q ∈ σ.place .waiting ∨ q ∈ σ.place .reading ∨ q ∈ σ.place .sending ∧ (σ.queries q).msg.type = .commInit) ∧
    (σ.queries q).requestFlag = some r

/-- No operation of the process is bound to the request. -/
structure RequestIdle (σ : Proc) (r : ReqId) : Prop where
  queued : r ∉ σ.sendReqQ
  bound : ∀ q, ¬ σ.Binds q r

variable {σ σ' : Proc} {e : Event} {q : QueryId} {r : ReqId}

theorem mem_place_of_sq {i : Role} {b : Bool} (hi : (i = .reading ∧ b = true) ∨ (i = .sending ∧ b = false)) :
    q ∈ σ.place i ↔ ∃ wr ∈ σ.sq, wr.isRead = b ∧ wr.wrId = q := by
  rcases hi with ⟨rfl, rfl⟩ | ⟨rfl, rfl⟩ <;> simp [place, reads, and_assoc]

/-- A query that the step did not put anywhere was bound before. -/
theorem Binds.of_old (h : σ'.Binds q r) (hs : σ.Sound []) (hs' : σ'.Sound []) (ht : Transition σ e σ')
    (hpq : q ∈ σ'.pq → q ∈ σ.pq) (hsq : ∀ wr ∈ σ'.sq, wr.wrId = q → wr ∈ σ.sq) : σ.Binds q r := by
  have hsq' : ∀ {i b}, ((i = .reading ∧ b = true) ∨ (i = .sending ∧ b = false)) → q ∈ σ'.place i → q ∈ σ.place i := by
    intro i b hi hq
    obtain ⟨wr, hwr, hb, hid⟩ := (mem_place_of_sq hi).1 hq
    exact (mem_place_of_sq hi).2 ⟨wr, hsq wr hwr hid, hb, hid⟩
  obtain ⟨hplace, hflag⟩ := h
  rcases hplace with hq | hq | ⟨hq, htype⟩
  · have hold : q ∈ σ.place .waiting := hpq hq
    rw [kept ht hs hs' (i := .waiting) (by decide) (by decide) hold hq] at hflag
    exact ⟨.inl hold, hflag⟩
  · have hold := hsq' (i := .reading) (b := true) (.inl ⟨rfl, rfl⟩) hq
    rw [kept ht hs hs' (i := .reading) (by decide) (by decide) hold hq] at hflag
    exact ⟨.inr (.inl hold), hflag⟩
  · have hold := hsq' (i := .sending) (b := false) (.inr ⟨rfl, rfl⟩) hq
    rw [kept ht hs hs' (i := .sending) (by decide) (by decide) hold hq] at hflag htype
    exact ⟨.inr (.inr ⟨hold, htype⟩), hflag⟩

theorem mem_concat_of_ne {l : List SendWr} {x : SendWr} (hx : x.wrId ≠ q) :
    ∀ wr ∈ l ++ [x], wr.wrId = q → wr ∈ l := by
  intro wr hwr hid
  rcases List.mem_append.1 hwr with hwr | hwr
  · exact hwr
  · rw [List.mem_singleton.1 hwr] at hid
    exact absurd hid hx

/-- A step binds a query to a request only on behalf of a call that takes the request. -/
theorem binds_of_transition (hs : σ.Sound []) (hs' : σ'.Sound []) (ht : Transition σ e σ') (h : σ'.Binds q r) :
    σ.Binds q r ∨ e.request = some r := by
  have hold := h.of_old hs hs' ht
  cases ht with
  | @launch prm c g wire hpeer hg hx =>
    by_cases hq : g.query = q
    · subst hq
      have := h.2
      rw [launch_queries, grab_queries, Function.update_self, hx.requestFlag] at this
      exact .inr this
    · exact .inl (hold id (mem_concat_of_ne hq))
  | accept hsrc hsel hop => exact .inl (hold id fun _ hwr _ => hwr)
  | @fetch prm source a c g hsrc hsel hop hconn hg hx hc ha =>
    by_cases hq : g.query = q
    · subst hq
      have := h.2
      rw [fetch_queries, grab_queries, Function.update_self, hx.requestFlag] at this
      exact .inr this
    · exact .inl (hold id (mem_concat_of_ne hq))
  | @await prm source g hsrc hsel hg hx hepoch =>
    by_cases hq : g.query = q
    · subst hq
      have := h.2
      rw [await_queries, grab_queries, Function.update_self, hx.requestFlag] at this
      exact .inr this
    · refine .inl (hold (fun hmem => ?_) fun _ hwr _ => hwr)
      rcases List.mem_append.1 hmem with hmem | hmem
      · exact hmem
      · exact absurd (List.mem_singleton.1 hmem).symm hq
  | deliver htype hwr hsel hop hr hg hx => exact .inl (hold List.mem_of_mem_erase fun _ hwr _ => hwr)
  | @startRead c w wr p regs cached mr g htype hwr hsel hop hg hx =>
    by_cases hq : p = q
    · -- the receive moves from the queue to the read, with its request
      subst hq
      have hp : p ∈ σ.place .waiting := List.mem_of_find?_eq_some hsel
      have hread : p ∈ (((σ.arrive c wr.wrId w).startRead c p wr.wrId regs cached mr).refill c g).place .reading := by
        simp [place, reads, List.filter_cons]
      have hne : p ≠ g.query := by
        rintro rfl
        exact hs'.not_mem_of_ne (mem_posted_refill _ c g) (by decide) hread
      have hne' : p ≠ wr.wrId := by
        rintro rfl
        exact hs.not_mem_of_ne (mem_posted_of_find hwr) (by decide) hp
      have hflag := h.2
      rw [refill_queries, grab_queries, Function.update_of_ne hne, startRead_queries, Function.update_self] at hflag
      simp only [arrive_queries, Function.update_of_ne hne'] at hflag
      exact .inl ⟨.inl hp, hflag⟩
    · exact .inl (hold List.mem_of_mem_erase (mem_concat_of_ne hq))
  | store htype hwr hsel hg hx => exact .inl (hold id fun _ hwr _ => hwr)
  | finish htype hwr hg hx => exact .inl (hold id fun _ hwr _ => hwr)
  | sentEager hwr htype hop hr => exact .inl (hold id fun _ hwr _ => List.mem_of_mem_eraseP hwr)
  | sentOther hwr hother => exact .inl (hold id fun _ hwr _ => List.mem_of_mem_eraseP hwr)
  | @readDone c p a r' sge remote data msg wire hwr ha hr hmsg hwire =>
    by_cases hq : a = q
    · -- the carrier of a FIN is bound to no request
      subst hq
      have hsend : a ∈ (σ.readDone c p a r' sge data msg wire).place .sending := by
        simp [place]
      rcases h.1 with hmem | hmem | ⟨-, htype⟩
      · exact absurd hsend (hs'.not_mem_of_ne hmem (by decide))
      · exact absurd hsend (hs'.not_mem_of_ne hmem (by decide))
      · rw [readDone_queries, Function.update_self] at htype
        simp [hmsg] at htype
    · refine .inl (hold id fun x hx hid => List.mem_of_mem_eraseP (mem_concat_of_ne hq x hx hid))
  | flush => exact .inl (hold (fun hmem => (List.mem_filter.1 hmem).1) fun _ hwr _ => hwr)
  | link hl => cases hl <;> exact .inl (hold id fun _ hwr _ => hwr)
  | establish hcm hc hτ => 
    refine .inl (hold (fun hmem => ?_) fun wr hwr _ => ?_)
    · rw [hτ.rest] at hmem
      exact hmem
    · rw [hτ.rest] at hwr
      exact hwr

/-- A request changes only when a call takes it, when a FIN finds it in the queue of send requests, or
when the query that is bound to it completes. -/
theorem requests_of_transition (hs : σ.Sound []) (hs' : σ'.Sound []) (ht : Transition σ e σ')
    (he : e.request ≠ some r) (hqueued : r ∉ σ.sendReqQ)
    (hb : ∀ q, σ.Binds q r → ∃ i, q ∈ σ.place i ∧ q ∈ σ'.place i) : σ'.requests r = σ.requests r := by
  have hne : ∀ {r' : ReqId}, some r' ≠ some r → r ≠ r' := fun h heq => h (heq ▸ rfl)
  cases ht with
  | launch hpeer hg hx => exact Function.update_of_ne (hne he) ..
  | accept hsrc hsel hop => exact Function.update_of_ne (hne he) ..
  | fetch hsrc hsel hop hconn hg hx hc ha => exact Function.update_of_ne (hne he) ..
  | await hsrc hsel hg hx hepoch => exact Function.update_of_ne (hne he) ..
  | @deliver c w wr p r' g htype hwr hsel hop hr hg hx =>
    refine Function.update_of_ne ?_ ..
    rintro rfl
    have hp : p ∈ σ.place .waiting := List.mem_of_find?_eq_some hsel
    obtain ⟨⟨r', hflag, hr'⟩, -⟩ := hs.waiting p hp
    obtain ⟨i, hi, hi'⟩ := hb p ⟨.inl hp, by rw [hflag, ← hr', hr]⟩
    obtain rfl : i = .waiting := by
      by_contra hne
      exact hs.not_mem_of_ne hi hne hp
    exact (hs.nodup .waiting).not_mem_erase hi'
  | startRead htype hwr hsel hop hg hx => rfl
  | store htype hwr hsel hg hx => rfl
  | finish htype hwr hg hx =>
    change ((σ.sendReqQ.head?.map (setDone σ.requests)).getD σ.requests) r = _
    cases hhead : σ.sendReqQ with
    | nil => rfl
    | cons r' rest =>
      refine Function.update_of_ne ?_ ..
      rintro rfl
      exact hqueued (hhead ▸ List.mem_cons_self)
  | @sentEager c q wire r' hwr htype hop hr =>
    refine Function.update_of_ne ?_ ..
    rintro rfl
    obtain ⟨i, hi, hi'⟩ := hb q ⟨.inr (.inr ⟨mem_sending_of_find hwr, htype⟩), hr⟩
    obtain rfl : i = .sending := by
      by_contra hne
      exact hs.not_mem_of_ne hi hne (mem_sending_of_find hwr)
    exact hs'.not_mem_of_ne (j := .free) hi' (by decide) (by simp [place])
  | sentOther hwr hother => rfl
  | @readDone c p a r' sge remote data msg wire hwr ha hr hmsg hwire =>
    refine Function.update_of_ne ?_ ..
    rintro rfl
    have hp := mem_reading_of_find hwr
    obtain ⟨-, r', -, hflag, hr', -⟩ := hs.reading _ (List.mem_of_find?_eq_some hwr) rfl
    obtain ⟨i, hi, hi'⟩ := hb p ⟨.inr (.inl hp), by rw [hflag, ← hr', hr]⟩
    obtain rfl : i = .reading := by
      by_contra hne
      exact hs.not_mem_of_ne hi hne hp
    exact hs'.not_mem_of_ne (j := .free) hi' (by decide) (by simp [place])
  | flush => rfl
  | link hl => cases hl <;> rfl
  | establish hcm hc hτ =>
    rw [hτ.rest]
    rfl

theorem sendReqQ_of_transition (ht : Transition σ e σ') (he : e.request ≠ some r) (hqueued : r ∉ σ.sendReqQ) :
    r ∉ σ'.sendReqQ := by
  cases ht with
  | launch hpeer hg hx =>
    intro hmem
    rcases List.mem_append.1 hmem with hmem | hmem
    · exact hqueued hmem
    · exact he (List.mem_singleton.1 hmem ▸ rfl)
  | finish htype hwr hg hx => exact fun hmem => hqueued (List.mem_of_mem_tail hmem)
  | sentEager hwr htype hop hr => exact fun hmem => hqueued (List.mem_of_mem_erase hmem)
  | link hl => cases hl <;> exact hqueued
  | establish hcm hc hτ =>
    rw [hτ.rest]
    exact hqueued
  | accept _ _ _ | fetch _ _ _ _ _ _ _ _ | await _ _ _ _ _ | deliver _ _ _ _ _ _ _ | startRead _ _ _ _ _ _
  | store _ _ _ _ _ | sentOther _ _ | readDone _ _ _ _ _ | flush => exact hqueued

theorem RequestIdle.transition (h : σ.RequestIdle r) (hs : σ.Sound []) (hs' : σ'.Sound []) (ht : Transition σ e σ')
    (he : e.request ≠ some r) : σ'.RequestIdle r where
  queued := sendReqQ_of_transition ht he h.queued
  bound q hq := (binds_of_transition hs hs' ht hq).elim (h.bound q) he

/-- A read stays posted until the completion that the adaptor reports for it. -/
theorem read_of_transition (ht : Transition σ e σ') {wr : SendWr} (hwr : wr ∈ σ.sq) (hread : wr.isRead = true) :
    wr ∈ σ'.sq ∨ ∃ c p a r sge remote data msg wire, e = .wcRdmaRead c data ∧ wr = ⟨c, p, .rdmaRead sge remote⟩ ∧
      (σ.queries p).activeQueryToFree = some a ∧ (σ.queries p).request = some r ∧
      σ' = σ.readDone c p a r sge data msg wire := by
  have hother : ∀ {c q wire}, σ.sq.find? (·.conn = c) = some ⟨c, q, .send wire⟩ →
      wr ∈ σ.sq.eraseP (·.conn = c) := by
    intro c q wire hfind
    refine Queue.mem_eraseP_of_find? hfind hwr ?_
    rintro rfl
    cases hread
  cases ht with
  | launch hpeer hg hx => exact .inl (List.mem_append_left _ hwr)
  | fetch hsrc hsel hop hconn hg hx hc ha => exact .inl (List.mem_append_left _ hwr)
  | startRead htype hwr' hsel hop hg hx => exact .inl (List.mem_append_left _ hwr)
  | sentEager hwr' htype hop hr => exact .inl (hother hwr')
  | sentOther hwr' hsend => exact .inl (hother hwr')
  | @readDone c p a r sge remote data msg wire hwr' ha hr hmsg hwire =>
    by_cases heq : wr = ⟨c, p, .rdmaRead sge remote⟩
    · exact .inr ⟨c, p, a, r, sge, remote, data, msg, wire, rfl, heq, ha, hr, rfl⟩
    · exact .inl (List.mem_append_left _ (Queue.mem_eraseP_of_find? hwr' hwr heq))
  | link hl => cases hl <;> exact .inl hwr
  | establish hcm hc hτ =>
    rw [hτ.rest]
    exact .inl hwr
  | accept _ _ _ | await _ _ _ _ _ | deliver _ _ _ _ _ _ _ | store _ _ _ _ _ | finish _ _ _ _ | flush => exact .inl hwr

end Proc

end Libibtl
