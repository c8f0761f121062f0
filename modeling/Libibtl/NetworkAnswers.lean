import Mathlib.Algebra.BigOperators.Group.Finset.Piecewise
import Mathlib.Algebra.Order.BigOperators.Group.Finset
import Libibtl.NetworkDelivery

/-! # Sends that are not complete

A send that is not complete is a message somewhere: an eager message whose SEND has
not completed, or a rendezvous message on its way, waiting, being read or answered by
a FIN on its way back. The queue of send requests never holds fewer requests than
there are such messages, and exactly as many when all messages are rendezvous ones.
-/

namespace Libibtl

open Foundation

universe u

/-- The SEND of an eager message. -/
def SendWr.isEager (wr : SendWr) : Bool :=
  match wr.op with
  | .send w => w.ctl.type = .commInit ∧ w.ctl.opcode = .eager
  | .rdmaRead _ _ => false

def Sending.isRendezvous (x : Sending) : Bool := x.wire.isRendezvous

namespace Proc

/-- A query in the send queue still holds the control part that its message carries. -/
def Mirrored (σ : Proc) : Prop := ∀ wr ∈ σ.sq, ∀ w, wr.op = .send w → (σ.queries wr.wrId).msg.toCtl = w.ctl

variable {σ σ' : Proc} {e : Event} {c : ConnId} {r : ReqId}

theorem Mirrored.transition (h : σ.Mirrored) (hs : σ.Sound []) (hs' : σ'.Sound []) (ht : Transition σ e σ') :
    σ'.Mirrored := by
  -- an old request is still in its place, so nothing has written its query
  have hold : ∀ wr ∈ σ.sq, wr ∈ σ'.sq → ∀ w, wr.op = .send w → (σ'.queries wr.wrId).msg.toCtl = w.ctl := by
    intro wr hwr hwr' w hw
    have hsend : wr.isRead = false := by simp [SendWr.isRead, hw]
    rw [kept ht hs hs' (i := .sending) (by decide) (by decide) (Sound.mem_sending hwr hsend)
      (Sound.mem_sending hwr' hsend)]
    exact h wr hwr w hw
  have hnew : ∀ {l x}, σ'.sq = l ++ [x] → (∀ y ∈ l, y ∈ σ.sq) →
      (∀ w, x.op = .send w → (σ'.queries x.wrId).msg.toCtl = w.ctl) → σ'.Mirrored := by
    intro l x hsq hl hx wr hwr
    have hwr' := hwr
    rw [hsq] at hwr
    rcases List.mem_append.1 hwr with hmem | hmem
    · exact hold wr (hl wr hmem) hwr'
    · rw [List.mem_singleton.1 hmem]
      exact hx
  cases ht with
  | launch hpeer hg hx =>
    refine hnew rfl (fun _ => id) fun w hw => ?_
    cases hw
    rw [launch_queries, grab_queries, Function.update_self, hx.ctl]
  | fetch hsrc hsel hop hconn hg hx hc ha => exact hnew rfl (fun _ => id) fun w hw => by cases hw
  | startRead htype hwr hsel hop hg hx => exact hnew rfl (fun _ => id) fun w hw => by cases hw
  | readDone hwr ha hr hmsg hwire =>
    refine hnew rfl (fun _ => List.mem_of_mem_eraseP) fun w hw => ?_
    cases hw
    rw [readDone_queries, Function.update_self, hwire]
  | sentEager hwr htype hop hr => exact fun wr hwr => hold wr (List.mem_of_mem_eraseP hwr) hwr
  | sentOther hwr hother => exact fun wr hwr => hold wr (List.mem_of_mem_eraseP hwr) hwr
  | accept hsrc hsel hop => exact fun wr hwr => hold wr hwr hwr
  | await hsrc hsel hg hx hepoch => exact fun wr hwr => hold wr hwr hwr
  | deliver htype hwr hsel hop hr hg hx => exact fun wr hwr => hold wr hwr hwr
  | store htype hwr hsel hg hx => exact fun wr hwr => hold wr hwr hwr
  | finish htype hwr hg hx => exact fun wr hwr => hold wr hwr hwr
  | flush => exact fun wr hwr => hold wr hwr hwr
  | link hl => cases hl <;> exact fun wr hwr => hold wr hwr hwr
  | establish hcm hc hτ =>
    intro wr hwr
    refine hold wr ?_ hwr
    rw [hτ.rest] at hwr
    exact hwr

/-- The number of connections does not shrink. -/
theorem nconn_le (ht : Transition σ e σ') : σ.nconn ≤ σ'.nconn := by
  cases ht with
  | link hl => cases hl <;> first | exact Nat.le_refl _ | exact Nat.le_succ _
  | establish hcm hc hτ =>
    rw [hτ.rest]
    exact Nat.le_refl _
  | _ => exact Nat.le_refl _

/-- The eager messages in the send queue of a connection. -/
def eagerOn (σ : Proc) (c : ConnId) : Nat := σ.sq.countP fun wr => wr.isEager ∧ wr.conn = c

theorem eagerOn_concat {x : SendWr} (hsq : σ'.sq = σ.sq ++ [x]) (d : ConnId) :
    σ'.eagerOn d = σ.eagerOn d + if x.isEager ∧ x.conn = d then 1 else 0 := by
  rw [eagerOn, hsq, List.countP_append, List.countP_singleton, eagerOn]
  simp only [decide_eq_true_eq]

theorem eagerOn_eraseP {τ : Proc} {x : SendWr} (hx : σ.sq.find? (·.conn = c) = some x) (hsq : τ.sq = σ.sq.eraseP (·.conn = c))
    (d : ConnId) : τ.eagerOn d + (if x.isEager ∧ x.conn = d then 1 else 0) = σ.eagerOn d := by
  obtain ⟨-, l₁, l₂, hl, he, -⟩ := Queue.split_of_find? hx
  rw [eagerOn, eagerOn, hsq, he, hl, List.countP_append, List.countP_append, List.countP_cons]
  simp only [decide_eq_true_eq]
  omega

/-- The eager messages and the queue of send requests, as a step changes them. -/
inductive QueueStep (σ : Proc) : Event → Proc → Prop
  | launch {prm : SendParam} {c : ConnId} {q : QueryId} {w : Wire} {σ' : Proc}
    (hpeer : (σ.peers prm.dest.toInt).conn = some c) (hlast : σ'.sq.getLast? = some ⟨c, q, .send w⟩)
    (heager : ∀ d, σ'.eagerOn d = σ.eagerOn d + if !w.isRendezvous ∧ c = d then 1 else 0)
    (hqueue : σ'.sendReqQ.length = σ.sendReqQ.length + 1) : QueueStep σ (.isend prm) σ'
  | finish {c : ConnId} {w : Wire} {σ' : Proc} (htype : w.ctl.type = .commFin)
    (heager : σ'.eagerOn = σ.eagerOn) (hqueue : σ'.sendReqQ = σ.sendReqQ.tail) : QueueStep σ (.wcRecv c w) σ'
  | sent {c : ConnId} {x : SendWr} {σ' : Proc} (hx : x ∈ σ.sq) (hconn : x.conn = c) (heager : x.isEager)
    (hdone : ∀ d, σ'.eagerOn d + (if x.conn = d then 1 else 0) = σ.eagerOn d)
    (hqueue : σ.sendReqQ.length ≤ σ'.sendReqQ.length + 1) : QueueStep σ (.wcSend c) σ'
  | idle {e : Event} {σ' : Proc} (hsend : ∀ prm, e ≠ .isend prm)
    (hfin : ∀ c w, e = .wcRecv c w → w.ctl.type = .commInit) (heager : σ'.eagerOn = σ.eagerOn)
    (hqueue : σ'.sendReqQ = σ.sendReqQ) : QueueStep σ e σ'

theorem isEager_of_ctl {x : SendWr} {w : Wire} (hx : x.op = .send w) :
    x.isEager = true ↔ w.ctl.type = .commInit ∧ w.ctl.opcode = .eager := by
  simp [SendWr.isEager, hx]

theorem isEager_eq_of_carries {prm : SendParam} {x : Query} {w : Wire} (hx : σ.Carries prm c x w) (q : QueryId) :
    SendWr.isEager ⟨c, q, .send w⟩ = !w.isRendezvous := by
  obtain ⟨mr, eagerSize, hw⟩ := hx.wire
  rw [SendWr.isEager, Wire.isRendezvous]
  simp only [hw, sentCtl]
  split <;> simp [sendCtl]

theorem eagerOn_of_not {x : SendWr} {l : List SendWr} (hx : x.isEager = false) (hsq : σ'.sq = l ++ [x])
    (hl : ∀ d, (l.countP fun wr => wr.isEager ∧ wr.conn = d) = σ.eagerOn d) : σ'.eagerOn = σ.eagerOn := by
  funext d
  rw [eagerOn, hsq, List.countP_append, hl]
  simp [hx]

theorem queueStep_of_transition (hm : σ.Mirrored) (hflush : e ≠ .flush) (ht : Transition σ e σ') :
    σ.QueueStep e σ' := by
  have hinit : ∀ {c w}, w.ctl.type = .commInit → ∀ c' w', Event.wcRecv c w = .wcRecv c' w' → w'.ctl.type = .commInit := by
    rintro c w hw c' w' heq
    cases heq
    exact hw
  cases ht with
  | @launch prm c g wire hpeer hg hx =>
    apply QueueStep.launch hpeer List.getLast?_concat
    · intro d
      rw [← isEager_eq_of_carries (q := g.query) hx]
      exact eagerOn_concat rfl d
    · exact List.length_append ..
  | accept hsrc hsel hop => exact .idle (by simp) (fun _ _ h => by cases h) rfl rfl
  | fetch hsrc hsel hop hconn hg hx hc ha =>
    exact .idle (by simp) (fun _ _ h => by cases h) (eagerOn_of_not rfl rfl fun _ => rfl) rfl
  | await hsrc hsel hg hx hepoch => exact .idle (by simp) (fun _ _ h => by cases h) rfl rfl
  | deliver htype hwr hsel hop hr hg hx => exact .idle (by simp) (hinit htype) rfl rfl
  | startRead htype hwr hsel hop hg hx =>
    exact .idle (by simp) (hinit htype) (eagerOn_of_not rfl rfl fun _ => rfl) rfl
  | store htype hwr hsel hg hx => exact .idle (by simp) (hinit htype) rfl rfl
  | finish htype hwr hg hx => exact .finish htype rfl rfl
  | @sentEager c q wire r hwr htype hop hr =>
    have hmem := List.mem_of_find?_eq_some hwr
    have hctl := hm _ hmem wire rfl
    have heager : SendWr.isEager ⟨c, q, .send wire⟩ = true := by
      rw [isEager_of_ctl rfl, ← hctl]
      exact ⟨htype, hop⟩
    refine .sent hmem rfl heager (fun d => ?_) ?_
    · have hcount := eagerOn_eraseP (τ := σ.sent c q (setDone σ.requests r) (σ.sendReqQ.erase r)) hwr rfl d
      simpa only [heager, true_and] using hcount
    · have := List.length_erase_le (a := r) (l := σ.sendReqQ)
      simp only [sent_sendReqQ, List.length_erase]
      split <;> omega
  | @sentOther c q wire hwr hother =>
    refine .idle (by simp) (fun _ _ h => by cases h) (funext fun d => ?_) rfl
    have hctl := hm _ (List.mem_of_find?_eq_some hwr) wire rfl
    have heager : SendWr.isEager ⟨c, q, .send wire⟩ = false := by
      rw [← Bool.not_eq_true, isEager_of_ctl rfl, ← hctl]
      rintro ⟨htype, hop⟩
      rcases hother with hfin | hne
      · exact absurd (htype.symm.trans hfin) (by decide)
      · exact hne hop
    have hcount := eagerOn_eraseP (τ := σ.sent c q σ.requests σ.sendReqQ) hwr rfl d
    simpa only [heager, Bool.false_eq_true, false_and, if_false, Nat.add_zero] using hcount
  | @readDone c p a r sge remote data msg wire hwr ha hr hmsg hwire =>
    have hfin : wire.ctl.type = .commFin := by rw [hwire, hmsg, sentCtl_type]
    have heager : SendWr.isEager ⟨c, a, .send wire⟩ = false := by
      rw [← Bool.not_eq_true, isEager_of_ctl rfl, hfin]
      exact fun h => absurd h.1 (by decide)
    refine .idle (by simp) (fun _ _ h => by cases h) (eagerOn_of_not heager rfl fun d => ?_) rfl
    have hcount := eagerOn_eraseP (τ := { σ with sq := σ.sq.eraseP (·.conn = c) }) hwr rfl d
    have hread : SendWr.isEager ⟨c, p, .rdmaRead sge remote⟩ = false := rfl
    simp only [hread, Bool.false_eq_true, false_and, if_false, Nat.add_zero] at hcount
    exact hcount
  | flush => exact absurd rfl hflush
  | link hl => cases hl <;> exact .idle (by simp) (fun _ _ h => by cases h) rfl rfl
  | establish hcm hc hτ =>
    refine .idle (by simp) (fun _ _ h => by cases h) (funext fun d => ?_) ?_
    · rw [hτ.rest]
      rfl
    · rw [hτ.rest]
      rfl

/-- The request is complete, or a FIN can still complete it. -/
def Pursued (σ : Proc) (r : ReqId) : Prop := r ∈ σ.sendReqQ ∨ (σ.requests r).requestFlag = 1

theorem pursued_setDone {k : ReqId} (hreq : σ'.requests = setDone σ.requests k)
    (hqueue : ∀ x ∈ σ.sendReqQ, x ≠ k → x ∈ σ'.sendReqQ) (h : σ.Pursued r) : σ'.Pursued r := by
  by_cases hr : r = k
  · subst hr
    refine .inr ?_
    rw [hreq, setDone, Function.update_self]
  · apply h.imp
    · exact fun hmem => hqueue r hmem hr
    · intro hdone
      rwa [hreq, setDone, Function.update_of_ne hr]

theorem pursued_setReceived {r' : ReqId} {x : Ctl} (hreq : σ'.requests = setReceived σ.requests r' x)
    (hqueue : σ'.sendReqQ = σ.sendReqQ) (h : σ.Pursued r) : σ'.Pursued r := by
  rw [Pursued, hqueue, hreq, setReceived]
  by_cases hr : r = r'
  · subst hr
    simp
  · rw [Function.update_of_ne hr]
    exact h

/-- A receive that takes `r` makes it forget its send. -/
theorem Pursued.transition (h : σ.Pursued r) (hrecv : ∀ prm, e = .irecv prm → prm.request ≠ r)
    (ht : Transition σ e σ') : σ'.Pursued r := by
  have hpending : ∀ {r'}, r' ≠ r → (setPending σ.requests r' r) = σ.requests r := fun hr =>
    Function.update_of_ne (Ne.symm hr) ..
  cases ht with
  | @launch prm c g wire hpeer hg hx =>
    by_cases hr : prm.request = r
    · exact .inl (List.mem_append_right _ (List.mem_singleton.2 hr.symm))
    · apply h.imp
      · exact fun hmem => List.mem_append_left _ hmem
      · intro hdone
        rw [launch_requests, hpending hr]
        exact hdone
  | accept hsrc hsel hop => exact pursued_setReceived rfl rfl h
  | @fetch prm source a c g hsrc hsel hop hconn hg hx hc ha =>
    rw [Pursued, fetch_requests, hpending (hrecv prm rfl)]
    exact h
  | @await prm source g hsrc hsel hg hx hepoch =>
    rw [Pursued, await_requests, hpending (hrecv prm rfl)]
    exact h
  | deliver htype hwr hsel hop hr hg hx => exact pursued_setReceived rfl rfl h
  | startRead htype hwr hsel hop hg hx => exact h
  | store htype hwr hsel hg hx => exact h
  | @finish c w wr g htype hwr hg hx =>
    cases hq : σ.sendReqQ with
    | nil =>
      have hdone := h.resolve_left (by simp [hq])
      refine .inr ?_
      have hreq : (((σ.arrive c wr.wrId w).finish wr.wrId).refill c g).requests = σ.requests := by
        change (σ.sendReqQ.head?.map (setDone σ.requests)).getD σ.requests = _
        rw [hq]
        rfl
      rw [hreq]
      exact hdone
    | cons r' rest =>
      refine pursued_setDone (k := r') ?_ ?_ h
      · change (σ.sendReqQ.head?.map (setDone σ.requests)).getD σ.requests = _
        rw [hq]
        rfl
      · intro x hx hne
        change x ∈ σ.sendReqQ.tail
        rw [hq] at hx ⊢
        exact (List.mem_cons.1 hx).resolve_left hne
  | sentEager hwr htype hop hr => exact pursued_setDone rfl (fun x hx hne => (List.mem_erase_of_ne hne).2 hx) h
  | sentOther hwr hother => exact h
  | readDone hwr ha hr hmsg hwire => exact pursued_setReceived rfl rfl h
  | flush => exact h
  | link hl => cases hl <;> exact h
  | establish hcm hc hτ =>
    rw [Pursued, hτ.rest]
    exact h

theorem pursued_isend {prm : SendParam} (ht : Transition σ (.isend prm) σ') : σ'.Pursued prm.request := by
  cases ht with
  | launch hpeer hg hx => exact .inl (List.mem_append_right _ List.mem_cons_self)
  | link hl => cases hl

end Proc

open Finset in
theorem sum_changed {f g : ConnId → Nat} {c : ConnId} {k N : Nat} (h : ∀ d, g d = f d + if c = d then k else 0)
    (hc : c < N) : ∑ d ∈ range N, g d = ∑ d ∈ range N, f d + k := by
  rw [sum_congr rfl fun d _ => h d, sum_add_distrib, sum_ite_eq, if_pos (mem_range.2 hc)]

namespace Node

/-- The eager messages of a connection that have not completed, and all rendezvous messages sent on it. -/
def due (n : Node) (c : ConnId) : Nat := n.proc.eagerOn c + (n.sent c).countP Sending.isRendezvous

/-- What the queue of send requests holds, as far as messages and FINs tell. -/
structure Account (n : Node) : Prop where
  mirrored : n.proc.Mirrored
  outside : ∀ c, n.proc.nconn ≤ c → n.proc.eagerOn c = 0 ∧ n.sent c = []
  enough : ∀ N, n.proc.nconn ≤ N →
    ∑ c ∈ Finset.range N, n.due c ≤ n.proc.sendReqQ.length + ∑ c ∈ Finset.range N, n.answers c
  exact : (∀ c, ∀ x ∈ n.sent c, x.isRendezvous) → (∀ c, n.proc.eagerOn c = 0) ∧ ∀ N, n.proc.nconn ≤ N →
    ∑ c ∈ Finset.range N, n.due c = n.proc.sendReqQ.length + ∑ c ∈ Finset.range N, n.answers c
  pursued : ∀ c, ∀ x ∈ n.sent c, (∀ r ∈ posts n.log.history, r.prm.request ≠ x.prm.request) →
    n.proc.Pursued x.prm.request

namespace Account

variable {n n' : Node} {e : Event} {σ' : Proc} {c : ConnId}

theorem init (b : Boot) : (Node.init b).Account where
  mirrored := fun _ h => absurd h List.not_mem_nil
  outside _ _ := ⟨rfl, rfl⟩
  enough N _ := by
    exact (Finset.sum_eq_zero fun _ _ => rfl).le.trans (Nat.zero_le _)
  exact _ := by
    refine ⟨fun _ => rfl, fun N _ => ?_⟩
    refine (Finset.sum_eq_zero fun _ _ => rfl).trans ?_
    exact (Nat.zero_add _).symm.trans (congrArg _ (Finset.sum_eq_zero fun _ _ => rfl).symm)
  pursued _ _ h := absurd h List.not_mem_nil

/-- The answers that have arrived do not exceed the rendezvous messages sent. -/
def Answerable (n : Node) : Prop := ∀ c, n.answers c ≤ (n.sent c).countP Sending.isRendezvous

theorem answers_le_due (h : Answerable n) (c : ConnId) : n.answers c ≤ n.due c :=
  (h c).trans (Nat.le_add_left _ _)

/-- The queue of send requests is not empty while an answer is missing. -/
theorem sendReqQ_pos (h : n.Account) (ha : Answerable n) (hc : n.answers c < (n.sent c).countP Sending.isRendezvous) :
    0 < n.proc.sendReqQ.length := by
  have hin : c < n.proc.nconn := by
    by_contra hout
    rw [(h.outside c (Nat.le_of_not_lt hout)).2] at hc
    exact Nat.not_lt_zero _ hc
  have hsum : ∑ d ∈ Finset.range n.proc.nconn, n.answers d < ∑ d ∈ Finset.range n.proc.nconn, n.due d := by
    apply Finset.sum_lt_sum fun d _ => answers_le_due ha d
    exact ⟨c, Finset.mem_range.2 hin, hc.trans_le (Nat.le_add_left _ _)⟩
  have := h.enough _ le_rfl
  omega

theorem sentAfter_launch {prm : SendParam} {q : QueryId} {w : Wire}
    (hlast : σ'.sq.getLast? = some ⟨c, q, .send w⟩) :
    (n.after (.isend prm) σ').sent = Function.update n.sent c (n.sent c ++ [⟨prm, n.proc.mem, w⟩]) := by
  simp only [after, sentAfter, hlast]

theorem sentAfter_eq (hsend : ∀ prm, e ≠ .isend prm) : (n.after e σ').sent = n.sent := by
  cases e with
  | isend prm => exact absurd rfl (hsend prm)
  | _ => rfl

theorem answersAfter_eq (hfin : ∀ c w, e = .wcRecv c w → w.ctl.type = .commInit) :
    (n.after e σ').answers = n.answers := by
  cases e with
  | wcRecv c w => simp only [after_answers, answersAfter, hfin c w rfl]
  | _ => rfl

/-- The counts are as they were. -/
theorem same (h : n.Account) (hnconn : n.proc.nconn ≤ n'.proc.nconn) (hsent : n'.sent = n.sent)
    (hanswers : n'.answers = n.answers) (heager : n'.proc.eagerOn = n.proc.eagerOn)
    (hqueue : n'.proc.sendReqQ = n.proc.sendReqQ) (hmirrored : n'.proc.Mirrored)
    (hpursued : ∀ c, ∀ x ∈ n'.sent c, (∀ r ∈ posts n'.log.history, r.prm.request ≠ x.prm.request) →
      n'.proc.Pursued x.prm.request) : n'.Account := by
  have hdue : n'.due = n.due := by
    funext d
    rw [due, heager, hsent, due]
  constructor
  · exact hmirrored
  · intro d hd
    rw [heager, hsent]
    exact h.outside d (hnconn.trans hd)
  · intro N hN
    rw [hdue, hqueue, hanswers]
    exact h.enough N (hnconn.trans hN)
  · intro hall
    rw [hsent] at hall
    rw [heager, hdue, hqueue, hanswers]
    obtain ⟨hnone, hsum⟩ := h.exact hall
    exact ⟨hnone, fun N hN => hsum N (hnconn.trans hN)⟩
  · exact hpursued

section Step

variable (h : n.Account) (hnconn : n.proc.nconn ≤ n'.proc.nconn) (hmirrored : n'.proc.Mirrored)
  (hpursued : ∀ c, ∀ x ∈ n'.sent c, (∀ r ∈ posts n'.log.history, r.prm.request ≠ x.prm.request) →
    n'.proc.Pursued x.prm.request)

include h hnconn hmirrored hpursued

/-- A message has been sent. -/
theorem launched {x : Sending} (hc : c < n.proc.nconn) (hsent : n'.sent = Function.update n.sent c (n.sent c ++ [x]))
    (hanswers : n'.answers = n.answers)
    (heager : ∀ d, n'.proc.eagerOn d = n.proc.eagerOn d + if !x.isRendezvous ∧ c = d then 1 else 0)
    (hqueue : n'.proc.sendReqQ.length = n.proc.sendReqQ.length + 1) : n'.Account := by
  have hdue : ∀ d, n'.due d = n.due d + if c = d then 1 else 0 := by
    intro d
    rw [due, heager, hsent, due]
    by_cases hd : c = d
    · subst hd
      cases hx : x.isRendezvous <;> simp [hx] <;> omega
    · simp [hd, Function.update_of_ne (Ne.symm hd)]
  have hne : ∀ {d}, n'.proc.nconn ≤ d → c ≠ d := fun hd => (hc.trans_le (hnconn.trans hd)).ne
  constructor
  · exact hmirrored
  · intro d hd
    rw [heager, hsent, Function.update_of_ne (hne hd).symm]
    simpa [hne hd] using h.outside d (hnconn.trans hd)
  · intro N hN
    have := h.enough N (hnconn.trans hN)
    rw [sum_changed hdue (hc.trans_le (hnconn.trans hN)), hqueue, hanswers]
    omega
  · intro hall
    have hx : x.isRendezvous := hall c x (by simp [hsent])
    have hold : ∀ d, ∀ y ∈ n.sent d, y.isRendezvous := by
      intro d y hy
      apply hall d y
      rw [hsent, Function.update_apply]
      split
      · next hd => exact List.mem_append_left _ (hd ▸ hy)
      · exact hy
    obtain ⟨hnone, hsum⟩ := h.exact hold
    refine ⟨fun d => ?_, fun N hN => ?_⟩
    · rw [heager, hnone]
      simp [hx]
    · have := hsum N (hnconn.trans hN)
      rw [sum_changed hdue (hc.trans_le (hnconn.trans hN)), hqueue, hanswers]
      omega
  · exact hpursued

/-- A FIN has been received, with a request in the queue. -/
theorem finReceived (hc : c < n.proc.nconn) (hsent : n'.sent = n.sent)
    (hanswers : ∀ d, n'.answers d = n.answers d + if c = d then 1 else 0)
    (heager : n'.proc.eagerOn = n.proc.eagerOn) (hpos : 0 < n.proc.sendReqQ.length)
    (hqueue : n'.proc.sendReqQ = n.proc.sendReqQ.tail) : n'.Account := by
  have hdue : n'.due = n.due := by
    funext d
    rw [due, heager, hsent, due]
  have hlength : n'.proc.sendReqQ.length + 1 = n.proc.sendReqQ.length := by
    rw [hqueue, List.length_tail]
    omega
  constructor
  · exact hmirrored
  · intro d hd
    rw [heager, hsent]
    exact h.outside d (hnconn.trans hd)
  · intro N hN
    have := h.enough N (hnconn.trans hN)
    rw [hdue, sum_changed hanswers (hc.trans_le (hnconn.trans hN))]
    omega
  · intro hall
    rw [hsent] at hall
    obtain ⟨hnone, hsum⟩ := h.exact hall
    refine ⟨fun d => heager ▸ hnone d, fun N hN => ?_⟩
    have := hsum N (hnconn.trans hN)
    rw [hdue, sum_changed hanswers (hc.trans_le (hnconn.trans hN))]
    omega
  · exact hpursued

/-- The SEND of an eager message has completed. -/
theorem completed (hsent : n'.sent = n.sent) (hanswers : n'.answers = n.answers)
    (heager : ∀ d, n'.proc.eagerOn d + (if c = d then 1 else 0) = n.proc.eagerOn d)
    (hqueue : n.proc.sendReqQ.length ≤ n'.proc.sendReqQ.length + 1) : n'.Account := by
  have hdue : ∀ d, n.due d = n'.due d + if c = d then 1 else 0 := by
    intro d
    have := heager d
    rw [due, ← hsent, due]
    omega
  have hone : n.proc.eagerOn c ≠ 0 := by
    have := heager c
    simp only [if_true] at this
    omega
  have hc : c < n.proc.nconn := by
    by_contra hout
    exact hone (h.outside c (Nat.le_of_not_lt hout)).1
  constructor
  · exact hmirrored
  · intro d hd
    have := heager d
    obtain ⟨hnone, hnil⟩ := h.outside d (hnconn.trans hd)
    exact ⟨by omega, hsent ▸ hnil⟩
  · intro N hN
    have := h.enough N (hnconn.trans hN)
    rw [sum_changed hdue (hc.trans_le (hnconn.trans hN))] at this
    rw [hanswers]
    omega
  · intro hall
    rw [hsent] at hall
    exact absurd ((h.exact hall).1 c) hone
  · exact hpursued

end Step

theorem irecv_posted {prm : RecvParam} (ht : Transition n.proc (.irecv prm) σ') :
    ∃ r ∈ posts (n.after (.irecv prm) σ').log.history, r.prm = prm := by
  obtain ⟨source, hsrc⟩ : ∃ source, commGetPrank prm.comm prm.source = some source := by
    cases ht with
    | accept hsrc => exact ⟨_, hsrc⟩
    | fetch hsrc => exact ⟨_, hsrc⟩
    | await hsrc => exact ⟨_, hsrc⟩
    | link hl => cases hl
  refine ⟨⟨(posts n.log.history).length, source, prm⟩, ?_, rfl⟩
  simp only [after, offer, hsrc, Option.map_some]
  rw [Log.record_history, posts_concat_inr]
  exact List.mem_append_right _ List.mem_cons_self

theorem posts_after {r : Receipt} (hr : r ∈ posts n.log.history) : r ∈ posts (n.after e σ').log.history := by
  simp only [after]
  rcases n.offer e with _ | m | r'
  · exact hr
  · rw [Log.record_history, posts_concat_inl]
    exact hr
  · rw [Log.record_history, posts_concat_inr]
    exact List.mem_append_left _ hr

theorem mem_sentAfter {x : Sending} (hx : x ∈ (n.after e σ').sent c) : x ∈ n.sent c ∨ e = .isend x.prm := by
  cases e with
  | isend prm =>
    rcases hlast : σ'.sq.getLast? with _ | ⟨c', q, w | ⟨sge, remote⟩⟩
    · simp only [after, sentAfter, hlast] at hx
      exact .inl hx
    · rw [sentAfter_launch hlast, Function.update_apply] at hx
      split at hx
      · next hc =>
        rcases List.mem_append.1 hx with hx | hx
        · exact .inl (hc ▸ hx)
        · rw [List.mem_singleton.1 hx]
          exact .inr rfl
      · exact .inl hx
    · simp only [after, sentAfter, hlast] at hx
      exact .inl hx
  | _ => exact .inl hx

theorem pursued_after (h : n.Account) (ht : Transition n.proc e σ') (d : ConnId) (x : Sending)
    (hx : x ∈ (n.after e σ').sent d) (hr : ∀ r ∈ posts (n.after e σ').log.history, r.prm.request ≠ x.prm.request) :
    (n.after e σ').proc.Pursued x.prm.request := by
  rw [after_proc]
  rcases mem_sentAfter hx with hx | rfl
  · refine Proc.Pursued.transition (h.pursued d x hx fun r hmem => hr r (posts_after hmem)) ?_ ht
    rintro prm rfl
    obtain ⟨r, hmem, rfl⟩ := irecv_posted ht
    exact hr r hmem
  · exact Proc.pursued_isend ht

/-- A step of a process keeps its account, when it receives no answer too many. -/
theorem transition (h : n.Account) (hn : n.Sound) (hn' : (n.after e σ').Sound) (hflush : e ≠ .flush)
    (ht : Transition n.proc e σ') (ha : Answerable n) (ha' : Answerable (n.after e σ')) : (n.after e σ').Account := by
  have hs' : σ'.Sound [] := by
    have := hn'.sound
    rwa [after_proc] at this
  have hnconn : n.proc.nconn ≤ (n.after e σ').proc.nconn := by
    rw [after_proc]
    exact Proc.nconn_le ht
  have hmirrored : (n.after e σ').proc.Mirrored := by
    rw [after_proc]
    exact h.mirrored.transition hn.sound hs' ht
  have hpursued := h.pursued_after ht
  cases Proc.queueStep_of_transition h.mirrored hflush ht with
  | @launch prm c q w _ hpeer hlast heager hqueue =>
    apply h.launched hnconn hmirrored hpursued (hn.registered.slot _ c hpeer) (sentAfter_launch hlast)
    · rfl
    · rw [after_proc]
      exact heager
    · rw [after_proc]
      exact hqueue
  | @finish c w _ htype heager hqueue =>
    have hanswers : ∀ d, (n.after (.wcRecv c w) σ').answers d = n.answers d + if c = d then 1 else 0 := by
      intro d
      simp only [after_answers, answersAfter, htype, Function.update_apply, @eq_comm _ d]
      split <;> simp_all
    have hlt : n.answers c < (n.sent c).countP Sending.isRendezvous := by
      have := ha' c
      rw [hanswers, if_pos rfl, sentAfter_eq (by simp)] at this
      exact this
    have hc : c < n.proc.nconn := by
      by_contra hout
      rw [(h.outside c (Nat.le_of_not_lt hout)).2] at hlt
      exact Nat.not_lt_zero _ hlt
    apply h.finReceived hnconn hmirrored hpursued hc (sentAfter_eq (by simp)) hanswers
    · rw [after_proc]
      exact heager
    · exact h.sendReqQ_pos ha hlt
    · rw [after_proc]
      exact hqueue
  | @sent c x _ hx hconn heager hdone hqueue =>
    apply h.completed (c := c) hnconn hmirrored hpursued (sentAfter_eq (by simp)) rfl
    · rw [after_proc]
      exact hconn ▸ hdone
    · rw [after_proc]
      exact hqueue
  | idle hsend hfin heager hqueue =>
    apply h.same hnconn (sentAfter_eq hsend) (answersAfter_eq hfin)
    · rw [after_proc]
      exact heager
    · rw [after_proc]
      exact hqueue
    · exact hmirrored
    · exact hpursued

end Account

end Node

namespace Network

variable {ν : Type u} [DecidableEq ν] {W : Pairing (ν × ConnId)} {s s' : Network ν}

theorem account_move {n n' : Node} (h : n.Account) (hn : n.Sound) (hn' : n'.Sound) (ha : Node.Account.Answerable n)
    (ha' : Node.Account.Answerable n') (hmove : NodeMove n n') : n'.Account := by
  cases hmove with
  | stay => exact h
  | step hpeer hflush hstep =>
    obtain ⟨σ', ht, rfl, -⟩ := hn.step hpeer hflush hstep
    exact h.transition hn hn' hflush ht ha ha'
  | write obj b => exact ⟨h.mirrored, h.outside, h.enough, h.exact, h.pursued⟩
  | start c => exact ⟨h.mirrored, h.outside, h.enough, h.exact, h.pursued⟩

omit [DecidableEq ν] in
theorem answerable (hb : s.exchange.Balanced W Wire.kinds) (i : ν) : Node.Account.Answerable (s.node i) := by
  intro c
  have := hb.answers_le (i, c)
  simp only [exchange, List.countP_map] at this
  exact this

theorem account_of_path {boot : ν → Boot} {es : List (Happening ν)}
    (h : Path (step W) (fun _ e => ¬ e.isFlush) (init boot) es s) :
    (s.Sound ∧ s.exchange.Balanced W Wire.kinds) ∧ ∀ i, (s.node i).Account := by
  refine h.invariant (I := fun s => (s.Sound ∧ s.exchange.Balanced W Wire.kinds) ∧ ∀ i, (s.node i).Account) ?_ ?_
  · rintro s s' e ⟨⟨hs, hb⟩, ha⟩ he hstep
    obtain ⟨hs', hmove⟩ := step_move (W := W) hs he hstep
    have hb' := hb.move hmove
    refine ⟨⟨hs', hb'⟩, fun i => ?_⟩
    exact account_move (ha i) (hs.nodes i) (hs'.nodes i) (answerable hb i) (answerable hb' i) (node_move hs he hstep i)
  · exact ⟨⟨Sound.init boot, Exchange.Balanced.empty⟩, fun i => Node.Account.init (boot i)⟩

/-! ## Every FIN finds its request -/

/-- The messages of a connection whose sends are not complete. -/
def outstanding (n : Node) (c : ConnId) : Nat :=
  n.proc.eagerOn c + ((n.sent c).countP Sending.isRendezvous - n.answers c)

/-- Every rendezvous message is on its way, waits or is read at the far end, or has its FIN on the way back or
received, and the queue of send requests has a request for each message that is not complete. -/
structure Answered (W : Pairing (ν × ConnId)) (s : Network ν) : Prop where
  answered : ∀ i c j d, W.far (i, c) = some (j, d) → ((s.node i).sent c).countP Sending.isRendezvous =
    (s.flight (i, c) ++ (s.node i).unsent c).countP Wire.isRendezvous + (s.node j).owed d +
      (s.flight (j, d) ++ (s.node j).unsent d).countP (fun w => !w.isInit) + (s.node i).answers c
  enough : ∀ i, ∑ c ∈ Finset.range (s.node i).proc.nconn, outstanding (s.node i) c ≤ (s.node i).proc.sendReqQ.length
  exact : ∀ i, (∀ c, ∀ x ∈ (s.node i).sent c, x.isRendezvous) →
    (s.node i).proc.sendReqQ.length = ∑ c ∈ Finset.range (s.node i).proc.nconn, outstanding (s.node i) c
  found : ∀ i c j d, W.far (i, c) = some (j, d) → ∀ w ∈ s.flight (j, d), w.ctl.type = .commFin →
    (s.node i).proc.sendReqQ ≠ []
  pursued : ∀ i c, ∀ x ∈ (s.node i).sent c, (∀ r ∈ posts (s.node i).log.history, r.prm.request ≠ x.prm.request) →
    x.prm.request ∈ (s.node i).proc.sendReqQ ∨ ((s.node i).proc.requests x.prm.request).requestFlag = 1

theorem answered {boot : ν → Boot} {es : List (Happening ν)}
    (h : Path (step W) (fun _ e => ¬ e.isFlush) (init boot) es s) : s.Answered W := by
  obtain ⟨⟨hs, hb⟩, ha⟩ := account_of_path h
  have hanswered : ∀ i c j d, W.far (i, c) = some (j, d) → ((s.node i).sent c).countP Sending.isRendezvous =
      (s.flight (i, c) ++ (s.node i).unsent c).countP Wire.isRendezvous + (s.node j).owed d +
        (s.flight (j, d) ++ (s.node j).unsent d).countP (fun w => !w.isInit) + (s.node i).answers c := by
    intro i c j d hfar
    have := hb.answered (i, c) (j, d) hfar
    simp only [exchange, List.countP_map] at this
    exact this
  have hle : ∀ i c, (s.node i).answers c ≤ ((s.node i).sent c).countP Sending.isRendezvous := answerable hb
  have hsum : ∀ i N, ∑ c ∈ Finset.range N, (s.node i).due c =
      ∑ c ∈ Finset.range N, outstanding (s.node i) c + ∑ c ∈ Finset.range N, (s.node i).answers c := by
    intro i N
    rw [← Finset.sum_add_distrib]
    apply Finset.sum_congr rfl
    intro c _
    have := hle i c
    rw [Node.due, outstanding]
    omega
  refine ⟨hanswered, ?_, ?_, ?_, fun i => (ha i).pursued⟩
  · intro i
    have := (ha i).enough _ le_rfl
    rw [hsum] at this
    omega
  · intro i hall
    have := ((ha i).exact hall).2 _ le_rfl
    rw [hsum] at this
    omega
  · intro i c j d hfar w hw hfin
    have hpos : 0 < (s.flight (j, d) ++ (s.node j).unsent d).countP fun w => !w.isInit := by
      apply List.countP_pos_iff.2
      exact ⟨w, List.mem_append_left _ hw, by simp [Wire.isInit_eq_false hfin]⟩
    apply List.length_pos_iff.1
    apply (ha i).sendReqQ_pos (hle i) (c := c)
    rw [hanswered i c j d hfar]
    omega

theorem answered_conversation :
    ∃ s, Path (step twoEnds) (fun _ e => ¬ e.isFlush) (init fun _ => Boot.zeroed) conversation s ∧
      (s.node false).answers 0 = 1 ∧ (s.node false).proc.sendReqQ = [] ∧ s.Answered twoEnds := by
  obtain ⟨s, hpath, hs⟩ := exists_path_of_runWhile (step twoEnds) (fun _ e => ¬ e.isFlush)
    (init fun _ => Boot.zeroed) conversation
    (fun s => decide ((s.node false).answers 0 = 1 ∧ (s.node false).proc.sendReqQ = [])) (by decide +kernel)
  obtain ⟨hanswers, hqueue⟩ := of_decide_eq_true hs
  exact ⟨s, hpath, hanswers, hqueue, answered hpath⟩

end Network

end Libibtl
