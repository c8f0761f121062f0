import Libibtl.Frame

/-! # Which send a completion belongs to

The record of a run lists its sends, with what has been handled for each of them.
An eager send is removed from the queue of send requests when its own completion
is handled. A FIN takes whatever stands first in that queue, which is the right
send only when all earlier ones are complete.
-/

namespace Libibtl

open Foundation

/-- One send of a run. `sent` says that its IBV_WC_SEND has been handled, `finished` that its FIN has. -/
structure SendRec where
  conn : ConnId
  query : QueryId
  request : ReqId
  eager : Bool
  sent : Bool
  finished : Bool
  deriving DecidableEq, Repr

/-- The completion that the request of the send waits for has been handled. -/
def SendRec.done (s : SendRec) : Bool := if s.eager then s.sent else s.finished

@[simps]
def SendRec.markSent (s : SendRec) : SendRec := { s with sent := true }

@[simps]
def SendRec.markFinished (s : SendRec) : SendRec := { s with finished := true }

structure SendLog where
  proc : Proc
  sends : List SendRec

/-- The steps of a process that only sends. `fin k w` is the arrival of the FIN for send number `k`. -/
inductive SendEvent
  | link (e : Event)
  | isend (prm : SendParam)
  | wcSend (c : ConnId)
  | fin (k : Nat) (w : Wire)

def Event.isLink : Event → Bool
  | .connect _ _ | .connectRequest _ _ _ | .addrResolved _ _ _ | .routeResolved _ | .established _ => true
  | _ => false

namespace SendLog

/-- The send whose completion comes next on `c`. -/
def nextOn (c : ConnId) (s : SendRec) : Bool := s.conn = c ∧ s.sent = false

/-- The send that the last work request of a process carries. -/
def newSend (σ : Proc) (prm : SendParam) : List SendRec :=
  match σ.sq.getLast? with
  | some wr => [⟨wr.conn, wr.wrId, prm.request,
      (totalSendSize prm.datatype prm.count).toNat ≤ eagerBuffSize, false, false⟩]
  | none => []

def step (l : SendLog) : SendEvent → Option SendLog
  | .link e => if e.isLink then (l.proc.step e).map fun σ => { l with proc := σ } else none
  | .isend prm => (l.proc.step (.isend prm)).map fun σ => ⟨σ, l.sends ++ newSend σ prm⟩
  | .wcSend c => (l.proc.step (.wcSend c)).map fun σ =>
      ⟨σ, l.sends.modify (l.sends.findIdx (nextOn c)) SendRec.markSent⟩
  | .fin k w =>
    match l.sends[k]? with
    | some s =>
      if s.eager = false ∧ s.finished = false ∧ w.ctl.type = .commFin then
        (l.proc.step (.wcRecv s.conn w)).map fun σ => ⟨σ, l.sends.modify k SendRec.markFinished⟩
      else none
    | none => none

def init (b : Boot) : SendLog := ⟨Proc.init b, []⟩

/-- A call of `fdmi_verbs_isend` does not take the request of a send that is still going on. -/
def OwnRequest (l : SendLog) : SendEvent → Prop
  | .isend prm => ∀ s ∈ l.sends, s.request = prm.request → s.done
  | _ => True

/-- When a FIN is handled, every send posted before its own is complete. -/
def FinInOrder (l : SendLog) : SendEvent → Prop
  | .fin k _ => ∀ s ∈ l.sends.take k, s.done
  | _ => True

instance (l : SendLog) (e : SendEvent) : Decidable (l.OwnRequest e) :=
  match e with
  | .isend _ => inferInstanceAs (Decidable (∀ s ∈ l.sends, _ → _))
  | .link _ | .wcSend _ | .fin _ _ => .isTrue trivial

instance (l : SendLog) (e : SendEvent) : Decidable (l.FinInOrder e) :=
  match e with
  | .fin k _ => inferInstanceAs (Decidable (∀ s ∈ l.sends.take k, _))
  | .link _ | .wcSend _ | .isend _ => .isTrue trivial

/-- No later send has taken the request of send number `i`. -/
def Latest (l : SendLog) (i : Nat) (s : SendRec) : Prop :=
  ∀ j t, i < j → l.sends[j]? = some t → t.request ≠ s.request

/-- A request is complete exactly when the completion of its own send has been handled. -/
def Attributed (l : SendLog) : Prop :=
  ∀ i s, l.sends[i]? = some s → l.Latest i s → ((l.proc.requests s.request).requestFlag = 1 ↔ s.done)

/-- The invariant: the queue of send requests lists the incomplete sends in posting order, the send
queue lists the sends whose IBV_WC_SEND is still to come. -/
structure Tracked (l : SendLog) : Prop where
  sound : l.proc.Sound []
  attributed : l.Attributed
  latest : ∀ i s, l.sends[i]? = some s → s.done = false → l.Latest i s
  queue : l.proc.sendReqQ = (l.sends.filter (!·.done)).map SendRec.request
  posted : l.proc.sq.map (fun wr => (wr.conn, wr.wrId)) =
    (l.sends.filter (!·.sent)).map fun s => (s.conn, s.query)
  sends : ∀ wr ∈ l.proc.sq, wr.isRead = false
  carried : ∀ s ∈ l.sends, s.sent = false → (l.proc.queries s.query).requestFlag = some s.request ∧
    (l.proc.queries s.query).msg.type = .commInit ∧
    (l.proc.queries s.query).msg.opcode = if s.eager then .eager else .rdmaRead

/-! ## Changing one entry -/

section Modify

variable {α β : Type} {l : List α} {k : Nat} {s : α} {f : α → α}

theorem modify_split (h : l[k]? = some s) : ∃ before after, l = before ++ s :: after ∧
    l.modify k f = before ++ f s :: after ∧ before = l.take k := by
  obtain ⟨hk, rfl⟩ := List.getElem?_eq_some_iff.1 h
  refine ⟨l.take k, l.drop (k + 1), ?_, List.modify_eq_take_cons_drop hk, rfl⟩
  rw [List.getElem_cons_drop, List.take_append_drop]

theorem filter_map_modify {p : α → Bool} {g : α → β} (h : l[k]? = some s) (hp : p (f s) = p s) (hg : g (f s) = g s) :
    ((l.modify k f).filter p).map g = (l.filter p).map g := by
  obtain ⟨before, after, hl, hmod, -⟩ := modify_split (f := f) h
  rw [hmod, hl]
  simp only [List.filter_append, List.map_append, List.filter_cons, hp]
  split
  · simp only [List.map_cons, hg]
  · rfl

theorem mem_modify_cases {x : α} (h : l[k]? = some s) (hx : x ∈ l.modify k f) : x = f s ∨ x ∈ l := by
  obtain ⟨before, after, hl, hmod, -⟩ := modify_split (f := f) h
  rw [hmod] at hx
  rw [hl]
  rcases List.mem_append.1 hx with hx | hx
  · exact .inr (List.mem_append_left _ hx)
  · rcases List.mem_cons.1 hx with rfl | hx
    · exact .inl rfl
    · exact .inr (List.mem_append_right _ (List.mem_cons_of_mem _ hx))

theorem getElem?_concat_cases {i : Nat} {x : α} (h : (l ++ [s])[i]? = some x) :
    l[i]? = some x ∨ i = l.length ∧ x = s := by
  rcases Nat.lt_or_ge i l.length with hlt | hge
  · rw [List.getElem?_append_left hlt] at h
    exact .inl h
  · rw [List.getElem?_append_right hge] at h
    have hzero : i - l.length = 0 := by
      by_contra hne
      rw [List.getElem?_singleton, if_neg hne] at h
      cases h
    rw [hzero, List.getElem?_cons_zero] at h
    exact .inr ⟨by omega, (Option.some.inj h).symm⟩

theorem getElem?_findIdx_of_find? {p : α → Bool} (h : l.find? p = some s) :
    l[l.findIdx p]? = some s ∧ ∀ x ∈ l.take (l.findIdx p), p x = false := by
  obtain ⟨hs, before, after, rfl, hbefore⟩ := List.find?_eq_some_iff_append.1 h
  have hbefore : ∀ x ∈ before, p x = false := fun x hx => by simpa using hbefore x hx
  have hidx : (before ++ s :: after).findIdx p = before.length := by
    rw [List.findIdx_append, List.findIdx_eq_length.2 hbefore]
    simp [List.findIdx_cons, hs]
  rw [hidx]
  simpa using hbefore

end Modify

namespace Tracked

variable {l l' : SendLog} {σ' : Proc} {e : Event}

/-- A send whose completion is still to come is an outstanding send of the process. -/
theorem mem_sending_of_posted {σ : Proc} {sends : List SendRec} (hposted : σ.sq.map (fun wr => (wr.conn, wr.wrId)) =
      (sends.filter (!·.sent)).map fun s => (s.conn, s.query)) (hsends : ∀ wr ∈ σ.sq, wr.isRead = false)
    {s : SendRec} (hs : s ∈ sends) (hsent : s.sent = false) : s.query ∈ σ.place .sending := by
  have hmem : (s.conn, s.query) ∈ σ.sq.map fun wr => (wr.conn, wr.wrId) := by
    rw [hposted]
    exact List.mem_map_of_mem (List.mem_filter.2 ⟨hs, by simp [hsent]⟩)
  obtain ⟨wr, hwr, heq⟩ := List.mem_map.1 hmem
  rw [← (Prod.mk.inj heq).2]
  exact Proc.Sound.mem_sending hwr (hsends wr hwr)

theorem mem_sending (h : Tracked l) {s : SendRec} (hs : s ∈ l.sends) (hsent : s.sent = false) :
    s.query ∈ l.proc.place .sending := mem_sending_of_posted h.posted h.sends hs hsent

theorem carried_kept (h : Tracked l) (hs' : σ'.Sound []) (ht : Transition l.proc e σ') {s : SendRec}
    (hs : s ∈ l.sends) (hsent : s.sent = false) (hmem : s.query ∈ σ'.place .sending) :
    σ'.queries s.query = l.proc.queries s.query :=
  Proc.kept ht h.sound hs' (by decide) (by decide) (h.mem_sending hs hsent) hmem

theorem of_link (ht : Transition l.proc e σ') (he : e.isLink) :
    σ'.requests = l.proc.requests ∧ σ'.sendReqQ = l.proc.sendReqQ ∧ σ'.sq = l.proc.sq := by
  cases ht with
  | link hl => cases hl <;> exact ⟨rfl, rfl, rfl⟩
  | establish hcm hc hτ =>
    rw [hτ.rest]
    exact ⟨rfl, rfl, rfl⟩
  | _ => cases he

theorem link (h : Tracked l) (he : e.isLink) (hpeer : e.FromPeer) (ht : Transition l.proc e σ') :
    Tracked { l with proc := σ' } := by
  have hs' := h.sound.transition hpeer ht
  obtain ⟨hreq, hqueue, hsq⟩ := of_link ht he
  refine ⟨hs', ?_, h.latest, hqueue.trans h.queue, ?_, ?_, ?_⟩
  · intro i s hi hlast
    change ((σ'.requests s.request).requestFlag = 1 ↔ _)
    rw [hreq]
    exact h.attributed i s hi hlast
  · change σ'.sq.map _ = _
    rw [hsq]
    exact h.posted
  · change ∀ wr ∈ σ'.sq, _
    rw [hsq]
    exact h.sends
  · intro s hs hsent
    have hmem : s.query ∈ σ'.place .sending := by
      rw [Proc.place, hsq]
      exact h.mem_sending hs hsent
    change (σ'.queries s.query).requestFlag = _ ∧ (σ'.queries s.query).msg.type = _ ∧ (σ'.queries s.query).msg.opcode = _
    rw [h.carried_kept hs' ht hs hsent hmem]
    exact h.carried s hs hsent

theorem carried_of_carries {σ : Proc} {prm : SendParam} {c : ConnId} {x : Query} {wire : Wire}
    (h : σ.Carries prm c x wire) : x.requestFlag = some prm.request ∧ x.msg.type = .commInit ∧
      x.msg.opcode = if (totalSendSize prm.datatype prm.count).toNat ≤ eagerBuffSize then .eager else .rdmaRead := by
  obtain ⟨mr, eagerSize, hwire⟩ := h.wire
  refine ⟨h.requestFlag, ?_, ?_⟩
  · rw [h.ctl, hwire, Proc.sentCtl_type]
    rfl
  · rw [h.ctl, hwire, Proc.sentCtl]
    change (if (totalSendSize prm.datatype prm.count).toNat ≤ eagerBuffSize then _ else _ : Ctl).opcode = _
    split <;> rfl

section Launch

variable {n : SendRec} (h : Tracked l)
include h

/-- A new send is the latest user of its request, and an incomplete one does not share it. -/
theorem latest_concat (σ' : Proc) (hown : ∀ s ∈ l.sends, s.request = n.request → s.done) {i : Nat} {s : SendRec}
    (hi : (l.sends ++ [n])[i]? = some s) (hs : s.done = false) : Latest ⟨σ', l.sends ++ [n]⟩ i s := by
  intro j t hij hj
  rcases getElem?_concat_cases hi with hold | ⟨rfl, -⟩
  · rcases getElem?_concat_cases hj with hold' | ⟨-, rfl⟩
    · exact h.latest i s hold hs j t hij hold'
    · intro heq
      have hdone := hown s (List.mem_of_getElem? hold) heq.symm
      rw [hs] at hdone
      cases hdone
  · rcases getElem?_concat_cases hj with hold' | ⟨rfl, -⟩
    · exact absurd (List.getElem?_eq_some_iff.1 hold').1 (by omega)
    · exact absurd hij (Nat.lt_irrefl _)

theorem attributed_concat (hreq : σ'.requests = Proc.setPending l.proc.requests n.request) (hdone : n.done = false) :
    Attributed ⟨σ', l.sends ++ [n]⟩ := by
  intro i s hi hlatest
  change (σ'.requests s.request).requestFlag = 1 ↔ _
  rw [hreq]
  rcases getElem?_concat_cases hi with hold | ⟨-, rfl⟩
  · have hlt : i < l.sends.length := (List.getElem?_eq_some_iff.1 hold).1
    have hlast : (l.sends ++ [n])[l.sends.length]? = some n := by simp
    have hne : s.request ≠ n.request := fun heq => hlatest _ n hlt hlast heq.symm
    rw [Proc.setPending, Function.update_of_ne hne]
    apply h.attributed i s hold
    intro j t hij hj
    apply hlatest j t hij
    change (l.sends ++ [n])[j]? = some t
    rw [List.getElem?_append_left (List.getElem?_eq_some_iff.1 hj).1]
    exact hj
  · rw [hdone]
    simp [Proc.setPending]

end Launch

theorem isend (h : Tracked l) {prm : SendParam} (hown : l.OwnRequest (.isend prm))
    (ht : Transition l.proc (.isend prm) σ') : Tracked ⟨σ', l.sends ++ newSend σ' prm⟩ := by
  have hs' := h.sound.transition (e := .isend prm) trivial ht
  cases ht with
  | link hl => cases hl
  | @launch prm c g wire hpeer hg hx =>
    have hnew : newSend (l.proc.launch prm c g wire) prm = [⟨c, g.query, prm.request,
        (totalSendSize prm.datatype prm.count).toNat ≤ eagerBuffSize, false, false⟩] := by
      simp [newSend]
    rw [hnew]
    generalize hn : (⟨c, g.query, prm.request, (totalSendSize prm.datatype prm.count).toNat ≤ eagerBuffSize, false,
      false⟩ : SendRec) = n
    have hdone : n.done = false := by
      rw [← hn, SendRec.done]
      split <;> rfl
    have hreq : n.request = prm.request := by rw [← hn]
    constructor
    · exact hs'
    · exact h.attributed_concat (hreq ▸ rfl) hdone
    · exact fun i s hi hs => h.latest_concat _ (hreq ▸ hown) hi hs
    · change l.proc.sendReqQ ++ [prm.request] = _
      rw [h.queue, List.filter_append, List.map_append]
      simp [hdone, hreq]
    · change (l.proc.sq ++ [(⟨c, g.query, .send wire⟩ : SendWr)]).map _ = _
      rw [List.map_append, h.posted, List.filter_append, List.map_append]
      simp [← hn]
    · intro wr hwr
      rcases List.mem_append.1 hwr with hwr | hwr
      · exact h.sends wr hwr
      · rw [List.mem_singleton.1 hwr]
        rfl
    · intro s hs hsent
      rcases List.mem_append.1 hs with hold | hnew
      · have hmem : s.query ∈ (l.proc.launch prm c g wire).place .sending := by
          simp only [Proc.place, Proc.launch_sq, List.filter_append, List.map_append, List.mem_append]
          exact .inl (h.mem_sending hold hsent)
        rw [h.carried_kept hs' (.launch hpeer hg hx) hold hsent hmem]
        exact h.carried s hold hsent
      · have hself : (l.proc.launch prm c g wire).queries g.query = g.content := Function.update_self ..
        rw [List.mem_singleton.1 hnew, ← hn]
        simp only [hself]
        simpa using carried_of_carries hx

section Complete

variable {k : Nat} {s : SendRec} {f : SendRec → SendRec}

theorem latest_modify_iff (hreq : ∀ x, (f x).request = x.request) (σ' : Proc) {i : Nat} {t t' : SendRec}
    (ht : t'.request = t.request) : Latest ⟨σ', l.sends.modify k f⟩ i t' ↔ l.Latest i t := by
  have hget : ∀ (j : Nat) (x : SendRec), (l.sends.modify k f)[j]? = some x →
      ∃ y : SendRec, l.sends[j]? = some y ∧ x.request = y.request := by
    intro j x hx
    rw [List.getElem?_modify] at hx
    obtain ⟨y, hy, rfl⟩ := Option.map_eq_some_iff.1 hx
    refine ⟨y, hy, ?_⟩
    split
    · exact hreq y
    · rfl
  constructor
  · intro h j x hij hx
    have hx' : (l.sends.modify k f)[j]? = some (if k = j then f x else x) := by
      rw [List.getElem?_modify, hx]
      split <;> rfl
    have := h j _ hij hx'
    rw [ht] at this
    split at this
    · rwa [hreq] at this
    · exact this
  · intro h j x hij hx
    obtain ⟨y, hy, heq⟩ := hget j x hx
    rw [heq, ht]
    exact h j y hij hy

theorem latest_modify (h : Tracked l) (hk : l.sends[k]? = some s) (hreq : ∀ x, (f x).request = x.request)
    (hdone : (f s).done = false → s.done = false) (σ' : Proc) :
    ∀ i t, (l.sends.modify k f)[i]? = some t → t.done = false → Latest ⟨σ', l.sends.modify k f⟩ i t := by
  intro i t hi ht
  by_cases hik : i = k
  · subst hik
    rw [List.getElem?_modify_eq, hk] at hi
    cases hi
    exact (latest_modify_iff hreq σ' (hreq s)).2 (h.latest i s hk (hdone ht))
  · rw [List.getElem?_modify_ne _ _ (Ne.symm hik)] at hi
    exact (latest_modify_iff hreq σ' rfl).2 (h.latest i t hi ht)

/-- No other send that is the latest user of its request shares it with an incomplete send. -/
theorem request_ne (h : Tracked l) (hk : l.sends[k]? = some s) (hs : s.done = false) {i : Nat} {t : SendRec}
    (hi : l.sends[i]? = some t) (hik : i ≠ k) (ht : l.Latest i t) : t.request ≠ s.request := by
  rcases Nat.lt_or_gt_of_ne hik with hlt | hgt
  · exact (ht k s hlt hk).symm
  · exact h.latest k s hk hs i t hgt hi

theorem attributed_modify (h : Tracked l) (hk : l.sends[k]? = some s) (hreq : ∀ x, (f x).request = x.request)
    (hsame : σ'.requests = l.proc.requests ∧ (f s).done = s.done ∨
      σ'.requests = Proc.setDone l.proc.requests s.request ∧ s.done = false ∧ (f s).done = true) :
    Attributed ⟨σ', l.sends.modify k f⟩ := by
  intro i t hi hlatest
  change (σ'.requests t.request).requestFlag = 1 ↔ _
  by_cases hik : i = k
  · subst hik
    rw [List.getElem?_modify_eq, hk] at hi
    cases hi
    rw [hreq]
    rcases hsame with ⟨hr, hdone⟩ | ⟨hr, -, hdone⟩
    · rw [hr, hdone]
      exact h.attributed i s hk ((latest_modify_iff hreq σ' (hreq s)).1 hlatest)
    · simp [hr, hdone, Proc.setDone]
  · rw [List.getElem?_modify_ne _ _ (Ne.symm hik)] at hi
    have hlatest := (latest_modify_iff hreq σ' rfl).1 hlatest
    have hold := h.attributed i t hi hlatest
    rcases hsame with ⟨hr, -⟩ | ⟨hr, hs, -⟩
    · rwa [hr]
    · rw [hr, Proc.setDone, Function.update_of_ne (h.request_ne hk hs hi hik hlatest)]
      exact hold

theorem queue_modify (h : Tracked l) (hk : l.sends[k]? = some s) (hs : s.done = false) (hdone : (f s).done = true) :
    l.proc.sendReqQ.erase s.request = ((l.sends.modify k f).filter (!·.done)).map SendRec.request := by
  obtain ⟨before, after, hl, hmod, hbefore⟩ := modify_split (f := f) hk
  have hnot : s.request ∉ (before.filter (!·.done)).map SendRec.request := by
    intro hmem
    obtain ⟨t, ht, heq⟩ := List.mem_map.1 hmem
    obtain ⟨htmem, htdone⟩ := List.mem_filter.1 ht
    obtain ⟨i, hi, rfl⟩ := List.getElem_of_mem htmem
    have hlen : before.length = k := by
      rw [hbefore]
      exact List.length_take_of_le (Nat.le_of_lt (List.getElem?_eq_some_iff.1 hk).1)
    have hget : l.sends[i]? = some before[i] := by
      rw [hl, List.getElem?_append_left hi, List.getElem?_eq_getElem hi]
    exact h.latest i _ hget (by simpa using htdone) k s (hlen ▸ hi) hk heq.symm
  rw [h.queue, hmod, hl]
  simp only [List.filter_append, List.filter_cons, hs, hdone, List.map_append, Bool.not_false, Bool.not_true, if_true,
    List.map_cons]
  rw [List.erase_append_right _ hnot, List.erase_cons_head]
  rfl

/-- The completion of a send on `c` belongs to the oldest send there that has none yet. -/
theorem exists_next (h : Tracked l) {c : ConnId} {q : QueryId} {wire : Wire}
    (hwr : l.proc.sq.find? (·.conn = c) = some ⟨c, q, .send wire⟩) :
    ∃ s, l.sends.find? (nextOn c) = some s ∧ s.query = q := by
  have hpair : (l.proc.sq.map fun wr => (wr.conn, wr.wrId)).find? (·.1 = c) = some (c, q) := by
    rw [List.find?_map]
    exact congrArg (Option.map _) hwr
  rw [h.posted, List.find?_map, List.find?_filter] at hpair
  obtain ⟨s, hs, heq⟩ := Option.map_eq_some_iff.1 hpair
  refine ⟨s, ?_, (Prod.mk.inj heq).2⟩
  rw [← hs]
  congr 1
  funext x
  simp [nextOn, and_comm]

theorem posted_modify (h : Tracked l) {c : ConnId} (hs : l.sends.find? (nextOn c) = some s) :
    (l.proc.sq.eraseP (·.conn = c)).map (fun wr => (wr.conn, wr.wrId)) =
      ((l.sends.modify (l.sends.findIdx (nextOn c)) SendRec.markSent).filter (!·.sent)).map
        fun s => (s.conn, s.query) := by
  obtain ⟨hk, hbefore⟩ := getElem?_findIdx_of_find? hs
  obtain ⟨before, after, hl, hmod, rfl⟩ := modify_split (f := SendRec.markSent) hk
  have hnext : s.conn = c ∧ s.sent = false := by simpa [nextOn] using List.find?_some hs
  have herase : (l.proc.sq.map fun wr => (wr.conn, wr.wrId)).eraseP (·.1 = c) =
      (l.proc.sq.eraseP (·.conn = c)).map fun wr => (wr.conn, wr.wrId) := List.eraseP_map
  have hskip : ∀ x ∈ ((l.sends.take (l.sends.findIdx (nextOn c))).filter (!·.sent)).map fun s => (s.conn, s.query),
      ¬ decide (x.1 = c) = true := by
    intro x hx
    obtain ⟨t, ht, rfl⟩ := List.mem_map.1 hx
    obtain ⟨htmem, htsent⟩ := List.mem_filter.1 ht
    intro hc
    have hmiss := hbefore t htmem
    rw [nextOn, decide_eq_false_iff_not] at hmiss
    exact hmiss ⟨of_decide_eq_true hc, by simpa using htsent⟩
  rw [← herase, h.posted, hmod]
  nth_rewrite 1 [hl]
  simp only [List.filter_append, List.filter_cons, hnext.2, List.map_append, Bool.not_false, if_true,
    List.map_cons]
  rw [List.eraseP_append_right _ hskip, List.eraseP_cons_of_pos (by simp [hnext.1])]
  rfl

theorem carried_modify (h : Tracked l) (hk : l.sends[k]? = some s) (hs' : σ'.Sound []) (ht : Transition l.proc e σ')
    (hposted : σ'.sq.map (fun wr => (wr.conn, wr.wrId)) =
      ((l.sends.modify k f).filter (!·.sent)).map fun s => (s.conn, s.query))
    (hsends : ∀ wr ∈ σ'.sq, wr.isRead = false)
    (hf : (f s).sent = false → s.sent = false ∧ (f s).query = s.query ∧ (f s).request = s.request ∧ (f s).eager = s.eager) :
    ∀ x ∈ l.sends.modify k f, x.sent = false → (σ'.queries x.query).requestFlag = some x.request ∧
      (σ'.queries x.query).msg.type = .commInit ∧
      (σ'.queries x.query).msg.opcode = if x.eager then .eager else .rdmaRead := by
  intro x hx hxsent
  have hmem := mem_sending_of_posted hposted hsends hx hxsent
  rcases mem_modify_cases hk hx with rfl | hold
  · obtain ⟨hsent, hquery, hrequest, heager⟩ := hf hxsent
    have hin := List.mem_of_getElem? hk
    rw [hquery] at hmem
    rw [hquery, hrequest, heager, h.carried_kept hs' ht hin hsent hmem]
    exact h.carried s hin hsent
  · rw [h.carried_kept hs' ht hold hxsent hmem]
    exact h.carried x hold hxsent

end Complete

theorem wcSend (h : Tracked l) {c : ConnId} (ht : Transition l.proc (.wcSend c) σ') :
    Tracked ⟨σ', l.sends.modify (l.sends.findIdx (nextOn c)) SendRec.markSent⟩ := by
  have hs' := h.sound.transition (e := .wcSend c) trivial ht
  obtain ⟨q, wire, hwr, hsq⟩ : ∃ q wire, l.proc.sq.find? (·.conn = c) = some ⟨c, q, .send wire⟩ ∧
      σ'.sq = l.proc.sq.eraseP (·.conn = c) := by
    cases ht with
    | sentEager hwr htype hop hr => exact ⟨_, _, hwr, rfl⟩
    | sentOther hwr hother => exact ⟨_, _, hwr, rfl⟩
    | link hl => cases hl
  obtain ⟨s, hfind, hq⟩ := h.exists_next hwr
  obtain ⟨hk, -⟩ := getElem?_findIdx_of_find? hfind
  have hmem := List.mem_of_getElem? hk
  have hsent : s.sent = false := by
    have := List.find?_some hfind
    simp [nextOn] at this
    exact this.2
  obtain ⟨hflag, htype', hop'⟩ := h.carried s hmem hsent
  rw [hq] at hflag htype' hop'
  have hposted := h.posted_modify hfind
  rw [← hsq] at hposted
  have hsends : ∀ wr ∈ σ'.sq, wr.isRead = false := by
    rw [hsq]
    exact fun wr hwr => h.sends wr (List.mem_of_mem_eraseP hwr)
  have hcarried := h.carried_modify hk hs' ht hposted hsends fun hfalse => by cases hfalse
  cases ht with
  | @sentEager c q' wire' r hwr' htype hop hr =>
    obtain ⟨rfl, -⟩ : q = q' ∧ wire = wire' := by simpa using hwr.symm.trans hwr'
    obtain rfl : s.request = r := Option.some.inj (hflag.symm.trans hr)
    have heager : s.eager = true := by
      rw [hop] at hop'
      by_contra hne
      simp [hne] at hop'
    have hdone : s.done = false := by rw [SendRec.done, heager, if_pos rfl, hsent]
    refine ⟨hs', h.attributed_modify hk (fun _ => rfl) (.inr ⟨rfl, hdone, ?_⟩), ?_, ?_, hposted, hsends, hcarried⟩
    · simp [SendRec.done, heager]
    · exact h.latest_modify (f := SendRec.markSent) hk (fun _ => rfl) (fun _ => hdone) _
    · exact h.queue_modify hk hdone (by simp [SendRec.done, heager])
  | @sentOther c q' wire' hwr' hother =>
    obtain ⟨rfl, -⟩ : q = q' ∧ wire = wire' := by simpa using hwr.symm.trans hwr'
    have heager : s.eager = false := by
      rcases hother with hfin | hop
      · rw [htype'] at hfin
        cases hfin
      · rw [hop'] at hop
        by_contra hne
        simp [hne] at hop
    have hsame : s.markSent.done = s.done := by simp [SendRec.done, heager]
    refine ⟨hs', h.attributed_modify hk (fun _ => rfl) (.inl ⟨rfl, hsame⟩), ?_, ?_, hposted, hsends, hcarried⟩
    · exact h.latest_modify (f := SendRec.markSent) hk (fun _ => rfl) (fun hd => hsame ▸ hd) _
    · refine h.queue.trans (filter_map_modify hk ?_ rfl).symm
      rw [hsame]
  | link hl => cases hl

/-- The FIN of a send takes its own request from the queue when all sends before it are complete. -/
theorem fin (h : Tracked l) {k : Nat} {s : SendRec} {w : Wire} (hk : l.sends[k]? = some s) (heager : s.eager = false)
    (hfin : s.finished = false) (htype : w.ctl.type = .commFin) (horder : ∀ t ∈ l.sends.take k, t.done)
    (ht : Transition l.proc (.wcRecv s.conn w) σ') :
    Tracked ⟨σ', l.sends.modify k SendRec.markFinished⟩ := by
  have hpeer : (Event.wcRecv s.conn w).FromPeer := by
    intro hinit
    rw [htype] at hinit
    cases hinit
  have hs' := h.sound.transition hpeer ht
  have hdone : s.done = false := by simp [SendRec.done, heager, hfin]
  have hhead : l.proc.sendReqQ = s.request :: l.proc.sendReqQ.tail ∧
      l.proc.sendReqQ.tail = l.proc.sendReqQ.erase s.request := by
    obtain ⟨before, after, hl, -, hbefore⟩ := modify_split (f := id) hk
    have hnil : before.filter (!·.done) = [] := by
      rw [List.filter_eq_nil_iff]
      intro t ht
      simp [horder t (hbefore ▸ ht)]
    have hqueue : l.proc.sendReqQ = s.request :: (after.filter (!·.done)).map SendRec.request := by
      rw [h.queue, hl]
      simp [List.filter_append, hnil, hdone]
    rw [hqueue]
    simp
  obtain ⟨hreq, hqueue, hsq⟩ : σ'.requests = Proc.setDone l.proc.requests s.request ∧
      σ'.sendReqQ = l.proc.sendReqQ.tail ∧ σ'.sq = l.proc.sq := by
    cases ht with
    | finish _ hwr hg hx =>
      refine ⟨?_, rfl, rfl⟩
      change (l.proc.sendReqQ.head?.map (Proc.setDone l.proc.requests)).getD l.proc.requests = _
      rw [hhead.1]
      rfl
    | deliver hinit hwr hsel hop hr hg hx | startRead hinit hwr hsel hop hg hx | store hinit hwr hsel hg hx =>
      rw [htype] at hinit
      cases hinit
    | link hl => cases hl
  have hposted : σ'.sq.map (fun wr => (wr.conn, wr.wrId)) =
      ((l.sends.modify k SendRec.markFinished).filter (!·.sent)).map fun s => (s.conn, s.query) := by
    rw [hsq, h.posted, filter_map_modify hk rfl rfl]
  have hsends : ∀ wr ∈ σ'.sq, wr.isRead = false := by
    rw [hsq]
    exact h.sends
  refine ⟨hs', h.attributed_modify hk (fun _ => rfl) (.inr ⟨hreq, hdone, ?_⟩), ?_, ?_, hposted, hsends, ?_⟩
  · simp [SendRec.done, heager]
  · exact h.latest_modify (f := SendRec.markFinished) hk (fun _ => rfl) (fun _ => hdone) _
  · rw [← h.queue_modify hk hdone (by simp [SendRec.done, heager]), ← hhead.2]
    exact hqueue
  · exact h.carried_modify hk hs' ht hposted hsends fun hsent => ⟨hsent, rfl, rfl, rfl⟩

theorem init (b : Boot) : Tracked (SendLog.init b) where
  sound := Proc.Sound.init b
  attributed _ _ hi := by cases hi
  latest _ _ hi := by cases hi
  queue := rfl
  posted := rfl
  sends _ hwr := by cases hwr
  carried _ hs := by cases hs

theorem fromPeer_of_isLink (he : e.isLink) : e.FromPeer := by
  cases e with
  | wcRecv c w => cases he
  | _ => trivial

theorem step (h : Tracked l) {ev : SendEvent} (hown : l.OwnRequest ev) (horder : l.FinInOrder ev)
    (hstep : l.step ev = some l') : Tracked l' := by
  have htrans : ∀ {e σ'}, e.FromPeer → l.proc.step e = some σ' → Transition l.proc e σ' :=
    Proc.transition_of_step h.sound.toOwned h.sound.toWired
  cases ev with
  | link e =>
    rw [SendLog.step, Option.ite_none_right_eq_some] at hstep
    obtain ⟨he, hstep⟩ := hstep
    obtain ⟨σ', hσ', rfl⟩ := Option.map_eq_some_iff.1 hstep
    have hpeer := fromPeer_of_isLink he
    exact h.link he hpeer (htrans hpeer hσ')
  | isend prm =>
    obtain ⟨σ', hσ', rfl⟩ := Option.map_eq_some_iff.1 hstep
    exact h.isend hown (htrans (e := .isend prm) trivial hσ')
  | wcSend c =>
    obtain ⟨σ', hσ', rfl⟩ := Option.map_eq_some_iff.1 hstep
    exact h.wcSend (htrans (e := .wcSend c) trivial hσ')
  | fin k w =>
    rw [SendLog.step] at hstep
    split at hstep
    · next s hk =>
      rw [Option.ite_none_right_eq_some] at hstep
      obtain ⟨⟨heager, hfin, htype⟩, hstep⟩ := hstep
      obtain ⟨σ', hσ', rfl⟩ := Option.map_eq_some_iff.1 hstep
      have hpeer : (Event.wcRecv s.conn w).FromPeer := by
        intro hinit
        rw [htype] at hinit
        cases hinit
      exact h.fin hk heager hfin htype horder (htrans hpeer hσ')
    · cases hstep

end Tracked

end SendLog

/-- In runs where a FIN is handled only after the completion of all sends before its own, every request
is completed by its own send. -/
theorem send_attributed_of_fin_in_order {b : Boot} {es : List SendEvent} {l : SendLog}
    (h : Path SendLog.step (fun l e => l.OwnRequest e ∧ l.FinInOrder e) (SendLog.init b) es l) : l.Attributed :=
  (h.invariant (I := SendLog.Tracked) (fun _ _ _ hl he hstep => hl.step he.1 he.2 hstep)
    (SendLog.Tracked.init b)).attributed

/-- A FIN as a peer sends it. -/
def finWire : Wire :=
  ⟨⟨.commFin, .rdmaRead, 0, ⟨0, 0⟩, 0, 5, 0, 65537, fmiCommWorld.id, fmiByte, ⟨0, .user ⟨0, 0⟩, 65537, 0, 0⟩, 0⟩, 0,
    fun _ => 0⟩

/-- Two connections, then a send of `count` bytes to each of them. -/
def twoSends (count count' : CInt) : List SendEvent :=
  ((Event.connecting 1 16 ++ Event.connecting 2 32).map .link) ++
    [.isend ⟨⟨1, 0⟩, count, fmiByte, 1, 5, fmiCommWorld, 0, 0⟩, .isend ⟨⟨2, 0⟩, count', fmiByte, 2, 5, fmiCommWorld, 1, 0⟩]

/-- The flag of an eager send to rank 1 is set by its completion, that of a large one to rank 2 by its FIN. -/
theorem send_attributed_eager_first :
    ∃ l, Path SendLog.step (fun l e => l.OwnRequest e ∧ l.FinInOrder e) (SendLog.init Boot.zeroed)
        (twoSends 1 65537 ++ [.wcSend 0, .fin 1 finWire]) l ∧
      l.sends.map SendRec.done = [true, true] ∧ l.Attributed := by
  obtain ⟨l, hpath, hl⟩ := exists_path_of_runWhile SendLog.step (fun l e => l.OwnRequest e ∧ l.FinInOrder e)
    (SendLog.init Boot.zeroed) (twoSends 1 65537 ++ [.wcSend 0, .fin 1 finWire])
    (fun l => decide (l.sends.map SendRec.done = [true, true])) (by decide +kernel)
  exact ⟨l, hpath, of_decide_eq_true hl, send_attributed_of_fin_in_order hpath⟩

/-- The peer of the second large send reads first. Its FIN completes the first send. -/
theorem send_misattributed :
    ∃ l, Path SendLog.step (fun l e => l.OwnRequest e) (SendLog.init Boot.zeroed)
        (twoSends 65537 65537 ++ [.fin 1 finWire]) l ∧
      (l.proc.requests 0).requestFlag = 1 ∧ (l.proc.requests 1).requestFlag = 0 ∧
      l.sends.map (fun s => (s.request, s.done)) = [(0, false), (1, true)] ∧ ¬ l.Attributed := by
  obtain ⟨l, hpath, hl⟩ := exists_path_of_runWhile SendLog.step (fun l e => l.OwnRequest e)
    (SendLog.init Boot.zeroed) (twoSends 65537 65537 ++ [.fin 1 finWire])
    (fun l => decide ((l.proc.requests 0).requestFlag = 1 ∧ (l.proc.requests 1).requestFlag = 0 ∧
      l.sends.map (fun s => (s.request, s.done)) = [(0, false), (1, true)])) (by decide +kernel)
  obtain ⟨h0, h1, hsends⟩ := of_decide_eq_true hl
  refine ⟨l, hpath, h0, h1, hsends, fun hattr => ?_⟩
  obtain ⟨s, rest, hlist, hs, hrest⟩ := List.map_eq_cons_iff.1 hsends
  obtain ⟨t, rest', rfl, ht, hnil⟩ := List.map_eq_cons_iff.1 hrest
  obtain rfl := List.map_eq_nil_iff.1 hnil
  obtain ⟨hreq, hdone⟩ := Prod.mk.inj hs
  have hlatest : l.Latest 0 s := by
    intro j x hj hx heq
    have hj1 : j = 1 := by
      have := (List.getElem?_eq_some_iff.1 hx).1
      rw [hlist] at this
      simp at this
      omega
    rw [hlist, hj1] at hx
    cases hx
    rw [(Prod.mk.inj ht).1, hreq] at heq
    cases heq
  have := (hattr 0 s (by rw [hlist]; rfl) hlatest).1 (by rw [hreq]; exact h0)
  rw [hdone] at this
  cases this

end Libibtl
