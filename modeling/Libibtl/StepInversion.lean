import Libibtl.CallInversion

/-! # Every step is a transition

Completions of the send queue, flushing and connection events, and the inversion
of a whole step.
-/

namespace Libibtl

open Foundation

namespace Proc

variable {σ σ' : Proc}

/-! ## Completions of the send queue -/

theorem takeSend_stampRank {c : ConnId} {q : QueryId} (hconn : (σ.queries q).conn = some c) :
    (σ.takeSend c).stampRank q = { σ with
      sq := σ.sq.eraseP (·.conn = c), queries := Function.update σ.queries q (σ.stamped c q) } := by
  simp [takeSend, stampRank, hconn, setCtl, setQuery, stamped, rmapItopGet]

theorem wcSend_transition {c : ConnId} (hw : σ.Wired) (h : σ.step (.wcSend c) = some σ') :
    Transition σ (.wcSend c) σ' := by
  obtain ⟨heff, hab⟩ := step_eq_some.1 h
  rw [effect, wcSend] at heff
  split at heff
  · next c' q wire hwr =>
    have hc : c' = c := by simpa using List.find?_some hwr
    subst hc
    obtain ⟨hconn, hflag⟩ := hw.sending _ (List.mem_of_find?_eq_some hwr) rfl
    rw [takeSend_stampRank hconn] at heff
    have hself : Function.update σ.queries q (σ.stamped c' q) q = σ.stamped c' q := Function.update_self ..
    -- the stamp changes neither the type nor the opcode nor the flag
    have hsame : (σ.stamped c' q).msg.type = (σ.queries q).msg.type ∧
        (σ.stamped c' q).msg.opcode = (σ.queries q).msg.opcode ∧
        (σ.stamped c' q).requestFlag = (σ.queries q).requestFlag := ⟨rfl, rfl, rfl⟩
    simp only [Option.some.injEq, dispatchSend, onSendCqWcSend, onRecvCqWcSend, hself, hsame] at heff
    cases htype : (σ.queries q).msg.type with
    | commFin =>
      simp only [htype] at heff
      subst heff
      exact .sentOther hwr (.inl htype)
    | commInit =>
      obtain ⟨r, hr⟩ := hflag htype
      cases hop : (σ.queries q).msg.opcode with
      | eager =>
        simp only [htype, hop, hr] at heff
        subst heff
        exact .sentEager hwr htype hop hr
      | rdmaRead =>
        simp only [htype, hop] at heff
        subst heff
        exact .sentOther hwr (.inr (by simp [hop]))
      | loop =>
        simp only [htype, hop] at heff
        subst heff
        exact .sentOther hwr (.inr (by simp [hop]))
  · cases heff

theorem onRecvCqWcRdmaRead_eq {p a : QueryId} {r : ReqId} {c : ConnId}
    (ha : (σ.queries p).activeQueryToFree = some a) (hflag : (σ.queries p).requestFlag = some r)
    (hr : (σ.queries p).request = some r) (hconn : (σ.queries a).conn = some c) :
    ∃ msg wire, msg.toCtl = sentCtl { (σ.queries a).msg.toCtl with type := .commFin } ∧ wire.ctl = msg.toCtl ∧
      σ.onRecvCqWcRdmaRead p = { σ with
        sq := σ.sq ++ [⟨c, a, .send wire⟩]
        queries := Function.update σ.queries a { σ.queries a with msg := msg }
        requests := setReceived σ.requests r (σ.queries a).msg.toCtl
        freeQueryQ := σ.freeQueryQ ++ [p]
        counter := σ.counter - 1 } := by
  obtain ⟨msg, wire, hmsg, hwire, hsend⟩ := postSendMsg_eq (q := a) (c := c)
    (σ := (((σ.setCtl a fun x => { x with type := .commFin }).setFlag r 1).setStatus r
      ((σ.setCtl a fun x => { x with type := .commFin }).queries a).msg.toCtl))
    (by simpa [setCtl, setQuery, setFlag, setStatus, setRequest] using hconn)
  refine ⟨msg, wire, ?_, hwire, ?_⟩
  · rw [hmsg]
    simp [setCtl, setQuery, setFlag, setStatus, setRequest]
  · simp only [onRecvCqWcRdmaRead, ha, hflag, hr]
    rw [hsend]
    simp [setCtl, setQuery, setFlag, setStatus, setRequest, destroyQuery, setReceived, Queue.enq]

theorem wcRdmaRead_transition {c : ConnId} {data : Buffer} (ho : σ.Owned []) (hw : σ.Wired)
    (h : σ.step (.wcRdmaRead c data) = some σ') : Transition σ (.wcRdmaRead c data) σ' := by
  obtain ⟨heff, -⟩ := step_eq_some.1 h
  rw [effect, wcRdmaRead] at heff
  split at heff
  · next c' p sge remote hwr =>
    have hc : c' = c := by simpa using List.find?_some hwr
    subst hc
    obtain ⟨a, r, ha, hflag, hr, hconn, hconna⟩ := hw.reading _ (List.mem_of_find?_eq_some hwr) rfl
    have hne : a ≠ p := by
      have := (ho.takeRead hwr rfl ha).nodup_hand
      rintro rfl
      simp at this
    let τ : Proc := { σ with
      sq := σ.sq.eraseP (·.conn = c'), mem := (σ.scatterRead sge data).mem
      queries := Function.update σ.queries p (σ.stamped c' p) }
    have hτ : ((σ.takeSend c').scatterRead sge data).stampRank p = τ := by
      cases haddr : sge.addr <;>
        simp [takeSend, scatterRead, haddr, setMem, stampRank, hconn, setCtl, setQuery, stamped, rmapItopGet, τ]
    have hp : τ.queries p = σ.stamped c' p := Function.update_self ..
    have haq : τ.queries a = σ.queries a := Function.update_of_ne hne ..
    obtain ⟨msg, wire, hmsg, hwire, heq⟩ := onRecvCqWcRdmaRead_eq (σ := τ) (p := p) (a := a) (r := r) (c := c')
      (by rw [hp]; exact ha) (by rw [hp]; exact hflag) (by rw [hp]; exact hr) (by rw [haq]; exact hconna)
    rw [hτ, heq, haq, Option.some.injEq] at heff
    subst heff
    exact .readDone hwr ha hr (by rw [hmsg, haq]) hwire
  · cases heff

/-! ## Flushing -/

/-- The queries of `l` go back to the pool, in order. -/
def discard (σ : Proc) (l : List QueryId) : Proc :=
  { σ with freeQueryQ := σ.freeQueryQ ++ l, counter := σ.counter - l.length }

theorem flushQueue_eq (get : Proc → List QueryId) (set : Proc → List QueryId → Proc)
    (hget : ∀ σ l, get (set σ l) = l) (hset : ∀ σ l l', set (set σ l) l' = set σ l')
    (hself : ∀ σ, set σ (get σ) = σ) (hqueries : ∀ σ l, (set σ l).queries = σ.queries)
    (hdiscard : ∀ σ l l', (set σ l).discard l' = set (σ.discard l') l)
    (l kept : List QueryId) (σ : Proc) (hl : get σ = kept ++ l) (hnd : (get σ).Nodup) :
    σ.flushQueue (fun τ q => set τ (Queue.remove (get τ) q)) l =
      set (σ.discard (l.filter σ.flushable)) (kept ++ l.filter (!σ.flushable ·)) := by
  have hdestroy : ∀ (τ : Proc) q, τ.destroyQuery q = τ.discard [q] := fun _ _ => rfl
  induction l generalizing σ kept with
  | nil =>
    have h : kept = get σ := by simpa using hl.symm
    simpa [flushQueue, discard, h] using (hself σ).symm
  | cons q l ih =>
    rw [flushQueue, List.foldl_cons]
    by_cases hq : σ.flushable q
    · have hop : (σ.queries q).msg.op &&& fdmiPresv = 0 := by simpa [flushable] using hq
      have herase : (get σ).erase q = kept ++ l := by
        rw [hl] at hnd ⊢
        rw [List.erase_append_right _ fun h => List.disjoint_of_nodup_append hnd h List.mem_cons_self,
          List.erase_cons_head]
      let τ : Proc := set (σ.discard [q]) (kept ++ l)
      have hstep : (set σ (Queue.remove (get σ) q)).destroyQuery q = τ := by
        rw [hdestroy, Queue.remove, herase, hdiscard]
      have hflush : τ.flushable = σ.flushable := by
        funext x
        simp [flushable, τ, hqueries, discard]
      have hτ := ih kept τ (hget ..)
        (by rw [hget, ← herase]; exact hnd.erase q)
      rw [if_pos hop, hstep]
      rw [flushQueue] at hτ
      rw [hτ, hflush, List.filter_cons_of_pos hq, List.filter_cons_of_neg (by simpa using hq), hdiscard, hset]
      congr 1
      simp only [discard, List.append_assoc, List.singleton_append, List.length_cons, List.length_nil]
      congr 1
      push_cast
      omega
    · have hop : ¬ (σ.queries q).msg.op &&& fdmiPresv = 0 := by simpa [flushable] using hq
      have := ih (kept ++ [q]) σ (by simpa using hl) hnd
      rw [if_neg hop]
      rw [flushQueue] at this
      rw [this, List.filter_cons_of_neg hq, List.filter_cons_of_pos (by simpa using hq), List.append_assoc,
        List.singleton_append]

theorem flushQueryQp_eq (ho : σ.Owned []) : σ.flushQueryQp = σ.flushed := by
  have haq := flushQueue_eq (fun τ => τ.aq) (fun τ l => { τ with aq := l }) (fun _ _ => rfl) (fun _ _ _ => rfl)
    (fun _ => rfl) (fun _ _ => rfl) (fun _ _ _ => rfl) σ.aq [] σ rfl (ho.nodup .arrived)
  let τ : Proc := { σ.discard (σ.aq.filter σ.flushable) with aq := σ.aq.filter (!σ.flushable ·) }
  have hpq := flushQueue_eq (fun τ => τ.pq) (fun τ l => { τ with pq := l }) (fun _ _ => rfl) (fun _ _ _ => rfl)
    (fun _ => rfl) (fun _ _ => rfl) (fun _ _ _ => rfl) τ.pq [] τ rfl (ho.nodup .waiting)
  rw [flushQueryQp, haq]
  change τ.flushQueue _ τ.pq = _
  rw [hpq]
  rfl

theorem flush_transition (ho : σ.Owned []) (h : σ.step .flush = some σ') : Transition σ .flush σ' := by
  obtain ⟨heff, -⟩ := step_eq_some.1 h
  rw [effect, Option.some.injEq] at heff
  rw [← heff, flushQueryQp_eq ho]
  exact .flush

/-! ## Connection events -/

/-- A call of `fdmi_create_qp` that returns leaves a domain context. -/
theorem createQp_eq {verbs : Nat} {pd : Pd} (hab : (σ.createQp verbs pd).aborted = false) :
    ∃ dctx, dctx.isSome ∧ σ.createQp verbs pd = { σ with dctx := dctx } := by
  rw [createQp] at hab ⊢
  split
  · exact ⟨_, rfl, rfl⟩
  · next dctx hd =>
    rw [hd] at hab
    simp only at hab
    split at hab
    · next hctx =>
      rw [if_pos hctx]
      exact ⟨some dctx, rfl, by rw [← hd]⟩
    · cases hab

theorem createConnection_eq (id : CmId) :
    ∃ pd, σ.createConnection id = (σ.connected id σ.dctx pd, σ.nconn) := ⟨_, rfl⟩

theorem onConnectRequest_linked {id : CmId} {verbs : Nat} {pd : Pd} (hcm : σ.cm id = .unused)
    (hab : (σ.onConnectRequest id verbs pd).aborted = false) :
    σ.Linked (.connectRequest id verbs pd) (σ.onConnectRequest id verbs pd) := by
  by_cases htab : σ.InTable σ.connectedRank
  · by_cases hlock : (σ.peers σ.connectedRank.toInt).onConnectingLock
    · have hfinal : σ.onConnectRequest id verbs pd = σ.setPhase id .dropped := by
        rw [onConnectRequest, if_neg (not_not.2 htab), if_pos hlock]
      rw [hfinal]
      exact .reject hcm
    · rw [onConnectRequest, if_neg (not_not.2 htab), if_neg hlock] at hab ⊢
      let σ₀ : Proc := σ.setPeer σ.connectedRank fun x => { x with onConnectingLock := true }
      have hqp : (σ₀.createQp verbs pd).aborted = false := by
        simpa only [rmapItopAdd, setPhase, setPeer, createConnection, σ₀] using hab
      obtain ⟨dctx, hd, hctx⟩ := createQp_eq hqp
      obtain ⟨pd', hconn⟩ := createConnection_eq (σ := { σ₀ with dctx := dctx }) id
      have hfinal : ({ (((connected { σ₀ with dctx := dctx } id dctx pd').setPeer σ.connectedRank
            fun x => { x with conn := some σ.nconn }).setPhase id .accepted).rmapItopAdd id σ.connectedRank with
          connectedRank := σ.connectedRank + 1 } : Proc) = σ.acceptRequest id dctx pd' := by
        simp [setPeer, setPhase, Proc.rmapItopAdd, acceptRequest, connected, σ₀]
      dsimp only
      rw [hctx, hconn]
      exact hfinal ▸ Linked.acceptRequest hcm htab hd
  · rw [onConnectRequest, if_pos htab] at hab
    cases hab

theorem onAddrResolved_linked {id : CmId} {verbs : Nat} {pd : Pd} (hcm : σ.cm id = .resolving)
    (hab : (σ.onAddrResolved id verbs pd).aborted = false) :
    σ.Linked (.addrResolved id verbs pd) (σ.onAddrResolved id verbs pd) := by
  have hqp : (σ.createQp verbs pd).aborted = false := by
    rw [onAddrResolved] at hab
    simp only at hab
    split at hab <;> exact hab
  obtain ⟨dctx, hd, heq⟩ := createQp_eq hqp
  rw [onAddrResolved, heq]
  dsimp only
  split
  · next hslot => exact .resolve hcm hslot hd
  · exact .drop hcm hd

theorem connect_transition {rank : CInt} {id : CmId} (h : σ.step (.connect rank id) = some σ') :
    Transition σ (.connect rank id) σ' := by
  obtain ⟨heff, hab⟩ := step_eq_some.1 h
  rw [effect, Option.ite_none_right_eq_some] at heff
  obtain ⟨hcm, heq⟩ := heff
  cases heq
  rw [verbsConnect] at hab ⊢
  split at hab
  · next htab =>
    rw [if_pos htab]
    exact .link (.connect hcm htab)
  · cases hab

theorem connectRequest_transition {id : CmId} {verbs : Nat} {pd : Pd}
    (h : σ.step (.connectRequest id verbs pd) = some σ') : Transition σ (.connectRequest id verbs pd) σ' := by
  obtain ⟨heff, hab⟩ := step_eq_some.1 h
  rw [effect, Option.ite_none_right_eq_some] at heff
  obtain ⟨hcm, heq⟩ := heff
  cases heq
  exact .link (onConnectRequest_linked hcm hab)

theorem addrResolved_transition {id : CmId} {verbs : Nat} {pd : Pd}
    (h : σ.step (.addrResolved id verbs pd) = some σ') : Transition σ (.addrResolved id verbs pd) σ' := by
  obtain ⟨heff, hab⟩ := step_eq_some.1 h
  rw [effect, Option.ite_none_right_eq_some] at heff
  obtain ⟨hcm, heq⟩ := heff
  cases heq
  exact .link (onAddrResolved_linked hcm hab)

theorem routeResolved_transition {id : CmId} (h : σ.step (.routeResolved id) = some σ') :
    Transition σ (.routeResolved id) σ' := by
  obtain ⟨heff, -⟩ := step_eq_some.1 h
  rw [effect, Option.ite_none_right_eq_some] at heff
  obtain ⟨hcm, heq⟩ := heff
  cases heq
  exact .link (.route hcm)

theorem postPending_refills (c : ConnId) (n : Nat) : Refills c σ n (σ.postPending (some c) n) := by
  induction n with
  | zero => exact .zero
  | succ n ih =>
    obtain ⟨g, hg, hx, heq⟩ := createQuery_eq (σ := σ.postPending (some c) n) (some c)
    have hpost : σ.postPending (some c) (n + 1) = (σ.postPending (some c) n).refill c g := by
      rw [postPending, heq]
      exact postRecvMsg_grab hx.conn
    rw [hpost]
    exact ih.succ hg hx

theorem postPending_none (n : Nat) : (σ.postPending none (n + 1)).aborted = true := by
  obtain ⟨g, -, hx, heq⟩ := createQuery_eq (σ := σ.postPending none n) none
  rw [postPending, heq]
  simp [postRecvMsg, hx.conn, abort]

theorem established_transition {id : CmId} (h : σ.step (.established id) = some σ') :
    Transition σ (.established id) σ' := by
  obtain ⟨heff, hab⟩ := step_eq_some.1 h
  rw [effect, Option.ite_none_right_eq_some] at heff
  obtain ⟨hcm, heq⟩ := heff
  rw [Option.some.injEq] at heq
  subst heq
  rw [onEstablished] at hab ⊢
  cases hc : (σ.peers (σ.rmapItopGet id).toInt).conn with
  | none =>
    simp only [hc, setPhase, setPeer, maxPendingRecvQuery, postPending_none] at hab
    cases hab
  | some c => exact .establish hcm hc (postPending_refills c _)

/-- From a state that is owned and wired, a step with messages of peers is one of the cases. -/
theorem transition_of_step (ho : σ.Owned []) (hw : σ.Wired) {e : Event} (he : e.FromPeer)
    (h : σ.step e = some σ') : Transition σ e σ' := by
  cases e with
  | isend prm => exact isend_transition h
  | irecv prm => exact irecv_transition ho hw h
  | wcRecv c w => exact wcRecv_transition ho hw he h
  | wcSend c => exact wcSend_transition hw h
  | wcRdmaRead c data => exact wcRdmaRead_transition ho hw h
  | flush => exact flush_transition ho h
  | established id => exact established_transition h
  | connect rank id => exact connect_transition h
  | connectRequest id verbs pd => exact connectRequest_transition h
  | addrResolved id verbs pd => exact addrResolved_transition h
  | routeResolved id => exact routeResolved_transition h

end Proc

end Libibtl
