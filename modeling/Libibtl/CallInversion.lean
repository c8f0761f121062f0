import Libibtl.Transition

/-! # Calls and arrivals are transitions

The user calls `fdmi_verbs_isend` and `fdmi_verbs_irecv`, and the two handlers of
receive completions, brought to the post-states of `Transition`.
-/

namespace Libibtl

open Foundation

namespace Proc

variable {σ σ' : Proc}

theorem step_eq_some {e : Event} : σ.step e = some σ' ↔ σ.effect e = some σ' ∧ σ'.aborted = false := by
  rw [step, Option.bind_eq_some_iff]
  constructor
  · rintro ⟨τ, hτ, h⟩
    split at h
    · cases h
    · next hab =>
      cases h
      exact ⟨hτ, by simpa using hab⟩
  · rintro ⟨he, ha⟩
    exact ⟨σ', he, by simp [ha]⟩

theorem postSendMsgParam_eq {prm : SendParam} {c : ConnId} (hc : (σ.peers prm.dest.toInt).conn = some c) :
    ∃ g wire, σ.Grabs g ∧ σ.Carries prm c g.content wire ∧
      wire.ctl.rdmaMr = ((σ.createQuery (some c)).1.regMr (.user prm.buf)
        (uint32OfUint64 (regSize prm.datatype prm.count)) (σ.conns c).pd).2 ∧
      σ.postSendMsgParam prm = { σ.grab g with sq := σ.sq ++ [⟨c, g.query, .send wire⟩] } := by
  obtain ⟨g, hfrom, hblank, heq⟩ := createQuery_eq (σ := σ) (some c)
  obtain ⟨regs, cached, hreg⟩ := grab_regMr (σ := σ) g (.user prm.buf)
    (uint32OfUint64 (regSize prm.datatype prm.count)) (σ.conns c).pd
  let mr := ((σ.grab g).regMr (.user prm.buf) (uint32OfUint64 (regSize prm.datatype prm.count)) (σ.conns c).pd).2
  let filled : Query := { g.content with
    requestFlag := some prm.request
    request := some prm.request
    msg := { g.content.msg with toCtl := σ.sendCtl prm mr g.content.msg.eagerSize } }
  let g' : Grab := { g with regMrQ := regs, regMrCachedSize := cached, content := filled }
  have hpost : σ.postSendMsgParam prm = (σ.grab g').postSendMsg g.query := by
    rw [postSendMsgParam, hc]
    simp only [heq, grab_conns, hreg, setCtl, setQuery]
    simp only [grab, Function.update_self, Function.update_idem]
    rfl
  have hself : (σ.grab g').queries g.query = filled := Function.update_self ..
  have hconn : ((σ.grab g').queries g.query).conn = some c := by rw [hself]; exact hblank.conn
  obtain ⟨msg, wire, hmsg, hwire, hsend⟩ := postSendMsg_eq hconn
  have hctl : wire.ctl = sentCtl (σ.sendCtl prm mr g.content.msg.eagerSize) := by rw [hwire, hmsg, hself]
  refine ⟨{ g' with content := { filled with msg := msg } }, wire, hfrom,
    ⟨hblank.conn, rfl, hwire.symm, mr, g.content.msg.eagerSize, hctl⟩, ?_, ?_⟩
  · rw [hctl, sentCtl_rdmaMr, heq]
    rfl
  · rw [hpost, hsend, hself]
    simp [grab, g']

theorem isend_transition {prm : SendParam} (h : σ.step (.isend prm) = some σ') :
    Transition σ (.isend prm) σ' := by
  obtain ⟨heff, hab⟩ := step_eq_some.1 h
  cases heff
  rw [isend] at hab ⊢
  split at hab
  · next htab =>
    rw [if_pos htab]
    let σ₀ : Proc := ({ σ with sendReqQ := Queue.enq σ.sendReqQ prm.request } : Proc).setFlag prm.request 0
    cases hc : (σ.peers prm.dest.toInt).conn with
    | none =>
      have habort : σ₀.postSendMsgParam prm = σ₀.abort := by
        have hpeer : (σ₀.peers prm.dest.toInt).conn = none := hc
        simp only [postSendMsgParam, hpeer]
      rw [habort] at hab
      cases hab
    | some c =>
      obtain ⟨g, wire, hfrom, hx, -, heq⟩ := postSendMsgParam_eq (σ := σ₀) hc
      rw [heq]
      exact .launch hc hfrom ⟨hx.conn, hx.requestFlag, hx.ctl, hx.wire⟩
  · cases hab

/-! ## Receives -/

section PostRecv

variable {prm : RecvParam} {source : CInt} {a : QueryId}

theorem postRecvMsgParam_eager (hsel : σ.getMatchedQuery2 source prm.tag prm.comm σ.aq = some a)
    (hop : (σ.queries a).msg.opcode = .eager) : σ.postRecvMsgParam source prm = σ.accept prm a := by
  simp only [postRecvMsgParam, hsel, hop]
  simp only [setFlag, setStatus, setRequest, cpyEagerBuff2, copyEager, setMem, destroyQuery, accept, setReceived,
    Queue.enq, Queue.remove, Function.update_self, Function.update_idem]

theorem postRecvMsgParam_rdmaRead (ho : σ.Owned []) (hd : σ.dctx.isSome) {c : ConnId}
    (hsel : σ.getMatchedQuery2 source prm.tag prm.comm σ.aq = some a)
    (hop : (σ.queries a).msg.opcode = .rdmaRead) (hconn : (σ.queries a).conn = some c) :
    ∃ g, σ.Grabs g ∧ Receives source prm g.content ∧ g.content.conn = some c ∧
      g.content.activeQueryToFree = some a ∧
      σ.postRecvMsgParam source prm = { σ.fetch prm c a g with requests := σ.requests } := by
  let σ₁ : Proc := { σ with aq := σ.aq.erase a }
  obtain ⟨g, hfrom, hx, -, heq⟩ := initPassiveQuery_eq (σ := σ₁) hd source prm
  have hne : g.query ≠ a := by
    rintro rfl
    exact ho.not_mem_of_grabs (i := .arrived) hfrom (by decide) (List.mem_of_find?_eq_some hsel)
  obtain ⟨regs, cached, mr, hread⟩ := postRdmaRead_eq (p := g.query) (a := a) (c := c)
    (σ := σ₁.grab { g with content := { g.content with activeQueryToFree := some a } })
    (by simpa [σ₁, Function.update_of_ne hne.symm] using hconn) hne
  refine ⟨{ g with
    regMrQ := regs, regMrCachedSize := cached
    content := { g.content with activeQueryToFree := some a, conn := some c, msgMr := mr } },
    hfrom, ⟨hx.1, hx.2, hx.3, hx.4, hx.5, hx.6, hx.7, hx.8⟩, rfl, rfl, ?_⟩
  have hpost : σ.postRecvMsgParam source prm =
      (σ₁.grab { g with content := { g.content with activeQueryToFree := some a } }).postRdmaRead g.query a := by
    simp only [postRecvMsgParam, hsel, hop, Queue.remove]
    rw [heq]
    exact congrArg (postRdmaRead · g.query a) (grab_setQuery g _)
  rw [hpost, hread]
  simp [grab, fetch, σ₁, Function.update_of_ne hne.symm]

theorem postRecvMsgParam_none (hd : σ.dctx.isSome)
    (hsel : σ.getMatchedQuery2 source prm.tag prm.comm σ.aq = none) :
    ∃ g, σ.Grabs g ∧ Receives source prm g.content ∧ g.content.msg.epoch = σ.ftEpoch ∧
      σ.postRecvMsgParam source prm = { σ.await prm g with requests := σ.requests } := by
  obtain ⟨g, hfrom, hx, -, heq⟩ := initPassiveQuery_eq (σ := σ) hd source prm
  refine ⟨{ g with content := { g.content with msg := { g.content.msg with epoch := σ.ftEpoch } } },
    hfrom, ⟨hx.1, hx.2, hx.3, hx.4, hx.5, hx.6, hx.7, hx.8⟩, rfl, ?_⟩
  simp only [postRecvMsgParam, hsel, heq, setCtl, grab_setQuery]
  rfl

end PostRecv

/-- A receive from a rank that the communicator knows does not end the process. -/
theorem irecv_succeeds (ho : σ.Owned []) (hw : σ.Wired) (hd : σ.dctx.isSome) {prm : RecvParam} {source : CInt}
    (hsrc : commGetPrank prm.comm prm.source = some source) (htab : source = fmiAnySource ∨ σ.InTable source) :
    Transition σ (.irecv prm) (σ.irecv prm) ∧ (σ.irecv prm).aborted = σ.aborted := by
  have ho' : (σ.setFlag prm.request 0).Owned [] := ⟨ho.custody, ho.counter⟩
  simp only [irecv, hsrc, if_pos htab]
  cases hsel : σ.getMatchedQuery2 source prm.tag prm.comm σ.aq with
  | none =>
    obtain ⟨g, hfrom, hx, hepoch, heq⟩ := postRecvMsgParam_none (σ := σ.setFlag prm.request 0) hd hsel
    rw [heq]
    exact ⟨.await hsrc hsel hfrom hx hepoch, rfl⟩
  | some a =>
    obtain ⟨⟨c, hconn⟩, hloop, -⟩ := hw.arrived a (List.mem_of_find?_eq_some hsel)
    cases hop : (σ.queries a).msg.opcode with
    | eager =>
      have heq : (σ.setFlag prm.request 0).accept prm a = σ.accept prm a := by
        simp [accept, copyEager, setMem, setFlag, setRequest, setReceived]
      rw [postRecvMsgParam_eager (σ := σ.setFlag prm.request 0) hsel hop, heq]
      exact ⟨.accept hsrc hsel hop, rfl⟩
    | rdmaRead =>
      obtain ⟨g, hfrom, hx, hc, hatf, heq⟩ :=
        postRecvMsgParam_rdmaRead (σ := σ.setFlag prm.request 0) ho' hd hsel hop hconn
      rw [heq]
      exact ⟨.fetch hsrc hsel hop hconn hfrom hx hc hatf, rfl⟩
    | loop => exact absurd hop hloop

theorem irecv_transition (ho : σ.Owned []) (hw : σ.Wired) {prm : RecvParam} (h : σ.step (.irecv prm) = some σ') :
    Transition σ (.irecv prm) σ' := by
  obtain ⟨heff, hab⟩ := step_eq_some.1 h
  rw [effect, Option.ite_none_right_eq_some] at heff
  obtain ⟨hd, heff⟩ := heff
  cases heff
  cases hsrc : commGetPrank prm.comm prm.source with
  | none =>
    simp only [irecv, hsrc] at hab
    cases hab
  | some source =>
    by_cases htab : source = fmiAnySource ∨ σ.InTable source
    · exact (irecv_succeeds ho hw hd hsrc htab).1
    · simp only [irecv, hsrc, if_neg htab] at hab
      cases hab

/-! ## Arrivals -/

section Arrival

variable {c : ConnId} {w : Wire} {wr : RecvWr}

theorem takeRecv_eq (hw : σ.Wired) (hwr : σ.rq.find? (·.conn = c) = some wr) :
    σ.takeRecv c w = some (σ.arrive c wr.wrId w, wr.wrId) := by
  have hc : wr.conn = c := by simpa using List.find?_some hwr
  have hconn : (σ.queries wr.wrId).conn = some c := by
    rw [(hw.posted wr (List.mem_of_find?_eq_some hwr)).1, hc]
  rw [takeRecv, hwr, Option.map_some]
  simp [scatter, stampRank, setQuery, setCtl, hconn, arrive, arrivedQuery, rmapItopGet]

theorem deliver_eq {τ : Proc} {p a : QueryId} {r : ReqId} (hflag : (τ.queries p).requestFlag = some r)
    (hr : (τ.queries p).request = some r) :
    ({ τ with pq := Queue.remove τ.pq p } : Proc).cpyEagerBuff p a = τ.deliver p a r := by
  simp [cpyEagerBuff, hflag, hr, copyEager, setMem, setFlag, setStatus, setRequest, destroyQuery, deliver,
    setReceived, Queue.enq, Queue.remove]

theorem startRead_eq {τ : Proc} {p a : QueryId} (hconn : (τ.queries a).conn = some c) (hne : p ≠ a) :
    ∃ regs cached mr,
      ((({ τ with pq := Queue.remove τ.pq p } : Proc).setQuery p fun x => { x with activeQueryToFree := some a })
        ).postRdmaRead p a = τ.startRead c p a regs cached mr := by
  obtain ⟨regs, cached, mr, h⟩ := postRdmaRead_eq (p := p) (a := a) (c := c)
    (σ := ({ τ with pq := Queue.remove τ.pq p } : Proc).setQuery p fun x => { x with activeQueryToFree := some a })
    (by simpa [setQuery, Function.update_of_ne hne.symm] using hconn) hne
  refine ⟨regs, cached, mr, ?_⟩
  rw [h]
  simp [setQuery, startRead, Queue.remove, Function.update_of_ne hne.symm]

theorem init_transition (ho : σ.Owned []) (hw : σ.Wired) (hpeer : w.FromPeer) (htype : w.ctl.type = .commInit)
    (hwr : σ.rq.find? (·.conn = c) = some wr) :
    Transition σ (.wcRecv c w) ((σ.arrive c wr.wrId w).onRecvCqWcRecv wr.wrId) := by
  obtain ⟨hepoch, hopcode, -⟩ := hpeer htype
  have hmem := List.mem_of_find?_eq_some hwr
  have hc : wr.conn = c := by simpa using List.find?_some hwr
  have hself : (σ.arrive c wr.wrId w).queries wr.wrId = σ.arrivedQuery c wr.wrId w := Function.update_self ..
  have hconn : ((σ.arrive c wr.wrId w).queries wr.wrId).conn = some c := by
    rw [hself, ← hc]
    exact (hw.posted wr hmem).1
  have hnot : (σ.arrive c wr.wrId w).discards ((σ.arrive c wr.wrId w).queries wr.wrId).msg.toCtl = false := by
    simp [discards, hw.compute]
  rw [onRecvCqWcRecv, hnot]
  simp only [Bool.false_eq_true, if_false]
  cases hsel : (σ.arrive c wr.wrId w).getMatchedQuery wr.wrId σ.pq with
  | none =>
    have hslt : ((σ.arrive c wr.wrId w).queries wr.wrId).msg.epoch.slt (σ.arrive c wr.wrId w).ftEpoch = false := by
      rw [hself, arrive_ftEpoch, hw.epoch]
      change w.ctl.epoch.slt 0 = false
      rw [hepoch]
      decide
    have hmatch : (σ.arrive c wr.wrId w).matchArrival wr.wrId =
        { σ.arrive c wr.wrId w with aq := σ.aq ++ [wr.wrId] } := by
      rw [matchArrival]
      simp only [arrive_pq, hsel, hslt, Queue.enq, arrive_aq]
      rfl
    obtain ⟨g, hg, hx, heq⟩ := repost_eq (q := wr.wrId) (c := c)
      (σ := { σ.arrive c wr.wrId w with aq := σ.aq ++ [wr.wrId] }) hconn
    rw [hmatch, heq]
    exact .store htype hwr hsel hg hx
  | some p =>
    have hp : p ∈ σ.pq := List.mem_of_find?_eq_some hsel
    have hne : p ≠ wr.wrId := by
      rintro rfl
      exact ho.not_mem_of_ne (i := .posted) (j := .waiting) (List.mem_map_of_mem hmem) (by decide) hp
    have hpq : (σ.arrive c wr.wrId w).queries p = σ.queries p := Function.update_of_ne hne ..
    obtain ⟨⟨r, hflag, hr⟩, -⟩ := hw.waiting p hp
    have hop : ((σ.arrive c wr.wrId w).queries wr.wrId).msg.opcode = w.ctl.opcode := by rw [hself]; rfl
    rw [matchArrival]
    simp only [arrive_pq, hsel, hop]
    split at hopcode
    · rw [hopcode]
      have hdel := deliver_eq (τ := σ.arrive c wr.wrId w) (a := wr.wrId) (by rw [hpq]; exact hflag)
        (by rw [hpq]; exact hr)
      simp only [arrive_pq] at hdel
      obtain ⟨g, hg, hx, heq⟩ := repost_eq (q := wr.wrId) (c := c)
        (σ := (σ.arrive c wr.wrId w).deliver p wr.wrId r) hconn
      simp only
      rw [hdel, heq]
      exact .deliver htype hwr hsel hopcode hr hg hx
    · rw [hopcode]
      obtain ⟨regs, cached, mr, hread⟩ := startRead_eq (τ := σ.arrive c wr.wrId w) hconn hne
      simp only [arrive_pq] at hread
      obtain ⟨g, hg, hx, heq⟩ := repost_eq (q := wr.wrId) (c := c)
        (σ := (σ.arrive c wr.wrId w).startRead c p wr.wrId regs cached mr)
        (by rw [startRead_queries, Function.update_of_ne hne.symm]; exact hconn)
      simp only
      rw [hread, heq]
      exact .startRead htype hwr hsel hopcode hg hx

theorem finish_eq {τ : Proc} {q : QueryId} (hatf : (τ.queries q).activeQueryToFree = none) :
    τ.completeOldestSend.destroyBoth q = τ.finish q := by
  have hq : τ.completeOldestSend.queries = τ.queries := by
    rw [completeOldestSend]
    split <;> rfl
  rw [destroyBoth, hq, hatf]
  simp only [destroyQuery, Queue.enq]
  rw [completeOldestSend]
  cases hs : τ.sendReqQ with
  | nil => simp [Queue.deq, finish, hs]
  | cons r rest => simp [Queue.deq, finish, hs, setFlag, setRequest, setDone]

theorem fin_transition (hw : σ.Wired) (htype : w.ctl.type = .commFin)
    (hwr : σ.rq.find? (·.conn = c) = some wr) :
    Transition σ (.wcRecv c w) ((σ.arrive c wr.wrId w).onSendCqWcRecv wr.wrId) := by
  have hc : wr.conn = c := by simpa using List.find?_some hwr
  obtain ⟨hconn, hatf⟩ := hw.posted wr (List.mem_of_find?_eq_some hwr)
  have hself : (σ.arrive c wr.wrId w).queries wr.wrId = σ.arrivedQuery c wr.wrId w := Function.update_self ..
  have hnot : (σ.arrive c wr.wrId w).discards ((σ.arrive c wr.wrId w).queries wr.wrId).msg.toCtl = false := by
    simp [discards, hw.compute]
  obtain ⟨g, hg, hx, heq⟩ := repost_eq (q := wr.wrId) (c := c) (σ := (σ.arrive c wr.wrId w).finish wr.wrId)
    (by rw [finish_queries, hself, ← hc]; exact hconn)
  rw [onSendCqWcRecv, hnot, finish_eq (by rw [hself]; exact hatf)]
  simp only [Bool.false_eq_true, if_false]
  rw [heq]
  exact .finish htype hwr hg hx

theorem wcRecv_transition (ho : σ.Owned []) (hw : σ.Wired) (hpeer : w.FromPeer)
    (h : σ.step (.wcRecv c w) = some σ') : Transition σ (.wcRecv c w) σ' := by
  obtain ⟨heff, -⟩ := step_eq_some.1 h
  rw [effect, wcRecv] at heff
  cases hwr : σ.rq.find? (·.conn = c) with
  | none => simp [takeRecv, hwr] at heff
  | some wr =>
    rw [takeRecv_eq hw hwr, Option.map_some] at heff
    cases heff
    have hself : (σ.arrive c wr.wrId w).queries wr.wrId = σ.arrivedQuery c wr.wrId w := Function.update_self ..
    have htype : ((σ.arrive c wr.wrId w).queries wr.wrId).msg.type = w.ctl.type := by rw [hself]; rfl
    rw [dispatchRecv, htype]
    cases ht : w.ctl.type with
    | commInit => exact init_transition ho hw hpeer ht hwr
    | commFin => exact fin_transition hw ht hwr

end Arrival

end Proc

end Libibtl
