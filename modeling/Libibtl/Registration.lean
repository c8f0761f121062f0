import Libibtl.Frame

/-! # Registrations of messages

A query keeps the registration of its `fdmi_msg` for life, and it changes its
connection on every reuse. The search of the pool compares protection domains, and
a passive query is registered when it becomes active. So every query with a
connection has a registration in the domain of that connection.
-/

namespace Libibtl

open Foundation

/-- The region belongs to `pd` and covers the `fdmi_msg` of `q`. -/
structure Mr.Keys (mr : Mr) (pd : Pd) (q : QueryId) : Prop where
  pd : mr.pd = pd
  addr : mr.addr = .msg q
  length : msgSize ≤ mr.length.toNat

/-- `ibv_reg_mr` returns a region with exactly the domain, the address and the length it was given. -/
def RegistersExactly (ibvRegMr : List Mr → Pd → Place → UInt32T → Mr) : Prop :=
  ∀ regs pd addr size, (ibvRegMr regs pd addr size).pd = pd ∧ (ibvRegMr regs pd addr size).addr = addr ∧
    (ibvRegMr regs pd addr size).length.toNat = size.toNat

namespace Proc

structure Keyed (σ : Proc) : Prop where
  exactly : RegistersExactly σ.ibvRegMr
  peers : ∀ rank c, (σ.peers rank).conn = some c → c < σ.nconn
  free : ∀ q ∈ σ.freeQueryQ, q < σ.nalloc
  conns : ∀ q < σ.nalloc, ∀ c, (σ.queries q).conn = some c →
    c < σ.nconn ∧ (σ.queries q).msgMr.Keys (σ.conns c).pd q

theorem regMr_keys {σ : Proc} (h : RegistersExactly σ.ibvRegMr) (q : QueryId) (pd : Pd) :
    (σ.regMr (.msg q) msgSize pd).2.Keys pd q := by
  rw [regMr]
  split
  · rename_i mr hfind
    have hcovers := List.find?_some hfind
    simp only [covers, decide_eq_true_eq] at hcovers
    obtain ⟨hpd, haddr, hsize⟩ := hcovers
    exact ⟨hpd, haddr, hsize⟩
  · obtain ⟨hpd, haddr, hlength⟩ := h σ.regMrQ pd (.msg q) msgSize
    exact ⟨hpd, haddr, hlength.ge⟩

namespace Keyed

variable {σ σ' : Proc} {q p a : QueryId} {c : ConnId}

theorem regMr (h : σ.Keyed) (addr : Place) (size : UInt32T) (pd : Pd) : (σ.regMr addr size pd).1.Keyed := by
  obtain ⟨regs, cached, heq⟩ := regMr_eq (σ := σ) addr size pd
  rw [heq]
  exact ⟨h.exactly, h.peers, h.free, h.conns⟩

theorem write {f : Query → Query} (h : σ.Keyed) (hx : q < σ.nalloc → ∀ c, (f (σ.queries q)).conn = some c →
    c < σ.nconn ∧ (f (σ.queries q)).msgMr.Keys (σ.conns c).pd q) : (σ.setQuery q f).Keyed := by
  refine ⟨h.exactly, h.peers, h.free, fun q' hq' c hc => ?_⟩
  by_cases heq : q' = q
  · subst heq
    simp only [Proc.setQuery, Function.update_self] at hc ⊢
    exact hx hq' c hc
  · simp only [Proc.setQuery, Function.update_of_ne heq] at hc ⊢
    exact h.conns q' hq' c hc

theorem setQuery {f : Query → Query} (h : σ.Keyed) (hconn : (f (σ.queries q)).conn = (σ.queries q).conn)
    (hmr : (f (σ.queries q)).msgMr = (σ.queries q).msgMr) : (σ.setQuery q f).Keyed := by
  refine h.write fun hq c hc => ?_
  rw [hconn] at hc
  rw [hmr]
  exact h.conns q hq c hc

theorem setCtl (h : σ.Keyed) (q : QueryId) (f : Ctl → Ctl) : (σ.setCtl q f).Keyed := h.setQuery rfl rfl

theorem setFlag (h : σ.Keyed) (r : ReqId) (v : CInt) : (σ.setFlag r v).Keyed :=
  ⟨h.exactly, h.peers, h.free, h.conns⟩

theorem destroyQuery (h : σ.Keyed) (hq : q < σ.nalloc) : (σ.destroyQuery q).Keyed := by
  refine ⟨h.exactly, h.peers, fun q' hq' => ?_, h.conns⟩
  rcases List.mem_append.1 hq' with hq' | hq'
  · exact h.free q' hq'
  · rwa [List.mem_singleton.1 hq']

/-! ## The pool -/

/-- A recycled query is registered for the domain of the connection that asks for it. -/
theorem recycled (h : σ.Keyed) (hc : c < σ.nconn) (hfind : σ.freeQueryQ.find? (σ.reusable (some c)) = some q) :
    c < σ.nconn ∧ (σ.queries q).msgMr.Keys (σ.conns c).pd q := by
  have hq := h.free q (List.mem_of_find?_eq_some hfind)
  have hreusable := List.find?_some hfind
  cases hconn : (σ.queries q).conn with
  | none => simp [reusable, hconn] at hreusable
  | some c₀ =>
    obtain ⟨-, hkeys⟩ := h.conns q hq c₀ hconn
    have hpd : (σ.conns c₀).pd = (σ.conns c).pd := by simpa [reusable, hconn] using hreusable
    rw [hpd] at hkeys
    exact ⟨hc, hkeys⟩

theorem allocate (h : σ.Keyed) {x : Query}
    (hx : ∀ c, x.conn = some c → c < σ.nconn ∧ x.msgMr.Keys (σ.conns c).pd σ.nalloc) :
    ({ σ with nalloc := σ.nalloc + 1, queries := Function.update σ.queries σ.nalloc x } : Proc).Keyed := by
  refine ⟨h.exactly, h.peers, fun q hq => Nat.lt_succ_of_lt (h.free q hq), fun q hq c hc => ?_⟩
  by_cases heq : q = σ.nalloc
  · subst heq
    simp only [Function.update_self] at hc ⊢
    exact hx c hc
  · simp only [Function.update_of_ne heq] at hc ⊢
    exact h.conns q (lt_of_le_of_ne (Nat.le_of_lt_succ hq) heq) c hc

theorem takeQuery (h : σ.Keyed) {conn : Option ConnId} (hconn : ∀ c, conn = some c → c < σ.nconn) {f : Query → Query}
    (hf : ∀ x, (f x).conn = conn ∧ (f x).msgMr = x.msgMr) :
    ((σ.takeQuery conn).1.setQuery (σ.takeQuery conn).2 f).Keyed := by
  rw [Proc.takeQuery]
  cases hfind : σ.freeQueryQ.find? (σ.reusable conn) with
  | some q =>
    have herase : ({ σ with freeQueryQ := σ.freeQueryQ.erase q } : Proc).Keyed :=
      ⟨h.exactly, h.peers, fun q hq => h.free q (List.mem_of_mem_erase hq), h.conns⟩
    refine herase.write fun _ c hc => ?_
    rw [(hf _).1] at hc
    subst hc
    rw [(hf _).2]
    exact h.recycled (hconn c rfl) hfind
  | none =>
    cases conn with
    | none =>
      refine h.allocate (x := f (σ.queries σ.nalloc)) fun c hc => ?_
      rw [(hf _).1] at hc
      cases hc
    | some c =>
      obtain ⟨regs, cached, hreg⟩ :=
        regMr_eq (σ := { σ with nalloc := σ.nalloc + 1 }) (.msg σ.nalloc) msgSize (σ.conns c).pd
      have hkeys := regMr_keys (σ := { σ with nalloc := σ.nalloc + 1 }) h.exactly σ.nalloc (σ.conns c).pd
      simp only [hreg, Proc.setQuery, Function.update_self, Function.update_idem]
      have hnew := h.allocate (x := f { σ.queries σ.nalloc with
        msgMr := (({ σ with nalloc := σ.nalloc + 1 } : Proc).regMr (.msg σ.nalloc) msgSize (σ.conns c).pd).2 }) ?_
      · exact ⟨hnew.exactly, hnew.peers, hnew.free, hnew.conns⟩
      · intro c' hc'
        rw [(hf _).1] at hc'
        cases hc'
        rw [(hf _).2]
        exact ⟨hconn c rfl, hkeys⟩

theorem createQuery (h : σ.Keyed) (conn : Option ConnId) (hconn : ∀ c, conn = some c → c < σ.nconn) :
    (σ.createQuery conn).1.Keyed :=
  takeQuery (σ := { σ with counter := σ.counter + 1 })
    (f := fun x => { x with conn := conn, requestFlag := none, activeQueryToFree := none })
    ⟨h.exactly, h.peers, h.free, h.conns⟩ hconn fun _ => ⟨rfl, rfl⟩

/-! ## Work requests -/

theorem postRecvMsg (h : σ.Keyed) (q : QueryId) : (σ.postRecvMsg q).Keyed := by
  rw [Proc.postRecvMsg]
  split
  · exact ⟨h.exactly, h.peers, h.free, h.conns⟩
  · exact ⟨h.exactly, h.peers, h.free, h.conns⟩

theorem eagerEntry (h : σ.Keyed) (q : QueryId) : (σ.eagerEntry q).1.Keyed := by
  rw [Proc.eagerEntry]
  dsimp only
  split
  · dsimp only
    exact h.setCtl q _
  · dsimp only
    exact setQuery (h.setCtl q _) rfl rfl

theorem ibvPostSend (h : σ.Keyed) (q : QueryId) (sge : Option Sge) : (σ.ibvPostSend q sge).Keyed := by
  unfold Proc.ibvPostSend
  split
  · exact ⟨h.exactly, h.peers, h.free, h.conns⟩
  · exact ⟨h.exactly, h.peers, h.free, h.conns⟩

theorem postSendMsg (h : σ.Keyed) (q : QueryId) : (σ.postSendMsg q).Keyed := by
  rw [Proc.postSendMsg]
  split
  · exact (h.eagerEntry q).ibvPostSend ..
  · exact h.ibvPostSend ..

theorem postRdmaRead (h : σ.Keyed) (ha : a < σ.nalloc) (p : QueryId) : (σ.postRdmaRead p a).Keyed := by
  rw [Proc.postRdmaRead]
  split
  · exact ⟨h.exactly, h.peers, h.free, h.conns⟩
  · rename_i c hc
    obtain ⟨hlt, -⟩ := h.conns a ha c hc
    have hkeys := regMr_keys h.exactly p (σ.conns c).pd
    obtain ⟨regs, cached, hreg⟩ := regMr_eq (σ := σ) (.msg p) msgSize (σ.conns c).pd
    have hwritten := (h.regMr (.msg p) msgSize (σ.conns c).pd).write (q := p)
      (f := fun x => { x with conn := some c, msgMr := (σ.regMr (.msg p) msgSize (σ.conns c).pd).2 }) ?_
    · exact ⟨hwritten.exactly, hwritten.peers, hwritten.free, hwritten.conns⟩
    · rintro - c' ⟨⟩
      rw [hreg]
      exact ⟨hlt, hkeys⟩

/-! ## Calls -/

theorem postSendMsgParam (h : σ.Keyed) (prm : SendParam) : (σ.postSendMsgParam prm).Keyed := by
  rw [Proc.postSendMsgParam]
  split
  · exact ⟨h.exactly, h.peers, h.free, h.conns⟩
  · rename_i c hc
    have hcreated := h.createQuery (some c) fun c' hc' => h.peers _ c' (hc.trans hc')
    have hregistered := hcreated.regMr (.user prm.buf) (uint32OfUint64 (regSize prm.datatype prm.count))
      ((σ.createQuery (some c)).1.conns c).pd
    exact postSendMsg (setCtl (setQuery hregistered rfl rfl) _ _) _

theorem isend (h : σ.Keyed) (prm : SendParam) : (σ.isend prm).Keyed := by
  rw [Proc.isend]
  split
  · have hqueued : ({ σ with sendReqQ := Queue.enq σ.sendReqQ prm.request } : Proc).Keyed :=
      ⟨h.exactly, h.peers, h.free, h.conns⟩
    exact (hqueued.setFlag prm.request 0).postSendMsgParam prm
  · exact ⟨h.exactly, h.peers, h.free, h.conns⟩

theorem initPassiveQuery (h : σ.Keyed) (rank : CInt) (prm : RecvParam) : (σ.initPassiveQuery rank prm).1.Keyed := by
  rw [Proc.initPassiveQuery]
  split
  · exact ⟨h.exactly, h.peers, h.free, h.conns⟩
  · rename_i dctx hdctx
    have hcreated := h.createQuery none fun c hc => (Option.some_ne_none c hc.symm).elim
    have hregistered := hcreated.regMr (.user prm.buf) (uint32OfUint64 (regSize prm.datatype prm.count)) dctx.pd
    dsimp only
    exact setCtl (setQuery hregistered rfl rfl) _ _

theorem initPassiveQuery_nalloc (rank : CInt) (prm : RecvParam) :
    σ.nalloc ≤ (σ.initPassiveQuery rank prm).1.nalloc := by
  cases hd : σ.dctx with
  | none =>
    rw [Proc.initPassiveQuery, hd]
    exact le_rfl
  | some dctx =>
    obtain ⟨g, hg, -, -, heq⟩ := initPassiveQuery_eq (σ := σ) (by rw [hd]; rfl) rank prm
    rw [heq]
    rcases hg with ⟨-, -, hg⟩ | ⟨-, -, hg⟩
    · exact hg.ge
    · exact hg.ge.trans' (Nat.le_succ _)

theorem postRecvMsgParam (h : σ.Keyed) (haq : ∀ a ∈ σ.aq, a < σ.nalloc) (rank : CInt) (prm : RecvParam) :
    (σ.postRecvMsgParam rank prm).Keyed := by
  rw [Proc.postRecvMsgParam]
  split
  · rename_i a ha
    have halloc := haq a (List.mem_of_find?_eq_some ha)
    have htaken : ({ σ with aq := Queue.remove σ.aq a } : Proc).Keyed := ⟨h.exactly, h.peers, h.free, h.conns⟩
    dsimp only
    split
    · have hfreed := htaken.destroyQuery halloc
      exact ⟨hfreed.exactly, hfreed.peers, hfreed.free, hfreed.conns⟩
    · refine postRdmaRead (setQuery (htaken.initPassiveQuery rank prm) rfl rfl) ?_ _
      exact halloc.trans_le (initPassiveQuery_nalloc (σ := { σ with aq := Queue.remove σ.aq a }) rank prm)
    · exact htaken
  · have hset := (h.initPassiveQuery rank prm).setCtl (σ.initPassiveQuery rank prm).2
      (fun x => { x with epoch := σ.ftEpoch })
    exact ⟨hset.exactly, hset.peers, hset.free, hset.conns⟩

theorem irecv (h : σ.Keyed) (haq : ∀ a ∈ σ.aq, a < σ.nalloc) (prm : RecvParam) : (σ.irecv prm).Keyed := by
  rw [Proc.irecv]
  split
  · exact ⟨h.exactly, h.peers, h.free, h.conns⟩
  · split
    · exact (h.setFlag prm.request 0).postRecvMsgParam haq _ prm
    · exact ⟨h.exactly, h.peers, h.free, h.conns⟩

/-! ## Arrivals -/

theorem repost (h : σ.Keyed) (hq : q < σ.nalloc) : (σ.repost q).Keyed :=
  postRecvMsg (h.createQuery _ fun c hc => (h.conns q hq c hc).1) _

theorem cpyEagerBuff (h : σ.Keyed) (hp : p < σ.nalloc) (ha : a < σ.nalloc) : (σ.cpyEagerBuff p a).Keyed := by
  rw [Proc.cpyEagerBuff]
  have hfreed := (h.destroyQuery hp).destroyQuery (q := a) ha
  split
  · exact ⟨hfreed.exactly, hfreed.peers, hfreed.free, hfreed.conns⟩
  · exact ⟨h.exactly, h.peers, h.free, h.conns⟩

theorem matchArrival (h : σ.Keyed) (hpq : ∀ p ∈ σ.pq, p < σ.nalloc) (ha : a < σ.nalloc) : (σ.matchArrival a).Keyed := by
  rw [Proc.matchArrival]
  split
  · rename_i p hp
    have hpalloc := hpq p (List.mem_of_find?_eq_some hp)
    have htaken : ({ σ with pq := Queue.remove σ.pq p } : Proc).Keyed := ⟨h.exactly, h.peers, h.free, h.conns⟩
    dsimp only
    split
    · exact htaken.cpyEagerBuff hpalloc ha
    · exact postRdmaRead (setQuery htaken rfl rfl) ha p
    · exact htaken
  · split
    · exact h
    · exact ⟨h.exactly, h.peers, h.free, h.conns⟩

theorem postRdmaRead_nalloc : (σ.postRdmaRead p a).nalloc = σ.nalloc := by
  rw [Proc.postRdmaRead]
  split
  · rfl
  · rename_i c _
    obtain ⟨regs, cached, hreg⟩ := regMr_eq (σ := σ) (.msg p) msgSize (σ.conns c).pd
    simp only [hreg, Proc.setQuery]

theorem matchArrival_nalloc : (σ.matchArrival a).nalloc = σ.nalloc := by
  rw [Proc.matchArrival]
  split
  · dsimp only
    split
    · rw [Proc.cpyEagerBuff]
      split <;> rfl
    · exact postRdmaRead_nalloc
    · rfl
  · split <;> rfl

theorem arrive (h : σ.Keyed) (c : ConnId) (w : Wire) : (σ.arrive c q w).Keyed := by
  have hset := h.setQuery (q := q) (f := fun _ => σ.arrivedQuery c q w) rfl rfl
  exact ⟨hset.exactly, hset.peers, hset.free, hset.conns⟩

theorem wcRecv {w : Wire} (h : σ.Keyed) (hs : σ.Sound []) (heff : σ.wcRecv c w = some σ') : σ'.Keyed := by
  obtain ⟨r, hr, rfl⟩ := Option.map_eq_some_iff.1 heff
  obtain ⟨wr, hwr, -⟩ := Option.map_eq_some_iff.1 hr
  rw [takeRecv_eq hs.toWired hwr] at hr
  cases hr
  have harrive := h.arrive (q := wr.wrId) c w
  have halloc : wr.wrId < σ.nalloc := hs.lt (mem_posted_of_find hwr)
  have hatf : ((σ.arrive c wr.wrId w).queries wr.wrId).activeQueryToFree = none := by
    simpa [arrivedQuery] using (hs.posted wr (List.mem_of_find?_eq_some hwr)).2
  have hpq : ∀ p ∈ σ.pq, p < σ.nalloc := fun p hp => hs.lt (i := .waiting) hp
  have hnot : ∀ x : Ctl, (σ.arrive c wr.wrId w).discards x = false := fun x => by simp [discards, hs.compute]
  simp only [dispatchRecv]
  split
  · rw [onRecvCqWcRecv, hnot, if_neg Bool.false_ne_true]
    have hmatched := harrive.matchArrival hpq halloc
    exact hmatched.repost (by rwa [matchArrival_nalloc])
  · rw [onSendCqWcRecv, hnot, if_neg Bool.false_ne_true, finish_eq hatf]
    have hfreed := harrive.destroyQuery halloc
    have hfinished : ((σ.arrive c wr.wrId w).finish wr.wrId).Keyed :=
      ⟨hfreed.exactly, hfreed.peers, hfreed.free, hfreed.conns⟩
    exact hfinished.repost halloc

/-! ## Runs -/

theorem postPending (h : σ.Keyed) (hc : c < σ.nconn) (n : Nat) : (σ.postPending (some c) n).Keyed := by
  induction n with
  | zero => exact h
  | succ n ih =>
    have hn : (σ.postPending (some c) n).nconn = σ.nconn := by rw [(postPending_refills c n).rest]
    refine postRecvMsg (ih.createQuery _ fun c' hc' => ?_) _
    cases hc'
    rwa [hn]

theorem sent (h : σ.Keyed) (hq : q < σ.nalloc) (c : ConnId) (requests : ReqId → Request) (sendReqQ : List ReqId) :
    (σ.sent c q requests sendReqQ).Keyed := by
  have hset := (h.setQuery (q := q) (f := fun _ => σ.stamped c q) rfl rfl).destroyQuery hq
  exact ⟨hset.exactly, hset.peers, hset.free, hset.conns⟩

theorem readDone (h : σ.Keyed) (hp : p < σ.nalloc) (hne : a ≠ p) (c : ConnId) (r : ReqId) (sge : Sge) (data : Buffer)
    (msg : Msg) (wire : Wire) : (σ.readDone c p a r sge data msg wire).Keyed := by
  have hstamped := h.setQuery (q := p) (f := fun _ => σ.stamped c p) rfl rfl
  have hset := hstamped.setQuery (q := a) (f := fun _ => { σ.queries a with msg := msg })
    (by simp [Proc.setQuery, Function.update_of_ne hne]) (by simp [Proc.setQuery, Function.update_of_ne hne])
  have hfreed := hset.destroyQuery hp
  exact ⟨hfreed.exactly, hfreed.peers, hfreed.free, hfreed.conns⟩

theorem flushed (h : σ.Keyed) (haq : ∀ a ∈ σ.aq, a < σ.nalloc) (hpq : ∀ p ∈ σ.pq, p < σ.nalloc) :
    σ.flushed.Keyed := by
  refine ⟨h.exactly, h.peers, fun q hq => ?_, h.conns⟩
  rcases List.mem_append.1 hq with hq | hq
  · rcases List.mem_append.1 hq with hq | hq
    · exact h.free q hq
    · exact haq q (List.mem_filter.1 hq).1
  · exact hpq q (List.mem_filter.1 hq).1

theorem connected (h : σ.Keyed) (id : CmId) (dctx : Option DomainContext) (pd : Pd) :
    (σ.connected id dctx pd).Keyed := by
  refine ⟨h.exactly, fun rank c hc => Nat.lt_succ_of_lt (h.peers rank c hc), h.free, fun q hq c hc => ?_⟩
  obtain ⟨hlt, hkeys⟩ := h.conns q hq c hc
  rw [connected_conns, Function.update_of_ne hlt.ne]
  exact ⟨Nat.lt_succ_of_lt hlt, hkeys⟩

theorem setPeers (h : σ.Keyed) {i : Int} {x : Peer} (hx : ∀ c, x.conn = some c → c < σ.nconn) :
    ({ σ with peers := Function.update σ.peers i x } : Proc).Keyed := by
  refine ⟨h.exactly, fun rank c hc => ?_, h.free, h.conns⟩
  by_cases heq : rank = i
  · subst heq
    simp only [Function.update_self] at hc
    exact hx c hc
  · simp only [Function.update_of_ne heq] at hc
    exact h.peers rank c hc

theorem linked (h : σ.Keyed) {e : Event} (hl : σ.Linked e σ') : σ'.Keyed := by
  cases hl with
  | connect _ _ => exact ⟨h.exactly, h.peers, h.free, h.conns⟩
  | reject _ => exact ⟨h.exactly, h.peers, h.free, h.conns⟩
  | @acceptRequest id _ _ pd' dctx _ _ _ =>
    have hset := (h.connected id dctx pd').setPeers (i := σ.connectedRank.toInt)
      (x := { σ.peers σ.connectedRank.toInt with onConnectingLock := true, conn := some σ.nconn })
      fun c hc => by cases hc; exact Nat.lt_succ_self _
    exact ⟨hset.exactly, hset.peers, hset.free, hset.conns⟩
  | @resolve id _ _ pd' dctx _ _ _ =>
    have hset := (h.connected id dctx pd').setPeers (i := (σ.rmapItopGet id).toInt)
      (x := { σ.peers (σ.rmapItopGet id).toInt with conn := some σ.nconn })
      fun c hc => by cases hc; exact Nat.lt_succ_self _
    exact ⟨hset.exactly, hset.peers, hset.free, hset.conns⟩
  | @drop id _ _ pd' dctx _ _ =>
    have hset := h.connected id dctx pd'
    exact ⟨hset.exactly, hset.peers, hset.free, hset.conns⟩
  | route _ => exact ⟨h.exactly, h.peers, h.free, h.conns⟩

theorem established (h : σ.Keyed) {id : CmId} (hc : (σ.peers (σ.rmapItopGet id).toInt).conn = some c) :
    (σ.onEstablished id).Keyed := by
  rw [onEstablished, hc]
  have hposted := h.postPending (h.peers _ c hc) maxPendingRecvQuery
  generalize σ.postPending (some c) maxPendingRecvQuery = τ at hposted ⊢
  have hset := hposted.setPeers (i := (σ.rmapItopGet id).toInt)
    (x := { τ.peers (σ.rmapItopGet id).toInt with isConnected := true }) fun c' hc' => hposted.peers _ c' hc'
  exact ⟨hset.exactly, hset.peers, hset.free, hset.conns⟩

theorem step (h : σ.Keyed) (hs : σ.Sound []) {e : Event} (he : e.FromPeer) (hstep : σ.step e = some σ') : σ'.Keyed := by
  obtain ⟨heff, -⟩ := step_eq_some.1 hstep
  have ht := transition_of_step hs.toOwned hs.toWired he hstep
  have haq : ∀ a ∈ σ.aq, a < σ.nalloc := fun a ha => hs.lt (i := .arrived) ha
  have hpq : ∀ p ∈ σ.pq, p < σ.nalloc := fun p hp => hs.lt (i := .waiting) hp
  -- the calls and the arrivals take queries from the pool, the other cases are read off the transition
  cases ht with
  | launch _ _ _ => exact Option.some.inj heff ▸ h.isend _
  | accept _ _ _ | fetch _ _ _ _ _ _ _ _ | await _ _ _ _ _ =>
    rw [effect] at heff
    split at heff
    · exact Option.some.inj heff ▸ h.irecv haq _
    · cases heff
  | deliver _ _ _ _ _ _ _ | startRead _ _ _ _ _ _ | store _ _ _ _ _ | finish _ _ _ _ => exact h.wcRecv hs heff
  | sentEager hwr _ _ _ => exact h.sent (hs.lt (mem_sending_of_find hwr)) ..
  | sentOther hwr _ => exact h.sent (hs.lt (mem_sending_of_find hwr)) ..
  | @readDone c p a r sge remote data msg wire hwr ha _ _ _ =>
    have hne : a ≠ p := by
      have hnodup := (hs.toOwned.takeRead hwr rfl ha).nodup_hand
      rintro rfl
      simp at hnodup
    exact h.readDone (hs.lt (mem_reading_of_find hwr)) hne ..
  | flush => exact h.flushed haq hpq
  | link hl => exact h.linked hl
  | establish hcm hc _ =>
    rw [effect, if_pos hcm] at heff
    exact Option.some.inj heff ▸ h.established hc

end Keyed

end Proc

/-- Connections that exist already, each in a protection domain of its own choice. -/
structure Links where
  conns : ConnId → Connection
  nconn : Nat
  peers : Int → Peer
  dctx : Option DomainContext
  hstbItop : Hashtable
  cm : CmId → CmPhase
  peers_lt : ∀ rank c, (peers rank).conn = some c → c < nconn

/-- The state after `fdmi_verbs_init`, with the connections `l`. -/
def Proc.initWith (b : Boot) (l : Links) : Proc :=
  { Proc.init b with
    conns := l.conns, nconn := l.nconn, peers := l.peers, dctx := l.dctx, hstbItop := l.hstbItop, cm := l.cm }

theorem Proc.sound_initWith (b : Boot) (l : Links) : (Proc.initWith b l).Sound [] := by
  have h := Proc.Sound.init b
  exact ⟨⟨h.custody, h.counter⟩, ⟨h.compute, h.epoch, h.posted, h.arrived, h.waiting, h.sending, h.reading⟩⟩

theorem Proc.keyed_initWith {b : Boot} (hreg : RegistersExactly b.ibvRegMr) (l : Links) : (Proc.initWith b l).Keyed :=
  ⟨hreg, l.peers_lt, fun _ hq => (nomatch hq), fun _ hq => (nomatch hq)⟩

/-- Every work request uses a query that is registered in the domain of its connection. -/
theorem posted_keyed {b : Boot} {l : Links} {es : List Event} {σ : Proc} (hreg : RegistersExactly b.ibvRegMr)
    (h : Path Proc.step (fun _ e => e.FromPeer) (Proc.initWith b l) es σ) :
    (∀ wr ∈ σ.rq, (σ.queries wr.wrId).msgMr.Keys (σ.conns wr.conn).pd wr.wrId) ∧
      ∀ wr ∈ σ.sq, (σ.queries wr.wrId).msgMr.Keys (σ.conns wr.conn).pd wr.wrId := by
  obtain ⟨hs, hkeyed⟩ := h.invariant (I := fun σ => σ.Sound [] ∧ σ.Keyed)
    (fun _ _ _ hI he hstep => ⟨hI.1.step he hstep, hI.2.step hI.1 he hstep⟩)
    ⟨Proc.sound_initWith b l, Proc.keyed_initWith hreg l⟩
  constructor
  · intro wr hwr
    have halloc : wr.wrId < σ.nalloc := hs.lt (i := .posted) (List.mem_map_of_mem hwr)
    exact (hkeyed.conns _ halloc _ (hs.posted wr hwr).1).2
  · intro wr hwr
    cases hread : wr.isRead with
    | false =>
      have halloc := hs.lt (Proc.Sound.mem_sending hwr hread)
      exact (hkeyed.conns _ halloc _ (hs.sending wr hwr hread).1).2
    | true =>
      have halloc := hs.lt (Proc.Sound.mem_reading hwr hread)
      obtain ⟨a, r, -, -, -, hconn, -⟩ := hs.reading wr hwr hread
      exact (hkeyed.conns _ halloc _ hconn).2

/-- Ranks 0 and 1 are connected in the protection domains 0 and 1. -/
def Links.twoDomains : Links where
  conns c := ⟨c, c⟩
  nconn := 2
  peers rank := if rank = 0 then ⟨some 0, true, false⟩ else if rank = 1 then ⟨some 1, true, false⟩ else ⟨none, false, false⟩
  dctx := some ⟨0, 0⟩
  hstbItop := ((Hashtable.create 16).add 0 0).add 1 1
  cm _ := .accepted
  peers_lt rank c hc := by
    split at hc
    · cases hc
      decide
    · split at hc
      · cases hc
        decide
      · cases hc

theorem Boot.zeroed_exactly : RegistersExactly Boot.zeroed.ibvRegMr := by
  intro regs pd addr size
  refine ⟨rfl, rfl, ?_⟩
  simp only [Boot.zeroed, BitVec.toNat_setWidth]
  omega

/-- Both connections are established, and each sends. The query that the first send gave back is of no use for
the second. -/
theorem posted_keyed_two : ∃ σ, RegistersExactly Boot.zeroed.ibvRegMr ∧
    Path Proc.step (fun _ e => e.FromPeer) (Proc.initWith Boot.zeroed Links.twoDomains)
      [.established 0, .established 1, .isend ⟨⟨0, 0⟩, 1, fmiByte, 0, 5, fmiCommWorld, 0, 0⟩, .wcSend 0,
        .isend ⟨⟨0, 0⟩, 1, fmiByte, 1, 5, fmiCommWorld, 1, 0⟩] σ ∧
    σ.rq.length = 20 ∧ σ.sq.map (fun wr => (wr.conn, wr.wrId)) = [(1, 21)] ∧ σ.freeQueryQ = [20] ∧
    (∀ wr ∈ σ.rq, (σ.queries wr.wrId).msgMr.Keys (σ.conns wr.conn).pd wr.wrId) ∧
      ∀ wr ∈ σ.sq, (σ.queries wr.wrId).msgMr.Keys (σ.conns wr.conn).pd wr.wrId := by
  obtain ⟨σ, h, hσ⟩ := exists_path_of_runWhile Proc.step (fun _ e => e.FromPeer)
    (Proc.initWith Boot.zeroed Links.twoDomains)
    [.established 0, .established 1, .isend ⟨⟨0, 0⟩, 1, fmiByte, 0, 5, fmiCommWorld, 0, 0⟩, .wcSend 0,
      .isend ⟨⟨0, 0⟩, 1, fmiByte, 1, 5, fmiCommWorld, 1, 0⟩]
    (fun σ => decide (σ.rq.length = 20 ∧ σ.sq.map (fun wr => (wr.conn, wr.wrId)) = [(1, 21)] ∧ σ.freeQueryQ = [20]))
    (by decide +kernel)
  obtain ⟨hrq, hsq, hfree⟩ := of_decide_eq_true hσ
  exact ⟨σ, Boot.zeroed_exactly, h, hrq, hsq, hfree, posted_keyed Boot.zeroed_exactly h⟩

end Libibtl
