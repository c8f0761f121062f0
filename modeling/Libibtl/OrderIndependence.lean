import Libibtl.Traffic

/-! # Order independence

Everything that a pair leaves behind is determined by the pair, not by the path on
which it was completed: the same request, the same bytes. With at most one partner
for everyone, the pairs are determined by the set, and so is the end of every run.
-/

namespace Libibtl

open Foundation

universe u v

variable {ι : Type u} {κ : Type v} {t : Traffic ι κ} {σ₀ : Proc} {items : List (ι ⊕ κ)}

namespace Traffic

section Contents

variable {σ σ' : Proc} {e : Event} {i : ι} {k : κ}

/-- A read that stays outstanding stays the read of its pair. -/
theorem Fetching.transition {wr : SendWr} {x : ι × κ} (h : t.Fetching σ₀ σ wr x) (hs : σ.Sound []) (hs' : σ'.Sound [])
    (ht : Transition σ e σ') (hwr : wr ∈ σ.sq) (hwr' : wr ∈ σ'.sq) (hread : wr.isRead = true) :
    t.Fetching σ₀ σ' wr x := by
  have hq := Proc.kept ht hs hs' (i := .reading) (by decide) (by decide) (Proc.Sound.mem_reading hwr hread)
    (Proc.Sound.mem_reading hwr' hread)
  obtain ⟨a, ha, hctl⟩ := h.active
  have ha' : (σ'.queries wr.wrId).activeQueryToFree = some a := by
    rw [hq]
    exact ha
  have hqa := Proc.kept ht hs hs' (i := .held) (by decide) (by decide) (Proc.Sound.mem_held hwr hread ha)
    (Proc.Sound.mem_held hwr' hread ha')
  refine ⟨h.conn, h.opcode, h.op, ?_, a, ha', ?_⟩
  · rw [hq]
    exact h.request
  · rw [hqa]
    exact hctl

theorem message_arrivedQuery (htables : σ.hstbItop = σ₀.hstbItop ∧ σ.conns = σ₀.conns) {a : QueryId}
    (hconn : (σ.queries a).conn = some (t.conn i)) : t.Message σ₀ i (σ.arrivedQuery (t.conn i) a (t.wire i)) := by
  refine ⟨hconn, ?_, fun j hj => ?_⟩
  · simp only [Proc.arrivedQuery, ctl, Proc.rmapItopGet, htables.1, htables.2]
  · change memcpy (σ.queries a).msg.eagerBuff 0 (t.wire i).payload 0 (t.wire i).payloadLen j = (t.wire i).payload j
    rw [memcpy, if_pos (by omega), Nat.zero_add, Nat.sub_zero]

theorem delivered_eager (hop : (t.wire i).ctl.opcode = .eager)
    (hfit : unpackSize (t.recv k).datatype (t.wire i).ctl.count ≤ (t.wire i).payloadLen) {x : Query}
    (hx : t.Message σ₀ i x) (b : Buffer) :
    unpackEager (t.recv k).datatype x.msg.count b (t.recv k).buf.off x.msg.eagerBuff = t.delivered i k b := by
  have hcount : x.msg.count = (t.wire i).ctl.count := by
    rw [hx.ctl]
    rfl
  rw [delivered, hop, hcount]
  exact unpackEager_congr fun j hj => hx.payload j (Nat.lt_of_lt_of_le hj hfit)

theorem copyEager_delivered (hop : (t.wire i).ctl.opcode = .eager)
    (hfit : unpackSize (t.recv k).datatype (t.wire i).ctl.count ≤ (t.wire i).payloadLen) {a : QueryId}
    (hx : t.Message σ₀ i (σ.queries a)) : (σ.copyEager (t.recv k).buf (t.recv k).datatype a).mem =
      Function.update σ.mem (t.recv k).buf.obj (t.delivered i k (σ.mem (t.recv k).buf.obj)) := by
  rw [← delivered_eager hop hfit hx]
  rfl

theorem Fetching.scatterRead {c : ConnId} {p : QueryId} {sge : Sge} {remote : Place} {x : ι × κ}
    (h : t.Fetching σ₀ σ ⟨c, p, .rdmaRead sge remote⟩ x) : (σ.scatterRead sge (t.remote c remote)).mem =
      Function.update σ.mem (t.recv x.2).buf.obj (t.delivered x.1 x.2 (σ.mem (t.recv x.2).buf.obj)) := by
  obtain ⟨sge', hop, haddr, hlength⟩ := h.op
  simp only [SendOp.rdmaRead.injEq] at hop
  obtain ⟨rfl, rfl⟩ := hop
  have hconn : c = t.conn x.1 := h.conn
  rw [delivered, h.opcode, Proc.scatterRead, haddr, hlength, hconn]
  rfl

theorem received_eq {c : Ctl} (h : c = t.ctl σ₀ i) (requests : ReqId → Request) (r : ReqId) :
    Proc.setReceived requests r c = Function.update requests r (t.received σ₀ i) := by
  rw [h]
  rfl

/-- A read as `fdmi_post_rdma_read` posts it for a receive that holds the message `a`. -/
theorem fetching_readSge {c : ConnId} {p a : QueryId} {y : Query} {remote : Place} (hconn : c = t.conn i)
    (hop : (t.wire i).ctl.opcode = .rdmaRead) (hy : Proc.Receives (t.source k) (t.recv k) y)
    (hremote : remote = (t.wire i).ctl.rdmaMr.addr) (hrequest : (σ.queries p).request = some (t.recv k).request)
    (hactive : (σ.queries p).activeQueryToFree = some a) (hctl : (σ.queries a).msg.toCtl = t.ctl σ₀ i) :
    t.Fetching σ₀ σ ⟨c, p, .rdmaRead (Proc.readSge y.msg) remote⟩ (i, k) := by
  refine ⟨hconn, hop, ⟨Proc.readSge y.msg, ?_, ?_, ?_⟩, hrequest, a, hactive, hctl⟩
  · rw [hremote]
  · rw [Proc.readSge, hy.addr]
  · rw [Proc.readSge, hy.dtype, hy.count]
    rfl

end Contents

variable [DecidableEq ι] [DecidableEq κ]

/-- The invariant of runs of a set. -/
structure Conforms (t : Traffic ι κ) (σ₀ : Proc) (items : List (ι ⊕ κ)) (l : Log ι κ) : Prop where
  sound : l.proc.Sound []
  logged : Logged (t.naming σ₀) l
  offered : ∀ x ∈ l.history, x ∈ items
  tables : l.proc.hstbItop = σ₀.hstbItop ∧ l.proc.conns = σ₀.conns
  fins : ∀ wr ∈ l.proc.sq, wr.isRead = false → (l.proc.queries wr.wrId).msg.type = .commFin
  books : ∃ done readOf, t.Books σ₀ l done readOf

/-! ## New pairs -/

section Pair

variable {l l' : Log ι κ} {i : ι} {k : κ} {done : List (ι × κ)} {readOf : QueryId → ι × κ}

theorem new_pair (hl : Logged (t.naming σ₀) l') (hoff : ∀ x ∈ l'.history, x ∈ items)
    (hpairs : l'.pairs = l.pairs ++ [(i, k)]) : (t.naming σ₀).ok i k = true ∧ i ∈ arrivals items ∧ k ∈ posts items ∧
      ∀ x ∈ l.pairs, x.2 ≠ k := by
  have hs := hl.settled
  have hmem : (i, k) ∈ l'.pairs := by
    rw [hpairs]
    exact List.mem_append_right _ List.mem_cons_self
  refine ⟨hs.matched _ hmem, ?_, ?_, fun x hx heq => ?_⟩
  · exact (mem_arrivals ..).2 (hoff _ ((mem_arrivals ..).1 (hs.arrived _ hmem)))
  · exact (mem_posts ..).2 (hoff _ ((mem_posts ..).1 (hs.posted _ hmem)))
  · have hn := hs.snd_nodup
    simp only [hpairs, List.map_append, List.map_singleton] at hn
    exact (List.nodup_append.1 hn).2.2 x.2 (List.mem_map_of_mem hx) k List.mem_cons_self heq

omit [DecidableEq ι] [DecidableEq κ] in
theorem Books.mem_pairs (hb : t.Books σ₀ l done readOf) : ∀ x ∈ done, x ∈ l.pairs :=
  fun _ hx => hb.pairs.mem_iff.2 (List.mem_append_left _ hx)

theorem Conforms.posted (hc : t.Conforms σ₀ items l) : ∀ x ∈ l.pairs, x.2 ∈ posts items :=
  fun x hx => (mem_posts ..).2 (hc.offered _ ((mem_posts ..).1 (hc.logged.settled.posted x hx)))

omit [DecidableEq ι] [DecidableEq κ] in
theorem Separate.apart (hsep : t.Separate σ₀ items) (hk : k ∈ posts items) {ks : List (ι × κ)}
    (hks : ∀ x ∈ ks, x.2 ∈ posts items) (hne : ∀ x ∈ ks, x.2 ≠ k) :
    (∀ x ∈ ks, (t.recv x.2).request ≠ (t.recv k).request) ∧ ∀ x ∈ ks, (t.recv x.2).buf.obj ≠ (t.recv k).buf.obj :=
  ⟨fun x hx heq => hne x hx (hsep.request _ (hks x hx) _ hk heq),
    fun x hx heq => hne x hx (hsep.buffer _ (hks x hx) _ hk heq)⟩

omit [DecidableEq ι] [DecidableEq κ] in
theorem perm_concat {α : Type*} {l a b : List α} (h : l.Perm (a ++ b)) (x : α) : (l ++ [x]).Perm ((a ++ [x]) ++ b) := by
  refine (h.append_right [x]).trans ?_
  rw [List.append_assoc, List.append_assoc]
  exact List.perm_append_comm.append_left a

end Pair

/-! ## Reads -/

section Reads

variable {l : Log ι κ} {σ' : Proc} {e : Event} {done : List (ι × κ)} {readOf : QueryId → ι × κ}

theorem Books.fetching_kept (hb : t.Books σ₀ l done readOf) (hc : t.Conforms σ₀ items l) (hs' : σ'.Sound [])
    (ht : Transition l.proc e σ') (hsq : ∀ wr ∈ σ'.sq, wr.isRead = true → wr ∈ l.proc.sq) :
    ∀ wr ∈ σ'.sq, wr.isRead = true → t.Fetching σ₀ σ' wr (readOf wr.wrId) := by
  intro wr hwr hread
  have hold := hsq wr hwr hread
  exact (hb.fetching wr hold hread).transition hc.sound hs' ht hold hwr hread

theorem Books.fetching_concat (hb : t.Books σ₀ l done readOf) (hc : t.Conforms σ₀ items l) (hs' : σ'.Sound [])
    (ht : Transition l.proc e σ') {wr : SendWr} {x : ι × κ} (hsq : σ'.sq = l.proc.sq ++ [wr])
    (hwr : t.Fetching σ₀ σ' wr x) (hnew : wr.wrId ∉ l.proc.reads) :
    ∀ y ∈ σ'.sq, y.isRead = true → t.Fetching σ₀ σ' y (Function.update readOf wr.wrId x y.wrId) := by
  intro y hy hread
  rcases List.mem_append.1 (hsq ▸ hy) with hold | hold
  · have hne : y.wrId ≠ wr.wrId := by
      intro heq
      exact hnew (heq ▸ Proc.Sound.mem_reading hold hread)
    rw [Function.update_of_ne hne]
    exact (hb.fetching y hold hread).transition hc.sound hs' ht hold hy hread
  · rw [List.mem_singleton.1 hold, Function.update_self]
    exact hwr

theorem Conforms.fins_kept (hc : t.Conforms σ₀ items l) (hs' : σ'.Sound []) (ht : Transition l.proc e σ')
    (hsq : ∀ wr ∈ σ'.sq, wr.isRead = false → wr ∈ l.proc.sq) :
    ∀ wr ∈ σ'.sq, wr.isRead = false → (σ'.queries wr.wrId).msg.type = .commFin := by
  intro wr hwr hsend
  have hold := hsq wr hwr hsend
  rw [Proc.kept ht hc.sound hs' (i := .sending) (by decide) (by decide) (Proc.Sound.mem_sending hold hsend)
    (Proc.Sound.mem_sending hwr hsend)]
  exact hc.fins wr hold hsend

end Reads

/-! ## The cases of a step -/

section Cases

variable {l l' : Log ι κ} {σ' : Proc} {e : Event} {done : List (ι × κ)} {readOf : QueryId → ι × κ} {i : ι} {k : κ}

theorem Books.copied (hb : t.Books σ₀ l done readOf) (hc : t.Conforms σ₀ items l) (hsep : t.Separate σ₀ items)
    (hfits : t.Fits σ₀ items) (hs' : σ'.Sound []) (ht : Transition l.proc e σ') (hl' : Logged (t.naming σ₀) l')
    (hoff : ∀ x ∈ l'.history, x ∈ items) (hproc : l'.proc = σ') (hpairs : l'.pairs = l.pairs ++ [(i, k)])
    (hop : (t.wire i).ctl.opcode = .eager) (hsq : σ'.sq = l.proc.sq) {requests : ReqId → Request}
    (hledger : t.Ledger σ₀ (posts l'.history) done requests l.proc.mem)
    (hrequests : σ'.requests = Function.update requests (t.recv k).request (t.received σ₀ i))
    (hmem : unpackSize (t.recv k).datatype (t.wire i).ctl.count ≤ (t.wire i).payloadLen → σ'.mem =
      Function.update l.proc.mem (t.recv k).buf.obj (t.delivered i k (l.proc.mem (t.recv k).buf.obj))) :
    t.Books σ₀ l' (done ++ [(i, k)]) readOf := by
  obtain ⟨hok, hi, hk, hne⟩ := new_pair (l := l) hl' hoff hpairs
  obtain ⟨hreqs, hobjs⟩ := hsep.apart hk (fun x hx => hc.posted x (hb.mem_pairs x hx))
    fun x hx => hne x (hb.mem_pairs x hx)
  refine ⟨?_, ?_, ?_⟩
  · rw [hpairs, hproc, Proc.reads, hsq]
    exact perm_concat hb.pairs _
  · rw [hproc]
    exact hb.fetching_kept hc hs' ht fun wr hwr _ => hsq ▸ hwr
  · rw [hproc, hrequests, hmem (hfits i hi k hk hok hop)]
    exact hledger.complete hreqs hobjs

theorem Books.started (hb : t.Books σ₀ l done readOf) (hc : t.Conforms σ₀ items l) (hs' : σ'.Sound [])
    (ht : Transition l.proc e σ') (hproc : l'.proc = σ') (hpairs : l'.pairs = l.pairs ++ [(i, k)])
    {c : ConnId} {p : QueryId} {sge : Sge} {remote : Place}
    (hsq : σ'.sq = l.proc.sq ++ [⟨c, p, .rdmaRead sge remote⟩])
    (hwr : t.Fetching σ₀ σ' ⟨c, p, .rdmaRead sge remote⟩ (i, k))
    (hledger : t.Ledger σ₀ (posts l'.history) done σ'.requests σ'.mem) :
    t.Books σ₀ l' done (Function.update readOf p (i, k)) := by
  have hreads : σ'.reads = l.proc.reads ++ [p] := by
    simp [Proc.reads, hsq, List.filter_cons]
  have hnew : p ∉ l.proc.reads := by
    refine Logged.not_mem_of_nodup_concat ?_
    rw [← hreads]
    exact hs'.nodup .reading
  refine ⟨?_, ?_, ?_⟩
  · rw [hpairs, hproc, hreads, Logged.map_update hnew, ← List.append_assoc]
    exact hb.pairs.append_right _
  · rw [hproc]
    exact hb.fetching_concat hc hs' ht hsq hwr hnew
  · rw [hproc]
    exact hledger

theorem Books.unpaired (hb : t.Books σ₀ l done readOf) (hc : t.Conforms σ₀ items l) (hs' : σ'.Sound [])
    (ht : Transition l.proc e σ') (hproc : l'.proc = σ') (hpairs : l'.pairs = l.pairs)
    (hreads : σ'.reads = l.proc.reads) (hsq : ∀ wr ∈ σ'.sq, wr.isRead = true → wr ∈ l.proc.sq)
    (hledger : t.Ledger σ₀ (posts l'.history) done σ'.requests σ'.mem) : t.Books σ₀ l' done readOf := by
  refine ⟨?_, ?_, ?_⟩
  · rw [hpairs, hproc, hreads]
    exact hb.pairs
  · rw [hproc]
    exact hb.fetching_kept hc hs' ht hsq
  · rw [hproc]
    exact hledger

end Cases

/-! ## Acts -/

section Acts

variable {l : Log ι κ} {σ' : Proc} {i : ι} {k : κ}

theorem Conforms.labels_arrival (hc : t.Conforms σ₀ items l) (htype : (t.wire i).ctl.type = .commInit) :
    (t.naming σ₀).Labels l.proc (.wcRecv (t.conn i) (t.wire i)) (some (.inl i)) := by
  refine .arrival htype ?_ fun a ha => message_arrivedQuery hc.tables ha
  simp only [naming, Proc.arrivalEnvelope, Proc.rmapItopGet, hc.tables.1, hc.tables.2]

omit [DecidableEq ι] [DecidableEq κ] in
theorem source_eq {source : CInt} (h : commGetPrank (t.recv k).comm (t.recv k).source = some source) :
    t.source k = source := by
  rw [Traffic.source, h, Option.getD_some]

omit [DecidableEq ι] [DecidableEq κ] in
theorem labels_post {σ : Proc} {source : CInt} (h : commGetPrank (t.recv k).comm (t.recv k).source = some source) :
    (t.naming σ₀).Labels σ (.irecv (t.recv k)) (some (.inr k)) := by
  rw [← source_eq h] at h
  exact .post h rfl fun _ hx => hx

omit [DecidableEq ι] [DecidableEq κ] in
theorem offered_record {τ : Proc} {x : ι ⊕ κ} (hoff : ∀ x ∈ l.history, x ∈ items) (hx : x ∈ items) :
    ∀ y ∈ (l.record τ (some x)).history, y ∈ items := by
  intro y hy
  rw [Log.record_history] at hy
  rcases List.mem_append.1 hy with hy | hy
  · exact hoff y hy
  · rw [List.mem_singleton.1 hy]
    exact hx

theorem books_arrival (hc : t.Conforms σ₀ items l) (hsep : t.Separate σ₀ items) (hfits : t.Fits σ₀ items)
    (hs' : σ'.Sound []) (ht : Transition l.proc (.wcRecv (t.conn i) (t.wire i)) σ')
    (htype : (t.wire i).ctl.type = .commInit) (hl' : Logged (t.naming σ₀) (l.record σ' (some (.inl i))))
    (hoff : ∀ x ∈ (l.record σ' (some (.inl i))).history, x ∈ items) :
    ∃ done readOf, t.Books σ₀ (l.record σ' (some (.inl i))) done readOf := by
  obtain ⟨done, readOf, hb⟩ := hc.books
  have hledger : t.Ledger σ₀ (posts (l.record σ' (some (.inl i))).history) done l.proc.requests l.proc.mem := by
    rw [Log.record_history, posts_concat_inl]
    exact hb.ledger
  have harrived : ∀ {wr : RecvWr}, l.proc.rq.find? (·.conn = t.conn i) = some wr →
      t.Message σ₀ i ((l.proc.arrive (t.conn i) wr.wrId (t.wire i)).queries wr.wrId) := by
    intro wr hwr
    rw [Proc.arrive_queries, Function.update_self]
    refine message_arrivedQuery hc.tables ?_
    rw [(hc.sound.posted wr (List.mem_of_find?_eq_some hwr)).1]
    simpa using List.find?_some hwr
  have hne : ∀ {wr : RecvWr} {p : QueryId}, l.proc.rq.find? (·.conn = t.conn i) = some wr → p ∈ l.proc.pq →
      p ≠ wr.wrId := by
    rintro wr p hwr hp rfl
    exact hc.sound.not_mem_of_ne (i := .posted) (j := .waiting) (Proc.mem_posted_of_find hwr) (by decide) hp
  have ht' := ht
  cases ht with
  | @deliver _ _ wr p r g _ hwr hsel hop hr hg hx =>
    have hp := List.mem_of_find?_eq_some hsel
    have hrecv := hc.logged.receives p hp
    have hpw := hne hwr hp
    have hpnodup : l.proc.pq.Nodup := hc.sound.nodup .waiting
    rw [Log.record_paired hpnodup hp rfl] at hl' hoff hledger ⊢
    refine ⟨_, _, hb.copied hc hsep hfits hs' ht' hl' hoff rfl rfl hop rfl hledger ?_ fun hfit => ?_⟩
    · have hreq : r = (t.recv (l.recvAt p)).request := Option.some.inj (hr.symm.trans hrecv.request)
      subst hreq
      exact received_eq (harrived hwr).ctl _ _
    · change ((l.proc.arrive (t.conn i) wr.wrId (t.wire i)).copyEager _ _ wr.wrId).mem = _
      rw [Proc.arrive_queries, Function.update_of_ne hpw, hrecv.addr, hrecv.dtype]
      exact copyEager_delivered hop hfit (harrived hwr)
  | @startRead _ _ wr p regs cached mr g _ hwr hsel hop hg hx =>
    have hp := List.mem_of_find?_eq_some hsel
    have hrecv := hc.logged.receives p hp
    have hpw := hne hwr hp
    have hpnodup : l.proc.pq.Nodup := hc.sound.nodup .waiting
    rw [Log.record_paired hpnodup hp rfl] at hl' hoff hledger ⊢
    refine ⟨_, _, hb.started hc hs' ht' rfl rfl rfl ?_ hledger⟩
    have hgrab : l.proc.Grabs g := hg
    have hpg : p ≠ g.query := by
      rintro rfl
      exact hc.sound.not_mem_of_grabs (i := .waiting) hgrab (by decide) hp
    have hag : wr.wrId ≠ g.query := by
      intro heq
      exact hc.sound.not_mem_of_grabs (i := .posted) hgrab (by decide) (heq ▸ Proc.mem_posted_of_find hwr)
    have hxp : (l.proc.arrive (t.conn i) wr.wrId (t.wire i)).queries p = l.proc.queries p :=
      Function.update_of_ne hpw ..
    refine fetching_readSge rfl hop (hxp ▸ hrecv) ?_ ?_ (a := wr.wrId) ?_ ?_
    · rw [(harrived hwr).ctl]
      rfl
    · simp only [Proc.refill_queries, Proc.grab_queries, Function.update_of_ne hpg, Proc.startRead_queries,
        Function.update_self, hxp]
      exact hrecv.request
    · simp only [Proc.refill_queries, Proc.grab_queries, Function.update_of_ne hpg, Proc.startRead_queries,
        Function.update_self]
    · simp only [Proc.refill_queries, Proc.grab_queries, Function.update_of_ne hag, Proc.startRead_queries,
        Function.update_of_ne hpw.symm]
      exact (harrived hwr).ctl
  | @store _ _ wr g _ hwr hsel hg hx =>
    have haq : (({ l.proc.arrive (t.conn i) wr.wrId (t.wire i) with aq := l.proc.aq ++ [wr.wrId] } : Proc).refill
      (t.conn i) g).aq = l.proc.aq ++ [wr.wrId] := rfl
    rw [Log.record_stored haq rfl] at hl' hoff hledger ⊢
    exact ⟨_, _, hb.unpaired hc hs' ht' rfl rfl rfl (fun _ hwr _ => hwr) hledger⟩
  | finish hfin hwr hg hx =>
    rw [htype] at hfin
    cases hfin
  | link hl => cases hl

theorem books_post (hc : t.Conforms σ₀ items l) (hsep : t.Separate σ₀ items) (hfits : t.Fits σ₀ items)
    (hs' : σ'.Sound []) (ht : Transition l.proc (.irecv (t.recv k)) σ') (hk : k ∈ posts items)
    (hnew : Sum.inr k ∉ l.history) (hl' : Logged (t.naming σ₀) (l.record σ' (some (.inr k))))
    (hoff : ∀ x ∈ (l.record σ' (some (.inr k))).history, x ∈ items) :
    ∃ done readOf, t.Books σ₀ (l.record σ' (some (.inr k))) done readOf := by
  obtain ⟨done, readOf, hb⟩ := hc.books
  have hposted : ∀ k' ∈ posts l.history, k' ∈ posts items ∧ k' ≠ k := by
    intro k' hk'
    rw [mem_posts] at hk'
    refine ⟨(mem_posts ..).2 (hc.offered _ hk'), ?_⟩
    rintro rfl
    exact hnew hk'
  have hdone : ∀ x ∈ done, (t.recv x.2).request ≠ (t.recv k).request := by
    intro x hx heq
    obtain ⟨hitem, hne⟩ := hposted x.2 (hc.logged.settled.posted x (hb.mem_pairs x hx))
    exact hne (hsep.request _ hitem _ hk heq)
  have hledger : t.Ledger σ₀ (posts (l.record σ' (some (.inr k))).history) done
      (Proc.setPending l.proc.requests (t.recv k).request) l.proc.mem := by
    rw [Log.record_history, posts_concat_inr]
    exact hb.ledger.post (fun k' hk' heq => (hposted k' hk').2 (hsep.request _ (hposted k' hk').1 _ hk heq)) hdone
  have ht' := ht
  cases ht with
  | @accept _ source a hsrc hsel hop =>
    have ha := List.mem_of_find?_eq_some hsel
    have hmessage := hc.logged.messages a ha
    have hanodup : l.proc.aq.Nodup := hc.sound.nodup .arrived
    have hop' : (t.wire (l.msgAt a)).ctl.opcode = .eager := by
      rw [← hop, hmessage.ctl]
      rfl
    rw [Log.record_received hanodup ha rfl] at hl' hoff hledger ⊢
    refine ⟨_, _, hb.copied hc hsep hfits hs' ht' hl' hoff rfl rfl hop' rfl hledger ?_ fun hfit =>
      copyEager_delivered hop' hfit hmessage⟩
    rw [Proc.setPending, Function.update_idem]
    exact received_eq hmessage.ctl _ _
  | @fetch _ source a c g hsrc hsel hop hconn hg hx hgc hga =>
    have ha := List.mem_of_find?_eq_some hsel
    have hmessage := hc.logged.messages a ha
    have hanodup : l.proc.aq.Nodup := hc.sound.nodup .arrived
    rw [Log.record_received hanodup ha rfl] at hl' hoff hledger ⊢
    refine ⟨_, _, hb.started hc hs' ht' rfl rfl rfl ?_ hledger⟩
    have hag : a ≠ g.query := by
      rintro rfl
      exact hc.sound.not_mem_of_grabs (i := .arrived) hg (by decide) ha
    refine fetching_readSge ?_ ?_ (source_eq hsrc ▸ hx) ?_ ?_ (a := a) ?_ ?_
    · exact Option.some.inj (hconn.symm.trans hmessage.conn)
    · rw [← hop, hmessage.ctl]
      rfl
    · rw [hmessage.ctl]
      rfl
    · rw [Proc.fetch_queries, Proc.grab_queries, Function.update_self]
      exact hx.request
    · rw [Proc.fetch_queries, Proc.grab_queries, Function.update_self]
      exact hga
    · rw [Proc.fetch_queries, Proc.grab_queries, Function.update_of_ne hag]
      exact hmessage.ctl
  | @await _ source g hsrc hsel hg hx hepoch =>
    have haq : (l.proc.await (t.recv k) g).aq = l.proc.aq := rfl
    have hpq : (l.proc.await (t.recv k) g).pq = l.proc.pq ++ [g.query] := rfl
    rw [Log.record_awaited haq hpq] at hl' hoff hledger ⊢
    exact ⟨_, _, hb.unpaired hc hs' ht' rfl rfl rfl (fun _ hwr _ => hwr) hledger⟩
  | link hl => cases hl

theorem books_sendDone (hc : t.Conforms σ₀ items l) (hs' : σ'.Sound []) {c : ConnId}
    (ht : Transition l.proc (.wcSend c) σ') : ∃ done readOf, t.Books σ₀ (l.record σ' none) done readOf := by
  obtain ⟨done, readOf, hb⟩ := hc.books
  have hreads : ∀ {q : QueryId} {wire : Wire}, l.proc.sq.find? (·.conn = c) = some ⟨c, q, .send wire⟩ →
      ((l.proc.sq.eraseP (·.conn = c)).filter SendWr.isRead).map SendWr.wrId = l.proc.reads := by
    intro q wire hwr
    obtain ⟨-, l₁, l₂, hl, he, -⟩ := Queue.split_of_find? hwr
    rw [he, Proc.reads, hl]
    simp
  have ht' := ht
  cases ht with
  | @sentEager _ q wire r hwr htype hop hr =>
    have hfin := hc.fins _ (List.mem_of_find?_eq_some hwr) rfl
    rw [htype] at hfin
    cases hfin
  | @sentOther _ q wire hwr hother =>
    exact ⟨_, _, hb.unpaired hc hs' ht' rfl rfl (hreads hwr) (fun _ hwr _ => List.mem_of_mem_eraseP hwr) hb.ledger⟩
  | link hl => cases hl

theorem books_readDone (hc : t.Conforms σ₀ items l) (hsep : t.Separate σ₀ items) (hs' : σ'.Sound []) {c : ConnId}
    {remote : Place} (hhead : ∃ p sge, l.proc.sq.find? (·.conn = c) = some ⟨c, p, .rdmaRead sge remote⟩)
    (ht : Transition l.proc (.wcRdmaRead c (t.remote c remote)) σ') :
    ∃ done readOf, t.Books σ₀ (l.record σ' none) done readOf := by
  obtain ⟨done, readOf, hb⟩ := hc.books
  have ht' := ht
  cases ht with
  | @readDone _ p a r sge remote' _ msg wire hwr ha hr hmsg hwire =>
    obtain ⟨p', sge', hhead⟩ := hhead
    simp only [hwr, Option.some.injEq, SendWr.mk.injEq, SendOp.rdmaRead.injEq, true_and] at hhead
    obtain ⟨-, -, rfl⟩ := hhead
    have hfetch := hb.fetching _ (List.mem_of_find?_eq_some hwr) rfl
    obtain ⟨-, l₁, l₂, hl, he, -⟩ := Queue.split_of_find? hwr
    have hreads : l.proc.reads.Perm (p :: (l.proc.readDone c p a r sge (t.remote c remote') msg wire).reads) := by
      simp only [Proc.reads, Proc.readDone_sq, he]
      rw [hl]
      simp [List.filter_cons]
    have hpairs : l.pairs.Perm ((done ++ [readOf p]) ++
        (l.proc.readDone c p a r sge (t.remote c remote') msg wire).reads.map readOf) := by
      refine hb.pairs.trans ?_
      rw [List.append_assoc]
      exact (hreads.map readOf).append_left done
    have hfresh : ∀ x ∈ done, x.2 ≠ (readOf p).2 := by
      intro x hx heq
      have hn := (hpairs.map Prod.snd).nodup_iff.1 hc.logged.settled.snd_nodup
      rw [List.map_append, List.map_append] at hn
      exact (List.nodup_append.1 (List.nodup_append.1 hn).1).2.2 _ (List.mem_map_of_mem hx) _ List.mem_cons_self heq
    have hk := hc.posted (readOf p) (hpairs.mem_iff.2 (by simp))
    obtain ⟨hreqs, hobjs⟩ := hsep.apart hk (fun x hx => hc.posted x (hb.mem_pairs x hx)) hfresh
    obtain ⟨a', ha', hctl⟩ := hfetch.active
    obtain rfl := Option.some.inj (ha.symm.trans ha')
    obtain rfl := Option.some.inj (hr.symm.trans hfetch.request)
    refine ⟨done ++ [readOf p], readOf, hpairs, ?_, ?_⟩
    · refine hb.fetching_kept hc hs' ht' fun wr hwr hread => ?_
      rcases List.mem_append.1 hwr with hold | hnew
      · exact List.mem_of_mem_eraseP hold
      · rw [List.mem_singleton.1 hnew] at hread
        cases hread
    · have hmem := hfetch.scatterRead
      change t.Ledger σ₀ (posts l.history) _ (Proc.setReceived l.proc.requests _ (l.proc.queries a).msg.toCtl)
        (l.proc.scatterRead sge (t.remote c remote')).mem
      rw [received_eq hctl, hmem]
      exact hb.ledger.complete hreqs hobjs
  | link hl => cases hl

theorem Conforms.arrival (hc : t.Conforms σ₀ items l) (hsep : t.Separate σ₀ items) (hfits : t.Fits σ₀ items)
    (hi : Sum.inl i ∈ items) (hnew : Sum.inl i ∉ l.history)
    (ht : Transition l.proc (.wcRecv (t.conn i) (t.wire i)) σ') :
    t.Conforms σ₀ items (l.record σ' (some (.inl i))) := by
  have hmem := (mem_arrivals items i).2 hi
  have htype := hsep.init i hmem
  have hpeer : Event.FromPeer (.wcRecv (t.conn i) (t.wire i)) := fun _ => hsep.sent i hmem
  have hs' := hc.sound.transition hpeer ht
  have hl' := hc.logged.transition hc.sound hpeer (by simp) ht (hc.labels_arrival htype) (by simpa using hnew)
  have hoff := offered_record (τ := σ') hc.offered hi
  have hbooks := books_arrival hc hsep hfits hs' ht htype hl' hoff
  refine ⟨by rwa [Log.record_proc], hl', hoff, ?_, ?_, hbooks⟩
  · rw [Log.record_proc]
    cases ht with
    | deliver _ _ _ _ _ _ _ | startRead _ _ _ _ _ _ | store _ _ _ _ _ | finish _ _ _ _ => exact hc.tables
    | link hl => cases hl
  · rw [Log.record_proc]
    refine hc.fins_kept hs' ht fun wr hwr hsend => ?_
    cases ht with
    | startRead _ _ _ _ _ _ =>
      rcases List.mem_append.1 hwr with hold | hold
      · exact hold
      · rw [List.mem_singleton.1 hold] at hsend
        cases hsend
    | deliver _ _ _ _ _ _ _ | store _ _ _ _ _ | finish _ _ _ _ => exact hwr
    | link hl => cases hl

theorem Conforms.post (hc : t.Conforms σ₀ items l) (hsep : t.Separate σ₀ items) (hfits : t.Fits σ₀ items)
    (hk : Sum.inr k ∈ items) (hnew : Sum.inr k ∉ l.history) (ht : Transition l.proc (.irecv (t.recv k)) σ') :
    t.Conforms σ₀ items (l.record σ' (some (.inr k))) := by
  have hpeer : Event.FromPeer (.irecv (t.recv k)) := trivial
  have hs' := hc.sound.transition hpeer ht
  have hlabel : (t.naming σ₀).Labels l.proc (.irecv (t.recv k)) (some (.inr k)) := by
    cases ht with
    | accept hsrc _ _ | fetch hsrc _ _ _ _ _ _ _ | await hsrc _ _ _ _ => exact labels_post hsrc
    | link hl => cases hl
  have hl' := hc.logged.transition hc.sound hpeer (by simp) ht hlabel (by simpa using hnew)
  have hoff := offered_record (τ := σ') hc.offered hk
  have hbooks := books_post hc hsep hfits hs' ht ((mem_posts items k).2 hk) hnew hl' hoff
  refine ⟨by rwa [Log.record_proc], hl', hoff, ?_, ?_, hbooks⟩
  · rw [Log.record_proc]
    cases ht with
    | accept _ _ _ | fetch _ _ _ _ _ _ _ _ | await _ _ _ _ _ => exact hc.tables
    | link hl => cases hl
  · rw [Log.record_proc]
    refine hc.fins_kept hs' ht fun wr hwr hsend => ?_
    cases ht with
    | fetch _ _ _ _ _ _ _ _ =>
      rcases List.mem_append.1 hwr with hold | hold
      · exact hold
      · rw [List.mem_singleton.1 hold] at hsend
        cases hsend
    | accept _ _ _ | await _ _ _ _ _ => exact hwr
    | link hl => cases hl

theorem Conforms.sendDone (hc : t.Conforms σ₀ items l) {c : ConnId} (ht : Transition l.proc (.wcSend c) σ') :
    t.Conforms σ₀ items (l.record σ' none) := by
  have hpeer : Event.FromPeer (.wcSend c) := trivial
  have hs' := hc.sound.transition hpeer ht
  have hl' := hc.logged.transition hc.sound hpeer (by simp) ht (.idle trivial) (by simp)
  refine ⟨hs', hl', hc.offered, ?_, ?_, books_sendDone hc hs' ht⟩
  · cases ht with
    | sentEager _ _ _ _ | sentOther _ _ => exact hc.tables
    | link hl => cases hl
  · refine hc.fins_kept hs' ht fun wr hwr hsend => ?_
    cases ht with
    | sentEager _ _ _ _ | sentOther _ _ => exact List.mem_of_mem_eraseP hwr
    | link hl => cases hl

theorem Conforms.readDone (hc : t.Conforms σ₀ items l) (hsep : t.Separate σ₀ items) {c : ConnId} {remote : Place}
    (hhead : ∃ p sge, l.proc.sq.find? (·.conn = c) = some ⟨c, p, .rdmaRead sge remote⟩)
    (ht : Transition l.proc (.wcRdmaRead c (t.remote c remote)) σ') : t.Conforms σ₀ items (l.record σ' none) := by
  have hpeer : Event.FromPeer (.wcRdmaRead c (t.remote c remote)) := trivial
  have hs' := hc.sound.transition hpeer ht
  have hl' := hc.logged.transition hc.sound hpeer (by simp) ht (.idle trivial) (by simp)
  refine ⟨hs', hl', hc.offered, ?_, ?_, books_readDone hc hsep hs' hhead ht⟩
  · cases ht with
    | readDone _ _ _ _ _ => exact hc.tables
    | link hl => cases hl
  · intro wr hwr hsend
    rw [Log.record_proc] at hwr ⊢
    have ht' := ht
    cases ht with
    | @readDone _ p a r sge remote' _ msg wire hfind ha hr hmsg hwire =>
      rcases List.mem_append.1 hwr with hold | hnew
      · have hold := List.mem_of_mem_eraseP hold
        rw [Proc.kept ht' hc.sound hs' (i := .sending) (by decide) (by decide)
          (Proc.Sound.mem_sending hold hsend) (Proc.Sound.mem_sending hwr hsend)]
        exact hc.fins wr hold hsend
      · rw [List.mem_singleton.1 hnew]
        rw [Proc.readDone_queries, Function.update_self]
        simp [hmsg]
    | link hl => cases hl

theorem Conforms.step {l' : Log ι κ} {a : Act ι κ} (hc : t.Conforms σ₀ items l) (hsep : t.Separate σ₀ items)
    (hfits : t.Fits σ₀ items) (ha : ∀ x, a.offer = some x → x ∈ items ∧ x ∉ l.history)
    (hstep : t.step l a = some l') : t.Conforms σ₀ items l' := by
  obtain ⟨e, he, hstep⟩ := Option.bind_eq_some_iff.1 hstep
  obtain ⟨σ', hσ', rfl⟩ := Option.map_eq_some_iff.1 hstep
  have hpeer : e.FromPeer := by
    cases a with
    | arrival i =>
      obtain rfl := Option.some.inj he
      exact fun _ => hsep.sent i ((mem_arrivals ..).2 (ha _ rfl).1)
    | post k =>
      obtain rfl := Option.some.inj he
      trivial
    | readDone c =>
      simp only [event] at he
      split at he
      · obtain rfl := Option.some.inj he
        trivial
      · cases he
    | sendDone c =>
      obtain rfl := Option.some.inj he
      trivial
  have ht := Proc.transition_of_step hc.sound.toOwned hc.sound.toWired hpeer hσ'
  cases a with
  | arrival i =>
    obtain rfl := Option.some.inj he
    exact hc.arrival hsep hfits (ha _ rfl).1 (ha _ rfl).2 ht
  | post k =>
    obtain rfl := Option.some.inj he
    exact hc.post hsep hfits (ha _ rfl).1 (ha _ rfl).2 ht
  | readDone c =>
    simp only [event] at he
    split at he
    · rename_i c' p sge remote hfind
      obtain rfl := Option.some.inj he
      have hconn : c' = c := by simpa using List.find?_some hfind
      exact hc.readDone hsep ⟨p, sge, hconn ▸ hfind⟩ ht
    · cases he
  | sendDone c =>
    obtain rfl := Option.some.inj he
    exact hc.sendDone ht

end Acts

/-! ## Runs -/

theorem Conforms.run {l l' : Log ι κ} {acts : List (Act ι κ)} (hc : t.Conforms σ₀ items l)
    (hsep : t.Separate σ₀ items) (hfits : t.Fits σ₀ items) (h : Path t.step (fun _ _ => True) l acts l')
    (hn : (l.history ++ acts.filterMap Act.offer).Nodup) (hoff : ∀ x ∈ acts.filterMap Act.offer, x ∈ items) :
    t.Conforms σ₀ items l' ∧ l'.history = l.history ++ acts.filterMap Act.offer := by
  induction h with
  | nil l => exact ⟨hc, (List.append_nil _).symm⟩
  | @cons l l₁ l' a acts _ hstep _ ih =>
    have hhistory : l₁.history ++ acts.filterMap Act.offer = l.history ++ (a :: acts).filterMap Act.offer := by
      obtain ⟨e, -, hstep⟩ := Option.bind_eq_some_iff.1 hstep
      obtain ⟨σ', -, rfl⟩ := Option.map_eq_some_iff.1 hstep
      cases hx : a.offer with
      | none =>
        rw [List.filterMap_cons, hx]
        rfl
      | some x => rw [List.filterMap_cons, hx, Log.record_history, List.append_assoc, List.singleton_append]
    have ha : ∀ x, a.offer = some x → x ∈ items ∧ x ∉ l.history := by
      intro x hx
      rw [List.filterMap_cons, hx] at hn hoff
      refine ⟨hoff x List.mem_cons_self, fun hmem => ?_⟩
      exact (List.nodup_append.1 hn).2.2 x hmem x List.mem_cons_self rfl
    obtain ⟨hc', hl'⟩ := ih (hc.step hsep hfits ha hstep) (hhistory ▸ hn) fun x hx => hoff x <| by
      rw [List.filterMap_cons]
      split
      · exact hx
      · exact List.mem_cons_of_mem _ hx
    exact ⟨hc', hl'.trans hhistory⟩

/-- Nothing waits to be matched, no read is outstanding and no message but a FIN is on its way out. -/
structure Quiet (σ : Proc) : Prop where
  aq : σ.aq = []
  pq : σ.pq = []
  sq : ∀ wr ∈ σ.sq, wr.isRead = false ∧ (σ.queries wr.wrId).msg.type = .commFin

variable [Inhabited ι] [Inhabited κ]

theorem Conforms.start (hs : σ₀.Sound []) (hquiet : Quiet σ₀) : t.Conforms σ₀ items (Log.start σ₀) := by
  refine ⟨hs, ⟨List.nodup_nil, ?_, ?_, ?_⟩, fun _ h => (nomatch h), ⟨rfl, rfl⟩,
    fun wr hwr _ => (hquiet.sq wr hwr).2, [], fun _ => default, ?_, ?_, .start⟩
  · simp only [Log.start, hquiet.aq, hquiet.pq]
    rfl
  · simp [Log.start, hquiet.aq]
  · simp [Log.start, hquiet.pq]
  · have hreads : σ₀.reads = [] := by
      rw [Proc.reads, List.filter_eq_nil_iff.2, List.map_nil]
      intro wr hwr
      simp [(hquiet.sq wr hwr).1]
    simp [Log.start, hreads]
  · intro wr hwr hread
    rw [(hquiet.sq wr hwr).1] at hread
    cases hread

/-- A run of the acts, in which every item of the set is offered once and every read completes. -/
structure Runs (t : Traffic ι κ) (σ₀ : Proc) (items : List (ι ⊕ κ)) (acts : List (Act ι κ)) (l : Log ι κ) : Prop where
  path : Path t.step (fun _ _ => True) (Log.start σ₀) acts l
  offers : (acts.filterMap Act.offer).Perm items
  reads : l.proc.reads = []

/-- The end of a run: its record, and the ledger of its pairs. -/
theorem Runs.ledger (hs : σ₀.Sound []) (hquiet : Quiet σ₀) (hsep : t.Separate σ₀ items) (hfits : t.Fits σ₀ items)
    {acts : List (Act ι κ)} {l : Log ι κ} (h : t.Runs σ₀ items acts l) : Logged (t.naming σ₀) l ∧
      l.history.Perm items ∧ ∃ done, l.pairs.Perm done ∧
        t.Ledger σ₀ (posts l.history) done l.proc.requests l.proc.mem := by
  have hn : (acts.filterMap Act.offer).Nodup := h.offers.nodup_iff.2 hsep.nodup
  have hstart : t.Conforms σ₀ items (Log.start σ₀) := .start hs hquiet
  obtain ⟨hc, hhistory⟩ := hstart.run hsep hfits h.path hn fun x hx => h.offers.mem_iff.1 hx
  obtain ⟨done, readOf, hb⟩ := hc.books
  have hpairs := hb.pairs
  rw [h.reads, List.map_nil, List.append_nil] at hpairs
  have hperm : l.history.Perm items := by
    rw [hhistory]
    exact h.offers
  exact ⟨hc.logged, hperm, done, hpairs, hb.ledger⟩

end Traffic

variable [DecidableEq ι] [DecidableEq κ] [Inhabited ι] [Inhabited κ]

instance (t : Traffic ι κ) (σ : Proc) (items : List (ι ⊕ κ)) : Decidable (t.Separate σ items) :=
  decidable_of_iff (_ ∧ _ ∧ _ ∧ _ ∧ _ ∧ _ ∧ _)
    ⟨fun ⟨h₁, h₂, h₃, h₄, h₅, h₆, h₇⟩ => ⟨h₁, h₂, h₃, h₄, h₅, h₆, h₇⟩,
      fun h => ⟨h.nodup, h.init, h.sent, h.request, h.buffer, h.receive, h.message⟩⟩

instance (t : Traffic ι κ) (σ : Proc) (items : List (ι ⊕ κ)) : Decidable (t.Fits σ items) :=
  inferInstanceAs (Decidable (∀ i ∈ arrivals items, ∀ k ∈ posts items, _ → _ → _))

/-- Memory in which the eager buffer of a query holds the number of the query. -/
def Boot.numbered : Boot :=
  { Boot.zeroed with queries := fun q =>
    let x := Boot.zeroed.queries q
    { x with msg := { x.msg with eagerBuff := fun _ => q } } }

end Libibtl
