import Libibtl.Attribution
import Libibtl.Network

/-! # What a step of a process changes in a network

`Node.Sound` is the invariant of a process of a network. Its steps change what has
arrived, what has been sent, what the adaptor has not begun, which rendezvous
messages the process still owes an answer and which answers it has received, and
each of them on one connection only.
-/

namespace Libibtl

open Foundation

noncomputable instance : DecidableEq Letter := Classical.decEq Letter

noncomputable instance : DecidableEq Receipt := Classical.decEq Receipt

namespace Letter

/-- The control part of a letter, as the poller leaves it in the query. -/
def ctl (m : Letter) : Ctl := { m.wire.ctl with rank := uint64OfInt m.rank }

/-- A query that carries the letter. -/
structure Carried (m : Letter) (x : Query) : Prop where
  conn : x.conn = some m.conn
  ctl : x.msg.toCtl = m.ctl
  payload : ∀ k < m.wire.payloadLen, x.msg.eagerBuff k = m.wire.payload k

def envelope (m : Letter) : Envelope := ⟨m.wire.ctl.commId, m.rank, intOfUint64 m.wire.ctl.tag⟩

def naming : Naming Letter Receipt where
  message := Carried
  receive r := Proc.Receives r.source r.prm
  menv := envelope
  renv r := r.prm.envelope r.source
  message_envelope m x h := by
    rw [h.ctl]
    simp [Letter.ctl, Ctl.envelope, envelope]
  receive_envelope r x h := h.envelope

end Letter

namespace SendWr

/-- The message of a SEND. -/
def wire? (wr : SendWr) : Option Wire :=
  match wr.op with
  | .send w => some w
  | .rdmaRead _ _ => none

@[simp] theorem wire?_send (c : ConnId) (q : QueryId) (w : Wire) : wire? ⟨c, q, .send w⟩ = some w := rfl

@[simp] theorem wire?_rdmaRead (c : ConnId) (q : QueryId) (sge : Sge) (remote : Place) :
    wire? ⟨c, q, .rdmaRead sge remote⟩ = none := rfl

end SendWr

/-! ## The send queue -/

/-- The messages in the send queue of a connection that are not on their way yet. -/
def unsentIn (sq : List SendWr) (begun : ConnId → Nat) (c : ConnId) : List Wire :=
  ((sq.filter (·.conn = c)).drop (begun c)).filterMap SendWr.wire?

/-- The outstanding RDMA reads of a connection. -/
def readsIn (sq : List SendWr) (c : ConnId) : Nat := sq.countP fun wr => wr.isRead ∧ wr.conn = c

section SendQueue

variable {sq : List SendWr} {begun : ConnId → Nat} {wr : SendWr} {c : ConnId}

theorem filter_conn_eraseP (hwr : sq.find? (·.conn = c) = some wr) (d : ConnId) :
    sq.filter (·.conn = d) =
      (if d = c then [wr] else []) ++ (sq.eraseP (·.conn = c)).filter (·.conn = d) := by
  obtain ⟨hp, l₁, l₂, hl, he, hnone⟩ := Queue.split_of_find? hwr
  have hconn : wr.conn = c := by simpa using hp
  rw [he, hl]
  split
  · next hd =>
    subst hd
    have hnil : l₁.filter (·.conn = d) = [] := List.filter_eq_nil_iff.2 fun y hy => by simpa using hnone y hy
    simp [hnil, hconn]
  · next hd => simp [hconn, Ne.symm hd]

theorem unsentIn_concat (hbegun : ∀ d, begun d ≤ (sq.filter (·.conn = d)).length) (d : ConnId) :
    unsentIn (sq ++ [wr]) begun d = unsentIn sq begun d ++ if d = wr.conn then wr.wire?.toList else [] := by
  rw [unsentIn, List.filter_append, List.drop_append_of_le_length (hbegun d), List.filterMap_append, unsentIn]
  congr 1
  by_cases hd : d = wr.conn
  · subst hd
    cases hw : wr.wire? <;> simp [hw]
  · simp [hd, Ne.symm hd]

/-- A request that completes was begun, so what is not on its way stays the same. -/
theorem unsentIn_eraseP (hwr : sq.find? (·.conn = c) = some wr) (hpos : 0 < begun c) (d : ConnId) :
    unsentIn (sq.eraseP (·.conn = c)) (Function.update begun c (begun c - 1)) d = unsentIn sq begun d := by
  rw [unsentIn, unsentIn, filter_conn_eraseP hwr d]
  by_cases hd : d = c
  · subst hd
    obtain ⟨k, hk⟩ : ∃ k, begun d = k + 1 := ⟨begun d - 1, by omega⟩
    simp [hk]
  · simp [hd]

theorem begun_eraseP (hbegun : ∀ d, begun d ≤ (sq.filter (·.conn = d)).length)
    (hwr : sq.find? (·.conn = c) = some wr) (d : ConnId) :
    Function.update begun c (begun c - 1) d ≤ ((sq.eraseP (·.conn = c)).filter (·.conn = d)).length := by
  have h := hbegun d
  rw [filter_conn_eraseP hwr d] at h
  by_cases hd : d = c
  · subst hd
    simp only [if_pos, List.singleton_append, List.length_cons, Function.update_self] at h ⊢
    omega
  · simpa [hd] using h

theorem begun_concat (hbegun : ∀ d, begun d ≤ (sq.filter (·.conn = d)).length) (d : ConnId) :
    begun d ≤ ((sq ++ [wr]).filter (·.conn = d)).length := by
  rw [List.filter_append, List.length_append]
  exact Nat.le_add_right_of_le (hbegun d)

theorem readsIn_concat (d : ConnId) :
    readsIn (sq ++ [wr]) d = readsIn sq d + if wr.isRead ∧ d = wr.conn then 1 else 0 := by
  rw [readsIn, List.countP_append, List.countP_singleton, readsIn]
  simp only [decide_eq_true_eq, @eq_comm _ d]

theorem readsIn_eraseP (hwr : sq.find? (·.conn = c) = some wr) (d : ConnId) :
    readsIn (sq.eraseP (·.conn = c)) d + (if wr.isRead ∧ d = c then 1 else 0) = readsIn sq d := by
  obtain ⟨hp, l₁, l₂, hl, he, -⟩ := Queue.split_of_find? hwr
  have hconn : wr.conn = c := by simpa using hp
  rw [he, hl]
  by_cases hd : d = c
  · subst hd
    simp only [readsIn, List.countP_append, List.countP_cons, hconn, decide_eq_true_eq]
    omega
  · simp [readsIn, hconn, hd, Ne.symm hd]

end SendQueue

/-! ## The queue of arrived messages -/

/-- A rendezvous message of the connection `c`. -/
def Letter.rendezvousOn (c : ConnId) (m : Letter) : Bool := m.conn = c ∧ m.wire.ctl.opcode = .rdmaRead

namespace Log

variable (l : Log Letter Receipt) {τ : Proc}

/-- The rendezvous messages of a connection that wait for a receive. -/
def waitingOn (c : ConnId) : Nat := (l.proc.aq.map l.msgAt).countP (Letter.rendezvousOn c)

variable {l}

theorem lettersOn_record_inl (m : Letter) (d : ConnId) :
    (l.record τ (some (.inl m))).lettersOn d = l.lettersOn d ++ if d = m.conn then [m] else [] := by
  rw [lettersOn, record_history, arrivals_concat_inl, List.filter_append, lettersOn]
  congr 1
  by_cases hd : d = m.conn
  · simp [hd]
  · simp [hd, Ne.symm hd]

theorem lettersOn_record_inr (r : Receipt) (d : ConnId) :
    (l.record τ (some (.inr r))).lettersOn d = l.lettersOn d := by
  rw [lettersOn, record_history, arrivals_concat_inr, lettersOn]

theorem waitingOn_idle (haq : τ.aq = l.proc.aq) (d : ConnId) : (l.record τ none).waitingOn d = l.waitingOn d := by
  simp only [waitingOn, record, haq]

theorem waitingOn_awaited {p : QueryId} {r : Receipt} (haq : τ.aq = l.proc.aq) (hpq : τ.pq = l.proc.pq ++ [p])
    (d : ConnId) : (l.record τ (some (.inr r))).waitingOn d = l.waitingOn d := by
  rw [record_awaited haq hpq]
  simp only [waitingOn, haq]

theorem waitingOn_paired {p : QueryId} {m : Letter} (hn : l.proc.pq.Nodup) (hp : p ∈ l.proc.pq)
    (haq : τ.aq = l.proc.aq) (hpq : τ.pq = l.proc.pq.erase p) (d : ConnId) :
    (l.record τ (some (.inl m))).waitingOn d = l.waitingOn d := by
  rw [record_paired hn hp hpq]
  simp only [waitingOn, haq]

theorem waitingOn_stored {a : QueryId} {m : Letter} (ha : a ∉ l.proc.aq) (haq : τ.aq = l.proc.aq ++ [a])
    (hpq : τ.pq = l.proc.pq) (d : ConnId) :
    (l.record τ (some (.inl m))).waitingOn d = l.waitingOn d + if m.rendezvousOn d then 1 else 0 := by
  rw [record_stored haq hpq]
  simp only [waitingOn, haq, Logged.map_update ha, List.countP_append, List.countP_singleton]

theorem waitingOn_received {a : QueryId} {r : Receipt} (hn : l.proc.aq.Nodup) (ha : a ∈ l.proc.aq)
    (haq : τ.aq = l.proc.aq.erase a) (d : ConnId) :
    (l.record τ (some (.inr r))).waitingOn d + (if (l.msgAt a).rendezvousOn d then 1 else 0) = l.waitingOn d := by
  rw [record_received hn ha haq]
  simp only [waitingOn, haq]
  have hperm := ((List.perm_cons_erase ha).map l.msgAt).countP_eq (Letter.rendezvousOn d)
  rw [hperm, List.map_cons, List.countP_cons]

end Log

namespace Node

def unsent (n : Node) : ConnId → List Wire := unsentIn n.proc.sq n.begun

/-- The rendezvous messages of a connection that wait for a receive or are being read. -/
def owed (n : Node) (c : ConnId) : Nat := n.log.waitingOn c + readsIn n.proc.sq c

structure Sound (n : Node) : Prop where
  sound : n.proc.Sound []
  registered : n.proc.Registered
  logged : Logged Letter.naming n.log
  sends : n.proc.SendsToPeers
  letters : ∀ c, (n.log.lettersOn c).map Letter.index = List.range (n.log.lettersOn c).length
  receipts : (posts n.log.history).map Receipt.index = List.range (posts n.log.history).length
  begun : ∀ c, n.begun c ≤ (n.proc.sq.filter (·.conn = c)).length

/-- A step from `n` to `n'` has changed at most the connection `c`. -/
structure Changes (n n' : Node) (c : ConnId) (letters : List Letter) (sent : List Sending) (unsent : List Wire)
    (less more answers : Nat) : Prop where
  letters : ∀ d, n'.log.lettersOn d = n.log.lettersOn d ++ if d = c then letters else []
  sent : ∀ d, n'.sent d = n.sent d ++ if d = c then sent else []
  unsent : ∀ d, n'.unsent d = n.unsent d ++ if d = c then unsent else []
  owed : ∀ d, n'.owed d + (if d = c then less else 0) = n.owed d + if d = c then more else 0
  answers : ∀ d, n'.answers d = n.answers d + if d = c then answers else 0

namespace Sound

theorem init (b : Boot) : (Node.init b).Sound where
  sound := Proc.Sound.init b
  registered := Proc.Registered.init b
  logged := ⟨List.nodup_nil, rfl, fun _ h => absurd h List.not_mem_nil, fun _ h => absurd h List.not_mem_nil⟩
  sends := fun _ h => absurd h List.not_mem_nil
  letters _ := rfl
  receipts := rfl
  begun _ := Nat.zero_le _

variable {n n' : Node} {e : Event} {σ' : Proc}

theorem index_lt (h : n.Sound) {m : Letter} (hm : Sum.inl m ∈ n.log.history) :
    m.index < (n.log.lettersOn m.conn).length := by
  have hmem : m ∈ n.log.lettersOn m.conn :=
    List.mem_filter.2 ⟨(mem_arrivals _ _).2 hm, decide_eq_true rfl⟩
  have hindex := List.mem_map_of_mem (f := Letter.index) hmem
  rw [h.letters] at hindex
  exact List.mem_range.1 hindex

theorem offer_new (h : n.Sound) {x : Letter ⊕ Receipt} (hx : n.offer e = some x) : x ∉ n.log.history := by
  intro hmem
  cases e with
  | wcRecv c w =>
    cases htype : w.ctl.type with
    | commInit =>
      simp only [offer, htype, Option.some.injEq] at hx
      subst hx
      exact Nat.lt_irrefl _ (h.index_lt hmem)
    | commFin => simp [offer, htype] at hx
  | irecv prm =>
    obtain ⟨source, -, rfl⟩ := Option.map_eq_some_iff.1 hx
    have hindex := List.mem_map_of_mem (f := Receipt.index) ((mem_posts _ _).2 hmem)
    rw [h.receipts] at hindex
    exact Nat.lt_irrefl _ (List.mem_range.1 hindex)
  | _ => cases hx

theorem carried_arrivedQuery {a : QueryId} {c : ConnId} (ha : (n.proc.queries a).conn = some c) (w : Wire) :
    (n.letter c w).Carried (n.proc.arrivedQuery c a w) := by
  refine ⟨ha, rfl, fun k hk => ?_⟩
  have hin : memcpy (n.proc.queries a).msg.eagerBuff 0 w.payload 0 w.payloadLen (0 + k) = w.payload (0 + k) :=
    memcpy_inside hk
  rwa [Nat.zero_add] at hin

theorem labels_offer (hq : n.proc.QueueMove e σ') : Letter.naming.Labels n.proc e (n.offer e) := by
  cases hq with
  | paired htype hsel haq hpq =>
    simp only [offer, htype]
    exact .arrival htype rfl fun a ha => carried_arrivedQuery ha _
  | stored htype hsel haq hpq hconn hx =>
    simp only [offer, htype]
    exact .arrival htype rfl fun a ha => carried_arrivedQuery ha _
  | received hsrc hsel haq hpq =>
    simp only [offer, hsrc, Option.map_some]
    exact .post hsrc rfl fun _ hx => hx
  | awaited hsrc hsel haq hpq hx =>
    simp only [offer, hsrc, Option.map_some]
    exact .post hsrc rfl fun _ hx => hx
  | idle he haq hpq =>
    cases e with
    | wcRecv c w =>
      have htype : w.ctl.type = .commFin := he
      simp only [offer, htype]
      exact .idle he
    | irecv prm => cases he
    | _ => exact .idle he

end Sound

/-! ## One step -/

section Step

variable {n n' : Node} {e : Event} {σ' : Proc}

theorem step_eq_some (h : n.step e = some n') : ∃ σ', n.proc.step e = some σ' ∧
    n' = ⟨n.log.record σ' (n.offer e), n.sentAfter e σ', n.begunAfter e, n.answersAfter e⟩ := by
  obtain ⟨σ', hσ', rfl⟩ := Option.map_eq_some_iff.1 h
  exact ⟨σ', hσ', rfl⟩

/-- The node that a step to the process state `σ'` leads to. -/
def after (n : Node) (e : Event) (σ' : Proc) : Node :=
  ⟨n.log.record σ' (n.offer e), n.sentAfter e σ', n.begunAfter e, n.answersAfter e⟩

@[simp] theorem after_proc : (n.after e σ').proc = σ' := Log.record_proc ..

theorem after_unsent : (n.after e σ').unsent = unsentIn σ'.sq (n.begunAfter e) := by
  rw [Node.unsent, after_proc]
  rfl

@[simp] theorem after_begun : (n.after e σ').begun = n.begunAfter e := rfl

@[simp] theorem after_answers : (n.after e σ').answers = n.answersAfter e := rfl

/-- A step that offers nothing and leaves both queues alone. -/
theorem changes_idle {τ : Proc} (hoffer : n.offer e = none) (haq : τ.aq = n.proc.aq) {c : ConnId} {sent : List Sending}
    {unsent : List Wire} {less answers : Nat} (hsent : ∀ d, n.sentAfter e τ d = n.sent d ++ if d = c then sent else [])
    (hunsent : ∀ d, unsentIn τ.sq (n.begunAfter e) d = n.unsent d ++ if d = c then unsent else [])
    (hreads : ∀ d, readsIn τ.sq d + (if d = c then less else 0) = readsIn n.proc.sq d)
    (hanswers : ∀ d, n.answersAfter e d = n.answers d + if d = c then answers else 0) :
    n.Changes (n.after e τ) c [] sent unsent less 0 answers where
  letters d := by
    simp only [after, hoffer, ite_self, List.append_nil]
    rfl
  sent := hsent
  unsent d := by
    rw [after_unsent, hunsent d]
  owed d := by
    have hwaiting := Log.waitingOn_idle (l := n.log) haq d
    have := hreads d
    simp only [owed, after_proc, ite_self, Nat.add_zero]
    simp only [after, hoffer, hwaiting]
    omega
  answers := hanswers

theorem ite_nil {α : Type*} (p : Prop) [Decidable p] (l : List α) : l = l ++ if p then [] else [] := by
  rw [ite_self, List.append_nil]

theorem changes_isend (h : n.Sound) {prm : SendParam} (ht : Transition n.proc (.isend prm) σ') :
    ∃ c w, w.ctl.type = .commInit ∧
      n.Changes (n.after (.isend prm) σ') c [] [⟨prm, n.proc.mem, w⟩] [w] 0 0 0 := by
  cases ht with
  | @launch _ c g wire hpeer hg hx =>
    obtain ⟨mr, eagerSize, hwire⟩ := hx.wire
    refine ⟨c, wire, by rw [hwire, Proc.sentCtl_type]; rfl,
      changes_idle (τ := n.proc.launch prm c g wire) rfl rfl ?_ ?_ ?_ ?_⟩
    · intro d
      have hlast : (n.proc.launch prm c g wire).sq.getLast? = some ⟨c, g.query, .send wire⟩ :=
        List.getLast?_concat
      simp only [sentAfter, hlast, Function.update_apply]
      split <;> simp_all
    · intro d
      exact unsentIn_concat h.begun d
    · intro d
      rw [Proc.launch_sq, readsIn_concat]
      simp
    · intro d
      simp [answersAfter]
  | link hl => cases hl

/-- A letter of the queue has the connection and the opcode of its query. -/
theorem rendezvousOn_msgAt (h : n.Sound) {a : QueryId} (ha : a ∈ n.proc.aq) {c : ConnId}
    (hconn : (n.proc.queries a).conn = some c) (d : ConnId) :
    (n.log.msgAt a).rendezvousOn d = decide (c = d ∧ (n.proc.queries a).msg.opcode = .rdmaRead) := by
  have hx : (n.log.msgAt a).Carried (n.proc.queries a) := h.logged.messages a ha
  have hc : (n.log.msgAt a).conn = c := Option.some.inj (hx.conn.symm.trans hconn)
  rw [Letter.rendezvousOn, hc, hx.ctl]
  rfl

theorem changes_irecv (h : n.Sound) {prm : RecvParam} (ht : Transition n.proc (.irecv prm) σ') :
    n.Changes (n.after (.irecv prm) σ') 0 [] [] [] 0 0 0 := by
  have hletters : ∀ {source}, commGetPrank prm.comm prm.source = some source →
      ∀ d, (n.after (.irecv prm) σ').log.lettersOn d = n.log.lettersOn d := by
    intro source hsrc d
    simp only [after, offer, hsrc, Option.map_some]
    exact Log.lettersOn_record_inr _ d
  have hofferEq : ∀ {source}, commGetPrank prm.comm prm.source = some source →
      (n.after (.irecv prm) σ').log =
        n.log.record σ' (some (.inr ⟨(posts n.log.history).length, source, prm⟩)) := by
    intro source hsrc
    simp only [after, offer, hsrc, Option.map_some]
  cases ht with
  | @accept _ source a hsrc hsel hop =>
    have ha : a ∈ n.proc.aq := List.mem_of_find?_eq_some hsel
    obtain ⟨⟨c, hconn⟩, -⟩ := h.sound.arrived a ha
    refine ⟨fun d => ?_, fun d => ite_nil _ _, fun d => ?_, fun d => ?_, fun d => by simp [answersAfter]⟩
    · rw [hletters hsrc]
      exact ite_nil _ _
    · rw [after_unsent]
      exact ite_nil _ _
    · have hwaiting := Log.waitingOn_received (l := n.log) (τ := n.proc.accept prm a)
        (r := ⟨(posts n.log.history).length, source, prm⟩) (h.sound.nodup .arrived) ha rfl d
      rw [rendezvousOn_msgAt h ha hconn, hop] at hwaiting
      simp only [owed, ite_self, Nat.add_zero, hofferEq hsrc]
      rw [after_proc]
      simp only [Proc.accept_sq]
      simp at hwaiting
      omega
  | @fetch _ source a c g hsrc hsel hop hconn hg hx hc hactive =>
    have ha : a ∈ n.proc.aq := List.mem_of_find?_eq_some hsel
    refine ⟨fun d => ?_, fun d => ite_nil _ _, fun d => ?_, fun d => ?_, fun d => by simp [answersAfter]⟩
    · rw [hletters hsrc]
      exact ite_nil _ _
    · rw [after_unsent]
      exact (unsentIn_concat h.begun d).trans (by simp [Node.unsent])
    · have hwaiting := Log.waitingOn_received (l := n.log) (τ := n.proc.fetch prm c a g)
        (r := ⟨(posts n.log.history).length, source, prm⟩) (h.sound.nodup .arrived) ha rfl d
      rw [rendezvousOn_msgAt h ha hconn, hop] at hwaiting
      simp only [owed, ite_self, Nat.add_zero, hofferEq hsrc]
      rw [after_proc, Proc.fetch_sq, readsIn_concat]
      simp [eq_comm] at hwaiting ⊢
      omega
  | @await _ source g hsrc hsel hg hx hepoch =>
    refine ⟨fun d => ?_, fun d => ite_nil _ _, fun d => ?_, fun d => ?_, fun d => by simp [answersAfter]⟩
    · rw [hletters hsrc]
      exact ite_nil _ _
    · rw [after_unsent]
      exact ite_nil _ _
    · have hwaiting := Log.waitingOn_awaited (l := n.log) (τ := n.proc.await prm g)
        (r := ⟨(posts n.log.history).length, source, prm⟩) rfl rfl d
      simp only [owed, ite_self, Nat.add_zero, hofferEq hsrc, hwaiting]
      rw [after_proc]
      rfl
  | link hl => cases hl

/-- An INIT message becomes a letter; a rendezvous message is owed an answer, whether it waits or is read at once. -/
theorem changes_init (h : n.Sound) {c : ConnId} {w : Wire} (htype : w.ctl.type = .commInit)
    (hs' : σ'.Sound []) (ht : Transition n.proc (.wcRecv c w) σ') :
    n.Changes (n.after (.wcRecv c w) σ') c [n.letter c w] [] [] 0
      (if w.ctl.opcode = .rdmaRead then 1 else 0) 0 := by
  have hlog : (n.after (.wcRecv c w) σ').log = n.log.record σ' (some (.inl (n.letter c w))) := by
    simp only [after, offer, htype]
  have hanswers : ∀ d, (n.after (.wcRecv c w) σ').answers d = n.answers d + if d = c then 0 else 0 := by
    intro d
    simp [answersAfter, htype]
  have hrendezvous : ∀ d, (n.letter c w).rendezvousOn d = decide (d = c ∧ w.ctl.opcode = .rdmaRead) := by
    exact fun d => decide_eq_decide.2 (and_congr eq_comm Iff.rfl)
  have hletters : ∀ d, (n.after (.wcRecv c w) σ').log.lettersOn d =
      n.log.lettersOn d ++ if d = c then [n.letter c w] else [] := by
    intro d
    rw [hlog, Log.lettersOn_record_inl]
    rfl
  have hunsent : σ'.sq = n.proc.sq →
      ∀ d, (n.after (.wcRecv c w) σ').unsent d = n.unsent d ++ if d = c then [] else [] := by
    intro hsq d
    rw [after_unsent, hsq]
    exact ite_nil _ _
  cases ht with
  | @deliver _ _ wr p r g _ hwr hsel hop hr hg hx =>
    refine ⟨hletters, fun d => ite_nil _ _, hunsent rfl, fun d => ?_, hanswers⟩
    have hwaiting := Log.waitingOn_paired (l := n.log) (m := n.letter c w)
      (τ := ((n.proc.arrive c wr.wrId w).deliver p wr.wrId r).refill c g)
      (h.sound.nodup .waiting) (List.mem_of_find?_eq_some hsel) rfl rfl d
    simp only [owed, hlog, hwaiting, hop]
    rw [after_proc]
    simp
  | @startRead _ _ wr p regs cached mr g _ hwr hsel hop hg hx =>
    refine ⟨hletters, fun d => ite_nil _ _, fun d => ?_, fun d => ?_, hanswers⟩
    · rw [after_unsent]
      exact (unsentIn_concat h.begun d).trans (by simp [Node.unsent])
    · have hwaiting := Log.waitingOn_paired (l := n.log) (m := n.letter c w)
        (τ := ((n.proc.arrive c wr.wrId w).startRead c p wr.wrId regs cached mr).refill c g)
        (h.sound.nodup .waiting) (List.mem_of_find?_eq_some hsel) rfl rfl d
      have hreads : readsIn (((n.proc.arrive c wr.wrId w).startRead c p wr.wrId regs cached mr).refill c g).sq d =
          readsIn n.proc.sq d + if d = c then 1 else 0 :=
        (readsIn_concat d).trans (by simp)
      simp only [owed, hlog, hwaiting, hop]
      rw [after_proc, hreads]
      simp [Nat.add_assoc]
  | @store _ _ wr g _ hwr hsel hg hx =>
    refine ⟨hletters, fun d => ite_nil _ _, hunsent rfl, fun d => ?_, hanswers⟩
    have ha : wr.wrId ∉ n.proc.aq := Logged.not_mem_of_nodup_concat (hs'.nodup .arrived)
    have hwaiting := Log.waitingOn_stored (l := n.log) (m := n.letter c w)
      (τ := ({ n.proc.arrive c wr.wrId w with aq := n.proc.aq ++ [wr.wrId] } : Proc).refill c g) ha rfl rfl d
    have hreads : readsIn (({ n.proc.arrive c wr.wrId w with aq := n.proc.aq ++ [wr.wrId] } : Proc).refill c g).sq d =
        readsIn n.proc.sq d := rfl
    rw [hrendezvous] at hwaiting
    simp only [owed, hlog, hwaiting]
    rw [after_proc, hreads]
    by_cases hd : d = c
    · simp only [hd, true_and, if_true, decide_eq_true_eq]
      omega
    · simp [hd]
  | finish hfin => exact absurd (htype.symm.trans hfin) (by decide)
  | link hl => cases hl

theorem changes_fin {c : ConnId} {w : Wire} (htype : w.ctl.type = .commFin)
    (ht : Transition n.proc (.wcRecv c w) σ') : n.Changes (n.after (.wcRecv c w) σ') c [] [] [] 0 0 1 := by
  have hfin : ∀ {p : Prop}, w.ctl.type = .commInit → p := fun hinit => absurd (hinit.symm.trans htype) (by decide)
  cases ht with
  | finish _ hwr hg hx =>
    apply changes_idle
    · simp [offer, htype]
    · rfl
    · exact fun d => ite_nil _ _
    · exact fun d => ite_nil _ _
    · exact fun d => by simp
    · intro d
      simp only [answersAfter, htype, Function.update_apply]
      split <;> simp_all
  | deliver hinit => exact hfin hinit
  | startRead hinit => exact hfin hinit
  | store hinit => exact hfin hinit
  | link hl => cases hl

theorem changes_sendDone {c : ConnId} (hbegun : 0 < n.begun c) (ht : Transition n.proc (.wcSend c) σ') :
    n.Changes (n.after (.wcSend c) σ') c [] [] [] 0 0 0 := by
  have hcase : ∀ {q : QueryId} {wire : Wire}, n.proc.sq.find? (·.conn = c) = some ⟨c, q, .send wire⟩ →
      σ'.aq = n.proc.aq → σ'.sq = n.proc.sq.eraseP (·.conn = c) →
      n.Changes (n.after (.wcSend c) σ') c [] [] [] 0 0 0 := by
    intro q wire hwr haq hsq
    apply changes_idle
    · rfl
    · exact haq
    · exact fun d => ite_nil _ _
    · intro d
      rw [hsq]
      exact (unsentIn_eraseP hwr hbegun d).trans (ite_nil _ _)
    · intro d
      have := readsIn_eraseP hwr d
      simp only [SendWr.isRead_send, Bool.false_eq_true, false_and, if_false, Nat.add_zero] at this
      rw [hsq, this, ite_self, Nat.add_zero]
    · exact fun d => by simp [answersAfter]
  cases ht with
  | sentEager hwr htype hop hr => exact hcase hwr rfl rfl
  | sentOther hwr hother => exact hcase hwr rfl rfl
  | link hl => cases hl

/-- The end of a read pays one owed answer with a FIN. -/
theorem changes_readDone (h : n.Sound) {c : ConnId} {data : Buffer} (hbegun : 0 < n.begun c)
    (ht : Transition n.proc (.wcRdmaRead c data) σ') :
    ∃ w, w.ctl.type = .commFin ∧ n.Changes (n.after (.wcRdmaRead c data) σ') c [] [] [w] 1 0 0 := by
  cases ht with
  | @readDone _ p a r sge remote _ msg wire hwr ha hr hmsg hwire =>
    refine ⟨wire, by rw [hwire, hmsg, Proc.sentCtl_type], ?_⟩
    apply changes_idle (τ := n.proc.readDone c p a r sge data msg wire)
    · rfl
    · rfl
    · exact fun d => ite_nil _ _
    · intro d
      rw [Proc.readDone_sq]
      refine (unsentIn_concat (begun_eraseP h.begun hwr) d).trans ?_
      rw [unsentIn_eraseP hwr hbegun d]
      simp [Node.unsent]
    · intro d
      have hread := readsIn_eraseP hwr d
      simp only [SendWr.isRead_rdmaRead, true_and] at hread
      rw [Proc.readDone_sq, readsIn_concat]
      simpa using hread
    · exact fun d => by simp [answersAfter]
  | link hl => cases hl

/-- A connection event changes nothing of it. -/
theorem changes_link (he : e.isLink) (ht : Transition n.proc e σ') : n.Changes (n.after e σ') 0 [] [] [] 0 0 0 := by
  have hcase : n.offer e = none → n.begunAfter e = n.begun → n.sentAfter e σ' = n.sent → n.answersAfter e = n.answers →
      σ'.aq = n.proc.aq → σ'.sq = n.proc.sq → n.Changes (n.after e σ') 0 [] [] [] 0 0 0 := by
    intro hoffer hbegun hsent hanswers haq hsq
    apply changes_idle hoffer haq
    · exact fun d => by rw [hsent]; exact ite_nil _ _
    · exact fun d => by rw [hbegun, hsq]; exact ite_nil _ _
    · exact fun d => by rw [hsq, ite_self, Nat.add_zero]
    · exact fun d => by rw [hanswers, ite_self, Nat.add_zero]
  cases ht with
  | link hl => cases hl <;> exact hcase rfl rfl rfl rfl rfl rfl
  | establish hcm hc hτ =>
    apply hcase rfl rfl rfl rfl
    · rw [hτ.rest]
      rfl
    · rw [hτ.rest]
      rfl
  | _ => cases he

theorem begun_after (h : n.Sound) (hflush : e ≠ .flush) (ht : Transition n.proc e σ') (c : ConnId) :
    n.begunAfter e c ≤ (σ'.sq.filter (·.conn = c)).length := by
  cases ht with
  | launch hpeer hg hx => exact begun_concat h.begun c
  | fetch hsrc hsel hop hconn hg hx hc ha => exact begun_concat h.begun c
  | startRead htype hwr hsel hop hg hx => exact begun_concat h.begun c
  | sentEager hwr htype hop hr => exact begun_eraseP h.begun hwr c
  | sentOther hwr hother => exact begun_eraseP h.begun hwr c
  | readDone hwr ha hr hmsg hwire => exact begun_concat (begun_eraseP h.begun hwr) c
  | accept hsrc hsel hop => exact h.begun c
  | await hsrc hsel hg hx hepoch => exact h.begun c
  | deliver htype hwr hsel hop hr hg hx => exact h.begun c
  | store htype hwr hsel hg hx => exact h.begun c
  | finish htype hwr hg hx => exact h.begun c
  | flush => exact absurd rfl hflush
  | link hl => cases hl <;> exact h.begun c
  | establish hcm hc hτ =>
    rw [hτ.rest]
    exact h.begun c

theorem indexed_concat {α : Type*} {f : α → Nat} {l : List α} {x : α} (h : l.map f = List.range l.length)
    (hx : f x = l.length) : (l ++ [x]).map f = List.range (l ++ [x]).length := by
  rw [List.map_append, h, List.length_append, List.length_singleton, List.range_succ, List.map_singleton, hx]

theorem Sound.letters_after (h : n.Sound) (e : Event) (σ' : Proc) (c : ConnId) :
    ((n.after e σ').log.lettersOn c).map Letter.index = List.range ((n.after e σ').log.lettersOn c).length := by
  simp only [after]
  rcases hoffer : n.offer e with _ | m | r
  · exact h.letters c
  · rw [Log.lettersOn_record_inl]
    split
    · next hc =>
      subst hc
      refine indexed_concat (h.letters m.conn) ?_
      cases e with
      | wcRecv c w =>
        cases htype : w.ctl.type with
        | commInit =>
          simp only [offer, htype, Option.some.injEq, Sum.inl.injEq] at hoffer
          subst hoffer
          rfl
        | commFin => simp [offer, htype] at hoffer
      | irecv prm =>
        obtain ⟨source, -, hr⟩ := Option.map_eq_some_iff.1 hoffer
        cases hr
      | _ => cases hoffer
    · rw [List.append_nil]
      exact h.letters c
  · rw [Log.lettersOn_record_inr]
    exact h.letters c

theorem Sound.receipts_after (h : n.Sound) (e : Event) (σ' : Proc) :
    (posts (n.after e σ').log.history).map Receipt.index = List.range (posts (n.after e σ').log.history).length := by
  simp only [after]
  rcases hoffer : n.offer e with _ | m | r
  · exact h.receipts
  · rw [Log.record_history, posts_concat_inl]
    exact h.receipts
  · rw [Log.record_history, posts_concat_inr]
    refine indexed_concat h.receipts ?_
    cases e with
    | wcRecv c w =>
      cases htype : w.ctl.type <;> simp [offer, htype] at hoffer
    | irecv prm =>
      obtain ⟨source, -, hr⟩ := Option.map_eq_some_iff.1 hoffer
      cases hr
      rfl
    | _ => cases hoffer

/-- The invariant of a process of a network. -/
theorem Sound.step (h : n.Sound) (hpeer : e.FromPeer) (hflush : e ≠ .flush) (hstep : n.step e = some n') :
    ∃ σ', Transition n.proc e σ' ∧ n' = n.after e σ' ∧ n'.Sound := by
  obtain ⟨σ', hσ', rfl⟩ := step_eq_some hstep
  have ht := Proc.transition_of_step h.sound.toOwned h.sound.toWired hpeer hσ'
  have hq := Proc.queueMove_of_transition h.sound hpeer hflush ht
  refine ⟨σ', ht, rfl, ?_⟩
  constructor
  · rw [← after, after_proc]
    exact h.sound.transition hpeer ht
  · rw [← after, after_proc]
    exact h.registered.transition ht
  · exact h.logged.transition h.sound hpeer hflush ht (labels_offer hq) fun _ hx => h.offer_new hx
  · rw [← after, after_proc]
    exact h.sends.transition h.sound.epoch ht
  · exact h.letters_after e σ'
  · exact h.receipts_after e σ'
  · rw [← after, after_proc]
    exact begun_after h hflush ht

end Step

end Node

end Libibtl
