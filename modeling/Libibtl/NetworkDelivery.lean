import Libibtl.NetworkSteps

/-! # Messages between processes

A network is an exchange of requests and answers over its connections: INIT messages
are the requests, FIN messages the answers, and a rendezvous message demands one.
Every happening is one move of the exchange, so that no message is lost, received
twice or overtaken on its connection, and every FIN answers one rendezvous message.
-/

namespace Libibtl

open Foundation

universe u

def Wire.isInit (w : Wire) : Bool := w.ctl.type = .commInit

def Wire.isRendezvous (w : Wire) : Bool := w.ctl.type = .commInit ∧ w.ctl.opcode = .rdmaRead

theorem Wire.isInit_eq_false {w : Wire} (h : w.ctl.type = .commFin) : w.isInit = false := by
  simp [isInit, h]

def Wire.kinds : Kinds Wire where
  request := isInit
  demands := isRendezvous
  request_of_demands w hw := by
    have : w.ctl.type = .commInit ∧ w.ctl.opcode = .rdmaRead := of_decide_eq_true hw
    exact decide_eq_true this.1

namespace Network

variable {ν : Type u}

/-- A network as its connections show it. -/
def exchange (s : Network ν) : Exchange (ν × ConnId) Wire where
  sent x := ((s.node x.1).sent x.2).map Sending.wire
  way x := s.flight x ++ (s.node x.1).unsent x.2
  arrived x := ((s.node x.1).log.lettersOn x.2).map Letter.wire
  owed x := (s.node x.1).owed x.2
  answers x := (s.node x.1).answers x.2

structure Sound (s : Network ν) : Prop where
  nodes : ∀ i, (s.node i).Sound
  wires : ∀ x, ∀ w ∈ s.flight x, w.FromPeer

theorem Sound.init (boot : ν → Boot) : (Network.init boot).Sound :=
  ⟨fun i => Node.Sound.init (boot i), fun _ _ h => absurd h List.not_mem_nil⟩

variable [DecidableEq ν] {W : Pairing (ν × ConnId)} {s s' : Network ν} {i : ν} {n : Node} {c : ConnId}

theorem setNode_node (i j : ν) (n : Node) : (s.setNode i n).node j = if j = i then n else s.node j := by
  exact Function.update_apply ..

theorem Sound.setNode (h : s.Sound) (hn : n.Sound) : (s.setNode i n).Sound := by
  refine ⟨fun j => ?_, h.wires⟩
  rw [setNode_node]
  split
  · exact hn
  · exact h.nodes j

/-- What is read off the processes changes at one end when one process changes at one connection. -/
theorem update_setNode {α : Type*} (g : ν × ConnId → Node → α) {v : α} (hself : g (i, c) n = v)
    (hother : ∀ d, d ≠ c → g (i, d) n = g (i, d) (s.node i)) :
    (fun x => g x ((s.setNode i n).node x.1)) = Function.update (fun x => g x (s.node x.1)) (i, c) v := by
  funext ⟨j, d⟩
  rw [Function.update_apply, setNode_node]
  by_cases hj : j = i
  · subst hj
    by_cases hd : d = c
    · subst hd
      simp [hself]
    · simp [hd, hother]
  · simp [hj]

theorem same_setNode {α : Type*} (g : ν × ConnId → Node → α) (h : ∀ d, g (i, d) n = g (i, d) (s.node i)) :
    (fun x => g x ((s.setNode i n).node x.1)) = fun x => g x (s.node x.1) := by
  funext ⟨j, d⟩
  rw [setNode_node]
  by_cases hj : j = i
  · subst hj
    simp [h]
  · simp [hj]

/-- The exchange after a step of one process. -/
theorem exchange_setNode {letters : List Letter} {sent : List Sending} {unsent : List Wire} {less more answers : Nat}
    (h : (s.node i).Changes n c letters sent unsent less more answers) : (s.setNode i n).exchange =
      { sent := Function.update s.exchange.sent (i, c) (s.exchange.sent (i, c) ++ sent.map Sending.wire)
        way := Function.update s.exchange.way (i, c) (s.exchange.way (i, c) ++ unsent)
        arrived := Function.update s.exchange.arrived (i, c) (s.exchange.arrived (i, c) ++ letters.map Letter.wire)
        owed := Function.update s.exchange.owed (i, c) (s.exchange.owed (i, c) + more - less)
        answers := Function.update s.exchange.answers (i, c) (s.exchange.answers (i, c) + answers) } := by
  apply Exchange.ext
  · apply update_setNode fun x n => (n.sent x.2).map Sending.wire
    · simp [h.sent, exchange]
    · exact fun d hd => by simp [h.sent, hd]
  · apply update_setNode fun x n => s.flight x ++ n.unsent x.2
    · simp [h.unsent, exchange]
    · exact fun d hd => by simp [h.unsent, hd]
  · apply update_setNode fun x n => (n.log.lettersOn x.2).map Letter.wire
    · simp [h.letters, exchange]
    · exact fun d hd => by simp [h.letters, hd]
  · apply update_setNode fun x n => n.owed x.2
    · have := h.owed c
      simp only [if_true] at this
      simp only [exchange]
      omega
    · intro d hd
      simpa [hd] using h.owed d
  · apply update_setNode fun x n => n.answers x.2
    · simp [h.answers, exchange]
    · exact fun d hd => by simp [h.answers, hd]

theorem exchange_quiet (h : (s.node i).Changes n c [] [] [] 0 0 0) : (s.setNode i n).exchange = s.exchange := by
  rw [exchange_setNode h]
  simp only [List.map_nil, List.append_nil, Nat.add_zero, Nat.sub_zero, Function.update_eq_self]

theorem exchange_flight (x : ν × ConnId) (l : List Wire) :
    ({ s with flight := Function.update s.flight x l } : Network ν).exchange =
      { s.exchange with way := Function.update s.exchange.way x (l ++ (s.node x.1).unsent x.2) } := by
  apply Exchange.ext <;> try rfl
  funext y
  simp only [exchange, Function.update_apply]
  split
  · next hy => rw [hy]
  · rfl

theorem Sound.flight (h : s.Sound) {x : ν × ConnId} {l : List Wire} (hl : ∀ w ∈ l, w.FromPeer) :
    ({ s with flight := Function.update s.flight x l } : Network ν).Sound := by
  refine ⟨h.nodes, fun y w hw => ?_⟩
  simp only [Function.update_apply] at hw
  split at hw
  · exact hl w hw
  · exact h.wires y w hw

/-! ## One happening -/

theorem write_sound (h : n.Sound) (obj : Nat) (b : Buffer) : (n.write obj b).Sound :=
  ⟨h.sound.user _ _ _ _ _, h.registered.of_sameTables ⟨rfl, rfl, rfl, rfl, rfl, rfl⟩ h.registered.posted,
    ⟨h.logged.1, h.logged.2, h.logged.3, h.logged.4⟩, h.sends, h.letters, h.receipts, h.begun⟩

theorem write_changes (n : Node) (obj : Nat) (b : Buffer) : n.Changes (n.write obj b) c [] [] [] 0 0 0 :=
  ⟨fun _ => Node.ite_nil _ _, fun _ => Node.ite_nil _ _, fun _ => Node.ite_nil _ _,
    fun _ => by simp only [ite_self]; rfl, fun _ => by simp only [ite_self]; rfl⟩

theorem fromPeer_of_isLocal {e : Event} (h : e.isLocal) : e.FromPeer := by
  cases e with
  | wcRecv c w => cases h
  | _ => trivial

theorem call_move (h : s.Sound) {e : Event} (hlocal : e.isLocal) (hflush : e ≠ .flush)
    (hstep : (s.node i).step e = some n) :
    n.Sound ∧ Exchange.Move W Wire.kinds s.exchange (s.setNode i n).exchange := by
  obtain ⟨σ', ht, rfl, hn⟩ := (h.nodes i).step (fromPeer_of_isLocal hlocal) hflush hstep
  refine ⟨hn, ?_⟩
  have hlink : e.isLink → Exchange.Move W Wire.kinds s.exchange (s.setNode i ((s.node i).after e σ')).exchange := by
    intro he
    rw [exchange_quiet (Node.changes_link he ht)]
    exact .idle _
  cases e with
  | isend prm =>
    obtain ⟨c, w, hw, hchanges⟩ := Node.changes_isend (h.nodes i) ht
    rw [exchange_setNode hchanges]
    simp only [List.map_nil, List.append_nil, Nat.add_zero, Nat.sub_zero, Function.update_eq_self, List.map_singleton]
    exact .send _ _ _ (decide_eq_true hw)
  | irecv prm =>
    rw [exchange_quiet (Node.changes_irecv (h.nodes i) ht)]
    exact .idle _
  | flush => exact absurd rfl hflush
  | wcRecv c w => cases hlocal
  | wcSend c => cases hlocal
  | wcRdmaRead c data => cases hlocal
  | connect rank id => exact hlink rfl
  | connectRequest id verbs pd => exact hlink rfl
  | addrResolved id verbs pd => exact hlink rfl
  | routeResolved id => exact hlink rfl
  | established id => exact hlink rfl

section Transmit

variable {wr : SendWr} {rest : List SendWr}

theorem start_sound (h : n.Sound) (hwr : n.waitingWrs c = wr :: rest) : (n.start c).Sound := by
  refine ⟨h.sound, h.registered, h.logged, h.sends, h.letters, h.receipts, fun d => ?_⟩
  have hbegun := h.begun d
  simp only [Node.start, Function.update_apply]
  split
  · next hd =>
    subst hd
    have hlen := congrArg List.length hwr
    rw [Node.waitingWrs, List.length_drop, List.length_cons] at hlen
    change n.begun d + 1 ≤ (n.proc.sq.filter (·.conn = d)).length
    omega
  · exact hbegun

theorem unsent_start (hwr : n.waitingWrs c = wr :: rest) (d : ConnId) :
    n.unsent d = (if d = c then wr.wire?.toList else []) ++ (n.start c).unsent d := by
  have hunsent : ∀ n d, Node.unsent n d = (n.waitingWrs d).filterMap SendWr.wire? := fun _ _ => rfl
  rw [hunsent, hunsent]
  split
  · next hd =>
    subst hd
    have hrest : (n.start d).waitingWrs d = rest := by
      have htail := congrArg List.tail hwr
      rw [Node.waitingWrs, List.tail_drop] at htail
      simp only [Node.waitingWrs, Node.start, Function.update_self]
      exact htail
    rw [hwr, hrest]
    cases hw : wr.wire? <;> simp [hw]
  · next hd =>
    simp [Node.waitingWrs, Node.start, Function.update_of_ne hd, Node.proc]

theorem transmit_exchange (hwr : (s.node i).waitingWrs c = wr :: rest) :
    ({ s.setNode i ((s.node i).start c) with
      flight := Function.update s.flight (i, c) (s.flight (i, c) ++ wr.wire?.toList) } : Network ν).exchange =
        s.exchange := by
  apply Exchange.ext
  · exact same_setNode (n := (s.node i).start c) (fun x n => (n.sent x.2).map Sending.wire) fun _ => rfl
  · funext ⟨j, d⟩
    by_cases hj : j = i
    · subst hj
      simp only [exchange, setNode_node, if_true, unsent_start hwr d, Function.update_apply, Prod.mk.injEq, true_and]
      by_cases hd : d = c
      · subst hd
        simp
      · simp [hd]
    · simp [exchange, setNode_node, hj]
  · exact same_setNode (n := (s.node i).start c) (fun x n => (n.log.lettersOn x.2).map Letter.wire) fun _ => rfl
  · exact same_setNode (n := (s.node i).start c) (fun x n => n.owed x.2) fun _ => rfl
  · exact same_setNode (n := (s.node i).start c) (fun x n => n.answers x.2) fun _ => rfl

end Transmit

/-- What `receive` does when `w` is the oldest message on its way to the connection `c` of process `i`. -/
theorem receive_move (h : s.Sound) {y : ν × ConnId} {w : Wire} {rest : List Wire} (hy : W.far (i, c) = some y)
    (hflight : s.flight y = w :: rest) (hstep : (s.node i).step (.wcRecv c w) = some n) :
    n.Sound ∧ Exchange.Move W Wire.kinds s.exchange
      ({ s.setNode i n with flight := Function.update s.flight y rest } : Network ν).exchange := by
  have hpeer : w.FromPeer := h.wires y w (by rw [hflight]; exact List.mem_cons_self)
  obtain ⟨σ', ht, rfl, hn⟩ := (h.nodes i).step (e := .wcRecv c w) hpeer (by simp) hstep
  refine ⟨hn, ?_⟩
  let t : Network ν := { s with flight := Function.update s.flight y rest }
  have hway : s.exchange.way y = w :: (rest ++ (s.node y.1).unsent y.2) := by
    simp [exchange, hflight]
  have hexchange : ({ s.setNode i ((s.node i).after (.wcRecv c w) σ') with
      flight := Function.update s.flight y rest } : Network ν).exchange =
        (t.setNode i ((s.node i).after (.wcRecv c w) σ')).exchange := rfl
  rw [hexchange]
  cases htype : w.ctl.type with
  | commInit =>
    have hs' : σ'.Sound [] := by
      have := hn.sound
      rwa [Node.after_proc] at this
    rw [exchange_setNode (s := t) (Node.changes_init (h.nodes i) htype hs' ht), exchange_flight]
    simp only [List.map_nil, List.append_nil, Nat.add_zero, Nat.sub_zero, Function.update_eq_self, List.map_singleton]
    have hmove := Exchange.Move.receive (K := Wire.kinds) s.exchange hy hway (decide_eq_true htype)
    have hdemands : (if Wire.kinds.demands w then 1 else 0) = if w.ctl.opcode = .rdmaRead then 1 else 0 := by
      simp [Wire.kinds, Wire.isRendezvous, htype]
    rw [hdemands] at hmove
    exact hmove
  | commFin =>
    rw [exchange_setNode (s := t) (Node.changes_fin htype ht), exchange_flight]
    simp only [List.map_nil, List.append_nil, Nat.add_zero, Nat.sub_zero, Function.update_eq_self]
    exact .collect s.exchange hy hway (Wire.isInit_eq_false htype)

/-- Every happening but a flush is one move of the exchange. -/
theorem step_move (h : s.Sound) {e : Happening ν} (hflush : ¬ e.isFlush) (hstep : s.step W e = some s') :
    s'.Sound ∧ Exchange.Move W Wire.kinds s.exchange s'.exchange := by
  cases e with
  | call i e =>
    simp only [step] at hstep
    split at hstep
    · next hlocal =>
      obtain ⟨n, hn, rfl⟩ := Option.map_eq_some_iff.1 hstep
      have hne : e ≠ .flush := by
        rintro rfl
        exact hflush rfl
      obtain ⟨hsound, hmove⟩ := call_move (W := W) h hlocal hne hn
      exact ⟨h.setNode hsound, hmove⟩
    · cases hstep
  | write i obj b =>
    cases hstep
    refine ⟨h.setNode (write_sound (h.nodes i) obj b), ?_⟩
    rw [exchange_quiet (write_changes (c := 0) (s.node i) obj b)]
    exact .idle _
  | transmit i c =>
    simp only [step] at hstep
    split at hstep
    · cases hstep
    · next wr rest hwr =>
      have hnode := h.setNode (i := i) (start_sound (h.nodes i) hwr)
      have hexchange := transmit_exchange hwr
      split at hstep
      · next w hop =>
        cases hstep
        have hw : wr.wire? = some w := by simp [SendWr.wire?, hop]
        rw [hw] at hexchange
        refine ⟨?_, ?_⟩
        · refine ⟨hnode.nodes, (h.flight (x := (i, c)) fun v hv => ?_).wires⟩
          rcases List.mem_append.1 hv with hv | hv
          · exact h.wires _ v hv
          · rw [List.mem_singleton.1 hv]
            refine (h.nodes i).sends wr ?_ w hop
            have hmem : wr ∈ (s.node i).waitingWrs c := hwr ▸ List.mem_cons_self
            exact List.mem_of_mem_filter (List.mem_of_mem_drop hmem)
        · exact hexchange ▸ .idle _
      · next sge remote hop =>
        cases hstep
        have hw : wr.wire? = none := by simp [SendWr.wire?, hop]
        rw [hw, Option.toList_none, List.append_nil, Function.update_eq_self] at hexchange
        exact ⟨hnode, hexchange ▸ .idle _⟩
  | receive j d =>
    simp only [step] at hstep
    split at hstep
    · cases hstep
    · next y hy =>
      split at hstep
      · cases hstep
      · next w rest hflight =>
        obtain ⟨n, hn, rfl⟩ := Option.map_eq_some_iff.1 hstep
        obtain ⟨hsound, hmove⟩ := receive_move h hy hflight hn
        refine ⟨⟨(h.setNode hsound).nodes, (h.flight fun v hv => ?_).wires⟩, hmove⟩
        exact h.wires y v (hflight ▸ List.mem_cons_of_mem _ hv)
  | sendDone i c =>
    simp only [step] at hstep
    split at hstep
    · next hbegun =>
      obtain ⟨n, hn, rfl⟩ := Option.map_eq_some_iff.1 hstep
      obtain ⟨σ', ht, rfl, hsound⟩ := (h.nodes i).step (e := .wcSend c) trivial (by simp) hn
      refine ⟨h.setNode hsound, ?_⟩
      rw [exchange_quiet (Node.changes_sendDone hbegun ht)]
      exact .idle _
    · cases hstep
  | readDone j d =>
    simp only [step] at hstep
    split at hstep
    · next hy hwr =>
      split at hstep
      · next hbegun =>
        obtain ⟨n, hn, rfl⟩ := Option.map_eq_some_iff.1 hstep
        obtain ⟨σ', ht, rfl, hsound⟩ := (h.nodes j).step (by trivial) (by simp) hn
        refine ⟨h.setNode hsound, ?_⟩
        obtain ⟨w, hw, hchanges⟩ := Node.changes_readDone (h.nodes j) hbegun ht
        rw [exchange_setNode hchanges]
        simp only [List.map_nil, List.append_nil, Nat.add_zero, Function.update_eq_self]
        have howed := hchanges.owed d
        simp only [if_true] at howed
        exact .pay _ _ _ (show 0 < (s.node j).owed d by omega) (Wire.isInit_eq_false hw)
      · cases hstep
    · cases hstep

/-- What a happening does to one process. -/
inductive NodeMove (n : Node) : Node → Prop
  | stay : NodeMove n n
  | step {e : Event} {n' : Node} (hpeer : e.FromPeer) (hflush : e ≠ .flush) (h : n.step e = some n') : NodeMove n n'
  | write (obj : Nat) (b : Buffer) : NodeMove n (n.write obj b)
  | start (c : ConnId) : NodeMove n (n.start c)

theorem NodeMove.setNode (h : NodeMove (s.node i) n) (j : ν) : NodeMove (s.node j) ((s.setNode i n).node j) := by
  rw [setNode_node]
  split
  · next hj => exact hj ▸ h
  · exact .stay

theorem node_move (h : s.Sound) {e : Happening ν} (hflush : ¬ e.isFlush) (hstep : s.step W e = some s') (j : ν) :
    NodeMove (s.node j) (s'.node j) := by
  cases e with
  | call i e =>
    simp only [step] at hstep
    split at hstep
    · next hlocal =>
      obtain ⟨n, hn, rfl⟩ := Option.map_eq_some_iff.1 hstep
      have hne : e ≠ .flush := by
        rintro rfl
        exact hflush rfl
      exact (NodeMove.step (fromPeer_of_isLocal hlocal) hne hn).setNode j
    · cases hstep
  | write i obj b =>
    cases hstep
    exact (NodeMove.write obj b).setNode j
  | transmit i c =>
    simp only [step] at hstep
    split at hstep
    · cases hstep
    · split at hstep <;>
      · cases hstep
        exact (NodeMove.start c).setNode j
  | receive i d =>
    simp only [step] at hstep
    split at hstep
    · cases hstep
    · next y _ =>
      split at hstep
      · cases hstep
      · next w rest hflight =>
        obtain ⟨n, hn, rfl⟩ := Option.map_eq_some_iff.1 hstep
        exact (NodeMove.step (e := .wcRecv d w) (h.wires y w (hflight ▸ List.mem_cons_self)) (by simp) hn).setNode j
  | sendDone i c =>
    simp only [step] at hstep
    split at hstep
    · obtain ⟨n, hn, rfl⟩ := Option.map_eq_some_iff.1 hstep
      exact (NodeMove.step (by trivial) (by simp) hn).setNode j
    · cases hstep
  | readDone i d =>
    simp only [step] at hstep
    split at hstep
    · split at hstep
      · obtain ⟨n, hn, rfl⟩ := Option.map_eq_some_iff.1 hstep
        exact (NodeMove.step (by trivial) (by simp) hn).setNode j
      · cases hstep
    · cases hstep

theorem balanced_of_path {boot : ν → Boot} {es : List (Happening ν)}
    (h : Path (step W) (fun _ e => ¬ e.isFlush) (init boot) es s) :
    s.Sound ∧ s.exchange.Balanced W Wire.kinds :=
  h.invariant (I := fun s => s.Sound ∧ s.exchange.Balanced W Wire.kinds)
    (fun _ _ _ hs he hstep => ⟨(step_move (W := W) hs.1 he hstep).1, hs.2.move (step_move hs.1 he hstep).2⟩)
    ⟨Sound.init boot, Exchange.Balanced.empty⟩

/-! ## Exactly once and in order, from end to end -/

theorem sublist_of_index_lt {α : Type*} {f : α → Nat} {l : List α} (h : l.map f = List.range l.length) {x y : α}
    (hx : x ∈ l) (hy : y ∈ l) (hxy : f x < f y) : List.Sublist [x, y] l := by
  have hdrop : ∀ z ∈ l.drop (f y), f y ≤ f z := by
    intro z hz
    have hmem := List.mem_map_of_mem (f := f) hz
    rw [List.map_drop, h, List.range_eq_range', List.drop_range', List.mem_range'_1] at hmem
    omega
  have htake : ∀ z ∈ l.take (f y), f z < f y := by
    intro z hz
    have hmem := List.mem_map_of_mem (f := f) hz
    rw [List.map_take, h, List.take_range, List.mem_range] at hmem
    omega
  rw [← List.take_append_drop (f y) l] at hx hy
  have hx' : x ∈ l.take (f y) := (List.mem_append.1 hx).resolve_right fun hmem => by
    have := hdrop x hmem
    omega
  have hy' : y ∈ l.drop (f y) := (List.mem_append.1 hy).resolve_left fun hmem => by
    have := htake y hmem
    omega
  have := (List.singleton_sublist.2 hx').append (List.singleton_sublist.2 hy')
  rwa [List.take_append_drop, List.singleton_append] at this

/-- What has been sent on a connection has arrived at its other end or is on its way, in order. What has arrived waits
or has been received by exactly one receive that matches it, and a message is received only after every earlier
message of its connection that the receive matches. -/
structure Faithful (W : Pairing (ν × ConnId)) (s : Network ν) : Prop where
  inOrder : ∀ i c j d, W.far (i, c) = some (j, d) → ((s.node i).sent c).map Sending.wire =
    ((s.node j).log.lettersOn d).map Letter.wire ++ (s.flight (i, c) ++ (s.node i).unsent c).filter Wire.isInit
  numbered : ∀ j d, ((s.node j).log.lettersOn d).map Letter.index = List.range ((s.node j).log.lettersOn d).length
  message : ∀ j, ∀ m ∈ arrivals (s.node j).log.history,
    ((s.node j).log.pairs.map Prod.fst).count m + ((s.node j).proc.aq.map (s.node j).log.msgAt).count m = 1
  receive : ∀ j, ∀ r ∈ posts (s.node j).log.history,
    ((s.node j).log.pairs.map Prod.snd).count r + ((s.node j).proc.pq.map (s.node j).log.recvAt).count r = 1
  matched : ∀ j, ∀ p ∈ (s.node j).log.pairs, p.1 ∈ arrivals (s.node j).log.history ∧
    p.2 ∈ posts (s.node j).log.history ∧ p.1.envelope.Matches (p.2.prm.envelope p.2.source)
  stuckFree : ∀ j, ∀ a ∈ (s.node j).proc.aq, ∀ p ∈ (s.node j).proc.pq,
    ¬ ((s.node j).proc.envelope a).Matches ((s.node j).proc.envelope p)
  notOvertaken : ∀ j before after m₁ m₂ r, (s.node j).log.pairs = before ++ (m₂, r) :: after →
    m₁ ∈ arrivals (s.node j).log.history → m₁.conn = m₂.conn → m₁.index < m₂.index →
    m₁.envelope.Matches (r.prm.envelope r.source) → ∃ r', r' ≠ r ∧ (m₁, r') ∈ before

theorem faithful {boot : ν → Boot} {es : List (Happening ν)}
    (h : Path (step W) (fun _ e => ¬ e.isFlush) (init boot) es s) : s.Faithful W := by
  obtain ⟨hs, hb⟩ := balanced_of_path h
  have hsettled := fun j => (hs.nodes j).logged.settled
  refine ⟨?_, fun j d => (hs.nodes j).letters d, ?_, ?_, ?_, ?_, ?_⟩
  · exact fun i c j d hfar => hb.fifo (i, c) (j, d) hfar
  · exact fun j m => (hsettled j).count_arrival (hs.nodes j).logged.fresh
  · exact fun j r => (hsettled j).count_post (hs.nodes j).logged.fresh
  · exact fun j p hp => ⟨(hsettled j).arrived p hp, (hsettled j).posted p hp,
      (Naming.ok_iff Letter.naming).1 ((hsettled j).matched p hp)⟩
  · intro j a ha p hp
    have hl := (hs.nodes j).logged
    have hstuck := (hsettled j).stuckFree _ (List.mem_map_of_mem ha) _ (List.mem_map_of_mem hp)
    rw [← Bool.not_eq_true, Naming.ok_iff, ← hl.message_envelope ha, ← hl.receive_envelope hp] at hstuck
    exact hstuck
  · intro j before after m₁ m₂ r hp hm₁ hconn hlt hmatch
    have hl := (hs.nodes j).logged
    have hplay : (Engine.play Letter.naming.ok (s.node j).log.history).pairs = (s.node j).log.pairs := by
      rw [hl.engine]
    have hm₂ := (hsettled j).arrived (m₂, r) (hp ▸ List.mem_append_right _ List.mem_cons_self)
    have hon : ∀ {m}, m ∈ arrivals (s.node j).log.history → m.conn = m₂.conn →
        m ∈ (s.node j).log.lettersOn m₂.conn := fun hm hc => List.mem_filter.2 ⟨hm, decide_eq_true hc⟩
    have hord : List.Sublist [m₁, m₂] (arrivals (s.node j).log.history) :=
      (sublist_of_index_lt ((hs.nodes j).letters _) (hon hm₁ hconn) (hon hm₂ rfl) hlt).trans List.filter_sublist
    have hmem := arrival_not_overtaken _ hl.fresh (hplay.trans hp) hord ((Naming.ok_iff Letter.naming).2 hmatch)
    obtain ⟨⟨m, r'⟩, hpair, rfl⟩ := List.mem_map.1 hmem
    refine ⟨r', ?_, hpair⟩
    rintro rfl
    have hn := (hsettled j).snd_nodup
    simp only [hp, List.map_append, List.map_cons] at hn
    exact (List.nodup_append.1 hn).2.2 _ (List.mem_map_of_mem hpair) _ List.mem_cons_self rfl

/-- Two processes, and one connection between them. -/
def twoEnds : Pairing (Bool × ConnId) where
  far x := if x.2 = 0 then some (!x.1, 0) else none
  far_far := by
    rintro ⟨i, c⟩ ⟨j, d⟩ h
    dsimp only at h
    split at h
    · next hc =>
      cases h
      simp [hc]
    · cases h

/-- An eager and a rendezvous message from one process to the other. The receive of the second is there first. -/
def conversation : List (Happening Bool) :=
  let send (count tag : CInt) (req : ReqId) : Happening Bool :=
    .call false (.isend ⟨⟨req, 0⟩, count, fmiByte, 1, tag, fmiCommWorld, req, 0⟩)
  let recv (count tag : CInt) (req : ReqId) : Happening Bool :=
    .call true (.irecv ⟨⟨req, 0⟩, count, fmiByte, 1, tag, fmiCommWorld, req, 0⟩)
  (Event.connecting 1 16).map (.call false) ++
    [.call true (.connectRequest 32 0 0), .call true (.established 32), send 1 5 1, send 65537 6 2,
      .transmit false 0, .transmit false 0, .sendDone false 0, recv 65537 6 1, .receive true 0, .receive true 0,
      recv 1 5 2, .transmit true 0, .readDone true 0, .transmit true 0, .receive false 0]

theorem faithful_conversation :
    ∃ s, Path (step twoEnds) (fun _ e => ¬ e.isFlush) (init fun _ => Boot.zeroed) conversation s ∧
      (s.node true).log.pairs.map (fun p => (p.1.index, p.2.index)) = [(1, 0), (0, 1)] ∧ s.Faithful twoEnds := by
  obtain ⟨s, hpath, hs⟩ := exists_path_of_runWhile (step twoEnds) (fun _ e => ¬ e.isFlush)
    (init fun _ => Boot.zeroed) conversation
    (fun s => decide ((s.node true).log.pairs.map (fun p => (p.1.index, p.2.index)) = [(1, 0), (0, 1)]))
    (by decide +kernel)
  exact ⟨s, hpath, of_decide_eq_true hs, faithful hpath⟩

end Network

end Libibtl
