import Libibtl.Connections
import Libibtl.MatchingLog

/-! # Exactly-once and in-order matching

An item is named by its place in the history and shows its envelope. Runs without
a flush follow the first-match engine, and the laws of the engine become laws of
the library: no stuck pair, exactly one partner, no overtaking.
-/

namespace Libibtl

open Foundation

/-- A message or a receive of a run. -/
structure Item where
  index : Nat
  envelope : Envelope
  deriving DecidableEq, Repr

def Event.isFlush : Event → Bool
  | .flush => true
  | _ => false

namespace Log

def init (b : Boot) : Log Item Item where
  proc := Proc.init b
  history := []
  pairs := []
  msgAt _ := ⟨0, ⟨0, 0, 0⟩⟩
  recvAt _ := ⟨0, ⟨0, 0, 0⟩⟩

/-- The item that an event offers to the matching code. -/
def offer (l : Log Item Item) : Event → Option (Item ⊕ Item)
  | .wcRecv c w =>
    match w.ctl.type with
    | .commInit => some (.inl ⟨l.history.length, l.proc.arrivalEnvelope c w⟩)
    | .commFin => none
  | .irecv prm =>
    (commGetPrank prm.comm prm.source).map fun source => .inr ⟨l.history.length, prm.envelope source⟩
  | _ => none

def step (l : Log Item Item) (e : Event) : Option (Log Item Item) :=
  (l.proc.step e).map fun σ' => l.record σ' (l.offer e)

end Log

def Item.of : Item ⊕ Item → Item
  | .inl m => m
  | .inr r => r

/-- A query carries an item when it shows the item's envelope. -/
def Item.naming : Naming Item Item where
  message m x := x.msg.envelope = m.envelope
  receive r x := x.msg.envelope = r.envelope
  menv := Item.envelope
  renv := Item.envelope
  message_envelope _ _ h := h
  receive_envelope _ _ h := h

/-- What the record of a run keeps: items are numbered, and messages come from ranks of the peer table. -/
structure Numbered (l : Log Item Item) : Prop where
  index_lt : ∀ x ∈ l.history, (Item.of x).index < l.history.length
  rank_nonneg : ∀ m ∈ arrivals l.history, 0 ≤ m.envelope.rank.toInt

/-- The invariant of recorded runs. -/
structure Recorded (l : Log Item Item) : Prop where
  sound : l.proc.Sound []
  registered : l.proc.Registered
  logged : Logged Item.naming l
  numbered : Numbered l

theorem Log.labels_offer {l : Log Item Item} {e : Event} {σ' : Proc} (hq : l.proc.QueueMove e σ') :
    Item.naming.Labels l.proc e (l.offer e) := by
  cases hq with
  | paired htype hsel haq hpq =>
    simp only [offer, htype]
    exact .arrival htype rfl fun a _ => Proc.envelope_arrivedQuery ..
  | stored htype hsel haq hpq hconn hx =>
    simp only [offer, htype]
    exact .arrival htype rfl fun a _ => Proc.envelope_arrivedQuery ..
  | received hsrc hsel haq hpq =>
    simp only [offer, hsrc, Option.map_some]
    exact .post hsrc rfl fun _ hx => hx.envelope
  | awaited hsrc hsel haq hpq hx =>
    simp only [offer, hsrc, Option.map_some]
    exact .post hsrc rfl fun _ hx => hx.envelope
  | idle he haq hpq =>
    cases e with
    | wcRecv c w =>
      have htype : w.ctl.type = .commFin := he
      simp only [offer, htype]
      exact .idle he
    | irecv prm => cases he
    | _ => exact .idle he

namespace Numbered

variable {l : Log Item Item} {σ' : Proc} {e : Event}

theorem offer_index {x : Item ⊕ Item} (h : l.offer e = some x) : (Item.of x).index = l.history.length := by
  cases e with
  | wcRecv c w =>
    cases htype : w.ctl.type with
    | commInit =>
      simp only [Log.offer, htype, Option.some.injEq] at h
      subst h
      rfl
    | commFin => simp [Log.offer, htype] at h
  | irecv prm =>
    obtain ⟨source, -, rfl⟩ := Option.map_eq_some_iff.1 h
    rfl
  | _ => cases h

theorem offer_new (hn : Numbered l) {x : Item ⊕ Item} (h : l.offer e = some x) : x ∉ l.history := by
  intro hmem
  have := hn.index_lt x hmem
  rw [offer_index h] at this
  exact Nat.lt_irrefl _ this

theorem record (hn : Numbered l) (hreg : l.proc.Registered) (hq : l.proc.QueueMove e σ')
    (hconn : ∀ c w, e = .wcRecv c w → c < l.proc.nconn) : Numbered (l.record σ' (l.offer e)) := by
  cases hx : l.offer e with
  | none => exact ⟨hn.index_lt, hn.rank_nonneg⟩
  | some x =>
    refine ⟨fun y hy => ?_, fun m hm => ?_⟩
    · rw [Log.record_history] at hy ⊢
      rw [List.length_append, List.length_singleton]
      rcases List.mem_append.1 hy with hy | hy
      · exact Nat.lt_succ_of_lt (hn.index_lt y hy)
      · rw [List.mem_singleton.1 hy, offer_index hx]
        exact Nat.lt_succ_self _
    · rw [mem_arrivals, Log.record_history] at hm
      rcases List.mem_append.1 hm with hm | hm
      · exact hn.rank_nonneg m ((mem_arrivals _ _).2 hm)
      · rw [← List.mem_singleton.1 hm] at hx
        have hlab := Log.labels_offer hq
        rw [hx] at hlab
        cases hlab with
        | @arrival c w m htype henv hm =>
          change 0 ≤ (Item.naming.menv m).rank.toInt
          rw [henv]
          exact (hreg.inTable (hconn c w rfl)).1

end Numbered

namespace Recorded

variable {l l' : Log Item Item} {e : Event}

theorem init (b : Boot) : Recorded (Log.init b) where
  sound := Proc.Sound.init b
  registered := Proc.Registered.init b
  logged := ⟨List.nodup_nil, rfl, fun _ h => (nomatch h), fun _ h => (nomatch h)⟩
  numbered := ⟨fun _ h => (nomatch h), fun _ h => (nomatch h)⟩

theorem conn_lt {σ σ' : Proc} (hreg : σ.Registered) (ht : Transition σ e σ') :
    ∀ c w, e = .wcRecv c w → c < σ.nconn := by
  rintro c w rfl
  cases ht with
  | deliver htype hwr hsel hop hr hg hx => exact hreg.conn_lt hwr
  | startRead htype hwr hsel hop hg hx => exact hreg.conn_lt hwr
  | store htype hwr hsel hg hx => exact hreg.conn_lt hwr
  | finish htype hwr hg hx => exact hreg.conn_lt hwr
  | link hl => cases hl

theorem step (h : Recorded l) (he : e.FromPeer ∧ ¬ e.isFlush) (hstep : l.step e = some l') : Recorded l' := by
  obtain ⟨hpeer, hflush⟩ := he
  obtain ⟨σ', hσ', rfl⟩ := Option.map_eq_some_iff.1 hstep
  have ht := Proc.transition_of_step h.sound.toOwned h.sound.toWired hpeer hσ'
  have hflush : e ≠ .flush := by
    rintro rfl
    exact hflush rfl
  have hq := Proc.queueMove_of_transition h.sound hpeer hflush ht
  refine ⟨?_, ?_, ?_, h.numbered.record h.registered hq (conn_lt h.registered ht)⟩
  · rw [Log.record_proc]
    exact h.sound.transition hpeer ht
  · rw [Log.record_proc]
    exact h.registered.transition ht
  · exact h.logged.transition h.sound hpeer hflush ht (Log.labels_offer hq) fun _ hx => h.numbered.offer_new hx

theorem of_path {b : Boot} {es : List Event}
    (h : Path Log.step (fun _ e => e.FromPeer ∧ ¬ e.isFlush) (Log.init b) es l) : Recorded l :=
  h.invariant (I := Recorded) (fun _ _ _ hl he hstep => hl.step he hstep) (init b)

end Recorded

/-- Each message and each receive of a run has exactly one partner or waits exactly once, in a query
that shows its envelope; no waiting message matches a waiting receive. -/
structure Log.ExactlyOnce (l : Log Item Item) : Prop where
  stuckFree : ∀ a ∈ l.proc.aq, ∀ p ∈ l.proc.pq, ¬ (l.proc.envelope a).Matches (l.proc.envelope p)
  message : ∀ m ∈ arrivals l.history, (l.pairs.map Prod.fst).count m + (l.proc.aq.map l.msgAt).count m = 1
  receive : ∀ r ∈ posts l.history, (l.pairs.map Prod.snd).count r + (l.proc.pq.map l.recvAt).count r = 1
  matched : ∀ p ∈ l.pairs, p.1 ∈ arrivals l.history ∧ p.2 ∈ posts l.history ∧ p.1.envelope.Matches p.2.envelope
  waiting : ∀ a ∈ l.proc.aq, l.msgAt a ∈ arrivals l.history ∧ l.proc.envelope a = (l.msgAt a).envelope
  pending : ∀ p ∈ l.proc.pq, l.recvAt p ∈ posts l.history ∧ l.proc.envelope p = (l.recvAt p).envelope

theorem matching_exactly_once {b : Boot} {es : List Event} {l : Log Item Item}
    (h : Path Log.step (fun _ e => e.FromPeer ∧ ¬ e.isFlush) (Log.init b) es l) : l.ExactlyOnce := by
  have hl := (Recorded.of_path h).logged
  have hs := hl.settled
  refine ⟨?_, fun m => hs.count_arrival hl.fresh, fun r => hs.count_post hl.fresh, ?_, ?_, ?_⟩
  · intro a ha p hp
    rw [hl.message_envelope ha, hl.receive_envelope hp]
    have := hs.stuckFree _ (List.mem_map_of_mem ha) _ (List.mem_map_of_mem hp)
    rwa [← Naming.ok_iff, Bool.not_eq_true]
  · intro p hp
    exact ⟨hs.arrived p hp, hs.posted p hp, (Naming.ok_iff Item.naming).1 (hs.matched p hp)⟩
  · exact fun a ha => ⟨(hs.mem_waiting.mp (List.mem_map_of_mem ha)).1, hl.message_envelope ha⟩
  · exact fun p hp => ⟨(hs.mem_pending.mp (List.mem_map_of_mem hp)).1, hl.receive_envelope hp⟩

/-- Messages with tags 5, 6 and 5 of rank 1, before, between and after receives with wildcards. -/
def mixedRun : List Event :=
  let wire (tag : CInt) : Wire :=
    ⟨⟨.commInit, .eager, 0, ⟨0, 0⟩, 0, uint64OfInt tag, 0, 1, fmiCommWorld.id, fmiByte,
      ⟨0, .user ⟨0, 0⟩, 1, 0, 0⟩, 1⟩, 1, fun _ => 7⟩
  let recv (source tag : CInt) (req : ReqId) : Event := .irecv ⟨⟨req, 0⟩, 1, fmiByte, source, tag, fmiCommWorld, req, 0⟩
  Event.connecting 1 16 ++
    [.wcRecv 0 (wire 5), recv 1 fmiAnyTag 1, recv fmiAnySource 6 2, .wcRecv 0 (wire 5), .wcRecv 0 (wire 6), recv 1 7 3]

theorem matching_exactly_once_mixed :
    ∃ l, Path Log.step (fun _ e => e.FromPeer ∧ ¬ e.isFlush) (Log.init Boot.zeroed) mixedRun l ∧
      l.pairs.length = 2 ∧ l.proc.aq.length = 1 ∧ l.proc.pq.length = 1 ∧ l.ExactlyOnce := by
  obtain ⟨l, hpath, hl⟩ := exists_path_of_runWhile Log.step (fun _ e => e.FromPeer ∧ ¬ e.isFlush)
    (Log.init Boot.zeroed) mixedRun
    (fun l => decide (l.pairs.length = 2 ∧ l.proc.aq.length = 1 ∧ l.proc.pq.length = 1)) (by decide +kernel)
  obtain ⟨hpairs, haq, hpq⟩ := of_decide_eq_true hl
  exact ⟨l, hpath, hpairs, haq, hpq, matching_exactly_once hpath⟩

/-! ## Order -/

/-- A receive without wildcards. -/
def Envelope.Specific (r : Envelope) : Prop := r.rank ≠ fmiAnySource ∧ r.tag ≠ fmiAnyTag

theorem ne_neg_one_of_nonneg {x : CInt} (h : 0 ≤ x.toInt) : x ≠ -1 := by
  rintro rfl
  exact absurd h (by decide)

/-- Without wildcards on either side, matching is equality of envelopes. -/
theorem Envelope.matches_iff_eq {m r : Envelope} (hrank : 0 ≤ m.rank.toInt) (htag : 0 ≤ m.tag.toInt)
    (hr : r.Specific) : m.Matches r ↔ m = r := by
  have hms : m.rank ≠ fmiAnySource := ne_neg_one_of_nonneg hrank
  have hmt : m.tag ≠ fmiAnyTag := ne_neg_one_of_nonneg htag
  obtain ⟨hrs, hrt⟩ := hr
  obtain ⟨commId, rank, tag⟩ := m
  obtain ⟨commId', rank', tag'⟩ := r
  simp_all [Matches]

/-- A newer item is paired only after every older item of its side that matches the same partner; and
without wildcards the pairs of an envelope are its messages and its receives, position by position. -/
structure Log.InOrder (l : Log Item Item) : Prop where
  messages : ∀ before after m₁ m₂ r, l.pairs = before ++ (m₂, r) :: after →
    List.Sublist [m₁, m₂] (arrivals l.history) → m₁.envelope.Matches r.envelope → ∃ r', r' ≠ r ∧ (m₁, r') ∈ before
  receives : ∀ before after m r₁ r₂, l.pairs = before ++ (m, r₂) :: after →
    List.Sublist [r₁, r₂] (posts l.history) → m.envelope.Matches r₁.envelope → ∃ m', m' ≠ m ∧ (m', r₁) ∈ before
  positions : (∀ r ∈ posts l.history, r.envelope.Specific) → (∀ m ∈ arrivals l.history, 0 ≤ m.envelope.tag.toInt) →
    ∀ x, l.pairs.filter (fun p => p.1.envelope = x) =
      ((arrivals l.history).filter (·.envelope = x)).zip ((posts l.history).filter (·.envelope = x))

theorem matching_in_order {b : Boot} {es : List Event} {l : Log Item Item}
    (h : Path Log.step (fun _ e => e.FromPeer ∧ ¬ e.isFlush) (Log.init b) es l) : l.InOrder := by
  have hrec := Recorded.of_path h
  have hl := hrec.logged
  have hs := hl.settled
  have hplay : (Engine.play Item.naming.ok l.history).pairs = l.pairs := by rw [hl.engine]
  refine ⟨?_, ?_, ?_⟩
  · intro before after m₁ m₂ r hp hord hmatch
    have hmem := arrival_not_overtaken _ hl.fresh (hplay.trans hp) hord ((Naming.ok_iff Item.naming).2 hmatch)
    obtain ⟨⟨m, r'⟩, hpair, rfl⟩ := List.mem_map.1 hmem
    refine ⟨r', ?_, hpair⟩
    rintro rfl
    have hn := hs.snd_nodup
    simp only [hp, List.map_append, List.map_cons] at hn
    exact (List.nodup_append.1 hn).2.2 _ (List.mem_map_of_mem hpair) _ List.mem_cons_self rfl
  · intro before after m r₁ r₂ hp hord hmatch
    have hmem := post_not_overtaken _ hl.fresh (hplay.trans hp) hord ((Naming.ok_iff Item.naming).2 hmatch)
    obtain ⟨⟨m', r⟩, hpair, rfl⟩ := List.mem_map.1 hmem
    refine ⟨m', ?_, hpair⟩
    rintro rfl
    have hn := hs.fst_nodup
    simp only [hp, List.map_append, List.map_cons] at hn
    exact (List.nodup_append.1 hn).2.2 _ (List.mem_map_of_mem hpair) _ List.mem_cons_self rfl
  · intro hspec htag x
    have hkey : ∀ m ∈ arrivals l.history, ∀ r ∈ posts l.history,
        Item.naming.ok m r = decide (m.envelope = r.envelope) := by
      intro m hm r hr
      rw [Naming.ok, decide_eq_decide]
      exact Envelope.matches_iff_eq (hrec.numbered.rank_nonneg m hm) (htag m hm) (hspec r hr)
    have := (keyed_play hl.fresh hkey x).pairs_eq
    rwa [hl.engine] at this

/-- Two messages of one envelope around two receives for it. -/
def orderedRun : List Event :=
  let wire (tag : CInt) : Wire :=
    ⟨⟨.commInit, .eager, 0, ⟨0, 0⟩, 0, uint64OfInt tag, 0, 1, fmiCommWorld.id, fmiByte,
      ⟨0, .user ⟨0, 0⟩, 1, 0, 0⟩, 1⟩, 1, fun _ => 7⟩
  let recv (req : ReqId) : Event := .irecv ⟨⟨req, 0⟩, 1, fmiByte, 1, 5, fmiCommWorld, req, 0⟩
  Event.connecting 1 16 ++ [.wcRecv 0 (wire 5), recv 1, recv 2, .wcRecv 0 (wire 5)]

theorem matching_in_order_two :
    ∃ l, Path Log.step (fun _ e => e.FromPeer ∧ ¬ e.isFlush) (Log.init Boot.zeroed) orderedRun l ∧
      l.pairs.map (fun p => (p.1.index, p.2.index)) = [(0, 1), (3, 2)] ∧ l.InOrder := by
  obtain ⟨l, hpath, hl⟩ := exists_path_of_runWhile Log.step (fun _ e => e.FromPeer ∧ ¬ e.isFlush)
    (Log.init Boot.zeroed) orderedRun
    (fun l => decide (l.pairs.map (fun p => (p.1.index, p.2.index)) = [(0, 1), (3, 2)])) (by decide +kernel)
  exact ⟨l, hpath, of_decide_eq_true hl, matching_in_order hpath⟩

end Libibtl
