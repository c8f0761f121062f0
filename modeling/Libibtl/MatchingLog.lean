import Libibtl.Foundation.MatchingOrder
import Libibtl.QueueMoves

/-! # Runs with a record of the pairs

The record of a run names each arriving message and each posted receive, and it
reads off the queues what a step has paired: a query that has left one queue was
paired with the item that the step offered. The queues and the record then follow
the first-match engine, with matching of envelopes as the relation.
-/

namespace Libibtl

open Foundation

universe u v

/-- A process, the items offered so far, the pairs formed so far, and the items that queries stand for. -/
structure Log (M : Type u) (R : Type v) where
  proc : Proc
  history : List (M ⊕ R)
  pairs : List (M × R)
  msgAt : QueryId → M
  recvAt : QueryId → R

namespace Log

variable {M : Type u} {R : Type v}

/-- The query that has left a queue. -/
def taken (before after : List QueryId) : Option QueryId := before.find? (· ∉ after)

/-- The last query of a queue now stands for `x`. -/
def nameLast {α : Type*} (names : QueryId → α) (queue : List QueryId) (x : α) : QueryId → α :=
  match queue.getLast? with
  | some q => Function.update names q x
  | none => names

def record (l : Log M R) (σ' : Proc) : Option (M ⊕ R) → Log M R
  | none => { l with proc := σ' }
  | some (.inl m) =>
    match taken l.proc.pq σ'.pq with
    | some p => { l with
        proc := σ', history := l.history ++ [.inl m], pairs := l.pairs ++ [(m, l.recvAt p)] }
    | none => { l with
        proc := σ', history := l.history ++ [.inl m], msgAt := nameLast l.msgAt σ'.aq m }
  | some (.inr r) =>
    match taken l.proc.aq σ'.aq with
    | some a => { l with
        proc := σ', history := l.history ++ [.inr r], pairs := l.pairs ++ [(l.msgAt a, r)] }
    | none => { l with
        proc := σ', history := l.history ++ [.inr r], recvAt := nameLast l.recvAt σ'.pq r }

@[simp] theorem record_proc (l : Log M R) (σ' : Proc) (x : Option (M ⊕ R)) : (l.record σ' x).proc = σ' := by
  rcases x with _ | m | r
  · rfl
  · rw [record]
    split <;> rfl
  · rw [record]
    split <;> rfl

theorem record_history (l : Log M R) (σ' : Proc) (x : M ⊕ R) :
    (l.record σ' (some x)).history = l.history ++ [x] := by
  rcases x with m | r
  · rw [record]
    split <;> rfl
  · rw [record]
    split <;> rfl

@[simp] theorem taken_self (l : List QueryId) : taken l l = none := by
  simp [taken]

theorem taken_erase {l : List QueryId} {q : QueryId} (hn : l.Nodup) (hq : q ∈ l) : taken l (l.erase q) = some q := by
  rw [taken]
  cases hfind : l.find? (· ∉ l.erase q) with
  | none =>
    have := List.find?_eq_none.1 hfind q hq
    simp [hn.not_mem_erase] at this
  | some x =>
    have hx := List.find?_some hfind
    have hmem := List.mem_of_find?_eq_some hfind
    by_contra hne
    have hne : x ≠ q := fun heq => hne (heq ▸ rfl)
    simp [(List.mem_erase_of_ne hne).2 hmem] at hx

theorem nameLast_concat {α : Type*} (names : QueryId → α) (queue : List QueryId) (q : QueryId) (x : α) :
    nameLast names (queue ++ [q]) x = Function.update names q x := by
  simp [nameLast]

section Record

variable {l : Log M R} {σ' : Proc} {p a : QueryId} {m : M} {r : R}

theorem record_paired (hn : l.proc.pq.Nodup) (hp : p ∈ l.proc.pq) (hpq : σ'.pq = l.proc.pq.erase p) :
    l.record σ' (some (.inl m)) = { l with
      proc := σ', history := l.history ++ [.inl m], pairs := l.pairs ++ [(m, l.recvAt p)] } := by
  rw [record, hpq, taken_erase hn hp]

theorem record_stored (haq : σ'.aq = l.proc.aq ++ [a]) (hpq : σ'.pq = l.proc.pq) :
    l.record σ' (some (.inl m)) = { l with
      proc := σ', history := l.history ++ [.inl m], msgAt := Function.update l.msgAt a m } := by
  rw [record, hpq, taken_self]
  simp only [haq, nameLast_concat]

theorem record_received (hn : l.proc.aq.Nodup) (ha : a ∈ l.proc.aq) (haq : σ'.aq = l.proc.aq.erase a) :
    l.record σ' (some (.inr r)) = { l with
      proc := σ', history := l.history ++ [.inr r], pairs := l.pairs ++ [(l.msgAt a, r)] } := by
  rw [record, haq, taken_erase hn ha]

theorem record_awaited (haq : σ'.aq = l.proc.aq) (hpq : σ'.pq = l.proc.pq ++ [p]) :
    l.record σ' (some (.inr r)) = { l with
      proc := σ', history := l.history ++ [.inr r], recvAt := Function.update l.recvAt p r } := by
  rw [record, haq, taken_self]
  simp only [hpq, nameLast_concat]

end Record

end Log

/-- What the names of messages and receives stand for: the content of a query that carries the item, and
the envelope that such a query shows. -/
structure Naming (M : Type u) (R : Type v) where
  message : M → Query → Prop
  receive : R → Query → Prop
  menv : M → Envelope
  renv : R → Envelope
  message_envelope : ∀ m x, message m x → x.msg.envelope = menv m
  receive_envelope : ∀ r x, receive r x → x.msg.envelope = renv r

namespace Naming

variable {M : Type u} {R : Type v} (N : Naming M R)

/-- The relation of the engine: the envelopes of two items match. -/
def ok (m : M) (r : R) : Bool := (N.menv m).Matches (N.renv r)

theorem ok_iff {m : M} {r : R} : N.ok m r = true ↔ (N.menv m).Matches (N.renv r) := decide_eq_true_iff

/-- An event offers the item that its name says. -/
inductive Labels (σ : Proc) : Event → Option (M ⊕ R) → Prop
  | arrival {c : ConnId} {w : Wire} {m : M} (htype : w.ctl.type = .commInit)
    (henv : N.menv m = σ.arrivalEnvelope c w)
    (hm : ∀ a, (σ.queries a).conn = some c → N.message m (σ.arrivedQuery c a w)) :
    Labels σ (.wcRecv c w) (some (.inl m))
  | post {prm : RecvParam} {source : CInt} {r : R} (hsrc : commGetPrank prm.comm prm.source = some source)
    (henv : N.renv r = prm.envelope source) (hr : ∀ x, Proc.Receives source prm x → N.receive r x) :
    Labels σ (.irecv prm) (some (.inr r))
  | idle {e : Event} (he : e.Idle) : Labels σ e none

end Naming

variable {M : Type u} {R : Type v} [DecidableEq M] [DecidableEq R]

/-- The queues and the pairs are those of the engine, and queries carry what their names say. -/
structure Logged (N : Naming M R) (l : Log M R) : Prop where
  fresh : l.history.Nodup
  engine : Engine.play N.ok l.history = ⟨l.proc.aq.map l.msgAt, l.proc.pq.map l.recvAt, l.pairs⟩
  messages : ∀ a ∈ l.proc.aq, N.message (l.msgAt a) (l.proc.queries a)
  receives : ∀ p ∈ l.proc.pq, N.receive (l.recvAt p) (l.proc.queries p)

namespace Logged

variable {N : Naming M R} {l : Log M R} {σ' : Proc}

theorem settled (h : Logged N l) :
    Settled N.ok l.history ⟨l.proc.aq.map l.msgAt, l.proc.pq.map l.recvAt, l.pairs⟩ :=
  h.engine ▸ settled_play _ h.fresh

theorem message_envelope (h : Logged N l) {a : QueryId} (ha : a ∈ l.proc.aq) :
    l.proc.envelope a = N.menv (l.msgAt a) := N.message_envelope _ _ (h.messages a ha)

theorem receive_envelope (h : Logged N l) {p : QueryId} (hp : p ∈ l.proc.pq) :
    l.proc.envelope p = N.renv (l.recvAt p) := N.receive_envelope _ _ (h.receives p hp)

/-- The first waiting receive that an envelope matches is what the engine finds. -/
theorem find_pending (h : Logged N l) {m : M} {x : Envelope} (hm : N.menv m = x) :
    (l.proc.pq.map l.recvAt).find? (N.ok m) =
      (l.proc.pq.find? fun p => x.Matches (l.proc.envelope p)).map l.recvAt := by
  rw [List.find?_map]
  congr 1
  apply List.find?_congr
  intro p hp
  rw [h.receive_envelope hp, ← hm]
  rfl

theorem find_waiting (h : Logged N l) {r : R} {x : Envelope} (hr : N.renv r = x) :
    (l.proc.aq.map l.msgAt).find? (N.ok · r) =
      (l.proc.aq.find? fun a => (l.proc.envelope a).Matches x).map l.msgAt := by
  rw [List.find?_map]
  congr 1
  apply List.find?_congr
  intro a ha
  rw [h.message_envelope ha, ← hr]
  rfl

theorem map_erase_of_nodup {α : Type*} [DecidableEq α] {f : QueryId → α} {queue : List QueryId} {q : QueryId}
    (hn : (queue.map f).Nodup) (hq : q ∈ queue) : (queue.erase q).map f = (queue.map f).erase (f q) := by
  induction queue with
  | nil => cases hq
  | cons x queue ih =>
    obtain ⟨hx, hn⟩ := List.nodup_cons.1 (List.map_cons .. ▸ hn)
    by_cases hxq : x = q
    · subst hxq
      simp
    · have hq := (List.mem_cons.1 hq).resolve_left (Ne.symm hxq)
      have hf : f x ≠ f q := fun heq => hx (heq ▸ List.mem_map_of_mem hq)
      rw [List.erase_cons_tail (by simpa using hxq), List.map_cons, List.map_cons,
        List.erase_cons_tail (by simpa using hf), ih hn hq]

theorem update_name {α : Type*} {f : QueryId → α} {queue : List QueryId} {q y : QueryId} (hq : q ∉ queue) (x : α)
    (hy : y ∈ queue) : Function.update f q x y = f y := by
  refine Function.update_of_ne ?_ ..
  rintro rfl
  exact hq hy

theorem map_update {α : Type*} {f : QueryId → α} {queue : List QueryId} {q : QueryId} (hq : q ∉ queue) (x : α) :
    (queue ++ [q]).map (Function.update f q x) = queue.map f ++ [x] := by
  rw [List.map_append, List.map_singleton, Function.update_self]
  congr 1
  exact List.map_congr_left fun y hy => update_name hq x hy

theorem forall_update {α : Type*} {f : QueryId → α} (carries : α → QueryId → Prop) {queue : List QueryId}
    {q : QueryId} {x : α} (hq : q ∉ queue) (hold : ∀ y ∈ queue, carries (f y) y) (hnew : carries x q) :
    ∀ y ∈ queue ++ [q], carries (Function.update f q x y) y := by
  intro y hy
  rcases List.mem_append.1 hy with hy | hy
  · rw [update_name hq x hy]
    exact hold y hy
  · rw [List.mem_singleton.1 hy, Function.update_self]
    exact hnew

theorem not_mem_of_nodup_concat {queue : List QueryId} {q : QueryId} (hn : (queue ++ [q]).Nodup) : q ∉ queue :=
  fun hmem => (List.nodup_append.1 hn).2.2 q hmem q List.mem_cons_self rfl

section Step

variable {e : Event}

theorem messages_kept (h : Logged N l) (hs : l.proc.Sound []) (hs' : σ'.Sound [])
    (ht : Transition l.proc e σ') {a : QueryId} (ha : a ∈ l.proc.aq) (ha' : a ∈ σ'.aq) :
    N.message (l.msgAt a) (σ'.queries a) := by
  rw [Proc.kept ht hs hs' (i := .arrived) (by decide) (by decide) ha ha']
  exact h.messages a ha

theorem receives_kept (h : Logged N l) (hs : l.proc.Sound []) (hs' : σ'.Sound [])
    (ht : Transition l.proc e σ') {p : QueryId} (hp : p ∈ l.proc.pq) (hp' : p ∈ σ'.pq) :
    N.receive (l.recvAt p) (σ'.queries p) := by
  rw [Proc.kept ht hs hs' (i := .waiting) (by decide) (by decide) hp hp']
  exact h.receives p hp

theorem nodup_concat (h : Logged N l) {x : M ⊕ R} (hnew : x ∉ l.history) : (l.history ++ [x]).Nodup := by
  refine List.nodup_append.2 ⟨h.fresh, List.nodup_singleton x, ?_⟩
  rintro y hy z hz rfl
  exact hnew (List.mem_singleton.1 hz ▸ hy)

theorem pending_nodup (h : Logged N l) : (l.proc.pq.map l.recvAt).Nodup :=
  h.settled.pending_nodup h.fresh

theorem arrival (h : Logged N l) (hs : l.proc.Sound []) (hs' : σ'.Sound []) {c : ConnId} {w : Wire}
    {m : M} (htype : w.ctl.type = .commInit) (ht : Transition l.proc (.wcRecv c w) σ')
    (hq : l.proc.QueueMove (.wcRecv c w) σ') (henv : N.menv m = l.proc.arrivalEnvelope c w)
    (hm : ∀ a, (l.proc.queries a).conn = some c → N.message m (l.proc.arrivedQuery c a w))
    (hnew : Sum.inl m ∉ l.history) : Logged N (l.record σ' (some (.inl m))) := by
  have hfresh := h.nodup_concat hnew
  cases hq with
  | @paired _ _ p _ _ hsel haq hpq =>
    have hp := List.mem_of_find?_eq_some hsel
    have hpnodup : l.proc.pq.Nodup := hs.nodup .waiting
    rw [Log.record_paired hpnodup hp hpq]
    refine ⟨hfresh, ?_, fun a ha => ?_, fun q hq => ?_⟩
    · rw [Engine.play_concat, h.engine, Engine.handle, Engine.arrive, h.find_pending henv, hsel, Option.map_some]
      simp only [haq, hpq, map_erase_of_nodup h.pending_nodup hp]
    · exact h.messages_kept hs hs' ht (haq ▸ ha) ha
    · exact h.receives_kept hs hs' ht (List.mem_of_mem_erase (hpq ▸ hq)) hq
  | @stored _ _ a _ _ hsel haq hpq hconn hx =>
    have hnodup : σ'.aq.Nodup := hs'.nodup .arrived
    have ha := not_mem_of_nodup_concat (haq ▸ hnodup)
    rw [Log.record_stored haq hpq]
    refine ⟨hfresh, ?_, ?_, fun q hq => ?_⟩
    · rw [Engine.play_concat, h.engine, Engine.handle, Engine.arrive, h.find_pending henv, hsel, Option.map_none]
      simp only [haq, hpq, map_update ha]
    · change ∀ y ∈ σ'.aq, N.message (Function.update l.msgAt a m y) (σ'.queries y)
      rw [haq]
      refine forall_update (fun m y => N.message m (σ'.queries y)) ha
        (fun y hy => h.messages_kept hs hs' ht hy ?_) ?_
      · rw [haq]
        exact List.mem_append_left _ hy
      · rw [hx]
        exact hm a hconn
    · exact h.receives_kept hs hs' ht (hpq ▸ hq) hq
  | idle he haq hpq =>
    rw [Event.Idle, htype] at he
    cases he

theorem post (h : Logged N l) (hs : l.proc.Sound []) (hs' : σ'.Sound []) {prm : RecvParam} {source : CInt}
    {r : R} (ht : Transition l.proc (.irecv prm) σ') (hq : l.proc.QueueMove (.irecv prm) σ')
    (hsrc : commGetPrank prm.comm prm.source = some source) (henv : N.renv r = prm.envelope source)
    (hr : ∀ x, Proc.Receives source prm x → N.receive r x)
    (hnew : Sum.inr r ∉ l.history) : Logged N (l.record σ' (some (.inr r))) := by
  have hfresh := h.nodup_concat hnew
  cases hq with
  | @received _ source' a _ hsrc' hsel haq hpq =>
    obtain rfl := Option.some.inj (hsrc.symm.trans hsrc')
    have ha := List.mem_of_find?_eq_some hsel
    have hanodup : l.proc.aq.Nodup := hs.nodup .arrived
    rw [Log.record_received hanodup ha haq]
    refine ⟨hfresh, ?_, fun x hx => ?_, fun q hq => ?_⟩
    · rw [Engine.play_concat, h.engine, Engine.handle, Engine.post, h.find_waiting henv, hsel, Option.map_some]
      simp only [haq, hpq, map_erase_of_nodup (h.settled.waiting_nodup h.fresh) ha]
    · exact h.messages_kept hs hs' ht (List.mem_of_mem_erase (haq ▸ hx)) hx
    · exact h.receives_kept hs hs' ht (hpq ▸ hq) hq
  | @awaited _ source' p _ hsrc' hsel haq hpq hx =>
    obtain rfl := Option.some.inj (hsrc.symm.trans hsrc')
    have hnodup : σ'.pq.Nodup := hs'.nodup .waiting
    have hp := not_mem_of_nodup_concat (hpq ▸ hnodup)
    rw [Log.record_awaited haq hpq]
    refine ⟨hfresh, ?_, fun x hx => ?_, ?_⟩
    · rw [Engine.play_concat, h.engine, Engine.handle, Engine.post, h.find_waiting henv, hsel, Option.map_none]
      simp only [haq, hpq, map_update hp]
    · exact h.messages_kept hs hs' ht (haq ▸ hx) hx
    · change ∀ y ∈ σ'.pq, N.receive (Function.update l.recvAt p r y) (σ'.queries y)
      rw [hpq]
      refine forall_update (fun r y => N.receive r (σ'.queries y)) hp
        (fun y hy => h.receives_kept hs hs' ht hy ?_) ?_
      · rw [hpq]
        exact List.mem_append_left _ hy
      · exact hr _ hx
  | idle he haq hpq => cases he

theorem idle (h : Logged N l) (hs : l.proc.Sound []) (hs' : σ'.Sound []) (ht : Transition l.proc e σ')
    (haq : σ'.aq = l.proc.aq) (hpq : σ'.pq = l.proc.pq) : Logged N (l.record σ' none) := by
  refine ⟨h.fresh, ?_, fun x hx => ?_, fun q hq => ?_⟩
  · rw [Log.record, haq, hpq]
    exact h.engine
  · exact h.messages_kept hs hs' ht (haq ▸ hx) hx
  · exact h.receives_kept hs hs' ht (hpq ▸ hq) hq

/-- One step of a run, with the name that it gives to what it offers. -/
theorem transition (h : Logged N l) (hs : l.proc.Sound []) (he : e.FromPeer) (hflush : e ≠ .flush)
    (ht : Transition l.proc e σ') {x : Option (M ⊕ R)} (hx : N.Labels l.proc e x)
    (hnew : ∀ y, x = some y → y ∉ l.history) : Logged N (l.record σ' x) := by
  have hs' := hs.transition he ht
  have hq := Proc.queueMove_of_transition hs he hflush ht
  cases hx with
  | arrival htype henv hm => exact h.arrival hs hs' htype ht hq henv hm (hnew _ rfl)
  | post hsrc henv hr => exact h.post hs hs' ht hq hsrc henv hr (hnew _ rfl)
  | idle hidle =>
    cases hq with
    | paired htype hsel haq hpq =>
      rw [Event.Idle, htype] at hidle
      cases hidle
    | stored htype hsel haq hpq hconn hx =>
      rw [Event.Idle, htype] at hidle
      cases hidle
    | received hsrc hsel haq hpq => cases hidle
    | awaited hsrc hsel haq hpq hx => cases hidle
    | idle _ haq hpq => exact h.idle hs hs' ht haq hpq

end Step

end Logged

end Libibtl
