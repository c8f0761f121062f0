import Libibtl.StepInversion

/-! # Owned and wired states

`Sound` joins the balance of the places with what the queries in them hold. Every
elementary move keeps it, given what the moved query holds.
-/

namespace Libibtl

open Foundation

namespace Proc

structure Sound (σ : Proc) (hand : List QueryId) : Prop extends σ.Owned hand, σ.Wired

namespace Sound

variable {σ : Proc} {hand : List QueryId} {q p a : QueryId}

theorem init (b : Boot) : (Proc.init b).Sound [] where
  toOwned := Owned.init b
  toWired := by constructor <;> simp [Proc.init]

theorem perm {hand' : List QueryId} (h : σ.Sound hand) (hp : hand'.Perm hand) : σ.Sound hand' :=
  ⟨h.toOwned.perm hp, h.toWired⟩

/-- Requests, user memory, the queue of send requests and the registration cache play no part. -/
theorem user (h : σ.Sound hand) (requests : ReqId → Request) (mem : Nat → Buffer) (sendReqQ : List ReqId)
    (regs : List Mr) (cached : UInt64T) :
    ({ σ with
      requests := requests, mem := mem, sendReqQ := sendReqQ, regMrQ := regs, regMrCachedSize := cached
      } : Proc).Sound hand :=
  ⟨⟨h.custody, h.counter⟩, ⟨h.compute, h.epoch, h.posted, h.arrived, h.waiting, h.sending, h.reading⟩⟩

theorem mem_sending {wr : SendWr} (hwr : wr ∈ σ.sq) (hsend : wr.isRead = false) :
    wr.wrId ∈ σ.place .sending :=
  List.mem_map_of_mem (List.mem_filter.2 ⟨hwr, by simp [hsend]⟩)

theorem mem_reading {wr : SendWr} (hwr : wr ∈ σ.sq) (hread : wr.isRead = true) : wr.wrId ∈ σ.place .reading :=
  List.mem_map_of_mem (List.mem_filter.2 ⟨hwr, hread⟩)

theorem mem_held {wr : SendWr} (hwr : wr ∈ σ.sq) (hread : wr.isRead = true)
    (ha : (σ.queries wr.wrId).activeQueryToFree = some a) : a ∈ σ.place .held :=
  List.mem_filterMap.2 ⟨wr.wrId, mem_reading hwr hread, ha⟩

/-- A query that stands in no place but the pool can be written. -/
theorem heap_of_not_mem {x : Query} (h : σ.Sound hand) (hq : ∀ i, i ≠ .free → q ∉ σ.place i) :
    ({ σ with queries := Function.update σ.queries q x } : Proc).Sound hand := by
  have hne : ∀ i, i ≠ .free → ∀ y ∈ σ.place i, Function.update σ.queries q x y = σ.queries y := by
    intro i hi y hy
    refine Function.update_of_ne ?_ ..
    rintro rfl
    exact hq i hi hy
  refine ⟨h.toOwned.heap fun p hp => by rw [hne .reading (by decide) p hp],
    ⟨h.compute, h.epoch, ?_, ?_, ?_, ?_, ?_⟩⟩
  · intro wr hwr
    dsimp only
    rw [hne .posted (by decide) _ (List.mem_map_of_mem hwr)]
    exact h.posted wr hwr
  · intro a ha
    dsimp only
    rw [hne .arrived (by decide) a ha]
    exact h.arrived a ha
  · intro p hp
    dsimp only
    rw [hne .waiting (by decide) p hp]
    exact h.waiting p hp
  · intro wr hwr hsend
    dsimp only
    rw [hne .sending (by decide) _ (mem_sending hwr hsend)]
    exact h.sending wr hwr hsend
  · intro wr hwr hread
    dsimp only
    rw [hne .reading (by decide) _ (mem_reading hwr hread)]
    obtain ⟨a, r, ha, hflag, hr, hconn, hconna⟩ := h.reading wr hwr hread
    refine ⟨a, r, ha, hflag, hr, hconn, ?_⟩
    rw [hne .held (by decide) a (mem_held hwr hread ha)]
    exact hconna

theorem heap_of_hand {x : Query} (h : σ.Sound hand) (hq : q ∈ hand) :
    ({ σ with queries := Function.update σ.queries q x } : Proc).Sound hand :=
  h.heap_of_not_mem fun i _ => h.not_mem hq i

/-! ## Moves -/

theorem release (h : σ.Sound (q :: hand)) : (σ.destroyQuery q).Sound hand :=
  ⟨h.toOwned.release, ⟨h.compute, h.epoch, h.posted, h.arrived, h.waiting, h.sending, h.reading⟩⟩

theorem takeArrived (h : σ.Sound hand) (ha : a ∈ σ.aq) : ({ σ with aq := σ.aq.erase a } : Proc).Sound (a :: hand) :=
  ⟨h.toOwned.takeArrived ha, ⟨h.compute, h.epoch, h.posted, fun b hb => h.arrived b (List.mem_of_mem_erase hb),
    h.waiting, h.sending, h.reading⟩⟩

theorem takeWaiting (h : σ.Sound hand) (hp : p ∈ σ.pq) : ({ σ with pq := σ.pq.erase p } : Proc).Sound (p :: hand) :=
  ⟨h.toOwned.takeWaiting hp, ⟨h.compute, h.epoch, h.posted, h.arrived,
    fun b hb => h.waiting b (List.mem_of_mem_erase hb), h.sending, h.reading⟩⟩

theorem putArrived (h : σ.Sound (a :: hand)) (hx : (σ.queries a).Arrived) :
    ({ σ with aq := σ.aq ++ [a] } : Proc).Sound hand := by
  refine ⟨h.toOwned.putArrived, ⟨h.compute, h.epoch, h.posted, ?_, h.waiting, h.sending, h.reading⟩⟩
  intro b hb
  rcases List.mem_append.1 hb with hb | hb
  · exact h.arrived b hb
  · rw [List.mem_singleton.1 hb]
    exact hx

theorem putWaiting (h : σ.Sound (p :: hand)) (hx : (σ.queries p).Waiting) :
    ({ σ with pq := σ.pq ++ [p] } : Proc).Sound hand := by
  refine ⟨h.toOwned.putWaiting, ⟨h.compute, h.epoch, h.posted, h.arrived, ?_, h.sending, h.reading⟩⟩
  intro b hb
  rcases List.mem_append.1 hb with hb | hb
  · exact h.waiting b hb
  · rw [List.mem_singleton.1 hb]
    exact hx

theorem putPosted (wr : RecvWr) {n : ConnId → Nat} (h : σ.Sound (wr.wrId :: hand))
    (hx : (σ.queries wr.wrId).Posted wr.conn) :
    ({ σ with rq := σ.rq ++ [wr], posted := n } : Proc).Sound hand := by
  refine ⟨h.toOwned.putPosted wr, ⟨h.compute, h.epoch, ?_, h.arrived, h.waiting, h.sending, h.reading⟩⟩
  intro b hb
  rcases List.mem_append.1 hb with hb | hb
  · exact h.posted b hb
  · rw [List.mem_singleton.1 hb]
    exact hx

theorem takePosted {wr : RecvWr} {t : RecvWr → Bool} {n : ConnId → Nat} (h : σ.Sound hand)
    (hwr : σ.rq.find? t = some wr) :
    ({ σ with rq := σ.rq.eraseP t, completed := n } : Proc).Sound (wr.wrId :: hand) :=
  ⟨h.toOwned.takePosted hwr, ⟨h.compute, h.epoch, fun b hb => h.posted b (List.mem_of_mem_eraseP hb), h.arrived,
    h.waiting, h.sending, h.reading⟩⟩

theorem wired_sq {l : List SendWr} (h : σ.Wired) (hl : ∀ wr ∈ l, wr ∈ σ.sq ∨
      (wr.isRead = false ∧ (σ.queries wr.wrId).Sending wr.conn) ∨
      (wr.isRead = true ∧ (σ.queries wr.wrId).Reading wr.conn σ.queries)) :
    ({ σ with sq := l } : Proc).Wired := by
  refine ⟨h.compute, h.epoch, h.posted, h.arrived, h.waiting, ?_, ?_⟩
  · intro wr hwr hsend
    rcases hl wr hwr with hold | ⟨-, hx⟩ | ⟨hread, -⟩
    · exact h.sending wr hold hsend
    · exact hx
    · rw [hsend] at hread
      cases hread
  · intro wr hwr hread
    rcases hl wr hwr with hold | ⟨hsend, -⟩ | ⟨-, hx⟩
    · exact h.reading wr hold hread
    · rw [hsend] at hread
      cases hread
    · exact hx

theorem putSend (c : ConnId) (wire : Wire) (h : σ.Sound (q :: hand)) (hx : (σ.queries q).Sending c) :
    ({ σ with sq := σ.sq ++ [⟨c, q, .send wire⟩] } : Proc).Sound hand := by
  refine ⟨h.toOwned.putSend, wired_sq h.toWired fun wr hwr => ?_⟩
  rcases List.mem_append.1 hwr with hwr | hwr
  · exact .inl hwr
  · rw [List.mem_singleton.1 hwr]
    exact .inr (.inl ⟨rfl, hx⟩)

theorem putRead {c : ConnId} {sge : Sge} {remote : Place} (h : σ.Sound (p :: a :: hand))
    (hp : (σ.queries p).activeQueryToFree = some a) (hx : (σ.queries p).Reading c σ.queries) :
    ({ σ with sq := σ.sq ++ [⟨c, p, .rdmaRead sge remote⟩] } : Proc).Sound hand := by
  refine ⟨h.toOwned.putRead hp, wired_sq h.toWired fun wr hwr => ?_⟩
  rcases List.mem_append.1 hwr with hwr | hwr
  · exact .inl hwr
  · rw [List.mem_singleton.1 hwr]
    exact .inr (.inr ⟨rfl, hx⟩)

theorem takeSend {wr : SendWr} {t : SendWr → Bool} (h : σ.Sound hand) (hwr : σ.sq.find? t = some wr)
    (hsend : wr.isRead = false) : ({ σ with sq := σ.sq.eraseP t } : Proc).Sound (wr.wrId :: hand) :=
  ⟨h.toOwned.takeSend hwr hsend, wired_sq h.toWired fun _ hb => .inl (List.mem_of_mem_eraseP hb)⟩

theorem takeRead {wr : SendWr} {t : SendWr → Bool} (h : σ.Sound hand) (hwr : σ.sq.find? t = some wr)
    (hread : wr.isRead = true) (hp : (σ.queries wr.wrId).activeQueryToFree = some a) :
    ({ σ with sq := σ.sq.eraseP t } : Proc).Sound (wr.wrId :: a :: hand) :=
  ⟨h.toOwned.takeRead hwr hread hp, wired_sq h.toWired fun _ hb => .inl (List.mem_of_mem_eraseP hb)⟩

theorem grab {g : Grab} (h : σ.Sound hand) (hg : σ.Grabs g) : (σ.grab g).Sound (g.query :: hand) := by
  have hwired := (h.heap_of_not_mem (x := g.content) fun _ hi => h.not_mem_of_grabs hg hi).toWired
  exact ⟨h.toOwned.grab hg, ⟨hwired.compute, hwired.epoch, hwired.posted, hwired.arrived, hwired.waiting,
    hwired.sending, hwired.reading⟩⟩

theorem refill {g : Grab} {c : ConnId} (h : σ.Sound hand) (hg : σ.Grabs g) (hx : σ.Blank (some c) g) :
    (σ.refill c g).Sound hand := by
  refine putPosted (recvWr c g.query g.content.msgMr.lkey) (h.grab hg) ?_
  have hself : (σ.grab g).queries g.query = g.content := Function.update_self ..
  change ((σ.grab g).queries g.query).Posted c
  rw [hself]
  exact ⟨hx.conn, hx.activeQueryToFree⟩

end Sound

end Proc

end Libibtl
