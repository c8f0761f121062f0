import Libibtl.Foundation.Custody
import Libibtl.Pool

/-! # The places of a query

A query is in the pool, posted as a receive, waiting in one of the two matching
queues, or bound to an outstanding work request of the send queue. `Owned` is the
balance of these places, with the queries that a handler holds in its hand.
-/

namespace Libibtl

open Foundation

inductive Role
  | free | posted | arrived | waiting | sending | reading | held
  deriving DecidableEq, Repr

instance : Fintype Role where
  elems := {.free, .posted, .arrived, .waiting, .sending, .reading, .held}
  complete := by rintro (_ | _) <;> simp

namespace Proc

def reads (σ : Proc) : List QueryId := (σ.sq.filter SendWr.isRead).map SendWr.wrId

/-- The queries in a role. `reading` and `held` are the passive query and the
`active_query_to_free` of an outstanding RDMA read. -/
def place (σ : Proc) : Role → List QueryId
  | .free => σ.freeQueryQ
  | .posted => σ.rq.map RecvWr.wrId
  | .arrived => σ.aq
  | .waiting => σ.pq
  | .sending => (σ.sq.filter (!SendWr.isRead ·)).map SendWr.wrId
  | .reading => σ.reads
  | .held => σ.reads.filterMap fun p => (σ.queries p).activeQueryToFree

/-- Every allocated query is in one place or in the hand, and `counter` counts those outside of the pool. -/
structure Owned (σ : Proc) (hand : List QueryId) : Prop where
  custody : Custody σ.place hand (List.range σ.nalloc)
  counter : σ.counter = σ.nalloc - σ.freeQueryQ.length

namespace Owned

variable {σ : Proc} {hand : List QueryId} {q p a : QueryId} {i j : Role}

theorem init (b : Boot) : (Proc.init b).Owned [] := by
  refine ⟨fun q => ?_, rfl⟩
  rw [Finset.sum_eq_zero]
  · rfl
  · intro i _
    cases i <;> rfl

theorem not_mem_of_ne (h : σ.Owned hand) (hq : q ∈ σ.place i) (hij : i ≠ j) : q ∉ σ.place j :=
  h.custody.not_mem_of_ne List.nodup_range hij hq

theorem not_mem (h : σ.Owned hand) (hq : q ∈ hand) (i : Role) : q ∉ σ.place i :=
  h.custody.not_mem_of_hand List.nodup_range hq i

theorem nodup (h : σ.Owned hand) (i : Role) : (σ.place i).Nodup := h.custody.nodup List.nodup_range i

theorem nodup_hand (h : σ.Owned hand) : hand.Nodup := h.custody.nodup_hand List.nodup_range

theorem lt (h : σ.Owned hand) (hq : q ∈ σ.place i) : q < σ.nalloc := by
  simpa using h.custody.mem_inventory hq

theorem lt_of_hand (h : σ.Owned hand) (hq : q ∈ hand) : q < σ.nalloc := by
  simpa using h.custody.mem_inventory_of_hand hq

theorem perm {hand' : List QueryId} (h : σ.Owned hand) (hp : hand'.Perm hand) : σ.Owned hand' :=
  ⟨h.custody.perm_hand hp, h.counter⟩

/-- Only `active_query_to_free` of outstanding reads matters of the heap. -/
theorem heap {Q : QueryId → Query} (h : σ.Owned hand)
    (hQ : ∀ p ∈ σ.reads, (Q p).activeQueryToFree = (σ.queries p).activeQueryToFree) :
    ({ σ with queries := Q } : Proc).Owned hand := by
  refine ⟨h.custody.congr_place fun i => ?_, h.counter⟩
  cases i <;> try rfl
  exact List.filterMap_congr hQ

theorem heap_of_hand {x : Query} (h : σ.Owned hand) (hq : q ∈ hand) :
    ({ σ with queries := Function.update σ.queries q x } : Proc).Owned hand := by
  refine h.heap fun p hp => ?_
  rw [Function.update_of_ne]
  rintro rfl
  exact h.not_mem hq .reading hp

/-! ## Moves -/

theorem release (h : σ.Owned (q :: hand)) : (σ.destroyQuery q).Owned hand := by
  refine ⟨h.custody.put .free (fun j hj => ?_) rfl, ?_⟩
  · cases j <;> first | rfl | exact absurd rfl hj
  · have := h.counter
    simp only [destroyQuery, Queue.enq, List.length_append, List.length_singleton]
    omega

theorem takeArrived (h : σ.Owned hand) (ha : a ∈ σ.aq) :
    ({ σ with aq := σ.aq.erase a } : Proc).Owned (a :: hand) := by
  refine ⟨h.custody.take .arrived (List.perm_cons_erase ha).symm fun j hj => ?_, h.counter⟩
  cases j <;> first | rfl | exact absurd rfl hj

theorem takeWaiting (h : σ.Owned hand) (hp : p ∈ σ.pq) :
    ({ σ with pq := σ.pq.erase p } : Proc).Owned (p :: hand) := by
  refine ⟨h.custody.take .waiting (List.perm_cons_erase hp).symm fun j hj => ?_, h.counter⟩
  cases j <;> first | rfl | exact absurd rfl hj

theorem putArrived (h : σ.Owned (a :: hand)) : ({ σ with aq := σ.aq ++ [a] } : Proc).Owned hand := by
  refine ⟨h.custody.put .arrived (fun j hj => ?_) rfl, h.counter⟩
  cases j <;> first | rfl | exact absurd rfl hj

theorem putWaiting (h : σ.Owned (p :: hand)) : ({ σ with pq := σ.pq ++ [p] } : Proc).Owned hand := by
  refine ⟨h.custody.put .waiting (fun j hj => ?_) rfl, h.counter⟩
  cases j <;> first | rfl | exact absurd rfl hj

theorem putPosted (wr : RecvWr) {n : ConnId → Nat} (h : σ.Owned (wr.wrId :: hand)) :
    ({ σ with rq := σ.rq ++ [wr], posted := n } : Proc).Owned hand := by
  refine ⟨h.custody.put .posted (fun j hj => ?_) ?_, h.counter⟩
  · cases j <;> first | rfl | exact absurd rfl hj
  · simp [place]

theorem takePosted {wr : RecvWr} {t : RecvWr → Bool} {n : ConnId → Nat} (h : σ.Owned hand)
    (hwr : σ.rq.find? t = some wr) :
    ({ σ with rq := σ.rq.eraseP t, completed := n } : Proc).Owned (wr.wrId :: hand) := by
  obtain ⟨-, l₁, l₂, hl, he, -⟩ := Queue.split_of_find? hwr
  refine ⟨h.custody.take .posted ?_ fun j hj => ?_, h.counter⟩
  · simp only [place, he]
    simpa [hl] using List.perm_middle.symm
  · cases j <;> first | rfl | exact absurd rfl hj

theorem putSend {c : ConnId} {wire : Wire} (h : σ.Owned (q :: hand)) :
    ({ σ with sq := σ.sq ++ [⟨c, q, .send wire⟩] } : Proc).Owned hand := by
  refine ⟨h.custody.put .sending (fun j hj => ?_) ?_, h.counter⟩
  · cases j <;> first | rfl | exact absurd rfl hj | simp [place, reads]
  · simp [place]

theorem takeSend {wr : SendWr} {t : SendWr → Bool} (h : σ.Owned hand) (hwr : σ.sq.find? t = some wr)
    (hsend : wr.isRead = false) : ({ σ with sq := σ.sq.eraseP t } : Proc).Owned (wr.wrId :: hand) := by
  obtain ⟨-, l₁, l₂, hl, he, -⟩ := Queue.split_of_find? hwr
  refine ⟨h.custody.take .sending ?_ fun j hj => ?_, h.counter⟩
  · simp only [place, he]
    simpa [hl, hsend] using List.perm_middle.symm
  · have hreads : (σ.sq.eraseP t).filter SendWr.isRead = σ.sq.filter SendWr.isRead := by
      rw [he, hl]
      simp [hsend]
    cases j <;> first | rfl | exact absurd rfl hj | simp only [place, reads, hreads]

/-- A read holds two queries: the passive one and the one that will carry the FIN. -/
theorem putRead {c : ConnId} {sge : Sge} {remote : Place} (h : σ.Owned (p :: a :: hand))
    (hp : (σ.queries p).activeQueryToFree = some a) :
    ({ σ with sq := σ.sq ++ [⟨c, p, .rdmaRead sge remote⟩] } : Proc).Owned hand := by
  have hread : Custody (Function.update σ.place .reading (σ.reads ++ [p])) (a :: hand) (List.range σ.nalloc) :=
    h.custody.put .reading (fun j hj => Function.update_of_ne hj ..) (Function.update_self ..)
  refine ⟨hread.put .held (fun j hj => ?_) ?_, h.counter⟩
  · cases j <;> first | rfl | exact absurd rfl hj | simp [place, reads, List.filter_cons]
  · simp [place, reads, List.filter_cons, hp]

theorem takeRead {wr : SendWr} {t : SendWr → Bool} (h : σ.Owned hand) (hwr : σ.sq.find? t = some wr)
    (hread : wr.isRead = true) (hp : (σ.queries wr.wrId).activeQueryToFree = some a) :
    ({ σ with sq := σ.sq.eraseP t } : Proc).Owned (wr.wrId :: a :: hand) := by
  obtain ⟨-, l₁, l₂, hl, he, -⟩ := Queue.split_of_find? hwr
  let τ : Proc := { σ with sq := σ.sq.eraseP t }
  have hheld : Custody (Function.update σ.place .held (τ.place .held)) (a :: hand) (List.range σ.nalloc) := by
    refine h.custody.take .held ?_ fun j hj => Function.update_of_ne hj ..
    simp only [Function.update_self, place, reads, τ, he]
    simpa [hl, hread, hp] using List.perm_middle.symm
  refine ⟨hheld.take .reading ?_ fun j hj => ?_, h.counter⟩
  · simp only [place, reads, he, Function.update_of_ne (show Role.reading ≠ .held by decide)]
    simpa [hl, hread] using List.perm_middle.symm
  · have hsends : (σ.sq.eraseP t).filter (!SendWr.isRead ·) = σ.sq.filter (!SendWr.isRead ·) := by
      rw [he, hl]
      simp [hread]
    cases j <;> first | rfl | exact absurd rfl hj | simp [place, hsends, τ]

theorem grab {g : Grab} (h : σ.Owned hand) (hg : σ.Grabs g) : (σ.grab g).Owned (g.query :: hand) := by
  obtain ⟨q, free, n, regs, cached, x⟩ := g
  have hcounter := h.counter
  simp only [Grabs] at hg
  rcases hg with ⟨hmem, rfl, rfl⟩ | ⟨rfl, rfl, rfl⟩
  · have htake : ({ σ with
        counter := σ.counter + 1, freeQueryQ := σ.freeQueryQ.erase q
        regMrQ := regs, regMrCachedSize := cached } : Proc).Owned (q :: hand) := by
      refine ⟨h.custody.take .free (List.perm_cons_erase hmem).symm fun j hj => ?_, ?_⟩
      · cases j <;> first | rfl | exact absurd rfl hj
      · have := List.length_pos_of_mem hmem
        simp only [List.length_erase_of_mem hmem]
        omega
    exact htake.heap_of_hand List.mem_cons_self
  · have hgrow : ({ σ with
        counter := σ.counter + 1, nalloc := σ.nalloc + 1
        regMrQ := regs, regMrCachedSize := cached } : Proc).Owned (σ.nalloc :: hand) := by
      refine ⟨?_, ?_⟩
      · rw [List.range_succ]
        exact h.custody.grow σ.nalloc
      · push_cast
        omega
    exact hgrow.heap_of_hand List.mem_cons_self

theorem refill {g : Grab} (h : σ.Owned hand) (hg : σ.Grabs g) (c : ConnId) : (σ.refill c g).Owned hand :=
  putPosted (recvWr c g.query g.content.msgMr.lkey) (h.grab hg)

/-- A grabbed query was in no other place. -/
theorem not_mem_of_grabs {g : Grab} (h : σ.Owned hand) (hg : σ.Grabs g) (hi : i ≠ .free) : g.query ∉ σ.place i := by
  intro hq
  rcases hg with ⟨hmem, -⟩ | ⟨hnew, -⟩
  · exact h.not_mem_of_ne (i := .free) hmem hi.symm hq
  · exact absurd (hnew ▸ h.lt hq) (Nat.lt_irrefl _)

end Owned

end Proc

end Libibtl
