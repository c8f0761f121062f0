import Libibtl.ConnectionIdentity

/-! # Receive credit

Every receive completion of a connection is answered by one new receive on the
same connection. An established connection therefore always has the same number
of outstanding receives, and one that is not established has none.
-/

namespace Libibtl

open Foundation

namespace Proc

def outstanding (σ : Proc) (c : ConnId) : List RecvWr := σ.rq.filter (·.conn = c)

structure Credits (σ : Proc) : Prop where
  balance : ∀ c, σ.posted c = σ.completed c + (σ.outstanding c).length
  full : ∀ c < σ.nconn, σ.cm (σ.conns c).rcid = .established → (σ.outstanding c).length = maxPendingRecvQuery
  empty : ∀ c < σ.nconn, σ.cm (σ.conns c).rcid ≠ .established → σ.outstanding c = []

variable {σ σ' : Proc}

theorem Credits.init (b : Boot) : (Proc.init b).Credits := by
  constructor <;> simp [Proc.init, outstanding]

theorem Credits.of_sameTables (h : σ.Credits) (hs : SameTables σ σ') (hrq : σ'.rq = σ.rq)
    (hposted : σ'.posted = σ.posted) (hcompleted : σ'.completed = σ.completed) : σ'.Credits := by
  constructor <;> simp only [outstanding, hrq, hposted, hcompleted, hs.cm, hs.conns, hs.nconn]
  · exact h.balance
  · exact h.full
  · exact h.empty

/-! ## One receive completes and is replaced -/

theorem length_filter_replace {l : List RecvWr} {c : ConnId} {wr : RecvWr} (hwr : l.find? (·.conn = c) = some wr)
    (q : QueryId) (k : UInt32T) (c' : ConnId) :
    ((l.eraseP (·.conn = c) ++ [recvWr c q k]).filter (·.conn = c')).length =
      (l.filter (·.conn = c')).length := by
  obtain ⟨hc, l₁, l₂, hl, he, -⟩ := Queue.split_of_find? hwr
  have hconn : wr.conn = c := by simpa using hc
  rw [he, hl]
  by_cases hcc : c = c'
  · simp [recvWr, hconn, hcc]
  · simp [recvWr, hconn, hcc]

theorem Credits.replace (h : σ.Credits) {c : ConnId} {wr : RecvWr} (hwr : σ.rq.find? (·.conn = c) = some wr)
    {q : QueryId} {k : UInt32T} (hs : SameTables σ σ') (hrq : σ'.rq = σ.rq.eraseP (·.conn = c) ++ [recvWr c q k])
    (hposted : σ'.posted = Function.update σ.posted c (σ.posted c + 1))
    (hcompleted : σ'.completed = Function.update σ.completed c (σ.completed c + 1)) : σ'.Credits := by
  have hlength : ∀ c', (σ'.outstanding c').length = (σ.outstanding c').length := by
    intro c'
    rw [outstanding, hrq]
    exact length_filter_replace hwr q k c'
  constructor
  · intro c'
    have := h.balance c'
    rw [hlength, hposted, hcompleted]
    by_cases hcc : c' = c
    · subst hcc
      rw [Function.update_self, Function.update_self]
      omega
    · rw [Function.update_of_ne hcc, Function.update_of_ne hcc]
      exact this
  · intro c' hc' hest
    rw [hs.nconn] at hc'
    rw [hs.cm, hs.conns] at hest
    rw [hlength]
    exact h.full c' hc' hest
  · intro c' hc' hest
    rw [hs.nconn] at hc'
    rw [hs.cm, hs.conns] at hest
    refine List.length_eq_zero_iff.1 ?_
    rw [hlength, h.empty c' hc' hest, List.length_nil]

/-! ## Connections are made and established -/

theorem Linked.established_iff {e : Event} (hl : σ.Linked e σ') (id' : CmId) :
    σ'.cm id' = .established ↔ σ.cm id' = .established := by
  have hupdate : ∀ id phase, σ.cm id ≠ .established → phase ≠ CmPhase.established →
      (Function.update σ.cm id phase id' = .established ↔ σ.cm id' = .established) := by
    intro id phase hold hnew
    by_cases hid : id' = id
    · subst hid
      simp [hold, hnew]
    · rw [Function.update_of_ne hid]
  cases hl with
  | connect hcm htab => exact hupdate _ _ (by simp [hcm]) (by decide)
  | reject hcm => exact hupdate _ _ (by simp [hcm]) (by decide)
  | acceptRequest hcm htab hd => exact hupdate _ _ (by simp [hcm]) (by decide)
  | resolve hcm hslot hd => exact hupdate _ _ (by simp [hcm]) (by decide)
  | drop hcm hd => exact hupdate _ _ (by simp [hcm]) (by decide)
  | route hcm => exact hupdate _ _ (by simp [hcm]) (by decide)

/-- Connections are only added, and a new one is not established. -/
theorem Linked.conns_cases {e : Event} (hl : σ.Linked e σ') {c : ConnId} (hc : c < σ'.nconn) :
    (c < σ.nconn ∧ σ'.conns c = σ.conns c) ∨ (c = σ.nconn ∧ σ.cm (σ'.conns c).rcid ≠ .established) := by
  cases hl with
  | connect _ _ => exact .inl ⟨hc, rfl⟩
  | reject _ => exact .inl ⟨hc, rfl⟩
  | route _ => exact .inl ⟨hc, rfl⟩
  | acceptRequest hcm _ _ =>
    rcases Nat.lt_succ_iff_lt_or_eq.1 hc with hc | rfl
    · exact .inl ⟨hc, Function.update_of_ne (Nat.ne_of_lt hc) ..⟩
    · exact .inr ⟨rfl, by simp [hcm]⟩
  | resolve hcm _ _ =>
    rcases Nat.lt_succ_iff_lt_or_eq.1 hc with hc | rfl
    · exact .inl ⟨hc, Function.update_of_ne (Nat.ne_of_lt hc) ..⟩
    · exact .inr ⟨rfl, by simp [hcm]⟩
  | drop hcm _ =>
    rcases Nat.lt_succ_iff_lt_or_eq.1 hc with hc | rfl
    · exact .inl ⟨hc, Function.update_of_ne (Nat.ne_of_lt hc) ..⟩
    · exact .inr ⟨rfl, by simp [hcm]⟩

theorem Linked.queues {e : Event} (hl : σ.Linked e σ') :
    σ'.rq = σ.rq ∧ σ'.posted = σ.posted ∧ σ'.completed = σ.completed := by
  cases hl <;> exact ⟨rfl, rfl, rfl⟩

theorem Credits.linked (h : σ.Credits) (hreg : σ.Registered) {e : Event} (hl : σ.Linked e σ') : σ'.Credits := by
  obtain ⟨hrq, hposted, hcompleted⟩ := hl.queues
  have hout : ∀ c, σ'.outstanding c = σ.outstanding c := fun c => by rw [outstanding, hrq, outstanding]
  have hnew : σ.outstanding σ.nconn = [] := by
    refine List.filter_eq_nil_iff.2 fun wr hwr => ?_
    have := hreg.posted wr hwr
    simpa using Nat.ne_of_lt this
  constructor
  · intro c
    rw [hposted, hcompleted, hout]
    exact h.balance c
  · intro c hc hest
    rw [hl.established_iff] at hest
    rw [hout]
    rcases hl.conns_cases hc with ⟨hlt, hconn⟩ | ⟨rfl, hne⟩
    · rw [hconn] at hest
      exact h.full c hlt hest
    · exact absurd hest hne
  · intro c hc hest
    rw [Ne, hl.established_iff] at hest
    rw [hout]
    rcases hl.conns_cases hc with ⟨hlt, hconn⟩ | ⟨rfl, hne⟩
    · rw [hconn] at hest
      exact h.empty c hlt hest
    · exact hnew

theorem Refills.credits {c : ConnId} {n : Nat} (h : Refills c σ n σ') (c' : ConnId) :
    (σ'.outstanding c').length = (σ.outstanding c').length + (if c' = c then n else 0) ∧
      σ'.posted c' = σ.posted c' + (if c' = c then n else 0) := by
  induction h with
  | zero => simp
  | @succ n τ g _ _ _ ih =>
    obtain ⟨hout, hposted⟩ := ih
    by_cases hcc : c' = c
    · subst hcc
      simp only [outstanding] at hout
      constructor
      · simp [outstanding, refill_rq, recvWr, List.filter_append, hout]
        omega
      · simp [hposted]
        omega
    · have hne : c ≠ c' := fun h => hcc h.symm
      simp only [if_neg hcc, outstanding] at hout hposted ⊢
      constructor
      · simp [refill_rq, recvWr, List.filter_append, hne, hout]
      · simp [Function.update_of_ne hcc, hposted]

theorem Credits.establish (h : σ.Credits) (hreg : σ.Registered) {id : CmId} {c : ConnId}
    (hcm : σ.cm id = .connecting ∨ σ.cm id = .accepted) (hc : c < σ.nconn) (hrcid : (σ.conns c).rcid = id)
    (hτ : Refills c σ maxPendingRecvQuery σ') (f : Peer → Peer) (rank : CInt) :
    ((σ'.setPeer rank f).setPhase id .established).Credits := by
  have hcompleted : σ'.completed = σ.completed := by rw [hτ.rest]
  have hnconn : σ'.nconn = σ.nconn := by rw [hτ.rest]
  have hconns : σ'.conns = σ.conns := by rw [hτ.rest]
  have hphase : σ'.cm = σ.cm := by rw [hτ.rest]
  have hnot : σ.cm id ≠ .established := by rcases hcm with hcm | hcm <;> simp [hcm]
  have hnone : σ.outstanding c = [] := h.empty c hc (by rw [hrcid]; exact hnot)
  constructor
  · intro c'
    obtain ⟨hout, hposted⟩ := hτ.credits c'
    have := h.balance c'
    change σ'.posted c' = σ'.completed c' + (σ'.outstanding c').length
    rw [hposted, hcompleted, hout]
    omega
  · intro c' hc' hest
    change c' < σ'.nconn at hc'
    change Function.update σ'.cm id .established (σ'.conns c').rcid = .established at hest
    rw [hnconn] at hc'
    rw [hphase, hconns] at hest
    obtain ⟨hout, -⟩ := hτ.credits c'
    change (σ'.outstanding c').length = _
    rw [hout]
    by_cases hcc : c' = c
    · rw [if_pos hcc, hcc, hnone, List.length_nil, Nat.zero_add]
    · have hne : (σ.conns c').rcid ≠ id := fun heq => hcc (hreg.injective c' hc' c hc (heq.trans hrcid.symm))
      rw [Function.update_of_ne hne] at hest
      rw [if_neg hcc, Nat.add_zero]
      exact h.full c' hc' hest
  · intro c' hc' hest
    change c' < σ'.nconn at hc'
    change Function.update σ'.cm id .established (σ'.conns c').rcid ≠ .established at hest
    rw [hnconn] at hc'
    rw [hphase, hconns] at hest
    obtain ⟨hout, -⟩ := hτ.credits c'
    have hne : (σ.conns c').rcid ≠ id := by
      rintro heq
      rw [heq, Function.update_self] at hest
      exact hest rfl
    have hcc : c' ≠ c := by
      rintro rfl
      exact hne hrcid
    rw [Function.update_of_ne hne] at hest
    change σ'.outstanding c' = []
    refine List.length_eq_zero_iff.1 ?_
    rw [hout, if_neg hcc, h.empty c' hc' hest, List.length_nil]

theorem Credits.transition (h : σ.Credits) (hreg : σ.Registered) (hslot : σ.Slotted) {e : Event}
    (ht : Transition σ e σ') : σ'.Credits := by
  cases ht with
  | launch _ _ _ | accept _ _ _ | fetch _ _ _ _ _ _ _ _ | await _ _ _ _ _ | sentEager _ _ _ _ | sentOther _ _
  | readDone _ _ _ _ _ | flush => exact h.of_sameTables ⟨rfl, rfl, rfl, rfl, rfl, rfl⟩ rfl rfl rfl
  | deliver _ hwr _ _ _ _ _ => exact h.replace hwr ⟨rfl, rfl, rfl, rfl, rfl, rfl⟩ rfl rfl rfl
  | startRead _ hwr _ _ _ _ => exact h.replace hwr ⟨rfl, rfl, rfl, rfl, rfl, rfl⟩ rfl rfl rfl
  | store _ hwr _ _ _ => exact h.replace hwr ⟨rfl, rfl, rfl, rfl, rfl, rfl⟩ rfl rfl rfl
  | finish _ hwr _ _ => exact h.replace hwr ⟨rfl, rfl, rfl, rfl, rfl, rfl⟩ rfl rfl rfl
  | link hl => exact h.linked hreg hl
  | @establish id c τ hcm hc hτ =>
    have hslotted : (σ.cm id).slotted := by rcases hcm with hcm | hcm <;> rw [hcm] <;> rfl
    obtain ⟨c', hc', hrcid⟩ := hslot id hslotted
    obtain rfl : c' = c := Option.some.inj (hc'.symm.trans hc)
    exact h.establish hreg hcm (hreg.slot _ _ hc) hrcid hτ _ _

end Proc

open Proc

end Libibtl
