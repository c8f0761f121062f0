import Libibtl.Ownership

/-! # What a step leaves alone

A step writes to queries that are new, come from the pool or are posted, and to
queries that it moves to another place. A query that stays where it is keeps its
content, unless it is a receive that has been posted again.
-/

namespace Libibtl

open Foundation

namespace Proc

variable {σ σ' : Proc} {x t : QueryId} {i j k : Role}

theorem ne_of_moved (ho : σ.Owned []) (ho' : σ'.Owned []) (hx : x ∈ σ.place i) (hx' : x ∈ σ'.place i)
    (ht : t ∈ σ.place j) (ht' : t ∈ σ'.place k) (hjk : j ≠ k) : x ≠ t := by
  rintro rfl
  by_cases hij : i = j
  · subst hij
    exact ho'.not_mem_of_ne hx' hjk ht'
  · exact ho.not_mem_of_ne hx hij ht

theorem Refills.queries_eq {c : ConnId} {n : Nat} (h : Refills c σ n σ') (hx : x ∉ σ'.place .posted) :
    σ'.queries x = σ.queries x := by
  induction h with
  | zero => rfl
  | @succ n τ g _ _ _ ih =>
    have hne : x ≠ g.query := by
      rintro rfl
      apply hx
      simp [place, recvWr]
    have hposted : x ∉ τ.place .posted := by
      intro hmem
      apply hx
      simp only [place, refill_rq, List.map_append, List.mem_append]
      exact .inl hmem
    rw [refill_queries, grab_queries, Function.update_of_ne hne]
    exact ih hposted

theorem mem_posted_refill (σ : Proc) (c : ConnId) (g : Grab) : g.query ∈ (σ.refill c g).place .posted := by
  simp [place, recvWr]

theorem mem_sending_of_find {c : ConnId} {q : QueryId} {wire : Wire}
    (h : σ.sq.find? (·.conn = c) = some ⟨c, q, .send wire⟩) : q ∈ σ.place .sending :=
  Sound.mem_sending (List.mem_of_find?_eq_some h) rfl

theorem mem_reading_of_find {c : ConnId} {p : QueryId} {sge : Sge} {remote : Place}
    (h : σ.sq.find? (·.conn = c) = some ⟨c, p, .rdmaRead sge remote⟩) : p ∈ σ.place .reading :=
  Sound.mem_reading (List.mem_of_find?_eq_some h) rfl

theorem mem_posted_of_find {c : ConnId} {wr : RecvWr} (h : σ.rq.find? (·.conn = c) = some wr) :
    wr.wrId ∈ σ.place .posted := List.mem_map_of_mem (List.mem_of_find?_eq_some h)

theorem kept {e : Event} (ht : Transition σ e σ') (hs : σ.Sound []) (hs' : σ'.Sound [])
    (hfree : i ≠ .free) (hposted : i ≠ .posted) (hx : x ∈ σ.place i) (hx' : x ∈ σ'.place i) :
    σ'.queries x = σ.queries x := by
  have hgrab : ∀ {g : Grab}, σ.Grabs g → x ≠ g.query := by
    rintro g hg rfl
    exact hs.not_mem_of_grabs hg hfree hx
  have hrefill : ∀ {τ c g}, σ' = refill τ c g → x ≠ g.query := by
    rintro τ c g rfl rfl
    exact hs'.not_mem_of_ne (mem_posted_refill τ c g) hposted.symm hx'
  have harrive : ∀ {c wr}, σ.rq.find? (·.conn = c) = some wr → x ≠ wr.wrId := by
    rintro c wr hwr rfl
    exact hs.not_mem_of_ne (mem_posted_of_find hwr) hposted.symm hx
  cases ht with
  | launch hpeer hg hx => exact Function.update_of_ne (hgrab hg) ..
  | accept hsrc hsel hop => rfl
  | fetch hsrc hsel hop hconn hg hx hc ha => exact Function.update_of_ne (hgrab hg) ..
  | await hsrc hsel hg hx hepoch => exact Function.update_of_ne (hgrab hg) ..
  | deliver htype hwr hsel hop hr hg hx =>
    exact (Function.update_of_ne (hrefill rfl) ..).trans (Function.update_of_ne (harrive hwr) ..)
  | @startRead c w wr p regs cached mr g htype hwr hsel hop hg hx =>
    have hread : p ∈ (((σ.arrive c wr.wrId w).startRead c p wr.wrId regs cached mr).refill c g).place .reading := by
      simp [place, reads, List.filter_cons]
    have hne : x ≠ p := ne_of_moved (j := .waiting) hs.toOwned hs'.toOwned ‹_› hx'
      (List.mem_of_find?_eq_some hsel) hread (by decide)
    exact (Function.update_of_ne (hrefill rfl) ..).trans <| (Function.update_of_ne hne ..).trans
      (Function.update_of_ne (harrive hwr) ..)
  | store htype hwr hsel hg hx =>
    exact (Function.update_of_ne (hrefill rfl) ..).trans (Function.update_of_ne (harrive hwr) ..)
  | finish htype hwr hg hx =>
    exact (Function.update_of_ne (hrefill rfl) ..).trans (Function.update_of_ne (harrive hwr) ..)
  | sentEager hwr htype hop hr =>
    refine Function.update_of_ne (ne_of_moved (k := .free) hs.toOwned hs'.toOwned hx hx' (mem_sending_of_find hwr)
      ?_ (by decide)) ..
    simp [place]
  | sentOther hwr hother =>
    refine Function.update_of_ne (ne_of_moved (k := .free) hs.toOwned hs'.toOwned hx hx' (mem_sending_of_find hwr)
      ?_ (by decide)) ..
    simp [place]
  | @readDone c p a r sge remote data msg wire hwr ha hr hmsg hwire =>
    have hne : x ≠ a := by
      refine ne_of_moved (j := .held) (k := .sending) hs.toOwned hs'.toOwned hx hx'
        (Sound.mem_held (List.mem_of_find?_eq_some hwr) rfl ha) ?_ (by decide)
      simp [place]
    have hne' : x ≠ p := by
      refine ne_of_moved (k := .free) hs.toOwned hs'.toOwned hx hx' (mem_reading_of_find hwr) ?_ (by decide)
      simp [place]
    exact (Function.update_of_ne hne ..).trans (Function.update_of_ne hne' ..)
  | flush => rfl
  | link hl => cases hl <;> rfl
  | establish hcm hc hτ => exact hτ.queries_eq fun hmem => hs'.not_mem_of_ne (i := .posted) hmem hposted.symm hx'

end Proc

end Libibtl
