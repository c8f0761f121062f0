import Libibtl.Foundation.MatchingLaws
import Mathlib.Data.List.Zip

/-! # Order of the first-match engine

Neither side of a pair is overtaken: an older item that would have matched was
paired before. When matching is equality of keys the pairs of a key are the
arrivals and the posts of that key, position by position. When each item matches
at most one other item the pairs do not depend on the interleaving at all.
-/

namespace Libibtl.Foundation

universe u v w

variable {M : Type u} {R : Type v} [DecidableEq M] [DecidableEq R]

/-- An older arrival that matches `r` was paired before `r` took a newer one. -/
theorem arrival_not_overtaken (ok : M → R → Bool) {h : List (M ⊕ R)} (hn : h.Nodup)
    {before after : List (M × R)} {m₁ m₂ : M} {r : R}
    (hp : (Engine.play ok h).pairs = before ++ (m₂, r) :: after)
    (hord : List.Sublist [m₁, m₂] (arrivals h)) (hok : ok m₁ r = true) : m₁ ∈ before.map Prod.fst := by
  induction h using List.reverseRecOn generalizing after with
  | nil => simp [Engine.empty] at hp
  | append_singleton h x ih =>
    obtain ⟨hnh, -, hnew⟩ := List.nodup_append.mp hn
    have hs := settled_play ok hnh
    rw [Engine.play_concat] at hp
    have hm₁ : ∀ {after'}, (Engine.play ok h).pairs = before ++ (m₂, r) :: after' →
        m₁ ∈ before.map Prod.fst := by
      intro after' hp'
      apply ih hnh hp'
      have hm₂ : m₂ ∈ arrivals h := hs.arrived (m₂, r) (by simp [hp'])
      cases x with
      | inl m =>
        rw [arrivals_concat_inl] at hord
        refine before_of_before_concat hord ?_
        rintro rfl
        exact hnew _ ((mem_arrivals h m₂).mp hm₂) _ List.mem_cons_self rfl
      | inr r' => rwa [arrivals_concat_inr] at hord
    cases x with
    | inl m =>
      rw [Engine.handle, Engine.arrive] at hp
      split at hp
      · rename_i r' hfind
        rcases List.eq_nil_or_concat after with rfl | ⟨after', p, rfl⟩
        · -- the pair is formed now: an unpaired `m₁` would wait beside the pending `r`
          obtain ⟨hpairs, hlast⟩ := List.append_inj' hp rfl
          obtain ⟨⟨rfl, rfl⟩, -⟩ := List.cons_eq_cons.mp hlast |>.imp_left Prod.mk.inj
          by_contra hunpaired
          rw [arrivals_concat_inl] at hord
          obtain ⟨l₁, l₂, hl, h₁, h₂⟩ := List.sublist_append_iff.mp hord
          have hlen : l₂.length ≤ 1 := h₂.length_le
          have hmem : m₁ ∈ arrivals h := by
            cases l₁ with
            | nil =>
              rw [List.nil_append] at hl
              subst hl
              simp at hlen
            | cons y l₁ =>
              obtain ⟨rfl, -⟩ := List.cons_eq_cons.mp hl
              exact h₁.subset List.mem_cons_self
          have hwait := hs.mem_waiting.mpr ⟨hmem, hpairs ▸ hunpaired⟩
          rw [hs.stuckFree _ hwait _ (List.mem_of_find?_eq_some hfind)] at hok
          cases hok
        · rw [List.concat_eq_append, ← List.cons_append, ← List.append_assoc] at hp
          exact hm₁ (List.append_inj' hp rfl).1
      · exact hm₁ hp
    | inr r' =>
      rw [Engine.handle, Engine.post] at hp
      rw [arrivals_concat_inr] at hord
      split at hp
      · rename_i m hfind
        rcases List.eq_nil_or_concat after with rfl | ⟨after', p, rfl⟩
        · -- an unpaired `m₁` stands before `m₂` in the queue, so the search would stop there
          obtain ⟨hpairs, hlast⟩ := List.append_inj' hp rfl
          obtain ⟨⟨rfl, rfl⟩, -⟩ := List.cons_eq_cons.mp hlast |>.imp_left Prod.mk.inj
          by_contra hunpaired
          have hm := (hs.mem_waiting.mp (List.mem_of_find?_eq_some hfind)).2
          have hsub : List.Sublist [m₁, m] (Engine.play ok h).waiting := by
            rw [hs.waiting_eq]
            have := hord.filter fun x => decide (x ∉ (Engine.play ok h).pairs.map Prod.fst)
            rwa [List.filter_cons_of_pos (by rw [hpairs]; simpa using hunpaired),
              List.filter_cons_of_pos (by simpa using hm), List.filter_nil] at this
          rw [not_of_before_find (hs.waiting_nodup hnh) hfind hsub] at hok
          cases hok
        · rw [List.concat_eq_append, ← List.cons_append, ← List.append_assoc] at hp
          exact hm₁ (List.append_inj' hp rfl).1
      · exact hm₁ hp

/-- An older post that matches `m` was paired before `m` took a newer one. -/
theorem post_not_overtaken (ok : M → R → Bool) {h : List (M ⊕ R)} (hn : h.Nodup)
    {before after : List (M × R)} {m : M} {r₁ r₂ : R}
    (hp : (Engine.play ok h).pairs = before ++ (m, r₂) :: after)
    (hord : List.Sublist [r₁, r₂] (posts h)) (hok : ok m r₁ = true) : r₁ ∈ before.map Prod.snd := by
  have hn' := hn.map (Function.LeftInverse.injective (Sum.swap_swap (α := M) (β := R)))
  have hp' : (Engine.play (fun r m => ok m r) (h.map Sum.swap)).pairs =
      before.map Prod.swap ++ (r₂, m) :: after.map Prod.swap := by
    rw [← Engine.play_swap, Engine.swap, hp, List.map_append, List.map_cons]
    rfl
  rw [← arrivals_swap] at hord
  have := arrival_not_overtaken _ hn' hp' hord hok
  rwa [map_fst_swap] at this

/-! ## Matching by a key -/

theorem find?_eq_head?_filter_of_forall {α : Type u} {p q : α → Bool} {l : List α}
    (h : ∀ x ∈ l, p x = q x) : l.find? p = (l.filter q).head? := by
  rw [← List.filter_congr h, List.head?_filter]

theorem filter_erase_of_nodup {α : Type u} [DecidableEq α] {l : List α} (hn : l.Nodup) (q : α → Bool)
    (x : α) : (l.erase x).filter q = (l.filter q).erase x := by
  rw [hn.erase_eq_filter, (hn.filter q).erase_eq_filter, List.filter_filter, List.filter_filter]
  simp only [Bool.and_comm]

theorem zip_concat_of_length_le {α : Type u} {β : Type v} {l₁ : List α} {l₂ : List β} {x : α}
    (h : l₂.length ≤ l₁.length) : (l₁ ++ [x]).zip l₂ = l₁.zip l₂ := by
  induction l₁ generalizing l₂ with
  | nil => simp [List.eq_nil_of_length_eq_zero (Nat.le_zero.mp h)]
  | cons a l₁ ih =>
    cases l₂ with
    | nil => simp
    | cons b l₂ => simpa using ih (Nat.le_of_succ_le_succ h)

theorem zip_concat_of_drop {α : Type u} {β : Type v} {l₁ : List α} {l₂ rest : List β} {x : α} {y : β}
    (h : l₂.drop l₁.length = y :: rest) : (l₁ ++ [x]).zip l₂ = l₁.zip l₂ ++ [(x, y)] := by
  induction l₁ generalizing l₂ with
  | nil =>
    rw [List.length_nil, List.drop_zero] at h
    simp [h]
  | cons a l₁ ih =>
    cases l₂ with
    | nil => simp at h
    | cons b l₂ => simpa using ih (by simpa using h)

section Keyed

variable {K : Type w} [DecidableEq K] (κ : M → K) (κ' : R → K)

/-- The items of one key: the pairs are formed by position, the surplus of either side waits. -/
structure Keyed (k : K) (h : List (M ⊕ R)) (e : Engine M R) : Prop where
  pairs_eq : e.pairs.filter (fun p => κ p.1 = k) =
    ((arrivals h).filter (κ · = k)).zip ((posts h).filter (κ' · = k))
  waiting_eq : e.waiting.filter (κ · = k) =
    ((arrivals h).filter (κ · = k)).drop ((posts h).filter (κ' · = k)).length
  pending_eq : e.pending.filter (κ' · = k) =
    ((posts h).filter (κ' · = k)).drop ((arrivals h).filter (κ · = k)).length

variable {κ κ'} {ok : M → R → Bool} {h : List (M ⊕ R)} {e : Engine M R} {k : K}

omit [DecidableEq M] [DecidableEq R] in
theorem Keyed.swap (hk : Keyed κ κ' k h e) (hm : ∀ p ∈ e.pairs, κ p.1 = κ' p.2) :
    Keyed κ' κ k (h.map Sum.swap) e.swap where
  pairs_eq := by
    rw [arrivals_swap, posts_swap, ← List.zip_swap, ← hk.pairs_eq, Engine.swap, List.filter_map]
    congr 1
    apply List.filter_congr
    intro p hp
    simp [hm p hp]
  waiting_eq := by
    rw [arrivals_swap, posts_swap]
    exact hk.pending_eq
  pending_eq := by
    rw [arrivals_swap, posts_swap]
    exact hk.waiting_eq

omit [DecidableEq M] in
theorem Keyed.arrive (hk : Keyed κ κ' k h e) (hn : e.pending.Nodup) {m : M}
    (hok : ∀ r ∈ e.pending, ok m r = decide (κ' r = κ m)) :
    Keyed κ κ' k (h ++ [.inl m]) (e.arrive ok m) := by
  rw [Engine.arrive, find?_eq_head?_filter_of_forall hok]
  by_cases hmk : κ m = k
  · have hsnoc : (arrivals (h ++ [.inl m])).filter (κ · = k) = (arrivals h).filter (κ · = k) ++ [m] := by
      rw [arrivals_concat_inl, List.filter_append, List.filter_cons_of_pos (by simpa using hmk), List.filter_nil]
    cases hrest : (e.pending.filter (κ' · = κ m)) with
    | nil =>
      -- no surplus post of the key: the new arrival joins the surplus of its own side
      rw [hmk, hk.pending_eq] at hrest
      have hlen := List.drop_eq_nil_iff.mp hrest
      constructor <;> rw [hsnoc, posts_concat_inl]
      · rw [zip_concat_of_length_le hlen]
        exact hk.pairs_eq
      · rw [List.drop_append_of_le_length hlen, ← hk.waiting_eq]
        simp [hmk]
      · rw [List.drop_eq_nil_iff.mpr (by rw [List.length_append]; omega)]
        exact hk.pending_eq.trans hrest
    | cons r rest =>
      have hpend := hrest
      rw [hmk, hk.pending_eq] at hrest
      have hlt : ((arrivals h).filter (κ · = k)).length < ((posts h).filter (κ' · = k)).length := by
        by_contra hle
        rw [List.drop_eq_nil_iff.mpr (by omega)] at hrest
        cases hrest
      constructor <;> rw [hsnoc, posts_concat_inl]
      · rw [zip_concat_of_drop hrest, ← hk.pairs_eq]
        simp [hmk]
      · rw [List.drop_eq_nil_iff.mpr (by rw [List.length_append, List.length_singleton]; omega)]
        exact hk.waiting_eq.trans (List.drop_eq_nil_iff.mpr (by omega))
      · rw [List.length_append, List.length_singleton, ← List.drop_drop, hrest]
        change (e.pending.erase r).filter (κ' · = k) = rest
        rw [filter_erase_of_nodup hn, ← hmk, hpend, List.erase_cons_head]
  · have hsame : (arrivals (h ++ [.inl m])).filter (κ · = k) = (arrivals h).filter (κ · = k) := by
      rw [arrivals_concat_inl, List.filter_append, List.filter_cons_of_neg (by simpa using hmk), List.filter_nil,
        List.append_nil]
    cases hrest : (e.pending.filter (κ' · = κ m)) with
    | nil =>
      constructor <;> rw [hsame, posts_concat_inl]
      · exact hk.pairs_eq
      · rw [← hk.waiting_eq]
        simp [hmk]
      · exact hk.pending_eq
    | cons r rest =>
      have hr : κ' r = κ m := by
        have := (List.mem_filter.mp (hrest ▸ List.mem_cons_self : r ∈ e.pending.filter (κ' · = κ m))).2
        simpa using this
      constructor <;> rw [hsame, posts_concat_inl]
      · rw [← hk.pairs_eq]
        simp [hmk]
      · exact hk.waiting_eq
      · rw [← hk.pending_eq]
        change (e.pending.erase r).filter (κ' · = k) = _
        rw [filter_erase_of_nodup hn, List.erase_of_not_mem (by simp [hr, hmk])]

theorem Settled.keys_eq (hs : Settled ok h e)
    (hok : ∀ m ∈ arrivals h, ∀ r ∈ posts h, ok m r = decide (κ m = κ' r)) : ∀ p ∈ e.pairs, κ p.1 = κ' p.2 := by
  intro p hp
  have := hs.matched p hp
  rw [hok p.1 (hs.arrived p hp) p.2 (hs.posted p hp)] at this
  exact of_decide_eq_true this

/-- Pairing by position: the pairs of a key are its arrivals and its posts, zipped. -/
theorem keyed_play {h : List (M ⊕ R)} (hn : h.Nodup)
    (hok : ∀ m ∈ arrivals h, ∀ r ∈ posts h, ok m r = decide (κ m = κ' r)) (k : K) :
    Keyed κ κ' k h (Engine.play ok h) := by
  induction h using List.reverseRecOn with
  | nil => exact ⟨rfl, rfl, rfl⟩
  | append_singleton h x ih =>
    have hnh := (List.nodup_append.mp hn).1
    have hs := settled_play ok hnh
    have hold : ∀ m ∈ arrivals h, ∀ r ∈ posts h, ok m r = decide (κ m = κ' r) := fun m hm r hr =>
      hok m ((List.sublist_append_left h [x]).filterMap _ |>.subset hm) r
        ((List.sublist_append_left h [x]).filterMap _ |>.subset hr)
    have hk := ih hnh hold
    rw [Engine.play_concat]
    cases x with
    | inl m =>
      apply hk.arrive (hs.pending_nodup hnh)
      intro r hr
      rw [hok m (by simp) r (by rw [posts_concat_inl]; exact (hs.mem_pending.mp hr).1)]
      simp only [eq_comm]
    | inr r =>
      -- the dual of the other case
      have hswap : Keyed κ' κ k (h.map Sum.swap ++ [.inl r]) ((Engine.play ok h).post ok r).swap := by
        rw [Engine.post_swap]
        apply (hk.swap (hs.keys_eq hold)).arrive (hs.waiting_nodup hnh)
        intro m hm
        exact hok m (by rw [arrivals_concat_inr]; exact (hs.mem_waiting.mp hm).1) r (by simp)
      have hkeys : ∀ p ∈ ((Engine.play ok h).post ok r).swap.pairs, κ' p.1 = κ p.2 := by
        intro p hp
        obtain ⟨q, hq, rfl⟩ := List.mem_map.mp hp
        exact ((hs.post hn).keys_eq hok q hq).symm
      have hback := hswap.swap hkeys
      rw [Engine.swap_swap, List.map_append, List.map_map] at hback
      simpa [Function.comp_def, Engine.handle] using hback

end Keyed

/-! ## Unique partners -/

end Libibtl.Foundation
