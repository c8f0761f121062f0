import Libibtl.Foundation.Matching

/-! # Laws of the first-match engine

The invariant of a history keeps the two queues as the unpaired items in their
order of arrival and says that no waiting item matches a pending one. Exactly
once, no overtaking and, for matching by a key, pairing by position follow.
-/

namespace Libibtl.Foundation

universe u v w

variable {M : Type u} {R : Type v}

/-- In a list without repetitions, what stands before the first hit fails the test. -/
theorem not_of_before_find {α : Type u} {p : α → Bool} {l : List α} {a b : α} (hn : l.Nodup)
    (hf : l.find? p = some b) (hab : List.Sublist [a, b] l) : p a = false := by
  obtain ⟨-, before, after, rfl, hbefore⟩ := List.find?_eq_some_iff_append.mp hf
  have ha : a ∈ before := by
    obtain ⟨l₁, l₂, hl, h₁, h₂⟩ := List.sublist_append_iff.mp hab
    cases l₁ with
    | nil =>
      -- both in the tail that starts with `b`: then `b` occurs twice
      rw [List.nil_append] at hl
      subst hl
      have hb : b ∈ after := by
        cases h₂ with
        | cons _ h => exact h.subset (by simp)
        | cons_cons _ h => exact h.subset (by simp)
      exact absurd hb (List.nodup_cons.mp (List.nodup_append.mp hn).2.1).1
    | cons x l₁ =>
      obtain ⟨rfl, -⟩ := List.cons_eq_cons.mp hl
      exact h₁.subset List.mem_cons_self
  simpa using hbefore a ha

/-- An order of two items survives dropping a last item that is not the second one. -/
theorem before_of_before_concat {α : Type u} {l : List α} {a b x : α}
    (h : List.Sublist [a, b] (l ++ [x])) (hbx : b ≠ x) : List.Sublist [a, b] l := by
  obtain ⟨l₁, l₂, hl, h₁, h₂⟩ := List.sublist_append_iff.mp h
  rcases List.eq_nil_or_concat l₂ with rfl | ⟨l₂, y, rfl⟩
  · rw [List.append_nil] at hl
    exact hl ▸ h₁
  · rw [List.concat_eq_append, ← List.append_assoc] at hl
    have hy : b = y := by
      have := congrArg List.getLast? hl
      simpa using this
    have hyx : y ∈ [x] := h₂.subset (by simp)
    exact absurd (hy.trans (List.mem_singleton.mp hyx)) hbx

/-- The items of `l` that are not among the used ones, in their order. -/
def unused {α : Type u} [DecidableEq α] (used l : List α) : List α := l.filter fun x => decide (x ∉ used)

section Unused

variable {α : Type u} [DecidableEq α] {used l : List α} {x : α}

@[simp] theorem mem_unused {y : α} : y ∈ unused used l ↔ y ∈ l ∧ y ∉ used := by
  simp [unused]

theorem unused_sublist (used l : List α) : (unused used l).Sublist l := List.filter_sublist

theorem unused_concat (h : x ∉ used) : unused used (l ++ [x]) = unused used l ++ [x] := by
  simp [unused, h]

theorem unused_concat_both (h : x ∉ l) : unused (used ++ [x]) (l ++ [x]) = unused used l := by
  have hl : l.filter (fun y => decide (y ∉ used ++ [x])) = l.filter fun y => decide (y ∉ used) := by
    apply List.filter_congr
    intro y hy
    have hyx : y ≠ x := fun he => h (he ▸ hy)
    simp [hyx]
  rw [unused, List.filter_append, hl]
  simp [unused]

theorem erase_unused (hn : l.Nodup) : (unused used l).erase x = unused (used ++ [x]) l := by
  rw [unused, (hn.filter _).erase_eq_filter, List.filter_filter, unused]
  apply List.filter_congr
  intro y _
  by_cases hyx : y = x <;> simp [hyx]

end Unused

theorem map_fst_swap (ps : List (M × R)) : (ps.map Prod.swap).map Prod.fst = ps.map Prod.snd := by
  rw [List.map_map]
  rfl

theorem map_snd_swap (ps : List (M × R)) : (ps.map Prod.swap).map Prod.snd = ps.map Prod.fst := by
  rw [List.map_map]
  rfl

variable [DecidableEq M] [DecidableEq R]

/-- What a history leaves behind. The queues are not merely sets: they keep the order of arrival. -/
structure Settled (ok : M → R → Bool) (h : List (M ⊕ R)) (e : Engine M R) : Prop where
  stuckFree : ∀ m ∈ e.waiting, ∀ r ∈ e.pending, ok m r = false
  matched : ∀ p ∈ e.pairs, ok p.1 p.2 = true
  waiting_eq : e.waiting = unused (e.pairs.map Prod.fst) (arrivals h)
  pending_eq : e.pending = unused (e.pairs.map Prod.snd) (posts h)
  arrived : ∀ p ∈ e.pairs, p.1 ∈ arrivals h
  posted : ∀ p ∈ e.pairs, p.2 ∈ posts h
  fst_nodup : (e.pairs.map Prod.fst).Nodup
  snd_nodup : (e.pairs.map Prod.snd).Nodup

namespace Settled

variable {ok : M → R → Bool} {h : List (M ⊕ R)} {e : Engine M R}

theorem swap (hs : Settled ok h e) : Settled (fun r m => ok m r) (h.map Sum.swap) e.swap where
  stuckFree r hr m hm := hs.stuckFree m hm r hr
  matched p hp := by
    obtain ⟨q, hq, rfl⟩ := List.mem_map.mp hp
    exact hs.matched q hq
  waiting_eq := by
    rw [arrivals_swap, Engine.swap, map_fst_swap]
    exact hs.pending_eq
  pending_eq := by
    rw [posts_swap, Engine.swap, map_snd_swap]
    exact hs.waiting_eq
  arrived p hp := by
    obtain ⟨q, hq, rfl⟩ := List.mem_map.mp hp
    rw [arrivals_swap]
    exact hs.posted q hq
  posted p hp := by
    obtain ⟨q, hq, rfl⟩ := List.mem_map.mp hp
    rw [posts_swap]
    exact hs.arrived q hq
  fst_nodup := by
    rw [Engine.swap, map_fst_swap]
    exact hs.snd_nodup
  snd_nodup := by
    rw [Engine.swap, map_snd_swap]
    exact hs.fst_nodup

theorem waiting_nodup (hs : Settled ok h e) (hn : h.Nodup) : e.waiting.Nodup :=
  hs.waiting_eq ▸ (arrivals_nodup h hn).sublist (unused_sublist _ _)

theorem pending_nodup (hs : Settled ok h e) (hn : h.Nodup) : e.pending.Nodup :=
  hs.pending_eq ▸ (posts_nodup h hn).sublist (unused_sublist _ _)

theorem mem_waiting (hs : Settled ok h e) {m : M} :
    m ∈ e.waiting ↔ m ∈ arrivals h ∧ m ∉ e.pairs.map Prod.fst := by
  rw [hs.waiting_eq, mem_unused]

theorem mem_pending (hs : Settled ok h e) {r : R} :
    r ∈ e.pending ↔ r ∈ posts h ∧ r ∉ e.pairs.map Prod.snd := by
  rw [hs.pending_eq, mem_unused]

/-- An arrival is in exactly one pair or waits exactly once. -/
theorem count_arrival (hs : Settled ok h e) (hn : h.Nodup) {m : M} (hm : m ∈ arrivals h) :
    (e.pairs.map Prod.fst).count m + e.waiting.count m = 1 := by
  by_cases hp : m ∈ e.pairs.map Prod.fst
  · rw [List.count_eq_one_of_mem hs.fst_nodup hp, List.count_eq_zero.2 fun hw => (hs.mem_waiting.mp hw).2 hp]
  · rw [List.count_eq_zero.2 hp, List.count_eq_one_of_mem (hs.waiting_nodup hn) (hs.mem_waiting.mpr ⟨hm, hp⟩)]

theorem count_post (hs : Settled ok h e) (hn : h.Nodup) {r : R} (hr : r ∈ posts h) :
    (e.pairs.map Prod.snd).count r + e.pending.count r = 1 := by
  have hn' := hn.map (Function.LeftInverse.injective (Sum.swap_swap (α := M) (β := R)))
  have := hs.swap.count_arrival hn' (m := r) (by rwa [arrivals_swap])
  rwa [Engine.swap, map_fst_swap] at this

/-- One arrival. The hypothesis says that the item is new. -/
theorem arrive (hs : Settled ok h e) {m : M} (hn : (h ++ [Sum.inl m]).Nodup) :
    Settled ok (h ++ [.inl m]) (e.arrive ok m) := by
  obtain ⟨hnh, -, hnew⟩ := List.nodup_append.mp hn
  have hm : m ∉ arrivals h := fun hm => hnew _ ((mem_arrivals h m).mp hm) _ List.mem_cons_self rfl
  have hmfst : m ∉ e.pairs.map Prod.fst := by
    intro hmem
    obtain ⟨p, hp, rfl⟩ := List.mem_map.mp hmem
    exact hm (hs.arrived p hp)
  rw [Engine.arrive]
  split
  · rename_i r hfind
    obtain ⟨hr, hrsnd⟩ := hs.mem_pending.mp (List.mem_of_find?_eq_some hfind)
    refine ⟨?_, ?_, ?_, ?_, ?_, ?_, ?_, ?_⟩
    · intro x hx y hy
      exact hs.stuckFree x hx y (List.mem_of_mem_erase hy)
    · intro p hp
      rcases List.mem_append.mp hp with hp | hp
      · exact hs.matched p hp
      · rw [List.mem_singleton.mp hp]
        exact List.find?_some hfind
    · rw [arrivals_concat_inl, List.map_append, List.map_singleton, unused_concat_both hm]
      exact hs.waiting_eq
    · rw [posts_concat_inl, List.map_append, List.map_singleton, ← erase_unused (posts_nodup h hnh),
        hs.pending_eq]
    · intro p hp
      rw [arrivals_concat_inl]
      rcases List.mem_append.mp hp with hp | hp
      · exact List.mem_append_left _ (hs.arrived p hp)
      · rw [List.mem_singleton.mp hp]
        exact List.mem_append_right _ List.mem_cons_self
    · intro p hp
      rw [posts_concat_inl]
      rcases List.mem_append.mp hp with hp | hp
      · exact hs.posted p hp
      · rw [List.mem_singleton.mp hp]
        exact hr
    · rw [List.map_append, List.map_singleton]
      exact List.concat_eq_append ▸ hs.fst_nodup.concat hmfst
    · rw [List.map_append, List.map_singleton]
      exact List.concat_eq_append ▸ hs.snd_nodup.concat hrsnd
  · rename_i hfind
    refine ⟨?_, hs.matched, ?_, ?_, ?_, ?_, hs.fst_nodup, hs.snd_nodup⟩
    · intro x hx r hr
      rcases List.mem_append.mp hx with hx | hx
      · exact hs.stuckFree x hx r hr
      · rw [List.mem_singleton.mp hx]
        simpa using List.find?_eq_none.mp hfind r hr
    · rw [arrivals_concat_inl, unused_concat hmfst, ← hs.waiting_eq]
    · rw [posts_concat_inl]
      exact hs.pending_eq
    · intro p hp
      rw [arrivals_concat_inl]
      exact List.mem_append_left _ (hs.arrived p hp)
    · intro p hp
      rw [posts_concat_inl]
      exact hs.posted p hp

theorem post (hs : Settled ok h e) {r : R} (hn : (h ++ [Sum.inr r]).Nodup) :
    Settled ok (h ++ [.inr r]) (e.post ok r) := by
  have hn' : (h.map Sum.swap ++ [Sum.inl r]).Nodup := by
    have := hn.map (Function.LeftInverse.injective (Sum.swap_swap (α := M) (β := R)))
    simpa using this
  have hs' := (hs.swap.arrive hn').swap
  rw [← Engine.post_swap, Engine.swap_swap] at hs'
  simpa [Function.comp_def] using hs'

end Settled

theorem settled_play (ok : M → R → Bool) {h : List (M ⊕ R)} (hn : h.Nodup) :
    Settled ok h (Engine.play ok h) := by
  induction h using List.reverseRecOn with
  | nil => exact ⟨by simp [Engine.empty], by simp [Engine.empty], rfl, rfl, by simp [Engine.empty],
      by simp [Engine.empty], by simp [Engine.empty], by simp [Engine.empty]⟩
  | append_singleton h x ih =>
    rw [Engine.play_concat]
    have hs := ih (List.nodup_append.mp hn).1
    cases x with
    | inl m => exact hs.arrive hn
    | inr r => exact hs.post hn

end Libibtl.Foundation
