import Mathlib.Data.Finset.Card
import Mathlib.Data.List.Count
import Mathlib.Data.List.Dedup
import Mathlib.Logic.Function.Basic

/-! # Counted references

Things are referred to from several places, and each has a count of the references to
it. The count is right when it is that of the list of all references. A thing that
nothing refers to can be taken for something else.
-/

namespace Libibtl.Foundation

universe u

variable {ι : Type u} [DecidableEq ι]

/-- Every use count is the number of references. -/
def Counted (use : ι → Nat) (refs : List ι) : Prop := ∀ i, use i = refs.count i

namespace Counted

variable {use : ι → Nat} {refs refs' : List ι} {i : ι}

theorem perm (h : Counted use refs) (hp : refs'.Perm refs) : Counted use refs' := by
  intro j
  rw [hp.count_eq]
  exact h j

theorem mem_iff (h : Counted use refs) : i ∈ refs ↔ use i ≠ 0 := by
  rw [h i, Nat.ne_zero_iff_zero_lt]
  exact List.count_pos_iff.symm

theorem share (h : Counted use refs) (i : ι) : Counted (Function.update use i (use i + 1)) (i :: refs) := by
  intro j
  by_cases hj : j = i
  · rw [hj, Function.update_self, List.count_cons_self, h i]
  · rw [Function.update_of_ne hj, List.count_cons_of_ne (Ne.symm hj), h j]

theorem acquire (h : Counted use refs) (hi : use i = 0) : Counted (Function.update use i 1) (i :: refs) := by
  have := h.share i
  rwa [hi] at this

theorem drop (h : Counted use (i :: refs)) : Counted (Function.update use i (use i - 1)) refs := by
  intro j
  have hcount := h j
  by_cases hj : j = i
  · subst hj
    rw [List.count_cons_self] at hcount
    rw [Function.update_self, hcount, Nat.add_sub_cancel]
  · rw [List.count_cons_of_ne (Ne.symm hj)] at hcount
    rw [Function.update_of_ne hj, hcount]

/-- Things in use are not more than the references. -/
theorem card_le (h : Counted use refs) {p : ι → Bool} {s : Finset ι} (hs : ∀ i ∈ s, use i ≠ 0 ∧ p i = true) :
    s.card ≤ (refs.filter p).length := by
  have hsub : s ⊆ (refs.filter p).toFinset := by
    intro i hi
    have := hs i hi
    rw [List.mem_toFinset, List.mem_filter]
    exact ⟨h.mem_iff.2 this.1, this.2⟩
  exact (Finset.card_le_card hsub).trans (List.toFinset_card_le _)

end Counted

/-- A replacement in a list of holders of references. -/
theorem flatMap_perm_set {α β : Type*} (f : α → List β) {l : List α} {n : Nat} {t : α} (h : l[n]? = some t) :
    ∃ rest, (l.flatMap f).Perm (f t ++ rest) ∧ ∀ u, ((l.set n u).flatMap f).Perm (f u ++ rest) := by
  induction l generalizing n with
  | nil => cases h
  | cons x l ih =>
    cases n with
    | zero =>
      obtain rfl : x = t := by simpa using h
      exact ⟨l.flatMap f, List.Perm.refl _, fun u => List.Perm.refl _⟩
    | succ n =>
      obtain ⟨rest, hold, hnew⟩ := ih (n := n) (by simpa using h)
      have hswap : ∀ {as bs : List β}, as.Perm (bs ++ rest) → (f x ++ as).Perm (bs ++ (f x ++ rest)) := by
        intro as bs hp
        calc f x ++ as
          _ |>.Perm (f x ++ (bs ++ rest)) := hp.append_left _
          _ = f x ++ bs ++ rest := (List.append_assoc ..).symm
          _ |>.Perm (bs ++ f x ++ rest) := List.perm_append_comm.append_right _
          _ = bs ++ (f x ++ rest) := List.append_assoc ..
      exact ⟨f x ++ rest, hswap hold, fun u => hswap (hnew u)⟩

end Libibtl.Foundation
