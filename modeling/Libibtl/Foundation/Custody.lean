import Mathlib.Algebra.BigOperators.Group.Finset.Basic
import Mathlib.Algebra.Order.BigOperators.Group.Finset
import Mathlib.Data.Fintype.Basic
import Mathlib.Data.List.Count

/-! # Custody of items in finitely many lists

Items lie in lists indexed by a finite type, and a few are held outside of them
while they move. An account balances when every item is counted as often as in a
given inventory. A move between the hand and one list keeps the balance, and with
an inventory free of duplicates every item has exactly one place.
-/

namespace Libibtl.Foundation

universe u v

variable {ι : Type u} {α : Type v} [Fintype ι] [DecidableEq α]

/-- Hand and places together count every item as often as the inventory does. -/
def Custody (place : ι → List α) (hand inventory : List α) : Prop :=
  ∀ a, hand.count a + ∑ i, (place i).count a = inventory.count a

namespace Custody

variable {place place' : ι → List α} {hand hand' inventory : List α} {a : α} {i j : ι}

theorem perm_hand (h : Custody place hand inventory) (hp : hand'.Perm hand) :
    Custody place hand' inventory := fun a => by rw [hp.count_eq]; exact h a

theorem congr_place (h : Custody place hand inventory) (hp : ∀ i, place' i = place i) :
    Custody place' hand inventory := by
  have : place' = place := funext hp
  rwa [this]

theorem move [DecidableEq ι] (h : Custody place hand inventory) (i : ι)
    (hother : ∀ j, j ≠ i → place' j = place j)
    (hperm : (hand' ++ place' i).Perm (hand ++ place i)) :
    Custody place' hand' inventory := by
  intro a
  have hcount := hperm.count_eq a
  rw [List.count_append, List.count_append] at hcount
  have hrest : ∑ j ∈ Finset.univ.erase i, (place' j).count a = ∑ j ∈ Finset.univ.erase i, (place j).count a :=
    Finset.sum_congr rfl fun j hj => by rw [hother j (Finset.ne_of_mem_erase hj)]
  have hold := h a
  rw [← Finset.add_sum_erase _ _ (Finset.mem_univ i)] at hold ⊢
  omega

theorem put [DecidableEq ι] (h : Custody place (a :: hand) inventory) (i : ι)
    (hother : ∀ j, j ≠ i → place' j = place j) (hi : place' i = place i ++ [a]) :
    Custody place' hand inventory := by
  refine h.move i hother ?_
  rw [hi]
  calc hand ++ (place i ++ [a])
      _ = (hand ++ place i) ++ [a] := (List.append_assoc ..).symm
      _ |>.Perm ([a] ++ (hand ++ place i)) := List.perm_append_comm

theorem take [DecidableEq ι] (h : Custody place hand inventory) (i : ι) (ha : (a :: place' i).Perm (place i))
    (hother : ∀ j, j ≠ i → place' j = place j) :
    Custody place' (a :: hand) inventory := by
  refine h.move i hother ?_
  calc (a :: hand) ++ place' i
      _ |>.Perm (hand ++ a :: place' i) := List.perm_middle.symm
      _ |>.Perm (hand ++ place i) := ha.append_left hand

theorem transfer [DecidableEq ι] {moved rest : List α} (h : Custody place hand inventory) (i j : ι) (hij : i ≠ j)
    (hperm : (moved ++ rest).Perm (place i)) :
    Custody (Function.update (Function.update place i rest) j (place j ++ moved)) hand inventory := by
  have htake : Custody (Function.update place i rest) (moved ++ hand) inventory := by
    refine h.move i (fun k hk => Function.update_of_ne hk ..) ?_
    rw [Function.update_self]
    calc moved ++ hand ++ rest
        _ |>.Perm (hand ++ moved ++ rest) := List.perm_append_comm.append_right rest
        _ = hand ++ (moved ++ rest) := List.append_assoc ..
        _ |>.Perm (hand ++ place i) := hperm.append_left hand
  refine htake.move j (fun k hk => Function.update_of_ne hk ..) ?_
  rw [Function.update_self, Function.update_of_ne hij.symm]
  calc hand ++ (place j ++ moved)
      _ |>.Perm (hand ++ (moved ++ place j)) := List.perm_append_comm.append_left hand
      _ = hand ++ moved ++ place j := (List.append_assoc ..).symm
      _ |>.Perm (moved ++ hand ++ place j) := List.perm_append_comm.append_right (place j)

theorem grow (h : Custody place hand inventory) (a : α) : Custody place (a :: hand) (inventory ++ [a]) := by
  intro b
  have := h b
  rw [List.count_append, List.count_cons, List.count_singleton]
  omega

/-! ## Inventories without duplicates -/

section Nodup

variable (h : Custody place hand inventory) (hnd : inventory.Nodup)

include h

theorem count_le (i : ι) (a : α) : hand.count a + (place i).count a ≤ inventory.count a := by
  have hle : (place i).count a ≤ ∑ i, (place i).count a :=
    Finset.single_le_sum (f := fun i => (place i).count a) (fun _ _ => Nat.zero_le _) (Finset.mem_univ i)
  have := h a
  omega

theorem mem_inventory (ha : a ∈ place i) : a ∈ inventory := by
  have := h.count_le i a
  have hpos := List.count_pos_iff.2 ha
  exact List.count_pos_iff.1 (by omega)

theorem mem_inventory_of_hand (ha : a ∈ hand) : a ∈ inventory := by
  have := h a
  have hpos := List.count_pos_iff.2 ha
  exact List.count_pos_iff.1 (by omega)

include hnd

theorem not_mem_of_hand (ha : a ∈ hand) (i : ι) : a ∉ place i := by
  intro hi
  have := h.count_le i a
  have hone := List.nodup_iff_count_le_one.1 hnd a
  have hpos := List.count_pos_iff.2 ha
  have hpos' := List.count_pos_iff.2 hi
  omega

theorem nodup_hand : hand.Nodup := by
  refine List.nodup_iff_count_le_one.2 fun a => ?_
  have := h a
  have := List.nodup_iff_count_le_one.1 hnd a
  omega

theorem nodup (i : ι) : (place i).Nodup := by
  refine List.nodup_iff_count_le_one.2 fun a => ?_
  have := h.count_le i a
  have := List.nodup_iff_count_le_one.1 hnd a
  omega

theorem not_mem_of_ne [DecidableEq ι] (hij : i ≠ j) (ha : a ∈ place i) : a ∉ place j := by
  intro hj
  have hsum : (place i).count a + (place j).count a ≤ ∑ i, (place i).count a := by
    rw [← Finset.sum_pair (f := fun i => (place i).count a) hij]
    exact Finset.sum_le_sum_of_subset (Finset.subset_univ _)
  have := h a
  have hone := List.nodup_iff_count_le_one.1 hnd a
  have hpos := List.count_pos_iff.2 ha
  have hpos' := List.count_pos_iff.2 hj
  omega

end Nodup

end Custody

end Libibtl.Foundation
