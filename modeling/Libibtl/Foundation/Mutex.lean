import Mathlib.Data.List.Count

/-! # A mutex and the threads around it

Threads are kept in a list and never removed, so a thread is known by its position and
a step of a thread replaces the entry at that position. `holds` says which threads are
inside of the critical section.
-/

namespace Libibtl.Foundation

universe u

variable {T : Type u}

section Tally

variable {p : T → Bool} {l : List T} {i : Nat} {t u : T}

theorem countP_set_add (h : l[i]? = some t) :
    (l.set i u).countP p + (p t).toNat = l.countP p + (p u).toNat := by
  obtain ⟨hi, rfl⟩ := List.getElem?_eq_some_iff.mp h
  have hle : (p l[i]).toNat ≤ l.countP p := by
    cases hp : p l[i] with
    | false => exact Nat.zero_le _
    | true => exact List.countP_pos_iff.mpr ⟨l[i], List.getElem_mem hi, hp⟩
  rw [List.countP_set hi]
  cases hp : p l[i] <;> cases hp' : p u <;> simp_all

theorem countP_set_of_eq (h : l[i]? = some t) (hp : p u = p t) : (l.set i u).countP p = l.countP p := by
  have hset := countP_set_add (u := u) (p := p) h
  rw [hp] at hset
  omega

theorem countP_concat (p : T → Bool) (l : List T) (t : T) : (l ++ [t]).countP p = l.countP p + (p t).toNat := by
  rw [List.countP_append, List.countP_singleton]
  cases p t <;> rfl

theorem countP_eraseP_add {q : T → Bool} (h : l.find? q = some t) :
    (l.eraseP q).countP p + (p t).toNat = l.countP p := by
  induction l with
  | nil => cases h
  | cons x l ih =>
    by_cases hx : q x = true
    · rw [List.find?_cons_of_pos hx] at h
      cases h
      rw [List.eraseP_cons_of_pos hx, List.countP_cons]
      cases p t <;> rfl
    · rw [List.find?_cons_of_neg hx] at h
      rw [List.eraseP_cons_of_neg hx, List.countP_cons, List.countP_cons, ← ih h]
      omega

theorem two_le_countP {j : Nat} {u : T} (hne : i ≠ j) (hi : l[i]? = some t) (hj : l[j]? = some u) (ht : p t = true)
    (hu : p u = true) : 2 ≤ l.countP p := by
  have hpos : ∀ {l : List T} {i : Nat} {t : T}, l[i]? = some t → p t = true → 0 < l.countP p := fun hi ht =>
    List.countP_pos_iff.mpr ⟨_, List.mem_of_getElem? hi, ht⟩
  induction l generalizing i j with
  | nil => cases hi
  | cons x l ih =>
    cases i with
    | zero =>
      obtain ⟨j, rfl⟩ := Nat.exists_eq_succ_of_ne_zero hne.symm
      obtain rfl : x = t := by simpa using hi
      rw [List.countP_cons_of_pos ht]
      exact Nat.succ_le_succ (hpos (by simpa using hj) hu)
    | succ i =>
      cases j with
      | zero =>
        obtain rfl : x = u := by simpa using hj
        rw [List.countP_cons_of_pos hu]
        exact Nat.succ_le_succ (hpos (by simpa using hi) ht)
      | succ j =>
        have hij : i ≠ j := by omega
        exact Nat.le_trans (ih hij (by simpa using hi) (by simpa using hj)) (List.sublist_cons_self x l).countP_le

theorem filter_set_of_neg (h : l[i]? = some t) (ht : p t = false) (hu : p u = false) :
    (l.set i u).filter p = l.filter p := by
  induction l generalizing i with
  | nil => rfl
  | cons x l ih =>
    cases i with
    | zero =>
      obtain rfl : x = t := by simpa using h
      rw [List.set_cons_zero, List.filter_cons_of_neg (by simp [hu]), List.filter_cons_of_neg (by simp [ht])]
    | succ i =>
      rw [List.set_cons_succ, List.filter_cons, List.filter_cons, ih (by simpa using h)]

/-- A replacement inside of a filter is a replacement in the filtered list. -/
theorem filter_set_of_pos (h : l[i]? = some t) (ht : p t = true) (hu : p u = true) :
    ∃ j : Nat, (l.filter p)[j]? = some t ∧ (l.set i u).filter p = (l.filter p).set j u := by
  induction l generalizing i with
  | nil => cases h
  | cons x l ih =>
    cases i with
    | zero =>
      obtain rfl : x = t := by simpa using h
      refine ⟨0, ?_, ?_⟩
      · rw [List.filter_cons_of_pos ht, List.getElem?_cons_zero]
      · rw [List.set_cons_zero, List.filter_cons_of_pos hu, List.filter_cons_of_pos ht, List.set_cons_zero]
    | succ i =>
      obtain ⟨j, hj, hset⟩ := ih (by simpa using h)
      by_cases hx : p x = true
      · refine ⟨j + 1, ?_, ?_⟩
        · rw [List.filter_cons_of_pos hx, List.getElem?_cons_succ, hj]
        · rw [List.set_cons_succ, List.filter_cons_of_pos hx, List.filter_cons_of_pos hx, List.set_cons_succ, hset]
      · refine ⟨j, ?_, ?_⟩
        · rw [List.filter_cons_of_neg hx, hj]
        · rw [List.set_cons_succ, List.filter_cons_of_neg hx, List.filter_cons_of_neg hx, hset]

end Tally

variable (holds : T → Bool)

/-- The mutex is locked when one thread is inside, and free when none is. -/
def Guarded (locked : Bool) (l : List T) : Prop := l.countP holds = locked.toNat

namespace Guarded

variable {holds} {b : Bool} {l : List T} {i : Nat} {t u : T}

theorem acquire (h : Guarded holds false l) (hi : l[i]? = some t) (ht : holds t = false) (hu : holds u = true) :
    Guarded holds true (l.set i u) := by
  have hset := countP_set_add (u := u) (p := holds) hi
  rw [ht, hu, h] at hset
  exact hset

theorem release (h : Guarded holds b l) (hi : l[i]? = some t) (ht : holds t = true) (hu : holds u = false) :
    Guarded holds false (l.set i u) := by
  have hset := countP_set_add (u := u) (p := holds) hi
  have hle := Bool.toNat_le b
  rw [ht, hu, h] at hset
  simp only [Bool.toNat_true, Bool.toNat_false] at hset
  rw [Guarded, Bool.toNat_false]
  omega

theorem keep (h : Guarded holds b l) (hi : l[i]? = some t) (ht : holds u = holds t) : Guarded holds b (l.set i u) :=
  (countP_set_of_eq hi ht).trans h

theorem spawn (h : Guarded holds b l) (ht : holds t = false) : Guarded holds b (l ++ [t]) := by
  rw [Guarded, countP_concat, ht, h, Bool.toNat_false, Nat.add_zero]

/-- No two threads are inside. -/
theorem unique (h : Guarded holds b l) {j : Nat} {u : T} (hi : l[i]? = some t) (hj : l[j]? = some u)
    (ht : holds t = true) (hu : holds u = true) : i = j := by
  by_contra hne
  have htwo := two_le_countP hne hi hj ht hu
  have hle := Bool.toNat_le b
  rw [h] at htwo
  omega

theorem exists_holder (h : Guarded holds true l) : ∃ (i : Nat) (t : T), l[i]? = some t ∧ holds t = true := by
  obtain ⟨t, ht, hholds⟩ := List.countP_pos_iff.mp (by rw [h]; exact Nat.one_pos : 0 < l.countP holds)
  obtain ⟨i, hi⟩ := List.mem_iff_getElem?.mp ht
  exact ⟨i, t, hi, hholds⟩

end Guarded

end Libibtl.Foundation
