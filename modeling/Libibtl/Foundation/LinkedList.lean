import Mathlib.Data.List.Nodup
import Mathlib.Logic.Function.Basic

/-! # Singly linked lists in a heap

A heap holds one kind of node and gives no node at an address that is not
allocated, so that an access through a dangling pointer has no result. NULL is
`none`. A segment lists the nodes that the `next` links pass between two
pointers.
-/

namespace Libibtl.Foundation

universe u v

/-- `mallocs` counts the allocations: a walk that meets more nodes than that goes round in a circle. -/
structure Heap (A : Type u) (N : Type v) where
  cell : A → Option N
  mallocs : Nat

namespace Heap

variable {A : Type u} {N : Type v} [DecidableEq A]

def malloc (h : Heap A N) (a : A) (n : N) : Heap A N := ⟨Function.update h.cell a (some n), h.mallocs + 1⟩

def store (h : Heap A N) (a : A) (n : N) : Heap A N := ⟨Function.update h.cell a (some n), h.mallocs⟩

def free (h : Heap A N) (a : A) : Heap A N := ⟨Function.update h.cell a none, h.mallocs⟩

variable (h : Heap A N) (a : A) (n : N) {b : A}

@[simp] theorem mallocs_malloc : (h.malloc a n).mallocs = h.mallocs + 1 := rfl
@[simp] theorem mallocs_store : (h.store a n).mallocs = h.mallocs := rfl
@[simp] theorem mallocs_free : (h.free a).mallocs = h.mallocs := rfl
@[simp] theorem cell_malloc_self : (h.malloc a n).cell a = some n := Function.update_self ..
@[simp] theorem cell_store_self : (h.store a n).cell a = some n := Function.update_self ..
@[simp] theorem cell_free_self : (h.free a).cell a = none := Function.update_self ..

variable {h a n}

theorem cell_malloc_ne (hb : b ≠ a) : (h.malloc a n).cell b = h.cell b := Function.update_of_ne hb ..
theorem cell_store_ne (hb : b ≠ a) : (h.store a n).cell b = h.cell b := Function.update_of_ne hb ..
theorem cell_free_ne (hb : b ≠ a) : (h.free a).cell b = h.cell b := Function.update_of_ne hb ..

end Heap

/-- An allocator finds a free block as long as there is one. -/
structure Allocator (A : Type u) (N : Type v) where
  malloc : Heap A N → A
  fresh : ∀ h : Heap A N, (∃ a, h.cell a = none) → h.cell (malloc h) = none

structure Cell (A : Type u) (D : Type v) where
  next : Option A
  data : D
  deriving DecidableEq, Repr

/-- The address of the first node of a list, NULL for the empty list. -/
def first {A : Type u} {D : Type v} (xs : List (A × D)) : Option A := xs.head?.map Prod.fst

@[simp] theorem first_nil {A : Type u} {D : Type v} : first ([] : List (A × D)) = none := rfl

@[simp] theorem first_cons {A : Type u} {D : Type v} (x : A × D) (xs : List (A × D)) : first (x :: xs) = some x.1 := rfl

theorem first_eq_none {A : Type u} {D : Type v} {xs : List (A × D)} : first xs = none ↔ xs = [] := by
  cases xs with
  | nil => simp
  | cons x xs => simp

/-- The nodes from the pointer `p` up to the pointer `q`, in the order of the links. -/
def Segment {A : Type u} {D : Type v} (cell : A → Option (Cell A D)) : Option A → List (A × D) → Option A → Prop
  | p, [], q => p = q
  | p, (a, d) :: xs, q => p = some a ∧ ∃ n, cell a = some ⟨n, d⟩ ∧ Segment cell n xs q

namespace Segment

variable {A : Type u} {D : Type v} {cell cell' : A → Option (Cell A D)} {p q : Option A} {xs ys : List (A × D)} {a : A}
  {d : D}

theorem nil : Segment cell p [] p := rfl

theorem cons {n : Option A} (ha : cell a = some ⟨n, d⟩) (h : Segment cell n xs q) :
    Segment cell (some a) ((a, d) :: xs) q := ⟨rfl, n, ha, h⟩

theorem append_iff : Segment cell p (xs ++ ys) q ↔ ∃ m, Segment cell p xs m ∧ Segment cell m ys q := by
  induction xs generalizing p with
  | nil =>
    constructor
    · intro h
      exact ⟨p, rfl, h⟩
    · rintro ⟨m, rfl, h⟩
      exact h
  | cons x xs ih =>
    constructor
    · rintro ⟨rfl, n, hn, h⟩
      obtain ⟨m, hm, h'⟩ := ih.1 h
      exact ⟨m, .cons hn hm, h'⟩
    · rintro ⟨m, ⟨rfl, n, hn, hm⟩, h'⟩
      exact .cons hn (ih.2 ⟨m, hm, h'⟩)

theorem append {m : Option A} (h : Segment cell p xs m) (h' : Segment cell m ys q) : Segment cell p (xs ++ ys) q :=
  append_iff.2 ⟨m, h, h'⟩

/-- A segment depends on the cells of its own nodes only. -/
theorem congr (h : Segment cell p xs q) (hc : ∀ a ∈ xs.map Prod.fst, cell' a = cell a) : Segment cell' p xs q := by
  induction xs generalizing p with
  | nil => exact h
  | cons x xs ih =>
    obtain ⟨rfl, n, hn, h⟩ := h
    refine .cons ((hc _ List.mem_cons_self).trans hn) ?_
    exact ih h fun a ha => hc a (List.mem_cons_of_mem _ ha)

theorem start_eq (h : Segment cell p xs none) : p = first xs := by
  cases xs with
  | nil => exact h
  | cons x xs => exact h.1

theorem cell_eq (h : Segment cell p ((a, d) :: xs) none) : cell a = some ⟨first xs, d⟩ := by
  obtain ⟨-, n, hn, h⟩ := h
  rw [hn, h.start_eq]

theorem tail (h : Segment cell p ((a, d) :: xs) none) : Segment cell (first xs) xs none := by
  obtain ⟨-, n, -, h⟩ := h
  rwa [← h.start_eq]

theorem suffix (h : Segment cell p (xs ++ ys) none) : Segment cell (first ys) ys none := by
  obtain ⟨m, -, h⟩ := append_iff.1 h
  rwa [← h.start_eq]

theorem allocated (h : Segment cell p xs none) (ha : a ∈ xs.map Prod.fst) : cell a ≠ none := by
  obtain ⟨⟨b, d⟩, hb, rfl⟩ := List.mem_map.1 ha
  obtain ⟨l, r, rfl⟩ := List.append_of_mem hb
  rw [h.suffix.cell_eq]
  exact Option.some_ne_none _

/-- The links are functional: two walks from one pointer to NULL meet the same nodes. -/
theorem unique (h : Segment cell p xs none) (h' : Segment cell p ys none) : xs = ys := by
  induction xs generalizing p ys with
  | nil =>
    cases h
    exact (first_eq_none.1 h'.start_eq.symm).symm
  | cons x xs ih =>
    obtain ⟨a, d⟩ := x
    obtain ⟨rfl, n, hn, h⟩ := h
    cases ys with
    | nil => cases h'
    | cons y ys =>
      obtain ⟨b, e⟩ := y
      obtain ⟨hy, m, hm, h'⟩ := h'
      cases hy
      cases hn.symm.trans hm
      exact congrArg _ (ih h h')

/-- A list that reaches NULL passes no node twice. -/
theorem nodup (h : Segment cell p xs none) : (xs.map Prod.fst).Nodup := by
  induction xs generalizing p with
  | nil => exact List.nodup_nil
  | cons x xs ih =>
    obtain ⟨a, d⟩ := x
    refine List.nodup_cons.2 ⟨?_, ih h.tail⟩
    intro ha
    -- a second visit to `a` would begin the whole list again
    obtain ⟨⟨b, e⟩, hb, rfl⟩ := List.mem_map.1 ha
    obtain ⟨l, r, rfl⟩ := List.append_of_mem hb
    have hagain : Segment cell (some b) ((b, e) :: r) none := h.tail.suffix
    have hstart : Segment cell (some b) ((b, d) :: (l ++ (b, e) :: r)) none := ⟨rfl, h.2⟩
    have hlen := congrArg List.length (unique hstart hagain)
    simp only [List.length_cons, List.length_append] at hlen
    omega

section Update

variable [DecidableEq A]

theorem update_of_notMem {c : Option (Cell A D)} (h : Segment cell p xs q) (ha : a ∉ xs.map Prod.fst) :
    Segment (Function.update cell a c) p xs q := by
  refine h.congr fun b hb => Function.update_of_ne ?_ ..
  rintro rfl
  exact ha hb

/-- Turning the link of the last node joins another list behind it. -/
theorem relink {b : A} {e : D} {n r : Option A} (h : Segment cell p (xs ++ [(b, e)]) n)
    (hb : b ∉ xs.map Prod.fst) (hys : Segment cell r ys q) (hb' : b ∉ ys.map Prod.fst) :
    Segment (Function.update cell b (some ⟨r, e⟩)) p (xs ++ (b, e) :: ys) q := by
  obtain ⟨m, hxs, rfl, -⟩ := append_iff.1 h
  refine (hxs.update_of_notMem hb).append ?_
  exact .cons (Function.update_self ..) (hys.update_of_notMem hb')

end Update

end Segment

end Libibtl.Foundation
