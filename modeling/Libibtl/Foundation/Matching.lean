import Mathlib.Data.List.Nodup
import Mathlib.Data.List.Infix

/-! # Two-sided first-match queues

Items of two kinds arrive in any interleaving. A new item takes the first
waiting item of the other kind that it matches; without one it waits at the end
of its own queue. The two sides are exact duals, so every result about one of
them is stated for arrivals and carried over by `swap`.
-/

namespace Libibtl.Foundation

universe u v w

structure Engine (M : Type u) (R : Type v) where
  waiting : List M
  pending : List R
  pairs : List (M × R)

namespace Engine

variable {M : Type u} {R : Type v}

def empty : Engine M R := ⟨[], [], []⟩

def swap (e : Engine M R) : Engine R M := ⟨e.pending, e.waiting, e.pairs.map Prod.swap⟩

@[simp] theorem swap_swap (e : Engine M R) : e.swap.swap = e := by
  simp [swap]

variable [DecidableEq M] [DecidableEq R]

def arrive (ok : M → R → Bool) (m : M) (e : Engine M R) : Engine M R :=
  match e.pending.find? (ok m) with
  | some r => { e with pending := e.pending.erase r, pairs := e.pairs ++ [(m, r)] }
  | none => { e with waiting := e.waiting ++ [m] }

def post (ok : M → R → Bool) (r : R) (e : Engine M R) : Engine M R :=
  match e.waiting.find? (ok · r) with
  | some m => { e with waiting := e.waiting.erase m, pairs := e.pairs ++ [(m, r)] }
  | none => { e with pending := e.pending ++ [r] }

def handle (ok : M → R → Bool) (e : Engine M R) : M ⊕ R → Engine M R
  | .inl m => e.arrive ok m
  | .inr r => e.post ok r

/-- The engine after a whole history. -/
def play (ok : M → R → Bool) (h : List (M ⊕ R)) : Engine M R := h.foldl (handle ok) empty

omit [DecidableEq R] in
theorem post_swap (ok : M → R → Bool) (r : R) (e : Engine M R) :
    (e.post ok r).swap = e.swap.arrive (fun r m => ok m r) r := by
  rw [post, arrive]
  change _ = match e.waiting.find? (ok · r) with | some m => _ | none => _
  split <;> simp [swap]

omit [DecidableEq M] in
theorem arrive_swap (ok : M → R → Bool) (m : M) (e : Engine M R) :
    (e.arrive ok m).swap = e.swap.post (fun r m => ok m r) m := by
  rw [← swap_swap (e.swap.post _ m), post_swap, swap_swap]

theorem handle_swap (ok : M → R → Bool) (e : Engine M R) (x : M ⊕ R) :
    (e.handle ok x).swap = e.swap.handle (fun r m => ok m r) x.swap := by
  cases x with
  | inl m => exact arrive_swap ok m e
  | inr r => exact post_swap ok r e

@[simp] theorem play_nil (ok : M → R → Bool) : play ok ([] : List (M ⊕ R)) = empty := rfl

theorem play_concat (ok : M → R → Bool) (h : List (M ⊕ R)) (x : M ⊕ R) :
    play ok (h ++ [x]) = (play ok h).handle ok x := by
  rw [play, List.foldl_append]
  rfl

theorem play_swap (ok : M → R → Bool) (h : List (M ⊕ R)) :
    (play ok h).swap = play (fun r m => ok m r) (h.map Sum.swap) := by
  induction h using List.reverseRecOn with
  | nil => rfl
  | append_singleton h x ih =>
    rw [play_concat, handle_swap, ih, List.map_append, List.map_singleton, play_concat]

end Engine

/-- The items of the first kind in a history, in order. -/
def arrivals {M : Type u} {R : Type v} (h : List (M ⊕ R)) : List M := h.filterMap Sum.getLeft?

/-- The items of the second kind in a history, in order. -/
def posts {M : Type u} {R : Type v} (h : List (M ⊕ R)) : List R := h.filterMap Sum.getRight?

section History

variable {M : Type u} {R : Type v} (h : List (M ⊕ R)) (m : M) (r : R)

@[simp] theorem arrivals_nil : arrivals ([] : List (M ⊕ R)) = [] := rfl
@[simp] theorem posts_nil : posts ([] : List (M ⊕ R)) = [] := rfl

@[simp] theorem arrivals_concat_inl : arrivals (h ++ [.inl m]) = arrivals h ++ [m] := by
  simp [arrivals]

@[simp] theorem arrivals_concat_inr : arrivals (h ++ [.inr r]) = arrivals h := by
  simp [arrivals]

@[simp] theorem posts_concat_inl : posts (h ++ [.inl m]) = posts h := by
  simp [posts]

@[simp] theorem posts_concat_inr : posts (h ++ [.inr r]) = posts h ++ [r] := by
  simp [posts]

theorem arrivals_swap : arrivals (h.map Sum.swap) = posts h := by
  rw [arrivals, posts, List.filterMap_map]
  congr 1
  funext x
  cases x <;> rfl

theorem posts_swap : posts (h.map Sum.swap) = arrivals h := by
  rw [arrivals, posts, List.filterMap_map]
  congr 1
  funext x
  cases x <;> rfl

@[simp] theorem mem_arrivals : m ∈ arrivals h ↔ Sum.inl m ∈ h := by
  simp [arrivals]

@[simp] theorem mem_posts : r ∈ posts h ↔ Sum.inr r ∈ h := by
  simp [posts]

theorem arrivals_nodup (hn : h.Nodup) : (arrivals h).Nodup :=
  hn.filterMap fun x y b hx hy => by
    rw [Sum.getLeft?_eq_some_iff.mp hx, Sum.getLeft?_eq_some_iff.mp hy]

theorem posts_nodup (hn : h.Nodup) : (posts h).Nodup := by
  rw [← arrivals_swap]
  exact arrivals_nodup _ (hn.map (Function.LeftInverse.injective Sum.swap_swap))

end History

end Libibtl.Foundation
