import Mathlib.Data.List.Nodup
import Mathlib.Logic.Function.Basic

/-! # Tables with entries that are written once

A table starts from a base and is written at the keys of some entries. When every
entry has a key of its own, the table depends on the set of entries that have been
written and not on the order of the writes.
-/

namespace Libibtl.Foundation

universe u v w

/-- The table holds the value of every entry of `done` at its key, and the base everywhere else. -/
structure Written {X : Type u} {K : Type v} {α : Type w} (key : X → K) (val : X → α) (base table : K → α)
    (done : List X) : Prop where
  entry : ∀ x ∈ done, table (key x) = val x
  rest : ∀ n, (∀ x ∈ done, key x ≠ n) → table n = base n

namespace Written

variable {X : Type u} {K : Type v} {α : Type w} {key : X → K} {val : X → α} {base table table' : K → α}
  {done done' : List X}

theorem nil : Written key val base base [] := ⟨fun _ h => (nomatch h), fun _ _ => rfl⟩

theorem unique (h : Written key val base table done) (h' : Written key val base table' done')
    (hmem : ∀ x, x ∈ done ↔ x ∈ done') : table = table' := by
  funext n
  by_cases hn : ∃ x ∈ done, key x = n
  · obtain ⟨x, hx, rfl⟩ := hn
    rw [h.entry x hx, h'.entry x ((hmem x).1 hx)]
  · have hoff : ∀ x ∈ done, key x ≠ n := fun x hx heq => hn ⟨x, hx, heq⟩
    rw [h.rest n hoff, h'.rest n fun x hx => hoff x ((hmem x).2 hx)]

variable [DecidableEq K]

theorem concat (h : Written key val base table done) {x : X} (hx : ∀ y ∈ done, key y ≠ key x) :
    Written key val base (Function.update table (key x) (val x)) (done ++ [x]) := by
  refine ⟨fun y hy => ?_, fun n hn => ?_⟩
  · rcases List.mem_append.1 hy with hy | hy
    · rw [Function.update_of_ne (hx y hy)]
      exact h.entry y hy
    · rw [List.mem_singleton.1 hy, Function.update_self]
  · rw [Function.update_of_ne (hn x (List.mem_append_right _ List.mem_cons_self)).symm]
    exact h.rest n fun y hy => hn y (List.mem_append_left _ hy)

theorem update_base (h : Written key val base table done) {n : K} (hn : ∀ y ∈ done, key y ≠ n) (v : α) :
    Written key val (Function.update base n v) (Function.update table n v) done := by
  refine ⟨fun y hy => ?_, fun m hm => ?_⟩
  · rw [Function.update_of_ne (hn y hy)]
    exact h.entry y hy
  · by_cases heq : m = n
    · rw [heq, Function.update_self, Function.update_self]
    · rw [Function.update_of_ne heq, Function.update_of_ne heq]
      exact h.rest m hm

end Written

end Libibtl.Foundation
