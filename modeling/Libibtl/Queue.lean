import Mathlib.Data.List.Basic
import Mathlib.Logic.Function.Basic
import Libibtl.Foundation.CInt

/-! # Queues and the hash table

A `fdmi_queue` is the list of its data pointers: `enq` appends, `deq` takes the
head and `remove` deletes the first node with the given pointer. A search loop
over `fdmi_queue_iterate` that stops at its first hit is `List.find?`. A NULL
result is `none`.
-/

namespace Libibtl

open Foundation

universe u

namespace Queue

variable {α : Type u} [DecidableEq α]

def enq (q : List α) (data : α) : List α := q ++ [data]

def deq : List α → Option α × List α
  | [] => (none, [])
  | d :: q => (some d, q)

def remove (q : List α) (data : α) : List α := q.erase data

theorem remove_append {l r : List α} {data : α} (h : data ∉ l) : remove (l ++ data :: r) data = l ++ r := by
  rw [remove, List.erase_append_right _ h, List.erase_cons_head]

theorem remove_of_notMem {q : List α} {data : α} (h : data ∉ q) : remove q data = q := List.erase_of_not_mem h

/-- The first element that passes a test, and the queue without it. -/
theorem split_of_find? {β : Type u} {p : β → Bool} {l : List β} {a : β} (h : l.find? p = some a) :
    p a ∧ ∃ l₁ l₂, l = l₁ ++ a :: l₂ ∧ l.eraseP p = l₁ ++ l₂ ∧ ∀ b ∈ l₁, p b = false := by
  obtain ⟨ha, l₁, l₂, hl, hneg⟩ := List.find?_eq_some_iff_append.1 h
  refine ⟨ha, l₁, l₂, hl, ?_, fun b hb => by simpa using hneg b hb⟩
  rw [hl, List.eraseP_append_right _ fun b hb => by simpa using hneg b hb, List.eraseP_cons_of_pos ha]

theorem mem_eraseP_of_find? {β : Type u} {p : β → Bool} {l : List β} {a b : β} (h : l.find? p = some a) (hb : b ∈ l)
    (hne : b ≠ a) : b ∈ l.eraseP p := by
  obtain ⟨-, l₁, l₂, hl, he, -⟩ := split_of_find? h
  rw [he]
  rw [hl] at hb
  rcases List.mem_append.1 hb with hb | hb
  · exact List.mem_append_left _ hb
  · exact List.mem_append_right _ ((List.mem_cons.1 hb).resolve_left hne)

end Queue

structure HashtableNode where
  key : Nat
  data : UInt64T
  deriving DecidableEq, Repr

/-- `len` buckets, each a queue of nodes. Buckets from `len` on are never used. -/
structure Hashtable where
  len : Nat
  list : Nat → List HashtableNode

namespace Hashtable

def create (length : Nat) : Hashtable := ⟨length, fun _ => []⟩

/-- Keys are addresses that are multiples of 16. -/
def hash (ht : Hashtable) (key : Nat) : Nat := key / 16 % ht.len

def add (ht : Hashtable) (key : Nat) (data : UInt64T) : Hashtable :=
  { ht with list := Function.update ht.list (ht.hash key) (Queue.enq (ht.list (ht.hash key)) ⟨key, data⟩) }

def find (ht : Hashtable) (key : Nat) : Option HashtableNode :=
  (ht.list (ht.hash key)).find? fun nd => nd.key = key

/-- A missing key gives NULL, which the callers read as the number 0. -/
def get (ht : Hashtable) (key : Nat) : UInt64T := ((ht.find key).map HashtableNode.data).getD 0

variable (ht : Hashtable) (key : Nat) (data : UInt64T)

@[simp] theorem find_create (length : Nat) : (create length).find key = none := rfl

theorem find_add_self (h : ht.find key = none) : (ht.add key data).find key = some ⟨key, data⟩ := by
  have hlist : (ht.add key data).list ((ht.add key data).hash key) =
      ht.list (ht.hash key) ++ [⟨key, data⟩] := Function.update_self ..
  rw [find, hlist, List.find?_append, ← find, h]
  simp

theorem find_add_ne {key' : Nat} (h : key' ≠ key) : (ht.add key data).find key' = ht.find key' := by
  rw [find, find]
  by_cases hh : ht.hash key' = ht.hash key
  · -- the same bucket: the new node is skipped because its key differs
    have hlist : (ht.add key data).list ((ht.add key data).hash key') =
        ht.list (ht.hash key) ++ [⟨key, data⟩] := by
      change Function.update _ _ _ (ht.hash key') = _
      rw [hh, Function.update_self]
      rfl
    rw [hlist, hh, List.find?_append]
    simp [Ne.symm h]
  · have hlist : (ht.add key data).list ((ht.add key data).hash key') = ht.list (ht.hash key') :=
      Function.update_of_ne hh ..
    rw [hlist]

/-- Adding under a key that is already present changes nothing: the older node is found first. -/
theorem find_add_of_some {nd : HashtableNode} (h : ht.find key = some nd) :
    (ht.add key data).find key = some nd := by
  have hlist : (ht.add key data).list ((ht.add key data).hash key) =
      ht.list (ht.hash key) ++ [⟨key, data⟩] := Function.update_self ..
  rw [find, hlist, List.find?_append, ← find, h]
  rfl

theorem find_add_mono {key' : Nat} {nd : HashtableNode} (h : ht.find key' = some nd) :
    (ht.add key data).find key' = some nd := by
  by_cases hk : key' = key
  · subst hk
    exact find_add_of_some _ _ _ h
  · rw [find_add_ne _ _ _ hk, h]

end Hashtable

end Libibtl
