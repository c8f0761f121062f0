import Libibtl.HeapQueue
import Libibtl.Queue

/-! # The contents of a linked queue

The list of data pointers that the rest of the development takes for a queue,
run side by side with the linked structure.
-/

namespace Libibtl

open Foundation

universe u

/-- A call and, for `enq`, the address that `fdmi_malloc` returns in it. -/
inductive QueueCall (A D : Type u)
  | enq (d : A) (data : Option D)
  | deq
  | remove (d : Option D)
  deriving DecidableEq, Repr

/-- A linked queue beside the list that it stands for, each with the results of its `deq` calls. -/
structure ComparedQueue (A D : Type u) where
  mem : QueueHeap A D
  q : HeapQueue A
  returned : List (Option D)
  contents : List (Option D)
  expected : List (Option D)

namespace ComparedQueue

variable {A D : Type u} [DecidableEq A] [DecidableEq D]

/-- `fdmi_queue_create` in any memory. -/
def create (m : QueueHeap A D) (ite : Option A) : ComparedQueue A D := ⟨m, HeapQueue.create ite, [], [], []⟩

def step (s : ComparedQueue A D) : QueueCall A D → Option (ComparedQueue A D)
  | .enq d data =>
    (HeapQueue.enq s.mem s.q d data).map fun r =>
      { s with mem := r.1, q := r.2, contents := Queue.enq s.contents data }
  | .deq =>
    (HeapQueue.deq s.mem s.q).map fun r =>
      let l := Queue.deq s.contents
      { mem := r.2.1, q := r.2.2, returned := s.returned ++ [r.1], contents := l.2, expected := s.expected ++ [l.1.join] }
  | .remove d =>
    (HeapQueue.remove s.mem s.q d).map fun r => { s with mem := r.1, q := r.2, contents := Queue.remove s.contents d }

/-- The allocator returns a block that is not in use. -/
def Fresh (s : ComparedQueue A D) : QueueCall A D → Prop
  | .enq d _ => (s.mem.cell d).isNone
  | .deq | .remove _ => True

instance (s : ComparedQueue A D) (c : QueueCall A D) : Decidable (s.Fresh c) := by
  cases c
  all_goals unfold Fresh; infer_instance

/-- The linked structure is well formed and holds the list. -/
structure Agrees (s : ComparedQueue A D) (xs : List (A × Option D)) : Prop where
  represents : HeapQueue.Represents s.mem s.q xs
  contents : xs.map Prod.snd = s.contents
  returned : s.returned = s.expected

variable {s : ComparedQueue A D} {xs : List (A × Option D)}

end ComparedQueue

namespace HeapQueue.Represents

variable {A D : Type u} [DecidableEq A] [DecidableEq D] {m : QueueHeap A D} {q : HeapQueue A} {xs : List (A × Option D)}
  {d : Option D}

theorem exists_split {A D : Type u} {xs : List (A × D)} {d : D} (hd : d ∈ xs.map Prod.snd) :
    ∃ l a r, xs = l ++ (a, d) :: r ∧ d ∉ l.map Prod.snd := by
  obtain ⟨l, r, hl, hdl⟩ := List.eq_append_cons_of_mem hd
  obtain ⟨l', r', rfl, rfl, hr⟩ := List.map_eq_append_iff.1 hl
  obtain ⟨⟨a, d'⟩, r'', rfl, rfl, -⟩ := List.map_eq_cons_iff.1 hr
  exact ⟨l', a, r'', rfl, hdl⟩

/-- Whatever the position of the pointer, `remove` unlinks its first node and touches no cell of another list. The
cursor moves on from that node, but not from the head. -/
theorem remove_at {l r : List (A × Option D)} {a : A} (h : Represents m q (l ++ (a, d) :: r)) (hd : d ∉ l.map Prod.snd) :
    ∃ m' q', remove m q d = some (m', q') ∧ Represents m' q' (l ++ r) ∧
      q'.ite = (if first l = none then if first r = none then none else q.ite
        else if q.ite = some a then first r else q.ite) ∧
      m'.cell a = none ∧ m'.mallocs = m.mallocs ∧
      ∀ b, b ∉ (l ++ (a, d) :: r).map Prod.fst → m'.cell b = m.cell b := by
  rcases List.eq_nil_or_concat l with rfl | ⟨l, ⟨b, e⟩, rfl⟩
  · refine ⟨_, _, h.remove_head, h.pop _, rfl, Heap.cell_free_self .., rfl, fun b hb => Heap.cell_free_ne ?_⟩
    rintro rfl
    exact hb List.mem_cons_self
  · rw [List.concat_eq_append] at *
    rw [List.append_assoc] at h
    have hmoved := h.unlink (if q.ite = some a then first r else q.ite)
    refine ⟨_, _, h.remove_behind hd, ?_, ?_, Heap.cell_free_self .., rfl, fun c hc => ?_⟩
    · rw [List.append_assoc]
      exact hmoved
    · have hne : first (l ++ [(b, e)]) ≠ none := by simp [first_eq_none]
      exact (if_neg hne).symm
    · rw [Heap.cell_free_ne, Heap.cell_store_ne]
      · rintro rfl
        exact hc (by simp)
      · rintro rfl
        exact hc (by simp)

theorem remove_first (h : Represents m q xs) (d : Option D) :
    ∃ m' q' ys, remove m q d = some (m', q') ∧ Represents m' q' ys ∧ ys.map Prod.snd = Queue.remove (xs.map Prod.snd) d ∧
      ys.Sublist xs ∧ m'.mallocs = m.mallocs ∧ ∀ b, b ∉ xs.map Prod.fst → m'.cell b = m.cell b := by
  by_cases hd : d ∈ xs.map Prod.snd
  · obtain ⟨l, a, r, rfl, hdl⟩ := exists_split hd
    obtain ⟨m', q', hremove, hm, -, -, hmallocs, hframe⟩ := h.remove_at hdl
    refine ⟨m', q', l ++ r, hremove, hm, ?_, (List.sublist_cons_self _ _).append_left l, hmallocs, hframe⟩
    rw [List.map_append, List.map_append, List.map_cons, Queue.remove_append hdl]
  · refine ⟨m, q, xs, h.remove_absent hd, h, ?_, List.Sublist.refl _, rfl, fun _ _ => rfl⟩
    rw [Queue.remove_of_notMem hd]

end HeapQueue.Represents

namespace ComparedQueue

theorem Agrees.create {A D : Type u} (m : QueueHeap A D) (ite : Option A) : (create m ite).Agrees [] :=
  ⟨.create m ite, rfl, rfl⟩

variable {A D : Type u} [DecidableEq A] [DecidableEq D] {s : ComparedQueue A D} {xs : List (A × Option D)}
  {c : QueueCall A D}

theorem Agrees.step (h : s.Agrees xs) (hc : s.Fresh c) : ∃ t, s.step c = some t ∧ ∃ ys, t.Agrees ys := by
  cases c with
  | enq d data =>
    obtain ⟨m, q, henq, hm, -⟩ := h.represents.push (Option.isNone_iff_eq_none.1 hc) (d := data)
    refine ⟨{ s with mem := m, q := q, contents := Queue.enq s.contents data }, ?_, xs ++ [(d, data)], hm, ?_, h.returned⟩
    · rw [ComparedQueue.step, henq]
      rfl
    rw [List.map_append, h.contents]
    rfl
  | deq =>
    cases xs with
    | nil =>
      have hempty : s.contents = [] := h.contents.symm
      refine ⟨{ s with returned := s.returned ++ [none], expected := s.expected ++ [none] }, ?_, [], h.represents,
        h.contents, ?_⟩
      · rw [ComparedQueue.step, h.represents.deq_nil, hempty]
        rfl
      · rw [h.returned]
    | cons x xs =>
      obtain ⟨a, d⟩ := x
      obtain ⟨q, hdeq, hm, -⟩ := h.represents.deq_cons
      have hcons : s.contents = d :: xs.map Prod.snd := h.contents.symm
      refine ⟨⟨s.mem.free a, q, s.returned ++ [d], xs.map Prod.snd, s.expected ++ [d]⟩, ?_, xs, hm, rfl, ?_⟩
      · rw [ComparedQueue.step, hdeq, hcons]
        rfl
      · rw [h.returned]
  | remove d =>
    obtain ⟨m, q, ys, hremove, hm, hys, -⟩ := h.represents.remove_first d
    refine ⟨{ s with mem := m, q := q, contents := Queue.remove s.contents d }, ?_, ys, hm, ?_, h.returned⟩
    · rw [ComparedQueue.step, hremove]
      rfl
    rw [hys, h.contents]

/-- From `fdmi_queue_create`, whatever the calls, the nodes form a list without repetition that ends at `tail`, `length`
counts them, and the data are those of the abstract list. -/
theorem queue_represents (m : QueueHeap A D) (ite : Option A) (calls : List (QueueCall A D))
    (h : Meets step Fresh (create m ite) calls) :
    Runs step
      (fun s => ∃ xs, HeapQueue.WellFormed s.mem s.q xs ∧ xs.map Prod.snd = s.contents ∧ s.returned = s.expected)
      (create m ite) calls := by
  have hstep : ∀ (s : ComparedQueue A D) c, (∃ xs, s.Agrees xs) → s.Fresh c → ∃ t, s.step c = some t ∧ ∃ ys, t.Agrees ys :=
    fun s c hs hc => hs.elim fun xs h => h.step hc
  have hruns := Runs.of_meets hstep ⟨[], Agrees.create m ite⟩ h
  refine hruns.mono ?_
  rintro s ⟨xs, h⟩
  exact ⟨xs, h.represents.wellFormed, h.contents, h.returned⟩

/-- A pointer twice in the queue, removals at both ends and in the middle, and a block that is used again. -/
def mixedCalls : List (QueueCall Nat Nat) :=
  [.enq 16 (some 7), .enq 32 (some 8), .enq 48 (some 7), .remove (some 7), .remove (some 7), .enq 16 (some 9), .deq,
    .remove (some 9), .deq, .enq 32 none, .deq]

theorem queue_represents_mixed :
    ∃ s, mixedCalls.foldlM step (create ⟨fun _ => none, 0⟩ (some 64)) = some s ∧ s.returned = s.expected := by
  obtain ⟨s, hs, xs, -, -, hreturned⟩ :=
    (queue_represents ⟨fun _ => none, 0⟩ (some 64) mixedCalls (by decide)).foldlM
  exact ⟨s, hs, hreturned⟩

end ComparedQueue

end Libibtl
