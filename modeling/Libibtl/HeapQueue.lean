import Libibtl.Foundation.CInt
import Libibtl.Foundation.LinkedList
import Libibtl.Foundation.Path

/-! # The linked queue

`fdmi_queue_data` nodes live in a heap that several queues may share, and a data
pointer is NULL or points to some `D`. An operation has no result when it
follows a pointer to a node that is not allocated, or a chain of links that has
no end. The address that `fdmi_malloc` returns is an argument.
-/

namespace Libibtl

open Foundation

universe u

abbrev QueueHeap (A : Type u) (D : Type u) := Heap A (Cell A (Option D))

structure HeapQueue (A : Type u) where
  head : Option A
  tail : Option A
  ite : Option A
  length : CInt
  deriving DecidableEq, Repr

inductive QueueIteratorState
  | head
  | next
  deriving DecidableEq, Repr

namespace HeapQueue

variable {A : Type u} {D : Type u} [DecidableEq A] [DecidableEq D]

/-- `fdmi_queue_create` leaves `ite` as it found it in the new block. -/
def create (ite : Option A) : HeapQueue A := ⟨none, none, ite, 0⟩

def enq (m : QueueHeap A D) (q : HeapQueue A) (d : A) (data : Option D) : Option (QueueHeap A D × HeapQueue A) :=
  let m := m.malloc d ⟨none, data⟩
  if q.head = none ∧ q.tail = none then
    some (m, { q with head := some d, tail := some d, length := q.length + 1 })
  else do
    let t ← q.tail
    let n ← m.cell t
    some (m.store t { n with next := some d }, { q with tail := some d, length := q.length + 1 })

def deq (m : QueueHeap A D) (q : HeapQueue A) : Option (Option D × QueueHeap A D × HeapQueue A) :=
  match q.head with
  | none => some (none, m, q)
  | some p => do
    let n ← m.cell p
    some (n.data, m.free p,
      { q with head := n.next, tail := if n.next = none then none else q.tail, length := q.length - 1 })

def iterate (m : QueueHeap A D) (q : HeapQueue A) : QueueIteratorState → Option (Option D × HeapQueue A)
  | .head =>
    match q.head with
    | none => some (none, q)
    | some p => do
      let n ← m.cell p
      some (n.data, { q with ite := n.next })
  | .next =>
    match q.ite with
    | none => some (none, q)
    | some p => do
      let n ← m.cell p
      some (n.data, { q with ite := n.next })

/-- The loop behind the head: `old` is the node before `cur`. -/
def removeLoop (m : QueueHeap A D) (q : HeapQueue A) (d : Option D) :
    Nat → A → Option A → Option (QueueHeap A D × HeapQueue A)
  | _, _, none => some (m, q)
  | 0, _, some _ => none
  | fuel + 1, old, some cur => do
    let n ← m.cell cur
    if n.data = d then
      let o ← m.cell old
      some ((m.store old { o with next := n.next }).free cur,
        { q with
          tail := if q.tail = some cur then some old else q.tail
          ite := if q.ite = some cur then n.next else q.ite
          length := q.length - 1 })
    else removeLoop m q d fuel cur n.next

def remove (m : QueueHeap A D) (q : HeapQueue A) (d : Option D) : Option (QueueHeap A D × HeapQueue A) :=
  match q.head with
  | none => some (m, q)
  | some cur => do
    let n ← m.cell cur
    if n.data = d then
      some (m.free cur,
        { q with
          head := n.next
          tail := if n.next = none then none else q.tail
          ite := if n.next = none then none else q.ite
          length := q.length - 1 })
    else removeLoop m q d m.mallocs cur n.next

/-- A search over `fdmi_queue_iterate` from the test of `d` on. The test may follow the pointer. -/
def searchLoop (m : QueueHeap A D) (test : D → Option Bool) :
    Nat → HeapQueue A → Option D → Option (HeapQueue A × Option D)
  | _, q, none => some (q, none)
  | 0, _, some _ => none
  | fuel + 1, q, some d => (test d).bind fun hit =>
    if hit then some (q, some d) else do
      let (next, q) ← iterate m q .next
      searchLoop m test fuel q next

/-- The element at which the search returns, NULL when it comes to the end. -/
def search (m : QueueHeap A D) (q : HeapQueue A) (test : D → Option Bool) : Option (HeapQueue A × Option D) := do
  let (d, q) ← iterate m q .head
  searchLoop m test m.mallocs q d

/-- The queue holds the nodes `xs`. -/
structure Represents (m : QueueHeap A D) (q : HeapQueue A) (xs : List (A × Option D)) : Prop where
  chain : Segment m.cell q.head xs none
  tail : q.tail = xs.getLast?.map Prod.fst
  length : q.length = BitVec.ofNat 32 xs.length
  bound : xs.length ≤ m.mallocs

/-- The fields of a queue describe one list of nodes: `xs` are the nodes behind `head`, without a repetition, `tail` is the
last of them, and `length` is their number. -/
structure WellFormed (m : QueueHeap A D) (q : HeapQueue A) (xs : List (A × Option D)) : Prop where
  chain : Segment m.cell q.head xs none
  nodup : (xs.map Prod.fst).Nodup
  tail : q.tail = xs.getLast?.map Prod.fst
  empty : q.head = none ↔ q.tail = none
  length : q.length = BitVec.ofNat 32 xs.length
  length_toInt : xs.length < 2 ^ 31 → q.length.toInt = xs.length

namespace Represents

variable {m m' : QueueHeap A D} {q q' : HeapQueue A} {xs ys : List (A × Option D)} {a b : A} {c d e : Option D}

omit [DecidableEq A] [DecidableEq D]

theorem head_eq (h : Represents m q xs) : q.head = first xs := h.chain.start_eq

theorem head_eq_none_iff (h : Represents m q xs) : q.head = none ↔ xs = [] := by
  rw [h.head_eq, first_eq_none]

theorem tail_eq_none_iff (h : Represents m q xs) : q.tail = none ↔ xs = [] := by
  rw [h.tail, Option.map_eq_none_iff, List.getLast?_eq_none_iff]

theorem nodup (h : Represents m q xs) : (xs.map Prod.fst).Nodup := h.chain.nodup

theorem frame (h : Represents m q xs) (hc : ∀ a ∈ xs.map Prod.fst, m'.cell a = m.cell a)
    (hm : m.mallocs ≤ m'.mallocs) : Represents m' q xs :=
  ⟨h.chain.congr hc, h.tail, h.length, h.bound.trans hm⟩

theorem with_ite (h : Represents m q xs) (ite : Option A) : Represents m { q with ite := ite } xs :=
  ⟨h.chain, h.tail, h.length, h.bound⟩

theorem create (m : QueueHeap A D) (ite : Option A) : Represents m (HeapQueue.create ite) [] :=
  ⟨rfl, rfl, rfl, Nat.zero_le _⟩

theorem length_toInt (h : Represents m q xs) (hlt : xs.length < 2 ^ 31) : q.length.toInt = xs.length := by
  rw [h.length, toInt_ofNat_of_lt hlt]

theorem wellFormed (h : Represents m q xs) : WellFormed m q xs := by
  refine ⟨h.chain, h.nodup, h.tail, ?_, h.length, h.length_toInt⟩
  rw [h.head_eq_none_iff, h.tail_eq_none_iff]

theorem pop (h : Represents m q ((a, d) :: xs)) (ite : Option A) [DecidableEq A] :
    Represents (m.free a)
      { q with head := first xs, tail := if first xs = none then none else q.tail, ite, length := q.length - 1 } xs := by
  have hnodup := List.nodup_cons.1 h.nodup
  refine ⟨h.chain.tail.update_of_notMem hnodup.1, ?_, ?_, Nat.le_of_succ_le h.bound⟩
  · cases xs with
    | nil => rfl
    | cons x xs =>
      change q.tail = _
      rw [h.tail, List.getLast?_cons_cons]
  · change q.length - 1 = _
    rw [h.length, List.length_cons, BitVec.ofNat_add]
    exact BitVec.add_sub_cancel ..

theorem unlink (h : Represents m q (xs ++ (b, e) :: (a, d) :: ys)) (ite : Option A) [DecidableEq A] :
    Represents ((m.store b ⟨first ys, e⟩).free a)
      { q with tail := if q.tail = some a then some b else q.tail, ite, length := q.length - 1 } (xs ++ (b, e) :: ys) := by
  have hnodup := h.nodup
  simp only [List.map_append, List.map_cons, List.nodup_append, List.nodup_cons, List.mem_cons] at hnodup
  obtain ⟨-, ⟨hb, ha, -⟩, hxs⟩ := hnodup
  have hbxs : b ∉ xs.map Prod.fst := fun hm => hxs _ hm _ (.inl rfl) rfl
  have haxs : a ∉ xs.map Prod.fst := fun hm => hxs _ hm _ (.inr (.inl rfl)) rfl
  have hab : a ≠ b := fun hab => hb (.inl hab.symm)
  refine ⟨?_, ?_, ?_, ?_⟩
  · obtain ⟨n, hfirst, hrest⟩ := Segment.append_iff.1 h.chain
    have hback : Segment m.cell (first ys) ys none := Segment.tail (hrest.tail : Segment m.cell (some a) _ _)
    have hfront : Segment m.cell q.head (xs ++ [(b, e)]) (some a) := by
      refine hfirst.append ?_
      obtain ⟨rfl, n', hn', hn''⟩ := hrest
      cases hn''.1
      exact .cons hn' rfl
    refine (hfront.relink hbxs hback fun hm => hb (.inr hm)).update_of_notMem ?_
    simp only [List.map_append, List.map_cons, List.mem_append, List.mem_cons]
    rintro (hm | hm | hm)
    · exact haxs hm
    · exact hab hm
    · exact ha hm
  · change (if q.tail = some a then some b else q.tail) = _
    rw [h.tail]
    cases ys with
    | nil => simp
    | cons y ys =>
      rw [List.getLast?_append_cons, List.getLast?_append_cons, List.getLast?_cons_cons, List.getLast?_cons_cons,
        List.getLast?_cons_cons, if_neg]
      intro hlast
      obtain ⟨z, hz, hza⟩ := Option.map_eq_some_iff.1 hlast
      exact ha (List.mem_map.2 ⟨z, List.mem_of_getLast? hz, hza⟩)
  · change q.length - 1 = _
    rw [h.length]
    simp only [List.length_append, List.length_cons]
    rw [← Nat.add_assoc, BitVec.ofNat_add _ 1]
    exact BitVec.add_sub_cancel ..
  · have hbound := h.bound
    simp only [List.length_append, List.length_cons] at hbound ⊢
    change _ ≤ m.mallocs
    omega

theorem push (h : Represents m q xs) (ha : m.cell a = none) [DecidableEq A] :
    ∃ m' q', enq m q a d = some (m', q') ∧ Represents m' q' (xs ++ [(a, d)]) ∧ q'.ite = q.ite ∧
      m'.mallocs = m.mallocs + 1 ∧ ∀ b, b ∉ xs.map Prod.fst → b ≠ a → m'.cell b = m.cell b := by
  have haxs : a ∉ xs.map Prod.fst := fun hm => h.chain.allocated hm ha
  have hlength : q.length + 1 = BitVec.ofNat 32 (xs.length + 1) := by
    rw [h.length, BitVec.ofNat_add]
    rfl
  have hbound := h.bound
  rcases List.eq_nil_or_concat xs with rfl | ⟨l, ⟨b, e⟩, rfl⟩
  · have hempty : q.head = none ∧ q.tail = none := ⟨h.head_eq, h.tail⟩
    refine ⟨_, _, if_pos hempty, ⟨.cons (Heap.cell_malloc_self ..) rfl, rfl, hlength, ?_⟩, rfl, rfl, ?_⟩
    · exact Nat.le_add_left ..
    · intro b _ hb
      exact Heap.cell_malloc_ne hb
  · rw [List.concat_eq_append] at *
    have hlast : q.tail = some b := by rw [h.tail]; simp
    have hcell : m.cell b = some ⟨none, e⟩ := by
      have hchain := h.chain
      rw [Segment.append_iff] at hchain
      obtain ⟨n, -, hn⟩ := hchain
      exact hn.cell_eq
    have hba : b ≠ a := by
      rintro rfl
      rw [ha] at hcell
      cases hcell
    have hb : b ∉ l.map Prod.fst := by
      have hnodup := h.nodup
      rw [List.map_append, List.nodup_append] at hnodup
      exact fun hm => hnodup.2.2 b hm b List.mem_cons_self rfl
    have hcell' : (m.malloc a ⟨none, d⟩).cell b = some ⟨none, e⟩ := (Heap.cell_malloc_ne hba).trans hcell
    refine ⟨(m.malloc a ⟨none, d⟩).store b ⟨some a, e⟩, { q with tail := some a, length := q.length + 1 }, ?_, ?_, rfl, rfl,
      ?_⟩
    · rw [enq, if_neg, hlast, Option.bind_eq_bind, Option.bind_some, hcell']
      · rfl
      · rintro ⟨-, hnone⟩
        rw [hlast] at hnone
        cases hnone
    · refine ⟨?_, ?_, ?_, ?_⟩
      · have hchain : Segment (m.malloc a ⟨none, d⟩).cell q.head (l ++ [(b, e)]) none := h.chain.update_of_notMem haxs
        have hnew : Segment (m.malloc a ⟨none, d⟩).cell (some a) [(a, d)] none := .cons (Heap.cell_malloc_self ..) rfl
        have hjoin := hchain.relink hb hnew (by simpa using hba)
        rw [List.append_assoc]
        exact hjoin
      · simp
      · rw [List.length_append]
        exact hlength
      · rw [List.length_append]
        exact Nat.add_le_add_right hbound 1
    · intro c hc hca
      rw [Heap.cell_store_ne, Heap.cell_malloc_ne hca]
      rintro rfl
      exact hc (by simp)

/-! ## What the operations do to a represented queue -/

theorem deq_nil [DecidableEq A] (h : Represents m q []) : deq m q = some (none, m, q) := by
  rw [deq, h.head_eq]
  rfl

theorem deq_cons [DecidableEq A] (h : Represents m q ((a, d) :: xs)) :
    ∃ q', deq m q = some (d, m.free a, q') ∧ Represents (m.free a) q' xs ∧ q'.ite = q.ite := by
  refine ⟨_, ?_, h.pop q.ite, rfl⟩
  rw [deq, h.head_eq, first_cons]
  simp only [h.chain.cell_eq, Option.bind_eq_bind, Option.bind_some]

theorem iterate_head_nil (h : Represents m q []) : iterate m q .head = some (none, q) := by
  rw [iterate, h.head_eq]
  rfl

theorem iterate_head_cons (h : Represents m q ((a, d) :: xs)) :
    iterate m q .head = some (d, { q with ite := first xs }) := by
  rw [iterate, h.head_eq, first_cons]
  simp only [h.chain.cell_eq, Option.bind_eq_bind, Option.bind_some]

theorem iterate_next_nil (hite : q.ite = none) : iterate m q .next = some (none, q) := by
  rw [iterate, hite]

theorem iterate_next_cons (h : Represents m q (ys ++ (a, d) :: xs)) (hite : q.ite = some a) :
    iterate m q .next = some (d, { q with ite := first xs }) := by
  rw [iterate, hite]
  simp only [h.chain.suffix.cell_eq, Option.bind_eq_bind, Option.bind_some]

section Search

variable {l : List D} {test : D → Option Bool} {p : D → Bool} {f : D}

theorem searchNext_eq {fuel : Nat} (h : Represents m q (ys ++ xs)) (hite : q.ite = first xs)
    (hxs : xs.map Prod.snd = l.map some) (htest : ∀ d ∈ l, test d = some (p d)) (hfuel : xs.length ≤ fuel) :
    ∃ ite, ((iterate m q .next).bind fun r => searchLoop m test fuel r.2 r.1) = some ({ q with ite }, l.find? p) := by
  induction xs generalizing fuel q ys l with
  | nil =>
    obtain rfl : l = [] := by simpa using hxs.symm
    refine ⟨q.ite, ?_⟩
    rw [iterate_next_nil hite, Option.bind_some, searchLoop]
    rfl
  | cons x xs ih =>
    obtain ⟨a, c⟩ := x
    cases l with
    | nil => cases hxs
    | cons d l =>
      rw [List.map_cons, List.map_cons, List.cons.injEq] at hxs
      obtain ⟨rfl, hxs⟩ : c = some d ∧ xs.map Prod.snd = l.map some := hxs
      cases fuel with
      | zero => exact absurd hfuel (Nat.not_succ_le_zero _)
      | succ fuel =>
        rw [h.iterate_next_cons hite, Option.bind_some, searchLoop, htest d List.mem_cons_self]
        simp only [Option.bind_eq_bind, Option.bind_some]
        cases hp : p d with
        | true =>
          refine ⟨first xs, ?_⟩
          rw [if_pos rfl, List.find?_cons_of_pos hp]
        | false =>
          have h' := h.with_ite (first xs)
          rw [List.append_cons] at h'
          rw [if_neg Bool.false_ne_true, List.find?_cons_of_neg (by simp [hp])]
          exact ih h' rfl hxs (fun d hd => htest d (List.mem_cons_of_mem _ hd)) (Nat.le_of_succ_le_succ hfuel)

/-- A search finds the first element that passes the test and moves nothing but the cursor. -/
theorem search_eq (h : Represents m q xs) (hxs : xs.map Prod.snd = l.map some) (htest : ∀ d ∈ l, test d = some (p d)) :
    ∃ ite, search m q test = some ({ q with ite }, l.find? p) := by
  cases xs with
  | nil =>
    obtain rfl : l = [] := by simpa using hxs.symm
    refine ⟨q.ite, ?_⟩
    rw [search, h.iterate_head_nil]
    simp only [Option.bind_eq_bind, Option.bind_some]
    rw [searchLoop]
    rfl
  | cons x xs =>
    -- the first call behaves as `FDMI_QUEUE_NEXT` with the cursor on the head
    have hstart : Represents m { q with ite := some x.1 } ([] ++ x :: xs) := h.with_ite _
    obtain ⟨ite, hloop⟩ := hstart.searchNext_eq rfl hxs htest h.bound
    rw [hstart.iterate_next_cons rfl] at hloop
    refine ⟨ite, ?_⟩
    rw [search, h.iterate_head_cons]
    exact hloop

end Search

variable [DecidableEq A] [DecidableEq D]

theorem removeLoop_absent {fuel : Nat} (h : Segment m.cell (first xs) xs none) (hd : d ∉ xs.map Prod.snd)
    (hf : xs.length ≤ fuel) : removeLoop m q d fuel b (first xs) = some (m, q) := by
  induction xs generalizing fuel b with
  | nil => rw [first_nil, removeLoop]
  | cons x xs ih =>
    obtain ⟨a, c⟩ := x
    obtain ⟨fuel, rfl⟩ := Nat.exists_eq_add_of_le' (Nat.lt_of_lt_of_le (Nat.succ_pos _) hf)
    rw [List.map_cons, List.mem_cons, not_or] at hd
    rw [first_cons, removeLoop]
    simp only [h.cell_eq, Option.bind_eq_bind, Option.bind_some, if_neg (Ne.symm hd.1)]
    exact ih h.tail hd.2 (Nat.le_of_succ_le_succ hf)

/-- The loop stops at the first node with the pointer and turns the link of the node before it. -/
theorem removeLoop_found {fuel : Nat} {o : A} {c : Option D}
    (h : Segment m.cell (some o) ((o, c) :: (xs ++ (a, d) :: ys)) none) (hlast : ((o, c) :: xs).getLast? = some (b, e))
    (hd : d ∉ xs.map Prod.snd) (hf : xs.length < fuel) :
    removeLoop m q d fuel o (first (xs ++ (a, d) :: ys)) =
      some ((m.store b ⟨first ys, e⟩).free a,
        { q with
          tail := if q.tail = some a then some b else q.tail
          ite := if q.ite = some a then first ys else q.ite
          length := q.length - 1 }) := by
  induction xs generalizing fuel o c with
  | nil =>
    cases fuel with
    | zero => exact absurd hf (Nat.not_lt_zero _)
    | succ fuel =>
      cases hlast
      have hcell : m.cell a = some ⟨first ys, d⟩ := Segment.cell_eq (h.tail : Segment m.cell (some a) _ _)
      rw [List.nil_append, first_cons, removeLoop]
      simp only [hcell, h.cell_eq, Option.bind_eq_bind, Option.bind_some, if_pos]
  | cons x xs ih =>
    obtain ⟨a', c'⟩ := x
    obtain ⟨fuel, rfl⟩ := Nat.exists_eq_add_of_le' (Nat.lt_of_le_of_lt (Nat.zero_le _) hf)
    rw [List.map_cons, List.mem_cons, not_or] at hd
    have htail : Segment m.cell (some a') ((a', c') :: (xs ++ (a, d) :: ys)) none := h.tail
    rw [List.cons_append, first_cons, removeLoop]
    simp only [htail.cell_eq, Option.bind_eq_bind, Option.bind_some, if_neg (Ne.symm hd.1)]
    refine ih htail ?_ hd.2 (Nat.lt_of_succ_lt_succ hf)
    rwa [List.getLast?_cons_cons] at hlast

theorem remove_absent (h : Represents m q xs) (hd : d ∉ xs.map Prod.snd) : remove m q d = some (m, q) := by
  rw [remove, h.head_eq]
  cases xs with
  | nil => rfl
  | cons x xs =>
    obtain ⟨a, c⟩ := x
    rw [List.map_cons, List.mem_cons, not_or] at hd
    simp only [first_cons, h.chain.cell_eq, Option.bind_eq_bind, Option.bind_some, if_neg (Ne.symm hd.1)]
    exact removeLoop_absent h.chain.tail hd.2 (Nat.le_of_succ_le h.bound)

theorem remove_head (h : Represents m q ((a, d) :: xs)) :
    remove m q d = some (m.free a,
      { q with
        head := first xs
        tail := if first xs = none then none else q.tail
        ite := if first xs = none then none else q.ite
        length := q.length - 1 }) := by
  rw [remove, h.head_eq]
  simp only [first_cons, h.chain.cell_eq, Option.bind_eq_bind, Option.bind_some, if_pos]

theorem remove_behind (h : Represents m q (xs ++ (b, e) :: (a, d) :: ys)) (hd : d ∉ (xs ++ [(b, e)]).map Prod.snd) :
    remove m q d = some ((m.store b ⟨first ys, e⟩).free a,
      { q with
        tail := if q.tail = some a then some b else q.tail
        ite := if q.ite = some a then first ys else q.ite
        length := q.length - 1 }) := by
  have hbound := h.bound
  have hchain := h.chain
  have hhead := h.head_eq
  obtain ⟨o, c, l, hl⟩ : ∃ o c l, xs ++ [(b, e)] = (o, c) :: l := by
    cases xs with
    | nil => exact ⟨b, e, [], rfl⟩
    | cons x xs => exact ⟨x.1, x.2, xs ++ [(b, e)], rfl⟩
  have hall : xs ++ (b, e) :: (a, d) :: ys = (o, c) :: (l ++ (a, d) :: ys) := by
    rw [List.append_cons, hl]
    rfl
  have hlast : ((o, c) :: l).getLast? = some (b, e) := by
    rw [← hl]
    simp
  rw [hall] at hbound hchain hhead
  rw [hhead] at hchain
  rw [hl, List.map_cons, List.mem_cons, not_or] at hd
  rw [remove, hhead]
  simp only [first_cons, hchain.cell_eq, Option.bind_eq_bind, Option.bind_some, if_neg (Ne.symm hd.1)]
  rw [removeLoop_found hchain hlast hd.2, hhead, first_cons]
  simp only [List.length_cons, List.length_append] at hbound
  omega

end Represents

end HeapQueue

end Libibtl
