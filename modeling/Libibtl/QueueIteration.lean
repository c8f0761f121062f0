import Libibtl.QueueContents

/-! # Iteration with removals

An iteration has passed some nodes and has others before it. The walk below says
what an iteration is for: it hands out the node in front and knows nothing of
pointers. `remove` repairs the cursor of the linked queue when it unlinks the
node under it, except at the head.
-/

namespace Libibtl

open Foundation

universe u

/-- Where an iteration stands among the nodes of the queue, and what became of the nodes behind the first one: `visited`
were handed out, `dropped` left the queue before their turn. -/
structure Walk (A D : Type u) where
  passed : List (A × Option D)
  pending : List (A × Option D)
  visited : List (A × Option D)
  dropped : List (A × Option D)

namespace Walk

variable {A D : Type u} [DecidableEq D]

/-- The iteration has just handed out the first node of the queue. -/
def start (x : A × Option D) (xs : List (A × Option D)) : Walk A D := ⟨[x], xs, [], []⟩

def nodes (w : Walk A D) : List (A × Option D) := w.passed ++ w.pending

def next (w : Walk A D) : Walk A D :=
  match w.pending with
  | [] => w
  | x :: xs => { w with passed := w.passed ++ [x], pending := xs, visited := w.visited ++ [x] }

/-- The first node with the pointer leaves the queue. -/
def remove (w : Walk A D) (d : Option D) : Walk A D :=
  if d ∈ w.passed.map Prod.snd then { w with passed := w.passed.eraseP (·.2 = d) }
  else { w with
    pending := w.pending.eraseP (·.2 = d)
    dropped := w.dropped ++ (w.pending.find? (·.2 = d)).toList }

/-- Every node of `xs` was handed out, is still to come, or has left; the first two kinds stand in their old order. -/
structure Accounts (w : Walk A D) (xs : List (A × Option D)) : Prop where
  order : (w.visited ++ w.pending).Sublist xs
  each : (w.visited ++ w.pending ++ w.dropped).Perm xs

/-- The results of `FDMI_QUEUE_NEXT`: the nodes in the order of their turns, then NULL for good. -/
def Returned (w : Walk A D) (out : List (Option D)) : Prop :=
  ∃ k, out = w.visited.map Prod.snd ++ List.replicate k none ∧ (0 < k → w.pending = [])

variable {w : Walk A D} {xs l r : List (A × Option D)} {a : A} {d : Option D} {out : List (Option D)}

omit [DecidableEq D] in
theorem next_nil (hp : w.pending = []) : w.next = w := by rw [next, hp]

omit [DecidableEq D] in
theorem next_cons (hp : w.pending = (a, d) :: r) :
    w.next = { w with passed := w.passed ++ [(a, d)], pending := r, visited := w.visited ++ [(a, d)] } := by
  rw [next, hp]

omit [DecidableEq D] in
@[simp] theorem nodes_next (w : Walk A D) : w.next.nodes = w.nodes := by
  cases hp : w.pending with
  | nil => rw [next_nil hp]
  | cons x r =>
    rw [next_cons hp, nodes, nodes, hp]
    simp

omit [DecidableEq D] in
theorem Returned.next_nil (h : w.Returned out) (hp : w.pending = []) : w.next.Returned (out ++ [none]) := by
  obtain ⟨k, rfl, -⟩ := h
  rw [Walk.next_nil hp]
  refine ⟨k + 1, ?_, fun _ => hp⟩
  rw [List.append_assoc, List.replicate_succ']

omit [DecidableEq D] in
theorem Returned.next_cons (h : w.Returned out) (hp : w.pending = (a, d) :: r) : w.next.Returned (out ++ [d]) := by
  obtain ⟨k, rfl, hend⟩ := h
  have hzero : k = 0 := by
    refine Nat.eq_zero_of_not_pos fun hpos => ?_
    rw [hp] at hend
    exact List.cons_ne_nil _ _ (hend hpos)
  subst hzero
  rw [Walk.next_cons hp]
  exact ⟨0, by simp, fun h => absurd h (Nat.lt_irrefl 0)⟩

theorem Returned.remove (h : w.Returned out) (d : Option D) : (w.remove d).Returned out := by
  obtain ⟨k, rfl, hend⟩ := h
  rw [Walk.remove]
  split
  · exact ⟨k, rfl, hend⟩
  · refine ⟨k, rfl, fun hpos => ?_⟩
    change w.pending.eraseP _ = []
    rw [hend hpos]
    rfl

omit [DecidableEq D] in
theorem Accounts.start (x : A × Option D) (xs : List (A × Option D)) : (start x xs).Accounts xs :=
  ⟨List.Sublist.refl _, by simp [Walk.start]⟩

omit [DecidableEq D] in
theorem Accounts.next (h : w.Accounts xs) : w.next.Accounts xs := by
  cases hp : w.pending with
  | nil =>
    rw [next_nil hp]
    exact h
  | cons y ys =>
    have hmove : w.next.visited ++ w.next.pending = w.visited ++ w.pending := by
      rw [next_cons hp, hp]
      simp
    refine ⟨?_, ?_⟩
    · rw [hmove]
      exact h.order
    · rw [hmove, next_cons hp]
      exact h.each

theorem eraseP_split (hl : d ∉ l.map Prod.snd) : (l ++ (a, d) :: r).eraseP (·.2 = d) = l ++ r := by
  rw [List.eraseP_append_right, List.eraseP_cons_of_pos (by simp)]
  intro x hx
  simpa using fun hxd => hl (List.mem_map.2 ⟨x, hx, hxd⟩)

theorem find?_split (hl : d ∉ l.map Prod.snd) : (l ++ (a, d) :: r).find? (·.2 = d) = some (a, d) := by
  rw [List.find?_append, List.find?_eq_none.2, Option.none_or, List.find?_cons_of_pos (by simp)]
  intro x hx
  simpa using fun hxd => hl (List.mem_map.2 ⟨x, hx, hxd⟩)

theorem eraseP_absent (hl : d ∉ l.map Prod.snd) : l.eraseP (·.2 = d) = l := by
  refine List.eraseP_of_forall_not fun x hx => ?_
  simpa using fun hxd => hl (List.mem_map.2 ⟨x, hx, hxd⟩)

theorem remove_passed (hp : w.passed = l ++ (a, d) :: r) (hl : d ∉ l.map Prod.snd) :
    w.remove d = { w with passed := l ++ r } := by
  rw [remove, if_pos, hp, eraseP_split hl]
  rw [hp]
  simp

theorem remove_pending (hd : d ∉ w.passed.map Prod.snd) (hp : w.pending = l ++ (a, d) :: r) (hl : d ∉ l.map Prod.snd) :
    w.remove d = { w with pending := l ++ r, dropped := w.dropped ++ [(a, d)] } := by
  rw [remove, if_neg hd, hp, eraseP_split hl, find?_split hl]
  rfl

theorem remove_absent (hd : d ∉ w.nodes.map Prod.snd) : w.remove d = w := by
  rw [nodes, List.map_append, List.mem_append, not_or] at hd
  have hfind : w.pending.find? (·.2 = d) = none := by
    refine List.find?_eq_none.2 fun x hx => ?_
    simpa using fun hxd => hd.2 (List.mem_map.2 ⟨x, hx, hxd⟩)
  rw [remove, if_neg hd.1, eraseP_absent hd.2, hfind]
  simp

theorem Accounts.remove (h : w.Accounts xs) (d : Option D) : (w.remove d).Accounts xs := by
  by_cases hp : d ∈ w.passed.map Prod.snd
  · rw [Walk.remove, if_pos hp]
    exact ⟨h.order, h.each⟩
  by_cases hd : d ∈ w.pending.map Prod.snd
  · obtain ⟨l, a, r, hl, hdl⟩ := HeapQueue.Represents.exists_split hd
    rw [remove_pending hp hl hdl]
    have horder := h.order
    have heach := h.each
    rw [hl] at horder heach
    refine ⟨?_, ?_⟩
    · exact (((List.sublist_cons_self _ _).append_left l).append_left _).trans horder
    · refine List.Perm.trans ?_ heach
      -- the removed node moves from its place to the end
      have hmove : (l ++ r ++ (w.dropped ++ [(a, d)])).Perm (l ++ (a, d) :: r ++ w.dropped) := by
        have hmid : (l ++ (a, d) :: (r ++ w.dropped)).Perm ((a, d) :: (l ++ (r ++ w.dropped))) := List.perm_middle
        have hend : ((l ++ (r ++ w.dropped)) ++ [(a, d)]).Perm ((a, d) :: (l ++ (r ++ w.dropped))) :=
          List.perm_append_singleton ..
        have hboth := hend.trans hmid.symm
        simpa only [List.append_assoc, List.cons_append] using hboth
      simpa only [List.append_assoc] using hmove.append_left w.visited
  · rw [remove_absent]
    · exact h
    · rw [nodes, List.map_append, List.mem_append, not_or]
      exact ⟨hp, hd⟩

end Walk

inductive IterationCall (D : Type u)
  | next
  | remove (d : Option D)
  deriving DecidableEq, Repr

/-- A linked queue in an iteration, the results of its `FDMI_QUEUE_NEXT` calls, and the walk that it stands for. -/
structure IteratedQueue (A D : Type u) where
  mem : QueueHeap A D
  q : HeapQueue A
  returned : List (Option D)
  walk : Walk A D

namespace IteratedQueue

variable {A D : Type u} [DecidableEq A] [DecidableEq D]

def step (s : IteratedQueue A D) : IterationCall D → Option (IteratedQueue A D)
  | .next =>
    (HeapQueue.iterate s.mem s.q .next).map fun r =>
      { s with q := r.2, returned := s.returned ++ [r.1], walk := s.walk.next }
  | .remove d =>
    (HeapQueue.remove s.mem s.q d).map fun r => { s with mem := r.1, q := r.2, walk := s.walk.remove d }

/-- The cursor is NULL or linked, and what the calls returned is what the walk handed out. -/
structure Survives (xs : List (A × Option D)) (s : IteratedQueue A D) : Prop where
  queue : HeapQueue.Represents s.mem s.q s.walk.nodes
  cursor : s.q.ite = none ∨ ∃ x ∈ s.walk.nodes, s.q.ite = some x.1
  returned : s.walk.Returned s.returned
  accounts : s.walk.Accounts xs

/-- The call removes the head under the cursor while another node follows: the one unlinking that leaves `ite` alone. -/
def StrandsIte (s : IteratedQueue A D) : IterationCall D → Prop
  | .next => False
  | .remove d => ∃ n ∈ s.q.head.bind s.mem.cell, n.data = d ∧ n.next ≠ none ∧ s.q.ite = s.q.head

instance (s : IteratedQueue A D) (e : IterationCall D) : Decidable (s.StrandsIte e) := by
  cases e
  all_goals unfold StrandsIte; infer_instance

/-- The cursor stands on the first node to come. -/
structure Follows (xs : List (A × Option D)) (s : IteratedQueue A D) : Prop where
  queue : HeapQueue.Represents s.mem s.q s.walk.nodes
  ite : s.q.ite = first s.walk.pending
  returned : s.walk.Returned s.returned
  accounts : s.walk.Accounts xs

namespace Follows

variable {s t : IteratedQueue A D} {xs : List (A × Option D)} {e : IterationCall D} {d : Option D}

omit [DecidableEq A] [DecidableEq D] in
theorem survives (h : s.Follows xs) : s.Survives xs := by
  refine ⟨h.queue, ?_, h.returned, h.accounts⟩
  rw [h.ite, Walk.nodes]
  cases s.walk.pending with
  | nil => exact .inl rfl
  | cons x _ => exact .inr ⟨x, by simp, rfl⟩

theorem next (h : s.Follows xs) : ∃ t, s.step .next = some t ∧ t.Follows xs := by
  cases hp : s.walk.pending with
  | nil =>
    have hite := h.ite
    rw [hp, first_nil] at hite
    refine ⟨{ s with returned := s.returned ++ [none], walk := s.walk.next }, ?_, ?_, ?_, h.returned.next_nil hp,
      h.accounts.next⟩
    · rw [step, HeapQueue.Represents.iterate_next_nil hite]
      rfl
    · rw [Walk.nodes_next]
      exact h.queue
    · rw [Walk.next_nil hp]
      exact h.ite
  | cons x r =>
    obtain ⟨a, c⟩ := x
    have hite := h.ite
    have hqueue := h.queue
    rw [hp, first_cons] at hite
    rw [Walk.nodes, hp] at hqueue
    refine ⟨{ s with q := { s.q with ite := first r }, returned := s.returned ++ [c], walk := s.walk.next }, ?_, ?_, ?_,
      h.returned.next_cons hp, h.accounts.next⟩
    · rw [step, hqueue.iterate_next_cons hite]
      rfl
    · rw [Walk.nodes_next]
      exact h.queue.with_ite _
    · rw [Walk.next_cons hp]

omit [DecidableEq A] [DecidableEq D] in
/-- A node that the iteration has passed is not the one under the cursor. -/
theorem ite_ne_of_passed (h : s.Follows xs) {a : A} (ha : a ∈ s.walk.passed.map Prod.fst) : s.q.ite ≠ some a := by
  rw [h.ite]
  intro hfirst
  have hnodup := h.queue.nodup
  rw [Walk.nodes, List.map_append, List.nodup_append] at hnodup
  cases hp : s.walk.pending with
  | nil =>
    rw [hp] at hfirst
    cases hfirst
  | cons x r =>
    rw [hp] at hfirst hnodup
    cases hfirst
    exact hnodup.2.2 _ ha _ List.mem_cons_self rfl

theorem remove_passed (h : s.Follows xs) (hd : d ∈ s.walk.passed.map Prod.snd) :
    ∃ t, s.step (.remove d) = some t ∧ t.Follows xs := by
  obtain ⟨l, a, r, hl, hdl⟩ := HeapQueue.Represents.exists_split hd
  have hne : s.q.ite ≠ some a := h.ite_ne_of_passed (by rw [hl]; simp)
  have hnodes : s.walk.nodes = l ++ (a, d) :: (r ++ s.walk.pending) := by
    rw [Walk.nodes, hl]
    simp
  obtain ⟨m, q, hremove, hm, hite, -⟩ := (hnodes ▸ h.queue).remove_at hdl
  refine ⟨{ s with mem := m, q := q, walk := s.walk.remove d }, ?_, ?_, ?_, h.returned.remove d, h.accounts.remove d⟩
  · rw [step, hremove]
    rfl
  · rw [Walk.remove_passed hl hdl, Walk.nodes, List.append_assoc]
    exact hm
  · rw [Walk.remove_passed hl hdl, hite, if_neg hne, h.ite]
    -- where the queue becomes empty no node was to come
    split
    · split
      · rename_i hempty
        rw [first_eq_none, List.append_eq_nil_iff] at hempty
        rw [hempty.2, first_nil]
      · rfl
    · rfl

theorem remove_pending (h : s.Follows xs) (hp : d ∉ s.walk.passed.map Prod.snd) (hd : d ∈ s.walk.pending.map Prod.snd)
    (hok : ¬ s.StrandsIte (.remove d)) : ∃ t, s.step (.remove d) = some t ∧ t.Follows xs := by
  obtain ⟨l, a, r, hl, hdl⟩ := HeapQueue.Represents.exists_split hd
  have hnodes : s.walk.nodes = (s.walk.passed ++ l) ++ (a, d) :: r := by rw [Walk.nodes, hl, List.append_assoc]
  have hqueue := hnodes ▸ h.queue
  have hdl' : d ∉ (s.walk.passed ++ l).map Prod.snd := by
    rw [List.map_append, List.mem_append, not_or]
    exact ⟨hp, hdl⟩
  obtain ⟨m, q, hremove, hm, hite, -⟩ := hqueue.remove_at hdl'
  have hcursor := h.ite
  rw [hl] at hcursor
  refine ⟨{ s with mem := m, q := q, walk := s.walk.remove d }, ?_, ?_, ?_, h.returned.remove d, h.accounts.remove d⟩
  · rw [step, hremove]
    rfl
  · rw [Walk.remove_pending hp hl hdl, Walk.nodes, ← List.append_assoc]
    exact hm
  · rw [Walk.remove_pending hp hl hdl, hite]
    change _ = first (l ++ r)
    cases l with
    | nil =>
      -- the cursor is on the removed node
      rw [List.nil_append, first_cons] at hcursor
      rw [List.append_nil, List.nil_append]
      split
      · rename_i hhead
        split
        · rename_i hempty
          exact hempty.symm
        · rename_i hrest
          rw [first_eq_none] at hhead
          rw [hhead] at hqueue
          refine absurd ?_ hok
          refine ⟨⟨first r, d⟩, Option.mem_def.2 ?_, rfl, hrest, ?_⟩
          · rw [hqueue.head_eq]
            exact hqueue.chain.cell_eq
          · rw [hqueue.head_eq, hcursor]
            rfl
      · rfl
    | cons x l =>
      rw [List.cons_append, first_cons] at hcursor
      rw [if_neg, if_neg, hcursor]
      · rfl
      · rw [hcursor]
        rintro ⟨⟩
        have hnodup := hqueue.nodup
        simp only [List.map_append, List.map_cons, List.nodup_append, List.mem_append, List.mem_cons] at hnodup
        exact hnodup.2.2 _ (.inr (.inl rfl)) _ (.inl rfl) rfl
      · rw [first_eq_none]
        simp

/-- The step lemma: a removal at any place keeps the iteration, unless it strands the cursor. -/
theorem remove (h : s.Follows xs) (hok : ¬ s.StrandsIte (.remove d)) :
    ∃ t, s.step (.remove d) = some t ∧ t.Follows xs := by
  by_cases hp : d ∈ s.walk.passed.map Prod.snd
  · exact h.remove_passed hp
  by_cases hd : d ∈ s.walk.pending.map Prod.snd
  · exact h.remove_pending hp hd hok
  have habsent : d ∉ s.walk.nodes.map Prod.snd := by
    rw [Walk.nodes, List.map_append, List.mem_append, not_or]
    exact ⟨hp, hd⟩
  refine ⟨s, ?_, h⟩
  rw [step, h.queue.remove_absent habsent, Walk.remove_absent habsent]
  rfl

theorem step (h : s.Follows xs) (hok : ¬ s.StrandsIte e) : ∃ t, s.step e = some t ∧ t.Follows xs := by
  cases e with
  | next => exact h.next
  | remove d => exact h.remove hok

/-- The head is gone and the cursor still names it. -/
theorem not_strandsIte (h : s.Follows xs) (hstep : s.step e = some t) (ht : t.Survives xs) : ¬ s.StrandsIte e := by
  cases e with
  | next => exact fun hbad => hbad
  | remove d =>
    rintro ⟨n, hn, hnd, hnext, hite⟩
    cases hnodes : s.walk.nodes with
    | nil =>
      have hqueue := h.queue
      rw [hnodes] at hqueue
      rw [hqueue.head_eq] at hn
      cases hn
    | cons x r =>
      obtain ⟨a, c⟩ := x
      have hqueue := h.queue
      rw [hnodes] at hqueue
      have hcell : n = ⟨first r, c⟩ := by
        rw [hqueue.head_eq] at hn
        exact Option.some.inj (hn.symm.trans hqueue.chain.cell_eq)
      subst hcell
      cases hnd
      rw [IteratedQueue.step, hqueue.remove_head] at hstep
      cases hstep
      -- the queue now holds `r`, and `a` is not among its nodes
      have hrest : (s.walk.remove c).nodes = r := ht.queue.chain.unique (hqueue.pop none).chain
      have hcursor := ht.cursor
      change (if first r = none then none else s.q.ite) = none ∨ ∃ x ∈ (s.walk.remove c).nodes,
        (if first r = none then none else s.q.ite) = some x.1 at hcursor
      rw [if_neg hnext, hite, hqueue.head_eq, hrest, first_cons] at hcursor
      obtain hnone | ⟨y, hy, hya⟩ := hcursor
      · cases hnone
      · cases hya
        exact (List.nodup_cons.1 hqueue.nodup).1 (List.mem_map.2 ⟨y, hy, rfl⟩)

end Follows

/-- The iteration that `fdmi_queue_iterate(q, FDMI_QUEUE_HEAD)` begins on a queue with the nodes `x :: xs`. -/
def begin (m : QueueHeap A D) (q : HeapQueue A) (x : A × Option D) (xs : List (A × Option D)) : IteratedQueue A D :=
  ⟨m, { q with ite := first xs }, [], .start x xs⟩

variable {m : QueueHeap A D} {q : HeapQueue A} {x : A × Option D} {xs : List (A × Option D)}

omit [DecidableEq A] [DecidableEq D] in
theorem Follows.begin (h : HeapQueue.Represents m q (x :: xs)) : (begin m q x xs).Follows xs :=
  ⟨h.with_ite _, rfl, ⟨0, rfl, fun h => absurd h (Nat.lt_irrefl 0)⟩, .start x xs⟩

/-- Removals leave an iteration as it should be exactly as long as none strands the cursor on the head. -/
theorem iteration_survives_iff (h : HeapQueue.Represents m q (x :: xs)) (es : List (IterationCall D)) :
    HeapQueue.iterate m q .head = some (x.2, (begin m q x xs).q) ∧
      (Runs step (Survives xs) (begin m q x xs) es ↔ Meets step (fun s e => ¬ s.StrandsIte e) (begin m q x xs) es) := by
  refine ⟨h.iterate_head_cons, ?_⟩
  have hfresh : Meets step (fun _ _ => True) (begin m q x xs) es := Meets.of_forall (fun _ _ => trivial) _ es
  exact Runs.iff_meets (fun s hs => hs.survives) (fun s e hs _ hok => hs.step hok)
    (fun s e t hs _ hstep ht => hs.not_strandsIte hstep ht) (Follows.begin h) hfresh

/-- Three nodes at the addresses 16, 32 and 48. -/
def threeNodes : QueueHeap Nat Nat :=
  ⟨fun a => if a = 16 then some ⟨some 32, some 1⟩ else if a = 32 then some ⟨some 48, some 2⟩
    else if a = 48 then some ⟨none, some 3⟩ else none, 3⟩

def threeQueue : HeapQueue Nat := ⟨some 16, some 48, none, 3⟩

theorem threeQueue_represents : HeapQueue.Represents threeNodes threeQueue [(16, some 1), (32, some 2), (48, some 3)] :=
  ⟨⟨rfl, some 32, rfl, rfl, some 48, rfl, rfl, none, rfl, rfl⟩, rfl, rfl, Nat.le_refl 3⟩

/-- The head is removed twice behind the element that was handed out: `ite` dangles, and the next call follows it. -/
theorem cursor_dangles :
    HeapQueue.Represents threeNodes threeQueue [(16, some 1), (32, some 2), (48, some 3)] ∧
      HeapQueue.iterate threeNodes threeQueue .head =
        some (some 1, (begin threeNodes threeQueue (16, some 1) [(32, some 2), (48, some 3)]).q) ∧
      ¬ Runs step (Survives [(32, some 2), (48, some 3)])
        (begin threeNodes threeQueue (16, some 1) [(32, some 2), (48, some 3)])
        [.remove (some 1), .remove (some 2), .next] := by
  refine ⟨threeQueue_represents, rfl, fun h => ?_⟩
  obtain ⟨t, ht, -⟩ := h.foldlM
  have hstuck : [.remove (some 1), .remove (some 2), .next].foldlM step
      (begin threeNodes threeQueue (16, some 1) [(32, some 2), (48, some 3)]) = none := rfl
  exact Option.some_ne_none t (ht.symm.trans hstuck)

/-- Removals of the current element, of one that was passed and of one to come, in the middle and at the end. -/
theorem iteration_survives_three :
    Runs step (Survives [(32, some 2), (48, some 3)]) (begin threeNodes threeQueue (16, some 1) [(32, some 2), (48, some 3)])
      [.next, .remove (some 2), .remove (some 1), .next, .remove (some 3), .next] :=
  (iteration_survives_iff threeQueue_represents _).2.2 (by decide)

end IteratedQueue

end Libibtl
