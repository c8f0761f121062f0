import Libibtl.QueueContents
import Libibtl.StepInversion

/-! # Flushing the linked queues

`fdmi_flush_query_qp` deletes the element that it stands on while the cursor of
the loop is in the same queue. What it deletes goes to `free_query_q`, in a block
that may be the one just freed.
-/

namespace Libibtl

open Foundation

universe u

/-- The memory of the queue nodes with `free_query_q` and `counter`. -/
structure QueryPool (A D : Type u) where
  mem : QueueHeap A D
  freeQueryQ : HeapQueue A
  counter : Int

namespace QueryPool

variable {A D : Type u} [DecidableEq A] [DecidableEq D]

def destroyQuery (alloc : Allocator A (Cell A (Option D))) (s : QueryPool A D) (query : D) : Option (QueryPool A D) := do
  let (mem, freeQueryQ) ← HeapQueue.enq s.mem s.freeQueryQ (alloc.malloc s.mem) (some query)
  some ⟨mem, freeQueryQ, s.counter - 1⟩

/-- The loop over one queue, from the test of `query` on; `op` reads `query->msg->op`. -/
def flushLoop (alloc : Allocator A (Cell A (Option D))) (op : D → CInt) :
    Nat → QueryPool A D → HeapQueue A → Option D → Option (QueryPool A D × HeapQueue A)
  | _, s, q, none => some (s, q)
  | 0, _, _, some _ => none
  | fuel + 1, s, q, some query => do
    let (s, q) ← if op query &&& fdmiPresv = 0 then do
        let (mem, q) ← HeapQueue.remove s.mem q (some query)
        let s ← destroyQuery alloc { s with mem } query
        some (s, q)
      else some (s, q)
    let (next, q) ← HeapQueue.iterate s.mem q .next
    flushLoop alloc op fuel s q next

def flushQueue (alloc : Allocator A (Cell A (Option D))) (op : D → CInt) (s : QueryPool A D) (q : HeapQueue A) :
    Option (QueryPool A D × HeapQueue A) := do
  let (query, q) ← HeapQueue.iterate s.mem q .head
  flushLoop alloc op s.mem.mallocs s q query

/-- The pool and the queues `aq` and `pq` afterwards. -/
def flushQueryQp (alloc : Allocator A (Cell A (Option D))) (op : D → CInt) (s : QueryPool A D) (aq pq : HeapQueue A) :
    Option (QueryPool A D × HeapQueue A × HeapQueue A) := do
  let (s, aq) ← flushQueue alloc op s aq
  let (s, pq) ← flushQueue alloc op s pq
  some (s, aq, pq)

/-- A queue `q` with the nodes `xs` beside the pool with the nodes `zs`. The blocks in `other` belong to someone else. -/
structure Shares (s : QueryPool A D) (q : HeapQueue A) (xs zs : List (A × Option D)) (other : A → Prop) : Prop where
  queue : HeapQueue.Represents s.mem q xs
  free : HeapQueue.Represents s.mem s.freeQueryQ zs
  disjoint : ∀ a ∈ xs.map Prod.fst, a ∉ zs.map Prod.fst
  other : ∀ a, other a → s.mem.cell a ≠ none ∧ a ∉ xs.map Prod.fst ∧ a ∉ zs.map Prod.fst

/-- What flushing a queue with `queries` comes to, when `data` stands before them and `pool` in `free_query_q`. -/
def Flushed (op : D → CInt) (s s' : QueryPool A D) (q' : HeapQueue A) (data pool : List (Option D)) (queries : List D)
    (other : A → Prop) : Prop :=
  ∃ xs zs, s'.Shares q' xs zs other ∧ xs.map Prod.snd = data ++ (queries.filter (op · &&& fdmiPresv ≠ 0)).map some ∧
    zs.map Prod.snd = pool ++ (queries.filter (op · &&& fdmiPresv = 0)).map some ∧
    s'.counter = s.counter - (queries.filter (op · &&& fdmiPresv = 0)).length ∧ s.mem.mallocs ≤ s'.mem.mallocs ∧
    ∀ a, other a → s'.mem.cell a = s.mem.cell a

namespace Flushed

variable {op : D → CInt} {s t s' : QueryPool A D} {q' : HeapQueue A} {data pool : List (Option D)} {queries : List D}
  {other : A → Prop} {d : D}

omit [DecidableEq A] [DecidableEq D] in
theorem keep (hop : op d &&& fdmiPresv ≠ 0) (h : Flushed op s s' q' (data ++ [some d]) pool queries other) :
    Flushed op s s' q' data pool (d :: queries) other := by
  obtain ⟨xs, zs, hs, hxs, hzs, hcounter, hmem⟩ := h
  refine ⟨xs, zs, hs, ?_, ?_, ?_, hmem⟩
  · rw [hxs, List.filter_cons_of_pos (by simpa using hop), List.append_assoc]
    rfl
  · rw [hzs, List.filter_cons_of_neg (by simpa using hop)]
  · rw [hcounter, List.filter_cons_of_neg (by simpa using hop)]

omit [DecidableEq A] [DecidableEq D] in
theorem drop (hop : op d &&& fdmiPresv = 0) (ht : t.counter = s.counter - 1) (hmallocs : s.mem.mallocs ≤ t.mem.mallocs)
    (hst : ∀ a, other a → t.mem.cell a = s.mem.cell a) (h : Flushed op t s' q' data (pool ++ [some d]) queries other) :
    Flushed op s s' q' data pool (d :: queries) other := by
  obtain ⟨xs, zs, hs, hxs, hzs, hcounter, hle, hframe⟩ := h
  refine ⟨xs, zs, hs, ?_, ?_, ?_, hmallocs.trans hle, fun a ha => (hframe a ha).trans (hst a ha)⟩
  · rw [hxs, List.filter_cons_of_neg (by simpa using hop)]
  · rw [hzs, List.filter_cons_of_pos (by simpa using hop), List.append_assoc]
    rfl
  · rw [hcounter, ht, List.filter_cons_of_pos (by simpa using hop), List.length_cons]
    push_cast
    omega

end Flushed

namespace Shares

variable (alloc : Allocator A (Cell A (Option D))) (op : D → CInt) {s : QueryPool A D} {q : HeapQueue A}
  {kept rest xs ys zs : List (A × Option D)} {other : A → Prop} {a : A} {d : D}

/-- The node that the loop stands on moves to the pool, and the cursor is where it was. -/
theorem discard (h : s.Shares q (kept ++ (a, some d) :: rest) zs other) (hite : q.ite = first rest)
    (hd : some d ∉ kept.map Prod.snd) :
    ∃ mem q' s' b, HeapQueue.remove s.mem q (some d) = some (mem, q') ∧
      destroyQuery alloc { s with mem } d = some s' ∧ s'.Shares q' (kept ++ rest) (zs ++ [(b, some d)]) other ∧
      q'.ite = first rest ∧ s'.counter = s.counter - 1 ∧ s.mem.mallocs ≤ s'.mem.mallocs ∧
      ∀ a, other a → s'.mem.cell a = s.mem.cell a := by
  obtain ⟨mem, q', hremove, hq, hite', hfree, hmallocs, hframe⟩ := h.queue.remove_at hd
  have hne : q.ite ≠ some a := by
    have hnodup := List.nodup_cons.1 h.queue.chain.suffix.nodup
    rw [hite]
    intro hfirst
    cases rest with
    | nil => cases hfirst
    | cons x rest =>
      cases hfirst
      exact hnodup.1 List.mem_cons_self
  have hzs : ∀ b ∈ zs.map Prod.fst, mem.cell b = s.mem.cell b := fun b hb => hframe b fun hm => h.disjoint b hm hb
  have hpool := h.free.frame hzs hmallocs.ge
  -- the block of the removed node is free, so the allocator finds one
  have hfresh := alloc.fresh mem ⟨a, hfree⟩
  obtain ⟨mem', f', henq, hf, -, hmallocs', hframe'⟩ := hpool.push hfresh (d := some d)
  have hold : ∀ b ∈ (kept ++ rest).map Prod.fst, b ∈ (kept ++ (a, some d) :: rest).map Prod.fst :=
    fun b hb => (((List.sublist_cons_self _ _).append_left kept).map Prod.fst).subset hb
  have hqueue : ∀ b ∈ (kept ++ rest).map Prod.fst, b ∉ zs.map Prod.fst ∧ b ≠ alloc.malloc mem := by
    refine fun b hb => ⟨h.disjoint b (hold b hb), ?_⟩
    rintro rfl
    exact hq.chain.allocated hb hfresh
  have hothers : ∀ b, other b → mem.cell b = s.mem.cell b ∧ b ∉ zs.map Prod.fst ∧ b ≠ alloc.malloc mem := by
    intro b hb
    have hcell := hframe b (h.other b hb).2.1
    refine ⟨hcell, (h.other b hb).2.2, ?_⟩
    rintro rfl
    exact (h.other _ hb).1 (hcell ▸ hfresh)
  refine ⟨mem, q', ⟨mem', f', s.counter - 1⟩, alloc.malloc mem, hremove, ?_, ⟨?_, hf, ?_, ?_⟩, ?_, rfl, ?_, ?_⟩
  · rw [destroyQuery, henq]
    rfl
  · exact hq.frame (fun b hb => hframe' b (hqueue b hb).1 (hqueue b hb).2) (hmallocs' ▸ Nat.le_succ _)
  · intro b hb
    rw [List.map_append, List.mem_append, not_or]
    exact ⟨(hqueue b hb).1, fun hm => (hqueue b hb).2 (List.mem_singleton.1 hm)⟩
  · intro b hb
    obtain ⟨hcell, hbzs, hbfresh⟩ := hothers b hb
    refine ⟨?_, fun hm => (h.other b hb).2.1 (hold b hm), ?_⟩
    · rw [hframe' b hbzs hbfresh, hcell]
      exact (h.other b hb).1
    · rw [List.map_append, List.mem_append, not_or]
      exact ⟨hbzs, fun hm => hbfresh (List.mem_singleton.1 hm)⟩
  · rw [hite', if_neg hne, hite]
    split
    · split
      · rename_i hempty
        exact hempty.symm
      · rfl
    · rfl
  · change s.mem.mallocs ≤ mem'.mallocs
    rw [hmallocs', hmallocs]
    exact Nat.le_succ _
  · intro b hb
    obtain ⟨hcell, hbzs, hbfresh⟩ := hothers b hb
    exact (hframe' b hbzs hbfresh).trans hcell

omit [DecidableEq A] [DecidableEq D] in
theorem with_ite (h : s.Shares q xs zs other) (ite : Option A) : s.Shares { q with ite := ite } xs zs other :=
  ⟨h.queue.with_ite ite, h.free, h.disjoint, h.other⟩

/-- The loop from a call of `FDMI_QUEUE_NEXT` on: `kept` stands before the cursor and `rest` from it on. -/
theorem flushNext_eq {fuel : Nat} {queries : List D} (h : s.Shares q (kept ++ rest) zs other) (hite : q.ite = first rest)
    (hkept : ∀ d, some d ∈ kept.map Prod.snd → op d &&& fdmiPresv ≠ 0) (hrest : rest.map Prod.snd = queries.map some)
    (hfuel : rest.length ≤ fuel) :
    ∃ s' q', ((HeapQueue.iterate s.mem q .next).bind fun r => flushLoop alloc op fuel s r.2 r.1) = some (s', q') ∧
      Flushed op s s' q' (kept.map Prod.snd) (zs.map Prod.snd) queries other := by
  induction rest generalizing fuel s q kept zs queries with
  | nil =>
    obtain rfl : queries = [] := by simpa using hrest.symm
    rw [List.append_nil] at h
    refine ⟨s, q, ?_, kept, zs, h, by simp, by simp, by simp, Nat.le_refl _, fun _ _ => rfl⟩
    rw [HeapQueue.Represents.iterate_next_nil hite, Option.bind_some]
    rw [flushLoop]
  | cons x rest ih =>
    obtain ⟨a, c⟩ := x
    cases queries with
    | nil => cases hrest
    | cons d queries =>
      rw [List.map_cons, List.map_cons, List.cons.injEq] at hrest
      obtain ⟨rfl, hrest⟩ : c = some d ∧ rest.map Prod.snd = queries.map some := hrest
      cases fuel with
      | zero => exact absurd hfuel (Nat.not_succ_le_zero _)
      | succ fuel =>
        have hfuel' := Nat.le_of_succ_le_succ hfuel
        rw [h.queue.iterate_next_cons hite, Option.bind_some, flushLoop]
        have h' := h.with_ite (first rest)
        by_cases hop : op d &&& fdmiPresv = 0
        · have hnot : some d ∉ kept.map Prod.snd := fun hm => hkept d hm hop
          obtain ⟨mem, q', s', b, hremove, hdestroy, hs', hite', hcounter, hmallocs, hframe⟩ :=
            h'.discard alloc rfl hnot
          obtain ⟨t, q'', hloop, hflushed⟩ := ih hs' hite' hkept hrest hfuel'
          refine ⟨t, q'', ?_, .drop hop hcounter hmallocs hframe ?_⟩
          · simp only [if_pos hop, hremove, hdestroy, Option.bind_eq_bind, Option.bind_some]
            exact hloop
          · rw [List.map_append] at hflushed
            exact hflushed
        · rw [List.append_cons] at h'
          have hkept' : ∀ e, some e ∈ (kept ++ [(a, some d)]).map Prod.snd → op e &&& fdmiPresv ≠ 0 := by
            intro e he
            rw [List.map_append, List.mem_append] at he
            obtain he | he := he
            · exact hkept e he
            · cases List.mem_singleton.1 he
              exact hop
          obtain ⟨t, q'', hloop, hflushed⟩ := ih h' rfl hkept' hrest hfuel'
          refine ⟨t, q'', ?_, .keep hop ?_⟩
          · simp only [if_neg hop, Option.bind_eq_bind, Option.bind_some]
            exact hloop
          · rw [List.map_append] at hflushed
            exact hflushed

/-- One queue is flushed, whatever its contents. -/
theorem flushQueue_eq {queries : List D} (h : s.Shares q xs zs other) (hxs : xs.map Prod.snd = queries.map some) :
    ∃ s' q', flushQueue alloc op s q = some (s', q') ∧ Flushed op s s' q' [] (zs.map Prod.snd) queries other := by
  cases xs with
  | nil =>
    obtain rfl : queries = [] := by simpa using hxs.symm
    refine ⟨s, q, ?_, [], zs, h, by simp, by simp, by simp, Nat.le_refl _, fun _ _ => rfl⟩
    rw [flushQueue, h.queue.iterate_head_nil]
    simp only [Option.bind_eq_bind, Option.bind_some]
    rw [flushLoop]
  | cons x xs =>
    -- the first call behaves as `FDMI_QUEUE_NEXT` with the cursor on the head
    have hstart : s.Shares { q with ite := some x.1 } ([] ++ x :: xs) zs other := h.with_ite _
    obtain ⟨s', q', hloop, hflushed⟩ := hstart.flushNext_eq alloc op rfl (fun d hd => absurd hd List.not_mem_nil) hxs
      h.queue.bound
    refine ⟨s', q', ?_, hflushed⟩
    rw [hstart.queue.iterate_next_cons rfl] at hloop
    rw [flushQueue, h.queue.iterate_head_cons]
    exact hloop

end Shares

variable {xs ys zs : List (A × Option D)}

omit [DecidableEq A] [DecidableEq D] in
theorem disjoint_of_nodup (h : ((xs ++ ys).map Prod.fst).Nodup) {a : A} (ha : a ∈ xs.map Prod.fst) : a ∉ ys.map Prod.fst := by
  rw [List.map_append, List.nodup_append] at h
  exact fun hm => h.2.2 a ha a hm rfl

theorem flushQueryQp_eq (alloc : Allocator A (Cell A (Option D))) (op : D → CInt) {s : QueryPool A D}
    {aq pq : HeapQueue A} {arrived posted : List D} (haq : HeapQueue.Represents s.mem aq xs)
    (hpq : HeapQueue.Represents s.mem pq ys) (hfree : HeapQueue.Represents s.mem s.freeQueryQ zs)
    (hnodup : ((xs ++ (ys ++ zs)).map Prod.fst).Nodup) (hxs : xs.map Prod.snd = arrived.map some)
    (hys : ys.map Prod.snd = posted.map some) :
    ∃ s' aq' pq' xs' ys' zs', flushQueryQp alloc op s aq pq = some (s', aq', pq') ∧
      HeapQueue.Represents s'.mem aq' xs' ∧ HeapQueue.Represents s'.mem pq' ys' ∧
      HeapQueue.Represents s'.mem s'.freeQueryQ zs' ∧ ((xs' ++ (ys' ++ zs')).map Prod.fst).Nodup ∧
      xs'.map Prod.snd = (arrived.filter (op · &&& fdmiPresv ≠ 0)).map some ∧
      ys'.map Prod.snd = (posted.filter (op · &&& fdmiPresv ≠ 0)).map some ∧
      zs'.map Prod.snd = zs.map Prod.snd ++
        (arrived.filter (op · &&& fdmiPresv = 0) ++ posted.filter (op · &&& fdmiPresv = 0)).map some ∧
      s'.counter = s.counter - (arrived.filter (op · &&& fdmiPresv = 0)).length -
        (posted.filter (op · &&& fdmiPresv = 0)).length := by
  have hyzs : ((ys ++ zs).map Prod.fst).Nodup := by
    rw [List.map_append, List.nodup_append] at hnodup
    exact hnodup.2.1
  have hxyzs : ∀ a ∈ xs.map Prod.fst, a ∉ ys.map Prod.fst ∧ a ∉ zs.map Prod.fst := by
    intro a ha
    have hnot := disjoint_of_nodup hnodup ha
    rw [List.map_append, List.mem_append, not_or] at hnot
    exact hnot
  have hfirst : s.Shares aq xs zs (· ∈ ys.map Prod.fst) :=
    ⟨haq, hfree, fun a ha => (hxyzs a ha).2,
      fun a ha => ⟨hpq.chain.allocated ha, fun hm => (hxyzs a hm).1 ha, disjoint_of_nodup hyzs ha⟩⟩
  obtain ⟨s₁, aq', hflush, xs', zs₁, hs₁, hxs', hzs₁, hcounter, hmallocs, hframe⟩ := hfirst.flushQueue_eq alloc op hxs
  have hsecond : s₁.Shares pq ys zs₁ (· ∈ xs'.map Prod.fst) :=
    ⟨hpq.frame hframe hmallocs, hs₁.free, fun a ha => (hs₁.other a ha).2.2,
      fun a ha => ⟨hs₁.queue.chain.allocated ha, fun hm => (hs₁.other a hm).2.1 ha, hs₁.disjoint a ha⟩⟩
  obtain ⟨s₂, pq', hflush', ys', zs', hs₂, hys', hzs', hcounter', hmallocs', hframe'⟩ :=
    hsecond.flushQueue_eq alloc op hys
  refine ⟨s₂, aq', pq', xs', ys', zs', ?_, hs₁.queue.frame hframe' hmallocs', hs₂.queue, hs₂.free, ?_, hxs', hys', ?_, ?_⟩
  · simp only [flushQueryQp, hflush, hflush', Option.bind_eq_bind, Option.bind_some]
  · rw [List.map_append, List.nodup_append]
    refine ⟨hs₁.queue.nodup, ?_, ?_⟩
    · rw [List.map_append, List.nodup_append]
      refine ⟨hs₂.queue.nodup, hs₂.free.nodup, ?_⟩
      rintro a ha b hb rfl
      exact hs₂.disjoint a ha hb
    · rintro a ha b hb rfl
      rw [List.map_append, List.mem_append] at hb
      obtain hb | hb := hb
      · exact (hs₂.other a ha).2.1 hb
      · exact (hs₂.other a ha).2.2 hb
  · rw [hzs', hzs₁, List.map_append, List.append_assoc]
  · rw [hcounter', hcounter]

/-- A flush leaves in `aq` and `pq` the queries with `FDMI_PRESV`, in their order, and appends the others to
`free_query_q`. -/
theorem flush_keeps_preserved (alloc : Allocator A (Cell A (Option D))) (op : D → CInt) {s : QueryPool A D}
    {aq pq : HeapQueue A} {arrived posted : List D} (haq : HeapQueue.Represents s.mem aq xs)
    (hpq : HeapQueue.Represents s.mem pq ys) (hfree : HeapQueue.Represents s.mem s.freeQueryQ zs)
    (hnodup : ((xs ++ (ys ++ zs)).map Prod.fst).Nodup) (hxs : xs.map Prod.snd = arrived.map some)
    (hys : ys.map Prod.snd = posted.map some) :
    ∃ s' aq' pq' xs' ys' zs', flushQueryQp alloc op s aq pq = some (s', aq', pq') ∧
      HeapQueue.WellFormed s'.mem aq' xs' ∧ HeapQueue.WellFormed s'.mem pq' ys' ∧
      HeapQueue.WellFormed s'.mem s'.freeQueryQ zs' ∧ ((xs' ++ (ys' ++ zs')).map Prod.fst).Nodup ∧
      xs'.map Prod.snd = (arrived.filter (op · &&& fdmiPresv ≠ 0)).map some ∧
      ys'.map Prod.snd = (posted.filter (op · &&& fdmiPresv ≠ 0)).map some ∧
      zs'.map Prod.snd = zs.map Prod.snd ++
        (arrived.filter (op · &&& fdmiPresv = 0) ++ posted.filter (op · &&& fdmiPresv = 0)).map some := by
  obtain ⟨s', aq', pq', xs', ys', zs', hflush, haq', hpq', hfree', hnodup', hxs', hys', hzs', -⟩ :=
    flushQueryQp_eq alloc op haq hpq hfree hnodup hxs hys
  exact ⟨s', aq', pq', xs', ys', zs', hflush, haq'.wellFormed, hpq'.wellFormed, hfree'.wellFormed, hnodup', hxs', hys', hzs'⟩

/-- The first block of eight that is free. -/
def firstFree : Allocator (Fin 8) (Cell (Fin 8) (Option Nat)) where
  malloc h := ((List.finRange 8).find? fun a => (h.cell a).isNone).getD 0
  fresh h := by
    rintro ⟨a, ha⟩
    cases hfind : (List.finRange 8).find? fun a => (h.cell a).isNone with
    | none => exact absurd (List.find?_eq_none.1 hfind a (List.mem_finRange a)) (by simp [ha])
    | some b =>
      have hnone : (h.cell b).isNone = true := List.find?_some (p := fun a => (h.cell a).isNone) hfind
      exact Option.isNone_iff_eq_none.1 hnone

/-- Three arrived queries, of which the second is preserved, two posted ones and a pool with one query. -/
def fullPool : QueryPool (Fin 8) Nat where
  mem := ⟨fun a => [some ⟨some 1, some 1⟩, some ⟨some 2, some 12⟩, some ⟨none, some 3⟩, some ⟨some 4, some 14⟩,
    some ⟨none, some 5⟩, some ⟨none, some 6⟩].getD a none, 6⟩
  freeQueryQ := ⟨some 5, some 5, none, 1⟩
  counter := 5

theorem flush_fullPool :
    ∃ s' aq' pq' zs', flushQueryQp firstFree (fun q => if q < 10 then 0 else fdmiPresv) fullPool ⟨some 0, some 2, none, 3⟩
        ⟨some 3, some 4, none, 2⟩ = some (s', aq', pq') ∧
      HeapQueue.WellFormed s'.mem s'.freeQueryQ zs' ∧ zs'.map Prod.snd = [some 6, some 1, some 3, some 5] := by
  have haq : HeapQueue.Represents fullPool.mem ⟨some 0, some 2, none, 3⟩ [(0, some 1), (1, some 12), (2, some 3)] :=
    ⟨⟨rfl, some 1, rfl, rfl, some 2, rfl, rfl, none, rfl, rfl⟩, rfl, rfl, by decide⟩
  have hpq : HeapQueue.Represents fullPool.mem ⟨some 3, some 4, none, 2⟩ [(3, some 14), (4, some 5)] :=
    ⟨⟨rfl, some 4, rfl, rfl, none, rfl, rfl⟩, rfl, rfl, by decide⟩
  have hfree : HeapQueue.Represents fullPool.mem fullPool.freeQueryQ [(5, some 6)] :=
    ⟨⟨rfl, none, rfl, rfl⟩, rfl, rfl, by decide⟩
  have harrived : List.map Prod.snd [((0 : Fin 8), some 1), (1, some 12), (2, some 3)] = [1, 12, 3].map some := rfl
  have hposted : List.map Prod.snd [((3 : Fin 8), some 14), (4, some 5)] = [14, 5].map some := rfl
  obtain ⟨s', aq', pq', xs', ys', zs', hflush, -, -, hfree', -, -, -, hzs'⟩ :=
    flush_keeps_preserved firstFree (fun q => if q < 10 then 0 else fdmiPresv) haq hpq hfree (by decide) harrived hposted
  exact ⟨s', aq', pq', zs', hflush, hfree', hzs'⟩

/-- The linked queues are flushed as their lists are, so the step `.flush` of a process stands for this code. -/
theorem flush_refines {σ : Proc} (ho : σ.Owned []) {A : Type} [DecidableEq A]
    (alloc : Allocator A (Cell A (Option QueryId))) {s : QueryPool A QueryId} {aq pq : HeapQueue A}
    {xs ys zs : List (A × Option QueryId)} (haq : HeapQueue.Represents s.mem aq xs)
    (hpq : HeapQueue.Represents s.mem pq ys) (hfree : HeapQueue.Represents s.mem s.freeQueryQ zs)
    (hnodup : ((xs ++ (ys ++ zs)).map Prod.fst).Nodup) (hxs : xs.map Prod.snd = σ.aq.map some)
    (hys : ys.map Prod.snd = σ.pq.map some) (hzs : zs.map Prod.snd = σ.freeQueryQ.map some)
    (hcounter : s.counter = σ.counter) :
    ∃ s' aq' pq' xs' ys' zs',
      flushQueryQp alloc (fun q => (σ.queries q).msg.op) s aq pq = some (s', aq', pq') ∧
      HeapQueue.Represents s'.mem aq' xs' ∧ HeapQueue.Represents s'.mem pq' ys' ∧
      HeapQueue.Represents s'.mem s'.freeQueryQ zs' ∧ ((xs' ++ (ys' ++ zs')).map Prod.fst).Nodup ∧
      xs'.map Prod.snd = σ.flushQueryQp.aq.map some ∧ ys'.map Prod.snd = σ.flushQueryQp.pq.map some ∧
      zs'.map Prod.snd = σ.flushQueryQp.freeQueryQ.map some ∧ s'.counter = σ.flushQueryQp.counter := by
  obtain ⟨s', aq', pq', xs', ys', zs', hflush, haq', hpq', hfree', hnodup', hxs', hys', hzs', hcounter'⟩ :=
    flushQueryQp_eq alloc (fun q => (σ.queries q).msg.op) haq hpq hfree hnodup hxs hys
  have hkeep : (fun q => decide ((σ.queries q).msg.op &&& fdmiPresv ≠ 0)) = (!σ.flushable ·) := by
    funext q
    simp [Proc.flushable]
  refine ⟨s', aq', pq', xs', ys', zs', hflush, haq', hpq', hfree', hnodup', ?_, ?_, ?_, ?_⟩
  · rw [hxs', hkeep, Proc.flushQueryQp_eq ho, Proc.flushed_aq]
  · rw [hys', hkeep, Proc.flushQueryQp_eq ho, Proc.flushed_pq]
  · rw [hzs', hzs, Proc.flushQueryQp_eq ho, Proc.flushed_freeQueryQ, List.append_assoc, ← List.map_append]
    rfl
  · rw [hcounter', hcounter, Proc.flushQueryQp_eq ho, Proc.flushed_counter]
    rfl

end QueryPool

end Libibtl
