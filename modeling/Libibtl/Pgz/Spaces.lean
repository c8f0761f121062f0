import Libibtl.Datatype
import Libibtl.Foundation.References

/-! # Pools of buffers

The threads pass buffers around, each with a use count. When the count drops to zero
the buffer returns to its pool. A pool can be limited, and then a thread waits for a
buffer when all of them are in use.
-/

namespace Libibtl.Pgz

open Foundation

inductive PoolName
  | inPool
  | outPool
  | dictPool
  | lensPool
  deriving DecidableEq

/-- The `index`-th buffer that was made for a pool. -/
structure Space where
  pool : PoolName
  index : Nat
  deriving DecidableEq

/-- `avail` is the value of the lock `have`, and `limit` is `none` where the source has -1. -/
structure Pool where
  avail : Nat
  head : List Nat
  limit : Option Nat
  made : Nat

/-- The pools, and the use count and the first `len` bytes of every buffer. -/
structure Spaces where
  pool : PoolName → Pool
  use : Space → Nat
  buf : Space → List Byte

/-- What becomes of a step that takes locks: it is made, it waits, or an assertion fails. -/
inductive Outcome (α : Type)
  | done (a : α)
  | wait
  | abort

def newPool (limit : Option Nat) : Pool := ⟨0, [], limit, 0⟩

def Spaces.setBuf (h : Spaces) (s : Space) (bs : List Byte) : Spaces := { h with buf := Function.update h.buf s bs }

@[simp] theorem Spaces.setBuf_self (h : Spaces) (s : Space) (bs : List Byte) : (h.setBuf s bs).buf s = bs :=
  Function.update_self ..

theorem Spaces.setBuf_of_ne {h : Spaces} {s t : Space} {bs : List Byte} (hne : t ≠ s) : (h.setBuf s bs).buf t = h.buf t :=
  Function.update_of_ne hne ..

/-- The buffer is in use once, with nothing in it. -/
def Spaces.take (h : Spaces) (s : Space) (p : Pool) : Spaces where
  pool := Function.update h.pool s.pool p
  use := Function.update h.use s 1
  buf := Function.update h.buf s []

def getSpace (h : Spaces) (p : PoolName) : Outcome (Space × Spaces) :=
  let q := h.pool p
  if q.limit = some 0 ∧ q.avail = 0 then .wait
  else
    match q.head with
    | i :: rest => .done (⟨p, i⟩, h.take ⟨p, i⟩ { q with head := rest, avail := q.avail - 1 })
    | [] =>
      if q.limit = some 0 then .abort
      else .done (⟨p, q.made⟩, h.take ⟨p, q.made⟩ { q with limit := q.limit.map (· - 1), made := q.made + 1 })

def useSpace (h : Spaces) (s : Space) : Spaces := { h with use := Function.update h.use s (h.use s + 1) }

def dropSpace (h : Spaces) (s : Space) : Outcome Spaces :=
  if h.use s = 0 then .abort
  else
    let q := h.pool s.pool
    let back : Pool := if h.use s = 1 then { q with head := s.index :: q.head, avail := q.avail + 1 } else q
    .done { h with pool := Function.update h.pool s.pool back, use := Function.update h.use s (h.use s - 1) }

/-- The number of buffers that `free_pool` counts. It fails unless these are all that were made. -/
def freePool (h : Spaces) (p : PoolName) : Option Nat :=
  if (h.pool p).head.length = (h.pool p).made then some (h.pool p).made else none

/-! ## What the pools hold -/

/-- What is in the list of a pool is what is not in use. -/
structure PoolOk (use : Nat → Nat) (lim : Option Nat) (q : Pool) : Prop where
  avail : q.avail = q.head.length
  nodup : q.head.Nodup
  free : ∀ i, i ∈ q.head ↔ i < q.made ∧ use i = 0
  made : ∀ i, use i ≠ 0 → i < q.made
  limit : q.limit = lim.map (· - q.made)
  bound : ∀ n, lim = some n → q.made ≤ n

/-- The pools of `limit` with the references `refs` to their buffers. -/
structure Owned (limit : PoolName → Option Nat) (h : Spaces) (refs : List Space) : Prop where
  counted : Counted h.use refs
  pool : ∀ p, PoolOk (fun i => h.use ⟨p, i⟩) (limit p) (h.pool p)

section Pools

variable {limit : PoolName → Option Nat} {h h' : Spaces} {refs refs' : List Space} {s : Space} {p : PoolName}

theorem update_index_of_ne {use : Space → Nat} {n : Nat} (hne : p ≠ s.pool) :
    (fun i => Function.update use s n ⟨p, i⟩) = fun i => use ⟨p, i⟩ := by
  funext i
  exact Function.update_of_ne (fun hs => hne (congrArg Space.pool hs)) _ _

theorem update_index {use : Space → Nat} {n : Nat} :
    (fun i => Function.update use s n ⟨s.pool, i⟩) = Function.update (fun i => use ⟨s.pool, i⟩) s.index n := by
  funext i
  by_cases hi : i = s.index
  · rw [hi]
    calc Function.update use s n ⟨s.pool, s.index⟩
      _ = n := Function.update_self s n use
      _ = Function.update (fun i => use ⟨s.pool, i⟩) s.index n s.index := by rw [Function.update_self]
  · rw [Function.update_of_ne hi, Function.update_of_ne]
    exact fun hs => hi (congrArg Space.index hs)

namespace PoolOk

variable {use : Nat → Nat} {lim : Option Nat} {q : Pool} {i : Nat} {rest : List Nat}

theorem new (lim : Option Nat) : PoolOk (fun _ => 0) lim (newPool lim) where
  avail := rfl
  nodup := List.nodup_nil
  free i := ⟨fun h => absurd h List.not_mem_nil, fun h => absurd h.1 (Nat.not_lt_zero i)⟩
  made i h := absurd rfl h
  limit := by
    cases lim <;> rfl
  bound n _ := Nat.zero_le n

theorem pull (h : PoolOk use lim q) (hhead : q.head = i :: rest) :
    PoolOk (Function.update use i 1) lim { q with head := rest, avail := q.avail - 1 } := by
  have hnodup := h.nodup
  have hfree := h.free
  rw [hhead] at hnodup hfree
  obtain ⟨hnot, hrest⟩ := List.nodup_cons.1 hnodup
  constructor
  · rw [h.avail, hhead]
    rfl
  · exact hrest
  · intro j
    by_cases hj : j = i
    · subst hj
      rw [Function.update_self]
      exact ⟨fun hmem => absurd hmem hnot, fun hmem => absurd hmem.2 Nat.one_ne_zero⟩
    · rw [Function.update_of_ne hj, ← hfree j, List.mem_cons, or_iff_right hj]
  · intro j hj
    by_cases hji : j = i
    · exact hji ▸ ((hfree i).1 List.mem_cons_self).1
    · rw [Function.update_of_ne hji] at hj
      exact h.made j hj
  · exact h.limit
  · exact h.bound

theorem make (h : PoolOk use lim q) (hhead : q.head = []) (hlim : q.limit ≠ some 0) :
    PoolOk (Function.update use q.made 1) lim { q with limit := q.limit.map (· - 1), made := q.made + 1 } := by
  have hfree := h.free
  rw [hhead] at hfree
  constructor
  · exact h.avail
  · exact h.nodup
  · intro j
    rw [hhead]
    constructor
    · exact fun hmem => absurd hmem List.not_mem_nil
    · rintro ⟨hlt, hzero⟩
      by_cases hj : j = q.made
      · rw [hj, Function.update_self] at hzero
        cases hzero
      · rw [Function.update_of_ne hj] at hzero
        dsimp only at hlt
        exact (hfree j).2 ⟨by omega, hzero⟩
  · intro j hj
    by_cases hji : j = q.made
    · dsimp only
      omega
    · rw [Function.update_of_ne hji] at hj
      exact Nat.lt_succ_of_lt (h.made j hj)
  · rw [h.limit]
    cases lim with
    | none => rfl
    | some n => simp only [Option.map_some, Nat.sub_sub]
  · intro n hn
    have hle := h.bound n hn
    have hlimit := h.limit
    rw [hn, Option.map_some] at hlimit
    rw [hlimit, Ne, Option.some_inj] at hlim
    dsimp only
    omega

theorem back (h : PoolOk use lim q) (hi : use i = 1) :
    PoolOk (Function.update use i 0) lim { q with head := i :: q.head, avail := q.avail + 1 } := by
  have hne : use i ≠ 0 := by
    rw [hi]
    exact Nat.one_ne_zero
  constructor
  · rw [h.avail]
    rfl
  · apply List.nodup_cons.2 ⟨fun hmem => hne ((h.free i).1 hmem).2, h.nodup⟩
  · intro j
    rw [List.mem_cons, h.free j]
    by_cases hj : j = i
    · subst hj
      rw [Function.update_self]
      exact ⟨fun _ => ⟨h.made j hne, rfl⟩, fun _ => .inl rfl⟩
    · rw [Function.update_of_ne hj, or_iff_right hj]
  · intro j hj
    apply h.made
    intro hzero
    by_cases hji : j = i
    · rw [hji] at hzero
      exact hne hzero
    · rw [Function.update_of_ne hji] at hj
      exact hj hzero
  · exact h.limit
  · exact h.bound

/-- A count that does not become zero or stop being zero does not matter to the pool. -/
theorem keep (h : PoolOk use lim q) {n : Nat} (hi : use i ≠ 0) (hn : n ≠ 0) :
    PoolOk (Function.update use i n) lim q := by
  have hiff : ∀ j, Function.update use i n j = 0 ↔ use j = 0 := by
    intro j
    by_cases hj : j = i
    · rw [hj, Function.update_self]
      exact iff_of_false hn hi
    · rw [Function.update_of_ne hj]
  constructor
  · exact h.avail
  · exact h.nodup
  · intro j
    rw [hiff]
    exact h.free j
  · intro j hj
    exact h.made j fun hzero => hj ((hiff j).2 hzero)
  · exact h.limit
  · exact h.bound

theorem length_head (h : PoolOk use lim q) (hfree : ∀ i, use i = 0) : q.head.length = q.made := by
  have hperm : q.head.Perm (List.range q.made) := by
    apply (List.perm_ext_iff_of_nodup h.nodup List.nodup_range).2
    intro i
    rw [h.free i, List.mem_range]
    exact ⟨And.left, fun hi => ⟨hi, hfree i⟩⟩
  rw [hperm.length_eq, List.length_range]

end PoolOk

namespace Owned

theorem perm (ho : Owned limit h refs) (hp : refs'.Perm refs) : Owned limit h refs' := ⟨ho.counted.perm hp, ho.pool⟩

theorem new (limit : PoolName → Option Nat) : Owned limit ⟨fun p => newPool (limit p), fun _ => 0, fun _ => []⟩ [] :=
  ⟨fun _ => rfl, fun p => PoolOk.new (limit p)⟩

theorem setBuf (ho : Owned limit h refs) (s : Space) (bs : List Byte) : Owned limit (h.setBuf s bs) refs :=
  ⟨ho.counted, ho.pool⟩

/-- A change at one buffer and its pool. -/
theorem update (ho : Owned limit h refs) {n : Nat} {q : Pool} {buf : Space → List Byte}
    (hcounted : Counted (Function.update h.use s n) refs')
    (hq : PoolOk (Function.update (fun i => h.use ⟨s.pool, i⟩) s.index n) (limit s.pool) q) :
    Owned limit ⟨Function.update h.pool s.pool q, Function.update h.use s n, buf⟩ refs' := by
  refine ⟨hcounted, fun p => ?_⟩
  dsimp only
  by_cases hp : p = s.pool
  · rw [hp, update_index, Function.update_self]
    exact hq
  · rw [update_index_of_ne hp, Function.update_of_ne hp]
    exact ho.pool p

/-- A buffer from a pool is one that nothing refers to. -/
theorem get (ho : Owned limit h refs) (hget : getSpace h p = .done (s, h')) :
    Owned limit h' (s :: refs) ∧ s.pool = p ∧ s ∉ refs ∧ h'.buf = Function.update h.buf s [] := by
  have hq := ho.pool p
  have hacquire : ∀ i, h.use ⟨p, i⟩ = 0 → Counted (Function.update h.use ⟨p, i⟩ 1) (⟨p, i⟩ :: refs) ∧ ⟨p, i⟩ ∉ refs :=
    fun i hi => ⟨ho.counted.acquire hi, fun hmem => ho.counted.mem_iff.1 hmem hi⟩
  simp only [getSpace] at hget
  split at hget
  · cases hget
  · split at hget
    · next i rest hhead =>
      cases hget
      obtain ⟨hcounted, hnot⟩ := hacquire i ((hq.free i).1 (hhead ▸ List.mem_cons_self)).2
      exact ⟨ho.update (s := ⟨p, i⟩) hcounted (hq.pull hhead), rfl, hnot, rfl⟩
    · next hhead =>
      split at hget
      · cases hget
      · next hlim =>
        cases hget
        have hzero : h.use ⟨p, (h.pool p).made⟩ = 0 := by
          by_contra hne
          exact absurd (hq.made _ hne) (Nat.lt_irrefl _)
        obtain ⟨hcounted, hnot⟩ := hacquire _ hzero
        exact ⟨ho.update (s := ⟨p, _⟩) hcounted (hq.make hhead hlim), rfl, hnot, rfl⟩

/-- A thread waits only for a pool whose buffers are all in use. -/
theorem get_or_full (ho : Owned limit h refs) (p : PoolName) :
    (∃ s h', getSpace h p = .done (s, h')) ∨
      getSpace h p = .wait ∧ ∃ n, limit p = some n ∧ n ≤ (refs.filter (·.pool = p)).length := by
  have hq := ho.pool p
  have havail := hq.avail
  simp only [getSpace]
  split
  · next hwait =>
    right
    refine ⟨rfl, ?_⟩
    have hlimit := hq.limit
    rw [hwait.1] at hlimit
    obtain ⟨n, hn, hmade⟩ := Option.map_eq_some_iff.1 hlimit.symm
    refine ⟨n, hn, ?_⟩
    have hhead : (h.pool p).head = [] := by
      apply List.eq_nil_of_length_eq_zero
      omega
    have hbound := hq.bound n hn
    have hused : ∀ i < n, h.use ⟨p, i⟩ ≠ 0 := by
      intro i hi hzero
      have := (hq.free i).2 ⟨by omega, hzero⟩
      rw [hhead] at this
      exact absurd this List.not_mem_nil
    have hcard := ho.counted.card_le (p := fun s => decide (s.pool = p)) (s := (Finset.range n).map
      ⟨fun i => (⟨p, i⟩ : Space), fun i j hij => congrArg Space.index hij⟩) (by
        intro s hs
        obtain ⟨i, hi, rfl⟩ := Finset.mem_map.1 hs
        exact ⟨hused i (Finset.mem_range.1 hi), decide_eq_true rfl⟩)
    rwa [Finset.card_map, Finset.card_range] at hcard
  · next hgo =>
    left
    split
    · exact ⟨_, _, rfl⟩
    · next hhead =>
      rw [hhead, List.length_nil] at havail
      rw [if_neg fun hlim => hgo ⟨hlim, havail⟩]
      exact ⟨_, _, rfl⟩

theorem useSpace (ho : Owned limit h refs) (hs : s ∈ refs) : Owned limit (useSpace h s) (s :: refs) := by
  have hne := ho.counted.mem_iff.1 hs
  have hpool : Owned limit ⟨Function.update h.pool s.pool (h.pool s.pool), _, h.buf⟩ (s :: refs) :=
    ho.update (ho.counted.share s) ((ho.pool s.pool).keep (i := s.index) hne (Nat.succ_ne_zero _))
  rwa [Function.update_eq_self] at hpool

/-- A reference can be given up. -/
theorem drop (ho : Owned limit h refs) (hrefs : refs.Perm (s :: refs')) :
    ∃ h', dropSpace h s = .done h' ∧ Owned limit h' refs' ∧ h'.buf = h.buf := by
  have hcounted := ho.counted.perm hrefs.symm
  have hne : h.use s ≠ 0 := hcounted.mem_iff.1 List.mem_cons_self
  rw [dropSpace, if_neg hne]
  refine ⟨_, rfl, ?_, rfl⟩
  apply ho.update hcounted.drop
  have hq := ho.pool s.pool
  split
  · next hone =>
    rw [hone]
    exact hq.back hone
  · next hmore => exact hq.keep (i := s.index) hne (by omega)

/-- Without references to them all buffers are back in their pools. -/
theorem free (ho : Owned limit h []) (p : PoolName) : (freePool h p).isSome := by
  have hzero : ∀ i, h.use ⟨p, i⟩ = 0 := fun i => ho.counted ⟨p, i⟩
  rw [freePool, if_pos ((ho.pool p).length_head hzero)]
  rfl

end Owned

/-! ## Buffers of one thread -/

/-- The buffers `solo` have no other references, the others may be shared. -/
structure Held (limit : PoolName → Option Nat) (h : Spaces) (solo shared : List Space) : Prop where
  owned : Owned limit h (solo ++ shared)
  nodup : solo.Nodup
  apart : ∀ s ∈ solo, s ∉ shared

namespace Held

variable {solo shared shared' : List Space}

theorem perm (hh : Held limit h solo shared) (hp : shared'.Perm shared) : Held limit h solo shared' :=
  ⟨hh.owned.perm (hp.append_left solo), hh.nodup, fun s hs hmem => hh.apart s hs (hp.mem_iff.1 hmem)⟩

theorem setBuf (hh : Held limit h solo shared) (s : Space) (bs : List Byte) : Held limit (h.setBuf s bs) solo shared :=
  ⟨hh.owned.setBuf s bs, hh.nodup, hh.apart⟩

theorem get (hh : Held limit h solo shared) (hget : getSpace h p = .done (s, h')) :
    Held limit h' solo (s :: shared) ∧ s ∉ solo ++ shared ∧ h'.buf = Function.update h.buf s [] := by
  obtain ⟨howned, -, hnot, hbuf⟩ := hh.owned.get hget
  refine ⟨⟨howned.perm List.perm_middle, hh.nodup, fun t ht hmem => ?_⟩, hnot, hbuf⟩
  rcases List.mem_cons.1 hmem with rfl | hmem
  · exact hnot (List.mem_append_left _ ht)
  · exact hh.apart t ht hmem

theorem useSpace (hh : Held limit h solo shared) (hs : s ∈ shared) : Held limit (useSpace h s) solo (s :: shared) := by
  refine ⟨(hh.owned.useSpace (List.mem_append_right _ hs)).perm List.perm_middle, hh.nodup, fun t ht hmem => ?_⟩
  rcases List.mem_cons.1 hmem with rfl | hmem
  · exact hh.apart t ht hs
  · exact hh.apart t ht hmem

theorem drop (hh : Held limit h solo shared) (hshared : shared.Perm (s :: shared')) :
    ∃ h', dropSpace h s = .done h' ∧ Held limit h' solo shared' ∧ h'.buf = h.buf := by
  have hrefs : (solo ++ shared).Perm (s :: (solo ++ shared')) := (hshared.append_left solo).trans List.perm_middle
  obtain ⟨h', hdrop, howned, hbuf⟩ := hh.owned.drop hrefs
  refine ⟨h', hdrop, ⟨howned, hh.nodup, fun t ht hmem => ?_⟩, hbuf⟩
  exact hh.apart t ht (hshared.mem_iff.2 (List.mem_cons_of_mem _ hmem))

/-- A new buffer belongs to one thread. -/
theorem keep (hh : Held limit h solo (s :: shared)) (hs : s ∉ solo ++ shared) : Held limit h (s :: solo) shared := by
  refine ⟨hh.owned.perm List.perm_middle.symm, ?_, fun t ht hmem => ?_⟩
  · exact List.nodup_cons.2 ⟨fun hmem => hs (List.mem_append_left _ hmem), hh.nodup⟩
  · rcases List.mem_cons.1 ht with rfl | ht
    · exact hs (List.mem_append_right _ hmem)
    · exact hh.apart t ht (List.mem_cons_of_mem _ hmem)

theorem give (hh : Held limit h (s :: solo) shared) : Held limit h solo (s :: shared) := by
  obtain ⟨hnot, hnodup⟩ := List.nodup_cons.1 hh.nodup
  refine ⟨hh.owned.perm List.perm_middle, hnodup, fun t ht hmem => ?_⟩
  rcases List.mem_cons.1 hmem with rfl | hmem
  · exact hnot ht
  · exact hh.apart t (List.mem_cons_of_mem _ ht) hmem

theorem permSolo {solo' : List Space} (hh : Held limit h solo shared) (hp : solo'.Perm solo) : Held limit h solo' shared :=
  ⟨hh.owned.perm (hp.append_right shared), hp.nodup_iff.2 hh.nodup, fun s hs => hh.apart s (hp.mem_iff.1 hs)⟩

end Held

end Pools

end Libibtl.Pgz
