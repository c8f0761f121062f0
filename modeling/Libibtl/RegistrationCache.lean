import Mathlib.Algebra.BigOperators.Group.List.Basic
import Mathlib.Data.List.Find
import Libibtl.HeapQueue

/-! # The registration cache

`fdmi_reg_mr` searches the queue of all regions first and calls `ibv_reg_mr` on
a miss. The region that `ibv_reg_mr` returns and the block of its queue node are
arguments of the call.
-/

namespace Libibtl

open Foundation

universe u

/-- `struct ibv_mr`, as far as the cache reads it. -/
structure IbvMr (P : Type u) where
  pd : P
  addr : UInt64T
  length : UInt64T
  deriving DecidableEq, Repr

structure RegistrationCache (A M P : Type u) where
  mem : QueueHeap A M
  regions : Heap M (IbvMr P)
  regMrQ : HeapQueue A
  regMrCachedSize : UInt64T

namespace RegistrationCache

variable {A M P : Type u} [DecidableEq A] [DecidableEq M] [DecidableEq P]

/-- The two tests of the search, on the addresses as the adaptor knows them. -/
def hits (addr : UInt64T) (size : UInt32T) (pd : P) (tmpMr : IbvMr P) : Bool :=
  tmpMr.pd = pd ∧ tmpMr.addr = addr ∧ addr + size.setWidth 64 ≤ tmpMr.addr + tmpMr.length

def regMr (s : RegistrationCache A M P) (addr : UInt64T) (size : UInt32T) (pd : P) (mr : M) (d : A) :
    Option (M × RegistrationCache A M P) := do
  let (q, tmpMr) ← HeapQueue.search s.mem s.regMrQ fun tmpMr => (s.regions.cell tmpMr).map (hits addr size pd)
  match tmpMr with
  | some tmpMr => some (tmpMr, { s with regMrQ := q })
  | none =>
    let region : IbvMr P := ⟨pd, addr, size.setWidth 64⟩
    let (mem, q) ← HeapQueue.enq s.mem q d (some mr)
    some (mr, ⟨mem, s.regions.malloc mr region, q, s.regMrCachedSize + region.length⟩)

end RegistrationCache

/-- A call of `fdmi_reg_mr`. -/
structure RegMrCall (A M P : Type u) where
  addr : UInt64T
  size : UInt32T
  pd : P
  mr : M
  d : A
  deriving DecidableEq, Repr

/-- What a call did: its arguments, the region behind its result, and whether it called `ibv_reg_mr`. -/
structure RegMrReturn (P : Type u) where
  addr : UInt64T
  size : UInt32T
  pd : P
  region : IbvMr P
  registered : Bool
  deriving DecidableEq, Repr

/-- The cache with the history of its calls. -/
structure RegistrationHistory (A M P : Type u) where
  cache : RegistrationCache A M P
  returns : List (RegMrReturn P)

namespace RegistrationHistory

variable {A M P : Type u} [DecidableEq A] [DecidableEq M] [DecidableEq P]

/-- The cache after `fdmi_verbs_init`, in any memory. -/
def init (mem : QueueHeap A M) (regions : Heap M (IbvMr P)) (ite : Option A) : RegistrationHistory A M P :=
  ⟨⟨mem, regions, HeapQueue.create ite, 0⟩, []⟩

def step (s : RegistrationHistory A M P) (c : RegMrCall A M P) : Option (RegistrationHistory A M P) := do
  let (mr, cache) ← s.cache.regMr c.addr c.size c.pd c.mr c.d
  let region ← cache.regions.cell mr
  some ⟨cache, s.returns ++ [⟨c.addr, c.size, c.pd, region, s.cache.regions.mallocs < cache.regions.mallocs⟩]⟩

/-- `ibv_reg_mr` and `fdmi_malloc` return something new, and the requested range does not wrap. -/
def Promised (s : RegistrationHistory A M P) (c : RegMrCall A M P) : Prop :=
  (s.cache.regions.cell c.mr).isNone ∧ (s.cache.mem.cell c.d).isNone ∧ c.addr.toNat + c.size.toNat < 2 ^ 64

instance (s : RegistrationHistory A M P) (c : RegMrCall A M P) : Decidable (s.Promised c) :=
  inferInstanceAs (Decidable (_ ∧ _))

/-- The cache holds the regions `rs`, in queue order. -/
structure Holds (s : RegistrationHistory A M P) (rs : List (M × IbvMr P)) : Prop where
  queue : ∃ xs, HeapQueue.Represents s.cache.mem s.cache.regMrQ xs ∧ xs.map Prod.snd = (rs.map Prod.fst).map some
  region : ∀ r ∈ rs, s.cache.regions.cell r.1 = some r.2
  fits : ∀ r ∈ rs, r.2.addr.toNat + r.2.length.toNat < 2 ^ 64
  returned : ∀ c ∈ s.returns, c.region ∈ rs.map Prod.snd

/-- What the calls so far returned and what the cache holds after them. -/
structure Good (s : RegistrationHistory A M P) (rs : List (M × IbvMr P)) : Prop where
  covers : ∀ c ∈ s.returns, c.region.pd = c.pd ∧ c.region.addr = c.addr ∧ c.size.toNat ≤ c.region.length.toNat
  needed : s.returns.Pairwise fun c' c => c.registered = true → c'.region.pd = c.pd → c'.region.addr = c.addr →
    c'.region.length.toNat < c.size.toNat
  increasing : rs.Pairwise fun r r' => r.2.pd = r'.2.pd → r.2.addr = r'.2.addr → r.2.length.toNat < r'.2.length.toNat
  cachedSize : s.cache.regMrCachedSize = BitVec.ofNat 64 (rs.map fun r => r.2.length.toNat).sum

variable {s : RegistrationHistory A M P} {rs : List (M × IbvMr P)} {c : RegMrCall A M P}

theorem toNat_size (size : UInt32T) : (size.setWidth 64 : UInt64T).toNat = size.toNat := by
  rw [BitVec.toNat_setWidth, Nat.mod_eq_of_lt (size.isLt.trans (by decide))]

omit [DecidableEq A] [DecidableEq M] in
/-- Where neither range wraps, a hit is a region of the domain that starts at the address and is long enough. -/
theorem hits_iff {addr : UInt64T} {size : UInt32T} {pd : P} {r : IbvMr P} (h : addr.toNat + size.toNat < 2 ^ 64)
    (hr : r.addr.toNat + r.length.toNat < 2 ^ 64) :
    RegistrationCache.hits addr size pd r = true ↔ r.pd = pd ∧ r.addr = addr ∧ size.toNat ≤ r.length.toNat := by
  have hsize := toNat_size size
  have hend : (addr + size.setWidth 64).toNat = addr.toNat + size.toNat := by
    rw [BitVec.toNat_add, hsize, Nat.mod_eq_of_lt h]
  have hend' : (r.addr + r.length).toNat = r.addr.toNat + r.length.toNat := by
    rw [BitVec.toNat_add, Nat.mod_eq_of_lt hr]
  rw [RegistrationCache.hits, decide_eq_true_eq, BitVec.le_def, hend, hend']
  refine and_congr_right fun _ => and_congr_right fun haddr => ?_
  rw [haddr, Nat.add_le_add_iff_left]

namespace Holds

omit [DecidableEq A] [DecidableEq M] in
theorem search (h : s.Holds rs) (c : RegMrCall A M P) :
    ∃ ite, HeapQueue.search s.cache.mem s.cache.regMrQ
        (fun mr => (s.cache.regions.cell mr).map (RegistrationCache.hits c.addr c.size c.pd)) =
      some ({ s.cache.regMrQ with ite }, (rs.find? fun r => RegistrationCache.hits c.addr c.size c.pd r.2).map Prod.fst) := by
  obtain ⟨xs, hq, hxs⟩ := h.queue
  let p : M → Bool := fun mr => ((s.cache.regions.cell mr).map (RegistrationCache.hits c.addr c.size c.pd)).getD false
  have hp : ∀ r ∈ rs, p r.1 = RegistrationCache.hits c.addr c.size c.pd r.2 := by
    intro r hr
    simp only [p, h.region r hr, Option.map_some, Option.getD_some]
  have htest : ∀ mr ∈ rs.map Prod.fst,
      (s.cache.regions.cell mr).map (RegistrationCache.hits c.addr c.size c.pd) = some (p mr) := by
    intro mr hmr
    obtain ⟨r, hr, rfl⟩ := List.mem_map.1 hmr
    rw [hp r hr, h.region r hr]
    rfl
  obtain ⟨ite, hsearch⟩ := hq.search_eq hxs htest
  refine ⟨ite, hsearch.trans ?_⟩
  rw [List.find?_map]
  exact congrArg (fun f => some (_, Option.map Prod.fst f)) (List.find?_congr fun r hr => hp r hr)

end Holds

theorem step_hit (h : s.Holds rs) (hgood : s.Good rs) (hc : s.Promised c) {r : M × IbvMr P}
    (hr : rs.find? (fun r => RegistrationCache.hits c.addr c.size c.pd r.2) = some r) :
    ∃ t, s.step c = some t ∧ t.Holds rs ∧ t.Good rs := by
  obtain ⟨ite, hsearch⟩ := h.search c
  have hmem := List.mem_of_find?_eq_some hr
  have hhit : RegistrationCache.hits c.addr c.size c.pd r.2 = true :=
    List.find?_some (p := fun r : M × IbvMr P => RegistrationCache.hits c.addr c.size c.pd r.2) hr
  obtain ⟨hpd, haddr, hsize⟩ := (hits_iff hc.2.2 (h.fits r hmem)).1 hhit
  refine ⟨⟨{ s.cache with regMrQ := { s.cache.regMrQ with ite } }, s.returns ++ [⟨c.addr, c.size, c.pd, r.2, false⟩]⟩, ?_,
    ⟨?_, h.region, h.fits, ?_⟩, ⟨?_, ?_, hgood.increasing, hgood.cachedSize⟩⟩
  · rw [step, RegistrationCache.regMr, hsearch, hr]
    simp [h.region r hmem]
  · obtain ⟨xs, hq, hxs⟩ := h.queue
    exact ⟨xs, hq.with_ite ite, hxs⟩
  · intro c' hc'
    obtain hc' | hc' := List.mem_append.1 hc'
    · exact h.returned c' hc'
    · rw [List.mem_singleton.1 hc']
      exact List.mem_map_of_mem hmem
  · intro c' hc'
    obtain hc' | hc' := List.mem_append.1 hc'
    · exact hgood.covers c' hc'
    · rw [List.mem_singleton.1 hc']
      exact ⟨hpd, haddr, hsize⟩
  · refine List.pairwise_append.2 ⟨hgood.needed, List.pairwise_singleton .., ?_⟩
    intro c' _ c'' hc'' hregistered
    rw [List.mem_singleton.1 hc''] at hregistered
    exact absurd hregistered Bool.false_ne_true

/-! ## A new region -/

section Register

omit [DecidableEq A] [DecidableEq M] in
/-- No cached region at the place was long enough. -/
theorem Holds.short (h : s.Holds rs) (hwrap : c.addr.toNat + c.size.toNat < 2 ^ 64)
    (hr : rs.find? (fun r => RegistrationCache.hits c.addr c.size c.pd r.2) = none) :
    ∀ r ∈ rs, r.2.pd = c.pd → r.2.addr = c.addr → r.2.length.toNat < c.size.toNat := by
  intro r hmem hpd haddr
  have hnot := List.find?_eq_none.1 hr r hmem
  rw [hits_iff hwrap (h.fits r hmem)] at hnot
  exact Nat.lt_of_not_le fun hle => hnot ⟨hpd, haddr, hle⟩

variable {mem : QueueHeap A M} {q : HeapQueue A}

omit [DecidableEq A] [DecidableEq P] in
theorem Holds.register (h : s.Holds rs) {xs : List (A × Option M)} (hq : HeapQueue.Represents mem q xs)
    (hxs : xs.map Prod.snd = ((rs.map Prod.fst) ++ [c.mr]).map some) (hmr : s.cache.regions.cell c.mr = none)
    (hwrap : c.addr.toNat + c.size.toNat < 2 ^ 64) (cached : UInt64T) :
    Holds ⟨⟨mem, s.cache.regions.malloc c.mr ⟨c.pd, c.addr, c.size.setWidth 64⟩, q, cached⟩,
        s.returns ++ [⟨c.addr, c.size, c.pd, ⟨c.pd, c.addr, c.size.setWidth 64⟩, true⟩]⟩
      (rs ++ [(c.mr, ⟨c.pd, c.addr, c.size.setWidth 64⟩)]) where
  queue := ⟨xs, hq, by rw [hxs, List.map_append (f := Prod.fst)]; rfl⟩
  region r hr := by
    rcases List.mem_append.1 hr with hr | hr
    · have hold : r.1 ≠ c.mr := by
        intro heq
        rw [← heq, h.region r hr] at hmr
        cases hmr
      exact (Heap.cell_malloc_ne hold).trans (h.region r hr)
    · rw [List.mem_singleton.1 hr]
      exact Heap.cell_malloc_self ..
  fits r hr := by
    rcases List.mem_append.1 hr with hr | hr
    · exact h.fits r hr
    · rw [List.mem_singleton.1 hr]
      change c.addr.toNat + (c.size.setWidth 64 : UInt64T).toNat < 2 ^ 64
      rw [toNat_size]
      exact hwrap
  returned c' hc' := by
    rw [List.map_append]
    rcases List.mem_append.1 hc' with hc' | hc'
    · exact List.mem_append_left _ (h.returned c' hc')
    · rw [List.mem_singleton.1 hc']
      exact List.mem_append_right _ (List.mem_singleton_self _)

omit [DecidableEq A] [DecidableEq M] [DecidableEq P] in
theorem Good.register (hgood : s.Good rs) (h : s.Holds rs)
    (hshort : ∀ r ∈ rs, r.2.pd = c.pd → r.2.addr = c.addr → r.2.length.toNat < c.size.toNat)
    (regions : Heap M (IbvMr P)) :
    Good ⟨⟨mem, regions, q, s.cache.regMrCachedSize + c.size.setWidth 64⟩,
        s.returns ++ [⟨c.addr, c.size, c.pd, ⟨c.pd, c.addr, c.size.setWidth 64⟩, true⟩]⟩
      (rs ++ [(c.mr, ⟨c.pd, c.addr, c.size.setWidth 64⟩)]) where
  covers c' hc' := by
    rcases List.mem_append.1 hc' with hc' | hc'
    · exact hgood.covers c' hc'
    · rw [List.mem_singleton.1 hc']
      exact ⟨rfl, rfl, (toNat_size c.size).ge⟩
  needed := by
    apply List.pairwise_append.2 ⟨hgood.needed, List.pairwise_singleton .., _⟩
    intro c' hc' c'' hc''
    obtain ⟨r, hr, hregion⟩ := List.mem_map.1 (h.returned c' hc')
    rw [List.mem_singleton.1 hc'', ← hregion]
    exact fun _ => hshort r hr
  increasing := by
    apply List.pairwise_append.2 ⟨hgood.increasing, List.pairwise_singleton .., _⟩
    intro r hr r' hr'
    rw [List.mem_singleton.1 hr', toNat_size]
    exact hshort r hr
  cachedSize := by
    change s.cache.regMrCachedSize + c.size.setWidth 64 = _
    rw [List.map_append, List.sum_append, BitVec.ofNat_add, hgood.cachedSize]
    congr 1
    rw [List.map_singleton, List.sum_singleton]
    exact (BitVec.ofNat_toNat ..).symm

end Register

/-- A miss registers a region that is longer than all cached ones at its place. -/
theorem step_miss (h : s.Holds rs) (hgood : s.Good rs) (hc : s.Promised c)
    (hr : rs.find? (fun r => RegistrationCache.hits c.addr c.size c.pd r.2) = none) :
    ∃ t rs', s.step c = some t ∧ t.Holds rs' ∧ t.Good rs' := by
  obtain ⟨ite, hsearch⟩ := h.search c
  obtain ⟨xs, hq, hxs⟩ := h.queue
  obtain ⟨hmr, hd, hwrap⟩ := hc
  obtain ⟨mem, q, henq, hq', -, -, -⟩ := (hq.with_ite ite).push (Option.isNone_iff_eq_none.1 hd) (d := some c.mr)
  have hcontents : (xs ++ [(c.d, some c.mr)]).map Prod.snd = ((rs.map Prod.fst) ++ [c.mr]).map some := by
    rw [List.map_append, List.map_append, hxs]
    rfl
  refine ⟨_, _, ?_, h.register hq' hcontents (Option.isNone_iff_eq_none.1 hmr) hwrap _,
    hgood.register h (h.short hwrap hr) _⟩
  rw [step, RegistrationCache.regMr, hsearch, hr]
  simp [henq]

omit [DecidableEq A] [DecidableEq M] [DecidableEq P] in
theorem Good.init (mem : QueueHeap A M) (regions : Heap M (IbvMr P)) (ite : Option A) :
    (init mem regions ite).Holds [] ∧ (init mem regions ite).Good [] := by
  refine ⟨⟨⟨[], .create mem ite, rfl⟩, ?_, ?_, ?_⟩, ⟨?_, List.Pairwise.nil, List.Pairwise.nil, rfl⟩⟩
  all_goals
    intro _ h
    cases h

/-- Whatever the calls, each returns a region of its domain that covers its range, a region is registered only when no
region returned before would do, the lengths at one place increase, and `reg_mr_cached_size` is their sum. -/
theorem registrations_good (mem : QueueHeap A M) (regions : Heap M (IbvMr P)) (ite : Option A)
    (calls : List (RegMrCall A M P)) (h : Meets step Promised (init mem regions ite) calls) :
    Runs step
      (fun s => ∃ rs, s.Holds rs ∧ s.Good rs ∧
        ((rs.map fun r => r.2.length.toNat).sum < 2 ^ 64 →
          s.cache.regMrCachedSize.toNat = (rs.map fun r => r.2.length.toNat).sum))
      (init mem regions ite) calls := by
  have hstep : ∀ (s : RegistrationHistory A M P) c, (∃ rs, s.Holds rs ∧ s.Good rs) → s.Promised c →
      ∃ t, s.step c = some t ∧ ∃ rs, t.Holds rs ∧ t.Good rs := by
    rintro s c ⟨rs, hs, hgood⟩ hc
    cases hfind : rs.find? fun r => RegistrationCache.hits c.addr c.size c.pd r.2 with
    | none =>
      obtain ⟨t, rs', ht, hrs'⟩ := step_miss hs hgood hc hfind
      exact ⟨t, ht, rs', hrs'⟩
    | some r =>
      obtain ⟨t, ht, hrs⟩ := step_hit hs hgood hc hfind
      exact ⟨t, ht, rs, hrs⟩
  have hruns := Runs.of_meets hstep ⟨[], Good.init mem regions ite⟩ h
  refine hruns.mono ?_
  rintro s ⟨rs, hs, hgood⟩
  refine ⟨rs, hs, hgood, fun hlt => ?_⟩
  rw [hgood.cachedSize, BitVec.toNat_ofNat, Nat.mod_eq_of_lt hlt]

/-- Growing and shrinking requests for one buffer, in two domains. -/
def bufferCalls : List (RegMrCall Nat Nat Nat) :=
  [⟨4096, 16, 1, 100, 200⟩, ⟨4096, 8, 1, 101, 201⟩, ⟨4096, 64, 1, 101, 201⟩, ⟨4096, 64, 2, 102, 202⟩,
    ⟨4096, 20, 1, 103, 203⟩, ⟨8192, 0, 2, 103, 203⟩]

theorem registrations_good_buffer :
    ∃ s, bufferCalls.foldlM step (init ⟨fun _ => none, 0⟩ ⟨fun _ => none, 0⟩ none) = some s ∧ ∃ rs, s.Good rs := by
  obtain ⟨s, hs, rs, -, hgood, -⟩ :=
    (registrations_good ⟨fun _ => none, 0⟩ ⟨fun _ => none, 0⟩ none bufferCalls (by decide)).foldlM
  exact ⟨s, hs, rs, hgood⟩

end RegistrationHistory

end Libibtl
