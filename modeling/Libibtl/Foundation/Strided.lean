import Mathlib.Logic.Function.Iterate
import Mathlib.Tactic.Ring

/-! # Strided block copies

A buffer is the memory behind one pointer, as a function of the offset. The
loops of this kind copy one block, then advance the target and the source
pointer by a step each. Packing has the block length as its target step,
unpacking as its source step, so one description serves both.
-/

namespace Libibtl.Foundation

universe u

variable {β : Type u}

/-- `memcpy(dst + d, src + s, n)`. -/
def memcpy (dst : Nat → β) (d : Nat) (src : Nat → β) (s n : Nat) : Nat → β :=
  fun i => if d ≤ i ∧ i < d + n then src (s + (i - d)) else dst i

theorem memcpy_inside {dst src : Nat → β} {d s n j : Nat} (h : j < n) :
    memcpy dst d src s n (d + j) = src (s + j) := by
  rw [memcpy, if_pos ⟨by omega, by omega⟩, Nat.add_sub_cancel_left]

theorem memcpy_outside {dst src : Nat → β} {d s n i : Nat} (h : i < d ∨ d + n ≤ i) :
    memcpy dst d src s n i = dst i := by
  rw [memcpy, if_neg (by omega)]

theorem memcpy_congr {dst src src' : Nat → β} {d s n : Nat} (h : ∀ i < n, src (s + i) = src' (s + i)) :
    memcpy dst d src s n = memcpy dst d src' s n := by
  funext i
  simp only [memcpy]
  split
  · exact h _ (by omega)
  · rfl

@[simp] theorem memcpy_zero (dst src : Nat → β) (d s : Nat) : memcpy dst d src s 0 = dst := by
  funext i
  exact memcpy_outside (by omega)

/-- The loop state: the target buffer and the two advancing pointers. -/
structure CopyState (β : Type u) where
  dst : Nat → β
  dstOff : Nat
  srcOff : Nat

/-- One turn of the loop body: copy `len` bytes, then advance both pointers. -/
def copyBlock (src : Nat → β) (len dstStep srcStep : Nat) (st : CopyState β) : CopyState β where
  dst := memcpy st.dst st.dstOff src st.srcOff len
  dstOff := st.dstOff + dstStep
  srcOff := st.srcOff + srcStep

/-- The nested loop `for i < n, for j < m` around the body. -/
def copyLoop (src : Nat → β) (len dstStep srcStep n m : Nat) (st : CopyState β) : CopyState β :=
  (Nat.iterate (Nat.iterate (copyBlock src len dstStep srcStep) m) n) st

section Loop

variable (src : Nat → β) (len dstStep srcStep : Nat) (st : CopyState β)

theorem copyLoop_eq_iterate (n m : Nat) :
    copyLoop src len dstStep srcStep n m st = Nat.iterate (copyBlock src len dstStep srcStep) (m * n) st := by
  rw [copyLoop, Function.iterate_mul]

theorem iterate_copyBlock_offsets (N : Nat) :
    (Nat.iterate (copyBlock src len dstStep srcStep) N st).dstOff = st.dstOff + N * dstStep ∧
    (Nat.iterate (copyBlock src len dstStep srcStep) N st).srcOff = st.srcOff + N * srcStep := by
  induction N with
  | zero => simp
  | succ N ih =>
    rw [Function.iterate_succ_apply']
    simp only [copyBlock, ih]
    constructor <;> ring

theorem iterate_copyBlock_dst_succ (N : Nat) :
    (Nat.iterate (copyBlock src len dstStep srcStep) (N + 1) st).dst =
      memcpy (Nat.iterate (copyBlock src len dstStep srcStep) N st).dst (st.dstOff + N * dstStep)
        src (st.srcOff + N * srcStep) len := by
  rw [Function.iterate_succ_apply']
  obtain ⟨hd, hs⟩ := iterate_copyBlock_offsets src len dstStep srcStep st N
  simp only [copyBlock, hd, hs]

/-- When blocks do not overlap in the target, each target block holds its source block. -/
theorem iterate_copyBlock_block (hle : len ≤ dstStep) {N k j : Nat} (hk : k < N) (hj : j < len) :
    (Nat.iterate (copyBlock src len dstStep srcStep) N st).dst (st.dstOff + k * dstStep + j) =
      src (st.srcOff + k * srcStep + j) := by
  induction N with
  | zero => omega
  | succ N ih =>
    rw [iterate_copyBlock_dst_succ]
    rcases Nat.lt_succ_iff_lt_or_eq.mp hk with hlt | rfl
    · -- an earlier block ends before the last one starts
      have hstep : (k + 1) * dstStep ≤ N * dstStep := Nat.mul_le_mul_right _ hlt
      rw [Nat.add_mul, Nat.one_mul] at hstep
      rw [memcpy_outside (by omega)]
      exact ih hlt
    · rw [memcpy_inside hj]

theorem iterate_copyBlock_other {N i : Nat}
    (h : ∀ k < N, i < st.dstOff + k * dstStep ∨ st.dstOff + k * dstStep + len ≤ i) :
    (Nat.iterate (copyBlock src len dstStep srcStep) N st).dst i = st.dst i := by
  induction N with
  | zero => rfl
  | succ N ih =>
    rw [iterate_copyBlock_dst_succ, memcpy_outside (h N (Nat.lt_succ_self N))]
    exact ih fun k hk => h k (Nat.lt_succ_of_lt hk)

/-- The loop reads no byte behind its last block. -/
theorem iterate_copyBlock_congr {src' : Nat → β} {N : Nat}
    (h : ∀ i < st.srcOff + N * len, src i = src' i) :
    Nat.iterate (copyBlock src len dstStep len) N st = Nat.iterate (copyBlock src' len dstStep len) N st := by
  induction N with
  | zero => rfl
  | succ N ih =>
    rw [Nat.add_mul, Nat.one_mul] at h
    rw [Function.iterate_succ_apply', Function.iterate_succ_apply', ih fun i hi => h i (by omega)]
    have hoff := (iterate_copyBlock_offsets src' len dstStep len st N).2
    rw [copyBlock, copyBlock, hoff, memcpy_congr]
    intro i hi
    exact h _ (by omega)

end Loop

/-! ## Packing and unpacking -/

section PackUnpack

variable (src dst eager eager' : Nat → β) {len step : Nat} (s d : Nat)

/-- The blocks of the source, one after the other from the start of the target. -/
def pack (len step N : Nat) : Nat → β := (Nat.iterate (copyBlock src len len step) N ⟨eager, 0, s⟩).dst

/-- The blocks of `src`, which lie there one after the other, `step` apart from each other in the target. -/
def unpack (len step N : Nat) : Nat → β := (Nat.iterate (copyBlock src len step len) N ⟨dst, d, 0⟩).dst

theorem pack_block {N k j : Nat} (hk : k < N) (hj : j < len) :
    pack src eager s len step N (k * len + j) = src (s + k * step + j) := by
  have h := iterate_copyBlock_block src len len step ⟨eager, 0, s⟩ (Nat.le_refl len) hk hj
  rwa [Nat.zero_add] at h

theorem unpack_block (hle : len ≤ step) {N k j : Nat} (hk : k < N) (hj : j < len) :
    unpack src dst d len step N (d + k * step + j) = src (k * len + j) := by
  have h := iterate_copyBlock_block src len step len ⟨dst, d, 0⟩ hle hk hj
  rwa [Nat.zero_add] at h

theorem unpack_other {N p : Nat} (h : ∀ k < N, ∀ j < len, p ≠ d + k * step + j) :
    unpack src dst d len step N p = dst p := by
  refine iterate_copyBlock_other _ _ _ _ _ fun k hk => ?_
  by_contra hin
  dsimp only at hin
  exact h k hk (p - (d + k * step)) (by omega) (by omega)

/-- What was packed is unpacked to the same blocks. -/
theorem unpack_pack_block (hle : len ≤ step) {N k j : Nat} (hk : k < N) (hj : j < len) :
    unpack (pack src eager s len step N) dst d len step N (d + k * step + j) = src (s + k * step + j) := by
  rw [unpack_block _ _ _ hle hk hj, pack_block _ _ _ hk hj]

/-- Every packed byte belongs to one of the blocks. -/
theorem exists_block {N p : Nat} (hp : p < N * len) : ∃ k < N, ∃ j < len, p = k * len + j := by
  have hlen : 0 < len := Nat.pos_of_mul_pos_left (Nat.zero_lt_of_lt hp)
  refine ⟨p / len, Nat.div_lt_of_lt_mul ?_, p % len, Nat.mod_lt _ hlen, ?_⟩
  · rwa [Nat.mul_comm]
  · rw [Nat.mul_comm, Nat.div_add_mod]

/-- Packing the target again gives the packed bytes again. -/
theorem pack_unpack_pack (hle : len ≤ step) {N p : Nat} (hp : p < N * len) :
    pack (unpack (pack src eager s len step N) dst d len step N) eager' d len step N p =
      pack src eager s len step N p := by
  obtain ⟨k, hk, j, hj, rfl⟩ := exists_block hp
  rw [pack_block _ _ _ hk hj, unpack_pack_block _ _ _ _ _ hle hk hj, pack_block _ _ _ hk hj]

end PackUnpack

/-! ## The copies of a loop -/

/-- The arguments of one `memcpy`, as offsets from the start of the two buffers. -/
structure Copy where
  dst : Nat
  src : Nat
  len : Nat
  deriving DecidableEq, Repr

namespace Copy

/-- The byte at offset `i` of the target is written. -/
def Writes (c : Copy) (i : Nat) : Prop := c.dst ≤ i ∧ i < c.dst + c.len

/-- The byte at offset `i` of the source is read. -/
def Reads (c : Copy) (i : Nat) : Prop := c.src ≤ i ∧ i < c.src + c.len

end Copy

/-- The copies in their order; the target buffer starts at `d`, the source buffer at `s`. -/
def perform (src : Nat → β) (d s : Nat) (cs : List Copy) (dst : Nat → β) : Nat → β :=
  cs.foldl (fun b c => memcpy b (d + c.dst) src (s + c.src) c.len) dst

/-- The copies of `N` turns of the loop body, from the given offsets on. -/
def blockCopies (len dstStep srcStep : Nat) : Nat → Nat → Nat → List Copy
  | 0, _, _ => []
  | N + 1, d, s => ⟨d, s, len⟩ :: blockCopies len dstStep srcStep N (d + dstStep) (s + srcStep)

theorem perform_other {src dst : Nat → β} {d s i : Nat} {cs : List Copy} (h : ∀ c ∈ cs, ∀ k, c.Writes k → i ≠ d + k) :
    perform src d s cs dst i = dst i := by
  induction cs generalizing dst with
  | nil => rfl
  | cons c cs ih =>
    rw [perform, List.foldl_cons, ← perform, ih fun c' hc' => h c' (List.mem_cons_of_mem _ hc')]
    refine memcpy_outside ?_
    by_contra hin
    refine h c List.mem_cons_self (i - d) ⟨by omega, by omega⟩ (by omega)

theorem perform_congr {src src' dst : Nat → β} {d s : Nat} {cs : List Copy}
    (h : ∀ c ∈ cs, ∀ k, c.Reads k → src (s + k) = src' (s + k)) : perform src d s cs dst = perform src' d s cs dst := by
  induction cs generalizing dst with
  | nil => rfl
  | cons c cs ih =>
    have hhead : memcpy dst (d + c.dst) src (s + c.src) c.len = memcpy dst (d + c.dst) src' (s + c.src) c.len := by
      refine memcpy_congr fun i hi => ?_
      have := h c List.mem_cons_self (c.src + i) ⟨by omega, by omega⟩
      rwa [← Nat.add_assoc] at this
    rw [perform, List.foldl_cons, hhead]
    exact ih fun c' hc' => h c' (List.mem_cons_of_mem _ hc')

section Copies

variable (src : Nat → β) (len dstStep srcStep : Nat)

theorem iterate_copyBlock_dst (N d s a b : Nat) (dst : Nat → β) :
    (Nat.iterate (copyBlock src len dstStep srcStep) N ⟨dst, a + d, b + s⟩).dst =
      perform src a b (blockCopies len dstStep srcStep N d s) dst := by
  induction N generalizing dst d s with
  | zero => rfl
  | succ N ih =>
    rw [Function.iterate_succ_apply, blockCopies, perform, List.foldl_cons, ← perform, ← ih, copyBlock, Nat.add_assoc,
      Nat.add_assoc]

theorem copyLoop_dst (n m a b : Nat) (dst : Nat → β) :
    (copyLoop src len dstStep srcStep n m ⟨dst, a, b⟩).dst =
      perform src a b (blockCopies len dstStep srcStep (m * n) 0 0) dst := by
  rw [copyLoop_eq_iterate, ← iterate_copyBlock_dst, Nat.add_zero, Nat.add_zero]

theorem mem_blockCopies {N d s : Nat} {c : Copy} :
    c ∈ blockCopies len dstStep srcStep N d s ↔ ∃ k < N, c = ⟨d + k * dstStep, s + k * srcStep, len⟩ := by
  induction N generalizing d s with
  | zero => simp [blockCopies]
  | succ N ih =>
    rw [blockCopies, List.mem_cons, ih]
    constructor
    · rintro (rfl | ⟨k, hk, rfl⟩)
      · exact ⟨0, by omega, by simp⟩
      · refine ⟨k + 1, by omega, ?_⟩
        rw [Nat.add_mul, Nat.add_mul, Nat.one_mul, Nat.one_mul]
        congr 1 <;> omega
    · rintro ⟨k, hk, rfl⟩
      cases k with
      | zero => exact .inl (by simp)
      | succ k =>
        refine .inr ⟨k, by omega, ?_⟩
        rw [Nat.add_mul, Nat.add_mul, Nat.one_mul, Nat.one_mul]
        congr 1 <;> omega

end Copies

/-! ## The bytes of a list of copies -/

/-- The target and source offsets of the bytes, in the order in which they are copied. -/
def offsets (cs : List Copy) : List (Nat × Nat) :=
  cs.flatMap fun c => (List.range c.len).map fun i => (c.dst + i, c.src + i)

theorem offsets_cons (c : Copy) (cs : List Copy) :
    offsets (c :: cs) = (List.range c.len).map (fun i => (c.dst + i, c.src + i)) ++ offsets cs := List.flatMap_cons

/-- Blocks that follow one another on both sides are one block. -/
theorem offsets_consecutive (len N d s : Nat) : offsets (blockCopies len len len N d s) = offsets [⟨d, s, N * len⟩] := by
  induction N generalizing d s with
  | zero => simp [offsets, blockCopies]
  | succ N ih =>
    have hlen : (N + 1) * len = len + N * len := by rw [Nat.add_mul, Nat.one_mul, Nat.add_comm]
    rw [blockCopies, offsets_cons, ih, offsets_cons, offsets_cons, hlen, List.range_add, List.map_append, List.map_map,
      List.append_assoc]
    refine congrArg _ (congrArg (· ++ offsets []) (List.map_congr_left fun i _ => ?_))
    simp only [Function.comp_apply, Nat.add_assoc]

theorem memcpy_succ (dst src : Nat → β) (d s n : Nat) :
    memcpy dst d src s (n + 1) = Function.update (memcpy dst d src s n) (d + n) (src (s + n)) := by
  funext i
  rcases Nat.lt_trichotomy i (d + n) with hlt | rfl | hgt
  · rw [Function.update_of_ne hlt.ne]
    rcases Nat.lt_or_ge i d with hbefore | hin
    · rw [memcpy_outside (.inl hbefore), memcpy_outside (.inl hbefore)]
    · rw [memcpy, memcpy, if_pos ⟨hin, by omega⟩, if_pos ⟨hin, hlt⟩]
  · rw [Function.update_self, memcpy_inside (Nat.lt_succ_self n)]
  · rw [Function.update_of_ne hgt.ne', memcpy_outside (.inr hgt), memcpy_outside (.inr hgt.le)]

/-- The copies move their bytes one by one. -/
theorem perform_eq_offsets (src dst : Nat → β) (d s : Nat) (cs : List Copy) : perform src d s cs dst =
    (offsets cs).foldl (fun b x => Function.update b (d + x.1) (src (s + x.2))) dst := by
  induction cs generalizing dst with
  | nil => rfl
  | cons c cs ih =>
    have hcopy : ∀ n, memcpy dst (d + c.dst) src (s + c.src) n = ((List.range n).map fun i => (c.dst + i, c.src + i)).foldl
        (fun b x => Function.update b (d + x.1) (src (s + x.2))) dst := by
      intro n
      induction n with
      | zero => exact memcpy_zero ..
      | succ n hn =>
        rw [memcpy_succ, hn, List.range_succ, List.map_append, List.foldl_append]
        simp only [List.map_cons, List.map_nil, List.foldl_cons, List.foldl_nil, Nat.add_assoc]
    rw [perform, List.foldl_cons, ← perform, ih, hcopy, offsets_cons, List.foldl_append]

/-- The copies of the same bytes in the same order leave the same buffer. -/
theorem perform_eq_of_offsets {cs cs' : List Copy} (h : offsets cs = offsets cs') (src dst : Nat → β) (d s : Nat) :
    perform src d s cs dst = perform src d s cs' dst := by
  rw [perform_eq_offsets, perform_eq_offsets, h]

theorem sum_len_blockCopies (len dstStep srcStep N d s : Nat) :
    ((blockCopies len dstStep srcStep N d s).map Copy.len).sum = N * len := by
  induction N generalizing d s with
  | zero => simp [blockCopies]
  | succ N ih => rw [blockCopies, List.map_cons, List.sum_cons, ih, Nat.add_mul, Nat.one_mul, Nat.add_comm]

/-- Every byte that `N` blocks write lies in one of `M` blocks of the same shape. -/
theorem writes_within_iff {len step N M : Nat} :
    (∀ k < N, ∀ i, k * step ≤ i → i < k * step + len → ∃ b < M, b * step ≤ i ∧ i < b * step + len) ↔
      len = 0 ∨ N ≤ M ∨ (step = 0 ∧ 0 < M) := by
  constructor
  · intro h
    by_contra hnot
    simp only [not_or, not_and, not_le, not_lt] at hnot
    obtain ⟨hlen, hlt, hstep⟩ := hnot
    -- the last byte of block `M` lies behind the first `M` blocks
    obtain ⟨b, hb, -, hbound⟩ := h M hlt (M * step + (len - 1)) (by omega) (by omega)
    have hle : (b + 1) * step ≤ M * step := Nat.mul_le_mul_right _ hb
    rw [Nat.add_mul, Nat.one_mul] at hle
    rcases Nat.eq_zero_or_pos step with hzero | hpos
    · have := hstep hzero
      omega
    · omega
  · rintro (hlen | hle | ⟨hstep, hM⟩) k hk i hlow hhigh
    · omega
    · exact ⟨k, by omega, hlow, hhigh⟩
    · subst hstep
      exact ⟨0, hM, by omega, by omega⟩

/-- `N` blocks of one shape lie in the first `E` bytes when the last one does. -/
theorem blocks_lt_iff {len step N E : Nat} :
    (∀ k < N, ∀ i, k * step ≤ i → i < k * step + len → i < E) ↔ len = 0 ∨ N = 0 ∨ (N - 1) * step + len ≤ E := by
  constructor
  · intro h
    by_contra hnot
    simp only [not_or] at hnot
    obtain ⟨hlen, hN, hlt⟩ := hnot
    have := h (N - 1) (by omega) ((N - 1) * step + (len - 1)) (by omega) (by omega)
    omega
  · rintro (hlen | hN | hle) k hk i hlow hhigh
    · omega
    · omega
    · have hstep : k * step ≤ (N - 1) * step := Nat.mul_le_mul_right _ (by omega)
      omega

/-- Consecutive blocks lie in the first `E` bytes when their total length fits. -/
theorem consecutive_lt_iff {len N E : Nat} :
    (∀ k < N, ∀ i, k * len ≤ i → i < k * len + len → i < E) ↔ N * len ≤ E := by
  rw [blocks_lt_iff]
  cases N with
  | zero => simp
  | succ N =>
    rw [Nat.succ_sub_one, Nat.add_mul, Nat.one_mul]
    constructor
    · rintro (hlen | hN | hle)
      · simp [hlen]
      · cases hN
      · exact hle
    · exact fun hle => .inr (.inr hle)

end Libibtl.Foundation
