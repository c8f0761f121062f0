import Mathlib.Data.List.Induction
import Mathlib.Logic.Function.Iterate
import Libibtl.Pgz.Jobs

/-! # Where blocks end

With `rsync` the blocks of an input end where the rolling hash hits, and with the chunks.
The hash has a window of twelve bytes, so that a change of the input moves the hits only
near it, and no two hits are closer than five bytes.
-/

namespace Libibtl.Pgz

open Foundation

/-- The hash hits after `n` bytes of the input. -/
def Hit (addr : List Byte) (n : Nat) : Prop := rsyncHash rsyncHit (addr.take n) = rsyncHit

/-! ## The window -/

section Window

/-- What a bit of the hash contributes to the next one. -/
def ageBit (hash : UInt32T) : UInt32T := (hash <<< 1) &&& rsyncMask

theorem getLsbD_rsyncMask (i : Nat) : rsyncMask.getLsbD i = decide (i < 12) := by
  have hmask : rsyncMask = (BitVec.allOnes 12).setWidth 32 := by decide
  rw [hmask, BitVec.getLsbD_setWidth, BitVec.getLsbD_allOnes]
  by_cases h : i < 12
  · simp [h, show i < 32 by omega]
  · simp [h]

theorem rsyncStep_xor (hash age : UInt32T) (b : Byte) :
    rsyncStep (hash ^^^ age) b = rsyncStep hash b ^^^ ageBit age := by
  rw [rsyncStep, rsyncStep, ageBit, BitVec.shiftLeft_xor_distrib]
  apply BitVec.eq_of_getLsbD_eq
  intro i hi
  simp only [BitVec.getLsbD_and, BitVec.getLsbD_xor]
  cases rsyncMask.getLsbD i <;> cases (hash <<< 1).getLsbD i <;> cases (age <<< 1).getLsbD i <;> simp

theorem rsyncHash_xor (hash age : UInt32T) (bs : List Byte) :
    rsyncHash (hash ^^^ age) bs = rsyncHash hash bs ^^^ ageBit^[bs.length] age := by
  induction bs generalizing hash age with
  | nil => rfl
  | cons b bs ih =>
    have hstep : rsyncHash (hash ^^^ age) (b :: bs) = rsyncHash (rsyncStep hash b ^^^ ageBit age) bs := by
      rw [rsyncHash, List.foldl_cons, rsyncStep_xor]
      rfl
    rw [hstep, ih]
    rfl

theorem getLsbD_ageBit_iterate (age : UInt32T) (n i : Nat) :
    (ageBit^[n + 1] age).getLsbD i = (decide (i < 12) && decide (n < i) && age.getLsbD (i - (n + 1))) := by
  induction n generalizing i with
  | zero =>
    change (ageBit age).getLsbD i = _
    rw [ageBit, BitVec.getLsbD_and, BitVec.getLsbD_shiftLeft, getLsbD_rsyncMask]
    by_cases h : i < 12
    · cases i with
      | zero => simp
      | succ i => simp [h, show i + 1 < 32 by omega]
    · simp [h]
  | succ n ih =>
    rw [Function.iterate_succ_apply', ageBit, BitVec.getLsbD_and, BitVec.getLsbD_shiftLeft, ih, getLsbD_rsyncMask]
    cases i with
    | zero => simp
    | succ i =>
      by_cases h : i + 1 < 12
      · simp [h, show i + 1 < 32 by omega, show i < 12 by omega]
      · simp [h]

/-- Twelve bytes on, a bit of the hash is gone. -/
theorem rsyncHash_window (h h' : UInt32T) {bs : List Byte} (hlen : 12 ≤ bs.length) : rsyncHash h bs = rsyncHash h' bs := by
  have hgone : ageBit^[bs.length] (h ^^^ h') = 0#32 := by
    obtain ⟨n, hn⟩ : ∃ n, bs.length = n + 1 := ⟨bs.length - 1, by omega⟩
    apply BitVec.eq_of_getLsbD_eq
    intro i _
    rw [hn, getLsbD_ageBit_iterate]
    by_cases hi : i < 12
    · simp [show ¬ n < i by omega]
    · simp [hi]
  have hxor : h ^^^ (h ^^^ h') = h' := by
    rw [← BitVec.xor_assoc, BitVec.xor_self, BitVec.zero_xor]
  have := rsyncHash_xor h (h ^^^ h') bs
  rw [hgone, BitVec.xor_zero, hxor] at this
  exact this.symm

end Window

/-! ## The distance of hits -/

/-- `run` bytes after a hit the high bits of the hash are still set. -/
def Recent (hash : UInt32T) (run : Nat) : Prop :=
  (run = 0 → hash = rsyncHit) ∧ ∀ i, 0 < run → 7 + run ≤ i → i < 12 → hash.getLsbD i = true

theorem Recent.step {hash : UInt32T} {run : Nat} (h : Recent hash run) (b : Byte) : Recent (rsyncStep hash b) (run + 1) := by
  refine ⟨fun h => absurd h (Nat.succ_ne_zero run), fun i _ hlo hhi => ?_⟩
  have hbyte : (b.setWidth 32 : UInt32T).getLsbD i = false := by
    rw [BitVec.getLsbD_setWidth, BitVec.getLsbD_of_ge b i (by omega), Bool.and_false]
  have hbefore : hash.getLsbD (i - 1) = true := by
    cases run with
    | zero =>
      rw [h.1 rfl]
      have hmem : i - 1 < 11 := by omega
      have hall : ∀ j < 11, rsyncHit.getLsbD j = true := by decide
      exact hall _ hmem
    | succ run => exact h.2 (i - 1) (Nat.succ_pos run) (by omega) (by omega)
  rw [rsyncStep, BitVec.getLsbD_and, BitVec.getLsbD_xor, BitVec.getLsbD_shiftLeft, hbyte, getLsbD_rsyncMask]
  simp [hhi, hbefore, show i < 32 by omega, show ¬ i < 1 by omega]

theorem Recent.not_hit {hash : UInt32T} {run : Nat} (h : Recent hash run) (hpos : 0 < run) (hlt : run < 5) :
    hash ≠ rsyncHit := by
  rintro rfl
  have := h.2 11 hpos (by omega) (by decide)
  exact absurd this (by decide)

theorem recent_hash (bs : List Byte) : Recent (rsyncHash rsyncHit bs) bs.length := by
  induction bs using List.reverseRecOn with
  | nil => exact ⟨fun _ => rfl, fun i h => absurd h (Nat.lt_irrefl 0)⟩
  | append_singleton bs b ih =>
    rw [rsyncHash_append, List.length_append]
    exact ih.step b

/-- Two hits are at least five bytes apart. -/
theorem Hit.far {addr : List Byte} {m n : Nat} (hm : Hit addr m) (hn : Hit addr n) (hlt : m < n) (hle : n ≤ addr.length) :
    m + 5 ≤ n := by
  by_contra hnear
  have hsplit : addr.take n = addr.take m ++ (addr.drop m).take (n - m) := by
    rw [← List.take_add]
    congr 1
    omega
  have hlen : ((addr.drop m).take (n - m)).length = n - m := by
    rw [List.length_take, List.length_drop]
    omega
  have hrecent := recent_hash ((addr.drop m).take (n - m))
  rw [hlen] at hrecent
  apply hrecent.not_hit (by omega) (by omega)
  rw [Hit, hsplit, rsyncHash_append] at hn
  rw [Hit] at hm
  rw [hm] at hn
  exact hn

/-! ## Where the blocks of an input end -/

/-- The positions behind pieces of the lengths `ls`, the first of which starts at `start`. -/
def ends : Nat → List Nat → List Nat
  | _, [] => []
  | start, len :: ls => (start + len) :: ends (start + len) ls

/-- The positions behind the blocks of the jobs. -/
def blockEnds : Nat → List Job → List Nat
  | _, [] => []
  | start, job :: jobs =>
    ends start ((blocks job.lens job.input.length).getD []) ++ blockEnds (start + job.input.length) jobs

/-- The positions behind the jobs that are as large as a job can be. -/
def fullEnds (o : Options) : Nat → List Job → List Nat
  | _, [] => []
  | start, job :: jobs =>
    (if job.input.length = o.size then [start + job.input.length] else []) ++
      fullEnds o (start + job.input.length) jobs

section Ends

theorem ends_append (start : Nat) (ls ms : List Nat) : ends start (ls ++ ms) = ends start ls ++ ends (start + ls.sum) ms := by
  induction ls generalizing start with
  | nil => rfl
  | cons len ls ih =>
    have hsum : (len :: ls).sum = len + ls.sum := List.sum_cons
    rw [List.cons_append, ends, ih, ends, hsum, Nat.add_assoc]
    rfl

theorem sum_mem_ends (start : Nat) {ls : List Nat} (h : ls ≠ []) : start + ls.sum ∈ ends start ls := by
  induction ls generalizing start with
  | nil => exact absurd rfl h
  | cons len ls ih =>
    have hsum : (len :: ls).sum = len + ls.sum := List.sum_cons
    rw [ends, hsum, ← Nat.add_assoc]
    cases ls with
    | nil => exact List.mem_cons_self
    | cons len' ls => exact List.mem_cons_of_mem _ (ih _ (List.cons_ne_nil _ _))

theorem mem_ends_segments (hash : UInt32T) (run start p : Nat) (bs : List Byte) :
    p ∈ ends start (segments hash run bs).1 ↔
      ∃ n, 0 < n ∧ n ≤ bs.length ∧ p = start + run + n ∧ rsyncHash hash (bs.take n) = rsyncHit := by
  induction bs generalizing hash run start with
  | nil =>
    constructor
    · exact fun h => absurd h List.not_mem_nil
    · rintro ⟨n, hpos, hle, -⟩
      exact absurd hle (Nat.not_le.2 hpos)
  | cons b bs ih =>
    have hone : rsyncHash hash ((b :: bs).take 1) = rsyncStep hash b := rfl
    have hmore : ∀ n, rsyncHash hash ((b :: bs).take (n + 1)) = rsyncHash (rsyncStep hash b) (bs.take n) := fun _ => rfl
    rw [segments]
    split
    · next hhit =>
      rw [ends, List.mem_cons, ih]
      constructor
      · rintro (rfl | ⟨n, hpos, hle, rfl, hn⟩)
        · exact ⟨1, Nat.one_pos, Nat.succ_le_succ (Nat.zero_le _), by omega, hone.trans hhit⟩
        · exact ⟨n + 1, Nat.succ_pos n, Nat.succ_le_succ hle, by omega, (hmore n).trans hn⟩
      · rintro ⟨n, hpos, hle, rfl, hn⟩
        cases n with
        | zero => exact absurd hpos (Nat.lt_irrefl 0)
        | succ n =>
          cases n with
          | zero => exact .inl (by omega)
          | succ n => exact .inr ⟨n + 1, Nat.succ_pos n, Nat.le_of_succ_le_succ hle, by omega, (hmore (n + 1)).symm.trans hn⟩
    · next hmiss =>
      rw [ih]
      constructor
      · rintro ⟨n, hpos, hle, rfl, hn⟩
        exact ⟨n + 1, Nat.succ_pos n, Nat.succ_le_succ hle, by omega, (hmore n).trans hn⟩
      · rintro ⟨n, hpos, hle, rfl, hn⟩
        cases n with
        | zero => exact absurd hpos (Nat.lt_irrefl 0)
        | succ n =>
          cases n with
          | zero => exact absurd (hone.symm.trans hn) hmiss
          | succ n => exact ⟨n + 1, Nat.succ_pos n, Nat.le_of_succ_le_succ hle, by omega, (hmore (n + 1)).symm.trans hn⟩

theorem mem_ends_hitBlocks {hash : UInt32T} {start p : Nat} {input : List Byte} (hne : input ≠ []) :
    p ∈ ends start (hitBlocks hash input) ↔ p = start + input.length ∨
      ∃ n, 0 < n ∧ n ≤ input.length ∧ p = start + n ∧ rsyncHash hash (input.take n) = rsyncHit := by
  have hsegments := mem_ends_segments hash 0 start p input
  rw [hitBlocks]
  split
  · next hall =>
    rw [hsegments]
    constructor
    · exact Or.inr
    · rintro (rfl | h)
      · rw [← hsegments]
        rw [← hall.1]
        apply sum_mem_ends
        intro hnil
        rw [hnil] at hall
        exact hne (List.eq_nil_of_length_eq_zero hall.1.symm)
      · exact h
  · have hsum := segments_sum hash 0 input
    rw [ends_append, List.mem_append, hsegments, ends, ends, List.mem_singleton, Nat.add_assoc, Nat.add_sub_cancel' (by omega)]
    exact Or.comm

variable {o : Options} {pre addr : List Byte} {seq p q : Nat} {jobs : List Job} {job : Job}

/-- The blocks of one job end at the hits in its input and behind it. -/
theorem mem_ends_job (h : JobOk o pre job) (hr : o.rsync = true) (hne : pre ++ job.input ≠ [])
    (htext : pre ++ job.input <+: addr) :
    p ∈ ends pre.length ((blocks job.lens job.input.length).getD []) ↔
      p = pre.length + job.input.length ∨
        pre.length < p ∧ p ≤ pre.length + job.input.length ∧ Hit addr p := by
  have hinput : job.input ≠ [] := by
    intro hnil
    rw [(h.nonempty hnil).1, hnil] at hne
    exact hne rfl
  rw [h.blocks, if_pos hr, Option.getD_some, mem_ends_hitBlocks hinput]
  have hhit : ∀ n ≤ job.input.length, (rsyncHash (rsyncHash rsyncHit pre) (job.input.take n) = rsyncHit ↔
      Hit addr (pre.length + n)) := by
    intro n hn
    obtain ⟨rest, rfl⟩ := htext
    have htake : (pre ++ job.input ++ rest).take (pre.length + n) = pre ++ job.input.take n := by
      rw [List.append_assoc, List.take_length_add_append, List.take_append_of_le_length hn]
    rw [Hit, htake, rsyncHash_append]
  apply or_congr_right
  constructor
  · rintro ⟨n, hpos, hle, rfl, hn⟩
    exact ⟨by omega, by omega, (hhit n hle).1 hn⟩
  · rintro ⟨hlt, hle, hp⟩
    have hadd : pre.length + (p - pre.length) = p := by omega
    refine ⟨p - pre.length, by omega, by omega, hadd.symm, (hhit _ (by omega)).2 ?_⟩
    rwa [hadd]

theorem mem_blockEnds (h : Chunked o pre seq jobs) (hr : o.rsync = true) (htext : pre ++ jobs.flatMap Job.input = addr)
    (hne : addr ≠ []) : p ∈ blockEnds pre.length jobs ↔
      p ∈ ends pre.length (jobs.map fun job => job.input.length) ∨ pre.length < p ∧ p ≤ addr.length ∧ Hit addr p := by
  induction jobs generalizing pre seq with
  | nil => exact absurd h id
  | cons job jobs ih =>
    rw [List.flatMap_cons, ← List.append_assoc] at htext
    have hprefix : pre ++ job.input <+: addr := ⟨_, htext⟩
    have hlen := hprefix.length_le
    rw [List.length_append] at hlen
    cases jobs with
    | nil =>
      rw [List.flatMap_nil, List.append_nil] at htext
      have hlast := mem_ends_job (p := p) h.1 hr (htext ▸ hne) hprefix
      rw [blockEnds, blockEnds, List.append_nil, hlast, List.map_cons, List.map_nil, ends, ends, List.mem_singleton,
        ← htext, List.length_append]
    | cons job' jobs =>
      obtain ⟨hjob, -, hmore, hchunked⟩ := h
      have hinput : job.input ≠ [] := by
        intro hnil
        have := (hjob.nonempty hnil).2
        rw [hmore] at this
        cases this
      have hhere := mem_ends_job (p := p) hjob hr (by simp [hinput]) hprefix
      have hrest := ih hchunked htext
      rw [List.length_append] at hrest
      have hall : p ∈ ends pre.length ((job :: job' :: jobs).map fun job => job.input.length) ↔
          p = pre.length + job.input.length ∨
            p ∈ ends (pre.length + job.input.length) ((job' :: jobs).map fun job => job.input.length) := List.mem_cons
      rw [blockEnds, List.mem_append, hhere, hrest, hall]
      constructor
      · rintro ((rfl | ⟨hlt, hle, hp⟩) | (hp | ⟨hlt, hle, hp⟩))
        · exact .inl (.inl rfl)
        · exact .inr ⟨hlt, by omega, hp⟩
        · exact .inl (.inr hp)
        · exact .inr ⟨by omega, hle, hp⟩
      · rintro ((rfl | hp) | ⟨hlt, hle, hp⟩)
        · exact .inl (.inl rfl)
        · exact .inr (.inl hp)
        · by_cases hnear : p ≤ pre.length + job.input.length
          · exact .inl (.inr ⟨hlt, hnear, hp⟩)
          · exact .inr (.inr ⟨by omega, hle, hp⟩)

/-- A job ends at a hit, unless it is as large as it can be or the last one. -/
theorem hit_of_mem_ends (h : Chunked o pre seq jobs) (htext : pre ++ jobs.flatMap Job.input = addr)
    (hp : p ∈ ends pre.length (jobs.map fun job => job.input.length)) :
    p ≤ addr.length ∧ Hit addr p ∨ p = addr.length ∨ p ∈ fullEnds o pre.length jobs := by
  induction jobs generalizing pre seq with
  | nil => exact absurd h id
  | cons job jobs ih =>
    rw [List.flatMap_cons, ← List.append_assoc] at htext
    rw [List.map_cons, ends, List.mem_cons] at hp
    rw [fullEnds]
    cases jobs with
    | nil =>
      rw [List.flatMap_nil, List.append_nil] at htext
      rcases hp with rfl | hp
      · rw [← htext, List.length_append]
        exact .inr (.inl rfl)
      · exact absurd hp List.not_mem_nil
    | cons job' jobs =>
      obtain ⟨hjob, -, hmore, hchunked⟩ := h
      rcases hp with rfl | hp
      · rcases hjob.ends hmore with hfull | ⟨-, hhit⟩
        · rw [if_pos hfull]
          exact .inr (.inr (List.mem_append_left _ (List.mem_singleton.2 rfl)))
        · rw [← htext, Hit, ← List.length_append, List.take_left]
          exact .inl ⟨by simp, hhit⟩
      · have hrest := ih hchunked htext
        rw [List.length_append] at hrest
        exact (hrest hp).imp_right (Or.imp_right (List.mem_append_right _))

theorem hit_of_mem_blockEnds (h : Chunked o [] 0 jobs) (hr : o.rsync = true) (htext : jobs.flatMap Job.input = addr)
    (hp : p ∈ blockEnds 0 jobs) : p ≤ addr.length ∧ Hit addr p ∨ p = addr.length ∨ p ∈ fullEnds o 0 jobs := by
  by_cases hne : addr = []
  · obtain ⟨job, rest, rfl⟩ : ∃ job rest, jobs = job :: rest := by
      cases jobs with
      | nil => exact absurd h id
      | cons job rest => exact ⟨job, rest, rfl⟩
    rw [hne, List.flatMap_cons, List.append_eq_nil_iff] at htext
    cases rest with
    | nil =>
      have hblocks := h.1.blocks
      rw [if_pos hr, htext.1] at hblocks
      rw [blockEnds, blockEnds, List.append_nil, htext.1, hblocks] at hp
      rw [hne]
      exact .inr (.inl (List.mem_singleton.1 hp))
    | cons job' rest =>
      have hlast := (h.1.nonempty htext.1).2
      rw [h.2.2.1] at hlast
      cases hlast
  · rcases (mem_blockEnds h hr (by simpa using htext) hne).1 hp with hend | ⟨-, hle, hhit⟩
    · exact hit_of_mem_ends h (by simpa using htext) hend
    · exact .inl ⟨hle, hhit⟩

theorem length_mem_blockEnds (h : Chunked o [] 0 jobs) (hr : o.rsync = true) (htext : jobs.flatMap Job.input = addr)
    (hne : addr ≠ []) : addr.length ∈ blockEnds 0 jobs := by
  have hjobs : (jobs.map fun job => job.input.length) ≠ [] := by
    rw [Ne, List.map_eq_nil_iff]
    rintro rfl
    exact h
  apply (mem_blockEnds h hr (by simpa using htext) hne).2
  left
  have := sum_mem_ends 0 hjobs
  rw [Nat.zero_add, ← List.length_flatMap, htext] at this
  exact this

/-- Where the bytes are the same, hits are the same twelve bytes later. -/
theorem Hit.common {as bs tail : List Byte} {n : Nat} (hn : 12 ≤ n) (hle : n ≤ tail.length)
    (h : Hit (as ++ tail) (as.length + n)) : Hit (bs ++ tail) (bs.length + n) := by
  rw [Hit, List.take_length_add_append, rsyncHash_append] at h ⊢
  rwa [rsyncHash_window _ (rsyncHash rsyncHit as)]
  rwa [List.length_take, Nat.min_eq_left hle]

end Ends

/-- With `rsync` the blocks of two inputs with a common end are the same from its thirteenth byte on, as far as they
do not end with a job that is as large as it can be. Blocks that end at hits have at least five bytes. -/
theorem feed_rsync {o : Options} (ho : o.Ok) (hr : o.rsync = true) (as bs tail : List Byte) :
    ∃ jobs jobs', feed o (as ++ tail) = some jobs ∧ feed o (bs ++ tail) = some jobs' ∧
      (∀ n, 12 ≤ n → n ≤ tail.length → as.length + n ∈ blockEnds 0 jobs →
        bs.length + n ∈ blockEnds 0 jobs' ∨ as.length + n ∈ fullEnds o 0 jobs) ∧
      (∀ p ∈ blockEnds 0 jobs, ∀ q ∈ blockEnds 0 jobs, p < q → p + 5 ≤ q ∨ p ∈ fullEnds o 0 jobs ∨
        q ∈ fullEnds o 0 jobs ∨ q = (as ++ tail).length) := by
  obtain ⟨jobs, hjobs, hchunked, htext⟩ := feed_spec ho (as ++ tail)
  obtain ⟨jobs', hjobs', hchunked', htext'⟩ := feed_spec ho (bs ++ tail)
  refine ⟨jobs, jobs', hjobs, hjobs', fun n hn hle hp => ?_, fun p hp q hq hlt => ?_⟩
  · have htail : bs ++ tail ≠ [] := by
      intro hnil
      rw [(List.append_eq_nil_iff.1 hnil).2, List.length_nil] at hle
      omega
    rcases hit_of_mem_blockEnds hchunked hr htext hp with ⟨-, hhit⟩ | hlast | hfull
    · left
      apply (mem_blockEnds hchunked' hr (by simpa using htext') htail).2
      rw [List.length_nil, List.length_append]
      exact .inr ⟨by omega, by omega, hhit.common hn hle⟩
    · have hend := length_mem_blockEnds hchunked' hr htext' htail
      rw [List.length_append] at hlast hend
      have hall : n = tail.length := Nat.add_left_cancel hlast
      exact .inl (hall ▸ hend)
    · exact .inr hfull
  · rcases hit_of_mem_blockEnds hchunked hr htext hq with ⟨hle, hhit'⟩ | hlast | hfull
    · rcases hit_of_mem_blockEnds hchunked hr htext hp with ⟨-, hhit⟩ | hlast | hfull
      · exact .inl (hhit.far hhit' hlt hle)
      · omega
      · exact .inr (.inl hfull)
    · exact .inr (.inr (.inr hlast))
    · exact .inr (.inr (.inl hfull))

/-- Seventeen bytes that hit after sixteen, whatever comes before them. -/
def lateHitBytes : List Byte := List.replicate 12 0 ++ [0xff, 0, 0, 7, 1]

theorem feed_rsync_hit : ∃ jobs jobs', feed ⟨32768, true, true⟩ ([] ++ lateHitBytes) = some jobs ∧
    feed ⟨32768, true, true⟩ ([1] ++ lateHitBytes) = some jobs' ∧
    16 ∈ blockEnds 0 jobs ∧ 17 ∈ blockEnds 0 jobs' := by
  obtain ⟨jobs, jobs', hjobs, hjobs', hcommon, -⟩ := feed_rsync (o := ⟨32768, true, true⟩) ⟨by decide, by decide⟩ rfl
    [] [1] lateHitBytes
  have heval : (feed ⟨32768, true, true⟩ ([] ++ lateHitBytes)).map
      (fun jobs => (blockEnds 0 jobs, fullEnds ⟨32768, true, true⟩ 0 jobs)) = some ([16, 17], []) := by decide +kernel
  rw [hjobs] at heval
  obtain ⟨hends, hfull⟩ := Prod.mk.inj (Option.some.inj heval)
  have hmem : 16 ∈ blockEnds 0 jobs := by
    rw [hends]
    decide
  refine ⟨jobs, jobs', hjobs, hjobs', hmem, ?_⟩
  rcases hcommon 16 (by decide) (by decide) hmem with h | h
  · exact h
  · rw [hfull] at h
    exact absurd h List.not_mem_nil

end Libibtl.Pgz
