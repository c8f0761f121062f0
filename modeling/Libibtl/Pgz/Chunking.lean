import Libibtl.Pgz.BlockLengths

/-! # The chunks of the input

The main thread cuts the input into chunks of at most `size` bytes, one job for each.
With `rsync` it cuts them into blocks where a rolling hash of the input hits, and a
chunk ends with its last hit. What it keeps for the next chunk is in `next` and `hold`.
-/

namespace Libibtl.Pgz

open Foundation

/-- `DICT`. -/
def dictSize : Nat := 32768

def rsyncMask : UInt32T := 0xfff

def rsyncHit : UInt32T := 0x7ff

/-- The options that the main thread looks at. -/
structure Options where
  size : Nat
  rsync : Bool
  setdict : Bool

/-- A job as the main thread appends it to the compress list. -/
structure Job where
  seq : Nat
  more : Bool
  input : List Byte
  dict : Option (List Byte)
  lens : Option (List Byte)
  deriving DecidableEq

/-- The variables of `parallel_compress2` between two turns of its loop. A space is what it holds. `scan` is an
index in the space that follows the bytes counted by `left`. -/
structure Feed where
  offset : Nat
  seq : Nat
  next : List Byte
  hold : Option (List Byte)
  dict : Option (List Byte)
  scan : Nat
  hash : UInt32T
  left : Nat

/-- The variables of the loops over the bytes, with the list of block lengths so far. -/
structure Scan where
  hash : UInt32T
  scan : Nat
  last : Nat
  left : Nat
  lens : List Byte

/-- `readn2`: the bytes read, and the new `offset`. -/
def readn2 (addr : List Byte) (offset len : Nat) : List Byte × Nat :=
  if offset = addr.length then ([], offset)
  else
    let len := if addr.length < offset + len then addr.length - offset else len
    ((addr.drop offset).take len, offset + len)

def rsyncStep (hash : UInt32T) (b : Byte) : UInt32T := ((hash <<< 1) ^^^ b.setWidth 32) &&& rsyncMask

/-- The loop that looks for hash hits. It is given up when an assertion of `append_len` fails. -/
def scanBytes (s : Scan) : List Byte → Option Scan
  | [] => some s
  | b :: bs =>
    let s' := { s with hash := rsyncStep s.hash b, scan := s.scan + 1 }
    if s'.hash = rsyncHit then
      match appendLen (s'.scan - s.last + s.left) with
      | none => none
      | some code => scanBytes { s' with last := s'.scan, left := 0, lens := s.lens ++ code } bs
    else scanBytes s' bs

/-- How the spaces are left when the input of a job is fixed. -/
structure Cut where
  input : List Byte
  next : List Byte
  hold : Option (List Byte)
  scan : Nat
  hash : UInt32T
  left : Nat
  lens : Option (List Byte)

/-- The scan of what is left of the current space, unless it goes on in the next one. -/
def scanCurr (f : Feed) (curr : List Byte) : Option Scan :=
  if f.left = 0 then
    (scanBytes ⟨f.hash, f.scan, 0, 0, []⟩ (curr.drop f.scan)).map fun s =>
      { s with left := s.scan - s.last, scan := 0, last := 0 }
  else some ⟨f.hash, f.scan, 0, f.left, []⟩

/-- The number of bytes of the next space that are scanned. -/
def scanLen (size : Nat) (curr next : List Byte) : Nat :=
  if next.length < size - curr.length then next.length else size - curr.length

/-- The input of a job up to the last hit, or all of it when there is none. -/
def cutAt (curr next : List Byte) (s : Scan) (lens : List Byte) : Cut :=
  let len := if lens.length = 1 then s.scan else s.last
  if len ≠ 0 then ⟨curr ++ next.take len, next.drop len, none, s.scan - len, s.hash, 0, some lens⟩
  else if lens.length ≠ 1 ∧ s.left ≠ 0 ∧ next.length ≠ 0 then
    ⟨curr.take (curr.length - s.left), curr.drop (curr.length - s.left), some next, s.scan, s.hash, s.left, some lens⟩
  else ⟨curr, next, none, s.scan, s.hash, 0, some lens⟩

/-- The part of a turn that generates block lengths. -/
def cutBlocks (size : Nat) (f : Feed) (curr next : List Byte) : Option Cut :=
  match scanCurr f curr with
  | none => none
  | some s =>
    match scanBytes s ((next.take (scanLen size curr next)).drop s.scan), appendLen 0 with
    | some s, some code => some (cutAt curr next s (s.lens ++ code))
    | _, _ => none

/-- The dictionary for the next job. There is none when the copy would start before the dictionary of this one. -/
def nextDict (o : Options) (more : Bool) (curr : List Byte) (dict : Option (List Byte)) : Option (Option (List Byte)) :=
  if more && o.setdict then
    match dict with
    | none => some (some curr)
    | some d =>
      if dictSize ≤ curr.length then some (some curr)
      else
        let len := dictSize - curr.length
        if len ≤ d.length then some (some (d.drop (d.length - len) ++ curr)) else none
  else some dict

/-- The space that follows the current one, and the new `offset`. -/
def Feed.following (o : Options) (addr : List Byte) (f : Feed) : List Byte × Nat :=
  match f.hold with
  | some hold => (hold, f.offset)
  | none => readn2 addr f.offset o.size

/-- The input of the job, as a whole or up to the last hit. -/
def Feed.cut (o : Options) (f : Feed) (curr next : List Byte) : Option Cut :=
  if o.rsync && curr.length ≠ 0 then cutBlocks o.size f curr next
  else some ⟨curr, next, none, f.scan, f.hash, f.left, none⟩

/-- One turn of the loop of `parallel_compress2`. -/
def turn (o : Options) (addr : List Byte) (f : Feed) : Option (Job × Feed) :=
  match f.cut o f.next (f.following o addr).1 with
  | none => none
  | some cut =>
    let more : Bool := cut.next.length ≠ 0
    match nextDict o more cut.input f.dict with
    | none => none
    | some dict =>
      some (⟨f.seq, more, cut.input, f.dict, cut.lens⟩,
        ⟨(f.following o addr).2, f.seq + 1, cut.next, cut.hold, dict, cut.scan, cut.hash, cut.left⟩)

/-- The variables before the first turn. -/
def Feed.init (o : Options) (addr : List Byte) : Feed :=
  let (next, offset) := readn2 addr 0 o.size
  ⟨offset, 0, next, none, none, 0, rsyncHit, 0⟩

/-- The jobs of at most `n` turns. -/
def feedLoop (o : Options) (addr : List Byte) : Nat → Feed → Option (List Job)
  | 0, _ => none
  | n + 1, f =>
    match turn o addr f with
    | none => none
    | some (job, f) => if job.more then (feedLoop o addr n f).map (job :: ·) else some [job]

/-- The jobs of `parallel_compress2`. -/
def feed (o : Options) (addr : List Byte) : Option (List Job) := feedLoop o addr (addr.length + 1) (Feed.init o addr)

/-! ## Hits of the rolling hash -/

/-- The hash after `bs`. -/
def rsyncHash (hash : UInt32T) (bs : List Byte) : UInt32T := bs.foldl rsyncStep hash

/-- The lengths from hit to hit, and the number of bytes after the last one. The first length counts `run` bytes more. -/
def segments : UInt32T → Nat → List Byte → List Nat × Nat
  | _, run, [] => ([], run)
  | hash, run, b :: bs =>
    if rsyncStep hash b = rsyncHit then
      ((run + 1) :: (segments (rsyncStep hash b) 0 bs).1, (segments (rsyncStep hash b) 0 bs).2)
    else segments (rsyncStep hash b) (run + 1) bs

section Segments

variable {hash : UInt32T} {run k : Nat} {bs cs : List Byte} {ls : List Nat}

theorem rsyncHash_append (hash : UInt32T) (bs cs : List Byte) :
    rsyncHash hash (bs ++ cs) = rsyncHash (rsyncHash hash bs) cs := List.foldl_append

theorem segments_append (hash : UInt32T) (run : Nat) (bs cs : List Byte) : segments hash run (bs ++ cs) =
    ((segments hash run bs).1 ++ (segments (rsyncHash hash bs) (segments hash run bs).2 cs).1,
      (segments (rsyncHash hash bs) (segments hash run bs).2 cs).2) := by
  induction bs generalizing hash run with
  | nil => rfl
  | cons b bs ih =>
    rw [List.cons_append, segments, segments, rsyncHash, List.foldl_cons, ← rsyncHash]
    split
    · rw [ih]
      rfl
    · exact ih _ _

theorem segments_sum (hash : UInt32T) (run : Nat) (bs : List Byte) :
    (segments hash run bs).1.sum + (segments hash run bs).2 = run + bs.length := by
  induction bs generalizing hash run with
  | nil => simp [segments]
  | cons b bs ih =>
    rw [segments, List.length_cons]
    split
    · have := ih (rsyncStep hash b) 0
      rw [List.sum_cons]
      omega
    · have := ih (rsyncStep hash b) (run + 1)
      omega

theorem segments_pos (hash : UInt32T) (run : Nat) (bs : List Byte) : ∀ len ∈ (segments hash run bs).1, 0 < len := by
  induction bs generalizing hash run with
  | nil => exact fun _ h => absurd h List.not_mem_nil
  | cons b bs ih =>
    rw [segments]
    split
    · intro len hlen
      rcases List.mem_cons.1 hlen with rfl | hlen
      · omega
      · exact ih _ _ len hlen
    · exact ih _ _

/-- The bytes after the last hit. -/
theorem segments_last (h : segments hash run bs = (ls, k)) (hls : ls ≠ []) : k ≤ bs.length ∧
    segments hash run (bs.take (bs.length - k)) = (ls, 0) ∧ rsyncHash hash (bs.take (bs.length - k)) = rsyncHit ∧
    segments rsyncHit 0 (bs.drop (bs.length - k)) = ([], k) := by
  induction bs generalizing hash run ls with
  | nil =>
    cases h
    exact absurd rfl hls
  | cons b bs ih =>
    rw [segments] at h
    split at h
    · next hhit =>
      cases hrest : segments (rsyncStep hash b) 0 bs with
      | mk ls' k' =>
        rw [hrest, Prod.mk.injEq] at h
        obtain ⟨rfl, rfl⟩ := h
        by_cases hls' : ls' = []
        · subst hls'
          have hsum := segments_sum (rsyncStep hash b) 0 bs
          rw [hrest] at hsum
          simp only [List.sum_nil, Nat.zero_add] at hsum
          subst hsum
          rw [List.length_cons, show bs.length + 1 - bs.length = 1 by omega]
          refine ⟨by omega, ?_, hhit, ?_⟩
          · simp [segments, hhit]
          · rw [hhit] at hrest
            exact hrest
        · obtain ⟨hk, htake, hhash, hdrop⟩ := ih hrest hls'
          rw [List.length_cons, show bs.length + 1 - k' = bs.length - k' + 1 by omega]
          refine ⟨by omega, ?_, hhash, hdrop⟩
          rw [List.take_succ_cons, segments, if_pos hhit, htake]
    · next hmiss =>
      obtain ⟨hk, htake, hhash, hdrop⟩ := ih h hls
      rw [List.length_cons, show bs.length + 1 - k = bs.length - k + 1 by omega]
      refine ⟨by omega, ?_, hhash, hdrop⟩
      rw [List.take_succ_cons, segments, if_neg hmiss, htake]

/-- Bytes before a stretch without hits do not count. -/
theorem segments_of_append_nil (h : segments hash run (bs ++ cs) = ([], k)) :
    segments hash run bs = ([], run + bs.length) := by
  have hsum := segments_sum hash run bs
  rw [segments_append, Prod.mk.injEq] at h
  have hnil := (List.append_eq_nil_iff.1 h.1).1
  rw [hnil] at hsum
  apply Prod.ext
  · exact hnil
  · simpa using hsum

end Segments

/-! ## The scanning loop -/

theorem appendLen_ne_nil {len : Nat} {code : List Byte} (h : appendLen len = some code) : code ≠ [] := by
  rw [appendLen] at h
  split at h
  · cases h
    split
    · simp
    · split <;> simp
  · cases h

theorem codedLens_eq_nil {ls : List Nat} {bs : List Byte} (h : codedLens ls = some bs) : bs = [] ↔ ls = [] := by
  cases ls with
  | nil =>
    cases h
    simp
  | cons len ls =>
    rw [codedLens] at h
    split at h
    · next code rest hcode hrest =>
      cases h
      simp [appendLen_ne_nil hcode]
    · cases h

/-- What the loop leaves: the hash and the position behind the bytes, and the lengths of the segments. -/
structure Scanned (s : Scan) (ls : List Nat) (bs : List Byte) (s' : Scan) : Prop where
  hash : s'.hash = rsyncHash s.hash bs
  scan : s'.scan = s.scan + bs.length
  last : s'.last ≤ s'.scan
  run : s'.scan - s'.last + s'.left = (segments s.hash (s.scan - s.last + s.left) bs).2
  lens : codedLens (ls ++ (segments s.hash (s.scan - s.last + s.left) bs).1) = some s'.lens
  miss : (segments s.hash (s.scan - s.last + s.left) bs).1 = [] → s'.last = s.last ∧ s'.left = s.left
  hit : (segments s.hash (s.scan - s.last + s.left) bs).1 ≠ [] → s.scan < s'.last ∧ s'.left = 0

theorem scanBytes_spec {s : Scan} {ls : List Nat} (bs : List Byte) (hlast : s.last ≤ s.scan)
    (hlens : codedLens ls = some s.lens) (hlen : s.scan - s.last + s.left + bs.length < 4227136) :
    ∃ s', scanBytes s bs = some s' ∧ Scanned s ls bs s' := by
  induction bs generalizing s ls with
  | nil =>
    refine ⟨s, rfl, rfl, rfl, hlast, rfl, ?_, fun _ => ⟨rfl, rfl⟩, fun h => absurd rfl h⟩
    rw [segments, List.append_nil]
    exact hlens
  | cons b bs ih =>
    rw [List.length_cons] at hlen
    rw [scanBytes]
    by_cases hhit : rsyncStep s.hash b = rsyncHit
    · have hsome : (appendLen (s.scan + 1 - s.last + s.left)).isSome := appendLen_isSome.2 (by omega)
      obtain ⟨code, hcode⟩ := Option.isSome_iff_exists.1 hsome
      have hrun : s.scan + 1 - s.last + s.left = s.scan - s.last + s.left + 1 := by omega
      obtain ⟨s', hs', h⟩ := ih (s := ⟨rsyncStep s.hash b, s.scan + 1, s.scan + 1, 0, s.lens ++ code⟩) (Nat.le_refl _)
        (codedLens_concat hlens hcode) (by simp only; omega)
      refine ⟨s', by simp only [hhit, if_true, hcode, ← hs'], ?_⟩
      have hzero : s.scan + 1 - (s.scan + 1) + 0 = 0 := by omega
      have hsegments : segments s.hash (s.scan - s.last + s.left) (b :: bs) =
          ((s.scan - s.last + s.left + 1) :: (segments (rsyncStep s.hash b) 0 bs).1,
            (segments (rsyncStep s.hash b) 0 bs).2) := by
        rw [segments, if_pos hhit]
      obtain ⟨hhash, hscan, hle, hrest, hcoded, hmiss, hhits⟩ := h
      dsimp only at hhash hscan hrest hcoded hmiss hhits
      rw [hzero] at hrest hcoded hmiss hhits
      constructor
      · exact hhash
      · rw [hscan, List.length_cons]
        omega
      · exact hle
      · rw [hrest, hsegments]
      · rw [hsegments]
        dsimp only
        rw [List.append_cons, ← hrun]
        exact hcoded
      · intro hnil
        rw [hsegments] at hnil
        cases hnil
      · intro _
        by_cases hnone : (segments (rsyncStep s.hash b) 0 bs).1 = []
        · obtain ⟨hl, hleft⟩ := hmiss hnone
          exact ⟨by rw [hl]; exact Nat.lt_succ_self _, hleft⟩
        · obtain ⟨hl, hleft⟩ := hhits hnone
          exact ⟨by omega, hleft⟩
    · have hrun : s.scan + 1 - s.last + s.left = s.scan - s.last + s.left + 1 := by omega
      obtain ⟨s', hs', h⟩ := ih (s := ⟨rsyncStep s.hash b, s.scan + 1, s.last, s.left, s.lens⟩) (by simp only; omega)
        hlens (by simp only; omega)
      have hsegments : segments s.hash (s.scan - s.last + s.left) (b :: bs) =
          segments (rsyncStep s.hash b) (s.scan - s.last + s.left + 1) bs := by
        rw [segments, if_neg hhit]
      refine ⟨s', by simp only [hhit, if_false, ← hs'], ?_⟩
      obtain ⟨hhash, hscan, hle, hrest, hcoded, hmiss, hhits⟩ := h
      dsimp only at hhash hscan hrest hcoded hmiss hhits
      rw [hrun] at hrest hcoded hmiss hhits
      constructor
      · exact hhash
      · rw [hscan, List.length_cons]
        omega
      · exact hle
      · rw [hrest, hsegments]
      · rw [hsegments]
        exact hcoded
      · rw [hsegments]
        exact hmiss
      · rw [hsegments]
        intro hsome
        exact ⟨by have := (hhits hsome).1; omega, (hhits hsome).2⟩

/-! ## One turn -/

/-- What has been scanned of the bytes behind `pre` without a hit. -/
def Ahead (size : Nat) (pre next : List Byte) (hold : Option (List Byte)) (scan : Nat) (hash : UInt32T)
    (left : Nat) : Prop :=
  match hold with
  | none => left = 0 ∧ scan ≤ next.length ∧ hash = rsyncHash rsyncHit (pre ++ next.take scan) ∧
      segments (rsyncHash rsyncHit pre) 0 (next.take scan) = ([], scan)
  | some held => held ≠ [] ∧ left = next.length ∧ left ≠ 0 ∧ left < size ∧ left + scan ≤ size ∧ scan ≤ held.length ∧
      hash = rsyncHash rsyncHit (pre ++ next ++ held.take scan) ∧
      segments (rsyncHash rsyncHit pre) 0 (next ++ held.take scan) = ([], left + scan)

section Cutting

variable {size : Nat} {pre curr next : List Byte} {f : Feed}

theorem scanLen_le (size : Nat) (curr next : List Byte) :
    scanLen size curr next ≤ next.length ∧ scanLen size curr next ≤ size - curr.length := by
  rw [scanLen]
  split <;> omega

theorem scanLen_full (h : scanLen size curr next < next.length) : scanLen size curr next = size - curr.length := by
  rw [scanLen] at h ⊢
  split at h
  · exact absurd h (Nat.lt_irrefl _)
  · next hn => rw [if_neg hn]

/-- The state of the scan when it comes to the next space, where the first `s.scan` bytes had no hit. -/
structure Started (size : Nat) (pre curr next : List Byte) (ls : List Nat) (s : Scan) : Prop where
  last : s.last = 0
  scan : s.scan ≤ scanLen size curr next
  lens : codedLens ls = some s.lens
  segments : segments (rsyncHash rsyncHit pre) 0 curr = (ls, s.left)
  hash : s.hash = rsyncHash rsyncHit (pre ++ curr ++ next.take s.scan)
  miss : Pgz.segments (rsyncHash rsyncHit (pre ++ curr)) s.left (next.take s.scan) = ([], s.left + s.scan)

theorem started (hahead : Ahead size pre curr f.hold f.scan f.hash f.left) (hnext : ∀ held, f.hold = some held → next = held)
    (hsize : curr.length ≤ size) (hlt : size < 4227136) :
    ∃ ls s, scanCurr f curr = some s ∧ Started size pre curr next ls s ∧ (f.hold ≠ none → ls = []) := by
  rw [scanCurr]
  cases hhold : f.hold with
  | none =>
    rw [hhold] at hahead
    obtain ⟨hleft, hscan, hhash, hmiss⟩ := hahead
    rw [if_pos hleft]
    obtain ⟨s, hs, h⟩ := scanBytes_spec (s := ⟨f.hash, f.scan, 0, 0, []⟩) (curr.drop f.scan)
      (Nat.zero_le _) (show codedLens [] = some [] from rfl) (by rw [List.length_drop]; dsimp only; omega)
    have hsplit := segments_append (rsyncHash rsyncHit pre) 0 (curr.take f.scan) (curr.drop f.scan)
    rw [List.take_append_drop, hmiss, ← rsyncHash_append, ← hhash] at hsplit
    obtain ⟨hhash', hscan', hlast, hrun, hlens, hmiss', hhit'⟩ := h
    dsimp only [Nat.sub_zero, Nat.add_zero] at hhash' hrun hlens hmiss' hhit'
    have hzero : s.left = 0 := by
      by_cases hnone : (segments f.hash f.scan (curr.drop f.scan)).1 = []
      · exact (hmiss' hnone).2
      · exact (hhit' hnone).2
    refine ⟨(segments f.hash f.scan (curr.drop f.scan)).1, _, by rw [hs]; rfl, ?_, fun h => absurd rfl h⟩
    constructor
    · rfl
    · exact Nat.zero_le _
    · exact hlens
    · rw [hsplit, List.nil_append, ← hrun, hzero]
      rfl
    · change s.hash = _
      rw [hhash', hhash, ← rsyncHash_append, List.append_assoc, List.take_append_drop]
      simp
    · rfl
  | some held =>
    rw [hhold] at hahead
    obtain ⟨hne, hleft, hpos, hlts, hle, hscan, hhash, hmiss⟩ := hahead
    obtain rfl := hnext held hhold
    rw [if_neg hpos]
    refine ⟨[], _, rfl, ?_, fun _ => rfl⟩
    have hcurr := segments_of_append_nil hmiss
    rw [Nat.zero_add, ← hleft] at hcurr
    constructor
    · rfl
    · have := scanLen_le size curr next
      dsimp only
      rw [scanLen]
      split <;> omega
    · rfl
    · exact hcurr
    · exact hhash
    · have hsplit := segments_append (rsyncHash rsyncHit pre) 0 curr (next.take f.scan)
      rw [hmiss, hcurr, ← rsyncHash_append, Prod.mk.injEq] at hsplit
      exact Prod.ext hsplit.1.symm hsplit.2.symm

/-- The state of the scan at its end, with the lengths `ls` from the current space and `lb` from the next one. -/
structure Finished (size : Nat) (pre curr next : List Byte) (ls lb : List Nat) (left k : Nat) (s : Scan) : Prop where
  before : segments (rsyncHash rsyncHit pre) 0 curr = (ls, left)
  after : segments (rsyncHash rsyncHit (pre ++ curr)) left (next.take (scanLen size curr next)) = (lb, k)
  hash : s.hash = rsyncHash rsyncHit (pre ++ curr ++ next.take (scanLen size curr next))
  scan : s.scan = scanLen size curr next
  last : s.last ≤ s.scan
  run : s.scan - s.last + s.left = k
  lens : codedLens (ls ++ lb) = some s.lens
  miss : lb = [] → s.last = 0 ∧ s.left = left
  hit : lb ≠ [] → 0 < s.last ∧ s.left = 0

theorem finished {ls : List Nat} {s : Scan} (h : Started size pre curr next ls s) (hsize : curr.length ≤ size)
    (hlt : size < 4227136) : ∃ lb k s',
      scanBytes s ((next.take (scanLen size curr next)).drop s.scan) = some s' ∧
        Finished size pre curr next ls lb s.left k s' := by
  obtain ⟨hlast, hscan, hlens, hcurr, hhash, hmiss⟩ := h
  have hle := scanLen_le size curr next
  have hleft : s.left ≤ curr.length := by
    have := segments_sum (rsyncHash rsyncHit pre) 0 curr
    rw [hcurr] at this
    dsimp only at this
    omega
  have htake : (next.take (scanLen size curr next)).length = scanLen size curr next := by
    rw [List.length_take]
    omega
  have hlength : ((next.take (scanLen size curr next)).drop s.scan).length = scanLen size curr next - s.scan := by
    rw [List.length_drop, htake]
  obtain ⟨s', hs', h⟩ := scanBytes_spec ((next.take (scanLen size curr next)).drop s.scan)
    (hlast.le.trans (Nat.zero_le _)) hlens (by rw [hlength]; omega)
  have hfront : (next.take (scanLen size curr next)).take s.scan = next.take s.scan := by
    rw [List.take_take]
    congr 1
    omega
  have hsplit := segments_append (rsyncHash rsyncHit (pre ++ curr)) s.left (next.take s.scan)
    ((next.take (scanLen size curr next)).drop s.scan)
  rw [← hfront, List.take_append_drop, hfront, hmiss, ← rsyncHash_append, ← hhash, List.nil_append] at hsplit
  obtain ⟨hhash', hscan', hlast', hrun, hlens', hmiss', hhit'⟩ := h
  rw [show s.scan - s.last + s.left = s.left + s.scan by omega] at hrun hlens' hmiss' hhit'
  refine ⟨_, _, s', hs', hcurr, hsplit, ?_, ?_, hlast', hrun, hlens', ?_, ?_⟩
  · rw [hhash', hhash, ← rsyncHash_append, List.append_assoc, ← hfront, List.take_append_drop]
  · rw [hscan', hlength]
    omega
  · intro hnone
    rw [hlast] at hmiss'
    exact hmiss' hnone
  · intro hsome
    obtain ⟨hlt', hzero⟩ := hhit' hsome
    exact ⟨by omega, hzero⟩

/-- The input of a job is cut from the bytes at hand, at a hit or when it is full. -/
structure CutOk (size : Nat) (pre curr next : List Byte) (c : Cut) : Prop where
  text : c.input ++ (c.next ++ c.hold.getD []) = curr ++ next
  nonempty : c.input ≠ []
  bounded : c.input.length ≤ size
  lens : ∃ bs, c.lens = some (bs ++ [128#8]) ∧ codedLens (segments (rsyncHash rsyncHit pre) 0 c.input).1 = some bs
  ends : c.next ≠ [] → c.input.length = size ∨ rsyncHash rsyncHit (pre ++ c.input) = rsyncHit
  ahead : Ahead size (pre ++ c.input) c.next c.hold c.scan c.hash c.left
  kept : c.hold = none → curr.length ≤ c.input.length
  held : c.hold ≠ none → c.input.length + c.next.length = curr.length ∧ c.hold = some next ∧ c.next ≠ []
  spaces : next.length ≤ size → c.next.length ≤ size ∧ (c.hold.getD []).length ≤ size

section CutAt

variable {ls lb : List Nat} {left k : Nat} {s : Scan}

/-- No hit at all. -/
theorem cutAt_miss (h : Finished size pre curr next [] [] left k s) (hcurr : curr ≠ []) (hsize : curr.length ≤ size) :
    CutOk size pre curr next (cutAt curr next s (s.lens ++ [128#8])) := by
  obtain ⟨hbefore, hafter, hhash, hscan, hlast, hrun, hlens, hmiss, -⟩ := h
  have hle := scanLen_le size curr next
  have hnil : s.lens = [] := (codedLens_eq_nil hlens).2 rfl
  have hsegments := segments_append (rsyncHash rsyncHit pre) 0 curr (next.take s.scan)
  rw [hbefore, ← rsyncHash_append, hscan, hafter] at hsegments
  rw [cutAt, hnil]
  simp only [List.nil_append, List.length_singleton, if_true, ne_eq, not_true, false_and, if_false]
  split
  · next hpos =>
    constructor
    · simp
    · simp [hcurr]
    · rw [List.length_append, List.length_take]
      omega
    · refine ⟨[], rfl, ?_⟩
      rw [hscan, hsegments]
      rfl
    · intro hnext
      left
      have hlt : s.scan < next.length := by
        have := List.length_pos_iff.2 hnext
        rw [List.length_drop] at this
        omega
      have := scanLen_full (hscan ▸ hlt)
      rw [List.length_append, List.length_take]
      omega
    · refine ⟨rfl, by dsimp only; omega, ?_, by rw [Nat.sub_self]; rfl⟩
      rw [hhash, hscan, Nat.sub_self]
      simp
    · intro _
      rw [List.length_append]
      omega
    · exact fun hne => absurd rfl hne
    · exact fun hn => ⟨by rw [List.length_drop]; omega, Nat.zero_le _⟩
  · next hzero =>
    have hzero : s.scan = 0 := by simpa using hzero
    constructor
    · simp
    · exact hcurr
    · exact hsize
    · refine ⟨[], rfl, ?_⟩
      rw [hbefore]
      rfl
    · intro hnext
      left
      have := List.length_pos_iff.2 hnext
      dsimp only at this ⊢
      have := scanLen_full (show scanLen size curr next < next.length by omega)
      omega
    · refine ⟨rfl, by dsimp only; omega, ?_, ?_⟩
      · rw [hhash, hscan]
      · rw [hzero]
        rfl
    · exact fun _ => Nat.le_refl _
    · exact fun hne => absurd rfl hne
    · exact fun hn => ⟨hn, Nat.zero_le _⟩

theorem lens_length_ne (hlens : codedLens (ls ++ lb) = some s.lens) (hne : ls ++ lb ≠ []) :
    (s.lens ++ [128#8]).length ≠ 1 := by
  have := mt (codedLens_eq_nil hlens).1 hne
  have := List.length_pos_iff.2 this
  rw [List.length_append, List.length_singleton]
  omega

/-- A hit in the next space. -/
theorem cutAt_next (h : Finished size pre curr next ls lb left k s) (hlb : lb ≠ []) (hcurr : curr ≠ [])
    (hsize : curr.length ≤ size) : CutOk size pre curr next (cutAt curr next s (s.lens ++ [128#8])) := by
  obtain ⟨hbefore, hafter, hhash, hscan, hlast, hrun, hlens, -, hhit⟩ := h
  have hle := scanLen_le size curr next
  obtain ⟨hpos, hzero⟩ := hhit hlb
  rw [cutAt, if_neg (lens_length_ne hlens (by simp [hlb])), if_pos (by omega)]
  have htake : (next.take (scanLen size curr next)).length = s.scan := by
    rw [List.length_take]
    omega
  obtain ⟨hk, hfront, hstop, hrest⟩ := segments_last hafter hlb
  rw [htake, show s.scan - k = s.last by omega, List.take_take,
    show min s.last (scanLen size curr next) = s.last by omega] at hfront hstop
  rw [htake, show s.scan - k = s.last by omega, List.drop_take, ← hscan, show s.scan - s.last = k by omega] at hrest
  have hsegments := segments_append (rsyncHash rsyncHit pre) 0 curr (next.take s.last)
  rw [hbefore, ← rsyncHash_append, hfront] at hsegments
  have hend : rsyncHash rsyncHit (pre ++ (curr ++ next.take s.last)) = rsyncHit := by
    rw [← List.append_assoc, rsyncHash_append]
    exact hstop
  constructor
  · simp
  · simp [hcurr]
  · rw [List.length_append, List.length_take]
    omega
  · exact ⟨s.lens, rfl, by rw [hsegments]; exact hlens⟩
  · exact fun _ => .inr hend
  · refine ⟨rfl, ?_, ?_, ?_⟩
    · dsimp only
      rw [List.length_drop]
      omega
    · have hdrop : next.take s.scan = next.take s.last ++ (next.drop s.last).take (s.scan - s.last) := by
        rw [← List.take_add]
        congr 1
        omega
      rw [hhash, ← hscan, hdrop, List.append_assoc, List.append_assoc, List.append_assoc]
    · rw [hend, show s.scan - s.last = k by omega]
      exact hrest
  · intro _
    rw [List.length_append]
    omega
  · exact fun hne => absurd rfl hne
  · exact fun hn => ⟨by rw [List.length_drop]; omega, Nat.zero_le _⟩

/-- The last hit is in the current space. -/
theorem cutAt_curr (h : Finished size pre curr next ls [] left k s) (hls : ls ≠ []) (hcurr : curr ≠ [])
    (hsize : curr.length ≤ size) : CutOk size pre curr next (cutAt curr next s (s.lens ++ [128#8])) := by
  obtain ⟨hbefore, hafter, hhash, hscan, hlast, hrun, hlens, hmiss, -⟩ := h
  have hle := scanLen_le size curr next
  obtain ⟨hzero, hleft⟩ := hmiss rfl
  have hlong := lens_length_ne hlens (by simpa using hls)
  rw [List.append_nil] at hlens
  obtain ⟨hk, hfront, hstop, hrest⟩ := segments_last hbefore hls
  rw [cutAt, if_neg hlong, if_neg (by omega)]
  have hsum := segments_sum (rsyncHash rsyncHit pre) 0 curr
  have hpositive := segments_pos (rsyncHash rsyncHit pre) 0 curr
  rw [hbefore] at hsum hpositive
  have hlt : left < curr.length := by
    obtain ⟨len, rest, rfl⟩ := List.exists_cons_of_ne_nil hls
    have := hpositive len List.mem_cons_self
    have : (len :: rest).sum = len + rest.sum := List.sum_cons
    dsimp only at hsum
    omega
  rw [hleft]
  split
  · next hheld =>
    have hend : rsyncHash rsyncHit (pre ++ curr.take (curr.length - left)) = rsyncHit := by
      rw [rsyncHash_append]
      exact hstop
    have htail : (curr.drop (curr.length - left)).length = left := by
      rw [List.length_drop]
      omega
    constructor
    · rw [Option.getD_some, ← List.append_assoc, List.take_append_drop]
    · intro hnil
      have := congrArg List.length hnil
      rw [List.length_take, List.length_nil] at this
      omega
    · rw [List.length_take]
      omega
    · exact ⟨s.lens, rfl, by rw [hfront]; exact hlens⟩
    · exact fun _ => .inr hend
    · refine ⟨List.length_pos_iff.1 (by omega), htail.symm, hheld.2.1, by dsimp only; omega, by dsimp only; omega,
        by dsimp only; omega, ?_, ?_⟩
      · have hjoin : pre ++ curr.take (curr.length - left) ++ curr.drop (curr.length - left) = pre ++ curr := by
          rw [List.append_assoc, List.take_append_drop]
        dsimp only
        rw [hhash, hscan, hjoin]
      · rw [hend, segments_append, hrest, hscan]
        have hjoin : rsyncHash rsyncHit (curr.drop (curr.length - left)) = rsyncHash rsyncHit (pre ++ curr) := by
          conv_lhs => rw [← hend]
          rw [← rsyncHash_append, List.append_assoc, List.take_append_drop]
        dsimp only
        rw [hjoin, hafter, List.nil_append]
        exact Prod.ext rfl (by dsimp only; omega)
    · exact fun hnone => by cases hnone
    · intro _
      refine ⟨by rw [htail, List.length_take]; omega, rfl, ?_⟩
      apply List.length_pos_iff.1
      rw [htail]
      omega
    · exact fun hn => ⟨by rw [htail]; omega, hn⟩
  · next hkept =>
    have hor : left = 0 ∨ next = [] := by
      by_cases hl : left = 0
      · exact .inl hl
      · right
        apply List.eq_nil_of_length_eq_zero
        by_contra hn
        exact hkept ⟨hlong, hl, hn⟩
    constructor
    · simp
    · exact hcurr
    · exact hsize
    · exact ⟨s.lens, rfl, by rw [hbefore]; exact hlens⟩
    · intro hnext
      right
      have hl := hor.resolve_right hnext
      rw [hl, Nat.sub_zero, List.take_length] at hstop
      rw [rsyncHash_append]
      exact hstop
    · refine ⟨rfl, by dsimp only; omega, ?_, ?_⟩
      · rw [hhash, hscan]
      · rw [hscan]
        rcases hor with hl | hnil
        · rw [hl] at hafter hleft
          rw [hafter]
          exact Prod.ext rfl (by dsimp only; omega)
        · have hnone : scanLen size curr next = 0 := by
            rw [hnil] at hle ⊢
            exact Nat.le_zero.1 hle.1
          rw [hnone]
          rfl
    · exact fun _ => Nat.le_refl _
    · exact fun hne => absurd rfl hne
    · exact fun hn => ⟨hn, Nat.zero_le _⟩

theorem cutAt_hold (h : Finished size pre curr next [] lb left k s) :
    (cutAt curr next s (s.lens ++ [128#8])).hold = none := by
  have hle := scanLen_le size curr next
  by_cases hlb : lb = []
  · subst hlb
    have hnil : s.lens = [] := (codedLens_eq_nil h.lens).2 rfl
    rw [cutAt, hnil]
    simp only [List.nil_append, List.length_singleton, if_true, ne_eq, not_true, false_and, if_false]
    split <;> rfl
  · have hpos := (h.hit hlb).1
    rw [cutAt, if_neg (lens_length_ne h.lens (by simpa using hlb)), if_pos (by omega)]

end CutAt

theorem cutBlocks_spec (hahead : Ahead size pre curr f.hold f.scan f.hash f.left)
    (hnext : ∀ held, f.hold = some held → next = held) (hcurr : curr ≠ []) (hsize : curr.length ≤ size)
    (hlt : size < 4227136) : ∃ c, cutBlocks size f curr next = some c ∧ CutOk size pre curr next c ∧
      (f.hold ≠ none → c.hold = none) := by
  obtain ⟨ls, s, hs, hstarted, hheld⟩ := started hahead hnext hsize hlt
  obtain ⟨lb, k, s', hs', hfinished⟩ := finished hstarted hsize hlt
  refine ⟨cutAt curr next s' (s'.lens ++ [128#8]), by simp only [cutBlocks, hs, hs', appendLen_zero], ?_, ?_⟩
  · by_cases hlb : lb = []
    · subst hlb
      by_cases hls : ls = []
      · subst hls
        exact cutAt_miss hfinished hcurr hsize
      · exact cutAt_curr hfinished hls hcurr hsize
    · exact cutAt_next hfinished hlb hcurr hsize
  · intro hne
    obtain rfl := hheld hne
    exact cutAt_hold hfinished

end Cutting

end Libibtl.Pgz
