import Libibtl.Pgz.Chunking

/-! # The jobs of an input

Turn by turn the main thread makes the jobs: their inputs partition the input of the
program, each with the blocks that the compress thread reads from its list, and each
but the first with the end of what comes before it for a dictionary.
-/

namespace Libibtl.Pgz

open Foundation

/-! ## The dictionaries -/

/-- The last `dictSize` bytes. -/
def window (bs : List Byte) : List Byte := bs.drop (bs.length - dictSize)

theorem window_append_of_le {as bs : List Byte} (h : dictSize ≤ bs.length) : window (as ++ bs) = window bs := by
  have hlen : as.length + bs.length - dictSize - as.length = bs.length - dictSize := by omega
  rw [window, window, List.length_append, List.drop_append, List.drop_eq_nil_of_le (by omega), List.nil_append, hlen]

/-- A dictionary holds the end of what comes before the next job: `dictSize` bytes, or all of it while the spaces of
the first job hold enough more. -/
def DictOk (o : Options) (pre next : List Byte) (hold dict : Option (List Byte)) : Prop :=
  if o.setdict then
    match dict with
    | none => pre = []
    | some d => pre ≠ [] ∧ d <:+ pre ∧
        (dictSize ≤ d.length ∨ d = pre ∧ hold ≠ none ∧ o.size ≤ d.length + next.length)
  else dict = none

section Turn

variable {o : Options} {addr pre next : List Byte} {hold dict : Option (List Byte)}

theorem window_of_suffix {d : List Byte} (hd : d <:+ pre) (hlen : dictSize ≤ d.length) : window d = window pre := by
  obtain ⟨as, rfl⟩ := hd
  exact (window_append_of_le hlen).symm

/-- Every job but the first has the end of what comes before it for a dictionary. -/
theorem DictOk.window (h : DictOk o pre next hold dict) (hset : o.setdict = true) (hpre : pre ≠ []) :
    ∃ d, dict = some d ∧ window d = Pgz.window pre := by
  rw [DictOk.eq_def, if_pos hset] at h
  cases dict with
  | none => exact absurd h hpre
  | some d =>
    obtain ⟨-, hd, hlong | ⟨rfl, -⟩⟩ := h
    · exact ⟨d, rfl, window_of_suffix hd hlong⟩
    · exact ⟨d, rfl, rfl⟩

/-- The copy into the dictionary stays inside the dictionary before. -/
theorem nextDict_spec (h : DictOk o pre next hold dict) {c : Cut} (hsize : dictSize ≤ o.size)
    (hne : c.next ≠ [] → c.input ≠ [])
    (hkept : hold ≠ none → next.length ≤ c.input.length)
    (hfirst : pre = [] → c.next ≠ [] → dictSize ≤ c.input.length ∨
      c.hold ≠ none ∧ o.size ≤ c.input.length + c.next.length) :
    ∃ dict', nextDict o (c.next.length ≠ 0) c.input dict = some dict' ∧
      (c.next ≠ [] → DictOk o (pre ++ c.input) c.next c.hold dict') := by
  rw [DictOk.eq_def] at h
  by_cases hmore : c.next = []
  · exact ⟨dict, by simp [nextDict, hmore], fun hn => absurd hmore hn⟩
  · have hlen : c.next.length ≠ 0 := fun hz => hmore (List.eq_nil_of_length_eq_zero hz)
    have hpre : pre ++ c.input ≠ [] := by simp [hne hmore]
    cases hset : o.setdict with
    | false =>
      rw [hset, if_neg (by simp)] at h
      refine ⟨none, by simp [nextDict, hset, h], fun _ => ?_⟩
      simp [DictOk, hset]
    | true =>
      rw [hset, if_pos rfl] at h
      have hguard : (decide (c.next.length ≠ 0) && o.setdict) = true := by simp [hlen, hset]
      have hcurr : dictSize ≤ c.input.length → DictOk o (pre ++ c.input) c.next c.hold (some c.input) := by
        intro hlong
        rw [DictOk, if_pos hset]
        exact ⟨hpre, List.suffix_append _ _, .inl hlong⟩
      cases dict with
      | none =>
        refine ⟨some c.input, by simp only [nextDict, hguard, if_true], fun _ => ?_⟩
        rcases hfirst h hmore with hlong | ⟨hheld, hroom⟩
        · exact hcurr hlong
        · rw [DictOk, if_pos hset]
          exact ⟨hpre, List.suffix_append _ _, .inr ⟨by rw [h, List.nil_append], hheld, hroom⟩⟩
      | some d =>
        obtain ⟨hpre', hd, hlong⟩ := h
        by_cases hc : dictSize ≤ c.input.length
        · exact ⟨some c.input, by simp only [nextDict, hguard, if_true, if_pos hc], fun _ => hcurr hc⟩
        · have hroom : dictSize - c.input.length ≤ d.length := by
            rcases hlong with hlong | ⟨-, hheld, hroom⟩
            · omega
            · have := hkept hheld
              omega
          refine ⟨some (d.drop (d.length - (dictSize - c.input.length)) ++ c.input),
            by simp only [nextDict, hguard, if_true, if_neg hc, if_pos hroom], fun _ => ?_⟩
          rw [DictOk, if_pos hset]
          refine ⟨hpre, ?_, .inl ?_⟩
          · obtain ⟨as, rfl⟩ := hd
            refine ⟨as ++ d.take (d.length - (dictSize - c.input.length)), ?_⟩
            rw [List.append_assoc, ← List.append_assoc (d.take _), List.take_append_drop, ← List.append_assoc]
          · rw [List.length_append, List.length_drop]
            omega

/-- The options that `pigz` accepts. -/
structure Options.Ok (o : Options) : Prop where
  large : dictSize ≤ o.size
  small : o.size ≤ 2 ^ 22

/-- The state between two turns, when the jobs before have taken `pre` of the input. -/
structure Fed (o : Options) (addr pre : List Byte) (f : Feed) : Prop where
  text : pre ++ (f.next ++ (f.hold.getD [] ++ addr.drop f.offset)) = addr
  offset : f.offset ≤ addr.length
  nextSize : f.next.length ≤ o.size
  holdSize : (f.hold.getD []).length ≤ o.size
  holdFull : f.hold ≠ none → (f.hold.getD []).length = o.size ∨ f.offset = addr.length
  first : pre = [] → f.hold = none ∧ (f.next.length = o.size ∨ f.offset = addr.length)
  plain : o.rsync = false → f.hold = none ∧ (f.next.length = o.size ∨ f.offset = addr.length)
  ahead : o.rsync = true → Ahead o.size pre f.next f.hold f.scan f.hash f.left
  dict : DictOk o pre f.next f.hold f.dict

theorem readn2_spec {offset : Nat} (len : Nat) (h : offset ≤ addr.length) :
    (readn2 addr offset len).1 ++ addr.drop (readn2 addr offset len).2 = addr.drop offset ∧
      (readn2 addr offset len).2 ≤ addr.length ∧ (readn2 addr offset len).1.length ≤ len ∧
      ((readn2 addr offset len).1.length = len ∨ (readn2 addr offset len).2 = addr.length) := by
  rw [readn2]
  split
  · next hend =>
    refine ⟨by simp, h, Nat.zero_le _, .inr hend⟩
  · next hne =>
    by_cases hlt : addr.length < offset + len
    · simp only [hlt, if_true]
      have hall : addr.length ≤ offset + (addr.length - offset) := by omega
      refine ⟨?_, by omega, ?_, .inr (by omega)⟩
      · rw [List.take_of_length_le (by rw [List.length_drop]), List.drop_eq_nil_of_le hall, List.append_nil]
      · rw [List.length_take, List.length_drop]
        omega
    · simp only [hlt, if_false]
      refine ⟨?_, by omega, ?_, .inl ?_⟩
      · rw [← List.drop_drop, List.take_append_drop]
      · rw [List.length_take]
        omega
      · rw [List.length_take, List.length_drop]
        omega

theorem Fed.init (o : Options) (addr : List Byte) : Fed o addr [] (Feed.init o addr) := by
  obtain ⟨htext, hoffset, hsize, hfull⟩ := readn2_spec o.size (Nat.zero_le addr.length)
  constructor
  · exact htext
  · exact hoffset
  · exact hsize
  · exact Nat.zero_le _
  · exact fun hne => absurd rfl hne
  · exact fun _ => ⟨rfl, hfull⟩
  · exact fun _ => ⟨rfl, hfull⟩
  · intro _
    refine ⟨rfl, Nat.zero_le _, ?_, rfl⟩
    simp [Feed.init, rsyncHash]
  · rw [DictOk.eq_def]
    split <;> rfl

/-- The blocks of `input` when the hash before it is `hash`: they end where it hits, and with the input. -/
def hitBlocks (hash : UInt32T) (input : List Byte) : List Nat :=
  if (segments hash 0 input).1.sum = input.length ∧ input ≠ [] then (segments hash 0 input).1
  else (segments hash 0 input).1 ++ [input.length - (segments hash 0 input).1.sum]

/-- The job that follows `pre`. -/
structure JobOk (o : Options) (pre : List Byte) (job : Job) : Prop where
  bounded : job.input.length ≤ o.size
  nonempty : job.input = [] → pre = [] ∧ job.more = false
  blocks : blocks job.lens job.input.length =
    some (if o.rsync then hitBlocks (rsyncHash rsyncHit pre) job.input else [job.input.length])
  ends : job.more = true → job.input.length = o.size ∨
    o.rsync = true ∧ rsyncHash rsyncHit (pre ++ job.input) = rsyncHit
  first : pre = [] → job.dict = none
  later : pre ≠ [] → if o.setdict then ∃ d, job.dict = some d ∧ Pgz.window d = Pgz.window pre else job.dict = none

section

variable {f : Feed}

theorem following_spec (h : Fed o addr pre f) :
    (f.following o addr).1 ++ addr.drop (f.following o addr).2 = f.hold.getD [] ++ addr.drop f.offset ∧
      (f.following o addr).2 ≤ addr.length ∧ (f.following o addr).1.length ≤ o.size := by
  have hsize := h.holdSize
  rw [Feed.following]
  cases hhold : f.hold with
  | none =>
    obtain ⟨htext, hoffset, hlen, -⟩ := readn2_spec o.size h.offset
    exact ⟨htext, hoffset, hlen⟩
  | some held =>
    rw [hhold] at hsize
    exact ⟨rfl, h.offset, hsize⟩

theorem following_none (h : Fed o addr pre f) (hhold : f.hold = none) :
    (f.following o addr).1.length = o.size ∨ (f.following o addr).2 = addr.length := by
  rw [Feed.following, hhold]
  exact (readn2_spec o.size h.offset).2.2.2

theorem following_end (hhold : f.hold = none) (hend : f.offset = addr.length) :
    (f.following o addr).1 = [] := by
  rw [Feed.following, hhold]
  simp [readn2, hend]

/-- The cut of a turn, with blocks or without. -/
structure CutTurn (o : Options) (pre curr next : List Byte) (f : Feed) (c : Cut) : Prop where
  text : c.input ++ (c.next ++ c.hold.getD []) = curr ++ next
  bounded : c.input.length ≤ o.size
  blocks : blocks c.lens c.input.length =
    some (if o.rsync then hitBlocks (rsyncHash rsyncHit pre) c.input else [c.input.length])
  nonempty : curr ≠ [] → c.input ≠ []
  ends : o.rsync = true → c.next ≠ [] → curr ≠ [] →
    c.input.length = o.size ∨ rsyncHash rsyncHit (pre ++ c.input) = rsyncHit
  ahead : o.rsync = true → curr ≠ [] → Ahead o.size (pre ++ c.input) c.next c.hold c.scan c.hash c.left
  kept : c.hold = none → curr.length ≤ c.input.length
  held : c.hold ≠ none →
    c.input.length + c.next.length = curr.length ∧ c.hold = some next ∧ next ≠ [] ∧ c.next ≠ [] ∧ f.hold = none
  spaces : next.length ≤ o.size → c.next.length ≤ o.size ∧ (c.hold.getD []).length ≤ o.size
  plain : o.rsync = false → c.hold = none ∧ c.next = next ∧ c.input = curr

theorem blocks_hit {hash : UInt32T} {input bs : List Byte} (hne : input ≠ [])
    (hcoded : codedLens (segments hash 0 input).1 = some bs) :
    blocks (some (bs ++ [128#8])) input.length = some (hitBlocks hash input) := by
  have hsum := segments_sum hash 0 input
  have hblocks := blocks_coded hcoded (segments_pos hash 0 input) (List.length_pos_iff.2 hne)
    (show (segments hash 0 input).1.sum ≤ input.length by omega)
  rw [hblocks, hitBlocks]
  simp [hne]

theorem cut_spec (ho : o.Ok) (h : Fed o addr pre f) :
    ∃ c, f.cut o f.next (f.following o addr).1 = some c ∧ CutTurn o pre f.next (f.following o addr).1 f c := by
  have hsmall : o.size < 4227136 := by
    have := ho.small
    omega
  rw [Feed.cut]
  by_cases hguard : (o.rsync && f.next.length ≠ 0) = true
  · rw [if_pos hguard]
    obtain ⟨hrsync, hlen⟩ := Bool.and_eq_true_iff.1 hguard
    have hcurr : f.next ≠ [] := by
      rintro hnil
      simp [hnil] at hlen
    have hheld : ∀ held, f.hold = some held → (f.following o addr).1 = held := by
      intro held hheld
      rw [Feed.following, hheld]
    obtain ⟨c, hc, hok, honce⟩ := cutBlocks_spec (h.ahead hrsync) hheld hcurr h.nextSize hsmall
    obtain ⟨bs, hlens, hcoded⟩ := hok.lens
    refine ⟨c, hc, hok.text, hok.bounded, ?_, fun _ => hok.nonempty, fun _ hn _ => hok.ends hn, fun _ _ => hok.ahead,
      hok.kept, ?_, hok.spaces, fun hn => ?_⟩
    · rw [hlens, blocks_hit hok.nonempty hcoded, if_pos hrsync]
    · intro hn
      obtain ⟨hlength, hh, hne⟩ := hok.held hn
      refine ⟨hlength, hh, ?_, hne, ?_⟩
      · have hahead := hok.ahead
        rw [hh] at hahead
        exact hahead.1
      · by_contra hf
        exact hn (honce hf)
    · rw [hrsync] at hn
      cases hn
  · rw [if_neg hguard]
    have hplain : o.rsync = true → f.next = [] := by
      intro hrsync
      by_contra hne
      exact hguard (by simp [hrsync, hne])
    refine ⟨_, rfl, by simp, h.nextSize, ?_, id, fun hr _ hn => absurd (hplain hr) hn,
      fun hr hn => absurd (hplain hr) hn, fun _ => Nat.le_refl _, fun hn => absurd rfl hn,
      fun hn => ⟨hn, Nat.zero_le _⟩, fun _ => ⟨rfl, rfl, rfl⟩⟩
    rw [blocks_none]
    cases hr : o.rsync with
    | false => rfl
    | true =>
      rw [hplain hr]
      rfl

/-- One turn makes the next job. -/
theorem turn_spec (ho : o.Ok) (h : Fed o addr pre f) (hnext : pre ≠ [] → f.next ≠ []) :
    ∃ job f', turn o addr f = some (job, f') ∧ JobOk o pre job ∧ job.seq = f.seq ∧ f'.seq = f.seq + 1 ∧
      (job.more = true → f'.next ≠ [] ∧ job.input ≠ [] ∧ Fed o addr (pre ++ job.input) f') ∧
      (job.more = false → pre ++ job.input = addr ∧ f'.hold = none) := by
  obtain ⟨c, hc, hcut⟩ := cut_spec ho h
  obtain ⟨hfollow, hoffset, hsize⟩ := following_spec h
  have hlarge := ho.large
  have hpos : 0 < dictSize := by decide
  -- nothing follows an input that ends in the first space
  have hlast : f.next = [] → c.next = [] ∧ pre = [] := by
    intro hnil
    have hpre : pre = [] := by
      by_contra hne
      exact hnext hne hnil
    obtain ⟨hhold, hfull⟩ := h.first hpre
    have hend : f.offset = addr.length := by
      rcases hfull with hfull | hend
      · rw [hnil, List.length_nil] at hfull
        omega
      · exact hend
    have htext := hcut.text
    rw [hnil, following_end hhold hend, List.append_nil] at htext
    have := List.append_eq_nil_iff.1 (List.append_eq_nil_iff.1 htext).2
    exact ⟨this.1, hpre⟩
  have hkept : f.hold ≠ none → f.next.length ≤ c.input.length := by
    intro hheld
    apply hcut.kept
    by_contra hc'
    exact hheld (hcut.held hc').2.2.2.2
  have hfirst : pre = [] → c.next ≠ [] → dictSize ≤ c.input.length ∨
      c.hold ≠ none ∧ o.size ≤ c.input.length + c.next.length := by
    intro hpre hmore
    obtain ⟨hhold, hfull⟩ := h.first hpre
    rcases hfull with hfull | hend
    · by_cases hc' : c.hold = none
      · have := hcut.kept hc'
        exact .inl (by omega)
      · have := (hcut.held hc').1
        exact .inr ⟨hc', by omega⟩
    · have htext := congrArg List.length hcut.text
      rw [following_end hhold hend] at htext
      simp only [List.length_append, List.length_nil, Nat.add_zero] at htext
      have hmorepos := List.length_pos_iff.2 hmore
      by_cases hc' : c.hold = none
      · have := hcut.kept hc'
        omega
      · exact absurd (following_end hhold hend) (hcut.held hc').2.2.1
  have hinput : c.next ≠ [] → c.input ≠ [] := fun hmore => hcut.nonempty fun hnil => hmore (hlast hnil).1
  obtain ⟨dict, hdict, hdictOk⟩ := nextDict_spec h.dict hlarge hinput hkept hfirst
  have htext : pre ++ c.input ++ (c.next ++ (c.hold.getD [] ++ addr.drop (f.following o addr).2)) = addr := by
    conv_rhs => rw [← h.text, ← hfollow, ← List.append_assoc f.next, ← hcut.text]
    simp only [List.append_assoc]
  have hmore : ∀ {p : Prop}, ((decide (c.next.length ≠ 0)) = true → c.next ≠ [] → p) →
      (decide (c.next.length ≠ 0)) = true → p := by
    intro p hp hlen
    refine hp hlen ?_
    rintro hnil
    simp [hnil] at hlen
  refine ⟨⟨f.seq, decide (c.next.length ≠ 0), c.input, f.dict, c.lens⟩,
    ⟨(f.following o addr).2, f.seq + 1, c.next, c.hold, dict, c.scan, c.hash, c.left⟩,
    by simp only [turn, hc, hdict], ?_, rfl, rfl, ?_, ?_⟩
  · constructor
    · exact hcut.bounded
    · intro hnil
      have hcurr : f.next = [] := by
        by_contra hne
        exact hcut.nonempty hne hnil
      obtain ⟨hnone, hpre⟩ := hlast hcurr
      exact ⟨hpre, by simp [hnone]⟩
    · exact hcut.blocks
    · apply hmore
      intro _ hn
      have hcurr : f.next ≠ [] := fun hnil => hn (hlast hnil).1
      cases hr : o.rsync with
      | true => exact (hcut.ends hr hn hcurr).imp_right fun hhit => ⟨rfl, hhit⟩
      | false =>
        left
        obtain ⟨-, hnext', hinput'⟩ := hcut.plain hr
        obtain ⟨hhold, hfull⟩ := h.plain hr
        rcases hfull with hfull | hend
        · rw [hinput']
          exact hfull
        · exact absurd (hnext'.trans (following_end hhold hend)) hn
    · intro hpre
      have hd := h.dict
      rw [DictOk.eq_def] at hd
      cases hf : f.dict with
      | none => rfl
      | some d =>
        rw [hf] at hd
        split at hd
        · exact absurd hpre hd.1
        · cases hd
    · intro hpre
      split
      · next hset => exact h.dict.window hset hpre
      · next hset =>
        have hd := h.dict
        rw [DictOk.eq_def, if_neg hset] at hd
        exact hd
  · apply hmore
    intro _ hn
    refine ⟨hn, hinput hn, ?_⟩
    have hcurr : f.next ≠ [] := fun hnil => hn (hlast hnil).1
    have hpre : pre ++ c.input ≠ [] := by simp [hinput hn]
    have hspaces := hcut.spaces hsize
    constructor
    · exact htext
    · exact hoffset
    · exact hspaces.1
    · exact hspaces.2
    · intro hheld
      obtain ⟨-, hsome, -, -, hnone⟩ := hcut.held hheld
      dsimp only
      rw [hsome]
      exact following_none h hnone
    · exact fun hnil => absurd hnil hpre
    · intro hr
      obtain ⟨hhold, hnext', -⟩ := hcut.plain hr
      refine ⟨hhold, ?_⟩
      rw [hnext']
      exact following_none h (h.plain hr).1
    · exact fun hr => hcut.ahead hr hcurr
    · exact hdictOk hn
  · intro hlen
    have hnil : c.next = [] := by simpa using hlen
    have hhold : c.hold = none := by
      by_contra hheld
      exact (hcut.held hheld).2.2.2.1 hnil
    have hall := hcut.text
    rw [hnil, hhold] at htext hall
    have hend : (f.following o addr).2 = addr.length := by
      have hfull : (f.following o addr).1.length = o.size ∨ (f.following o addr).2 = addr.length := by
        by_cases hf : f.hold = none
        · exact following_none h hf
        · have := h.holdFull hf
          obtain ⟨held, hh⟩ := Option.ne_none_iff_exists'.1 hf
          rw [hh] at this
          rw [Feed.following, hh]
          exact this
      rcases hfull with hfull | hend
      · have hlength := congrArg List.length hall
        have := hcut.bounded
        simp only [List.length_append, Option.getD_none, List.length_nil] at hlength
        have hcurr : f.next = [] := List.eq_nil_of_length_eq_zero (by omega)
        obtain ⟨hf, hfirst' | hend⟩ := h.first (hlast hcurr).2
        · rw [hcurr, List.length_nil] at hfirst'
          omega
        · rw [following_end hf hend, List.length_nil] at hfull
          omega
      · exact hend
    rw [hend, List.drop_length] at htext
    exact ⟨by simpa using htext, hhold⟩

end

end Turn

/-! ## All jobs -/

/-- What the jobs before a job have taken, and the job itself. -/
def Chunked (o : Options) : List Byte → Nat → List Job → Prop
  | _, _, [] => False
  | pre, seq, [job] => JobOk o pre job ∧ job.seq = seq ∧ job.more = false
  | pre, seq, job :: jobs => JobOk o pre job ∧ job.seq = seq ∧ job.more = true ∧ Chunked o (pre ++ job.input) (seq + 1) jobs

theorem feedLoop_spec {o : Options} {addr pre : List Byte} {f : Feed} (ho : o.Ok) (h : Fed o addr pre f)
    (hnext : pre ≠ [] → f.next ≠ []) {n : Nat} (hn : addr.length < n + pre.length) :
    ∃ jobs, feedLoop o addr n f = some jobs ∧ Chunked o pre f.seq jobs ∧ pre ++ jobs.flatMap Job.input = addr := by
  induction n generalizing pre f with
  | zero =>
    have := congrArg List.length h.text
    simp only [List.length_append] at this
    omega
  | succ n ih =>
    obtain ⟨job, f', hturn, hjob, hseq, hseq', hmore, hlast⟩ := turn_spec ho h hnext
    rw [feedLoop, hturn]
    cases hm : job.more with
    | false =>
      refine ⟨[job], by simp [hm], ⟨hjob, hseq, hm⟩, ?_⟩
      simpa using (hlast hm).1
    | true =>
      obtain ⟨hn', hinput, hfed⟩ := hmore hm
      have := List.length_pos_iff.2 hinput
      obtain ⟨jobs, hjobs, hchunked, htext⟩ := ih hfed (fun _ => hn') (by rw [List.length_append]; omega)
      refine ⟨job :: jobs, by simp [hm, hjobs], ?_, ?_⟩
      · cases jobs with
        | nil => exact absurd hchunked id
        | cons job' jobs => exact ⟨hjob, hseq, hm, hseq' ▸ hchunked⟩
      · rw [List.flatMap_cons, ← List.append_assoc]
        exact htext

theorem feed_spec {o : Options} (ho : o.Ok) (addr : List Byte) :
    ∃ jobs, feed o addr = some jobs ∧ Chunked o [] 0 jobs ∧ jobs.flatMap Job.input = addr := by
  obtain ⟨jobs, hjobs, hchunked, htext⟩ := feedLoop_spec ho (Fed.init o addr) (fun hne => absurd rfl hne)
    (n := addr.length + 1) (by rw [List.length_nil]; omega)
  exact ⟨jobs, hjobs, hchunked, by simpa using htext⟩

theorem Chunked.job {o : Options} {pre : List Byte} {seq : Nat} {jobs before after : List Job} {job : Job}
    (h : Chunked o pre seq jobs) (hjobs : jobs = before ++ job :: after) :
    JobOk o (pre ++ before.flatMap Job.input) job ∧ job.seq = seq + before.length ∧ (job.more = true ↔ after ≠ []) := by
  induction before generalizing pre seq jobs with
  | nil =>
    subst hjobs
    rw [List.flatMap_nil, List.append_nil, List.length_nil, Nat.add_zero]
    cases after with
    | nil => exact ⟨h.1, h.2.1, by simp [h.2.2]⟩
    | cons job' after => exact ⟨h.1, h.2.1, by simp [h.2.2.1]⟩
  | cons first before ih =>
    subst hjobs
    have hne : ∃ job' rest, before ++ job :: after = job' :: rest := by
      cases before with
      | nil => exact ⟨_, _, rfl⟩
      | cons job' before => exact ⟨_, _, rfl⟩
    obtain ⟨job', rest, hrest⟩ := hne
    rw [List.cons_append, hrest] at h
    obtain ⟨-, -, -, hchunked⟩ := h
    have := ih hchunked hrest.symm
    rw [List.flatMap_cons, ← List.append_assoc, List.length_cons]
    refine ⟨this.1, ?_, this.2.2⟩
    rw [this.2.1]
    omega

/-- The jobs of `parallel_compress2` partition its input. No assertion fails on the way, and no copy leaves a space. -/
theorem feed_partition {o : Options} (ho : o.Ok) (addr : List Byte) :
    ∃ jobs, feed o addr = some jobs ∧ jobs.flatMap Job.input = addr ∧
      ∀ before job after, jobs = before ++ job :: after →
        JobOk o (before.flatMap Job.input) job ∧ job.seq = before.length ∧ (job.more = true ↔ after ≠ []) := by
  obtain ⟨jobs, hjobs, hchunked, htext⟩ := feed_spec ho addr
  refine ⟨jobs, hjobs, htext, fun before job after hsplit => ?_⟩
  have := hchunked.job hsplit
  rw [List.nil_append, Nat.zero_add] at this
  exact this

/-- Seven bytes, with a hit after five. -/
def hitBytes : List Byte := [0x80, 0, 0, 0, 0x1f, 1, 2]

theorem feed_partition_hit : ∃ jobs, feed ⟨32768, true, true⟩ hitBytes = some jobs ∧
    jobs.map (fun job => blocks job.lens job.input.length) = [some [5, 2]] ∧ jobs.flatMap Job.input = hitBytes := by
  obtain ⟨jobs, hjobs, htext, -⟩ := feed_partition (o := ⟨32768, true, true⟩) ⟨by decide, by decide⟩ hitBytes
  refine ⟨jobs, hjobs, ?_, htext⟩
  have heval : (feed ⟨32768, true, true⟩ hitBytes).map
      (fun jobs => jobs.map fun job => blocks job.lens job.input.length) = some [some [5, 2]] := by decide +kernel
  rw [hjobs] at heval
  exact Option.some.inj heval

end Libibtl.Pgz
