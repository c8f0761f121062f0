import Libibtl.Pgz.PipelineFlow

/-! # What the write thread writes

Behind each job the output decodes to the input as far as this job, and the sums of the
write thread are those of this much input and output.
-/

namespace Libibtl.Pgz

open Foundation CheckLib

/-- The input of the first `n` jobs. -/
def textTo (plan : List Job) (n : Nat) : List Byte := (plan.take n).flatMap Job.input

theorem textTo_succ {plan : List Job} {n : Nat} {job : Job} (h : plan[n]? = some job) :
    textTo plan (n + 1) = textTo plan n ++ job.input := by
  rw [textTo, textTo, List.take_add_one, h, List.flatMap_append]
  exact congrArg _ (List.append_nil _)

/-- A compressed file with the text `text`, where `a` is what is between the header and the trailer. -/
def Program.file (P : Program) (text a : List Byte) : List Byte :=
  P.header.putHeader ++ a ++ P.header.putTrailer (BitVec.ofNat 64 text.length) (BitVec.ofNat 64 a.length)
    (P.lib.check P.header.form (checkInit P.header.form) text) P.header.headerLen

section Output

variable (P : Program) (plan : List Job) (before : List Byte)

/-- The compressed bytes of the first `n` jobs are in the output, and the sums are theirs. -/
def Written (output : List Byte) (n : Nat) (last : Bool) (v : Sums) : Prop :=
  ∃ a, output = before ++ (P.header.putHeader ++ a) ∧ P.codec.decodes [] a (textTo plan n) last ∧
    v.head = P.header.headerLen ∧ v.ulen = BitVec.ofNat 64 (textTo plan n).length ∧ v.clen = BitVec.ofNat 64 a.length

/-- The check value of the first `n` jobs. -/
def Checked (n : Nat) (v : Sums) : Prop := v.check = P.lib.check P.header.form (checkInit P.header.form) (textTo plan n)

/-- What the write thread has written. -/
def Writer.Wrote (output : List Byte) : Writer → Prop
  | .header => output = before
  | .wait v => v.seq < plan.length ∧ Written P plan before output v.seq false v ∧ Checked P plan v.seq v
  | .took v cell => cell.seq = v.seq ∧ Written P plan before output v.seq false v ∧ Checked P plan v.seq v
  | .wrote v cell _ => cell.seq = v.seq ∧ Written P plan before output (v.seq + 1) (!cell.more) v ∧ Checked P plan v.seq v
  | .dropped v more len => ∃ job, plan[v.seq]? = some job ∧ more = job.more ∧ len = job.input.length ∧
      Written P plan before output (v.seq + 1) (!more) v ∧ Checked P plan v.seq v
  | .trailer v => Written P plan before output plan.length true v ∧ Checked P plan plan.length v
  | _ => ∃ a, output = before ++ P.file (textTo plan plan.length) a ∧ P.codec.decodes [] a (textTo plan plan.length) true

variable {P plan before} {addr : List Byte} {σ σ' : State P.codec.Stream}

/-- The write thread with the first job that it takes. -/
theorem writer_pass (hp : Planned P addr plan) (hw : σ.writer.Wrote P plan before σ.output) (v : Sums) (more : Bool)
    (len : Nat) (hwriter : σ.writer = .dropped v more len) : (more = true ↔ v.seq + 1 < plan.length) ∧ v.seq < plan.length := by
  rw [hwriter] at hw
  obtain ⟨job, hjob, rfl, -⟩ := hw
  exact ⟨(hp.jobs hjob).2, (List.getElem?_eq_some_iff.1 hjob).1⟩

/-- What a step of the write thread needs beyond its buffers: it waits for the next job, or for its check value. -/
theorem writer_step (hp : Planned P addr plan) (h : Memory P plan addr σ) (ho : Order plan.length σ)
    (hc : Checks P plan σ) (ht : Threads P σ) (hw : σ.writer.Wrote P plan before σ.output) :
    (∃ σ', σ.writerStep P = .done σ' ∧ Memory P plan addr σ' ∧ σ'.writer.Wrote P plan before σ'.output) ∨
      σ.writerStep P = .wait ∧ ((∃ v, σ.writer = .wait v ∧ σ.writeFirst ≠ v.seq) ∨
        (∃ v more len, σ.writer = .dropped v more len ∧ σ.checks v.seq = none) ∨ σ.writer = .exited) := by
  cases hwriter : σ.writer with
  | header =>
    rw [hwriter] at hw
    left
    simp only [State.writerStep, hwriter]
    refine ⟨_, rfl, writer_move (w := .wait _) h (by rw [hwriter]; rfl) rfl trivial _ _, hp.pos, ⟨[], ?_, ?_⟩, ?_⟩
    · rw [show σ.output = before from hw, List.append_nil]
    · exact ⟨P.codec.decodes_nil [], rfl, rfl, rfl⟩
    · exact (check_nil (z := P.lib)).symm
  | wait v =>
    rw [hwriter] at hw
    obtain ⟨hlt, hwritten, hchecked⟩ := hw
    by_cases hfirst : σ.writeFirst = v.seq
    · left
      cases hwrite : σ.write with
      | nil =>
        rw [ho.first, hwrite] at hfirst
        simp only [firstSeq] at hfirst
        omega
      | cons job rest =>
        have hseq : job.seq = v.seq := Int.ofNat.inj ((ho.head hwrite).symm.trans hfirst)
        refine ⟨_, ?_, writer_wait h hwriter hwrite, hseq, hwritten, hchecked⟩
        simp only [State.writerStep, hwriter, if_pos hfirst, hwrite]
    · right
      refine ⟨?_, .inl ⟨v, rfl, hfirst⟩⟩
      simp only [State.writerStep, hwriter, if_neg hfirst]
  | took v cell =>
    rw [hwriter] at hw
    obtain ⟨hseq, ⟨a, hout, hdecodes, hhead, hulen, hclen⟩, hchecked⟩ := hw
    obtain ⟨job, out, heap, hjob, hmore, hcoded, hstep, hmem⟩ := writer_took h hwriter
    left
    refine ⟨_, hstep, hmem, hseq, ⟨a ++ out, ?_, ?_, hhead, ?_, ?_⟩, hchecked⟩
    · rw [hout]
      simp only [List.append_assoc]
    · dsimp only
      rw [hseq] at hjob
      rw [textTo_succ hjob, hmore]
      apply P.codec.decodes_append hdecodes
      rw [List.nil_append]
      exact (hp.jobs hjob).1.decodes P.codec hcoded
    · dsimp only
      rw [hseq] at hjob
      rw [textTo_succ hjob, hulen, List.length_append, BitVec.ofNat_add]
    · dsimp only
      rw [hclen, List.length_append, BitVec.ofNat_add]
  | wrote v cell len =>
    rw [hwriter] at hw
    obtain ⟨hseq, hwritten, hchecked⟩ := hw
    have hholds := h.contents.writer
    rw [hwriter] at hholds
    obtain ⟨job, hjob, hmore, -, hlen, -⟩ := hholds
    obtain ⟨heap, hstep, hmem⟩ := writer_wrote h hwriter
    left
    exact ⟨_, hstep, hmem, job, hseq ▸ hjob, hmore, hlen, hwritten, hchecked⟩
  | dropped v more len =>
    have hpass := writer_pass hp hw v more len hwriter
    rw [hwriter] at hw
    obtain ⟨job, hjob, hmore, rfl, hwritten, hchecked⟩ := hw
    cases hcheck : σ.checks v.seq with
    | none =>
      right
      refine ⟨?_, .inr (.inl ⟨v, more, _, rfl, hcheck⟩)⟩
      simp only [State.writerStep, hwriter, hcheck]
    | some check =>
      obtain ⟨-, job', hjob', rfl⟩ := hc.checks _ _ hcheck
      obtain rfl : job = job' := Option.some.inj (hjob.symm.trans hjob')
      have hshort : job.input.length < 2 ^ 64 :=
        Nat.lt_of_le_of_lt ((hp.jobs hjob).1.bounded.trans hp.ok.small) (by decide)
      have hsum : comb P.header.form v.check (P.lib.jobCheck P.header.form job.input) (BitVec.ofNat 64 job.input.length) =
          P.lib.check P.header.form (checkInit P.header.form) (textTo plan (v.seq + 1)) := by
        rw [show v.check = _ from hchecked, textTo_succ hjob]
        exact combineJob_eq _ _ hshort
      left
      simp only [State.writerStep, hwriter, hcheck]
      refine ⟨_, rfl, ?_, ?_⟩
      · apply writer_move h (by rw [hwriter]; rfl)
        · cases more <;> rfl
        · cases more <;> trivial
      · cases more with
        | true => exact ⟨hpass.1.1 rfl, hwritten, hsum⟩
        | false =>
          have hlast : ¬ v.seq + 1 < plan.length := fun hlt => Bool.false_ne_true (hpass.1.2 hlt)
          have hn : plan.length = v.seq + 1 := by
            have := hpass.2
            omega
          change Written P plan before σ.output plan.length true _ ∧ Checked P plan plan.length _
          rw [hn]
          exact ⟨hwritten, hsum⟩
  | trailer v =>
    rw [hwriter] at hw
    obtain ⟨⟨a, hout, hdecodes, hhead, hulen, hclen⟩, hchecked⟩ := hw
    left
    simp only [State.writerStep, hwriter]
    refine ⟨_, rfl, writer_move (w := .verify) h (by rw [hwriter]; rfl) rfl trivial _ _, a, ?_, hdecodes⟩
    dsimp only
    rw [hout, hhead, hulen, hclen, show v.check = _ from hchecked, Program.file]
    simp only [List.append_assoc]
  | verify =>
    rw [hwriter] at hw
    have hnil := ho.taken (by rw [hwriter]; rfl)
    have hcompress := (pending_nil hnil.1).1
    have hwaiting := ho.waiting
    have hstop : σ.stop = false := by
      cases hs : σ.stop with
      | false => rfl
      | true =>
        have hexited := ht.joined (stopped_joined (ht.stop.symm.trans hs))
        rw [hwriter] at hexited
        cases hexited
    rw [hcompress, hstop] at hwaiting
    left
    simp only [State.writerStep, hwriter]
    rw [if_pos ⟨hcompress, hwaiting⟩]
    exact ⟨_, rfl, writer_move (w := .verified) h (by rw [hwriter]; rfl) rfl trivial _ _, hw⟩
  | verified =>
    rw [hwriter] at hw
    have hnil := ho.taken (by rw [hwriter]; rfl)
    left
    simp only [State.writerStep, hwriter]
    rw [if_pos hnil.2]
    exact ⟨_, rfl, writer_move (w := .exited) h (by rw [hwriter]; rfl) rfl trivial _ _, hw⟩
  | exited => exact .inr ⟨by rw [State.writerStep, hwriter], .inr (.inr rfl)⟩

end Output

end Libibtl.Pgz
