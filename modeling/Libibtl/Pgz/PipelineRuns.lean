import Libibtl.Pgz.PipelineOutput

/-! # The runs of the compressor

One invariant holds in every state of a call of `parallel_compress2`, whatever the order
of the threads. No assertion fails in such a state, and there is always a thread that
does not wait.
-/

namespace Libibtl.Pgz

open Foundation CheckLib

/-- What holds in every state of a call. -/
structure Good (P : Program) (addr : List Byte) (plan : List Job) (before : List Byte) (σ : State P.codec.Stream) :
    Prop where
  memory : Memory P plan addr σ
  order : Order plan.length σ
  checks : Checks P plan σ
  threads : Threads P σ
  wrote : σ.writer.Wrote P plan before σ.output

section Good

variable {P : Program} {plan : List Job} {addr before bytes : List Byte} {σ σ' : State P.codec.Stream}
  {i : Nat} {w w' : Worker P.codec.Stream} {strm' : P.codec.Stream}

theorem refs_of_unchecked {S : Type} {w : Worker S} (h : w.unchecked = []) : w.refs = [] ∧ w.carried = [] := by
  cases w with
  | idle => exact ⟨rfl, rfl⟩
  | exited => exact ⟨rfl, rfl⟩
  | got => cases h
  | fresh => cases h
  | compressed => cases h
  | released => cases h
  | reserved => cases h
  | listed => cases h
  | checked => cases h

theorem refs_of_workers {S : Type} {ws : List (Worker S)} (h : ws.flatMap Worker.unchecked = []) :
    ws.flatMap Worker.refs = [] ∧ ws.flatMap Worker.carried = [] := by
  rw [List.flatMap_eq_nil_iff] at h
  constructor
  · exact List.flatMap_eq_nil_iff.2 fun w hw => (refs_of_unchecked (h w hw)).1
  · exact List.flatMap_eq_nil_iff.2 fun w hw => (refs_of_unchecked (h w hw)).2

/-- Behind the write thread nothing is left of the jobs. -/
theorem Good.quiet (h : Good P addr plan before σ) (hw : σ.writer = .exited) :
    σ.compress = [] ∧ σ.write = [] ∧ σ.workers.flatMap Worker.unchecked = [] ∧ σ.others = [] := by
  have htaken : σ.writer.taken plan.length = plan.length := by
    rw [hw]
    rfl
  have hpassed : σ.writer.passed plan.length = plan.length := by
    rw [hw]
    rfl
  obtain ⟨hpending, hwrite⟩ := h.order.taken htaken
  have hcompress := (pending_nil hpending).1
  have hworkers := (List.append_eq_nil_iff.1 (h.checks.done h.order.posted hpassed)).2
  refine ⟨hcompress, hwrite, hworkers, ?_⟩
  rw [State.others, hcompress, hwrite, (refs_of_workers hworkers).1, hw]
  rfl

/-- The main thread makes a step or waits: for an input buffer, the write thread or the compress threads. -/
theorem main_step (hp : Planned P addr plan) (h : Good P addr plan before σ) :
    (∃ σ', σ.mainStep P addr = .done σ' ∧ Memory P plan addr σ') ∨
      σ.mainStep P addr = .wait ∧ (Full P σ ∧ (σ.main.solo ++ σ.main.shared).length ≤ 4 ∨
        σ.main = .join ∧ σ.writer ≠ .exited ∨ σ.main = .collect ∧ σ.workers.all Worker.isExited = false ∨
        σ.main = .finished) := by
  have hm := h.memory
  have hheld := hm.held
  have hjoined := h.threads.joined
  cases hmain : σ.main with
  | start => exact (main_start hp hm hmain).imp_right fun ⟨hwait, hfull⟩ => ⟨hwait, .inl ⟨hfull, Nat.zero_le _⟩⟩
  | top v =>
    refine (main_top hp hm hmain).imp_right fun ⟨hwait, hfull⟩ => ⟨hwait, .inl ⟨hfull, ?_⟩⟩
    rw [Main.solo, Main.shared]
    cases v.hold <;> cases v.dict <;> simp
  | fed v curr => exact .inl (main_fed hm hmain)
  | scanned v curr c lens =>
    refine (main_scanned hm hmain).imp_right fun ⟨hwait, hfull⟩ => ⟨hwait, .inl ⟨hfull, ?_⟩⟩
    have hholds := hm.contents.main
    rw [hmain] at hholds
    obtain ⟨f, f', job, -, -, -, -, -, hhold, -⟩ := hholds
    rw [Main.solo, Main.shared, hhold]
    cases v.dict <;> cases lens <;> simp
  | filled v curr lens => exact .inl (main_filled hp hm hmain)
  | ready v cell => exact .inl (main_ready hm hmain)
  | last next => exact .inl (main_last hm hmain)
  | join =>
    rw [hmain] at hheld
    by_cases hwriter : σ.writer = .exited
    · have hstep : σ.mainStep P addr = .done { σ with main := .returned } := by
        simp only [State.mainStep, hmain, hwriter]
      exact .inl ⟨_, hstep, hm.withMain hheld (fun _ _ => rfl) trivial⟩
    · have hstep : σ.mainStep P addr = .wait := by
        simp only [State.mainStep, hmain]
      exact .inr ⟨hstep, .inr (.inl ⟨rfl, hwriter⟩)⟩
  | returned =>
    rw [hmain] at hheld hjoined
    obtain ⟨hcompress, -⟩ := h.quiet (hjoined rfl)
    have hc := hm.contents
    left
    simp only [State.mainStep, hmain]
    refine ⟨_, rfl, ?_, trivial, fun cell hcell => absurd hcell List.not_mem_nil, hc.workers, hc.write, hc.writer⟩
    rw [State.others, hcompress] at hheld
    exact hheld
  | collect =>
    rw [hmain] at hheld hjoined
    obtain ⟨hcompress, hwrite, -, hothers⟩ := h.quiet (hjoined rfl)
    cases hall : σ.workers.all Worker.isExited with
    | false =>
      have hstep : σ.mainStep P addr = .wait := by
        simp only [State.mainStep, hmain, hall, Bool.false_eq_true, if_false]
      exact .inr ⟨hstep, .inr (.inr (.inl ⟨rfl, rfl⟩))⟩
    | true =>
      left
      simp only [State.mainStep, hmain, hall, if_true]
      rw [hothers] at hheld
      have hfree := hheld.owned.free
      rw [if_pos ⟨h.threads.count, hfree _, hfree _, hfree _, hfree _⟩]
      have hc := hm.contents
      refine ⟨_, rfl, ?_, trivial, hc.compress, fun w hw => absurd hw List.not_mem_nil, hc.write, hc.writer⟩
      rw [State.others, hcompress, hwrite, hjoined rfl]
      exact hheld
  | finished => exact .inr ⟨by simp only [State.mainStep, hmain], .inr (.inr (.inr rfl))⟩

theorem MainMove.output (h : MainMove P σ σ') : σ'.writer = σ.writer ∧ σ'.output = σ.output := by
  cases h <;> exact ⟨rfl, rfl⟩

theorem WorkerMove.output (h : WorkerMove σ w σ' w') : σ'.writer = σ.writer ∧ σ'.output = σ.output := by
  cases h <;> exact ⟨rfl, rfl⟩

/-- Every step of every thread keeps the invariant. -/
theorem Good.step (hp : Planned P addr plan) (hprocs : 0 < P.procs) (h : Good P addr plan before σ)
    (hstep : Step P addr σ σ') : Good P addr plan before σ' := by
  have hnext := main_next hp h.memory
  cases hstep with
  | main hdone =>
    have hmove := mainMove hdone
    obtain ⟨hwriter, houtput⟩ := hmove.output
    rcases main_step hp h with ⟨σ'', hdone', hmem⟩ | ⟨hwait, -⟩
    · cases hdone.symm.trans hdone'
      refine ⟨hmem, h.order.main hmove hnext h.threads.joined h.threads.stop,
        h.checks.main h.order hmove hnext h.threads.joined, ?_, ?_⟩
      · exact h.threads.main hprocs hmove fun hj => (h.quiet (h.threads.joined hj)).1
      · rw [hwriter, houtput]
        exact h.wrote
    · cases hdone.symm.trans hwait
  | @worker τ i w w' strm' bytes hi hyields hdone =>
    have hmove := workerMove hdone
    obtain ⟨hwriter, houtput⟩ := hmove.output
    rcases worker_memory hp h.memory hi h.order.waiting hyields with ⟨σ'', w'', hdone', hmem⟩ | ⟨hwait, -⟩
    · cases hdone.symm.trans hdone'
      refine ⟨hmem, h.order.worker hi hmove, h.checks.worker hi hmove fun strm seq check hw => ?_,
        h.threads.worker hi hmove, ?_⟩
      · have hholds := h.memory.contents.workers _ (mem_workers hi)
        rw [hw] at hholds
        exact hholds
      · change τ.writer.Wrote P plan before τ.output
        rw [hwriter, houtput]
        exact h.wrote
    · cases hdone.symm.trans hwait
  | writer hdone =>
    have hmove := writerMove hdone
    have hpass := fun v more len => writer_pass hp h.wrote v more len
    rcases writer_step hp h.memory h.order h.checks h.threads h.wrote with ⟨σ'', hdone', hmem, hwrote⟩ | ⟨hwait, -⟩
    · cases hdone.symm.trans hdone'
      exact ⟨hmem, h.order.writer hmove hpass, h.checks.writer hmove hpass, h.threads.writer hmove, hwrote⟩
    · cases hdone.symm.trans hwait

/-- A compress thread comes to a result for its job. -/
theorem worker_yields (hp : Planned P addr plan) (h : Memory P plan addr σ) (hi : σ.workers[i]? = some w) :
    ∃ strm' bytes, Yields P σ strm' bytes w := by
  have hholds := h.contents.workers _ (mem_workers hi)
  cases w with
  | fresh strm cell dict =>
    obtain ⟨job, hposted, rfl⟩ := hholds
    obtain ⟨ls, hblocks, -, hne⟩ := posted_blocks hp hposted
    have hlarge := hp.ok.large
    have hdict : ((job.dict.map window).getD []).length ≤ 32768 := by
      cases job.dict with
      | none => exact Nat.zero_le _
      | some d =>
        rw [Option.map_some, Option.getD_some]
        exact length_window d
    have hsize : 28 ≤ outPoolSize P.opt.size := by
      have : dictSize = 32768 := rfl
      rw [outPoolSize]
      omega
    obtain ⟨strm', b, hrun⟩ := Codec.compress_runs strm (job.dict.map window) cell.more (σ.heap.buf cell.input) hdict hne hsize
    exact ⟨strm', b.bytes, ls, _, b, hblocks, le_rfl, hrun, rfl⟩
  | _ => exact ⟨P.codec.init, [], trivial⟩

/-- A write thread that waits for the next job has none in its list, if the compress threads have none either. -/
theorem Order.write_nil {n : Nat} (h : Order n σ) {v : Sums} (hwriter : σ.writer = .wait v) (hpending : σ.pending = [])
    (hfirst : σ.writeFirst ≠ v.seq) : σ.write = [] ∧ σ.main.posted n = v.seq := by
  have hjobs := h.jobs
  rw [hpending, hwriter, List.nil_append, Writer.taken] at hjobs
  have hlen := hjobs.length_eq
  rw [List.length_append, List.length_range, List.length_range, List.length_map] at hlen
  cases hwrite : σ.write with
  | nil =>
    rw [hwrite, List.length_nil] at hlen
    exact ⟨rfl, by omega⟩
  | cons job rest =>
    exfalso
    have hsorted := h.sorted
    rw [hwrite] at hjobs hlen hsorted
    rw [List.length_cons] at hlen
    have hnodup := hjobs.nodup_iff.2 List.nodup_range
    -- the next job is in the list, and nothing comes before it
    have hge : v.seq ≤ job.seq := by
      by_contra hlt
      exact (List.nodup_append.1 hnodup).2.2 job.seq List.mem_cons_self job.seq (List.mem_range.2 (by omega)) rfl
    have hmem : v.seq ∈ (job :: rest).map JobCell.seq := by
      have hall := hjobs.mem_iff.2 (List.mem_range.2 (show v.seq < σ.main.posted n by omega))
      rcases List.mem_append.1 hall with hmem | hmem
      · exact hmem
      · exact absurd (List.mem_range.1 hmem) (Nat.lt_irrefl _)
    have hle : job.seq ≤ v.seq := by
      rcases List.mem_cons.1 hmem with heq | hmem
      · exact heq.ge
      · exact (List.pairwise_cons.1 hsorted).1 _ hmem
    apply hfirst
    rw [h.head hwrite]
    omega

/-- A thread can make a step until the main thread is through. -/
theorem Good.progress (hp : Planned P addr plan) (hprocs : 0 < P.procs) (h : Good P addr plan before σ) :
    (∃ σ', Step P addr σ σ') ∨ σ.main = .finished := by
  by_contra hnot
  obtain ⟨hstuck, hrunning⟩ := not_or.1 hnot
  have hworkers : ∀ w ∈ σ.workers, (∃ strm, w = .idle strm) ∧ σ.compressHave = 0 ∨ w = .exited := by
    intro w hw
    obtain ⟨i, hi⟩ := List.mem_iff_getElem?.1 hw
    obtain ⟨strm', bytes, hyields⟩ := worker_yields hp h.memory hi
    rcases worker_memory hp h.memory hi h.order.waiting hyields with ⟨σ', w', hdone, -⟩ | ⟨-, hwhy⟩
    · exact absurd ⟨_, .worker hi hyields hdone⟩ hstuck
    · exact hwhy
  have hunchecked : σ.workers.flatMap Worker.unchecked = [] := by
    apply List.flatMap_eq_nil_iff.2
    intro w hw
    rcases hworkers w hw with ⟨⟨strm, rfl⟩, -⟩ | rfl
    · rfl
    · rfl
  obtain ⟨hrefs, hcarried⟩ := refs_of_workers hunchecked
  have hcompress : σ.compress = [] := by
    cases hs : σ.stop with
    | true => exact (h.quiet (h.threads.joined (stopped_joined (h.threads.stop.symm.trans hs)))).1
    | false =>
      by_contra hne
      obtain ⟨w, hw⟩ := List.exists_mem_of_ne_nil _ (h.threads.launched hne)
      have hwaiting := h.order.waiting
      rcases hworkers w hw with ⟨-, hzero⟩ | rfl
      · have := List.length_pos_iff.2 hne
        omega
      · cases h.threads.running hs _ hw
  have hpending : σ.pending = [] := by
    rw [State.pending, hcompress, hcarried]
    rfl
  have hwriter : (∃ v, σ.writer = .wait v ∧ σ.main.posted plan.length = v.seq ∧ v.seq < plan.length) ∧ σ.others = [] ∨
      σ.writer = .exited ∧ σ.others = [] := by
    rcases writer_step hp h.memory h.order h.checks h.threads h.wrote with ⟨σ', hdone, -⟩ | ⟨-, hwhy⟩
    · exact absurd ⟨σ', .writer hdone⟩ hstuck
    rcases hwhy with ⟨v, hw, hfirst⟩ | ⟨v, more, len, hw, hnone⟩ | hw
    · left
      have hwrote := h.wrote
      rw [hw] at hwrote
      obtain ⟨hwrite, hposted⟩ := h.order.write_nil hw hpending hfirst
      refine ⟨⟨v, hw, hposted, hwrote.1⟩, ?_⟩
      rw [State.others, hcompress, hrefs, hwrite, hw]
      rfl
    · exfalso
      have hlen := h.order.jobs.length_eq
      simp only [hw, List.length_append, List.length_range, Writer.taken] at hlen
      have hmem := (h.checks.unchecked v.seq).2 ⟨by omega, hnone⟩
      rw [State.unchecked, hcompress, hunchecked] at hmem
      exact List.not_mem_nil hmem
    · exact .inr ⟨hw, (h.quiet hw).2.2.2⟩
  have hothers : σ.others = [] := by
    rcases hwriter with ⟨-, hnil⟩ | ⟨-, hnil⟩
    · exact hnil
    · exact hnil
  rcases main_step hp h with ⟨σ', hdone, -⟩ | ⟨-, ⟨hfull, hfour⟩ | ⟨hjoin, hrun⟩ | ⟨hcollect, hall⟩ | hfinished⟩
  · exact hstuck ⟨σ', .main hdone⟩
  · rw [Full, State.refs, hothers, List.append_nil, inBufs] at hfull
    have := List.length_filter_le (fun s : Space => decide (s.pool = .inPool)) (σ.main.solo ++ σ.main.shared)
    omega
  · rcases hwriter with ⟨⟨v, -, hposted, hlt⟩, -⟩ | ⟨hw, -⟩
    · rw [hjoin] at hposted
      exact absurd hposted hlt.ne'
    · exact hrun hw
  · have hwaiting := h.order.waiting
    rw [h.threads.stop, hcollect] at hwaiting
    obtain ⟨w, hw, hnotExited⟩ : ∃ w ∈ σ.workers, w.isExited = false := by
      by_contra hnone
      have : σ.workers.all Worker.isExited = true := by
        apply List.all_eq_true.2
        intro w hw
        by_contra hne
        exact hnone ⟨w, hw, Bool.eq_false_iff.2 hne⟩
      rw [this] at hall
      cases hall
    rcases hworkers w hw with ⟨-, hzero⟩ | rfl
    · have hone : Main.stopped .collect = true := rfl
      rw [hone, hzero] at hwaiting
      cases hwaiting
    · cases hnotExited
  · exact hrunning hfinished

end Good

end Libibtl.Pgz
