import Libibtl.Pgz.PipelineMemory

/-! # The compress threads and the buffers

What a compress thread does with its job leaves every other buffer as it is. None of its
assertions fails, and it waits only for a job.
-/

namespace Libibtl.Pgz

open Foundation

/-- What `feed_spec` says of the jobs of an input. -/
structure Planned (P : Program) (addr : List Byte) (plan : List Job) : Prop where
  feed : feed P.opt addr = some plan
  ok : P.opt.Ok
  jobs : ∀ {n job}, plan[n]? = some job →
    JobOk P.opt ((plan.take n).flatMap Job.input) job ∧ (job.more = true ↔ n + 1 < plan.length)
  text : plan.flatMap Job.input = addr
  pos : 0 < plan.length

theorem planned {P : Program} (ho : P.opt.Ok) (addr : List Byte) : ∃ plan, Planned P addr plan := by
  obtain ⟨plan, hfeed, hchunked, htext⟩ := feed_spec ho addr
  refine ⟨plan, hfeed, ho, fun {n job} hjob => ?_, htext, ?_⟩
  · obtain ⟨hn, hget⟩ := List.getElem?_eq_some_iff.1 hjob
    have hsplit : plan = plan.take n ++ job :: plan.drop (n + 1) := by
      rw [← hget, List.getElem_cons_drop, List.take_append_drop]
    obtain ⟨hok, -, hmore⟩ := hchunked.job hsplit
    rw [List.nil_append] at hok
    refine ⟨hok, hmore.trans ?_⟩
    rw [Ne, List.drop_eq_nil_iff, Nat.not_le]
  · cases plan with
    | nil => exact absurd hchunked id
    | cons => exact Nat.succ_pos _

/-- What the dictionary of a job comes from ends with what `deflateSetDictionary` gets. -/
theorem JobOk.decodes {o : Options} {pre : List Byte} {job : Job} (h : JobOk o pre job) (Z : Codec) {bytes : List Byte}
    (hcoded : Z.decodes ((job.dict.map window).getD []) bytes job.input (!job.more)) :
    Z.decodes pre bytes job.input (!job.more) := by
  have hlonger : ∀ w, w <:+ pre → Z.decodes w bytes job.input (!job.more) → Z.decodes pre bytes job.input (!job.more) := by
    rintro w ⟨v, rfl⟩ hw
    exact Z.decodes_longer v hw
  apply hlonger _ _ hcoded
  cases hdict : job.dict with
  | none => exact List.nil_suffix
  | some d =>
    have hpre : pre ≠ [] := by
      intro hnil
      rw [h.first hnil] at hdict
      cases hdict
    have hlater := h.later hpre
    split at hlater
    · obtain ⟨d', hd', hwindow⟩ := hlater
      cases hdict.symm.trans hd'
      rw [Option.map_some, Option.getD_some, hwindow]
      exact List.drop_suffix _ _
    · rw [hdict] at hlater
      cases hlater

theorem length_window (bs : List Byte) : (window bs).length ≤ 32768 := by
  have : dictSize = 32768 := rfl
  rw [window, List.length_drop]
  omega

section Workers

variable {P : Program} {plan : List Job} {addr bytes : List Byte} {strm strm' : P.codec.Stream}
  {σ : State P.codec.Stream} {i : Nat} {w : Worker P.codec.Stream} {cell : JobCell}

def State.setWorker {S : Type} (σ : State S) (i : Nat) (w : Worker S) : State S := { σ with workers := σ.workers.set i w }

/-- The references but for those of one compress thread. -/
theorem shared_perm {S : Type} {σ : State S} {w : Worker S} (hi : σ.workers[i]? = some w) :
    ∃ rest, (σ.main.shared ++ σ.others).Perm (w.refs ++ rest) ∧
      ∀ w', (σ.main.shared ++ (σ.setWorker i w').others).Perm (w'.refs ++ rest) := by
  obtain ⟨rest, hold, hnew⟩ := flatMap_perm_set Worker.refs hi
  refine ⟨σ.main.shared ++ (σ.compress.flatMap JobCell.refs ++ (rest ++ (σ.write.flatMap JobCell.refs ++ σ.writer.refs))),
    ?_, fun w' => ?_⟩
  · rw [List.perm_iff_count] at hold ⊢
    intro s
    have := hold s
    simp only [State.others, List.count_append] at this ⊢
    omega
  · have hset := hnew w'
    rw [List.perm_iff_count] at hset ⊢
    intro s
    have := hset s
    simp only [State.others, State.setWorker, List.count_append] at this ⊢
    omega

theorem Contents.setWorker {buf : Space → List Byte} (h : Contents P plan buf addr σ) {w' : Worker P.codec.Stream}
    (hw : w'.Holds P plan buf) : Contents P plan buf addr (σ.setWorker i w') where
  main := h.main
  compress := h.compress
  workers w hmem := by
    rcases List.mem_or_eq_of_mem_set hmem with hmem | rfl
    · exact h.workers w hmem
    · exact hw
  write := h.write
  writer := h.writer

theorem mem_workers (hi : σ.workers[i]? = some w) : w ∈ σ.workers := List.mem_of_getElem? hi

theorem Memory.setWorker (h : Memory P plan addr σ) {w' : Worker P.codec.Stream} {heap : Spaces}
    (hheld : Held P.limit heap σ.main.solo (σ.main.shared ++ (σ.setWorker i w').others))
    (hbuf : ∀ s ∈ σ.refs, heap.buf s = σ.heap.buf s) (hw : w'.Holds P plan heap.buf) :
    Memory P plan addr (State.setWorker { σ with heap := heap } i w') := by
  have hc := h.contents.congr hbuf
  exact ⟨hheld, Contents.setWorker (σ := { σ with heap := heap }) ⟨hc.main, hc.compress, hc.workers, hc.write, hc.writer⟩ hw⟩

variable {w' : Worker P.codec.Stream} {s : Space}

/-- The thread goes on with the same references. -/
theorem worker_move (h : Memory P plan addr σ) (hi : σ.workers[i]? = some w) (hrefs : w'.refs = w.refs)
    (hw : w'.Holds P plan σ.heap.buf) : Memory P plan addr (σ.setWorker i w') := by
  obtain ⟨rest, hold, hnew⟩ := shared_perm hi
  have hnew' := hnew w'
  rw [hrefs] at hnew'
  exact h.setWorker (h.held.perm (hnew'.trans hold.symm)) (fun _ _ => rfl) hw

theorem worker_drop (h : Memory P plan addr σ) (hi : σ.workers[i]? = some w) (w' : Worker P.codec.Stream)
    (hrefs : w.refs.Perm (s :: w'.refs))
    (hw : w'.Holds P plan σ.heap.buf) :
    ∃ heap, dropSpace σ.heap s = .done heap ∧ Memory P plan addr (State.setWorker { σ with heap := heap } i w') := by
  obtain ⟨rest, hold, hnew⟩ := shared_perm hi
  obtain ⟨heap, hdone, hheld, hbuf⟩ := h.held.drop (hold.trans (hrefs.append_right rest))
  refine ⟨heap, hdone, h.setWorker (hheld.perm (hnew w')) (fun s _ => by rw [hbuf]) ?_⟩
  rwa [hbuf]

theorem worker_use (h : Memory P plan addr σ) (hi : σ.workers[i]? = some w) (hs : s ∈ w.refs) (hrefs : w'.refs = s :: w.refs)
    (hw : w'.Holds P plan σ.heap.buf) :
    Memory P plan addr (State.setWorker { σ with heap := useSpace σ.heap s } i w') := by
  obtain ⟨rest, hold, hnew⟩ := shared_perm hi
  have hnew' := hnew w'
  rw [hrefs] at hnew'
  have hheld := h.held.useSpace (hold.mem_iff.2 (List.mem_append_left rest hs))
  exact h.setWorker (hheld.perm (hnew'.trans (hold.cons s).symm)) (fun _ _ => rfl) hw

theorem worker_got (h : Memory P plan addr σ) (hi : σ.workers[i]? = some (.got strm cell)) :
    ∃ σ' w', σ.workerStep P strm' bytes (.got strm cell) = .done (σ', w') ∧ Memory P plan addr (σ'.setWorker i w') := by
  obtain ⟨job, hposted, hdict⟩ := h.contents.workers _ (mem_workers hi)
  rw [State.workerStep]
  cases hout : cell.out with
  | none =>
    rw [hout] at hdict
    refine ⟨_, _, rfl, worker_move h hi ?_ ⟨job, hposted, congrArg (Option.map window) hdict⟩⟩
    rw [Worker.refs, Worker.refs, JobCell.refs, hout]
    rfl
  | some d =>
    rw [hout] at hdict
    obtain ⟨heap, hdone, hmem⟩ := worker_drop h hi (s := d) (.fresh strm cell (some (window (σ.heap.buf d))))
      (by rw [Worker.refs, Worker.refs, JobCell.refs, hout]; exact List.Perm.swap _ _ _)
      ⟨job, hposted, congrArg (Option.map window) hdict⟩
    simp only [withDrop, hdone]
    exact ⟨_, _, rfl, hmem⟩

/-- The blocks of the job that a compress thread has. -/
theorem posted_blocks (hp : Planned P addr plan) {buf : Space → List Byte} {job : Job} (h : Posted plan buf job cell) :
    ∃ ls, blocks (cell.lens.map buf) (buf cell.input).length = some ls ∧ ls.sum = (buf cell.input).length ∧ ls ≠ [] := by
  have hblocks := (hp.jobs h.planned).1.blocks
  rw [← h.lens, ← h.input] at hblocks
  exact ⟨_, hblocks, blocksLoop_sum hblocks⟩

/-- What a compress thread comes to decodes to the input of its job. -/
theorem yields_coded {job : Job} {dict : Option (List Byte)} (h : Posted plan σ.heap.buf job cell)
    (hdict : dict = job.dict.map window) (hyields : Yields P σ strm' bytes (.fresh strm cell dict)) : Coded P job bytes := by
  obtain ⟨ls, size, b, hblocks, -, hrun, rfl⟩ := hyields
  have hsum := (blocksLoop_sum hblocks).1
  rw [h.input] at hsum hrun
  rw [Coded, ← hdict, ← h.more]
  apply Codec.compress_decodes _ hsum hrun
  rw [hdict]
  cases job.dict with
  | none => simp
  | some d =>
    rw [Option.map_some, Option.getD_some]
    exact length_window d

theorem worker_fresh (hp : Planned P addr plan) (h : Memory P plan addr σ) {dict : Option (List Byte)}
    (hi : σ.workers[i]? = some (.fresh strm cell dict)) (hyields : Yields P σ strm' bytes (.fresh strm cell dict)) :
    ∃ σ' w', σ.workerStep P strm' bytes (.fresh strm cell dict) = .done (σ', w') ∧ Memory P plan addr (σ'.setWorker i w') := by
  obtain ⟨job, hposted, hdict⟩ := h.contents.workers _ (mem_workers hi)
  have hcoded := yields_coded hposted hdict hyields
  obtain ⟨ls, hblocks, -⟩ := posted_blocks hp hposted
  obtain ⟨rest, hold, hnew⟩ := shared_perm hi
  have hlimit : P.limit .outPool = none := rfl
  rcases h.held.owned.get_or_full .outPool with ⟨out, heap, hget⟩ | ⟨-, n, hn, -⟩
  · obtain ⟨hheld, hnot, hbuf⟩ := h.held.get hget
    rw [State.workerStep, hblocks]
    simp only [withSpace, hget]
    have hsame : ∀ s ∈ σ.refs, (heap.setBuf out bytes).buf s = σ.heap.buf s := by
      intro s hs
      have hne : s ≠ out := fun heq => hnot (heq ▸ hs)
      rw [Spaces.setBuf_of_ne hne, hbuf, Function.update_of_ne hne]
    have hfresh : ∀ s ∈ Worker.refs (.fresh strm cell dict : Worker P.codec.Stream), (heap.setBuf out bytes).buf s = σ.heap.buf s :=
      fun s hs => hsame s (List.mem_append_right _ (hold.mem_iff.2 (List.mem_append_left _ hs)))
    have hposted' := hposted.congr hfresh
    refine ⟨_, _, rfl, h.setWorker ?_ hsame ⟨job, hposted'.planned, hposted'.more, hposted'.input, out, rfl, ?_⟩⟩
    · apply (hheld.setBuf out bytes).perm
      refine (hnew _).trans (List.Perm.trans ?_ (hold.cons out).symm)
      exact List.Perm.swap _ _ _
    · rwa [Spaces.setBuf_self]
  · rw [hlimit] at hn
    cases hn

theorem worker_compressed (h : Memory P plan addr σ) (hi : σ.workers[i]? = some (.compressed strm cell)) :
    ∃ σ' w', σ.workerStep P strm' bytes (.compressed strm cell) = .done (σ', w') ∧ Memory P plan addr (σ'.setWorker i w') := by
  obtain ⟨job, hpacked⟩ := h.contents.workers _ (mem_workers hi)
  rw [State.workerStep]
  cases hlens : cell.lens with
  | none => exact ⟨_, _, rfl, worker_move h hi rfl ⟨job, hpacked, hlens⟩⟩
  | some lens =>
    obtain ⟨heap, hdone, hmem⟩ := worker_drop h hi (s := lens) (.released strm { cell with lens := none })
      (by
        rw [Worker.refs, Worker.refs, JobCell.refs, JobCell.refs, hlens, Option.toList_some, Option.toList_none,
          List.append_nil]
        have hcomm : (cell.input :: cell.out.toList ++ [lens]).Perm ([lens] ++ cell.input :: cell.out.toList) :=
          List.perm_append_comm
        exact hcomm)
      ⟨job, ⟨hpacked.planned, hpacked.more, hpacked.input, hpacked.out⟩, rfl⟩
    simp only [withDrop, hdone]
    exact ⟨_, _, rfl, hmem⟩

theorem worker_released (h : Memory P plan addr σ) (hi : σ.workers[i]? = some (.released strm cell)) :
    ∃ σ' w', σ.workerStep P strm' bytes (.released strm cell) = .done (σ', w') ∧ Memory P plan addr (σ'.setWorker i w') := by
  have hholds := h.contents.workers _ (mem_workers hi)
  exact ⟨_, _, rfl, worker_use h hi List.mem_cons_self rfl hholds⟩

theorem worker_listed (h : Memory P plan addr σ) {seq : Nat} {input : Space}
    (hi : σ.workers[i]? = some (.listed strm seq input)) :
    ∃ σ' w', σ.workerStep P strm' bytes (.listed strm seq input) = .done (σ', w') ∧ Memory P plan addr (σ'.setWorker i w') := by
  obtain ⟨job, hjob, hinput⟩ := h.contents.workers _ (mem_workers hi)
  obtain ⟨heap, hdone, hmem⟩ := worker_drop h hi (s := input)
    (.checked strm seq (P.lib.jobCheck P.header.form (σ.heap.buf input))) (List.Perm.refl _)
    ⟨job, hjob, by rw [hinput]⟩
  rw [State.workerStep]
  simp only [withDrop, hdone]
  exact ⟨_, _, rfl, hmem⟩

theorem insertJob_perm (cell : JobCell) (l : List JobCell) : (insertJob cell l).Perm (cell :: l) := by
  induction l with
  | nil => exact List.Perm.refl _
  | cons here rest ih =>
    rw [insertJob]
    split
    · exact List.Perm.refl _
    · exact (ih.cons here).trans (List.Perm.swap _ _ _)

/-- A thread that waits for a job pulls the first one. -/
theorem worker_pull (h : Memory P plan addr σ) (hi : σ.workers[i]? = some (.idle strm)) {rest : List JobCell}
    (hcompress : σ.compress = cell :: rest) (n : Nat) :
    Memory P plan addr (State.setWorker { σ with compress := rest, compressHave := n } i (.got strm cell)) := by
  obtain ⟨others, hold, hnew⟩ := flatMap_perm_set Worker.refs hi
  have hc := h.contents
  have hcell := hc.compress cell (by rw [hcompress]; exact List.mem_cons_self)
  constructor
  · apply h.held.perm
    have hset := hnew (.got strm cell)
    rw [List.perm_iff_count] at hold hset ⊢
    intro s
    have hold := hold s
    have hset := hset s
    simp only [State.others, State.setWorker, hcompress, List.flatMap_cons, List.count_append, Worker.refs,
      List.count_nil] at hold hset ⊢
    omega
  · refine Contents.setWorker (σ := { σ with compress := rest, compressHave := n })
      ⟨hc.main, fun cell' hcell' => hc.compress cell' ?_, hc.workers, hc.write, hc.writer⟩ hcell
    rw [hcompress]
    exact List.mem_cons_of_mem _ hcell'

theorem worker_reserved (h : Memory P plan addr σ) (hi : σ.workers[i]? = some (.reserved strm cell)) :
    ∃ σ' w', σ.workerStep P strm' bytes (.reserved strm cell) = .done (σ', w') ∧ Memory P plan addr (σ'.setWorker i w') := by
  have hc := h.contents
  obtain ⟨job, hpacked, hlens⟩ := hc.workers _ (mem_workers hi)
  obtain ⟨others, hold, hnew⟩ := flatMap_perm_set Worker.refs hi
  refine ⟨_, _, rfl, ?_, ?_⟩
  · apply h.held.perm
    have hset := hnew (.listed strm cell.seq cell.input)
    have hinsert := (insertJob_perm cell σ.write).flatMap_right JobCell.refs
    rw [List.perm_iff_count] at hold hset hinsert ⊢
    intro s
    have hold := hold s
    have hset := hset s
    have hinsert := hinsert s
    simp only [State.others, State.setWorker, List.flatMap_cons, List.count_append, Worker.refs, List.count_cons,
      List.count_nil] at hold hset hinsert ⊢
    omega
  · refine Contents.setWorker (σ := { σ with write := insertJob cell σ.write, writeFirst := _ })
      ⟨hc.main, hc.compress, hc.workers, fun cell' hcell' => ?_, hc.writer⟩ ⟨job, hpacked.planned, hpacked.input⟩
    rcases List.mem_cons.1 ((insertJob_perm cell σ.write).mem_iff.1 hcell') with rfl | hcell'
    · exact ⟨job, hpacked, hlens⟩
    · exact hc.write cell' hcell'

theorem worker_checked (h : Memory P plan addr σ) {seq : Nat} {check : ULong}
    (hi : σ.workers[i]? = some (.checked strm seq check)) :
    ∃ σ' w', σ.workerStep P strm' bytes (.checked strm seq check) = .done (σ', w') ∧ Memory P plan addr (σ'.setWorker i w') := by
  have hmove : Memory P plan addr (σ.setWorker i (.idle strm)) := worker_move h hi rfl trivial
  have hc := hmove.contents
  exact ⟨_, _, rfl, hmove.held, ⟨hc.main, hc.compress, hc.workers, hc.write, hc.writer⟩⟩

/-- A step of a compress thread keeps the invariant of the buffers. It fails no assertion, and it waits only for a
job. -/
theorem worker_memory (hp : Planned P addr plan) (h : Memory P plan addr σ) (hi : σ.workers[i]? = some w)
    (hhave : σ.compressHave = σ.compress.length + σ.stop.toNat) (hyields : Yields P σ strm' bytes w) :
    (∃ σ' w', σ.workerStep P strm' bytes w = .done (σ', w') ∧ Memory P plan addr (σ'.setWorker i w')) ∨
      σ.workerStep P strm' bytes w = .wait ∧ ((∃ strm, w = .idle strm) ∧ σ.compressHave = 0 ∨ w = .exited) := by
  cases w with
  | idle strm =>
    by_cases hzero : σ.compressHave = 0
    · exact .inr ⟨by rw [State.workerStep, if_pos hzero], .inl ⟨⟨strm, rfl⟩, hzero⟩⟩
    · left
      rw [State.workerStep, if_neg hzero]
      by_cases hstop : σ.stop = true
      · rw [if_pos hstop]
        exact ⟨_, _, rfl, worker_move h hi rfl trivial⟩
      · rw [if_neg hstop]
        cases hcompress : σ.compress with
        | nil =>
          rw [Bool.eq_false_iff.2 hstop, hcompress] at hhave
          exact absurd hhave hzero
        | cons cell rest => exact ⟨_, _, rfl, worker_pull h hi hcompress _⟩
  | got strm cell => exact .inl (worker_got h hi)
  | fresh strm cell dict => exact .inl (worker_fresh hp h hi hyields)
  | compressed strm cell => exact .inl (worker_compressed h hi)
  | released strm cell => exact .inl (worker_released h hi)
  | reserved strm cell => exact .inl (worker_reserved h hi)
  | listed strm seq input => exact .inl (worker_listed h hi)
  | checked strm seq check => exact .inl (worker_checked h hi)
  | exited => exact .inr ⟨rfl, .inr rfl⟩

end Workers

end Libibtl.Pgz
