import Libibtl.Pgz.PipelineOrder

/-! # The jobs on their way

Every step of every thread keeps the jobs in order, gives a job its check value once,
and leaves the compress threads there until the end.
-/

namespace Libibtl.Pgz

open Foundation

section Flow

variable {P : Program} {plan : List Job} {addr : List Byte} {σ σ' : State P.codec.Stream} {n : Nat}

/-- What is known of the job that is posted next. -/
def Main.Next (n : Nat) (m : Main) : Prop :=
  ∀ v job, m = .ready v job → job.seq = v.seq ∧ v.seq < n ∧ (job.more = true ↔ v.seq + 1 < n)

theorem main_next (hp : Planned P addr plan) (h : Memory P plan addr σ) : σ.main.Next plan.length := by
  intro v job hmain
  have hholds := h.contents.main
  rw [hmain] at hholds
  obtain ⟨f, f', j, hturn, hseq, hseq', hposted, -⟩ := hholds
  have hjob := hp.jobs hturn.planned
  refine ⟨hseq'.trans hseq.symm, ?_, ?_⟩
  · rw [hseq]
    exact (List.getElem?_eq_some_iff.1 hturn.planned).1
  · rw [hposted.more, hseq]
    exact hjob.2

/-- The number of posted jobs behind the next one. -/
theorem posted_next {v : Vars} {job : JobCell} (hmore : job.more = true ↔ v.seq + 1 < n) (hlt : v.seq < n) :
    (if job.more then Main.top { v with seq := v.seq + 1 } else .last v.next).posted n = v.seq + 1 := by
  split
  · rfl
  · next hlast =>
    rw [hmore] at hlast
    dsimp only [Main.posted]
    omega

/-- Nothing is left of the jobs that the write thread has taken. -/
theorem Order.taken (h : Order n σ) (htaken : σ.writer.taken n = n) : σ.pending = [] ∧ σ.write = [] := by
  have hlen := h.jobs.length_eq
  have hposted := h.posted
  simp only [List.length_append, List.length_range, List.length_map, htaken] at hlen
  exact ⟨List.eq_nil_of_length_eq_zero (by omega), List.eq_nil_of_length_eq_zero (by omega)⟩

theorem pending_nil (h : σ.pending = []) : σ.compress = [] ∧ σ.workers.flatMap Worker.carried = [] := by
  obtain ⟨hcompress, hworkers⟩ := List.append_eq_nil_iff.1 h
  exact ⟨List.map_eq_nil_iff.1 hcompress, hworkers⟩

theorem Order.main (h : Order n σ) (hmove : MainMove P σ σ') (hnext : σ.main.Next n)
    (hjoined : σ.main.joined = true → σ.writer = .exited) (hstop : σ.stop = σ.main.stopped) : Order n σ' := by
  have hposted := h.posted
  have hjobs := h.jobs
  cases hmove with
  | move hmain hposted' _ _ _ =>
    rw [hmain, ← hposted'] at hposted hjobs
    exact ⟨hposted, hjobs, h.sorted, h.first, h.waiting⟩
  | @post v job ws c hmain hlaunch =>
    obtain ⟨hseq, hlt, hmore⟩ := hnext v job hmain
    have hidle : ws.flatMap Worker.carried = σ.workers.flatMap Worker.carried := by
      obtain ⟨rfl, -⟩ | ⟨rfl, -⟩ := hlaunch
      · rfl
      · rw [List.flatMap_append]
        exact List.append_nil _
    have hnext := posted_next hmore hlt
    rw [hmain, Main.posted] at hjobs
    constructor
    · dsimp only
      omega
    · dsimp only
      rw [hnext, List.range_succ]
      refine List.Perm.trans ?_ (hjobs.append_right [v.seq])
      simp only [State.pending, List.map_append, List.map_singleton, hseq, hidle]
      rw [List.perm_iff_count]
      intro k
      simp only [List.count_append]
      omega
    · exact h.sorted
    · exact h.first
    · have := h.waiting
      dsimp only
      rw [List.length_append, List.length_singleton]
      omega
  | join hmain _ =>
    rw [hmain] at hposted hjobs
    exact ⟨hposted, hjobs, h.sorted, h.first, h.waiting⟩
  | stop hmain =>
    rw [hmain] at hposted hjobs hjoined
    have htaken : σ.writer.taken n = n := by
      rw [hjoined rfl]
      rfl
    obtain ⟨hcompress, hcarried⟩ := pending_nil (h.taken htaken).1
    refine ⟨hposted, ?_, h.sorted, h.first, ?_⟩
    · simp only [State.pending, hcompress, List.map_nil] at hjobs ⊢
      exact hjobs
    · have hwaiting := h.waiting
      rw [hstop, hmain, hcompress] at hwaiting
      dsimp only
      rw [hwaiting]
      rfl
  | collect hmain =>
    rw [hmain] at hposted hjobs hjoined
    have htaken : σ.writer.taken n = n := by
      rw [hjoined rfl]
      rfl
    obtain ⟨hcompress, hcarried⟩ := pending_nil (h.taken htaken).1
    refine ⟨hposted, ?_, h.sorted, h.first, h.waiting⟩
    simp only [State.pending, hcarried, List.flatMap_nil] at hjobs ⊢
    exact hjobs

theorem insertJob_sorted (job : JobCell) {l : List JobCell} (h : (l.map JobCell.seq).Pairwise (· ≤ ·)) :
    ((insertJob job l).map JobCell.seq).Pairwise (· ≤ ·) := by
  induction l with
  | nil => exact List.pairwise_singleton _ _
  | cons here rest ih =>
    obtain ⟨hhead, hrest⟩ := List.pairwise_cons.1 h
    rw [insertJob]
    split
    · next hlt =>
      refine List.pairwise_cons.2 ⟨fun k hk => ?_, h⟩
      rcases List.mem_cons.1 hk with rfl | hk
      · exact Nat.le_of_lt hlt
      · exact Nat.le_trans (Nat.le_of_lt hlt) (hhead k hk)
    · next hge =>
      refine List.pairwise_cons.2 ⟨fun k hk => ?_, ih hrest⟩
      obtain ⟨cell, hcell, rfl⟩ := List.mem_map.1 hk
      rcases List.mem_cons.1 ((insertJob_perm job rest).mem_iff.1 hcell) with rfl | hcell
      · exact Nat.le_of_not_lt hge
      · exact hhead _ (List.mem_map.2 ⟨cell, hcell, rfl⟩)

variable {i : Nat} {w w' : Worker P.codec.Stream}

/-- The jobs of the first list and of the compress threads, but for those of one thread. -/
theorem jobs_perm (f : Worker P.codec.Stream → List Nat) (hi : σ.workers[i]? = some w) :
    ∃ rest, (σ.compress.map JobCell.seq ++ σ.workers.flatMap f).Perm (σ.compress.map JobCell.seq ++ (f w ++ rest)) ∧
      ∀ (τ : State P.codec.Stream) (u : Worker P.codec.Stream), τ.workers = σ.workers →
        ((τ.setWorker i u).compress.map JobCell.seq ++ (τ.setWorker i u).workers.flatMap f).Perm
          (τ.compress.map JobCell.seq ++ (f u ++ rest)) := by
  obtain ⟨rest, hold, hnew⟩ := flatMap_perm_set f hi
  refine ⟨rest, hold.append_left _, fun τ u hworkers => ?_⟩
  rw [State.setWorker, hworkers]
  exact (hnew u).append_left _

/-- A step of a compress thread, where it takes a job on its way. -/
theorem Order.jobs_worker (h : Order n σ) (hi : σ.workers[i]? = some w) {τ : State P.codec.Stream}
    (hworkers : τ.workers = σ.workers) (hwriter : τ.writer = σ.writer)
    (hmoved : ∀ k, (τ.compress.map JobCell.seq).count k + w'.carried.count k + (τ.write.map JobCell.seq).count k =
      (σ.compress.map JobCell.seq).count k + w.carried.count k + (σ.write.map JobCell.seq).count k) :
    ((τ.setWorker i w').pending ++ ((τ.setWorker i w').write.map JobCell.seq ++
      List.range ((τ.setWorker i w').writer.taken n))).Perm (List.range (σ.main.posted n)) := by
  obtain ⟨rest, hold, hnew⟩ := jobs_perm Worker.carried hi
  have hset := hnew τ w' hworkers
  have hwriter' : (τ.setWorker i w').writer = σ.writer := hwriter
  have hwrite : (τ.setWorker i w').write = τ.write := rfl
  rw [hwriter', hwrite]
  apply List.Perm.trans _ h.jobs
  rw [List.perm_iff_count] at hold hset ⊢
  intro k
  have hk := hmoved k
  have hold := hold k
  have hset := hset k
  simp only [State.pending, List.count_append] at hold hset ⊢
  omega

theorem Order.worker (h : Order n σ) (hi : σ.workers[i]? = some w) (hmove : WorkerMove σ w σ' w') :
    Order n (σ'.setWorker i w') := by
  cases hmove with
  | move hcarried _ _ _ =>
    refine ⟨h.posted, h.jobs_worker hi rfl rfl fun k => ?_, h.sorted, h.first, h.waiting⟩
    rw [hcarried]
  | @pull strm job rest hcompress hstop =>
    have hwaiting := h.waiting
    rw [hcompress, List.length_cons] at hwaiting
    refine ⟨h.posted, h.jobs_worker hi rfl rfl fun k => ?_, h.sorted, h.first, ?_⟩
    · simp only [hcompress, List.map_cons, List.count_cons, Worker.carried, List.count_nil]
      omega
    · dsimp only [State.setWorker]
      omega
  | exit hstop => exact ⟨h.posted, h.jobs_worker hi rfl rfl fun _ => rfl, h.sorted, h.first, h.waiting⟩
  | @list strm job =>
    refine ⟨h.posted, h.jobs_worker hi rfl rfl fun k => ?_, insertJob_sorted job h.sorted, rfl, h.waiting⟩
    have hinsert := ((insertJob_perm job σ.write).map JobCell.seq).count_eq k
    dsimp only
    rw [hinsert]
    simp only [List.map_cons, List.count_cons, Worker.carried, List.count_nil]
    omega
  | check => exact ⟨h.posted, h.jobs_worker hi rfl rfl fun _ => rfl, h.sorted, h.first, h.waiting⟩

/-- The first job of the write list is the next one as soon as this is there. -/
theorem Order.head (h : Order n σ) {job : JobCell} {rest : List JobCell} (hwrite : σ.write = job :: rest) :
    σ.writeFirst = job.seq := by
  rw [h.first, hwrite]
  rfl

theorem Order.writer (h : Order n σ) (hmove : WriterMove P σ σ')
    (hpass : ∀ v more len, σ.writer = .dropped v more len → (more = true ↔ v.seq + 1 < n) ∧ v.seq < n) : Order n σ' := by
  have hjobs := h.jobs
  cases hmove with
  | move hwriter _ htaken _ _ =>
    rw [hwriter, ← htaken] at hjobs
    exact ⟨h.posted, hjobs, h.sorted, h.first, h.waiting⟩
  | @take v job rest hwriter hfirst hwrite =>
    have hseq : job.seq = v.seq := Int.ofNat.inj ((h.head hwrite).symm.trans hfirst)
    have hsorted := h.sorted
    rw [hwrite] at hsorted
    refine ⟨h.posted, List.Perm.trans ?_ hjobs, (List.pairwise_cons.1 hsorted).2, rfl, h.waiting⟩
    rw [hwriter, hwrite]
    simp only [Writer.taken, List.range_succ, List.map_cons, hseq, State.pending]
    rw [List.perm_iff_count]
    intro k
    simp only [List.count_append, List.count_cons, List.count_nil]
    omega
  | @pass v more len check sum hwriter hcheck hsum =>
    obtain ⟨hmore, hlt⟩ := hpass v more len hwriter
    refine ⟨h.posted, List.Perm.trans ?_ hjobs, h.sorted, h.first, h.waiting⟩
    rw [hwriter]
    cases more with
    | true => exact List.Perm.refl _
    | false =>
      have hn : n = v.seq + 1 := by
        have hlast : ¬ v.seq + 1 < n := fun hlt' => Bool.false_ne_true (hmore.2 hlt')
        omega
      dsimp only [Writer.taken]
      rw [hn]
      exact List.Perm.refl _
  | reset hwriter hwrite =>
    rw [hwriter] at hjobs
    refine ⟨h.posted, hjobs, h.sorted, ?_, h.waiting⟩
    dsimp only
    rw [hwrite]
    rfl

/-! ## Check values -/

theorem Checks.perm (h : Checks P plan σ) {τ : State P.codec.Stream} (hperm : τ.unchecked.Perm σ.unchecked)
    (hmain : τ.main.posted plan.length = σ.main.posted plan.length) (hchecks : τ.checks = σ.checks)
    (hwriter : τ.writer.passed plan.length = σ.writer.passed plan.length) : Checks P plan τ := by
  constructor
  · exact hperm.nodup_iff.2 h.nodup
  · intro k
    rw [hperm.mem_iff, h.unchecked, hmain, hchecks]
  · intro k c hc
    rw [hmain]
    rw [hchecks] at hc
    exact h.checks k c hc
  · intro k hk
    rw [hchecks]
    rw [hwriter] at hk
    exact h.passed k hk

/-- Behind the last job every check value is there. -/
theorem Checks.done (h : Checks P plan σ) (hposted : σ.main.posted plan.length ≤ plan.length)
    (hpassed : σ.writer.passed plan.length = plan.length) : σ.unchecked = [] := by
  apply List.eq_nil_iff_forall_not_mem.2
  intro k hk
  obtain ⟨hlt, hnone⟩ := (h.unchecked k).1 hk
  exact h.passed k (by omega) hnone

theorem Checks.main (h : Checks P plan σ) (ho : Order plan.length σ) (hmove : MainMove P σ σ')
    (hnext : σ.main.Next plan.length) (hjoined : σ.main.joined = true → σ.writer = .exited) : Checks P plan σ' := by
  have hdone : σ.main.joined = true → σ.compress = [] ∧ σ.workers.flatMap Worker.unchecked = [] := by
    intro hj
    have hnil := h.done ho.posted (by rw [hjoined hj]; rfl)
    obtain ⟨hcompress, hworkers⟩ := List.append_eq_nil_iff.1 hnil
    exact ⟨List.map_eq_nil_iff.1 hcompress, hworkers⟩
  cases hmove with
  | move hmain hposted _ _ _ =>
    refine h.perm (List.Perm.refl _) ?_ rfl rfl
    rw [hmain]
    exact hposted _
  | @post v job ws c hmain hlaunch =>
    obtain ⟨hseq, hlt, hmore⟩ := hnext v job hmain
    have hposted := posted_next hmore hlt
    have hold : σ.main.posted plan.length = v.seq := by
      rw [hmain]
      rfl
    have hidle : ws.flatMap Worker.unchecked = σ.workers.flatMap Worker.unchecked := by
      obtain ⟨rfl, -⟩ | ⟨rfl, -⟩ := hlaunch
      · rfl
      · rw [List.flatMap_append]
        exact List.append_nil _
    have hnew : ((σ.compress ++ [job]).map JobCell.seq ++ ws.flatMap Worker.unchecked).Perm (v.seq :: σ.unchecked) := by
      rw [hidle, List.map_append, List.map_singleton, hseq, List.append_assoc]
      exact List.perm_middle
    have hfresh : σ.checks v.seq = none := by
      cases hcheck : σ.checks v.seq with
      | none => rfl
      | some c => exact absurd (h.checks _ _ hcheck).1 (by omega)
    constructor
    · apply hnew.nodup_iff.2
      refine List.nodup_cons.2 ⟨fun hmem => ?_, h.nodup⟩
      have := ((h.unchecked _).1 hmem).1
      omega
    · intro k
      dsimp only
      rw [hposted]
      refine hnew.mem_iff.trans ?_
      rw [List.mem_cons, h.unchecked, hold]
      constructor
      · rintro (rfl | ⟨hlt, hnone⟩)
        · exact ⟨Nat.lt_succ_self _, hfresh⟩
        · exact ⟨Nat.lt_succ_of_lt hlt, hnone⟩
      · rintro ⟨hlt, hnone⟩
        rcases Nat.lt_succ_iff_lt_or_eq.1 hlt with hlt | heq
        · exact .inr ⟨hlt, hnone⟩
        · exact .inl heq
    · intro k c hc
      obtain ⟨hlt', hjob⟩ := h.checks k c hc
      dsimp only
      rw [hposted]
      exact ⟨by omega, hjob⟩
    · exact h.passed
  | join hmain _ =>
    refine h.perm (List.Perm.refl _) ?_ rfl rfl
    rw [hmain]
    rfl
  | stop hmain =>
    rw [hmain] at hdone
    obtain ⟨hcompress, hworkers⟩ := hdone rfl
    refine h.perm ?_ ?_ rfl rfl
    · rw [State.unchecked, State.unchecked, hcompress]
    · rw [hmain]
      rfl
  | collect hmain =>
    rw [hmain] at hdone
    obtain ⟨hcompress, hworkers⟩ := hdone rfl
    refine h.perm ?_ ?_ rfl rfl
    · rw [State.unchecked, State.unchecked, hworkers]
      exact List.Perm.refl _
    · rw [hmain]
      rfl

theorem Checks.worker (h : Checks P plan σ) (hi : σ.workers[i]? = some w) (hmove : WorkerMove σ w σ' w')
    (hcheck : ∀ strm seq check, w = .checked strm seq check →
      ∃ job, plan[seq]? = some job ∧ check = P.lib.jobCheck P.header.form job.input) : Checks P plan (σ'.setWorker i w') := by
  obtain ⟨rest, hold, hnew⟩ := jobs_perm Worker.unchecked hi
  -- a job stays without a check value
  have hkeep : ∀ τ : State P.codec.Stream, τ.workers = σ.workers → τ.main = σ.main → τ.checks = σ.checks →
      τ.writer = σ.writer → (τ.compress.map JobCell.seq ++ (w'.unchecked ++ rest)).Perm
        (σ.compress.map JobCell.seq ++ (w.unchecked ++ rest)) → Checks P plan (τ.setWorker i w') := by
    intro τ hworkers hmain hchecks hwriter hperm
    apply h.perm
    · exact ((hnew τ w' hworkers).trans hperm).trans hold.symm
    · exact congrArg _ hmain
    · exact hchecks
    · exact congrArg _ hwriter
  cases hmove with
  | move _ hunchecked _ _ =>
    refine hkeep _ rfl rfl rfl rfl ?_
    rw [hunchecked]
  | @pull strm job rest' hcompress hstop =>
    refine hkeep _ rfl rfl rfl rfl ?_
    rw [hcompress, List.map_cons]
    exact List.perm_middle
  | exit hstop => exact hkeep _ rfl rfl rfl rfl (List.Perm.refl _)
  | list => exact hkeep _ rfl rfl rfl rfl (List.Perm.refl _)
  | @check strm seq check =>
    obtain ⟨job, hjob, rfl⟩ := hcheck strm seq check rfl
    have hset := hnew { σ with checks := Function.update σ.checks seq (some (P.lib.jobCheck P.header.form job.input)) }
      (.idle strm) rfl
    have hcons : σ.unchecked.Perm (seq :: (σ.compress.map JobCell.seq ++ rest)) := hold.trans List.perm_middle
    have hnodup := List.nodup_cons.1 (hcons.nodup_iff.1 h.nodup)
    have hmem : ∀ k, k ∈ σ.unchecked ↔ k = seq ∨ k ∈ σ.compress.map JobCell.seq ++ rest := fun k =>
      hcons.mem_iff.trans List.mem_cons
    constructor
    · exact hset.nodup_iff.2 hnodup.2
    · intro k
      refine hset.mem_iff.trans ?_
      dsimp only [State.setWorker, Worker.unchecked, Worker.carried]
      rw [List.nil_append]
      by_cases hk : k = seq
      · subst hk
        rw [Function.update_self]
        exact iff_of_false hnodup.1 (fun hnone => Option.some_ne_none _ hnone.2)
      · rw [Function.update_of_ne hk, ← h.unchecked, hmem, or_iff_right hk]
    · intro k c hc
      dsimp only [State.setWorker] at hc ⊢
      by_cases hk : k = seq
      · subst hk
        rw [Function.update_self] at hc
        exact ⟨((h.unchecked k).1 ((hmem k).2 (.inl rfl))).1, job, hjob, (Option.some.inj hc).symm⟩
      · rw [Function.update_of_ne hk] at hc
        exact h.checks k c hc
    · intro k hk
      dsimp only [State.setWorker]
      by_cases heq : k = seq
      · rw [heq, Function.update_self]
        exact Option.some_ne_none _
      · rw [Function.update_of_ne heq]
        exact h.passed k hk

theorem Checks.writer (h : Checks P plan σ) (hmove : WriterMove P σ σ')
    (hpass : ∀ v more len, σ.writer = .dropped v more len →
      (more = true ↔ v.seq + 1 < plan.length) ∧ v.seq < plan.length) : Checks P plan σ' := by
  cases hmove with
  | move hwriter _ _ hpassed _ =>
    refine h.perm (List.Perm.refl _) rfl rfl ?_
    rw [hwriter]
    exact hpassed _
  | take hwriter _ _ =>
    refine h.perm (List.Perm.refl _) rfl rfl ?_
    rw [hwriter]
    rfl
  | @pass v more len check sum hwriter hcheck hsum =>
    obtain ⟨hmore, hlt⟩ := hpass v more len hwriter
    refine ⟨h.nodup, h.unchecked, h.checks, fun k hk => ?_⟩
    have hle : k < v.seq + 1 := by
      cases more with
      | true => exact hk
      | false =>
        have hlast : ¬ v.seq + 1 < plan.length := fun hlt' => Bool.false_ne_true (hmore.2 hlt')
        have hk' : k < plan.length := hk
        omega
    rcases Nat.lt_succ_iff_lt_or_eq.1 hle with hlt | rfl
    · apply h.passed
      rw [hwriter]
      exact hlt
    · dsimp only
      rw [hcheck]
      exact Option.some_ne_none _
  | reset hwriter _ =>
    refine h.perm (List.Perm.refl _) rfl rfl ?_
    rw [hwriter]
    rfl

/-! ## Threads -/

theorem stopped_joined {m : Main} (h : m.stopped = true) : m.joined = true := by
  cases m <;> first | rfl | cases h

theorem Threads.main (h : Threads P σ) (hprocs : 0 < P.procs) (hmove : MainMove P σ σ')
    (hcompress : σ.main.joined = true → σ.compress = []) : Threads P σ' := by
  have hcount := h.count
  have hbound := h.bound
  cases hmove with
  | move hmain _ hjoined hstopped _ =>
    have hstop := h.stop
    have hj := h.joined
    rw [hmain] at hstop hj
    exact ⟨h.count, h.bound, h.launched, hstop.trans hstopped.symm, h.running, fun hm => hj (hjoined ▸ hm)⟩
  | @post v job ws c hmain hlaunch =>
    have hstop := h.stop
    rw [hmain] at hstop
    have hnot : (if job.more then Main.top { v with seq := v.seq + 1 } else .last v.next).stopped = false ∧
        (if job.more then Main.top { v with seq := v.seq + 1 } else .last v.next).joined = false := by
      split
      · exact ⟨rfl, rfl⟩
      · exact ⟨rfl, rfl⟩
    refine ⟨?_, ?_, fun _ => ?_, hstop.trans hnot.1.symm, fun hs w hw => ?_, fun hj => ?_⟩
    · obtain ⟨rfl, rfl, -⟩ | ⟨rfl, rfl, -⟩ := hlaunch
      · exact hcount
      · dsimp only
        rw [List.length_append, hcount]
        rfl
    · obtain ⟨rfl, rfl, -⟩ | ⟨rfl, rfl, hlt⟩ := hlaunch
      · exact hbound
      · exact hlt
    · dsimp only
      obtain ⟨rfl, rfl, hnone⟩ | ⟨rfl, rfl, -⟩ := hlaunch
      · intro hnil
        rw [hnil, List.length_nil] at hcount
        omega
      · exact List.append_ne_nil_of_right_ne_nil _ (List.cons_ne_nil _ _)
    · obtain ⟨rfl, -⟩ | ⟨rfl, -⟩ := hlaunch
      · exact h.running hs w hw
      · rcases List.mem_append.1 hw with hw | hw
        · exact h.running hs w hw
        · rw [List.mem_singleton.1 hw]
          rfl
    · exact absurd (hj.symm.trans hnot.2) (by decide)
  | join hmain hwriter =>
    have hstop := h.stop
    rw [hmain] at hstop
    exact ⟨h.count, h.bound, h.launched, hstop, h.running, fun _ => hwriter⟩
  | stop hmain =>
    have hj := h.joined
    rw [hmain] at hj
    refine ⟨h.count, h.bound, fun hne => absurd rfl hne, rfl, fun hs => ?_, fun _ => hj rfl⟩
    cases hs
  | collect hmain =>
    have hj := h.joined
    have hstop := h.stop
    rw [hmain] at hj hstop hcompress
    exact ⟨rfl, Nat.zero_le _, fun hne => absurd (hcompress rfl) hne, hstop, fun _ w hw => absurd hw List.not_mem_nil,
      fun _ => hj rfl⟩

theorem Threads.worker (h : Threads P σ) (hi : σ.workers[i]? = some w) (hmove : WorkerMove σ w σ' w') :
    Threads P (σ'.setWorker i w') := by
  have hne : ∀ u, (σ.workers.set i u) ≠ [] := by
    intro u hnil
    rw [List.set_eq_nil_iff] at hnil
    rw [hnil] at hi
    cases hi
  have hset : ∀ u : Worker P.codec.Stream, (σ.stop = false → u.isExited = false) → σ.stop = false →
      ∀ x ∈ σ.workers.set i u, x.isExited = false := by
    intro u hu hs x hx
    rcases List.mem_or_eq_of_mem_set hx with hx | rfl
    · exact h.running hs x hx
    · exact hu hs
  have hcount : ∀ u, (σ.workers.set i u).length = σ.cthreads := fun u => List.length_set.trans h.count
  cases hmove with
  | move _ _ hexited _ =>
    exact ⟨hcount _, h.bound, fun _ => hne _, h.stop, hset _ fun _ => hexited, h.joined⟩
  | pull _ _ => exact ⟨hcount _, h.bound, fun _ => hne _, h.stop, hset _ fun _ => rfl, h.joined⟩
  | exit hstop =>
    refine ⟨hcount _, h.bound, fun _ => hne _, h.stop, hset _ fun hs => ?_, h.joined⟩
    exact absurd (hs.symm.trans hstop) (by decide)
  | list => exact ⟨hcount _, h.bound, fun _ => hne _, h.stop, hset _ fun _ => rfl, h.joined⟩
  | check => exact ⟨hcount _, h.bound, fun _ => hne _, h.stop, hset _ fun _ => rfl, h.joined⟩

theorem Threads.writer (h : Threads P σ) (hmove : WriterMove P σ σ') : Threads P σ' := by
  have hrun : σ.writer ≠ .exited → ∀ w : Writer, σ.main.joined = true → w = .exited :=
    fun hne w hj => absurd (h.joined hj) hne
  cases hmove with
  | move hwriter hne _ _ _ => exact ⟨h.count, h.bound, h.launched, h.stop, h.running, hrun (hwriter ▸ hne) _⟩
  | take hwriter _ _ => exact ⟨h.count, h.bound, h.launched, h.stop, h.running, hrun (by rw [hwriter]; intro h; cases h) _⟩
  | pass hwriter _ _ => exact ⟨h.count, h.bound, h.launched, h.stop, h.running, hrun (by rw [hwriter]; intro h; cases h) _⟩
  | reset hwriter _ => exact ⟨h.count, h.bound, h.launched, h.stop, h.running, fun _ => rfl⟩

end Flow

end Libibtl.Pgz
