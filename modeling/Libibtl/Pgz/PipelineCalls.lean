import Libibtl.Pgz.PipelineRuns

/-! # The calls of the compressor

A call of `parallel_compress2` finds the threads and buffers as the call before has left
them. However the threads are scheduled, it returns after a bounded number of steps, and
the output is a file with its input.
-/

namespace Libibtl.Pgz

open Foundation CheckLib

/-! ## Every step leaves less to do -/

theorem sum_map_set {α : Type} (f : α → Nat) {l : List α} {i : Nat} {t : α} (h : l[i]? = some t) (u : α) :
    ((l.set i u).map f).sum + f t = (l.map f).sum + f u := by
  induction l generalizing i with
  | nil => cases h
  | cons x l ih =>
    cases i with
    | zero =>
      obtain rfl : x = t := by simpa using h
      simp only [List.set_cons_zero, List.map_cons, List.sum_cons]
      omega
    | succ i =>
      have := ih (i := i) (by simpa using h)
      simp only [List.set_cons_succ, List.map_cons, List.sum_cons]
      omega

section Calls

variable {P : Program} {plan : List Job} {addr before : List Byte} {σ σ' τ : State P.codec.Stream} {n : Nat}

theorem MainMove.left (hmove : MainMove P σ σ') (hnext : σ.main.Next n) : σ'.left n < σ.left n := by
  cases hmove with
  | move hmain _ _ _ hleft =>
    have := hleft n
    simp only [State.left, hmain]
    omega
  | @post v job ws c hmain hlaunch =>
    obtain ⟨-, hlt, -⟩ := hnext v job hmain
    have hsum : (ws.map Worker.left).sum ≤ (σ.workers.map Worker.left).sum + 1 := by
      obtain ⟨rfl, -⟩ | ⟨rfl, -⟩ := hlaunch
      · exact Nat.le_succ _
      · rw [List.map_append, List.sum_append]
        exact Nat.le_refl _
    have hmain' : (if job.more then Main.top { v with seq := v.seq + 1 } else .last v.next).left n + 30 ≤
        40 * (n - v.seq) + 6 := by
      split
      · dsimp only [Main.left]
        omega
      · dsimp only [Main.left]
        omega
    have hold : (Main.ready v job).left n = 40 * (n - v.seq) + 6 := rfl
    simp only [State.left, hmain, List.length_append, List.length_singleton]
    omega
  | join hmain _ =>
    simp only [State.left, hmain, Main.left]
    omega
  | stop hmain =>
    simp only [State.left, hmain, Main.left, List.length_nil]
    omega
  | collect hmain =>
    simp only [State.left, hmain, Main.left, List.map_nil, List.sum_nil]
    omega

theorem insertJob_length (job : JobCell) (l : List JobCell) : (insertJob job l).length = l.length + 1 :=
  (insertJob_perm job l).length_eq

theorem WorkerMove.left {i : Nat} {w w' : Worker P.codec.Stream} (hi : σ.workers[i]? = some w)
    (hmove : WorkerMove σ w σ' w') : (σ'.setWorker i w').left n < σ.left n := by
  have hsum := sum_map_set Worker.left hi w'
  cases hmove with
  | move _ _ _ hleft =>
    simp only [State.left, State.setWorker]
    omega
  | pull hcompress _ =>
    dsimp only [Worker.left] at hsum
    simp only [State.left, State.setWorker, hcompress, List.length_cons]
    omega
  | exit _ =>
    dsimp only [Worker.left] at hsum
    simp only [State.left, State.setWorker]
    omega
  | list =>
    dsimp only [Worker.left] at hsum
    simp only [State.left, State.setWorker, insertJob_length]
    omega
  | check =>
    dsimp only [Worker.left] at hsum
    simp only [State.left, State.setWorker]
    omega

theorem WriterMove.left (hmove : WriterMove P σ σ') : σ'.left n < σ.left n := by
  cases hmove with
  | move hwriter _ _ _ hleft =>
    simp only [State.left, hwriter]
    omega
  | take hwriter _ hwrite =>
    simp only [State.left, hwriter, hwrite, List.length_cons, Writer.left]
    omega
  | @pass v more len check sum hwriter _ _ =>
    simp only [State.left, hwriter]
    cases more with
    | true =>
      simp only [if_true, Writer.left]
      omega
    | false =>
      simp only [Bool.false_eq_true, if_false, Writer.left]
      omega
  | reset hwriter _ =>
    simp only [State.left, hwriter, Writer.left]
    omega

theorem Good.left (hp : Planned P addr plan) (h : Good P addr plan before σ) (hstep : Step P addr σ σ') :
    σ'.left plan.length < σ.left plan.length := by
  cases hstep with
  | main hdone => exact (mainMove hdone).left (main_next hp h.memory)
  | worker hi _ hdone => exact (workerMove hdone).left hi
  | writer hdone => exact (writerMove hdone).left

theorem Good.run (hp : Planned P addr plan) (hprocs : 0 < P.procs) (h : Good P addr plan before σ)
    (hrun : Run P addr σ n τ) : Good P addr plan before τ ∧ n + τ.left plan.length ≤ σ.left plan.length := by
  induction hrun with
  | nil => exact ⟨h, by omega⟩
  | step _ hstep ih =>
    obtain ⟨hgood, hle⟩ := ih
    have := hgood.left hp hstep
    exact ⟨hgood.step hp hprocs hstep, by omega⟩

/-! ## Between two calls -/

/-- No call is going on: the compress threads wait for a job, and every buffer is in its pool. -/
structure Rested (P : Program) (σ : State P.codec.Stream) : Prop where
  main : σ.main = .returned
  writer : σ.writer = .exited
  compress : σ.compress = []
  compressHave : σ.compressHave = 0
  stop : σ.stop = false
  write : σ.write = []
  writeFirst : σ.writeFirst = -1
  workers : ∀ w ∈ σ.workers, ∃ strm, w = .idle strm
  count : σ.workers.length = σ.cthreads
  bound : σ.cthreads ≤ P.procs
  owned : Owned P.limit σ.heap []

theorem rested_setup (P : Program) : Rested P P.setup where
  main := rfl
  writer := rfl
  compress := rfl
  compressHave := rfl
  stop := rfl
  write := rfl
  writeFirst := rfl
  workers _ hw := absurd hw List.not_mem_nil
  count := rfl
  bound := Nat.zero_le _
  owned := Owned.new P.limit

theorem Rested.call (h : Rested P σ) : Good P addr plan σ.output σ.call := by
  have hunchecked : σ.workers.flatMap Worker.unchecked = [] := by
    apply List.flatMap_eq_nil_iff.2
    intro w hw
    obtain ⟨strm, rfl⟩ := h.workers w hw
    rfl
  obtain ⟨hrefs, hcarried⟩ := refs_of_workers hunchecked
  have hothers : σ.call.others = [] := by
    simp only [State.others, State.call, h.compress, h.write, hrefs]
    rfl
  have hpending : σ.call.pending = [] := by
    simp only [State.pending, State.call, h.compress, hcarried]
    rfl
  have hnone : σ.call.unchecked = [] := by
    simp only [State.unchecked, State.call, h.compress, hunchecked]
    rfl
  have hcompress : σ.call.compress = [] := h.compress
  have hwrite : σ.call.write = [] := h.write
  constructor
  · refine ⟨⟨?_, List.nodup_nil, fun s hs => absurd hs List.not_mem_nil⟩, trivial, ?_, ?_, ?_, trivial⟩
    · rw [hothers]
      exact h.owned
    · intro cell hcell
      rw [hcompress] at hcell
      exact absurd hcell List.not_mem_nil
    · intro w hw
      obtain ⟨strm, rfl⟩ := h.workers w hw
      trivial
    · intro cell hcell
      rw [hwrite] at hcell
      exact absurd hcell List.not_mem_nil
  · refine ⟨Nat.zero_le _, ?_, ?_, ?_, ?_⟩
    · rw [hpending, hwrite]
      exact List.Perm.refl _
    · rw [hwrite]
      exact List.Pairwise.nil
    · rw [hwrite]
      exact h.writeFirst
    · have hhave : σ.call.compressHave = 0 := h.compressHave
      have hstop : σ.call.stop = false := h.stop
      rw [hhave, hstop, hcompress]
      rfl
  · refine ⟨?_, fun k => ?_, fun k c hc => ?_, fun k hk => absurd hk (Nat.not_lt_zero k)⟩
    · rw [hnone]
      exact List.nodup_nil
    · rw [hnone]
      exact iff_of_false List.not_mem_nil fun hk => absurd hk.1 (Nat.not_lt_zero k)
    · cases hc
  · refine ⟨h.count, h.bound, fun hne => absurd hcompress hne, h.stop, fun _ w hw => ?_, fun hj => ?_⟩
    · obtain ⟨strm, rfl⟩ := h.workers w hw
      rfl
    · cases hj
  · exact rfl

theorem Good.returned (hp : Planned P addr plan) (h : Good P addr plan before σ) (hmain : σ.main = .returned) :
    Rested P σ ∧ ∃ a, σ.output = before ++ P.file addr a ∧ P.codec.decodes [] a addr true := by
  have hjoined := h.threads.joined
  have hstop := h.threads.stop
  rw [hmain] at hjoined hstop
  have hwriter := hjoined rfl
  obtain ⟨hcompress, hwrite, hunchecked, hothers⟩ := h.quiet hwriter
  constructor
  · constructor
    · exact hmain
    · exact hwriter
    · exact hcompress
    · rw [h.order.waiting, hcompress, hstop]
      rfl
    · exact hstop
    · exact hwrite
    · rw [h.order.first, hwrite]
      rfl
    · intro w hw
      have hnone := List.flatMap_eq_nil_iff.1 hunchecked w hw
      have hrunning := h.threads.running hstop w hw
      cases w with
      | idle strm => exact ⟨strm, rfl⟩
      | exited => cases hrunning
      | _ => cases hnone
    · exact h.threads.count
    · exact h.threads.bound
    · have howned := h.memory.held.owned
      rw [hmain, hothers] at howned
      exact howned
  · have hwrote := h.wrote
    rw [hwriter] at hwrote
    obtain ⟨a, hout, hdecodes⟩ := hwrote
    have htext : textTo plan plan.length = addr := by
      rw [textTo, List.take_length]
      exact hp.text
    rw [htext] at hout hdecodes
    exact ⟨a, hout, hdecodes⟩

/-- The calls of `parallel_compress2` with the inputs `inputs`, one after the other. -/
inductive Calls (P : Program) : State P.codec.Stream → List (List Byte) → State P.codec.Stream → Prop
  | nil (σ : State P.codec.Stream) : Calls P σ [] σ
  | call {σ σ' τ : State P.codec.Stream} {inputs : List (List Byte)} {addr : List Byte} {n : Nat}
    (hcalls : Calls P σ inputs σ') (hrun : Run P addr σ'.call n τ) (hmain : τ.main = .returned) :
    Calls P σ (inputs ++ [addr]) τ

theorem Calls.spec {inputs : List (List Byte)} (ho : P.opt.Ok) (hprocs : 0 < P.procs) (h : Rested P σ)
    (hcalls : Calls P σ inputs τ) :
    Rested P τ ∧ ∃ as, List.Forall₂ (fun text a => P.codec.decodes [] a text true) inputs as ∧
      τ.output = σ.output ++ (List.zipWith P.file inputs as).flatten := by
  induction hcalls with
  | nil => exact ⟨h, [], .nil, (List.append_nil _).symm⟩
  | call _ hrun hmain ih =>
    obtain ⟨hrested, as, has, hout⟩ := ih
    obtain ⟨plan, hp⟩ := planned ho _
    obtain ⟨hrested', a, hout', ha⟩ := (hrested.call.run hp hprocs hrun).1.returned hp hmain
    refine ⟨hrested', as ++ [a], List.rel_append has (.cons ha .nil), ?_⟩
    rw [hout', hout, List.zipWith_append has.length_eq, List.flatten_append]
    simp

theorem Run.cons (hstep : Step P addr σ σ') (hrun : Run P addr σ' n τ) : Run P addr σ (n + 1) τ := by
  induction hrun with
  | nil => exact .step (.nil σ) hstep
  | step _ hstep' ih => exact .step ih hstep'

theorem Step.joined (hstep : Step P addr σ σ') (hmain : σ.main.joined = false) :
    σ'.main.joined = false ∨ σ'.main = .returned := by
  cases hstep with
  | main hdone =>
    cases mainMove hdone with
    | move hm _ hjoined _ _ =>
      rw [hm] at hmain
      exact .inl (hjoined.trans hmain)
    | @post v job ws c hm _ =>
      left
      dsimp only
      split
      · rfl
      · rfl
    | join _ _ => exact .inr rfl
    | stop hm =>
      rw [hm] at hmain
      cases hmain
    | collect hm =>
      rw [hm] at hmain
      cases hmain
  | worker _ _ hdone => cases workerMove hdone <;> exact .inl hmain
  | writer hdone => cases writerMove hdone <;> exact .inl hmain

/-- A call returns, if the threads go on as long as one of them can. -/
theorem exists_return (hp : Planned P addr plan) (hprocs : 0 < P.procs) (h : Good P addr plan before σ)
    (hmain : σ.main.joined = false ∨ σ.main = .returned) : ∃ n τ, Run P addr σ n τ ∧ τ.main = .returned := by
  generalize hk : σ.left plan.length = k
  induction k using Nat.strongRecOn generalizing σ with
  | _ k ih =>
    rcases hmain with hmain | hmain
    · rcases h.progress hp hprocs with ⟨σ', hstep⟩ | hfinished
      · have hlt := h.left hp hstep
        rw [hk] at hlt
        obtain ⟨n, τ, hrun, hreturned⟩ := ih _ hlt (h.step hp hprocs hstep) (hstep.joined hmain) rfl
        exact ⟨n + 1, τ, hrun.cons hstep, hreturned⟩
      · rw [hfinished] at hmain
        cases hmain
    · exact ⟨0, σ, .nil σ, hmain⟩

theorem exists_call (ho : P.opt.Ok) (hprocs : 0 < P.procs) (h : Rested P σ) (addr : List Byte) :
    ∃ n τ, Run P addr σ.call n τ ∧ τ.main = .returned := by
  obtain ⟨plan, hp⟩ := planned ho addr
  have hgood : Good P addr plan σ.output σ.call := h.call
  exact exists_return hp hprocs hgood (.inl rfl)

/-- Two compress threads and a compression library that stores. -/
def storedProgram : Program := ⟨⟨32768, false, true⟩, ⟨0, 6, none, 0, 0⟩, standard, storedCodec, 2⟩

/-- A call makes a bounded number of steps. As long as the main thread is not through, with `finish_jobs` in the end,
one of the threads does not wait. -/
theorem calls_end (ho : P.opt.Ok) (hprocs : 0 < P.procs) {inputs : List (List Byte)}
    (hcalls : Calls P P.setup inputs σ) (hrun : Run P addr σ.call n τ) :
    (∃ jobs, feed P.opt addr = some jobs ∧ n ≤ 40 * jobs.length + P.procs + 17) ∧
      ((∃ τ', Step P addr τ τ') ∨ τ.main = .finished) := by
  obtain ⟨hrested, -⟩ := hcalls.spec ho hprocs (rested_setup P)
  obtain ⟨plan, hp⟩ := planned ho addr
  obtain ⟨hgood, hle⟩ := hrested.call.run hp hprocs hrun
  refine ⟨⟨plan, hp.feed, ?_⟩, hgood.progress hp hprocs⟩
  have hidle : (σ.workers.map Worker.left).sum ≤ P.procs := by
    have hone : σ.workers.map Worker.left = List.replicate σ.workers.length 1 := by
      apply List.eq_replicate_iff.2 ⟨List.length_map _, fun k hk => ?_⟩
      obtain ⟨w, hw, rfl⟩ := List.mem_map.1 hk
      obtain ⟨strm, rfl⟩ := hrested.workers w hw
      rfl
    rw [hone, List.sum_replicate_nat, Nat.mul_one, hrested.count]
    exact hrested.bound
  have hstart : σ.call.left plan.length = 40 * plan.length + 11 + (20 * σ.compress.length +
      ((σ.workers.map Worker.left).sum + (8 * σ.write.length + 6))) := rfl
  rw [hrested.compress, hrested.write] at hstart
  simp only [List.length_nil] at hstart
  omega

theorem calls_end_stored : ∃ τ n, Run storedProgram [1, 2, 3] storedProgram.setup.call n τ ∧ τ.main = .returned ∧ n ≤ 59 ∧
    ∃ τ', Step storedProgram [1, 2, 3] τ τ' := by
  have ho : storedProgram.opt.Ok := ⟨by decide, by decide⟩
  obtain ⟨n, τ, hrun, hreturned⟩ := exists_call ho (by decide) (rested_setup storedProgram) [1, 2, 3]
  obtain ⟨⟨jobs, hjobs, hle⟩, hstep⟩ := calls_end ho (by decide) (.nil _) hrun
  have hone : (feed storedProgram.opt [1, 2, 3]).map List.length = some 1 := by decide +kernel
  rw [hjobs] at hone
  refine ⟨τ, n, hrun, hreturned, ?_, hstep.resolve_right ?_⟩
  · rw [Option.some.inj hone] at hle
    exact hle
  · rw [hreturned]
    intro h
    cases h

end Calls

end Libibtl.Pgz
