import Libibtl.Pgz.PipelineMain
import Libibtl.Pgz.PipelineWriter

/-! # The order of the jobs

A posted job is in one place: in the first list, with a compress thread, in the list of
the write thread, or taken from there. Its check value comes once. So the write thread
finds the jobs in the order in which they were posted.
-/

namespace Libibtl.Pgz

open Foundation CheckLib

/-- How many of the `n` jobs the main thread has posted. -/
def Main.posted (n : Nat) : Main → Nat
  | .start => 0
  | .top v => v.seq
  | .fed v _ => v.seq
  | .scanned v _ _ _ => v.seq
  | .filled v _ _ => v.seq
  | .ready v _ => v.seq
  | _ => n

/-- The write thread has been joined. -/
def Main.joined : Main → Bool
  | .returned => true
  | .collect => true
  | .finished => true
  | _ => false

/-- The compress threads have been told to return. -/
def Main.stopped : Main → Bool
  | .collect => true
  | .finished => true
  | _ => false

/-- The job that a compress thread has to put into the write list. -/
def Worker.carried {S : Type} : Worker S → List Nat
  | .got _ job => [job.seq]
  | .fresh _ job _ => [job.seq]
  | .compressed _ job => [job.seq]
  | .released _ job => [job.seq]
  | .reserved _ job => [job.seq]
  | _ => []

/-- The job that a compress thread has to store a check value for. -/
def Worker.unchecked {S : Type} : Worker S → List Nat
  | .listed _ seq _ => [seq]
  | .checked _ seq _ => [seq]
  | w => w.carried

/-- How many of the `n` jobs the write thread has taken. -/
def Writer.taken (n : Nat) : Writer → Nat
  | .header => 0
  | .wait v => v.seq
  | .took v _ => v.seq + 1
  | .wrote v _ _ => v.seq + 1
  | .dropped v _ _ => v.seq + 1
  | _ => n

/-- How many of the `n` jobs the write thread is done with. -/
def Writer.passed (n : Nat) : Writer → Nat
  | .header => 0
  | .wait v => v.seq
  | .took v _ => v.seq
  | .wrote v _ _ => v.seq
  | .dropped v _ _ => v.seq
  | _ => n

/-! ## What is left to do -/

/-- A bound for the steps of the main thread, with what the other threads do with the jobs that it still posts. -/
def Main.left (n : Nat) : Main → Nat
  | .start => 40 * n + 11
  | .top v => 40 * (n - v.seq) + 10
  | .fed v _ => 40 * (n - v.seq) + 9
  | .scanned v _ _ _ => 40 * (n - v.seq) + 8
  | .filled v _ _ => 40 * (n - v.seq) + 7
  | .ready v _ => 40 * (n - v.seq) + 6
  | .last _ => 5
  | .join => 4
  | .returned => 3
  | .collect => 2
  | .finished => 1

def Worker.left {S : Type} : Worker S → Nat
  | .got _ _ => 19
  | .fresh _ _ _ => 18
  | .compressed _ _ => 17
  | .released _ _ => 16
  | .reserved _ _ => 15
  | .listed _ _ _ => 3
  | .checked _ _ _ => 2
  | .idle _ => 1
  | .exited => 0

def Writer.left : Writer → Nat
  | .took _ _ => 12
  | .wrote _ _ _ => 11
  | .dropped _ _ _ => 10
  | .header => 6
  | .wait _ => 5
  | .trailer _ => 4
  | .verify => 3
  | .verified => 2
  | .exited => 1

namespace State

variable {S : Type} (σ : State S)

/-- A bound for the steps of all threads. -/
def left (n : Nat) : Nat :=
  σ.main.left n + (20 * σ.compress.length + ((σ.workers.map Worker.left).sum + (8 * σ.write.length + σ.writer.left)))

/-- The jobs that are not in the write list yet. -/
def pending : List Nat := σ.compress.map JobCell.seq ++ σ.workers.flatMap Worker.carried

/-- The jobs without a check value. -/
def unchecked : List Nat := σ.compress.map JobCell.seq ++ σ.workers.flatMap Worker.unchecked

end State

/-- Where the jobs are. -/
structure Order (n : Nat) {S : Type} (σ : State S) : Prop where
  posted : σ.main.posted n ≤ n
  jobs : (σ.pending ++ (σ.write.map JobCell.seq ++ List.range (σ.writer.taken n))).Perm (List.range (σ.main.posted n))
  sorted : (σ.write.map JobCell.seq).Pairwise (· ≤ ·)
  first : σ.writeFirst = firstSeq σ.write
  waiting : σ.compressHave = σ.compress.length + σ.stop.toNat

/-- Which check values there are. -/
structure Checks (P : Program) (plan : List Job) {S : Type} (σ : State S) : Prop where
  nodup : σ.unchecked.Nodup
  unchecked : ∀ k, k ∈ σ.unchecked ↔ k < σ.main.posted plan.length ∧ σ.checks k = none
  checks : ∀ k c, σ.checks k = some c → k < σ.main.posted plan.length ∧
    ∃ job, plan[k]? = some job ∧ c = P.lib.jobCheck P.header.form job.input
  passed : ∀ k < σ.writer.passed plan.length, σ.checks k ≠ none

/-- Which threads there are. -/
structure Threads (P : Program) {S : Type} (σ : State S) : Prop where
  count : σ.workers.length = σ.cthreads
  bound : σ.cthreads ≤ P.procs
  launched : σ.compress ≠ [] → σ.workers ≠ []
  stop : σ.stop = σ.main.stopped
  running : σ.stop = false → ∀ w ∈ σ.workers, w.isExited = false
  joined : σ.main.joined = true → σ.writer = .exited

/-! ## What the steps do to the lists -/

section Moves

variable {P : Program} {addr : List Byte} {σ σ' : State P.codec.Stream}

/-- A step of the main thread, but for its buffers. -/
inductive MainMove (P : Program) (σ : State P.codec.Stream) : State P.codec.Stream → Prop
  | move {heap : Spaces} {m m' : Main} (hmain : σ.main = m) (hposted : ∀ n, m'.posted n = m.posted n)
    (hjoined : m'.joined = m.joined) (hstopped : m'.stopped = m.stopped) (hleft : ∀ n, m.left n = m'.left n + 1) :
    MainMove P σ { σ with heap := heap, main := m' }
  | post {v : Vars} {job : JobCell} {ws : List (Worker P.codec.Stream)} {c : Nat} (hmain : σ.main = .ready v job)
    (hlaunch : ws = σ.workers ∧ c = σ.cthreads ∧ ¬(σ.cthreads < v.seq + 1 ∧ σ.cthreads < P.procs) ∨
      ws = σ.workers ++ [.idle P.codec.init] ∧ c = σ.cthreads + 1 ∧ σ.cthreads < P.procs) :
    MainMove P σ { σ with
      workers := ws
      cthreads := c
      compress := σ.compress ++ [job]
      compressHave := σ.compressHave + 1
      main := if job.more then .top { v with seq := v.seq + 1 } else .last v.next }
  | join (hmain : σ.main = .join) (hwriter : σ.writer = .exited) : MainMove P σ { σ with main := .returned }
  | stop (hmain : σ.main = .returned) :
    MainMove P σ { σ with stop := true, compress := [], compressHave := σ.compressHave + 1, main := .collect }
  | collect (hmain : σ.main = .collect) : MainMove P σ { σ with workers := [], cthreads := 0, main := .finished }

theorem withSpace_done {α : Type} {h : Spaces} {p : PoolName} {k : Space → Spaces → Outcome α} {a : α}
    (hdone : withSpace h p k = .done a) : ∃ s h', k s h' = .done a := by
  rw [withSpace] at hdone
  split at hdone
  · next s h' _ => exact ⟨s, h', hdone⟩
  · cases hdone
  · cases hdone

theorem withDrop_done {α : Type} {h : Spaces} {s : Space} {k : Spaces → α} {a : α} (hdone : withDrop h s k = .done a) :
    ∃ h', k h' = a := by
  rw [withDrop] at hdone
  split at hdone
  · next h' _ => exact ⟨h', Outcome.done.inj hdone⟩
  · cases hdone
  · cases hdone

theorem mainMove (hstep : σ.mainStep P addr = .done σ') : MainMove P σ σ' := by
  rw [State.mainStep] at hstep
  split at hstep
  · next hmain =>
    obtain ⟨s, h, hdone⟩ := withSpace_done hstep
    cases hdone
    exact .move hmain (fun _ => rfl) rfl rfl fun _ => rfl
  · next v hmain =>
    split at hstep
    · cases hstep
      exact .move hmain (fun _ => rfl) rfl rfl fun _ => rfl
    · obtain ⟨s, h, hdone⟩ := withSpace_done hstep
      cases hdone
      exact .move hmain (fun _ => rfl) rfl rfl fun _ => rfl
  · next v curr hmain =>
    split at hstep
    · cases hstep
    · split at hstep
      · cases hstep
        exact @MainMove.move P σ σ.heap _ _ hmain (fun _ => rfl) rfl rfl fun _ => rfl
      · obtain ⟨s, h, hdone⟩ := withSpace_done hstep
        cases hdone
        exact .move hmain (fun _ => rfl) rfl rfl fun _ => rfl
  · next v curr c lens hmain =>
    dsimp only at hstep
    split at hstep
    · cases hstep
      exact .move hmain (fun _ => rfl) rfl rfl fun _ => rfl
    · obtain ⟨s, h, hdone⟩ := withSpace_done hstep
      cases hdone
      exact .move hmain (fun _ => rfl) rfl rfl fun _ => rfl
  · next v curr lens hmain =>
    dsimp only at hstep
    split at hstep
    · split at hstep
      · cases hstep
        exact .move hmain (fun _ => rfl) rfl rfl fun _ => rfl
      · split at hstep
        · cases hstep
          exact .move hmain (fun _ => rfl) rfl rfl fun _ => rfl
        · obtain ⟨s, h, hdone⟩ := withSpace_done hstep
          split at hdone
          · cases hdone
            exact .move hmain (fun _ => rfl) rfl rfl fun _ => rfl
          · cases hdone
    · cases hstep
      exact @MainMove.move P σ σ.heap _ _ hmain (fun _ => rfl) rfl rfl fun _ => rfl
  · next v job hmain =>
    cases hstep
    by_cases hlaunch : σ.cthreads < v.seq + 1 ∧ σ.cthreads < P.procs
    · simp only [if_pos hlaunch]
      exact .post hmain (.inr ⟨rfl, rfl, hlaunch.2⟩)
    · simp only [if_neg hlaunch]
      exact .post hmain (.inl ⟨rfl, rfl, hlaunch⟩)
  · next next hmain =>
    obtain ⟨h, hdone⟩ := withDrop_done hstep
    rw [← hdone]
    exact .move hmain (fun _ => rfl) rfl rfl fun _ => rfl
  · next hmain =>
    split at hstep
    · next hwriter =>
      cases hstep
      exact .join hmain hwriter
    · cases hstep
  · next hmain =>
    cases hstep
    exact .stop hmain
  · next hmain =>
    split at hstep
    · split at hstep
      · cases hstep
        exact .collect hmain
      · cases hstep
    · cases hstep
  · cases hstep

/-- A step of a compress thread, but for the buffers. -/
inductive WorkerMove (σ : State P.codec.Stream) :
    Worker P.codec.Stream → State P.codec.Stream → Worker P.codec.Stream → Prop
  | move {heap : Spaces} {w w' : Worker P.codec.Stream} (hcarried : w'.carried = w.carried)
    (hunchecked : w'.unchecked = w.unchecked) (hexited : w'.isExited = false) (hleft : w.left = w'.left + 1) :
    WorkerMove σ w { σ with heap := heap } w'
  | pull {strm : P.codec.Stream} {job : JobCell} {rest : List JobCell} (hcompress : σ.compress = job :: rest)
    (hstop : σ.stop = false) :
    WorkerMove σ (.idle strm) { σ with compress := rest, compressHave := σ.compressHave - 1 } (.got strm job)
  | exit {strm : P.codec.Stream} (hstop : σ.stop = true) : WorkerMove σ (.idle strm) σ .exited
  | list {strm : P.codec.Stream} {job : JobCell} : WorkerMove σ (.reserved strm job)
      { σ with write := insertJob job σ.write, writeFirst := firstSeq (insertJob job σ.write) }
      (.listed strm job.seq job.input)
  | check {strm : P.codec.Stream} {seq : Nat} {check : ULong} : WorkerMove σ (.checked strm seq check)
      { σ with checks := Function.update σ.checks seq (some check) } (.idle strm)

theorem workerMove {w w' : Worker P.codec.Stream} {strm' : P.codec.Stream} {bytes : List Byte}
    (hstep : σ.workerStep P strm' bytes w = .done (σ', w')) : WorkerMove σ w σ' w' := by
  cases w with
  | idle strm =>
    rw [State.workerStep] at hstep
    split at hstep
    · cases hstep
    · split at hstep
      · next hstop =>
        cases hstep
        exact .exit hstop
      · next hstop =>
        split at hstep
        · cases hstep
        · next job rest hcompress =>
          cases hstep
          exact .pull hcompress (Bool.eq_false_iff.2 hstop)
  | got strm job =>
    rw [State.workerStep] at hstep
    split at hstep
    · cases hstep
      exact @WorkerMove.move P σ σ.heap _ _ rfl rfl rfl rfl
    · obtain ⟨h, hdone⟩ := withDrop_done hstep
      cases hdone
      exact .move rfl rfl rfl rfl
  | fresh strm job dict =>
    rw [State.workerStep] at hstep
    split at hstep
    · cases hstep
    · obtain ⟨out, h, hdone⟩ := withSpace_done hstep
      cases hdone
      exact .move rfl rfl rfl rfl
  | compressed strm job =>
    rw [State.workerStep] at hstep
    split at hstep
    · cases hstep
      exact @WorkerMove.move P σ σ.heap _ _ rfl rfl rfl rfl
    · obtain ⟨h, hdone⟩ := withDrop_done hstep
      cases hdone
      exact .move rfl rfl rfl rfl
  | released strm job =>
    cases hstep
    exact .move rfl rfl rfl rfl
  | reserved strm job =>
    cases hstep
    exact .list
  | listed strm seq input =>
    rw [State.workerStep] at hstep
    obtain ⟨h, hdone⟩ := withDrop_done hstep
    cases hdone
    exact .move rfl rfl rfl rfl
  | checked strm seq check =>
    cases hstep
    exact .check
  | exited => cases hstep

/-- A step of the write thread, but for the buffers and the output. -/
inductive WriterMove (P : Program) (σ : State P.codec.Stream) : State P.codec.Stream → Prop
  | move {heap : Spaces} {out : List Byte} {w w' : Writer} (hwriter : σ.writer = w) (hrun : w ≠ .exited)
    (htaken : ∀ n, w'.taken n = w.taken n) (hpassed : ∀ n, w'.passed n = w.passed n) (hleft : w.left = w'.left + 1) :
    WriterMove P σ { σ with heap := heap, output := out, writer := w' }
  | take {v : Sums} {job : JobCell} {rest : List JobCell} (hwriter : σ.writer = .wait v) (hfirst : σ.writeFirst = v.seq)
    (hwrite : σ.write = job :: rest) :
    WriterMove P σ { σ with write := rest, writeFirst := firstSeq rest, writer := .took v job }
  | pass {v : Sums} {more : Bool} {len : Nat} {check sum : ULong} (hwriter : σ.writer = .dropped v more len)
    (hcheck : σ.checks v.seq = some check) (hsum : sum = comb P.header.form v.check check (BitVec.ofNat 64 len)) :
    WriterMove P σ { σ with
      writer := if more then .wait { v with seq := v.seq + 1, check := sum }
        else .trailer { v with seq := v.seq + 1, check := sum } }
  | reset (hwriter : σ.writer = .verified) (hwrite : σ.write = []) :
    WriterMove P σ { σ with writeFirst := -1, writer := .exited }

theorem writerMove (hstep : σ.writerStep P = .done σ') : WriterMove P σ σ' := by
  rw [State.writerStep] at hstep
  split at hstep
  · next hwriter =>
    cases hstep
    exact @WriterMove.move P σ σ.heap _ _ _ hwriter (fun h => by cases h) (fun _ => rfl) (fun _ => rfl) rfl
  · next v hwriter =>
    split at hstep
    · next hfirst =>
      split at hstep
      · cases hstep
      · next job rest hwrite =>
        cases hstep
        exact .take hwriter hfirst hwrite
    · cases hstep
  · next v job hwriter =>
    split at hstep
    · cases hstep
    · obtain ⟨h, hdone⟩ := withDrop_done hstep
      cases hdone
      exact .move hwriter (fun h => by cases h) (fun _ => rfl) (fun _ => rfl) rfl
  · next v job len hwriter =>
    split at hstep
    · cases hstep
    · obtain ⟨h, hdone⟩ := withDrop_done hstep
      cases hdone
      exact @WriterMove.move P σ _ σ.output _ _ hwriter (fun h => by cases h) (fun _ => rfl) (fun _ => rfl) rfl
  · next v more len hwriter =>
    split at hstep
    · cases hstep
    · next check hcheck =>
      cases hstep
      exact .pass hwriter hcheck rfl
  · next v hwriter =>
    cases hstep
    exact @WriterMove.move P σ σ.heap _ _ _ hwriter (fun h => by cases h) (fun _ => rfl) (fun _ => rfl) rfl
  · next hwriter =>
    split at hstep
    · cases hstep
      exact @WriterMove.move P σ σ.heap σ.output _ _ hwriter (fun h => by cases h) (fun _ => rfl) (fun _ => rfl) rfl
    · cases hstep
  · next hwriter =>
    split at hstep
    · next hwrite =>
      cases hstep
      exact .reset hwriter hwrite
    · cases hstep
  · cases hstep

end Moves

end Libibtl.Pgz
