import Libibtl.Pgz.CompressThread
import Libibtl.Pgz.Pipeline

/-! # The buffers of the threads

Every buffer has as many references as its use count says: from the main thread, from
the jobs in the lists, from the threads that work on them. What a thread finds in a
buffer is therefore what was stored there for it.
-/

namespace Libibtl.Pgz

open Foundation

/-! ## References -/

def JobCell.refs (job : JobCell) : List Space := job.input :: (job.out.toList ++ job.lens.toList)

/-- The buffers that only the main thread refers to. -/
def Main.solo : Main → List Space
  | .top v => v.next :: v.hold.toList
  | .fed v curr => curr :: v.next :: v.hold.toList
  | .scanned v curr _ _ => curr :: v.next :: v.hold.toList
  | .filled v curr _ => curr :: v.next :: v.hold.toList
  | .ready v _ => v.next :: v.hold.toList
  | .last next => [next]
  | _ => []

/-- The other references of the main thread. -/
def Main.shared : Main → List Space
  | .top v => v.dict.toList
  | .fed v _ => v.dict.toList
  | .scanned v _ _ lens => v.dict.toList ++ lens.toList
  | .filled v _ lens => v.dict.toList ++ lens.toList
  | .ready v job => (if job.more then v.dict.toList else []) ++ job.refs
  | _ => []

def Worker.refs {S : Type} : Worker S → List Space
  | .got _ job => job.refs
  | .fresh _ job _ => job.input :: job.lens.toList
  | .compressed _ job => job.refs
  | .released _ job => job.refs
  | .reserved _ job => job.input :: job.refs
  | .listed _ _ input => [input]
  | _ => []

def Writer.refs : Writer → List Space
  | .took _ job => job.refs
  | .wrote _ job _ => job.out.toList ++ job.lens.toList
  | _ => []

/-- The references of the other threads and of the lists. -/
def State.others {S : Type} (σ : State S) : List Space :=
  σ.compress.flatMap JobCell.refs ++ (σ.workers.flatMap Worker.refs ++ (σ.write.flatMap JobCell.refs ++ σ.writer.refs))

def State.refs {S : Type} (σ : State S) : List Space := σ.main.solo ++ (σ.main.shared ++ σ.others)

/-! ## What the buffers hold -/

section Contents

variable (P : Program) (plan : List Job) (buf : Space → List Byte)

/-- The compressed bytes of a job decode to its input, behind its dictionary. -/
def Coded (job : Job) (bytes : List Byte) : Prop :=
  P.codec.decodes ((job.dict.map window).getD []) bytes job.input (!job.more)

/-- A job as the main thread has posted it. -/
structure Posted (job : Job) (cell : JobCell) : Prop where
  planned : plan[cell.seq]? = some job
  more : cell.more = job.more
  input : buf cell.input = job.input
  lens : cell.lens.map buf = job.lens

/-- A job with its result. -/
structure Packed (job : Job) (cell : JobCell) : Prop where
  planned : plan[cell.seq]? = some job
  more : cell.more = job.more
  input : buf cell.input = job.input
  out : ∃ out, cell.out = some out ∧ Coded P job (buf out)

/-- The job of a compress thread. -/
def Worker.Holds {S : Type} : Worker S → Prop
  | .got _ cell => ∃ job, Posted plan buf job cell ∧ cell.out.map buf = job.dict
  | .fresh _ cell dict => ∃ job, Posted plan buf job cell ∧ dict = job.dict.map window
  | .compressed _ cell => ∃ job, Packed P plan buf job cell
  | .released _ cell => ∃ job, Packed P plan buf job cell ∧ cell.lens = none
  | .reserved _ cell => ∃ job, Packed P plan buf job cell ∧ cell.lens = none
  | .listed _ seq input => ∃ job, plan[seq]? = some job ∧ buf input = job.input
  | .checked _ seq check => ∃ job, plan[seq]? = some job ∧ check = P.lib.jobCheck P.header.form job.input
  | _ => True

/-- The job in the hands of the write thread. -/
def Writer.Holds : Writer → Prop
  | .took _ cell => ∃ job, Packed P plan buf job cell ∧ cell.lens = none
  | .wrote _ cell len => ∃ job, plan[cell.seq]? = some job ∧ cell.more = job.more ∧ cell.lens = none ∧
      len = job.input.length ∧ cell.out.isSome
  | _ => True

/-- The variables and buffers of the main thread as those of `feedLoop`. -/
def Vars.feed (v : Vars) : Feed :=
  ⟨v.offset, v.seq, buf v.next, v.hold.map buf, v.dict.map buf, v.scan, v.hash, v.left⟩

/-- The jobs that are still to be made from `f`. -/
def Feeding (o : Options) (addr : List Byte) (f : Feed) : Prop :=
  ∃ n pre, Fed o addr pre f ∧ (pre ≠ [] → f.next ≠ []) ∧ feedLoop o addr n f = some (plan.drop f.seq)

/-- The turn that makes `job` from `f`. -/
structure Turn (o : Options) (addr : List Byte) (f f' : Feed) (job : Job) : Prop where
  turn : turn o addr f = some (job, f')
  planned : plan[f.seq]? = some job
  rest : job.more = true → Feeding plan o addr f'
  last : job.more = false → f.seq + 1 = plan.length ∧ f'.hold = none

/-- What the main thread has in its buffers. -/
def Main.Holds (o : Options) (addr : List Byte) : Main → Prop
  | .top v => Feeding plan o addr (v.feed buf)
  | .fed v curr => ∃ f f' job, Turn plan o addr f f' job ∧ v.seq = f.seq ∧ buf curr = f.next ∧
      v.dict.map buf = f.dict ∧ f.following o addr = (buf v.next, v.offset) ∧ v.hold = none ∧ v.scan = f.scan ∧
      v.hash = f.hash ∧ v.left = f.left
  | .scanned v curr c lens => ∃ f f' job, Turn plan o addr f f' job ∧ v.seq = f.seq ∧ buf curr = f.next ∧
      v.dict.map buf = f.dict ∧ f.following o addr = (buf v.next, v.offset) ∧ v.hold = none ∧
      f.cut o f.next (f.following o addr).1 = some c ∧ lens.map buf = c.lens
  | .filled v curr lens => ∃ f f' job, Turn plan o addr f f' job ∧ v.seq = f.seq ∧ buf curr = job.input ∧
      v.dict.map buf = f.dict ∧ lens.map buf = job.lens ∧ buf v.next = f'.next ∧ v.hold.map buf = f'.hold ∧
      v.offset = f'.offset ∧ v.scan = f'.scan ∧ v.hash = f'.hash ∧ v.left = f'.left
  | .ready v cell => ∃ f f' job, Turn plan o addr f f' job ∧ v.seq = f.seq ∧ cell.seq = f.seq ∧ Posted plan buf job cell ∧
      cell.out.map buf = job.dict ∧ v.hold.map buf = f'.hold ∧
        (cell.more = true → { v with seq := v.seq + 1 }.feed buf = f')
  | _ => True

/-- What the buffers hold that something refers to. -/
structure Contents (addr : List Byte) {S : Type} (σ : State S) : Prop where
  main : σ.main.Holds plan buf P.opt addr
  compress : ∀ cell ∈ σ.compress, ∃ job, Posted plan buf job cell ∧ cell.out.map buf = job.dict
  workers : ∀ w ∈ σ.workers, w.Holds P plan buf
  write : ∀ cell ∈ σ.write, ∃ job, Packed P plan buf job cell ∧ cell.lens = none
  writer : σ.writer.Holds P plan buf

end Contents

/-- The invariant of the buffers. -/
structure Memory (P : Program) (plan : List Job) (addr : List Byte) {S : Type} (σ : State S) : Prop where
  held : Held P.limit σ.heap σ.main.solo (σ.main.shared ++ σ.others)
  contents : Contents P plan σ.heap.buf addr σ

/-! ## Buffers that do not change -/

section Frame

variable {P : Program} {plan : List Job} {addr : List Byte} {buf buf' : Space → List Byte} {o : Options}

theorem map_congr {x : Option Space} (h : ∀ s ∈ x.toList, buf' s = buf s) : x.map buf' = x.map buf := by
  cases x with
  | none => rfl
  | some s => exact congrArg some (h s (List.mem_singleton.2 rfl))

theorem Posted.congr {job : Job} {cell : JobCell} (h : Posted plan buf job cell)
    (hbuf : ∀ s ∈ cell.input :: cell.lens.toList, buf' s = buf s) : Posted plan buf' job cell where
  planned := h.planned
  more := h.more
  input := (hbuf _ List.mem_cons_self).trans h.input
  lens := (map_congr fun s hs => hbuf s (List.mem_cons_of_mem _ hs)).trans h.lens

theorem Packed.congr {job : Job} {cell : JobCell} (h : Packed P plan buf job cell)
    (hbuf : ∀ s ∈ cell.input :: cell.out.toList, buf' s = buf s) : Packed P plan buf' job cell := by
  refine ⟨h.planned, h.more, (hbuf _ List.mem_cons_self).trans h.input, ?_⟩
  obtain ⟨out, hout, hcoded⟩ := h.out
  rw [hout] at hbuf
  refine ⟨out, hout, ?_⟩
  rwa [hbuf out (List.mem_cons_of_mem _ (List.mem_singleton.2 rfl))]

theorem JobCell.mem_refs {cell : JobCell} {s : Space} :
    s ∈ cell.refs ↔ s = cell.input ∨ s ∈ cell.out.toList ∨ s ∈ cell.lens.toList := by
  rw [JobCell.refs, List.mem_cons, List.mem_append]

theorem posted_congr {cell : JobCell} (h : ∃ job, Posted plan buf job cell ∧ cell.out.map buf = job.dict)
    (hbuf : ∀ s ∈ cell.refs, buf' s = buf s) : ∃ job, Posted plan buf' job cell ∧ cell.out.map buf' = job.dict := by
  obtain ⟨job, hposted, hdict⟩ := h
  refine ⟨job, hposted.congr fun s hs => hbuf s ?_, ?_⟩
  · rw [JobCell.mem_refs]
    exact (List.mem_cons.1 hs).imp_right .inr
  · rw [map_congr fun s hs => hbuf s (JobCell.mem_refs.2 (.inr (.inl hs))), hdict]

theorem Packed.congr_refs {job : Job} {cell : JobCell} (h : Packed P plan buf job cell)
    (hbuf : ∀ s ∈ cell.refs, buf' s = buf s) : Packed P plan buf' job cell :=
  h.congr fun s hs => hbuf s (JobCell.mem_refs.2 ((List.mem_cons.1 hs).imp_right .inl))

theorem Worker.Holds.congr {S : Type} {w : Worker S} (h : w.Holds P plan buf) (hbuf : ∀ s ∈ w.refs, buf' s = buf s) :
    w.Holds P plan buf' := by
  cases w with
  | got strm cell => exact posted_congr h hbuf
  | fresh strm cell dict =>
    obtain ⟨job, hposted, hdict⟩ := h
    exact ⟨job, hposted.congr hbuf, hdict⟩
  | compressed strm cell =>
    obtain ⟨job, hpacked⟩ := h
    exact ⟨job, hpacked.congr_refs hbuf⟩
  | released strm cell =>
    obtain ⟨job, hpacked, hlens⟩ := h
    exact ⟨job, hpacked.congr_refs hbuf, hlens⟩
  | reserved strm cell =>
    obtain ⟨job, hpacked, hlens⟩ := h
    exact ⟨job, hpacked.congr_refs fun s hs => hbuf s (List.mem_cons_of_mem _ hs), hlens⟩
  | listed strm seq input =>
    obtain ⟨job, hjob, hinput⟩ := h
    exact ⟨job, hjob, (hbuf _ (List.mem_singleton.2 rfl)).trans hinput⟩
  | checked => exact h
  | idle => trivial
  | exited => trivial

theorem Writer.Holds.congr {w : Writer} (h : w.Holds P plan buf) (hbuf : ∀ s ∈ w.refs, buf' s = buf s) :
    w.Holds P plan buf' := by
  cases w with
  | took v cell =>
    obtain ⟨job, hpacked, hlens⟩ := h
    exact ⟨job, hpacked.congr_refs hbuf, hlens⟩
  | wrote => exact h
  | header => trivial
  | wait => trivial
  | dropped => trivial
  | trailer => trivial
  | verify => trivial
  | verified => trivial
  | exited => trivial

theorem Vars.feed_congr {v : Vars} (hbuf : ∀ s ∈ v.next :: (v.hold.toList ++ v.dict.toList), buf' s = buf s) :
    v.feed buf' = v.feed buf := by
  rw [Vars.feed, Vars.feed, hbuf _ List.mem_cons_self,
    map_congr fun s hs => hbuf s (List.mem_cons_of_mem _ (List.mem_append_left _ hs)),
    map_congr fun s hs => hbuf s (List.mem_cons_of_mem _ (List.mem_append_right _ hs))]

theorem Main.Holds.congr {m : Main} (h : m.Holds plan buf o addr) (hbuf : ∀ s ∈ m.solo ++ m.shared, buf' s = buf s) :
    m.Holds plan buf' o addr := by
  have hsolo : ∀ s ∈ m.solo, buf' s = buf s := fun s hs => hbuf s (List.mem_append_left _ hs)
  have hshared : ∀ s ∈ m.shared, buf' s = buf s := fun s hs => hbuf s (List.mem_append_right _ hs)
  cases m with
  | top v =>
    rw [Main.Holds] at h ⊢
    rwa [Vars.feed_congr hbuf]
  | fed v curr =>
    obtain ⟨f, f', job, hturn, hseq, hcurr, hdict, hnext, hrest⟩ := h
    refine ⟨f, f', job, hturn, hseq, (hsolo _ List.mem_cons_self).trans hcurr, (map_congr hshared).trans hdict, ?_, hrest⟩
    rwa [hsolo _ (List.mem_cons_of_mem _ List.mem_cons_self)]
  | scanned v curr c lens =>
    obtain ⟨f, f', job, hturn, hseq, hcurr, hdict, hnext, hhold, hcut, hlens⟩ := h
    refine ⟨f, f', job, hturn, hseq, (hsolo _ List.mem_cons_self).trans hcurr, ?_, ?_, hhold, hcut, ?_⟩
    · exact (map_congr fun s hs => hshared s (List.mem_append_left _ hs)).trans hdict
    · rwa [hsolo _ (List.mem_cons_of_mem _ List.mem_cons_self)]
    · exact (map_congr fun s hs => hshared s (List.mem_append_right _ hs)).trans hlens
  | filled v curr lens =>
    obtain ⟨f, f', job, hturn, hseq, hcurr, hdict, hlens, hnext, hhold, hrest⟩ := h
    refine ⟨f, f', job, hturn, hseq, (hsolo _ List.mem_cons_self).trans hcurr, ?_, ?_, ?_, ?_, hrest⟩
    · exact (map_congr fun s hs => hshared s (List.mem_append_left _ hs)).trans hdict
    · exact (map_congr fun s hs => hshared s (List.mem_append_right _ hs)).trans hlens
    · exact (hsolo _ (List.mem_cons_of_mem _ List.mem_cons_self)).trans hnext
    · exact (map_congr fun s hs => hsolo s (List.mem_cons_of_mem _ (List.mem_cons_of_mem _ hs))).trans hhold
  | ready v cell =>
    obtain ⟨f, f', job, hturn, hseq, hseq', hposted, hdict, hhold, hfeed⟩ := h
    have hcell : ∀ s ∈ cell.refs, buf' s = buf s := fun s hs => hshared s (List.mem_append_right _ hs)
    refine ⟨f, f', job, hturn, hseq, hseq', hposted.congr fun s hs => hcell s ?_, ?_, ?_, fun hmore => ?_⟩
    · rw [JobCell.mem_refs]
      exact (List.mem_cons.1 hs).imp_right .inr
    · exact (map_congr fun s hs => hcell s (JobCell.mem_refs.2 (.inr (.inl hs)))).trans hdict
    · exact (map_congr fun s hs => hsolo s (List.mem_cons_of_mem _ hs)).trans hhold
    · refine (Vars.feed_congr fun s hs => ?_).trans (hfeed hmore)
      rcases List.mem_cons.1 hs with hs | hs
      · exact hsolo s (List.mem_cons.2 (.inl hs))
      · rcases List.mem_append.1 hs with hs | hs
        · exact hsolo s (List.mem_cons_of_mem _ hs)
        · apply hshared s
          rw [Main.shared, if_pos hmore]
          exact List.mem_append_left _ hs
  | start => trivial
  | last => trivial
  | join => trivial
  | returned => trivial
  | collect => trivial
  | finished => trivial

variable {S : Type} {σ : State S}

/-- The other threads find what they had, and the main thread goes on. -/
theorem Contents.withMain (h : Contents P plan buf addr σ) {m : Main} {heap : Spaces}
    (hbuf : ∀ s ∈ σ.others, buf' s = buf s) (hm : m.Holds plan buf' P.opt addr) :
    Contents P plan buf' addr { σ with heap := heap, main := m } := by
  constructor
  · exact hm
  · intro cell hcell
    apply posted_congr (h.compress cell hcell)
    intro s hs
    exact hbuf s (List.mem_append_left _ (List.mem_flatMap.2 ⟨cell, hcell, hs⟩))
  · intro w hw
    apply (h.workers w hw).congr
    intro s hs
    exact hbuf s (List.mem_append_right _ (List.mem_append_left _ (List.mem_flatMap.2 ⟨w, hw, hs⟩)))
  · intro cell hcell
    obtain ⟨job, hpacked, hlens⟩ := h.write cell hcell
    refine ⟨job, hpacked.congr_refs fun s hs => hbuf s ?_, hlens⟩
    exact List.mem_append_right _ (List.mem_append_right _ (List.mem_append_left _ (List.mem_flatMap.2 ⟨cell, hcell, hs⟩)))
  · apply h.writer.congr
    intro s hs
    exact hbuf s (List.mem_append_right _ (List.mem_append_right _ (List.mem_append_right _ hs)))

theorem Contents.congr (h : Contents P plan buf addr σ) (hbuf : ∀ s ∈ σ.refs, buf' s = buf s) :
    Contents P plan buf' addr σ := by
  have hsame : Contents P plan buf' addr { σ with heap := σ.heap, main := σ.main } := by
    apply h.withMain
    · exact fun s hs => hbuf s (List.mem_append_right _ (List.mem_append_right _ hs))
    · apply h.main.congr
      intro s hs
      apply hbuf
      rw [State.refs, ← List.append_assoc]
      exact List.mem_append_left _ hs
  exact hsame

end Frame

end Libibtl.Pgz
