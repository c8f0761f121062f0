import Libibtl.Pgz.PipelineWorkers

/-! # The write thread and the buffers

The write thread drops the two buffers of a job that it still has. None of its assertions
about them fails.
-/

namespace Libibtl.Pgz

open Foundation

section Writer

variable {P : Program} {plan : List Job} {addr : List Byte} {σ : State P.codec.Stream} {v : Sums} {cell : JobCell}
  {len : Nat}

/-- The write thread goes on, with some of the jobs of its list. -/
theorem Memory.withWriter (h : Memory P plan addr σ) {w : Writer} {heap : Spaces} {write : List JobCell} {first : Int}
    {out : List Byte} (hheld : Held P.limit heap σ.main.solo (σ.main.shared ++ (σ.compress.flatMap JobCell.refs ++
      (σ.workers.flatMap Worker.refs ++ (write.flatMap JobCell.refs ++ w.refs)))))
    (hbuf : heap.buf = σ.heap.buf) (hwrite : ∀ cell ∈ write, cell ∈ σ.write) (hw : w.Holds P plan σ.heap.buf) :
    Memory P plan addr { σ with heap := heap, write := write, writeFirst := first, output := out, writer := w } := by
  have hc := h.contents
  rw [← hbuf] at hc hw
  exact ⟨hheld, hc.main, hc.compress, hc.workers, fun cell hcell => hc.write cell (hwrite cell hcell), hw⟩

/-- A step of the write thread with no buffer in its hands. -/
theorem writer_move (h : Memory P plan addr σ) {w : Writer} (hrefs : σ.writer.refs = []) (hrefs' : w.refs = [])
    (hw : w.Holds P plan σ.heap.buf) (first : Int) (out : List Byte) :
    Memory P plan addr { σ with writeFirst := first, output := out, writer := w } := by
  apply h.withWriter _ rfl (fun _ hcell => hcell) hw
  have hheld := h.held
  rwa [State.others, hrefs, ← hrefs'] at hheld

theorem writer_wait (h : Memory P plan addr σ) (hwriter : σ.writer = .wait v) {rest : List JobCell}
    (hwrite : σ.write = cell :: rest) :
    Memory P plan addr { σ with write := rest, writeFirst := firstSeq rest, writer := .took v cell } := by
  have hcell := h.contents.write cell (by rw [hwrite]; exact List.mem_cons_self)
  apply h.withWriter (w := .took v cell) _ rfl _ hcell
  · apply h.held.perm
    simp only [State.others, hwriter, hwrite, List.flatMap_cons, Writer.refs]
    rw [List.perm_iff_count]
    intro s
    simp only [List.count_append, List.count_nil]
    omega
  · intro cell' hcell'
    rw [hwrite]
    exact List.mem_cons_of_mem _ hcell'

/-- The write thread drops a buffer. -/
theorem writer_drop (h : Memory P plan addr σ) {s : Space} {w : Writer} (hrefs : σ.writer.refs.Perm (s :: w.refs))
    (hw : w.Holds P plan σ.heap.buf) (out : List Byte) :
    ∃ heap, dropSpace σ.heap s = .done heap ∧ Memory P plan addr { σ with heap := heap, output := out, writer := w } := by
  have hshared : (σ.main.shared ++ σ.others).Perm (s :: (σ.main.shared ++ (σ.compress.flatMap JobCell.refs ++
      (σ.workers.flatMap Worker.refs ++ (σ.write.flatMap JobCell.refs ++ w.refs))))) := by
    rw [List.perm_iff_count] at hrefs ⊢
    intro t
    have := hrefs t
    simp only [State.others, List.count_append, List.count_cons] at this ⊢
    omega
  obtain ⟨heap, hdone, hheld, hbuf⟩ := h.held.drop hshared
  exact ⟨heap, hdone, h.withWriter hheld hbuf (fun _ hcell => hcell) hw⟩

theorem writer_took (h : Memory P plan addr σ) (hwriter : σ.writer = .took v cell) :
    ∃ job out heap, plan[cell.seq]? = some job ∧ cell.more = job.more ∧ Coded P job out ∧ σ.writerStep P = .done { σ with
      heap := heap
      output := σ.output ++ out
      writer := .wrote { v with
        ulen := v.ulen + BitVec.ofNat 64 job.input.length
        clen := v.clen + BitVec.ofNat 64 out.length } cell job.input.length } ∧
      Memory P plan addr { σ with
        heap := heap
        output := σ.output ++ out
        writer := .wrote { v with
          ulen := v.ulen + BitVec.ofNat 64 job.input.length
          clen := v.clen + BitVec.ofNat 64 out.length } cell job.input.length } := by
  have hholds := h.contents.writer
  rw [hwriter] at hholds
  obtain ⟨job, hpacked, hlens⟩ := hholds
  obtain ⟨out, hout, hcoded⟩ := hpacked.out
  have hisSome : cell.out.isSome := by
    rw [hout]
    rfl
  obtain ⟨heap, hdone, hmem⟩ := writer_drop h (s := cell.input) (w := .wrote { v with
      ulen := v.ulen + BitVec.ofNat 64 job.input.length
      clen := v.clen + BitVec.ofNat 64 (σ.heap.buf out).length } cell job.input.length)
    (by rw [hwriter]; exact List.Perm.refl _) ⟨job, hpacked.planned, hpacked.more, hlens, rfl, hisSome⟩
    (σ.output ++ σ.heap.buf out)
  refine ⟨job, σ.heap.buf out, heap, hpacked.planned, hpacked.more, hcoded, ?_, hmem⟩
  simp only [State.writerStep, hwriter, hout, withDrop, hdone, hpacked.input]

theorem writer_wrote (h : Memory P plan addr σ) (hwriter : σ.writer = .wrote v cell len) :
    ∃ heap, σ.writerStep P = .done { σ with heap := heap, writer := .dropped v cell.more len } ∧
      Memory P plan addr { σ with heap := heap, writer := .dropped v cell.more len } := by
  have hholds := h.contents.writer
  rw [hwriter] at hholds
  obtain ⟨job, -, -, hlens, -, hisSome⟩ := hholds
  obtain ⟨out, hout⟩ := Option.isSome_iff_exists.1 hisSome
  obtain ⟨heap, hdone, hmem⟩ := writer_drop h (s := out) (w := .dropped v cell.more len)
    (by
      rw [hwriter, Writer.refs, hout, hlens]
      exact List.Perm.refl _)
    trivial σ.output
  refine ⟨heap, ?_, hmem⟩
  simp only [State.writerStep, hwriter, hout, withDrop, hdone]

end Writer

end Libibtl.Pgz
