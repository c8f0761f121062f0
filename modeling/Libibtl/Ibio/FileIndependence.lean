import Libibtl.Foundation.Path
import Libibtl.Ibio.Table

/-! # Which handlers leave the other files alone

All handlers but a successful close write only the entry of their own file. A
successful close clears 276 bytes from the start of its entry, and an entry has 176,
so it also clears the first 100 bytes of the next one.
-/

namespace Libibtl.Ibio

open Foundation

namespace Table

theorem sizeofSopenInfo_eq : sizeofSopenInfo = 176 := by decide

theorem sizeofOpen_eq : sizeofOpen = 276 := by decide

/-- All members of the entry `g` are the same in both tables. -/
def SameEntry (m m' : Table) (g : Nat) : Prop := ∀ f, m'.field g f = m.field g f

theorem sameEntry_iff {m m' : Table} {g : Nat} :
    m.SameEntry m' g ↔ ∀ i < sizeofSopenInfo, m' (g * sizeofSopenInfo + i) = m (g * sizeofSopenInfo + i) := by
  constructor
  · intro h i hi
    obtain ⟨f, hle, hlt⟩ := Field.exists_offset_le hi
    have hbyte := List.map_inj_left.1 (h f) (i - f.offset) (List.mem_range.2 (by omega))
    have haddr : addr g f + (i - f.offset) = g * sizeofSopenInfo + i := by
      rw [addr]
      omega
    rwa [haddr] at hbyte
  · intro h f
    refine List.map_inj_left.2 fun i hi => ?_
    have hsize := f.offset_add_size_le
    have hlt := List.mem_range.1 hi
    rw [addr, Nat.add_assoc]
    exact h _ (by omega)

theorem SameEntry.trans {m m' m'' : Table} {g : Nat} (h : m.SameEntry m' g) (h' : m'.SameEntry m'' g) :
    m.SameEntry m'' g := fun f => (h' f).trans (h f)

theorem SameEntry.getSize_eq {m m' : Table} {g : Nat} (h : m.SameEntry m' g) (f : Field) :
    m'.getSize g f = m.getSize g f := by
  rw [getSize, h f, getSize]

theorem SameEntry.writeArgs_eq {m m' : Table} {g : Nat} (h : m.SameEntry m' g) : m'.writeArgs g = m.writeArgs g := by
  simp only [writeArgs, h.getSize_eq]

theorem sameEntry_put {g fd : Nat} (hg : g ≠ fd) (m : Table) (f : Field) (v : Buffer) : m.SameEntry (m.put fd f v) g := by
  refine sameEntry_iff.2 fun i hi => memcpy_outside ?_
  have hsize := f.offset_add_size_le
  rw [sizeofSopenInfo_eq] at hi hsize
  rw [addr, sizeofSopenInfo_eq]
  omega

theorem clear_next {fd i : Nat} (hi : i < sizeofOpen - sizeofSopenInfo) (m : Table) :
    (m.clear (addr fd .fd) sizeofOpen) ((fd + 1) * sizeofSopenInfo + i) = 0 := by
  rw [sizeofSopenInfo_eq, sizeofOpen_eq] at hi
  have haddr : addr fd .fd = fd * 176 := rfl
  rw [clear, haddr, sizeofOpen_eq, sizeofSopenInfo_eq, memcpy, if_pos (by omega)]

theorem clear_other {g fd i : Nat} (hg : g ≠ fd) (hi : i < sizeofSopenInfo)
    (hnext : g = fd + 1 → sizeofOpen - sizeofSopenInfo ≤ i) (m : Table) :
    (m.clear (addr fd .fd) sizeofOpen) (g * sizeofSopenInfo + i) = m (g * sizeofSopenInfo + i) := by
  rw [sizeofSopenInfo_eq] at hi ⊢
  rw [sizeofSopenInfo_eq, sizeofOpen_eq] at hnext
  have haddr : addr fd .fd = fd * 176 := rfl
  refine memcpy_outside ?_
  rw [haddr, sizeofOpen_eq]
  omega

/-- The clearing is no change for the other entries if the bytes it reaches are zero already. -/
theorem sameEntry_clear_iff {fd : Nat} (m : Table) :
    (∀ g < maxFileOpen, g ≠ fd → m.SameEntry (m.clear (addr fd .fd) sizeofOpen) g) ↔
      (fd + 1 < maxFileOpen → ∀ i < sizeofOpen - sizeofSopenInfo, m ((fd + 1) * sizeofSopenInfo + i) = 0) := by
  constructor
  · intro h hlt i hi
    have hbyte := sameEntry_iff.1 (h (fd + 1) hlt (by omega)) i (by rw [sizeofSopenInfo_eq, sizeofOpen_eq] at *; omega)
    rw [← hbyte]
    exact clear_next hi m
  · intro h g hlt hg
    refine sameEntry_iff.2 fun i hi => ?_
    by_cases hnext : g = fd + 1 ∧ i < sizeofOpen - sizeofSopenInfo
    · obtain ⟨rfl, hi'⟩ := hnext
      rw [clear_next hi' m, h hlt i hi']
    · exact clear_other hg hi (fun heq => Nat.le_of_not_lt fun hi' => hnext ⟨heq, hi'⟩) m

end Table

namespace Handler

open Table

variable {g fd : Nat}

theorem sameEntry_run (hg : g ≠ fd) (m : Table) (h : Handler) (hc : ¬ h.Closes) : m.SameEntry (h.run fd m) g := by
  have hput := fun m f v => sameEntry_put hg m f v
  cases h with
  | sopen fileInfo mutex =>
    exact (((((hput _ _ _).trans (hput _ _ _)).trans (hput _ _ _)).trans (hput _ _ _)).trans (hput _ _ _)).trans
      (hput _ _ _)
  | swriteBegin count => exact ((hput _ _ _).trans (hput _ _ _)).trans (hput _ _ _)
  | swriteChunk now thread =>
    simp only [run]
    split
    · exact ((hput _ _ _).trans (hput _ _ _)).trans (hput _ _ _)
    · exact (hput _ _ _).trans (hput _ _ _)
  | swriteChunkThread locked unlocked => exact ((hput _ _ _).trans (hput _ _ _)).trans (hput _ _ _)
  | sreadAsync thread => exact hput _ _ _
  | sread locked unlocked => exact (hput _ _ _).trans (hput _ _ _)
  | sclose stat mutex =>
    have hstat : stat ≠ 0 := hc
    rw [run, if_neg hstat]
    exact fun f => rfl

/-- The close writes its own entry, and then it clears too much. -/
theorem sclose_run (mutex : Buffer) (fd : Nat) (m : Table) :
    ∃ m', (∀ g ≠ fd, m.SameEntry m' g) ∧ (sclose 0 mutex).run fd m = m'.clear (addr fd .fd) sizeofOpen := by
  refine ⟨_, fun g hg => ?_, rfl⟩
  have hput := fun m f v => sameEntry_put hg m f v
  exact (((((hput _ _ _).trans (hput _ _ _)).trans (hput _ _ _)).trans (hput _ _ _)).trans (hput _ _ _)).trans
    (hput _ _ _)

/-- The close does not reach into the next entry, or it finds only zeros there. -/
def Spares (h : Handler) (m : Table) (fd : Nat) : Prop :=
  h.Closes → fd + 1 < maxFileOpen →
    ∀ i < sizeofOpen - sizeofSopenInfo, m ((fd + 1) * sizeofSopenInfo + i) = 0

theorem sameEntry_run_iff (m : Table) (fd : Nat) (h : Handler) :
    (∀ g < maxFileOpen, g ≠ fd → m.SameEntry (h.run fd m) g) ↔ h.Spares m fd := by
  by_cases hc : h.Closes
  · cases h with
    | sclose stat mutex =>
      obtain rfl : stat = 0 := hc
      obtain ⟨m', hm', hrun⟩ := sclose_run mutex fd m
      have hnext : ∀ i < sizeofOpen - sizeofSopenInfo,
          m' ((fd + 1) * sizeofSopenInfo + i) = m ((fd + 1) * sizeofSopenInfo + i) := by
        intro i hi
        refine sameEntry_iff.1 (hm' (fd + 1) (by omega)) i ?_
        rw [sizeofSopenInfo_eq, sizeofOpen_eq] at *
        omega
      have hsame : (∀ g < maxFileOpen, g ≠ fd → m.SameEntry ((sclose 0 mutex).run fd m) g) ↔
          ∀ g < maxFileOpen, g ≠ fd → m'.SameEntry (m'.clear (addr fd .fd) sizeofOpen) g := by
        rw [hrun]
        refine forall_congr' fun g => imp_congr_right fun _ => imp_congr_right fun hg => ?_
        exact ⟨fun h f => (h f).trans (hm' g hg f).symm, fun h => (hm' g hg).trans h⟩
      rw [hsame, sameEntry_clear_iff, Spares]
      constructor
      · exact fun h _ hlt i hi => (hnext i hi).symm.trans (h hlt i hi)
      · exact fun h hlt i hi => (hnext i hi).trans (h rfl hlt i hi)
    | _ => cases hc
  · exact ⟨fun _ hcloses => absurd hcloses hc, fun _ g _ hg => sameEntry_run hg m h hc⟩

/-! ## Runs -/

theorem sameEntry_put_self {m m' : Table} (hm : m.SameEntry m' fd) (f : Field) (v : Buffer) :
    (m.put fd f v).SameEntry (m'.put fd f v) fd := by
  refine sameEntry_iff.2 fun i hi => ?_
  simp only [put, memcpy]
  split
  · rfl
  · exact sameEntry_iff.1 hm i hi

theorem sameEntry_clear_self {m m' : Table} (hm : m.SameEntry m' fd) :
    (m.clear (addr fd .fd) sizeofOpen).SameEntry (m'.clear (addr fd .fd) sizeofOpen) fd := by
  refine sameEntry_iff.2 fun i hi => ?_
  simp only [clear, memcpy]
  split
  · rfl
  · exact sameEntry_iff.1 hm i hi

/-- What a handler leaves in its own entry depends on that entry only. -/
theorem sameEntry_run_self {m m' : Table} (hm : m.SameEntry m' fd) (h : Handler) :
    (h.run fd m).SameEntry (h.run fd m') fd := by
  have hput : ∀ {m m' : Table} {f v}, m.SameEntry m' fd → (m.put fd f v).SameEntry (m'.put fd f v) fd :=
    fun hm => sameEntry_put_self hm _ _
  cases h with
  | sopen fileInfo mutex => exact hput (hput (hput (hput (hput (hput hm)))))
  | swriteBegin count => exact hput (hput (hput hm))
  | swriteChunk now thread =>
    simp only [run, hm.getSize_eq]
    split
    · have hstamped := hput (f := .timestamp) (v := bytesOf now) hm
      simp only [hstamped.getSize_eq]
      exact hput (hput hstamped)
    · simp only [hm.getSize_eq]
      exact hput (hput hm)
  | swriteChunkThread locked unlocked =>
    have hlocked := hput (f := .fastmutex) (v := locked) hm
    simp only [run, hlocked.getSize_eq]
    exact hput (hput hlocked)
  | sreadAsync thread => exact hput hm
  | sread locked unlocked => exact hput (hput hm)
  | sclose stat mutex =>
    rw [run, run]
    split
    · exact sameEntry_clear_self (hput (hput (hput (hput (hput (hput hm))))))
    · exact hm

end Handler

/-- Handlers on any files, one after the other. -/
def Table.runs (m : Table) (l : List (Nat × Handler)) : Table := l.foldl (fun m x => x.2.run x.1 m) m

def Table.step (m : Table) (x : Nat × Handler) : Option Table := some (x.2.run x.1 m)

/-- The entry of a file is what the handlers on this file alone make of it. -/
theorem Table.sameEntry_runs {m m₀ m' : Table} {l : List (Nat × Handler)}
    (h : Path Table.step (fun m x => x.2.Spares m x.1) m l m') {g : Nat} (hg : g < maxFileOpen)
    (hm : m₀.SameEntry m g) : (m₀.runs (l.filter (·.1 = g))).SameEntry m' g := by
  induction h generalizing m₀ with
  | nil m => exact hm
  | @cons m m₁ m' x l hok hstep _ ih =>
    obtain rfl := Option.some.inj hstep
    by_cases hx : x.1 = g
    · rw [List.filter_cons_of_pos (by simpa using hx)]
      subst hx
      exact ih (Handler.sameEntry_run_self hm x.2)
    · rw [List.filter_cons_of_neg (by simpa using hx)]
      exact ih (hm.trans ((Handler.sameEntry_run_iff m x.1 x.2).2 hok g hg (Ne.symm hx)))

/-- A handler leaves the members of all other entries alone exactly when it spares the next entry, and in a run of
such handlers the writes to a file depend on the requests for this file only. -/
theorem files_independent_iff (m : Table) :
    (∀ (fd : Nat) (h : Handler),
      (∀ g < maxFileOpen, g ≠ fd → ∀ f, (h.run fd m).field g f = m.field g f) ↔ h.Spares m fd) ∧
    ∀ (m' : Table) (l : List (Nat × Handler)),
      Path Table.step (fun m x => x.2.Spares m x.1) m l m' →
        ∀ g < maxFileOpen, m'.writeArgs g = (m.runs (l.filter (·.1 = g))).writeArgs g := by
  constructor
  · exact Handler.sameEntry_run_iff m
  · intro m' l h g hg
    exact (Table.sameEntry_runs h hg fun _ => rfl).writeArgs_eq

/-- Files 3 and 4 are open, and three bytes are to be written to file 4. -/
def Table.midWrite : Table :=
  Table.runs (fun _ => 0) [(3, .sopen 1 fun _ => 0), (4, .sopen 2 fun _ => 0), (4, .swriteBegin 3)]

/-- The close of file 3 resets the write of file 4. -/
theorem close_reaches_next :
    Table.midWrite.writeArgs 4 = (4, 2, 0, 3) ∧
    (Handler.run 3 Table.midWrite (.sclose 0 fun _ => 0)).writeArgs 4 = (0, 2, 0, 0) ∧
    (Handler.run 3 Table.midWrite (.sclose 0 fun _ => 0)).field 4 .writeCount ≠ Table.midWrite.field 4 .writeCount := by
  decide +kernel

end Libibtl.Ibio
