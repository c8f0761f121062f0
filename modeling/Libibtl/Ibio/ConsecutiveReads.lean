import Libibtl.Ibio.Reading

/-! # Successive reads of one descriptor

A call leaves the file offset behind the last whole chunk that it touched. Successive
calls deliver successive parts of every file exactly when all of them, up to the last
one that asks for anything, ask for whole chunks.
-/

namespace Libibtl.Ibio

open Foundation

/-- How far a read of `n` bytes moves the file offset. -/
def readAdvance (n : Nat) : Nat := max 1 (chunkCount n) * chunkBytes

theorem le_readAdvance (n : Nat) : n ≤ readAdvance n := by
  simp only [readAdvance, chunkCount, chunkBytes_eq]
  omega

theorem readAdvance_eq_self {n : Nat} : readAdvance n = n ↔ 0 < n ∧ chunkBytes ∣ n := by
  simp only [readAdvance, chunkCount, chunkBytes_eq]
  omega

section Call

variable {file : List Byte} {o n : Nat}

/-- Chunks of the size that the client expects are put side by side. -/
theorem receiveChunks_eq (hn : n ≤ bufSize) {chunks : Nat → Chunk} {D : Buffer}
    (hlength : ∀ i, (chunks i).length = BitVec.ofNat 32 (chunkAt n (i * chunkBytes)))
    (hdata : ∀ i, ∀ p < chunkAt n (i * chunkBytes), (chunks i).data p = D (i * chunkBytes + p))
    {j k : Nat} (hjk : j + k = chunkCount n) (buf : Buffer) :
    ∃ buf', receiveChunks buf ((List.range' j k).map fun i =>
        (BitVec.ofNat 32 (i * chunkBytes), BitVec.ofNat 32 (chunkAt n (i * chunkBytes))))
        ((List.range' j k).map chunks) = some (buf', []) ∧
      (∀ p < j * chunkBytes, buf' p = buf p) ∧ ∀ p, j * chunkBytes ≤ p → p < n → buf' p = D p := by
  induction k generalizing j buf with
  | zero =>
    refine ⟨buf, rfl, fun _ _ => rfl, fun p hp hpn => ?_⟩
    have := lt_chunkCount.2 (hp.trans_lt hpn)
    omega
  | succ k ih =>
    have hj : j < chunkCount n := by omega
    have hlt := lt_chunkCount.1 hj
    have hadd := add_chunkAt hj
    have hpos := toNat_ofNat_of_le (hlt.le.trans hn)
    have hsize : chunkAt n (j * chunkBytes) ≤ bufSize := (chunkAt_le ..).trans hn
    obtain ⟨buf', hreceive, hbefore, hafter⟩ := ih (j := j + 1) (by omega)
      (memcpy buf (j * chunkBytes) (chunks j).data 0 (chunkAt n (j * chunkBytes)))
    refine ⟨buf', ?_, fun p hp => ?_, fun p hp hpn => ?_⟩
    · rw [List.range'_succ, List.map_cons, List.map_cons, receiveChunks, hlength, recvLength_self hsize, hpos]
      exact hreceive
    · rw [hbefore p (by rw [Nat.succ_mul]; omega)]
      exact memcpy_outside (.inl hp)
    · by_cases hnext : (j + 1) * chunkBytes ≤ p
      · exact hafter p hnext hpn
      · obtain ⟨i, rfl⟩ := Nat.exists_eq_add_of_le hp
        have hi : i < chunkAt n (j * chunkBytes) := by omega
        rw [hbefore _ (by omega), memcpy_inside hi, Nat.zero_add]
        exact hdata j i hi

/-- The chunks that the server sends hold the bytes of the file. -/
theorem sentChunk_data (ho : o + n ≤ file.length) (cache : Buffer) (i : Nat) :
    ∀ p < chunkAt n (i * chunkBytes),
      (sentChunk file cache o n i).data p = fileBytes file (o + (i * chunkBytes + p)) := by
  intro p hp
  rw [chunkAt, Nat.lt_min] at hp
  obtain ⟨hpc, hpn⟩ := hp
  have hlt : i * chunkBytes + p < n := Nat.add_lt_of_lt_sub' hpn
  have hi : i < chunkCount n := lt_chunkCount.2 (Nat.lt_of_le_of_lt (Nat.le_add_right ..) hlt)
  refine cacheAfter_inside ?_ (Nat.lt_of_lt_of_le (Nat.add_lt_add_left hlt o) ho)
  calc i * chunkBytes + p < i * chunkBytes + chunkBytes := Nat.add_lt_add_left hpc _
    _ = (i + 1) * chunkBytes := (Nat.succ_mul ..).symm
    _ ≤ readsAfter n i * chunkBytes := Nat.mul_le_mul_right _ (succ_le_readsAfter hi)

theorem ibtlRead_of_served {s : ReadSession} {b buf' : Buffer} {count : UInt64T} {served : Sread}
    {cuts : List (CInt × CInt)} {inbox : List Chunk}
    (hserved : sread file s.cache s.offset (intOfUint64 count) = some served) (hcuts : clientChunks count = some cuts)
    (hreceive : receiveChunks b cuts (s.inbox ++ served.sent) = some (buf', inbox)) :
    ibtlRead file s b count = some (⟨served.cache, served.offset, inbox⟩, buf') := by
  rw [ibtlRead, hserved, hcuts]
  simp only [Option.bind_eq_bind, Option.bind_some, hreceive]
  rfl

/-- One read delivers the bytes at the file offset. -/
theorem ibtlRead_eq {count : UInt64T} (hcount : count = BitVec.ofNat 64 n) (hn : n ≤ bufSize) (ho : o + n ≤ file.length)
    (cache buf : Buffer) :
    ∃ cache' buf', ibtlRead file ⟨cache, o, []⟩ buf count =
        some (⟨cache', min file.length (o + readAdvance n), []⟩, buf') ∧
      slice buf' 0 n = slice (fileBytes file) o n := by
  obtain ⟨chunk, hserved⟩ := sread_eq (c := cache) hn (Nat.le_of_add_right_le ho)
  obtain ⟨buf', hreceive, -, hbuf⟩ := receiveChunks_eq hn (D := fun p => fileBytes file (o + p)) (fun _ => rfl)
    (sentChunk_data ho cache) (Nat.zero_add _) buf
  rw [← List.range_eq_range'] at hreceive
  refine ⟨cacheAfter file cache o (max 1 (chunkCount n)), buf', ?_, slice_congr fun i hi => ?_⟩
  · have hcuts := clientChunks_eq hn
    rw [← intOfUint64_ofNat] at hserved
    rw [← hcount] at hserved hcuts
    have hcall := ibtlRead_of_served (s := ⟨cache, o, []⟩) (b := buf) hserved hcuts
      (by rw [List.nil_append, sreadAt_sent, hreceive])
    rwa [sreadAt_cache, sreadAt_offset, readsAfter_chunkCount, ← readAdvance] at hcall
  · rw [Nat.zero_add]
    refine hbuf i ?_ hi
    rw [Nat.zero_mul]
    exact Nat.zero_le i

end Call

/-! ## Sequences of calls -/

/-- Slices of the given sizes, each one `advance` behind the one before it. -/
def slicesFrom (advance : Nat → Nat) (b : Buffer) : Nat → List Nat → List (List Byte)
  | _, [] => []
  | o, n :: sizes => slice b o n :: slicesFrom advance b (o + advance n) sizes

/-- The sizes of a sequence of calls. -/
def callSizes (calls : List (Buffer × UInt64T)) : List Nat := calls.map (·.2.toNat)

section Calls

variable {file : List Byte} {calls : List (Buffer × UInt64T)}

theorem ibtlReads_cons {s s' : ReadSession} {buf buf' : Buffer} {count : UInt64T}
    (h : ibtlRead file s buf count = some (s', buf')) :
    ibtlReads file s ((buf, count) :: calls) =
      (ibtlReads file s' calls).map (slice buf' 0 count.toNat :: ·) := by
  rw [ibtlReads, h]
  simp only [Option.bind_eq_bind, Option.bind_some]
  cases ibtlReads file s' calls <;> rfl

theorem count_eq (count : UInt64T) : count = BitVec.ofNat 64 count.toNat := by simp

/-- In a file that is long enough, the slices are those at the rounded offsets. -/
theorem ibtlReads_rounded {cache : Buffer} {o : Nat} (hsizes : ∀ n ∈ callSizes calls, n ≤ bufSize)
    (ho : o + ((callSizes calls).map readAdvance).sum ≤ file.length) :
    ibtlReads file ⟨cache, o, []⟩ calls = some (slicesFrom readAdvance (fileBytes file) o (callSizes calls)) := by
  induction calls generalizing cache o with
  | nil => rfl
  | cons call calls ih =>
    obtain ⟨buf, count⟩ := call
    simp only [callSizes, List.map_cons, List.mem_cons, forall_eq_or_imp, List.sum_cons] at hsizes ho
    have hle := le_readAdvance count.toNat
    have hfits : o + count.toNat ≤ file.length := by omega
    obtain ⟨cache', buf', hcall, hslice⟩ := ibtlRead_eq (count_eq count) hsizes.1 hfits cache buf
    rw [ibtlReads_cons hcall, Nat.min_eq_right (by omega), ih hsizes.2 (by rw [callSizes]; omega), hslice]
    rfl

/-- Calls of size zero deliver nothing, wherever the offset is. -/
theorem ibtlReads_empty {cache : Buffer} {o : Nat} (hzero : ∀ n ∈ callSizes calls, n = 0) (ho : o ≤ file.length)
    (advance : Nat → Nat) (o' : Nat) :
    ibtlReads file ⟨cache, o, []⟩ calls = some (slicesFrom advance (fileBytes file) o' (callSizes calls)) := by
  induction calls generalizing cache o o' with
  | nil => rfl
  | cons call calls ih =>
    obtain ⟨buf, count⟩ := call
    simp only [callSizes, List.map_cons, List.mem_cons, forall_eq_or_imp] at hzero
    have hfits : o + count.toNat ≤ file.length := by
      rw [hzero.1]
      exact ho
    obtain ⟨cache', buf', hcall, hslice⟩ :=
      ibtlRead_eq (count_eq count) (by rw [hzero.1]; exact Nat.zero_le _) hfits cache buf
    rw [ibtlReads_cons hcall, ih hzero.2 (Nat.min_le_left ..) (o' + advance count.toNat), hslice, hzero.1]
    simp [callSizes, slicesFrom, hzero.1, slice]

/-- Every size before one that is not zero is a positive number of whole chunks. -/
def WholeChunks (sizes : List Nat) : Prop := sizes.Pairwise fun a b => 0 < b → 0 < a ∧ chunkBytes ∣ a

theorem ibtlReads_consecutive {cache : Buffer} {o : Nat} (hsizes : ∀ n ∈ callSizes calls, n ≤ bufSize)
    (hwhole : WholeChunks (callSizes calls)) (ho : o + (callSizes calls).sum ≤ file.length) :
    ibtlReads file ⟨cache, o, []⟩ calls = some (slicesFrom id (fileBytes file) o (callSizes calls)) := by
  induction calls generalizing cache o with
  | nil => rfl
  | cons call calls ih =>
    obtain ⟨buf, count⟩ := call
    simp only [callSizes, List.map_cons, List.mem_cons, forall_eq_or_imp, List.sum_cons] at hsizes ho
    obtain ⟨hhead, htail⟩ := List.pairwise_cons.1 hwhole
    have hfits : o + count.toNat ≤ file.length := by omega
    obtain ⟨cache', buf', hcall, hslice⟩ := ibtlRead_eq (count_eq count) hsizes.1 hfits cache buf
    rw [ibtlReads_cons hcall, hslice]
    by_cases hmore : ∃ n ∈ callSizes calls, 0 < n
    · -- the offset is where the next call expects it
      obtain ⟨n, hn, hpos⟩ := hmore
      have hself : readAdvance count.toNat = count.toNat := readAdvance_eq_self.2 (hhead n hn hpos)
      rw [hself, Nat.min_eq_right (by omega), ih hsizes.2 htail (by rw [callSizes]; omega)]
      rfl
    · have hzero : ∀ n ∈ callSizes calls, n = 0 := fun n hn => Nat.eq_zero_of_not_pos fun hpos => hmore ⟨n, hn, hpos⟩
      rw [ibtlReads_empty hzero (Nat.min_le_left ..) id (o + count.toNat)]
      rfl

end Calls

/-! ## A file that tells offsets apart -/

/-- One byte is set, at `p`. -/
def mark (p : Nat) : Buffer := fun i => if i = p then 1 else 0

/-- A file of at least `length` bytes with the byte at `p` set. -/
def markedFile (length p : Nat) : List Byte := (List.range (max length (p + 1))).map (mark p)

theorem length_markedFile (length p : Nat) : length ≤ (markedFile length p).length := by
  rw [markedFile, List.length_map, List.length_range]
  exact Nat.le_max_left ..

theorem fileBytes_markedFile (length p : Nat) : fileBytes (markedFile length p) = mark p := by
  funext i
  rw [fileBytes, markedFile, List.getD_eq_getElem?_getD, List.getElem?_map]
  by_cases hi : i < max length (p + 1)
  · rw [List.getElem?_range hi]
    rfl
  · rw [List.getElem?_eq_none (by rw [List.length_range]; exact Nat.le_of_not_lt hi)]
    have hne : i ≠ p := by omega
    simp [mark, hne]

/-- If rounded and exact offsets give the same slices, then they agree wherever something is read. -/
theorem wholeChunks_of_slicesFrom {sizes : List Nat} {o s : Nat} (hso : s ≤ o)
    (h : ∀ p, slicesFrom readAdvance (mark p) o sizes = slicesFrom id (mark p) s sizes) :
    (∀ n ∈ sizes, 0 < n → o = s) ∧ WholeChunks sizes := by
  induction sizes generalizing o s with
  | nil => exact ⟨fun _ hn => (nomatch hn), .nil⟩
  | cons n sizes ih =>
    have hle := le_readAdvance n
    obtain ⟨htail, hwhole⟩ := ih (o := o + readAdvance n) (s := s + n) (by omega) fun p => (List.cons.inj (h p)).2
    refine ⟨fun b hb hpos => ?_, List.pairwise_cons.2 ⟨fun b hb hpos => ?_, hwhole⟩⟩
    · rcases List.mem_cons.1 hb with rfl | hb
      · -- the first byte of the slice is marked
        have hslice := (List.cons.inj (h s)).1
        have hbyte := List.map_inj_left.1 hslice 0 (List.mem_range.2 hpos)
        by_contra hne
        simp [mark, hne] at hbyte
      · have := htail b hb hpos
        omega
    · have := htail b hb hpos
      exact readAdvance_eq_self.1 (by omega)

/-- Successive reads deliver successive parts of every file exactly when all of them ask for whole chunks, up to the
last one that asks for anything. -/
theorem reads_consecutive_iff {calls : List (Buffer × UInt64T)} (hsizes : ∀ call ∈ calls, call.2.toNat ≤ bufSize) :
    (∀ (file : List Byte) (cache : Buffer), (callSizes calls).sum ≤ file.length →
      ibtlReads file ⟨cache, 0, []⟩ calls = some (slicesFrom id (fileBytes file) 0 (callSizes calls))) ↔
    WholeChunks (callSizes calls) := by
  have hbound : ∀ n ∈ callSizes calls, n ≤ bufSize := by
    intro n hn
    obtain ⟨call, hcall, rfl⟩ := List.mem_map.1 hn
    exact hsizes call hcall
  constructor
  · intro h
    refine (wholeChunks_of_slicesFrom (Nat.le_refl 0) fun p => ?_).2
    let length := (callSizes calls).sum + ((callSizes calls).map readAdvance).sum
    have hlength := length_markedFile length p
    have hexact := h (markedFile length p) (fun _ => 0) ((Nat.le_add_right ..).trans hlength)
    have hrounded : ibtlReads (markedFile length p) ⟨fun _ => 0, 0, []⟩ calls = _ := ibtlReads_rounded hbound
      (by rw [Nat.zero_add]; exact (Nat.le_add_left ..).trans hlength)
    rw [fileBytes_markedFile] at hexact hrounded
    exact Option.some.inj (hrounded.symm.trans hexact)
  · intro h file cache hlength
    exact ibtlReads_consecutive hbound h (by rwa [Nat.zero_add])

/-- A whole chunk, then one byte. -/
theorem reads_consecutive_chunk_byte :
    (∀ call ∈ [((fun _ => 0 : Buffer), (67108864 : UInt64T)), (fun _ => 0, 1)], call.2.toNat ≤ bufSize) ∧
    ∀ (file : List Byte) (cache : Buffer), 67108864 + 1 ≤ file.length →
      ibtlReads file ⟨cache, 0, []⟩ [(fun _ => 0, 67108864), (fun _ => 0, 1)] =
        some [slice (fileBytes file) 0 67108864, slice (fileBytes file) 67108864 1] := by
  have hsizes : ∀ call ∈ [((fun _ => 0 : Buffer), (67108864 : UInt64T)), (fun _ => 0, 1)], call.2.toNat ≤ bufSize := by
    rw [bufSize_eq]
    simp
  refine ⟨hsizes, (reads_consecutive_iff hsizes).2 ?_⟩
  simp [WholeChunks, callSizes, chunkBytes_eq]

/-- Two reads of one byte from a file of two bytes deliver the first byte twice. -/
theorem reads_repeat_byte :
    (callSizes [(fun _ => 0, 1), (fun _ => 0, 1)]).sum ≤ [10, (20 : Byte)].length ∧
    ibtlReads [10, 20] ⟨fun _ => 0, 0, []⟩ [(fun _ => 0, 1), (fun _ => 0, 1)] = some [[10], [10]] ∧
    slicesFrom id (fileBytes [10, 20]) 0 (callSizes [(fun _ => 0, 1), (fun _ => 0, 1)]) = [[10], [20]] := by
  decide +kernel

end Libibtl.Ibio
