import Libibtl.Pgz.Stored

/-! # What a compress thread makes of a chunk

The calls of the stream end, and the bytes in the output buffer decode to the chunk. So
does what is there behind each of its blocks.
-/

namespace Libibtl.Pgz

/-! ## What the compressed bytes decode to -/

namespace Codec

open Deflate

variable {Z : Codec} {f : Flush} {s s' : Z.Stream} {w bs input : List Byte} {b b' : OutBuf}

/-- The last call of a run, which does not fill the buffer. -/
theorem engine_last (h : Z.during f s w bs b.bytes input) (hrun : Engine Z.toDeflate f s input b s' b') :
    ∃ s₁ bs₁ rest a out room, Z.during f s₁ w bs₁ a rest ∧ Z.deflate s₁ rest f room s' [] out ∧ out.length < room ∧
      bs₁ ++ rest = bs ++ input ∧ b'.bytes = a ++ out := by
  induction hrun generalizing bs with
  | @done s s' input out b hcall hroom =>
    exact ⟨s, bs, input, b.bytes, out, _, h, hcall, hroom, rfl, by rw [OutBuf.write, OutBuf.grown_bytes]⟩
  | @full s s₁ s' input rest out b b' hcall hroom _ ih =>
    obtain ⟨taken, rfl, hduring⟩ := Z.full h hcall hroom
    rw [← OutBuf.grown_bytes, ← OutBuf.write_bytes] at hduring
    obtain ⟨s₂, bs₂, rest₂, a, out₂, room, hlast, hcall₂, hroom₂, htext, hbytes⟩ := ih hduring
    exact ⟨s₂, bs₂, rest₂, a, out₂, room, hlast, hcall₂, hroom₂, by rw [htext, List.append_assoc], hbytes⟩

theorem engine_noFlush (h : Z.ready s w bs b.bytes) (hrun : Engine Z.toDeflate .noFlush s input b s' b') :
    Z.ready s' w (bs ++ input) b'.bytes := by
  obtain ⟨s₁, bs₁, rest, a, out, room, hduring, hcall, hroom, htext, hbytes⟩ := engine_last (Z.during_of_ready input h) hrun
  rw [← htext, hbytes]
  exact Z.taken hduring hcall hroom

theorem engine_block (h : Z.ready s w bs b.bytes) (hrun : Engine Z.toDeflate .block s input b s' b') :
    Z.flushed s' w (bs ++ input) b'.bytes ∧ (Z.bits s' % 8 = 0 → Z.decodes w b'.bytes (bs ++ input) false) := by
  obtain ⟨s₁, bs₁, rest, a, out, room, hduring, hcall, hroom, htext, hbytes⟩ := engine_last (Z.during_of_ready input h) hrun
  rw [← htext, hbytes]
  exact Z.block hduring hcall hroom

theorem engine_sync (h : Z.ready s w bs b.bytes) (hrun : Engine Z.toDeflate .syncFlush s input b s' b') :
    Z.flushed s' w (bs ++ input) b'.bytes ∧ Z.decodes w b'.bytes (bs ++ input) false := by
  obtain ⟨s₁, bs₁, rest, a, out, room, hduring, hcall, hroom, htext, hbytes⟩ := engine_last (Z.during_of_ready input h) hrun
  rw [← htext, hbytes]
  have := Z.sync hduring hcall hroom
  exact ⟨this.1, this.2.2⟩

theorem engine_finish (h : Z.ready s w bs b.bytes) (hrun : Engine Z.toDeflate .finish s input b s' b') :
    Z.decodes w b'.bytes (bs ++ input) true := by
  obtain ⟨s₁, bs₁, rest, a, out, room, hduring, hcall, hroom, htext, hbytes⟩ := engine_last (Z.during_of_ready input h) hrun
  rw [← htext, hbytes]
  exact Z.finish hduring hcall hroom

/-- Behind a complete block `Z_BLOCK` without input leaves the bits as they are. -/
theorem engine_idle (h : Z.flushed s w bs b.bytes) (hrun : Engine Z.toDeflate .block s [] b s' b') :
    Z.bits s' = Z.bits s := by
  generalize hinput : ([] : List Byte) = input at hrun
  induction hrun with
  | @done s s' input out b hcall hroom =>
    subst hinput
    exact (Z.idle h hcall).2
  | @full s s₁ s' input rest out b b' hcall hroom _ ih =>
    subst hinput
    obtain ⟨hflushed, hbits⟩ := Z.idle h hcall
    obtain ⟨taken, hnil, -⟩ := Z.full (Z.during_of_ready [] (Z.ready_of_flushed h)) hcall hroom
    rw [← OutBuf.grown_bytes, ← OutBuf.write_bytes] at hflushed
    rw [ih hflushed (List.append_eq_nil_iff.1 hnil.symm).2.symm, hbits]

theorem primed (h : Z.flushed s w bs b.bytes) (hrun : Primed Z.toDeflate s s') :
    Z.flushed s' w bs b.bytes ∧ Z.bits s' % 8 = 0 := by
  induction hrun with
  | stop hbits => exact ⟨Z.flushed_prime h, hbits⟩
  | again hbits _ ih => exact ih (Z.flushed_prime h)

/-- Behind the alignment the output ends on a byte boundary. -/
theorem aligned (h : Z.flushed s w bs b.bytes) (hbits : Z.bits s % 8 = 0 → Z.decodes w b.bytes bs false)
    (hrun : Aligned Z.toDeflate s b s' b') : Z.flushed s' w bs b'.bytes ∧ Z.decodes w b'.bytes bs false := by
  cases hrun with
  | odd _ hsync =>
    have := engine_sync (Z.ready_of_flushed h) hsync
    rwa [List.append_nil] at this
  | even _ _ hprime hblock =>
    obtain ⟨hflushed, hzero⟩ := primed h hprime
    have := engine_block (Z.ready_of_flushed hflushed) hblock
    rw [List.append_nil, engine_idle hflushed hblock] at this
    exact ⟨this.1, this.2 hzero⟩
  | boundary hzero => exact ⟨h, hbits hzero⟩

theorem block_decodes {final : Bool} (h : Z.ready s w bs b.bytes) (hrun : Block Z.toDeflate final s input b s' b') :
    Z.decodes w b'.bytes (bs ++ input) final ∧ (final = false → Z.flushed s' w (bs ++ input) b'.bytes) := by
  induction hrun generalizing bs with
  | piece hlen hpiece _ ih =>
    have := ih (engine_noFlush h hpiece)
    rwa [List.append_assoc, List.take_append_drop] at this
  | flush _ hfinal hblock halign =>
    obtain ⟨hflushed, hbits⟩ := engine_block h hblock
    obtain ⟨hflushed', hdecodes⟩ := aligned hflushed hbits halign
    exact ⟨hfinal ▸ hdecodes, fun _ => hflushed'⟩
  | finish _ hfinal hfinish =>
    subst hfinal
    exact ⟨engine_finish h hfinish, nofun⟩

theorem blocks_decode {more : Bool} {ls : List Nat} (h : Z.ready s w bs b.bytes) (hsum : ls.sum = input.length)
    (hrun : Blocks Z.toDeflate more ls s input b s' b') : Z.decodes w b'.bytes (bs ++ input) (!more) := by
  induction hrun generalizing bs with
  | @last s s' len input b b' hblock =>
    rw [List.sum_singleton] at hsum
    rw [hsum, List.take_length] at hblock
    exact (block_decodes h hblock).1
  | @cons s s₁ s' len ls input b b₁ b' hls hblock _ ih =>
    have hcons : (len :: ls).sum = len + ls.sum := List.sum_cons
    have hflushed := (block_decodes h hblock).2 rfl
    have := ih (Z.ready_of_flushed hflushed) (by rw [List.length_drop]; omega)
    rwa [List.append_assoc, List.take_append_drop] at this

/-! ## The loops end -/

/-- Calls with more than six bytes of room come to an end. -/
theorem engine_runs_large (f : Flush) (x : Z.Stream × List Byte) {b : OutBuf} (h : Z.during f x.1 w bs b.bytes x.2) (hb : b.Fits)
    (hroom : 6 < b.grown.room) : ∃ s' b', Engine Z.toDeflate f x.1 x.2 b s' b' ∧ b'.Fits := by
  induction x using (Z.finite f).induction generalizing bs b with
  | _ x ih =>
    obtain ⟨s, input⟩ := x
    obtain ⟨s₁, rest, out, hcall⟩ := Z.call s input f b.grown.room
    have hle := Z.room hcall
    have hfits := hb.grown.1.write hle
    rcases Nat.lt_or_eq_of_le hle with hlt | hfull
    · obtain rfl := Z.emptied h hcall hlt
      exact ⟨s₁, _, .done hcall hlt, hfits.1⟩
    · obtain ⟨taken, -, hduring⟩ := Z.full h hcall hfull
      rw [← OutBuf.grown_bytes, ← OutBuf.write_bytes] at hduring
      obtain ⟨s', b', hrun, hb'⟩ := ih (s₁, rest) ⟨_, out, hroom, hcall, hfull⟩ hduring hfits.1
        (hfits.1.grown.2.2 (hfits.2 hfull))
      exact ⟨s', b', .full hcall hfull hrun, hb'⟩

theorem engine_runs (f : Flush) (input : List Byte) (h : Z.ready s w bs b.bytes) (hb : b.Fits) :
    ∃ s' b', Engine Z.toDeflate f s input b s' b' ∧ b'.Fits := by
  have hstart := Z.during_of_ready (f := f) input h
  obtain ⟨s₁, rest, out, hcall⟩ := Z.call s input f b.grown.room
  have hle := Z.room hcall
  have hfits := hb.grown.1.write hle
  rcases Nat.lt_or_eq_of_le hle with hlt | hfull
  · obtain rfl := Z.emptied hstart hcall hlt
    exact ⟨s₁, _, .done hcall hlt, hfits.1⟩
  · obtain ⟨taken, -, hduring⟩ := Z.full hstart hcall hfull
    rw [← OutBuf.grown_bytes, ← OutBuf.write_bytes] at hduring
    obtain ⟨s', b', hrun, hb'⟩ := engine_runs_large f (s₁, rest) hduring hfits.1 (hfits.1.grown.2.2 (hfits.2 hfull))
    exact ⟨s', b', .full hcall hfull hrun, hb'⟩

/-- An even number of bits is brought to a byte boundary by at most three empty blocks. -/
theorem primed_runs {n : Nat} (heven : Z.bits s % 2 = 0) (hn : 8 ≤ Z.bits s % 8 + 2 * n) (hpos : 0 < n) :
    ∃ s', Primed Z.toDeflate s s' := by
  induction n generalizing s with
  | zero => exact absurd hpos (Nat.lt_irrefl 0)
  | succ n ih =>
    have hbits := Z.bits_prime s
    by_cases hzero : Z.bits (Z.prime s) % 8 = 0
    · exact ⟨_, .stop hzero⟩
    · obtain ⟨s', hrun⟩ := ih (s := Z.prime s) (by omega) (by omega) (by omega)
      exact ⟨s', .again hzero hrun⟩

theorem aligned_runs (h : Z.flushed s w bs b.bytes) (hb : b.Fits) :
    ∃ s' b', Aligned Z.toDeflate s b s' b' ∧ b'.Fits := by
  rcases Nat.mod_two_eq_zero_or_one (Z.bits s) with heven | hodd
  · by_cases hzero : Z.bits s % 8 = 0
    · exact ⟨s, b, .boundary hzero, hb⟩
    · obtain ⟨s₁, hprime⟩ := primed_runs (n := 4) heven (by omega) (by decide)
      obtain ⟨s', b', hrun, hb'⟩ := engine_runs .block [] (Z.ready_of_flushed (primed h hprime).1) hb
      exact ⟨s', b', .even heven hzero hprime hrun, hb'⟩
  · obtain ⟨s', b', hrun, hb'⟩ := engine_runs .syncFlush [] (Z.ready_of_flushed h) hb
    exact ⟨s', b', .odd hodd hrun, hb'⟩

theorem block_runs (final : Bool) {n : Nat} (h : Z.ready s w bs b.bytes) (hb : b.Fits) (hn : input.length ≤ n) :
    ∃ s' b', Block Z.toDeflate final s input b s' b' ∧ b'.Fits := by
  induction n using Nat.strongRecOn generalizing s bs input b with
  | _ n ih =>
    by_cases hlong : maxp2 < input.length
    · obtain ⟨s₁, b₁, hpiece, hb₁⟩ := engine_runs .noFlush (input.take maxp2) h hb
      have hpos : 0 < maxp2 := by decide
      have hdrop : (input.drop maxp2).length ≤ n - maxp2 := by
        rw [List.length_drop]
        omega
      obtain ⟨s', b', hrun, hb'⟩ := ih (n - maxp2) (by omega) (engine_noFlush h hpiece) hb₁ hdrop
      exact ⟨s', b', .piece hlong hpiece hrun, hb'⟩
    · have hshort := Nat.le_of_not_lt hlong
      cases final with
      | false =>
        obtain ⟨s₁, b₁, hblock, hb₁⟩ := engine_runs .block input h hb
        obtain ⟨s', b', halign, hb'⟩ := aligned_runs (engine_block h hblock).1 hb₁
        exact ⟨s', b', .flush hshort rfl hblock halign, hb'⟩
      | true =>
        obtain ⟨s', b', hfinish, hb'⟩ := engine_runs .finish input h hb
        exact ⟨s', b', .finish hshort rfl hfinish, hb'⟩

theorem blocks_runs (more : Bool) {ls : List Nat} (hls : ls ≠ []) (h : Z.ready s w bs b.bytes) (hb : b.Fits) :
    ∃ s' b', Blocks Z.toDeflate more ls s input b s' b' := by
  induction ls generalizing s bs input b with
  | nil => exact absurd rfl hls
  | cons len ls ih =>
    cases ls with
    | nil =>
      obtain ⟨s', b', hrun, -⟩ := block_runs (!more) h hb (Nat.le_refl (input.take len).length)
      exact ⟨s', b', .last hrun⟩
    | cons len' ls =>
      obtain ⟨s₁, b₁, hrun, hb₁⟩ := block_runs false h hb (Nat.le_refl (input.take len).length)
      have hready := Z.ready_of_flushed ((block_decodes h hrun).2 rfl)
      obtain ⟨s', b', hrest⟩ : ∃ s' b', Blocks Z.toDeflate more (len' :: ls) s₁ (input.drop len) b₁ s' b' :=
        ih (List.cons_ne_nil _ _) hready hb₁
      exact ⟨s', b', .cons (List.cons_ne_nil _ _) hrun hrest⟩

theorem compress_runs (s : Z.Stream) (dict : Option (List Byte)) {ls : List Nat} (more : Bool) (input : List Byte)
    {size : Nat} (hdict : (dict.getD []).length ≤ 32768) (hls : ls ≠ []) (hsize : 28 ≤ size) :
    ∃ s' b, Compress Z.toDeflate s dict ls more input size s' b := by
  have hb : OutBuf.Fits ⟨size, []⟩ := ⟨hsize, Nat.zero_le _⟩
  cases dict with
  | none => exact blocks_runs more hls (b := ⟨size, []⟩) (Z.ready_of_flushed (Z.flushed_reset s)) hb
  | some d => exact blocks_runs more hls (b := ⟨size, []⟩) (Z.ready_of_flushed (Z.flushed_setDictionary s d hdict)) hb

/-- The compressed bytes of a chunk decode to it behind its dictionary, and behind any text that ends with it. -/
theorem compress_decodes {more : Bool} {ls : List Nat} {dict : Option (List Byte)} {size : Nat}
    (hdict : (dict.getD []).length ≤ 32768) (hsum : ls.sum = input.length)
    (hrun : Compress Z.toDeflate s dict ls more input size s' b) :
    Z.decodes (dict.getD []) b.bytes input (!more) := by
  cases dict with
  | none => exact blocks_decode (b := ⟨size, []⟩) (Z.ready_of_flushed (Z.flushed_reset s)) hsum hrun
  | some d => exact blocks_decode (b := ⟨size, []⟩) (Z.ready_of_flushed (Z.flushed_setDictionary s d hdict)) hsum hrun

/-! ## The blocks of the output -/

theorem engine_extends (hrun : Engine Z.toDeflate f s input b s' b') : b.bytes <+: b'.bytes := by
  induction hrun with
  | done =>
    rw [OutBuf.write_bytes, OutBuf.grown_bytes]
    exact List.prefix_append _ _
  | full _ _ _ ih =>
    rw [OutBuf.write_bytes, OutBuf.grown_bytes] at ih
    exact (List.prefix_append _ _).trans ih

theorem aligned_extends (hrun : Aligned Z.toDeflate s b s' b') : b.bytes <+: b'.bytes := by
  cases hrun with
  | odd _ hsync => exact engine_extends hsync
  | even _ _ _ hblock => exact engine_extends hblock
  | boundary => exact List.prefix_rfl

theorem block_extends {final : Bool} (hrun : Block Z.toDeflate final s input b s' b') : b.bytes <+: b'.bytes := by
  induction hrun with
  | piece _ hpiece _ ih => exact (engine_extends hpiece).trans ih
  | flush _ _ hblock halign => exact (engine_extends hblock).trans (aligned_extends halign)
  | finish _ _ hfinish => exact engine_extends hfinish

theorem blocks_extends {more : Bool} {ls : List Nat} (hrun : Blocks Z.toDeflate more ls s input b s' b') :
    b.bytes <+: b'.bytes := by
  induction hrun with
  | last hblock => exact block_extends hblock
  | cons _ hblock _ ih => exact (block_extends hblock).trans ih

/-- The first blocks of a chunk are what a first part of the output decodes to. -/
theorem blocks_split {more : Bool} {ls done rest : List Nat} (h : Z.ready s w bs b.bytes) (hsplit : ls = done ++ rest)
    (hdone : done ≠ []) (hrest : rest ≠ []) (hrun : Blocks Z.toDeflate more ls s input b s' b') :
    ∃ a, a <+: b'.bytes ∧ Z.decodes w a (bs ++ input.take done.sum) false := by
  induction done generalizing ls s bs input b with
  | nil => exact absurd rfl hdone
  | cons len done ih =>
    obtain ⟨ls', hls⟩ : ∃ ls', ls' = done ++ rest := ⟨_, rfl⟩
    rw [hsplit, List.cons_append, ← hls] at hrun
    cases hrun with
    | last => exact absurd (List.append_eq_nil_iff.1 hls.symm).2 hrest
    | @cons _ s₁ _ _ _ _ _ b₁ _ _ hblock hmore =>
      have hcons : (len :: done).sum = len + done.sum := List.sum_cons
      obtain ⟨hdecodes, hflushed⟩ := block_decodes h hblock
      rw [hcons, List.take_add, ← List.append_assoc]
      by_cases hnil : done = []
      · subst hnil
        rw [List.sum_nil, List.take_zero, List.append_nil]
        exact ⟨b₁.bytes, blocks_extends hmore, hdecodes⟩
      · exact ih (Z.ready_of_flushed (hflushed rfl)) hls hnil hmore

/-- `compress_thread` comes to an end with a job. Its output decodes to the chunk, and the output as far as each of its
blocks to the chunk as far as this block. -/
theorem compress_blocks (Z : Codec) (s : Z.Stream) (dict : Option (List Byte)) (ls : List Nat) (more : Bool)
    (input : List Byte) (size : Nat) (hdict : (dict.getD []).length ≤ 32768) (hls : ls ≠ [])
    (hsum : ls.sum = input.length) (hsize : 28 ≤ size) :
    (∃ s' b, Compress Z.toDeflate s dict ls more input size s' b) ∧
      ∀ s' b, Compress Z.toDeflate s dict ls more input size s' b →
        Z.decodes (dict.getD []) b.bytes input (!more) ∧
          ∀ done rest, ls = done ++ rest → done ≠ [] → rest ≠ [] →
            ∃ a, a <+: b.bytes ∧ Z.decodes (dict.getD []) a (input.take done.sum) false := by
  refine ⟨compress_runs s dict more input hdict hls hsize, fun s' b hrun => ?_⟩
  refine ⟨compress_decodes hdict hsum hrun, fun done rest hsplit hdone hrest => ?_⟩
  cases dict with
  | none => exact blocks_split (b := ⟨size, []⟩) (Z.ready_of_flushed (Z.flushed_reset s)) hsplit hdone hrest hrun
  | some d =>
    have hready := Z.ready_of_flushed (Z.flushed_setDictionary s d hdict)
    exact blocks_split (b := ⟨size, []⟩) hready hsplit hdone hrest hrun

/-- Three bytes in two blocks. -/
theorem compress_blocks_stored : ∃ s' b, Compress storedCodec.toDeflate storedCodec.init none [1, 2] false [7, 8, 9] 32 s' b ∧
    StoredCode b.bytes [7, 8, 9] true ∧ ∃ a, a <+: b.bytes ∧ StoredCode a [7] false := by
  obtain ⟨⟨s', b, hrun⟩, hspec⟩ := compress_blocks storedCodec storedCodec.init none [1, 2] false [7, 8, 9] 32
    (by decide) (by decide) rfl (by decide)
  obtain ⟨hdecodes, hblocks⟩ := hspec s' b hrun
  exact ⟨s', b, hrun, hdecodes, hblocks [1] [2] rfl (by decide) (by decide)⟩

end Codec

end Libibtl.Pgz
