import Libibtl.Pgz.Checksum

/-! # Compression of a chunk

A compress thread runs the blocks of a chunk through a deflate stream. Every block but
the last of the input ends on a byte boundary, so that the compressed chunks can be put
one behind the other. The stream belongs to the compression library; what is assumed
about it is what its documentation and the deflate format say.
-/

namespace Libibtl.Pgz

/-- `Z_NO_FLUSH`, `Z_BLOCK`, `Z_SYNC_FLUSH` and `Z_FINISH`. -/
inductive Flush
  | noFlush
  | block
  | syncFlush
  | finish
  deriving DecidableEq

/-- The calls of the compression library. `deflate s bs f room s' rest out` is a call with the input `bs` and `room`
bytes for the output, which leaves the input `rest` and stores `out`. `bits` is the number of bits that
`deflatePending` finds, `init` is a stream from `deflateInit2`, `reset` is `deflateReset` with `deflateParams`, and
`prime` adds ten bits, an empty block. -/
structure Deflate where
  Stream : Type
  init : Stream
  reset : Stream → Stream
  setDictionary : Stream → List Byte → Stream
  deflate : Stream → List Byte → Flush → Nat → Stream → List Byte → List Byte → Prop
  bits : Stream → Nat
  prime : Stream → Stream

/-- `decodes w a bs last`: behind the text `w`, the bytes `a` are complete blocks of the text `bs`, and `last` says
whether they end the stream. `ready`, `during` and `flushed` say that a stream has been given the text `bs` after the
dictionary `w` and has output `a`: outside of a flush, during the calls with one that has input left, and behind a
complete block. -/
structure Codec extends Deflate where
  decodes : List Byte → List Byte → List Byte → Bool → Prop
  ready : Stream → List Byte → List Byte → List Byte → Prop
  during : Flush → Stream → List Byte → List Byte → List Byte → List Byte → Prop
  flushed : Stream → List Byte → List Byte → List Byte → Prop
  ready_of_flushed : ∀ {s w bs a}, flushed s w bs a → ready s w bs a
  during_of_ready : ∀ {f s w bs a} input, ready s w bs a → during f s w bs a input
  flushed_reset : ∀ s, flushed (reset s) [] [] []
  flushed_setDictionary : ∀ s w, w.length ≤ 32768 → flushed (setDictionary (reset s) w) w [] []
  flushed_prime : ∀ {s w bs a}, flushed s w bs a → flushed (prime s) w bs a
  bits_prime : ∀ s, bits (prime s) % 8 = (bits s + 10) % 8
  call : ∀ s bs f room, ∃ s' rest out, deflate s bs f room s' rest out
  room : ∀ {s bs f room s' rest out}, deflate s bs f room s' rest out → out.length ≤ room
  /-- With more than six bytes for the output, the calls do not fill them without end. -/
  finite : ∀ f, WellFounded fun x y : Stream × List Byte =>
    ∃ room out, 6 < room ∧ deflate y.1 y.2 f room x.1 x.2 out ∧ out.length = room
  full : ∀ {f s w bs a input room s' rest out}, during f s w bs a input → deflate s input f room s' rest out →
    out.length = room → ∃ taken, input = taken ++ rest ∧ during f s' w (bs ++ taken) (a ++ out) rest
  /-- A call that does not fill the output has taken the input and completed the flush. -/
  emptied : ∀ {f s w bs a input room s' rest out}, during f s w bs a input → deflate s input f room s' rest out →
    out.length < room → rest = []
  taken : ∀ {s w bs a input room s' out}, during .noFlush s w bs a input → deflate s input .noFlush room s' [] out →
    out.length < room → ready s' w (bs ++ input) (a ++ out)
  block : ∀ {s w bs a input room s' out}, during .block s w bs a input → deflate s input .block room s' [] out →
    out.length < room → flushed s' w (bs ++ input) (a ++ out) ∧
      (bits s' % 8 = 0 → decodes w (a ++ out) (bs ++ input) false)
  /-- Without input, behind a complete block, `Z_BLOCK` only hands out what is pending. -/
  idle : ∀ {s w bs a room s' rest out}, flushed s w bs a → deflate s [] .block room s' rest out →
    flushed s' w bs (a ++ out) ∧ bits s' = bits s
  sync : ∀ {s w bs a input room s' out}, during .syncFlush s w bs a input → deflate s input .syncFlush room s' [] out →
    out.length < room → flushed s' w (bs ++ input) (a ++ out) ∧ bits s' % 8 = 0 ∧
      decodes w (a ++ out) (bs ++ input) false
  finish : ∀ {s w bs a input room s' out}, during .finish s w bs a input → deflate s input .finish room s' [] out →
    out.length < room → decodes w (a ++ out) (bs ++ input) true
  decodes_nil : ∀ w, decodes w [] [] false
  decodes_append : ∀ {w a b bs cs last}, decodes w a bs false → decodes (w ++ bs) b cs last →
    decodes w (a ++ b) (bs ++ cs) last
  /-- Text further back does not matter. -/
  decodes_longer : ∀ {w a bs last} v, decodes w a bs last → decodes (v ++ w) a bs last

/-! ## The output buffer -/

/-- The loop of `grow` that halves `top`. -/
def growShift : Nat → Nat → Nat → Nat × Nat
  | 0, top, shift => (top, shift)
  | n + 1, top, shift => if 7 < top then growShift n (top / 2) (shift + 1) else (top, shift)

/-- `grow`, for sizes below the overflow. -/
def grow (size : Nat) : Nat :=
  let size := size + size / 4
  let (top, shift) := growShift size size 0
  let size := if top = 7 then 2 ^ (shift + 3) else size
  if size < 16 then 16 else size

/-- A buffer of the output pool: its size, and the bytes in it. -/
structure OutBuf where
  size : Nat
  bytes : List Byte

namespace OutBuf

def room (b : OutBuf) : Nat := b.size - b.bytes.length

/-- `grow_space` before a call of `deflate`, when there is no room. -/
def grown (b : OutBuf) : OutBuf := if b.room = 0 then { b with size := grow b.size } else b

def write (b : OutBuf) (out : List Byte) : OutBuf := { b with bytes := b.bytes ++ out }

end OutBuf

section Grow

theorem growShift_bound {n top shift size : Nat} (h : size < (top + 1) * 2 ^ shift) :
    size < ((growShift n top shift).1 + 1) * 2 ^ (growShift n top shift).2 := by
  induction n generalizing top shift with
  | zero => exact h
  | succ n ih =>
    rw [growShift]
    split
    · apply ih
      calc size
        _ < (top + 1) * 2 ^ shift := h
        _ ≤ (top / 2 + 1) * 2 * 2 ^ shift := Nat.mul_le_mul_right _ (by omega)
        _ = (top / 2 + 1) * 2 ^ (shift + 1) := by rw [Nat.mul_assoc, Nat.pow_succ']
    · exact h

/-- A buffer grows by a quarter at least. -/
theorem le_grow (size : Nat) : size + size / 4 ≤ grow size := by
  have hstart : size + size / 4 < (size + size / 4 + 1) * 2 ^ 0 := by simp
  have hbound := growShift_bound (n := size + size / 4) hstart
  generalize hg : growShift (size + size / 4) (size + size / 4) 0 = g at hbound
  simp only [grow, hg]
  have hpow : 2 ^ (g.2 + 3) = 8 * 2 ^ g.2 := by rw [Nat.pow_add, Nat.mul_comm]
  by_cases htop : g.1 = 7
  · rw [htop] at hbound
    rw [if_pos htop]
    split <;> omega
  · rw [if_neg htop]
    split <;> omega

variable {b : OutBuf}

theorem OutBuf.grown_bytes : b.grown.bytes = b.bytes := by
  rw [OutBuf.grown]
  split <;> rfl

theorem OutBuf.write_bytes (out : List Byte) : (b.write out).bytes = b.bytes ++ out := rfl

/-- The bytes fit, and the buffer is not so small that it grows by a few bytes only. -/
structure OutBuf.Fits (b : OutBuf) : Prop where
  large : 28 ≤ b.size
  fits : b.bytes.length ≤ b.size

theorem OutBuf.Fits.grown (h : b.Fits) : b.grown.Fits ∧ 0 < b.grown.room ∧ (b.room = 0 → 6 < b.grown.room) := by
  obtain ⟨hlarge, hfits⟩ := h
  have hgrow := le_grow b.size
  rw [OutBuf.grown]
  split
  · next hnone =>
    dsimp only [OutBuf.room] at hnone ⊢
    refine ⟨⟨?_, ?_⟩, by omega, fun _ => by omega⟩
    · dsimp only
      omega
    · dsimp only
      omega
  · next hsome => exact ⟨⟨hlarge, hfits⟩, by omega, fun h => absurd h hsome⟩

theorem OutBuf.Fits.write (h : b.Fits) {out : List Byte} (hout : out.length ≤ b.room) :
    (b.write out).Fits ∧ (out.length = b.room → (b.write out).room = 0) := by
  obtain ⟨hlarge, hfits⟩ := h
  have hlen : (b.write out).bytes.length = b.bytes.length + out.length := List.length_append
  have hsize : (b.write out).size = b.size := rfl
  rw [OutBuf.room] at hout ⊢
  refine ⟨⟨hlarge, ?_⟩, fun hfull => ?_⟩
  · omega
  · rw [OutBuf.room]
    omega

end Grow

/-! ## The runs of a stream -/

namespace Deflate

variable (Z : Deflate)

/-- `deflate_engine` with the input `bs`. -/
inductive Engine (f : Flush) : Z.Stream → List Byte → OutBuf → Z.Stream → OutBuf → Prop
  | done {s s' : Z.Stream} {bs out : List Byte} {b : OutBuf} (h : Z.deflate s bs f b.grown.room s' [] out)
    (hroom : out.length < b.grown.room) : Engine f s bs b s' (b.grown.write out)
  | full {s s₁ s' : Z.Stream} {bs rest out : List Byte} {b b' : OutBuf}
    (h : Z.deflate s bs f b.grown.room s₁ rest out) (hroom : out.length = b.grown.room)
    (hmore : Engine f s₁ rest (b.grown.write out) s' b') : Engine f s bs b s' b'

/-- The loop that adds empty blocks to get to a byte boundary. -/
inductive Primed : Z.Stream → Z.Stream → Prop
  | stop {s : Z.Stream} (h : Z.bits (Z.prime s) % 8 = 0) : Primed s (Z.prime s)
  | again {s s' : Z.Stream} (h : Z.bits (Z.prime s) % 8 ≠ 0) (hmore : Primed (Z.prime s) s') : Primed s s'

/-- What follows `Z_BLOCK` in the bits of the output. -/
inductive Aligned : Z.Stream → OutBuf → Z.Stream → OutBuf → Prop
  | odd {s s' : Z.Stream} {b b' : OutBuf} (h : Z.bits s % 2 = 1) (hsync : Engine Z .syncFlush s [] b s' b') :
    Aligned s b s' b'
  | even {s s₁ s' : Z.Stream} {b b' : OutBuf} (h : Z.bits s % 2 = 0) (hbits : Z.bits s % 8 ≠ 0) (hprime : Primed Z s s₁)
    (hblock : Engine Z .block s₁ [] b s' b') : Aligned s b s' b'
  | boundary {s : Z.Stream} {b : OutBuf} (h : Z.bits s % 8 = 0) : Aligned s b s b

/-- One block, where `final` says that neither input nor chunks are left. -/
inductive Block (final : Bool) : Z.Stream → List Byte → OutBuf → Z.Stream → OutBuf → Prop
  | piece {s s₁ s' : Z.Stream} {bs : List Byte} {b b₁ b' : OutBuf} (hlen : maxp2 < bs.length)
    (hpiece : Engine Z .noFlush s (bs.take maxp2) b s₁ b₁) (hmore : Block final s₁ (bs.drop maxp2) b₁ s' b') :
    Block final s bs b s' b'
  | flush {s s₁ s' : Z.Stream} {bs : List Byte} {b b₁ b' : OutBuf} (hlen : bs.length ≤ maxp2) (hfinal : final = false)
    (hblock : Engine Z .block s bs b s₁ b₁) (halign : Aligned Z s₁ b₁ s' b') : Block final s bs b s' b'
  | finish {s s' : Z.Stream} {bs : List Byte} {b b' : OutBuf} (hlen : bs.length ≤ maxp2) (hfinal : final = true)
    (hfinish : Engine Z .finish s bs b s' b') : Block final s bs b s' b'

/-- The blocks `ls` of the chunk `bs`. -/
inductive Blocks (more : Bool) : List Nat → Z.Stream → List Byte → OutBuf → Z.Stream → OutBuf → Prop
  | last {s s' : Z.Stream} {len : Nat} {bs : List Byte} {b b' : OutBuf} (h : Block Z (!more) s (bs.take len) b s' b') :
    Blocks more [len] s bs b s' b'
  | cons {s s₁ s' : Z.Stream} {len : Nat} {ls : List Nat} {bs : List Byte} {b b₁ b' : OutBuf} (hls : ls ≠ [])
    (h : Block Z false s (bs.take len) b s₁ b₁) (hrest : Blocks more ls s₁ (bs.drop len) b₁ s' b') :
    Blocks more (len :: ls) s bs b s' b'

/-- What `compress_thread` does with a job: `dict` is what it passes to `deflateSetDictionary`, if anything. -/
def Compress (s : Z.Stream) (dict : Option (List Byte)) (ls : List Nat) (more : Bool) (bs : List Byte) (size : Nat)
    (s' : Z.Stream) (b : OutBuf) : Prop :=
  let s₀ := match dict with
    | none => Z.reset s
    | some w => Z.setDictionary (Z.reset s) w
  Blocks Z more ls s₀ bs ⟨size, []⟩ s' b

end Deflate

end Libibtl.Pgz
