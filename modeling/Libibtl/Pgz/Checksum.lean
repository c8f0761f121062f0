import Libibtl.Datatype
import Libibtl.Foundation.XorLinear

/-! # Combination of check values

The compress threads compute check values of their chunks, and the write thread
combines them to the check value of the whole input without reading it again.
`unsigned long` and `size_t` have 64 bits. The check functions themselves belong to
the compression library; what is used of them is their definition by the formats.
-/

namespace Libibtl.Pgz

open Foundation

abbrev ULong := BitVec 64

/-! ## CRC-32 -/

/-- The loop of `gf2_matrix_times`, for a vector of at most `n` bits. -/
def gf2MatrixTimesLoop : Nat → (Nat → ULong) → ULong → ULong → ULong
  | 0, _, _, sum => sum
  | n + 1, mat, vec, sum =>
    if vec = 0#64 then sum
    else gf2MatrixTimesLoop n (fun i => mat (i + 1)) (vec >>> 1) (if vec &&& 1#64 ≠ 0#64 then sum ^^^ mat 0 else sum)

def gf2MatrixTimes (mat : Nat → ULong) (vec : ULong) : ULong := gf2MatrixTimesLoop 64 mat vec 0#64

def gf2MatrixSquare (mat : Nat → ULong) (n : Nat) : ULong := gf2MatrixTimes mat (mat n)

/-- The operator for one zero bit. -/
def oddInit (n : Nat) : ULong := if n = 0 then 0xedb88320#64 else 1#64 <<< (n - 1)

/-- The `do` loop of `crc32_comb`, with `odd` as it stands at its start. -/
def crc32CombLoop : Nat → (Nat → ULong) → ULong → BitVec 64 → ULong
  | 0, _, crc1, _ => crc1
  | n + 1, odd, crc1, len2 =>
    let even := gf2MatrixSquare odd
    let crc1 := if len2 &&& 1#64 ≠ 0#64 then gf2MatrixTimes even crc1 else crc1
    let len2 := len2 >>> 1
    if len2 = 0#64 then crc1
    else
      let odd := gf2MatrixSquare even
      let crc1 := if len2 &&& 1#64 ≠ 0#64 then gf2MatrixTimes odd crc1 else crc1
      let len2 := len2 >>> 1
      if len2 = 0#64 then crc1 else crc32CombLoop n odd crc1 len2

def crc32Comb (crc1 crc2 : ULong) (len2 : BitVec 64) : ULong :=
  if len2 = 0#64 then crc1
  else crc32CombLoop 32 (gf2MatrixSquare (gf2MatrixSquare oddInit)) crc1 len2 ^^^ crc2

/-- One zero bit more at the end of a message. -/
def zeroBit (x : ULong) : ULong := (if x.getLsbD 0 then 0xedb88320#64 else 0#64) ^^^ (x >>> 1)

/-- The register of the CRC after one more byte. -/
def crcByte (reg : ULong) (b : Byte) : ULong := zeroBit^[8] (reg ^^^ b.setWidth 64)

/-- `crc` is `crc32` of the compression library: the register is complemented before and after. -/
def IsCrc32 (crc : ULong → List Byte → ULong) : Prop :=
  ∀ c bs, c.toNat < 2 ^ 32 → crc c bs = bs.foldl crcByte (c ^^^ 0xffffffff#64) ^^^ 0xffffffff#64

section Operators

theorem and_one_ne_zero (x : ULong) : x &&& 1#64 ≠ 0#64 ↔ x.getLsbD 0 = true := by
  rw [BitVec.and_one_eq_setWidth_ofBool_getLsbD]
  cases x.getLsbD 0 <;> simp

theorem xor_xor_xor_cancel {w : Nat} (p x y : BitVec w) : p ^^^ x ^^^ (p ^^^ y) = x ^^^ y := by
  rw [BitVec.xor_comm p x, BitVec.xor_assoc, ← BitVec.xor_assoc p, BitVec.xor_self, BitVec.zero_xor]

theorem zeroBit_linear : XorLinear zeroBit := by
  intro x y
  simp only [zeroBit, BitVec.getLsbD_xor, BitVec.ushiftRight_xor_distrib]
  cases x.getLsbD 0 <;> cases y.getLsbD 0 <;> simp [xor_xor_xor_cancel] <;> ac_rfl

/-- The register has 32 bits. -/
def IsWord (x : ULong) : Prop := x.toNat < 2 ^ 32

theorem IsWord.xor {x y : ULong} (hx : IsWord x) (hy : IsWord y) : IsWord (x ^^^ y) := by
  rw [IsWord, BitVec.toNat_xor]
  exact Nat.xor_lt_two_pow hx hy

theorem IsWord.zeroBit {x : ULong} (hx : IsWord x) : IsWord (zeroBit x) := by
  apply IsWord.xor
  · split <;> simp [IsWord]
  · rw [IsWord, BitVec.toNat_ushiftRight]
    exact (Nat.shiftRight_le _ _).trans_lt hx

theorem IsWord.iterate {x : ULong} (hx : IsWord x) (n : Nat) : IsWord (Pgz.zeroBit^[n] x) := by
  induction n with
  | zero => exact hx
  | succ n ih =>
    rw [Function.iterate_succ_apply']
    exact ih.zeroBit

/-- The 32 columns of the operator `f` on words. -/
structure Columns (mat : Nat → ULong) (f : ULong → ULong) : Prop where
  linear : XorLinear f
  column : ∀ i < 32, mat i = f (1#64 <<< i)
  word : ∀ x, IsWord x → IsWord (f x)

theorem gf2MatrixTimesLoop_eq {f : ULong → ULong} (hf : XorLinear f) {n k : Nat} (hk : k ≤ n) {mat : Nat → ULong}
    (hmat : ∀ i < k, mat i = f (1#64 <<< i)) {vec : ULong} (hvec : vec.toNat < 2 ^ k) (sum : ULong) :
    gf2MatrixTimesLoop n mat vec sum = sum ^^^ f vec := by
  induction n generalizing f k mat vec sum with
  | zero =>
    obtain rfl : k = 0 := by omega
    have hzero : vec = 0#64 := BitVec.eq_of_toNat_eq (by simpa using hvec)
    rw [gf2MatrixTimesLoop, hzero, hf.zero, BitVec.xor_zero]
  | succ n ih =>
    rw [gf2MatrixTimesLoop]
    split
    · next hzero => rw [hzero, hf.zero, BitVec.xor_zero]
    · next hne =>
      cases k with
      | zero => exact absurd (BitVec.eq_of_toNat_eq (by simpa using hvec)) hne
      | succ k =>
        have hshift : ∀ i < k, mat (i + 1) = (f ∘ fun x : ULong => x <<< 1) (1#64 <<< i) := by
          intro i hi
          rw [hmat _ (by omega), Function.comp_apply, ← BitVec.shiftLeft_add]
        have hlt : (vec >>> 1).toNat < 2 ^ k := by
          rw [BitVec.toNat_ushiftRight, Nat.shiftRight_one]
          omega
        have hzero : mat 0 = f 1#64 := hmat 0 (by omega)
        rw [ih (hf.comp (XorLinear.shiftLeft 1)) (by omega) hshift hlt, Function.comp_apply, hf.apply_eq vec, hzero]
        by_cases hbit : vec.getLsbD 0
        · rw [if_pos ((and_one_ne_zero vec).2 hbit), if_pos hbit, BitVec.xor_assoc]
        · rw [if_neg fun h => hbit ((and_one_ne_zero vec).1 h), if_neg hbit, BitVec.zero_xor]

namespace Columns

variable {mat : Nat → ULong} {f : ULong → ULong}

theorem times (h : Columns mat f) {vec : ULong} (hvec : IsWord vec) : gf2MatrixTimes mat vec = f vec := by
  rw [gf2MatrixTimes, gf2MatrixTimesLoop_eq h.linear (by decide) h.column hvec, BitVec.zero_xor]

theorem square (h : Columns mat f) : Columns (gf2MatrixSquare mat) (f ∘ f) where
  linear := h.linear.comp h.linear
  column i hi := by
    have hone : IsWord (1#64 <<< i) := by
      rw [IsWord, BitVec.toNat_shiftLeft, Nat.shiftLeft_eq]
      have := Nat.pow_lt_pow_right (a := 2) (by decide) hi
      exact (Nat.mod_le _ _).trans_lt (by simpa using this)
    rw [gf2MatrixSquare, h.column i hi, h.times (h.word _ hone)]
    rfl
  word x hx := h.word _ (h.word _ hx)

theorem oddInit : Columns oddInit zeroBit where
  linear := zeroBit_linear
  column i hi := by
    cases i with
    | zero => decide
    | succ i =>
      have hbit : (1#64 <<< (i + 1)).getLsbD 0 = false := by simp
      have hback : 1#64 <<< (i + 1) >>> 1 = 1#64 <<< i := by
        apply BitVec.eq_of_getLsbD_eq
        intro j hj
        have := Nat.lt_trans hi (by decide : 32 < 64)
        simp only [BitVec.getLsbD_ushiftRight, BitVec.getLsbD_shiftLeft, BitVec.getLsbD_one]
        by_cases hij : j = i
        · subst hij
          simp [hj, Nat.add_comm 1 j, this]
        · by_cases hlt : j < i
          · simp [hlt, show 1 + j < i + 1 by omega]
          · simp [hlt, show ¬ (j - i = 0) by omega]
            omega
      simp only [Pgz.oddInit, Nat.succ_ne_zero, if_false, zeroBit, hbit, Bool.false_eq_true, hback, BitVec.zero_xor,
        Nat.add_sub_cancel]
  word _ hx := hx.zeroBit

end Columns

theorem getLsbD_zero_eq (x : ULong) : x.getLsbD 0 = decide (x.toNat % 2 = 1) := by
  rw [BitVec.getLsbD, Nat.testBit_zero]

theorem toNat_ushiftRight_one (x : ULong) : (x >>> 1).toNat = x.toNat / 2 := by
  rw [BitVec.toNat_ushiftRight, Nat.shiftRight_one]

/-- One half of a turn of the loop, with the operator for `k` zero bits. -/
theorem applyBit {mat : Nat → ULong} {k : Nat} (h : Columns mat zeroBit^[k]) {crc1 : ULong} (hcrc : IsWord crc1)
    (len2 : BitVec 64) : (if len2 &&& 1#64 ≠ 0#64 then gf2MatrixTimes mat crc1 else crc1) =
      zeroBit^[k * (len2.toNat % 2)] crc1 := by
  have hbit := and_one_ne_zero len2
  rw [getLsbD_zero_eq, decide_eq_true_eq] at hbit
  split
  · next hodd => rw [h.times hcrc, hbit.1 hodd, Nat.mul_one]
  · next heven =>
    have hmod : len2.toNat % 2 = 0 := by
      have := mt hbit.2 heven
      omega
    rw [hmod, Nat.mul_zero, Function.iterate_zero, id]

theorem Columns.square_iterate {mat : Nat → ULong} {k : Nat} (h : Columns mat zeroBit^[k]) :
    Columns (gf2MatrixSquare mat) zeroBit^[2 * k] := by
  have := h.square
  rwa [← Function.iterate_add, ← Nat.two_mul] at this

theorem bits_twice (k m : Nat) : 2 * (2 * k) * (m / 2) + 2 * k * (m % 2) = 2 * k * m := by
  conv_rhs => rw [← Nat.mod_add_div m 2]
  ring

/-- With the operator for `k` zero bits at its start, the loop applies `2 * k * len2` of them. -/
theorem crc32CombLoop_eq {n k : Nat} {odd : Nat → ULong} (h : Columns odd zeroBit^[k]) {crc1 : ULong}
    (hcrc : IsWord crc1) {len2 : BitVec 64} (hlen : len2.toNat < 4 ^ n) :
    crc32CombLoop n odd crc1 len2 = zeroBit^[2 * k * len2.toNat] crc1 := by
  induction n generalizing k odd crc1 len2 with
  | zero =>
    have hzero : len2.toNat = 0 := by
      rw [Nat.pow_zero] at hlen
      omega
    rw [crc32CombLoop, hzero]
    rfl
  | succ n ih =>
    have heven := h.square_iterate
    have hodd := heven.square_iterate
    have hhalf := toNat_ushiftRight_one len2
    have hquarter := toNat_ushiftRight_one (len2 >>> 1)
    have hpow : 4 ^ (n + 1) = 4 * 4 ^ n := Nat.pow_succ'
    simp only [crc32CombLoop]
    rw [applyBit heven hcrc]
    split
    · next hstop =>
      have hnone : len2.toNat / 2 = 0 := by rw [← hhalf, hstop]; rfl
      rw [show len2.toNat % 2 = len2.toNat by omega]
    · rw [applyBit hodd (hcrc.iterate _), ← Function.iterate_add_apply]
      split
      · next hstop =>
        have hnone : len2.toNat / 2 / 2 = 0 := by rw [← hhalf, ← hquarter, hstop]; rfl
        rw [hhalf, show len2.toNat / 2 % 2 = len2.toNat / 2 by omega, bits_twice]
      · rw [ih hodd (hcrc.iterate _) (by omega), ← Function.iterate_add_apply, hquarter, hhalf, ← Nat.add_assoc,
          bits_twice (2 * k), bits_twice]

/-- The operator for the bytes of a message takes the register before to what it adds to the register after. -/
theorem foldl_crcByte_xor (x y : ULong) (bs : List Byte) :
    bs.foldl crcByte (x ^^^ y) = bs.foldl crcByte x ^^^ zeroBit^[8 * bs.length] y := by
  induction bs generalizing x y with
  | nil => rfl
  | cons b bs ih =>
    have hbyte : crcByte (x ^^^ y) b = crcByte x b ^^^ zeroBit^[8] y := by
      have hxy : x ^^^ y ^^^ b.setWidth 64 = x ^^^ b.setWidth 64 ^^^ y := by ac_rfl
      rw [crcByte, hxy, (zeroBit_linear.iterate 8) (x ^^^ b.setWidth 64) y, crcByte]
    rw [List.foldl_cons, hbyte, ih, List.foldl_cons, ← Function.iterate_add_apply, List.length_cons, Nat.mul_succ]

end Operators

section Crc

variable {crc : ULong → List Byte → ULong}

theorem isWord_foldl {reg : ULong} (h : IsWord reg) (bs : List Byte) : IsWord (bs.foldl crcByte reg) := by
  induction bs generalizing reg with
  | nil => exact h
  | cons b bs ih =>
    apply ih
    apply IsWord.iterate
    apply h.xor
    rw [IsWord, BitVec.toNat_setWidth]
    have := b.isLt
    omega

theorem IsCrc32.word (h : IsCrc32 crc) {c : ULong} (hc : IsWord c) (bs : List Byte) : IsWord (crc c bs) := by
  rw [h c bs hc]
  exact (isWord_foldl (hc.xor (by simp [IsWord])) bs).xor (by simp [IsWord])

/-- A check value can be computed piece by piece. -/
theorem IsCrc32.append (h : IsCrc32 crc) {c : ULong} (hc : IsWord c) (as bs : List Byte) :
    crc c (as ++ bs) = crc (crc c as) bs := by
  rw [h _ bs (h.word hc as), h c as hc, h c (as ++ bs) hc, List.foldl_append, BitVec.xor_assoc, BitVec.xor_self,
    BitVec.xor_zero]

/-- `crc32_comb` combines the check values of two pieces to that of both. -/
theorem crc32Comb_eq (h : IsCrc32 crc) (as bs : List Byte) (hlen : bs.length < 2 ^ 64) :
    crc32Comb (crc 0 as) (crc 0 bs) (BitVec.ofNat 64 bs.length) = crc 0 (as ++ bs) := by
  have hzero : IsWord 0 := by simp [IsWord]
  have hword := h.word hzero as
  have hof : (BitVec.ofNat 64 bs.length).toNat = bs.length := by
    rw [BitVec.toNat_ofNat, Nat.mod_eq_of_lt hlen]
  rw [crc32Comb]
  split
  · next hnil =>
    have hnone : bs = [] := by
      rw [hnil] at hof
      exact List.eq_nil_of_length_eq_zero hof.symm
    rw [hnone, List.append_nil]
  · have hone : Columns oddInit zeroBit^[1] := Columns.oddInit
    rw [crc32CombLoop_eq hone.square_iterate.square_iterate hword (by rw [hof]; exact hlen), hof]
    have hreg : crc 0 as ^^^ 0xffffffff#64 = 0 ^^^ 0xffffffff#64 ^^^ crc 0 as := by ac_rfl
    rw [h.append hzero, h (crc 0 as) bs hword, hreg, foldl_crcByte_xor, h 0 bs hzero]
    ac_rfl

end Crc

/-! ## Adler-32 -/

/-- The largest prime below 65536. -/
def base : ULong := 65521#64

def adler32Comb (adler1 adler2 : ULong) (len2 : BitVec 64) : ULong :=
  let rem : UInt32T := (len2 % base).setWidth 32
  let sum1 := adler1 &&& 0xffff#64
  let sum2 := (rem.setWidth 64 * sum1) % base
  let sum1 := sum1 + ((adler2 &&& 0xffff#64) + base - 1)
  let sum2 := sum2 +
    (((adler1 >>> 16) &&& 0xffff#64) + ((adler2 >>> 16) &&& 0xffff#64) + base - rem.setWidth 64)
  let sum1 := if base ≤ sum1 then sum1 - base else sum1
  let sum1 := if base ≤ sum1 then sum1 - base else sum1
  let sum2 := if base <<< 1 ≤ sum2 then sum2 - (base <<< 1) else sum2
  let sum2 := if base ≤ sum2 then sum2 - base else sum2
  sum1 ||| (sum2 <<< 16)

/-- The two sums after one more byte. -/
def adlerByte (s : Nat × Nat) (b : Byte) : Nat × Nat :=
  ((s.1 + b.toNat) % 65521, (s.2 + (s.1 + b.toNat)) % 65521)

/-- The check value of two sums. -/
def adlerWord (s : Nat × Nat) : ULong := BitVec.ofNat 64 (s.1 + s.2 * 2 ^ 16)

/-- `adler` is `adler32` of the compression library. -/
def IsAdler32 (adler : ULong → List Byte → ULong) : Prop :=
  ∀ s : Nat × Nat, s.1 < 65521 → s.2 < 65521 → ∀ bs, adler (adlerWord s) bs = adlerWord (bs.foldl adlerByte s)

section Adler

theorem foldl_adlerByte_lt {s : Nat × Nat} (h : s.1 < 65521 ∧ s.2 < 65521) (bs : List Byte) :
    (bs.foldl adlerByte s).1 < 65521 ∧ (bs.foldl adlerByte s).2 < 65521 := by
  induction bs generalizing s with
  | nil => exact h
  | cons b bs ih => exact ih ⟨Nat.mod_lt _ (by decide), Nat.mod_lt _ (by decide)⟩

/-- Sums that start by `d` and `e` higher end by `d` and `e + bs.length * d` higher. -/
theorem foldl_adlerByte_add {s t : Nat × Nat} {d e : Nat} (h₁ : t.1 ≡ s.1 + d [MOD 65521])
    (h₂ : t.2 ≡ s.2 + e [MOD 65521]) (bs : List Byte) :
    (bs.foldl adlerByte t).1 ≡ (bs.foldl adlerByte s).1 + d [MOD 65521] ∧
      (bs.foldl adlerByte t).2 ≡ (bs.foldl adlerByte s).2 + (e + bs.length * d) [MOD 65521] := by
  induction bs generalizing s t e with
  | nil => exact ⟨h₁, by simpa using h₂⟩
  | cons b bs ih =>
    have hfst : (adlerByte t b).1 ≡ (adlerByte s b).1 + d [MOD 65521] := by
      have : t.1 + b.toNat ≡ s.1 + b.toNat + d [MOD 65521] := by
        rw [Nat.add_right_comm]
        exact h₁.add_right _
      exact (Nat.mod_modEq _ _).trans (this.trans ((Nat.mod_modEq _ _).symm.add_right _))
    have hsnd : (adlerByte t b).2 ≡ (adlerByte s b).2 + (e + d) [MOD 65521] := by
      have : t.2 + (t.1 + b.toNat) ≡ s.2 + (s.1 + b.toNat) + (e + d) [MOD 65521] := by
        have hsum := h₂.add (h₁.add_right b.toNat)
        have hswap : s.2 + e + (s.1 + d + b.toNat) = s.2 + (s.1 + b.toNat) + (e + d) := by omega
        rwa [hswap] at hsum
      exact (Nat.mod_modEq _ _).trans (this.trans ((Nat.mod_modEq _ _).symm.add_right _))
    obtain ⟨hfst', hsnd'⟩ := ih hfst hsnd
    refine ⟨hfst', ?_⟩
    have hlen : e + (b :: bs).length * d = e + d + bs.length * d := by
      rw [List.length_cons, Nat.succ_mul]
      omega
    rw [hlen]
    exact hsnd'

theorem toNat_low16 (x : ULong) : (x &&& 0xffff#64).toNat = x.toNat % 2 ^ 16 := by
  rw [BitVec.toNat_and, ← Nat.and_two_pow_sub_one_eq_mod]
  rfl

theorem toNat_adlerWord {s : Nat × Nat} (h : s.1 < 65521 ∧ s.2 < 65521) :
    (adlerWord s).toNat = s.1 + s.2 * 2 ^ 16 := by
  rw [adlerWord, BitVec.toNat_ofNat]
  omega

theorem toNat_or_shiftLeft {x y : ULong} (hx : x.toNat < 2 ^ 16) (hy : y.toNat < 2 ^ 16) :
    (x ||| (y <<< 16)).toNat = x.toNat + y.toNat * 2 ^ 16 := by
  have hshift : (y <<< 16).toNat = y.toNat <<< 16 := by
    rw [BitVec.toNat_shiftLeft, Nat.shiftLeft_eq]
    omega
  rw [BitVec.toNat_or, hshift, Nat.or_comm, ← Nat.shiftLeft_add_eq_or_of_lt hx, Nat.shiftLeft_eq, Nat.add_comm]

theorem toNat_reduce {x y : ULong} :
    (if y ≤ x then x - y else x).toNat = if y.toNat ≤ x.toNat then x.toNat - y.toNat else x.toNat := by
  by_cases h : y ≤ x
  · rw [if_pos h, if_pos (BitVec.le_def.1 h), BitVec.toNat_sub_of_le h]
  · rw [if_neg h, if_neg fun hle => h (BitVec.le_def.2 hle)]

/-- A sum of three sums, reduced. -/
theorem reduce_sum1 {x : Nat} (h : x < 3 * 65521) :
    let y := if 65521 ≤ x then x - 65521 else x
    (if 65521 ≤ y then y - 65521 else y) = x % 65521 := by
  intro y
  have hy : y = if 65521 ≤ x then x - 65521 else x := rfl
  split at hy <;> split <;> omega

theorem reduce_sum2 {x : Nat} (h : x < 4 * 65521) :
    let y := if 131042 ≤ x then x - 131042 else x
    (if 65521 ≤ y then y - 65521 else y) = x % 65521 := by
  intro y
  have hy : y = if 131042 ≤ x then x - 131042 else x := rfl
  split at hy <;> split <;> omega

/-- What `adler32_comb` does with the sums. -/
def combineSums (s t : Nat × Nat) (rem : Nat) : Nat × Nat :=
  ((s.1 + t.1 + 65520) % 65521, (rem * s.1 % 65521 + s.2 + t.2 + 65521 - rem) % 65521)

theorem adler32Comb_adlerWord {s t : Nat × Nat} (hs : s.1 < 65521 ∧ s.2 < 65521) (ht : t.1 < 65521 ∧ t.2 < 65521)
    (len2 : BitVec 64) :
    adler32Comb (adlerWord s) (adlerWord t) len2 = adlerWord (combineSums s t (len2.toNat % 65521)) := by
  have hbase : base.toNat = 65521 := rfl
  have hrem : len2.toNat % 65521 < 65521 := Nat.mod_lt _ (by decide)
  generalize hr : len2.toNat % 65521 = r at hrem
  have hr' : (((len2 % base).setWidth 32 : UInt32T).setWidth 64 : ULong).toNat = r := by
    simp only [BitVec.toNat_setWidth, BitVec.toNat_umod, hbase, hr]
    omega
  have hmul : r * s.1 ≤ 65520 * 65520 := Nat.mul_le_mul (by omega) (by omega)
  have hlow : ∀ {u : Nat × Nat}, u.1 < 65521 ∧ u.2 < 65521 → (adlerWord u &&& 0xffff#64).toNat = u.1 := by
    intro u hu
    rw [toNat_low16, toNat_adlerWord hu]
    omega
  have hhigh : ∀ {u : Nat × Nat}, u.1 < 65521 ∧ u.2 < 65521 →
      ((adlerWord u >>> 16) &&& 0xffff#64).toNat = u.2 := by
    intro u hu
    rw [toNat_low16, BitVec.toNat_ushiftRight, toNat_adlerWord hu, Nat.shiftRight_eq_div_pow]
    omega
  have hprod : ((((len2 % base).setWidth 32 : UInt32T).setWidth 64 * (adlerWord s &&& 0xffff#64)) % base).toNat =
      r * s.1 % 65521 := by
    rw [BitVec.toNat_umod, BitVec.toNat_mul, hr', hlow hs, hbase, Nat.mod_eq_of_lt (by omega : r * s.1 < 2 ^ 64)]
  have hsum1 : ((adlerWord s &&& 0xffff#64) + ((adlerWord t &&& 0xffff#64) + base - 1)).toNat =
      s.1 + t.1 + 65520 := by
    rw [BitVec.toNat_add, BitVec.toNat_sub, BitVec.toNat_add, hlow hs, hlow ht, hbase]
    have hone : (1 : ULong).toNat = 1 := rfl
    omega
  have hsum2 : ((((len2 % base).setWidth 32 : UInt32T).setWidth 64 * (adlerWord s &&& 0xffff#64)) % base +
      (((adlerWord s >>> 16) &&& 0xffff#64) + ((adlerWord t >>> 16) &&& 0xffff#64) + base -
        ((len2 % base).setWidth 32 : UInt32T).setWidth 64)).toNat =
      r * s.1 % 65521 + s.2 + t.2 + 65521 - r := by
    rw [BitVec.toNat_add, BitVec.toNat_sub, BitVec.toNat_add, BitVec.toNat_add, hprod, hhigh hs, hhigh ht, hbase, hr']
    have := Nat.mod_lt (r * s.1) (show 0 < 65521 by decide)
    omega
  have htwice : (base <<< 1).toNat = 131042 := rfl
  have hrest := Nat.mod_lt (r * s.1) (show 0 < 65521 by decide)
  have hnone : r = 0 → r * s.1 % 65521 = 0 := by
    rintro rfl
    simp
  apply BitVec.eq_of_toNat_eq
  rw [toNat_adlerWord ⟨Nat.mod_lt _ (by decide), Nat.mod_lt _ (by decide)⟩]
  simp only [adler32Comb]
  rw [toNat_or_shiftLeft] <;> simp only [toNat_reduce, hsum1, hsum2, hbase, htwice]
  · rw [reduce_sum1 (by omega), reduce_sum2 (by omega)]
    rfl
  · rw [reduce_sum1 (by omega)]
    exact (Nat.mod_lt _ (by decide)).trans (by decide)
  · rw [reduce_sum2 (by omega)]
    exact (Nat.mod_lt _ (by decide)).trans (by decide)

/-- `adler32_comb` combines the check values of two pieces to that of both. -/
theorem adler32Comb_eq {adler : ULong → List Byte → ULong} (h : IsAdler32 adler) (as bs : List Byte)
    (hlen : bs.length < 2 ^ 64) :
    adler32Comb (adler 1 as) (adler 1 bs) (BitVec.ofNat 64 bs.length) = adler 1 (as ++ bs) := by
  have hinit : (1 : Nat) < 65521 ∧ (0 : Nat) < 65521 := by decide
  have hone : ∀ cs, adler 1 cs = adlerWord (cs.foldl adlerByte (1, 0)) := h (1, 0) hinit.1 hinit.2
  have has := foldl_adlerByte_lt (s := (1, 0)) hinit as
  have hbs := foldl_adlerByte_lt (s := (1, 0)) hinit bs
  have hrem : (BitVec.ofNat 64 bs.length).toNat = bs.length := by
    rw [BitVec.toNat_ofNat, Nat.mod_eq_of_lt hlen]
  rw [hone, hone, hone, adler32Comb_adlerWord has hbs, List.foldl_append, hrem]
  generalize as.foldl adlerByte (1, 0) = s at has
  have hshift : s.1 ≡ (1, 0).1 + (s.1 + 65520) [MOD 65521] := by
    simp only [Nat.ModEq]
    omega
  obtain ⟨hfst, hsnd⟩ := foldl_adlerByte_add (s := (1, 0)) (e := s.2) hshift (by simp [Nat.ModEq]) bs
  have htotal := foldl_adlerByte_lt has bs
  -- the multiple of `base` in the length does not count
  have hmul : bs.length * (s.1 + 65520) =
      65521 * (bs.length / 65521 * (s.1 + 65520)) + (bs.length % 65521 * s.1 + bs.length % 65521 * 65520) := by
    conv_lhs => rw [← Nat.div_add_mod bs.length 65521]
    ring
  have hlt := Nat.mod_lt bs.length (show 0 < 65521 by decide)
  rw [hmul] at hsnd
  simp only [Nat.ModEq] at hfst hsnd
  apply congrArg adlerWord
  apply Prod.ext
  · simp only [combineSums]
    omega
  · simp only [combineSums]
    omega

end Adler

/-! ## Check values of chunks -/

/-- `MAXP2`, for an `unsigned` of 32 bits. -/
def maxp2 : Nat := 2147483648

/-- The check functions of the compression library. -/
structure CheckLib where
  crc32 : ULong → List Byte → ULong
  adler32 : ULong → List Byte → ULong
  isCrc32 : IsCrc32 crc32
  isAdler32 : IsAdler32 adler32

namespace CheckLib

variable (z : CheckLib) (form : CInt)

/-- `CHECK(a, b, c)`. -/
def check (a : ULong) (b : List Byte) : ULong := if form = 1 then z.adler32 a b else z.crc32 a b

/-- `CHECK(0L, Z_NULL, 0)`. -/
def checkInit : ULong := if form = 1 then 1 else 0

/-- `COMB(a, b, c)`. -/
def comb (a b : ULong) (c : BitVec 64) : ULong := if form = 1 then adler32Comb a b c else crc32Comb a b c

/-- The check value that `compress_thread` computes for its input, at most `maxp2` bytes in one call. -/
def checkLoop (maxp2 : Nat) : Nat → ULong → List Byte → ULong
  | 0, check, bs => z.check form check bs
  | n + 1, check, bs =>
    if maxp2 < bs.length then checkLoop maxp2 n (z.check form check (bs.take maxp2)) (bs.drop maxp2)
    else z.check form check bs

variable {z form}

theorem check_append (as bs : List Byte) :
    z.check form (checkInit form) (as ++ bs) = z.check form (z.check form (checkInit form) as) bs := by
  simp only [check, checkInit]
  split
  · have hinit : (1 : Nat) < 65521 ∧ (0 : Nat) < 65521 := by decide
    have has := foldl_adlerByte_lt (s := (1, 0)) hinit as
    have hone : ∀ cs, z.adler32 1 cs = adlerWord (cs.foldl adlerByte (1, 0)) :=
      z.isAdler32 (1, 0) hinit.1 hinit.2
    rw [hone, hone, List.foldl_append, z.isAdler32 _ has.1 has.2]
  · exact z.isCrc32.append (by simp [IsWord]) as bs

/-- The pieces do not matter. -/
theorem checkLoop_eq (maxp2 n : Nat) (as bs : List Byte) :
    z.checkLoop form maxp2 n (z.check form (checkInit form) as) bs = z.check form (checkInit form) (as ++ bs) := by
  induction n generalizing as bs with
  | zero => exact (check_append as bs).symm
  | succ n ih =>
    rw [checkLoop]
    split
    · rw [← check_append, ih, List.append_assoc, List.take_append_drop]
    · exact (check_append as bs).symm

theorem comb_eq (as bs : List Byte) (hlen : bs.length < 2 ^ 64) :
    comb form (z.check form (checkInit form) as) (z.check form (checkInit form) bs) (BitVec.ofNat 64 bs.length) =
      z.check form (checkInit form) (as ++ bs) := by
  simp only [check, checkInit, comb]
  split
  · exact adler32Comb_eq z.isAdler32 as bs hlen
  · exact crc32Comb_eq z.isCrc32 as bs hlen

/-- The check value of nothing is the initial one. -/
theorem check_nil : z.check form (checkInit form) [] = checkInit form := by
  simp only [check, checkInit]
  split
  · exact z.isAdler32 (1, 0) (by decide) (by decide) []
  · rw [z.isCrc32 0 [] (by decide)]
    rfl

variable (z form)

/-- The check value that `compress_thread` stores in a job with the input `bs`. -/
def jobCheck (bs : List Byte) : ULong := z.checkLoop form maxp2 bs.length (checkInit form) bs

/-- The check value in `write_thread` after one more job. -/
def combineJob (check : ULong) (bs : List Byte) : ULong := comb form check (z.jobCheck form bs) (BitVec.ofNat 64 bs.length)

variable {z form}

theorem jobCheck_eq (bs : List Byte) : z.jobCheck form bs = z.check form (checkInit form) bs := by
  have h : z.checkLoop form maxp2 bs.length (z.check form (checkInit form) []) bs = _ := z.checkLoop_eq maxp2 bs.length [] bs
  rwa [check_nil] at h

theorem combineJob_eq (as bs : List Byte) (hlen : bs.length < 2 ^ 64) :
    z.combineJob form (z.check form (checkInit form) as) bs = z.check form (checkInit form) (as ++ bs) := by
  rw [combineJob, jobCheck_eq]
  exact comb_eq as bs hlen

/-- The check values of chunks, computed apart and combined in order, give that of the whole input. -/
theorem foldl_combineJob {chunks : List (List Byte)} (hlen : ∀ bs ∈ chunks, bs.length < 2 ^ 64) :
    chunks.foldl (z.combineJob form) (checkInit form) = z.check form (checkInit form) chunks.flatten := by
  induction chunks using List.reverseRecOn with
  | nil => exact check_nil.symm
  | append_singleton chunks bs ih =>
    have hlast := hlen bs (List.mem_append_right _ List.mem_cons_self)
    have hbefore := ih fun cs hcs => hlen cs (List.mem_append_left _ hcs)
    rw [List.foldl_append, List.foldl_cons, List.foldl_nil, hbefore, combineJob_eq _ _ hlast, List.flatten_append,
      List.flatten_cons, List.flatten_nil, List.append_nil]

/-- Check functions as the formats define them. -/
def standard : CheckLib where
  crc32 c bs := bs.foldl crcByte (c ^^^ 0xffffffff#64) ^^^ 0xffffffff#64
  adler32 a bs := adlerWord (bs.foldl adlerByte (a.toNat % 2 ^ 16, a.toNat / 2 ^ 16))
  isCrc32 _ _ _ := rfl
  isAdler32 s h₁ h₂ bs := by
    have hsums : ((adlerWord s).toNat % 2 ^ 16, (adlerWord s).toNat / 2 ^ 16) = s := by
      rw [toNat_adlerWord ⟨h₁, h₂⟩]
      apply Prod.ext
      · dsimp only
        omega
      · dsimp only
        omega
    dsimp only
    rw [hsums]

/-- The nine digits in three chunks, one of them empty. -/
theorem foldl_combineJob_digits : [[0x31, 0x32, 0x33, 0x34], [], [0x35, 0x36, 0x37, 0x38, 0x39]].foldl
    (standard.combineJob 0) (checkInit 0) = 0xcbf43926 := by
  rw [foldl_combineJob (by decide)]
  decide +kernel

end CheckLib

end Libibtl.Pgz
