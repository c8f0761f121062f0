import Libibtl.EagerBounds

/-! # The registered extent and the packed blocks

`reg_size` multiplies the extent of one element, which ends with its last block, by
the number of elements. The loops advance by a whole stride after every block, the
last block of an element included. So the elements lie further apart than
`reg_size` has room for, as soon as there is a gap behind the last block.
-/

namespace Libibtl

open Foundation

/-- The copies of the pack loop of `fdmi_post_send_msg`, from the user pointer to the eager buffer. A
contiguous type is not packed. -/
def packCopies (d : Datatype) (count : CInt) : List Copy :=
  if d.count = 1 then [] else blockCopies (blockLen d) (blockLen d) (strideLen d) (turns d.count * turns count) 0 0

theorem packLoop_dst_eq_perform {d : Datatype} (count : CInt) (eager send : Buffer) (sendOff : Nat) (hd : d.count ≠ 1) :
    (packLoop d count eager send sendOff).dst = perform send 0 sendOff (packCopies d count) eager := by
  rw [packLoop, packCopies, if_neg hd]
  exact copyLoop_dst ..

def Datatype.Predefined (d : Datatype) : Prop :=
  d = fmiByte ∨ d = fmiChar ∨ d = fmiInt ∨ d = fmiFloat ∨ d = fmiDouble

/-- Blocks that do not overlap, at least one of them, or a predefined type. -/
def Datatype.Layered (d : Datatype) : Prop :=
  (1 ≤ d.count.toInt ∧ 0 ≤ d.blength.toInt ∧ d.blength.toInt ≤ d.stride.toInt) ∨ d.Predefined

/-- No step of the expression for `reg_size` overflows. -/
structure ExtentFits (d : Datatype) (n : CInt) : Prop where
  items : d.stride.toInt * (d.count.toInt - 1) + d.blength.toInt < 2 ^ 31
  bytes : (d.stride.toInt * (d.count.toInt - 1) + d.blength.toInt) * d.size.toNat * n.toInt < 2 ^ 64

/-- Every byte of the user buffer that packing or unpacking `n` elements of `d` touches lies in front of
`reg_size`. -/
def ExtentCovers (d : Datatype) (n : CInt) : Prop :=
  (∀ c ∈ packCopies d n, ∀ i, c.Reads i → i < (regSize d n).toNat) ∧
  ∀ c ∈ eagerCopies d n, ∀ i, c.Writes i → i < (regSize d n).toNat

section

variable {d : Datatype} {n : CInt}

theorem Datatype.Layered.bounds (h : d.Layered) : 1 ≤ d.count.toInt ∧ 0 ≤ d.blength.toInt ∧ 0 ≤ d.stride.toInt ∧
    (d.count = 1 ∨ d.blength.toInt ≤ d.stride.toInt) := by
  rcases h with ⟨hcount, hblength, hstride⟩ | rfl | rfl | rfl | rfl | rfl
  · exact ⟨hcount, hblength, hblength.trans hstride, .inr hstride⟩
  all_goals decide

theorem toNat_pred {x : CInt} (h : 1 ≤ x.toInt) : (x - 1).toNat = x.toNat - 1 ∧ 1 ≤ x.toNat := by
  have hx := toInt_eq_toNat_of_nonneg (x := x) (by omega)
  have hlt := toNat_lt_of_nonneg (x := x) (by omega)
  have hone : (1 : CInt).toNat = 1 := rfl
  rw [BitVec.toNat_sub, hone]
  omega

theorem ExtentFits.toNat (h : ExtentFits d n) (hd : d.Layered) (hn : 1 ≤ n.toInt) :
    d.stride.toNat * (d.count.toNat - 1) + d.blength.toNat < 2 ^ 31 ∧
    (d.stride.toNat * (d.count.toNat - 1) + d.blength.toNat) * d.size.toNat * n.toNat < 2 ^ 64 := by
  obtain ⟨hcount, hblength, hstride, -⟩ := hd.bounds
  obtain ⟨hitems, hbytes⟩ := h
  have hc := toInt_eq_toNat_of_nonneg (x := d.count) (by omega)
  have hpred : d.count.toInt - 1 = ((d.count.toNat - 1 : Nat) : Int) := by omega
  rw [hpred, toInt_eq_toNat_of_nonneg hblength, toInt_eq_toNat_of_nonneg hstride] at hitems hbytes
  rw [toInt_eq_toNat_of_nonneg (x := n) (by omega)] at hbytes
  constructor
  · exact_mod_cast hitems
  · exact_mod_cast hbytes

theorem ExtentFits.regSize_eq (h : ExtentFits d n) (hd : d.Layered) (hn : 1 ≤ n.toInt) : (regSize d n).toNat =
    (d.stride.toNat * (d.count.toNat - 1) + d.blength.toNat) * d.size.toNat * n.toNat := by
  obtain ⟨hitems, hbytes⟩ := h.toNat hd hn
  obtain ⟨hcount, hblength, hstride, -⟩ := hd.bounds
  obtain ⟨hpred, -⟩ := toNat_pred hcount
  have hmul : (d.stride * (d.count - 1)).toNat = d.stride.toNat * (d.count.toNat - 1) := by
    rw [BitVec.toNat_mul, hpred, Nat.mod_eq_of_lt]
    omega
  have hadd : (d.stride * (d.count - 1) + d.blength).toNat = d.stride.toNat * (d.count.toNat - 1) + d.blength.toNat := by
    rw [BitVec.toNat_add, hmul, Nat.mod_eq_of_lt]
    omega
  have hnonneg : 0 ≤ (d.stride * (d.count - 1) + d.blength).toInt := by
    rw [BitVec.toInt_eq_toNat_of_lt (by omega)]
    omega
  have hfactor : (d.stride.toNat * (d.count.toNat - 1) + d.blength.toNat) * d.size.toNat < 2 ^ 64 :=
    lt_of_le_of_lt (Nat.le_mul_of_pos_right _ (by
      have := toInt_eq_toNat_of_nonneg (x := n) (by omega)
      omega)) hbytes
  have hsize : (uint64OfInt (d.stride * (d.count - 1) + d.blength) * d.size).toNat =
      (d.stride.toNat * (d.count.toNat - 1) + d.blength.toNat) * d.size.toNat := by
    rw [toNat_mul_of_lt, toNat_uint64OfInt_of_nonneg hnonneg, hadd]
    rwa [toNat_uint64OfInt_of_nonneg hnonneg, hadd]
  rw [regSize, toNat_mul_of_lt, hsize, toNat_uint64OfInt_of_nonneg (by omega)]
  rwa [hsize, toNat_uint64OfInt_of_nonneg (by omega)]

/-- The end of the last block against the extent, for `m` elements of `c` blocks of `b` items with `g`
items between them: the gaps behind the last blocks of all elements but one do not fit. -/
theorem last_block_le_iff {c m b g z : Nat} (hc : 1 ≤ c) (hm : 1 ≤ m) :
    (c * m - 1) * ((b + g) * z) + b * z ≤ ((b + g) * (c - 1) + b) * z * m ↔ m = 1 ∨ g = 0 ∨ z = 0 := by
  obtain ⟨c, rfl⟩ := Nat.exists_eq_add_of_le' hc
  obtain ⟨m, rfl⟩ := Nat.exists_eq_add_of_le' hm
  have hblocks : (c + 1) * (m + 1) - 1 = c * m + c + m := by
    rw [Nat.add_mul, Nat.mul_add, Nat.mul_one, Nat.one_mul]
    omega
  have hend : (c * m + c + m) * ((b + g) * z) + b * z =
      ((b + g) * c + b) * z * (m + 1) + m * (g * z) := by ring
  rw [hblocks, Nat.add_sub_cancel, hend, add_le_iff_nonpos_right, Nat.le_zero, Nat.mul_eq_zero, Nat.mul_eq_zero]
  constructor
  · rintro (hm | hgz)
    · exact .inl (by omega)
    · exact .inr hgz
  · rintro (hm | hgz)
    · exact .inl (by omega)
    · exact .inr hgz

theorem regSize_of_contiguous (hcount : d.count = 1) :
    regSize d n = uint64OfInt d.blength * d.size * uint64OfInt n := by
  have hextent : d.stride * ((1 : CInt) - 1) + d.blength = d.blength := by simp
  rw [regSize, hcount, hextent]

theorem extentCovers_iff_last_block (hcount : d.count ≠ 1) : ExtentCovers d n ↔
    blockLen d = 0 ∨ turns d.count * turns n = 0 ∨
      (turns d.count * turns n - 1) * strideLen d + blockLen d ≤ (regSize d n).toNat := by
  rw [ExtentCovers, packCopies, eagerCopies, if_neg hcount, if_neg hcount, forall_reads_blocks, forall_writes_blocks,
    and_self, blocks_lt_iff]

end

theorem extent_covers_iff {d : Datatype} {n : CInt} (hd : d.Layered) (hn : 1 ≤ n.toInt) (hfit : ExtentFits d n) :
    ExtentCovers d n ↔ n = 1 ∨ d.count = 1 ∨ d.blength = d.stride ∨ d.blength = 0 ∨ d.size = 0 := by
  by_cases hcount : d.count = 1
  · have hcovers : ExtentCovers d n := by
      rw [ExtentCovers, packCopies, eagerCopies, if_pos hcount, if_pos hcount, forall_writes_single,
        regSize_of_contiguous hcount]
      exact ⟨by simp, fun _ hi => hi⟩
    exact iff_of_true hcovers (.inr (.inl hcount))
  · obtain ⟨hone, hblength, hstride, hle⟩ := hd.bounds
    obtain ⟨hitems, hbytes⟩ := hfit.toNat hd hn
    obtain ⟨-, hc⟩ := toNat_pred hone
    obtain ⟨-, hm⟩ := toNat_pred hn
    have hb : d.blength.toNat ≤ d.stride.toNat := by
      have := hle.resolve_left hcount
      rwa [toInt_eq_toNat_of_nonneg hblength, toInt_eq_toNat_of_nonneg hstride, Int.ofNat_le] at this
    have hc2 : 2 ≤ d.count.toNat := by
      have : d.count.toNat ≠ 1 := fun heq => hcount (BitVec.eq_of_toNat_eq heq)
      omega
    -- both steps of the loops are exact, as they are no longer than the extent
    have hexact : ∀ x : CInt, 0 ≤ x.toInt → x.toNat ≤ d.stride.toNat →
        (uint64OfInt x * d.size).toNat = x.toNat * d.size.toNat := by
      intro x hx hxs
      have hitem : x.toNat ≤ d.stride.toNat * (d.count.toNat - 1) + d.blength.toNat :=
        hxs.trans ((Nat.le_mul_of_pos_right _ (by omega)).trans (Nat.le_add_right ..))
      rw [toNat_mul_of_lt, toNat_uint64OfInt_of_nonneg hx]
      rw [toNat_uint64OfInt_of_nonneg hx]
      exact ((Nat.mul_le_mul_right _ hitem).trans (Nat.le_mul_of_pos_right _ hm)).trans_lt hbytes
    have hblock : blockLen d = d.blength.toNat * d.size.toNat := hexact _ hblength hb
    have hstep : strideLen d = d.stride.toNat * d.size.toNat := hexact _ hstride (Nat.le_refl _)
    obtain ⟨g, hg⟩ := Nat.exists_eq_add_of_le hb
    rw [extentCovers_iff_last_block hcount, hfit.regSize_eq hd hn, hblock, hstep, turns_of_nonneg (by omega),
      turns_of_nonneg (by omega), hg, last_block_le_iff (by omega) hm]
    have hnat : ∀ x y : CInt, x = y ↔ x.toNat = y.toNat := fun x y => BitVec.toNat_inj.symm
    have hsize : d.size = 0 ↔ d.size.toNat = 0 := BitVec.toNat_inj.symm
    rw [hnat n, hnat d.blength d.stride, hnat d.blength 0, hsize, hg, Nat.mul_eq_zero, Nat.mul_eq_zero]
    have hone : (1 : CInt).toNat = 1 := rfl
    have hzero : (0 : CInt).toNat = 0 := rfl
    rw [hone, hzero]
    constructor
    · rintro ((hb | hz) | (hc | hm) | hm | hg | hz)
      · exact .inr (.inr (.inr (.inl hb)))
      · exact .inr (.inr (.inr (.inr hz)))
      · omega
      · omega
      · exact .inl hm
      · exact .inr (.inr (.inl (by omega)))
      · exact .inr (.inr (.inr (.inr hz)))
    · rintro (hm | hc | hg | hb | hz)
      · exact .inr (.inr (.inl hm))
      · exact absurd hc hcount
      · exact .inr (.inr (.inr (.inl (by omega))))
      · exact .inl (.inl hb)
      · exact .inl (.inr hz)

theorem extent_covers_one_element : spacedBytes.Layered ∧ 1 ≤ (1 : CInt).toInt ∧ ExtentFits spacedBytes 1 ∧
    ExtentCovers spacedBytes 1 := by
  have hd : spacedBytes.Layered := .inl ⟨by decide, by decide, by decide⟩
  have hn : 1 ≤ (1 : CInt).toInt := by decide
  have hfit : ExtentFits spacedBytes 1 := ⟨by decide, by decide⟩
  exact ⟨hd, hn, hfit, (extent_covers_iff hd hn hfit).2 (.inl rfl)⟩

/-- Two elements of two bytes with one byte between them: `reg_size` is 6, and byte 6 is packed. -/
theorem extent_misses_last_byte : spacedBytes.Layered ∧ 1 ≤ (2 : CInt).toInt ∧ ExtentFits spacedBytes 2 ∧
    (regSize spacedBytes 2).toNat = 6 ∧ ¬ ExtentCovers spacedBytes 2 := by
  refine ⟨.inl ⟨by decide, by decide, by decide⟩, by decide, ⟨by decide, by decide⟩, by decide, ?_⟩
  rw [extentCovers_iff_last_block (by decide)]
  decide

end Libibtl
