import Libibtl.Extents
import Libibtl.MessageSizes

/-! # Datatypes in exact arithmetic

The record of a datatype and the expressions over it, with integers in the place of
`int` and `size_t`. They agree with the C expressions as long as nothing overflows.
A vector without gaps is stored as one block with stride 0.
-/

namespace Libibtl

open Foundation

structure ExactDatatype where
  dtype : Dtype
  size : Nat
  count : Int
  blength : Int
  stride : Int
  deriving DecidableEq, Repr

namespace ExactDatatype

/-- `fdmi_type_vector`. -/
def typeVector (count blocklength stride : Int) (oldtype : ExactDatatype) : ExactDatatype :=
  if blocklength = stride then
    { dtype := .usrdef, size := oldtype.size, count := 1, blength := count * blocklength, stride := 0 }
  else
    { dtype := .usrdef, size := oldtype.size, count := count, blength := blocklength, stride := stride }

/-- The record that `fdmi_type_vector` would store without the first branch. -/
def unnormalised (count blocklength stride : Int) (oldtype : ExactDatatype) : ExactDatatype :=
  { dtype := .usrdef, size := oldtype.size, count := count, blength := blocklength, stride := stride }

def datatypeSize (d : ExactDatatype) : Int := d.blength * d.count * d.size

def totalSendSize (d : ExactDatatype) (n : Int) : Int := d.blength * d.count * n * d.size

def regSize (d : ExactDatatype) (n : Int) : Int := (d.stride * (d.count - 1) + d.blength) * d.size * n

def blockLen (d : ExactDatatype) : Nat := (d.blength * d.size).toNat

def strideLen (d : ExactDatatype) : Nat := (d.stride * d.size).toNat

/-- The turns of the nested loop. -/
def turns (d : ExactDatatype) (n : Int) : Nat := d.count.toNat * n.toNat

def packCopies (d : ExactDatatype) (n : Int) : List Copy :=
  if d.count = 1 then [] else blockCopies d.blockLen d.blockLen d.strideLen (d.turns n) 0 0

/-- The copies of the nested loop of `fdmi_cpy_eager_buff`. -/
def loopCopies (d : ExactDatatype) (n : Int) : List Copy :=
  blockCopies d.blockLen d.strideLen d.blockLen (d.turns n) 0 0

/-- The copies of both branches of `fdmi_cpy_eager_buff`. -/
def eagerCopies (d : ExactDatatype) (n : Int) : List Copy :=
  if d.count = 1 then [⟨0, 0, (d.blength * d.size * n).toNat⟩] else d.loopCopies n

end ExactDatatype

/-! ## The C expressions -/

def Datatype.exact (d : Datatype) : ExactDatatype := ⟨d.dtype, d.size.toNat, d.count.toInt, d.blength.toInt, d.stride.toInt⟩

section Exact

variable {d : Datatype} {n : CInt}

theorem exact_typeVector {count blocklength stride : CInt} (oldtype : Datatype)
    (hfit : blocklength = stride → -2 ^ 31 ≤ count.toInt * blocklength.toInt ∧ count.toInt * blocklength.toInt < 2 ^ 31) :
    (typeVector count blocklength stride oldtype).exact =
      oldtype.exact.typeVector count.toInt blocklength.toInt stride.toInt := by
  rw [typeVector, ExactDatatype.typeVector]
  by_cases hsame : blocklength = stride
  · obtain ⟨hlow, hhigh⟩ := hfit hsame
    have hprod : (count * blocklength).toInt = count.toInt * blocklength.toInt := by
      rw [BitVec.toInt_mul, Int.bmod_eq_of_le]
      · omega
      · omega
    rw [if_pos hsame, if_pos (congrArg BitVec.toInt hsame), Datatype.exact, ← hprod]
    rfl
  · rw [if_neg hsame, if_neg fun heq => hsame (BitVec.eq_of_toInt_eq heq)]
    rfl

theorem exact_count : d.exact.count = 1 ↔ d.count = 1 := by
  constructor
  · exact fun h => BitVec.eq_of_toInt_eq h
  · exact fun h => congrArg BitVec.toInt h

theorem exact_totalSendSize (h : d.Countable n) :
    (totalSendSize d n).toNat = (d.exact.totalSendSize n.toInt).toNat % 2 ^ 32 := by
  rw [toNat_totalSendSize h, h.exactSize_eq, ExactDatatype.totalSendSize, Datatype.exact]
  simp only [toInt_eq_toNat_of_nonneg h.blength, toInt_eq_toNat_of_nonneg h.count, toInt_eq_toNat_of_nonneg h.elements,
    ← Int.natCast_mul, Int.toNat_natCast]

theorem exact_regSize (h : ExtentFits d n) (hd : d.Layered) (hn : 1 ≤ n.toInt) :
    (regSize d n).toNat = (d.exact.regSize n.toInt).toNat := by
  obtain ⟨hcount, hblength, hstride, -⟩ := hd.bounds
  have hc := toInt_eq_toNat_of_nonneg (x := d.count) (by omega)
  have hpred : d.count.toInt - 1 = ((d.count.toNat - 1 : Nat) : Int) := by omega
  rw [h.regSize_eq hd hn, ExactDatatype.regSize, Datatype.exact]
  simp only [hpred, toInt_eq_toNat_of_nonneg hblength, toInt_eq_toNat_of_nonneg hstride,
    toInt_eq_toNat_of_nonneg (x := n) (by omega), ← Int.natCast_mul, ← Int.natCast_add, Int.toNat_natCast]

theorem exact_mul_size {x : CInt} (hx : 0 ≤ x.toInt) (hsize : d.size.toNat ≤ 8) :
    (uint64OfInt x * d.size).toNat = (x.toInt * d.exact.size).toNat := by
  have hlt : x.toNat * d.size.toNat ≤ 2 ^ 31 * 8 := Nat.mul_le_mul (toNat_lt_of_nonneg hx).le hsize
  have hnat := toNat_uint64OfInt_of_nonneg hx
  rw [toNat_mul_of_lt (by rw [hnat]; omega), hnat, toInt_eq_toNat_of_nonneg hx, Datatype.exact, ← Int.natCast_mul,
    Int.toNat_natCast]

theorem exact_datatypeSize (hsize : d.size.toNat ≤ 8) (hblength : 0 ≤ d.blength.toInt) (hcount : 0 ≤ d.count.toInt)
    (hfit : d.blength.toInt * d.count.toInt < 2 ^ 31) : (datatypeSize d).toNat = d.exact.datatypeSize.toNat := by
  have hpos : 0 ≤ d.blength.toInt * d.count.toInt := Int.mul_nonneg hblength hcount
  have hprod : (d.blength * d.count).toInt = d.blength.toInt * d.count.toInt := by
    rw [BitVec.toInt_mul, Int.bmod_eq_of_le]
    · omega
    · omega
  rw [datatypeSize, exact_mul_size (hprod ▸ hpos) hsize, hprod]
  rfl

theorem exact_loopCopies (hsize : d.size.toNat ≤ 8) (hblength : 0 ≤ d.blength.toInt) (hstride : 0 ≤ d.stride.toInt) :
    blockCopies (blockLen d) (strideLen d) (blockLen d) (turns d.count * turns n) 0 0 = d.exact.loopCopies n.toInt := by
  rw [blockLen, strideLen, exact_mul_size hblength hsize, exact_mul_size hstride hsize]
  rfl

theorem exact_eagerCopies (hsize : d.size.toNat ≤ 8) (hblength : 0 ≤ d.blength.toInt) (hstride : 0 ≤ d.stride.toInt)
    (hn : 0 ≤ n.toInt) (hfit : d.dataSize n < 2 ^ 64) : eagerCopies d n = d.exact.eagerCopies n.toInt := by
  rw [eagerCopies, ExactDatatype.eagerCopies]
  by_cases hcount : d.count = 1
  · have hlen : d.dataSize n = (d.exact.blength * d.exact.size * n.toInt).toNat := by
      have hone : turns 1 = 1 := rfl
      rw [Datatype.dataSize, Datatype.blocks, blockLen, exact_mul_size hblength hsize, turns_of_nonneg hn, hcount, hone,
        Nat.one_mul, toInt_eq_toNat_of_nonneg hn, Datatype.exact]
      simp only [toInt_eq_toNat_of_nonneg hblength, ← Int.natCast_mul, Int.toNat_natCast]
      exact Nat.mul_comm ..
    rw [if_pos hcount, if_pos (exact_count.2 hcount), memcpyLen_eq hn hcount hfit, hlen]
  · rw [if_neg hcount, if_neg (exact_count.not.2 hcount), exact_loopCopies hsize hblength hstride]

end Exact

/-! ## Vectors without gaps -/

namespace ExactDatatype

variable {oldtype : ExactDatatype} {count blocklength stride n : Int}

theorem typeVector_contiguous (hsame : blocklength = stride) : oldtype.typeVector count blocklength stride =
    { dtype := .usrdef, size := oldtype.size, count := 1, blength := count * blocklength, stride := 0 } := if_pos hsame

theorem offsets_contiguous (hcount : 0 ≤ count) (hblock : 0 ≤ blocklength) (hn : 0 ≤ n) (hsame : blocklength = stride) :
    offsets ((oldtype.typeVector count blocklength stride).eagerCopies n) =
      offsets ((oldtype.unnormalised count blocklength stride).loopCopies n) := by
  have hlen : (count * blocklength * oldtype.size * n).toNat =
      count.toNat * n.toNat * (blocklength * oldtype.size).toNat := by
    obtain ⟨c, rfl⟩ := Int.eq_ofNat_of_zero_le hcount
    obtain ⟨b, rfl⟩ := Int.eq_ofNat_of_zero_le hblock
    obtain ⟨m, rfl⟩ := Int.eq_ofNat_of_zero_le hn
    simp only [← Int.natCast_mul, Int.toNat_natCast]
    ring
  have hloop : offsets ((oldtype.unnormalised count blocklength stride).loopCopies n) =
      offsets [⟨0, 0, count.toNat * n.toNat * (blocklength * oldtype.size).toNat⟩] := by
    rw [loopCopies, strideLen, unnormalised, ← hsame]
    exact offsets_consecutive ..
  rw [typeVector_contiguous hsame, eagerCopies, if_pos rfl, hloop, hlen]

theorem totalSendSize_contiguous (hsame : blocklength = stride) :
    (oldtype.typeVector count blocklength stride).totalSendSize n =
      (oldtype.unnormalised count blocklength stride).totalSendSize n := by
  rw [typeVector_contiguous hsame, totalSendSize, totalSendSize, unnormalised]
  ring

theorem regSize_contiguous (hsame : blocklength = stride) : (oldtype.typeVector count blocklength stride).regSize n =
    (oldtype.unnormalised count blocklength stride).regSize n := by
  rw [typeVector_contiguous hsame, regSize, regSize, unnormalised, ← hsame]
  ring

/-- A vector without gaps selects the bytes that its blocks would select, and it has their sizes. -/
theorem normalisation_preserves (oldtype : ExactDatatype) (hcount : 0 ≤ count) (hblock : 0 ≤ blocklength) (hn : 0 ≤ n)
    (hsame : blocklength = stride) :
    offsets ((oldtype.typeVector count blocklength stride).eagerCopies n) =
        offsets ((oldtype.unnormalised count blocklength stride).loopCopies n) ∧
      (oldtype.typeVector count blocklength stride).totalSendSize n =
        (oldtype.unnormalised count blocklength stride).totalSendSize n ∧
      (oldtype.typeVector count blocklength stride).regSize n =
        (oldtype.unnormalised count blocklength stride).regSize n :=
  ⟨offsets_contiguous hcount hblock hn hsame, totalSendSize_contiguous hsame, regSize_contiguous hsame⟩

/-- Two elements of three blocks of two integers. -/
theorem normalisation_preserves_ints :
    offsets ((fmiInt.exact.typeVector 3 2 2).eagerCopies 2) = offsets ((fmiInt.exact.unnormalised 3 2 2).loopCopies 2) ∧
      (fmiInt.exact.typeVector 3 2 2).totalSendSize 2 = (fmiInt.exact.unnormalised 3 2 2).totalSendSize 2 ∧
      (fmiInt.exact.typeVector 3 2 2).regSize 2 = (fmiInt.exact.unnormalised 3 2 2).regSize 2 :=
  normalisation_preserves fmiInt.exact (by decide) (by decide) (by decide) rfl

end ExactDatatype

/-- The `memcpy` for a vector without gaps leaves what the nested loop would leave for its blocks. -/
theorem unpackEager_normalised {oldtype : Datatype} {count blocklength n : CInt} (hsize : oldtype.size.toNat ≤ 8)
    (hcount : 0 ≤ count.toInt) (hblock : 0 ≤ blocklength.toInt) (hn : 0 ≤ n.toInt)
    (hfit : count.toInt * blocklength.toInt < 2 ^ 31)
    (hdata : (typeVector count blocklength blocklength oldtype).dataSize n < 2 ^ 64)
    (recv : Buffer) (recvOff : Nat) (eager : Buffer) :
    unpackEager (typeVector count blocklength blocklength oldtype) n recv recvOff eager =
      (unpackLoop ⟨.usrdef, oldtype.size, count, blocklength, blocklength⟩ n recv recvOff eager).dst := by
  have hpos : 0 ≤ count.toInt * blocklength.toInt := Int.mul_nonneg hcount hblock
  have hexact : (typeVector count blocklength blocklength oldtype).exact = _ :=
    exact_typeVector oldtype fun _ => ⟨by omega, hfit⟩
  have hnew : typeVector count blocklength blocklength oldtype = ⟨.usrdef, oldtype.size, 1, count * blocklength, 0⟩ :=
    if_pos rfl
  have hblength : 0 ≤ (typeVector count blocklength blocklength oldtype).blength.toInt := by
    have hfield := congrArg ExactDatatype.blength hexact
    rw [ExactDatatype.typeVector_contiguous rfl] at hfield
    exact hpos.trans_eq hfield.symm
  have hstride : 0 ≤ (typeVector count blocklength blocklength oldtype).stride.toInt := by
    rw [hnew]
    exact (by decide : 0 ≤ (0 : CInt).toInt)
  have hloop := exact_loopCopies (d := ⟨.usrdef, oldtype.size, count, blocklength, blocklength⟩) (n := n) hsize hblock hblock
  rw [unpackEager_eq_perform, unpackLoop, copyLoop_dst, hloop]
  apply perform_eq_of_offsets
  rw [exact_eagerCopies (by rw [hnew]; exact hsize) hblength hstride hn hdata, hexact]
  exact ExactDatatype.offsets_contiguous hcount hblock hn rfl

end Libibtl
