import Libibtl.Foundation.CInt
import Libibtl.Foundation.Strided

/-! # Datatypes and the byte movements they describe

An element of a datatype is `count` blocks of `blength` items of `size` bytes,
`stride` items apart. The element and block counts are `int`, the sizes
`size_t`; every product below is taken in the C types of the source expression.
-/

namespace Libibtl

open Foundation

inductive Dtype
  | int | double | float | byte | char | usrdef
  deriving DecidableEq, Repr

structure Datatype where
  dtype : Dtype
  size : UInt64T
  count : CInt
  blength : CInt
  stride : CInt
  deriving DecidableEq, Repr

def fmiByte : Datatype := ⟨.byte, 1, 1, 1, 0⟩
def fmiChar : Datatype := ⟨.char, 1, 1, 1, 0⟩
def fmiInt : Datatype := ⟨.int, 4, 1, 1, 0⟩
def fmiFloat : Datatype := ⟨.float, 4, 1, 1, 0⟩
def fmiDouble : Datatype := ⟨.double, 8, 1, 1, 0⟩

def typeVector (count blocklength stride : CInt) (oldtype : Datatype) : Datatype :=
  if blocklength = stride then
    { dtype := .usrdef, size := oldtype.size, count := 1, blength := count * blocklength, stride := 0 }
  else
    { dtype := .usrdef, size := oldtype.size, count := count, blength := blocklength, stride := stride }

/-- The datatypes a user can build with non-negative arguments. The last premise excludes
signed overflow in the product that `fdmi_type_vector` stores as the block length. -/
inductive Datatype.Built : Datatype → Prop
  | byte : Built fmiByte
  | char : Built fmiChar
  | int : Built fmiInt
  | float : Built fmiFloat
  | double : Built fmiDouble
  | vector {oldtype : Datatype} {count blocklength stride : CInt} (hold : Built oldtype)
      (hcount : 0 ≤ count.toInt) (hblock : 0 ≤ blocklength.toInt)
      (hstride : blocklength.toInt ≤ stride.toInt)
      (hfit : blocklength = stride → count.toInt * blocklength.toInt < 2 ^ 31) :
      Built (typeVector count blocklength stride oldtype)

/-- What the proofs use of a built datatype: either one contiguous block or blocks with gaps. -/
structure Datatype.Regular (d : Datatype) : Prop where
  size_pos : 0 < d.size.toNat
  size_le : d.size.toNat ≤ 8
  count_nonneg : 0 ≤ d.count.toInt
  blength_nonneg : 0 ≤ d.blength.toInt
  shape : d.count = 1 ∨ d.blength.toInt < d.stride.toInt

theorem Datatype.Built.regular {d : Datatype} (h : d.Built) : d.Regular := by
  induction h with
  | byte | char | int | float | double => exact ⟨by decide, by decide, by decide, by decide, .inl rfl⟩
  | @vector oldtype count blocklength stride hold hcount hblock hstride hfit ih =>
    rw [typeVector]
    split
    · rename_i heq
      refine ⟨ih.size_pos, ih.size_le, (by decide : (0 : Int) ≤ (1 : CInt).toInt), ?_, .inl rfl⟩
      have hprod : 0 ≤ count.toInt * blocklength.toInt := Int.mul_nonneg hcount hblock
      change 0 ≤ (count * blocklength).toInt
      rw [BitVec.toInt_mul, Int.bmod_eq_of_le (by omega) (by have := hfit heq; omega)]
      exact hprod
    · rename_i hne
      refine ⟨ih.size_pos, ih.size_le, hcount, hblock, .inr ?_⟩
      rcases Int.lt_or_eq_of_le hstride with hlt | heq
      · exact hlt
      · exact absurd (BitVec.eq_of_toInt_eq heq) hne

/-! ## Sizes -/

def datatypeSize (d : Datatype) : UInt64T := uint64OfInt (d.blength * d.count) * d.size

/-- `total_send_size` of `fdmi_post_send_msg`, a `uint32_t`. -/
def totalSendSize (d : Datatype) (count : CInt) : UInt32T :=
  uint32OfUint64 (uint64OfInt (d.blength * d.count * count) * d.size)

/-- `reg_size`, the extent both sides register and the rendezvous transfers. -/
def regSize (d : Datatype) (count : CInt) : UInt64T :=
  uint64OfInt (d.stride * (d.count - 1) + d.blength) * d.size * uint64OfInt count

/-- The length of one `memcpy` of the pack and unpack loops. -/
def blockLen (d : Datatype) : Nat := (uint64OfInt d.blength * d.size).toNat

/-- The advance of the user pointer after one block. -/
def strideLen (d : Datatype) : Nat := (uint64OfInt d.stride * d.size).toNat

/-- The number of turns of `for (i = 0; i < count; i++)`. -/
def turns (count : CInt) : Nat := count.toInt.toNat

/-! ## Loops -/

abbrev Byte := BitVec 8
abbrev Buffer := Nat → Byte

/-- The pack loop of `fdmi_post_send_msg`: from the user buffer into the eager buffer. -/
def packLoop (d : Datatype) (count : CInt) (eager send : Buffer) (sendOff : Nat) : CopyState Byte :=
  copyLoop send (blockLen d) (blockLen d) (strideLen d) (turns count) (turns d.count) ⟨eager, 0, sendOff⟩

/-- The unpack loop of `fdmi_cpy_eager_buff`: from the eager buffer into the user buffer. -/
def unpackLoop (d : Datatype) (count : CInt) (recv : Buffer) (recvOff : Nat) (eager : Buffer) : CopyState Byte :=
  copyLoop eager (blockLen d) (strideLen d) (blockLen d) (turns count) (turns d.count) ⟨recv, recvOff, 0⟩

/-- The two branches of `fdmi_cpy_eager_buff`, which `fdmi_cpy_eager_buff2` repeats. -/
def unpackEager (d : Datatype) (count : CInt) (recv : Buffer) (recvOff : Nat) (eager : Buffer) : Buffer :=
  if d.count = 1 then
    memcpy recv recvOff eager 0 (uint64OfInt d.blength * d.size * uint64OfInt count).toNat
  else (unpackLoop d count recv recvOff eager).dst

end Libibtl
