import Libibtl.ExactDatatype

/-! # Vectors of vectors

A vector takes over the item size of its old type, and the blocks of the old type are
forgotten. What `fdmi_datatype_size` and the sender count is the outermost vector over
the innermost basic type.
-/

namespace Libibtl

open Foundation

/-- The types that can be built: a basic type, or a vector of types that can be built. -/
inductive NestedType
  | predefined (d : Datatype) (hd : d.Predefined)
  | vector (count blocklength stride : Int) (hcount : 0 ≤ count) (hblock : 0 ≤ blocklength) (hstride : blocklength ≤ stride)
      (oldtype : NestedType)

namespace NestedType

/-- The record after all calls of `fdmi_type_vector`. -/
def record : NestedType → ExactDatatype
  | .predefined d _ => d.exact
  | .vector count blocklength stride _ _ _ oldtype => oldtype.record.typeVector count blocklength stride

/-- The items of the outermost vector. -/
def items : NestedType → Int
  | .predefined _ _ => 1
  | .vector count blocklength _ _ _ _ _ => count * blocklength

/-- The size of the innermost basic type. -/
def itemSize : NestedType → Int
  | .predefined d _ => d.size.toNat
  | .vector _ _ _ _ _ _ oldtype => oldtype.itemSize

/-- The bytes that a value of the type has: all blocks of all vectors. -/
def bytes : NestedType → Int
  | .predefined d _ => d.size.toNat
  | .vector count blocklength _ _ _ _ oldtype => count * blocklength * oldtype.bytes

/-- Every vector of the type has one item. -/
def Flat : NestedType → Prop
  | .predefined _ _ => True
  | .vector count blocklength _ _ _ _ oldtype => count * blocklength = 1 ∧ oldtype.Flat

end NestedType

namespace ExactDatatype

/-- The eager code of `fdmi_post_send_msg` sends this many bytes for `n` elements, and packs them all if it packs. -/
structure Sends (d : ExactDatatype) (n bytes : Int) : Prop where
  total : d.totalSendSize n = bytes
  packed : d.count ≠ 1 → (((d.packCopies n).map Copy.len).sum : Int) = bytes

variable {d : ExactDatatype} {n bytes : Int}

theorem sends_iff (hcount : 0 ≤ d.count) (hblength : 0 ≤ d.blength) (hn : 0 ≤ n) :
    d.Sends n bytes ↔ n * d.datatypeSize = bytes := by
  have htotal : d.totalSendSize n = n * d.datatypeSize := by
    rw [totalSendSize, datatypeSize]
    ring
  have hpacked : d.count ≠ 1 → (((d.packCopies n).map Copy.len).sum : Int) = n * d.datatypeSize := by
    intro hne
    have hlen : 0 ≤ d.blength * d.size := Int.mul_nonneg hblength (Int.natCast_nonneg _)
    rw [packCopies, if_neg hne, sum_len_blockCopies, turns, blockLen, Int.natCast_mul, Int.natCast_mul,
      Int.toNat_of_nonneg hcount, Int.toNat_of_nonneg hn, Int.toNat_of_nonneg hlen, datatypeSize]
    ring
  constructor
  · exact fun h => htotal.symm.trans h.total
  · exact fun h => ⟨htotal.trans h, fun hne => (hpacked hne).trans h⟩

end ExactDatatype

namespace NestedType

/-- The law for one vector: its size is that of its items, and so many bytes are sent. -/
structure KeepsSize (count blocklength stride : Int) (oldtype : ExactDatatype) : Prop where
  size : (oldtype.typeVector count blocklength stride).datatypeSize = count * blocklength * oldtype.datatypeSize
  sent : ∀ n, 0 ≤ n → (oldtype.typeVector count blocklength stride).Sends n (n * (count * blocklength * oldtype.datatypeSize))

theorem datatypeSize_typeVector (count blocklength stride : Int) (d : ExactDatatype) :
    (d.typeVector count blocklength stride).datatypeSize = count * blocklength * d.size := by
  rw [ExactDatatype.typeVector]
  split
  · rw [ExactDatatype.datatypeSize, Int.mul_one]
  · rw [ExactDatatype.datatypeSize, Int.mul_comm blocklength]

theorem nonneg_typeVector {count blocklength : Int} (hcount : 0 ≤ count) (hblock : 0 ≤ blocklength) (stride : Int)
    (d : ExactDatatype) : 0 ≤ (d.typeVector count blocklength stride).count ∧
      0 ≤ (d.typeVector count blocklength stride).blength := by
  rw [ExactDatatype.typeVector]
  split
  · exact ⟨zero_le_one, Int.mul_nonneg hcount hblock⟩
  · exact ⟨hcount, hblock⟩

theorem size_record (t : NestedType) : t.record.size = t.itemSize := by
  induction t with
  | predefined d hd => rfl
  | vector count blocklength stride hcount hblock hstride oldtype ih =>
    rw [record, ExactDatatype.typeVector, itemSize, ← ih]
    split
    · rfl
    · rfl

theorem itemSize_pos (t : NestedType) : 0 < t.itemSize := by
  induction t with
  | predefined d hd =>
    rcases hd with rfl | rfl | rfl | rfl | rfl
    all_goals decide
  | vector count blocklength stride hcount hblock hstride oldtype ih => exact ih

/-- A record knows the outermost vector and the basic type. -/
theorem datatypeSize_record (t : NestedType) : t.record.datatypeSize = t.items * t.itemSize := by
  cases t with
  | predefined d hd =>
    rcases hd with rfl | rfl | rfl | rfl | rfl
    all_goals decide
  | vector count blocklength stride hcount hblock hstride oldtype =>
    rw [record, datatypeSize_typeVector, size_record]
    rfl

/-- The sizes are kept exactly by a vector without items and by a vector of types with one item. -/
theorem vector_keeps_size_iff {count blocklength stride : Int} (hcount : 0 ≤ count) (hblock : 0 ≤ blocklength)
    (oldtype : NestedType) :
    KeepsSize count blocklength stride oldtype.record ↔ count * blocklength = 0 ∨ oldtype.items = 1 := by
  have hlaw : (oldtype.record.typeVector count blocklength stride).datatypeSize =
      count * blocklength * oldtype.record.datatypeSize ↔ count * blocklength = 0 ∨ oldtype.items = 1 := by
    rw [datatypeSize_typeVector, size_record, datatypeSize_record]
    constructor
    · intro h
      rcases mul_eq_mul_left_iff.1 h with hitem | hzero
      · exact .inr (mul_right_cancel₀ (itemSize_pos oldtype).ne' (hitem.symm.trans (one_mul _).symm))
      · exact .inl hzero
    · rintro (hzero | hone)
      · rw [hzero, zero_mul, zero_mul]
      · rw [hone, one_mul]
  constructor
  · exact fun h => hlaw.1 h.size
  · intro h
    refine ⟨hlaw.2 h, fun n hn => ?_⟩
    obtain ⟨hc, hb⟩ := nonneg_typeVector hcount hblock stride oldtype.record
    rw [ExactDatatype.sends_iff hc hb hn, hlaw.2 h]

/-- Blocks of blocks of integers, with one integer in each inner block. -/
def spacedInts : NestedType := .vector 2 1 2 (by decide) (by decide) (by decide) (.predefined fmiInt (.inr (.inr (.inl rfl))))

def oneInt : NestedType := .vector 1 1 2 (by decide) (by decide) (by decide) (.predefined fmiInt (.inr (.inr (.inl rfl))))

theorem vector_keeps_size_one : KeepsSize 3 2 5 oneInt.record :=
  (vector_keeps_size_iff (by decide) (by decide) oneInt).2 (.inr rfl)

/-- A vector of two pairs of integers has the size of one pair. -/
theorem vector_drops_items : spacedInts.record.datatypeSize = 8 ∧
    (spacedInts.record.typeVector 2 1 2).datatypeSize = 8 ∧ ¬ KeepsSize 2 1 2 spacedInts.record := by
  refine ⟨by decide, by decide, fun h => ?_⟩
  exact absurd h.size (by decide)

/-! ## All bytes of a type -/

theorem exists_factor (t : NestedType) : ∃ k : Int, 0 ≤ k ∧ t.bytes = k * t.itemSize ∧ (k = 1 ↔ t.Flat) := by
  induction t with
  | predefined d hd => exact ⟨1, zero_le_one, (one_mul _).symm, iff_of_true rfl trivial⟩
  | vector count blocklength stride hcount hblock hstride oldtype ih =>
    obtain ⟨k, hk, hbytes, hflat⟩ := ih
    have hitems : 0 ≤ count * blocklength := Int.mul_nonneg hcount hblock
    refine ⟨count * blocklength * k, Int.mul_nonneg hitems hk, ?_, ?_⟩
    · rw [bytes, hbytes, itemSize]
      exact (mul_assoc ..).symm
    · rw [Flat, ← hflat]
      constructor
      · intro hone
        have hfirst := Int.eq_one_of_mul_eq_one_right hitems hone
        rw [hfirst, one_mul] at hone
        exact ⟨hfirst, hone⟩
      · rintro ⟨hfirst, hone⟩
        rw [hfirst, hone, one_mul]

theorem bytes_eq_iff (t : NestedType) : t.bytes = t.itemSize ↔ t.Flat := by
  obtain ⟨k, -, hbytes, hflat⟩ := exists_factor t
  rw [hbytes, ← hflat]
  constructor
  · exact fun h => mul_right_cancel₀ (itemSize_pos t).ne' (h.trans (one_mul _).symm)
  · exact fun h => h ▸ one_mul _

/-- No byte of a nested type is dropped exactly when it is empty or only its outermost vector has more than one item. -/
theorem size_eq_bytes_iff {count blocklength stride : Int} (hcount : 0 ≤ count) (hblock : 0 ≤ blocklength)
    (hstride : blocklength ≤ stride) (oldtype : NestedType) :
    (record (.vector count blocklength stride hcount hblock hstride oldtype)).datatypeSize =
      bytes (.vector count blocklength stride hcount hblock hstride oldtype) ↔ count * blocklength = 0 ∨ oldtype.Flat := by
  rw [datatypeSize_record, ← bytes_eq_iff oldtype]
  exact mul_eq_mul_left_iff.trans (or_comm.trans (or_congr_right eq_comm))

end NestedType

end Libibtl
