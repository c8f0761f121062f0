import Mathlib.Data.BitVec
import Mathlib.Logic.Function.Iterate

/-! # Operators that are linear in exclusive or

An operator on bit vectors that commutes with exclusive or is given by its columns,
its values at the powers of two, and it is applied one bit of the argument at a time.
-/

namespace Libibtl.Foundation

variable {w : Nat}

/-- The operator commutes with exclusive or. -/
def XorLinear (f : BitVec w → BitVec w) : Prop := ∀ x y, f (x ^^^ y) = f x ^^^ f y

theorem shiftLeft_ushiftRight_one (v : BitVec w) :
    (if v.getLsbD 0 then 1#w else 0#w) ^^^ ((v >>> 1) <<< 1) = v := by
  apply BitVec.eq_of_getLsbD_eq
  intro i hi
  rw [BitVec.getLsbD_xor, BitVec.getLsbD_shiftLeft, BitVec.getLsbD_ushiftRight]
  cases i with
  | zero => cases h : v.getLsbD 0 <;> simp [hi]
  | succ i =>
    have hadd : 1 + (i + 1 - 1) = i + 1 := by omega
    rw [hadd]
    cases h : v.getLsbD 0 <;> simp [hi]

namespace XorLinear

variable {f g : BitVec w → BitVec w}

theorem zero (hf : XorLinear f) : f 0#w = 0#w := by
  have h := hf 0 0
  rw [BitVec.xor_self, BitVec.xor_self] at h
  exact h

theorem comp (hf : XorLinear f) (hg : XorLinear g) : XorLinear (f ∘ g) := by
  intro x y
  rw [Function.comp_apply, hg, hf]
  rfl

theorem iterate (hf : XorLinear f) (n : Nat) : XorLinear f^[n] := by
  induction n with
  | zero => exact fun _ _ => rfl
  | succ n ih =>
    rw [Function.iterate_succ]
    exact ih.comp hf

theorem shiftLeft (n : Nat) : XorLinear fun x : BitVec w => x <<< n := by
  intro x y
  exact BitVec.shiftLeft_xor_distrib x y n

/-- The lowest bit and the other bits contribute separately. -/
theorem apply_eq (hf : XorLinear f) (v : BitVec w) :
    f v = (if v.getLsbD 0 then f (1#w) else 0#w) ^^^ f ((v >>> 1) <<< 1) := by
  have h := hf (if v.getLsbD 0 then 1#w else 0#w) ((v >>> 1) <<< 1)
  rw [shiftLeft_ushiftRight_one] at h
  rw [h]
  split
  · rfl
  · rw [hf.zero]

end XorLinear

end Libibtl.Foundation
