import Mathlib.Data.List.Basic
import Mathlib.Logic.Function.Basic

/-! # Requests and answers over paired channels

Every end of a channel sends messages in order to the end that it is paired with.
Some requests demand an answer: the end that has received such a request owes it,
and pays it with a message of the other kind. No request is lost or received twice,
and every demanded answer is at one place of its way.
-/

namespace Libibtl.Foundation

universe u v

/-- The ends of channels, two by two. -/
structure Pairing (E : Type u) where
  far : E → Option E
  far_far : ∀ {x y}, far x = some y → far y = some x

/-- The two kinds of messages, and the requests that demand an answer. -/
structure Kinds (M : Type v) where
  request : M → Bool
  demands : M → Bool
  request_of_demands : ∀ m, demands m = true → request m = true

/-- For every end: the requests sent and received there, the messages on their way to the other end, the
answers owed to the other end and the answers received. -/
@[ext] structure Exchange (E : Type u) (M : Type v) where
  sent : E → List M
  way : E → List M
  arrived : E → List M
  owed : E → Nat
  answers : E → Nat

namespace Exchange

variable {E : Type u} {M : Type v}

def empty : Exchange E M := ⟨fun _ => [], fun _ => [], fun _ => [], fun _ => 0, fun _ => 0⟩

variable [DecidableEq E] (P : Pairing E) (K : Kinds M)

inductive Move : Exchange E M → Exchange E M → Prop
  | idle (b : Exchange E M) : Move b b
  | send (b : Exchange E M) (x : E) (m : M) (hm : K.request m = true) : Move b { b with
      sent := Function.update b.sent x (b.sent x ++ [m])
      way := Function.update b.way x (b.way x ++ [m]) }
  | receive (b : Exchange E M) {x y : E} {m : M} {rest : List M} (hxy : P.far x = some y)
    (hway : b.way y = m :: rest) (hm : K.request m = true) : Move b { b with
      way := Function.update b.way y rest
      arrived := Function.update b.arrived x (b.arrived x ++ [m])
      owed := Function.update b.owed x (b.owed x + if K.demands m then 1 else 0) }
  | pay (b : Exchange E M) (x : E) (m : M) (howed : 0 < b.owed x) (hm : K.request m = false) : Move b { b with
      way := Function.update b.way x (b.way x ++ [m])
      owed := Function.update b.owed x (b.owed x - 1) }
  | collect (b : Exchange E M) {x y : E} {m : M} {rest : List M} (hxy : P.far x = some y)
    (hway : b.way y = m :: rest) (hm : K.request m = false) : Move b { b with
      way := Function.update b.way y rest
      answers := Function.update b.answers x (b.answers x + 1) }

/-- Requests arrive in the order in which they were sent, and every demanded answer is accounted for. -/
structure Balanced (b : Exchange E M) : Prop where
  fifo : ∀ x y, P.far x = some y → b.sent x = b.arrived y ++ (b.way x).filter K.request
  answered : ∀ x y, P.far x = some y → (b.sent x).countP K.demands =
    (b.way x).countP K.demands + b.owed y + (b.way y).countP (fun m => !K.request m) + b.answers x
  unpaired : ∀ x, P.far x = none → b.answers x = 0

variable {P K}

omit [DecidableEq E] in
theorem Balanced.empty : (Exchange.empty : Exchange E M).Balanced P K := ⟨fun _ _ _ => rfl, fun _ _ _ => rfl, fun _ _ => rfl⟩

omit [DecidableEq E] in
theorem far_eq_iff {x x' y y' : E} (h : P.far x = some y) (h' : P.far x' = some y') :
    x = x' ↔ y = y' := by
  constructor
  · rintro rfl
    exact Option.some.inj (h.symm.trans h')
  · rintro rfl
    exact Option.some.inj ((P.far_far h).symm.trans (P.far_far h'))

/-! ## What is on the way -/

section Counting

variable {b : Exchange E M} {x y z : E} {m : M} {rest : List M}

theorem demands_of_answer (hm : K.request m = false) : K.demands m = false := by
  cases hd : K.demands m with
  | false => rfl
  | true => exact absurd (K.request_of_demands m hd) (by simp [hm])

theorem countP_update_concat (p : M → Bool) :
    (Function.update b.way x (b.way x ++ [m]) z).countP p = (b.way z).countP p + if z = x ∧ p m then 1 else 0 := by
  by_cases hz : z = x
  · subst hz
    simp
  · simp [hz]

theorem countP_update_tail (hway : b.way y = m :: rest) (p : M → Bool) :
    (Function.update b.way y rest z).countP p + (if z = y ∧ p m then 1 else 0) = (b.way z).countP p := by
  by_cases hz : z = y
  · subst hz
    simp [hway, List.countP_cons]
  · simp [hz]

end Counting

/-! ## The invariant -/

namespace Balanced

variable {b b' : Exchange E M}

theorem fifo_move (h : b.Balanced P K) (hmove : Move P K b b') {x' y' : E} (hxy' : P.far x' = some y') :
    b'.sent x' = b'.arrived y' ++ (b'.way x').filter K.request := by
  have hfifo := h.fifo x' y' hxy'
  cases hmove with
  | idle => exact hfifo
  | send x m hm =>
    by_cases hx : x' = x
    · subst hx
      simp [hfifo, hm]
    · simpa [hx] using hfifo
  | @receive x y m rest hxy hway hm =>
    have hiff := far_eq_iff (P.far_far hxy) hxy'
    by_cases hx : y = x'
    · obtain rfl := hiff.1 hx
      subst hx
      rw [hway, List.filter_cons_of_pos hm] at hfifo
      simp [hfifo]
    · have hy : x ≠ y' := fun hy => hx (hiff.2 hy)
      simpa [Ne.symm hx, Ne.symm hy] using hfifo
  | pay x m howed hm =>
    by_cases hx : x' = x
    · subst hx
      simp [hfifo, hm]
    · simpa [hx] using hfifo
  | @collect x y m rest hxy hway hm =>
    by_cases hx : x' = y
    · subst hx
      rw [hway, List.filter_cons_of_neg (by simp [hm])] at hfifo
      simp [hfifo]
    · simpa [hx] using hfifo

theorem answered_move (h : b.Balanced P K) (hmove : Move P K b b') {x' y' : E} (hxy' : P.far x' = some y') :
    (b'.sent x').countP K.demands = (b'.way x').countP K.demands + b'.owed y' +
      (b'.way y').countP (fun m => !K.request m) + b'.answers x' := by
  have hanswered := h.answered x' y' hxy'
  cases hmove with
  | idle => exact hanswered
  | send x m hm =>
    have hsent : (Function.update b.sent x (b.sent x ++ [m]) x').countP K.demands =
        (b.sent x').countP K.demands + if x' = x ∧ K.demands m then 1 else 0 := by
      by_cases hx : x' = x
      · subst hx
        simp
      · simp [hx]
    simp only [hsent, countP_update_concat, hm, Bool.not_true, Bool.false_eq_true, and_false, if_false]
    omega
  | @receive x y m rest hxy hway hm =>
    have hiff := far_eq_iff (P.far_far hxy) hxy'
    have hdemands := countP_update_tail (z := x') hway K.demands
    have hrequests := countP_update_tail (z := y') hway fun m => !K.request m
    simp only [hm, Bool.not_true, Bool.false_eq_true, and_false, if_false, Nat.add_zero] at hrequests
    by_cases hx : y = x'
    · obtain rfl := hiff.1 hx
      subst hx
      simp only [true_and] at hdemands
      dsimp only
      rw [hrequests, Function.update_self (f := b.owed)]
      omega
    · have hy : x ≠ y' := fun hy => hx (hiff.2 hy)
      simp only [Ne.symm hx, false_and, if_false] at hdemands
      simp only [hrequests, Function.update_of_ne (Ne.symm hy)]
      omega
  | pay x m howed hm =>
    simp only [countP_update_concat, demands_of_answer hm, hm, Bool.not_false, and_true, Bool.false_eq_true,
      and_false, if_false, Nat.add_zero]
    by_cases hy : y' = x
    · subst hy
      simp only [Function.update_self, if_true]
      omega
    · simp only [Function.update_of_ne hy, hy, if_false]
      omega
  | @collect x y m rest hxy hway hm =>
    have hiff := far_eq_iff hxy hxy'
    have hdemands := countP_update_tail (z := x') hway K.demands
    have hanswers := countP_update_tail (z := y') hway fun m => !K.request m
    simp only [demands_of_answer hm, Bool.false_eq_true, and_false, if_false, Nat.add_zero] at hdemands
    simp only [hm, Bool.not_false, and_true] at hanswers
    by_cases hx : x = x'
    · obtain rfl := hiff.1 hx
      subst hx
      simp only [if_true, Function.update_self] at hanswers
      simp only [hdemands, Function.update_self]
      omega
    · have hy : y ≠ y' := fun hy => hx (hiff.2 hy)
      simp only [Ne.symm hy, if_false, Nat.add_zero] at hanswers
      simp only [hdemands, hanswers, Function.update_of_ne (Ne.symm hx)]
      exact hanswered

theorem unpaired_move (h : b.Balanced P K) (hmove : Move P K b b') {x' : E} (hx' : P.far x' = none) :
    b'.answers x' = 0 := by
  have hanswers := h.unpaired x' hx'
  cases hmove with
  | @collect x y m rest hxy hway hm =>
    refine (Function.update_of_ne ?_ ..).trans hanswers
    rintro rfl
    rw [hxy] at hx'
    cases hx'
  | _ => exact hanswers

theorem move (h : b.Balanced P K) (hmove : Move P K b b') : b'.Balanced P K :=
  ⟨fun _ _ hxy => h.fifo_move hmove hxy, fun _ _ hxy => h.answered_move hmove hxy, fun _ hx => h.unpaired_move hmove hx⟩

omit [DecidableEq E] in
theorem answers_le (h : b.Balanced P K) (x : E) : b.answers x ≤ (b.sent x).countP K.demands := by
  cases hx : P.far x with
  | none =>
    rw [h.unpaired x hx]
    exact Nat.zero_le _
  | some y =>
    rw [h.answered x y hx]
    exact Nat.le_add_left _ _

end Balanced

end Exchange

end Libibtl.Foundation
