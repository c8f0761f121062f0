import Libibtl.Probe

/-! # The message of a probe and the message of a receive

The loop of `fdmi_verbs_iprobe` and `fdmi_is_matched_query2` test the same fields.
The receive also accepts a message whose own rank or tag is -1, the probe does
not. So the two select the same message unless one that fits only through its own
wildcard comes first.
-/

namespace Libibtl

open Foundation

/-- Of two tests of which one implies the other, both find the same element unless the weaker one
accepts an element in front of all that the stronger one accepts. -/
theorem Foundation.find?_eq_find?_iff {α : Type*} {p q : α → Bool} (hpq : ∀ x, p x = true → q x = true) (l : List α) :
    l.find? p = l.find? q ↔
      ∀ before x after, l = before ++ x :: after → q x = true → p x = false → ∃ y ∈ before, p y = true := by
  constructor
  · rintro heq before x after rfl hx hnot
    obtain ⟨y, hy⟩ : ∃ y, (before ++ x :: after).find? q = some y :=
      Option.isSome_iff_exists.1 (List.find?_isSome.2 ⟨x, by simp, hx⟩)
    have hpy : (before ++ x :: after).find? p = some y := heq.trans hy
    by_contra hnone
    have hp : p y = true := List.find?_some hpy
    rw [List.find?_append] at hy
    cases hq : before.find? q with
    | some z =>
      -- the weaker test stops before `x`, at an element of the stronger one
      rw [hq, Option.some_or] at hy
      obtain rfl := Option.some.inj hy
      exact hnone ⟨z, List.mem_of_find?_eq_some hq, hp⟩
    | none =>
      rw [hq, Option.none_or, List.find?_cons_of_pos hx] at hy
      obtain rfl := Option.some.inj hy
      rw [hnot] at hp
      cases hp
  · intro h
    induction l with
    | nil => rfl
    | cons x l ih =>
      by_cases hp : p x = true
      · rw [List.find?_cons_of_pos hp, List.find?_cons_of_pos (hpq x hp)]
      · have hp' : p x = false := Bool.eq_false_iff.2 hp
        by_cases hq : q x = true
        · obtain ⟨y, hy, -⟩ := h [] x l rfl hq hp'
          cases hy
        · rw [List.find?_cons_of_neg hp, List.find?_cons_of_neg hq]
          refine ih fun before y after heq hy hnot => ?_
          obtain ⟨z, hz, hpz⟩ := h (x :: before) y after (by rw [heq, List.cons_append]) hy hnot
          rcases List.mem_cons.1 hz with rfl | hz
          · exact absurd hpz hp
          · exact ⟨z, hz, hpz⟩

section Tests

variable {m : Ctl} {epoch source tag commId : CInt}

/-- The message is not stale and fits the arguments in each field by itself. -/
structure Ctl.Fits (m : Ctl) (epoch source tag commId : CInt) : Prop where
  current : epoch.toInt ≤ m.epoch.toInt
  comm : m.commId = commId
  rank : source = fmiAnySource ∨ m.rank = uint64OfInt source
  tagged : tag = fmiAnyTag ∨ m.tag = uint64OfInt tag

/-- The message is not stale and fits the arguments, but only because its own rank or tag is -1. -/
structure Ctl.FitsLoosely (m : Ctl) (epoch source tag commId : CInt) : Prop where
  current : epoch.toInt ≤ m.epoch.toInt
  comm : m.commId = commId
  rank : source = fmiAnySource ∨ m.rank = uint64OfInt source ∨ m.rank = uint64OfInt fmiAnySource
  tagged : tag = fmiAnyTag ∨ m.tag = uint64OfInt tag ∨ m.tag = uint64OfInt fmiAnyTag
  wildcard : (source ≠ fmiAnySource ∧ m.rank = uint64OfInt fmiAnySource) ∨
    (tag ≠ fmiAnyTag ∧ m.tag = uint64OfInt fmiAnyTag)

theorem isProbed_eq_true : isProbed epoch source tag commId m = true ↔ m.Fits epoch source tag commId := by
  have hepoch : m.epoch.slt epoch = false ↔ epoch.toInt ≤ m.epoch.toInt := by
    rw [BitVec.slt, decide_eq_false_iff_not, not_lt]
  rw [isProbed]
  constructor
  · intro h
    grind [Ctl.Fits]
  · rintro ⟨he, hcomm, hrank, htag⟩
    rw [hepoch.2 he]
    grind

theorem isMatchedQuery2_of_isProbed (h : isProbed epoch source tag commId m = true) :
    isMatchedQuery2 epoch source tag commId m = true := by
  rw [isProbed] at h
  rw [isMatchedQuery2]
  grind

/-- What the receive accepts and the probe does not. -/
theorem fitsLoosely_iff : m.FitsLoosely epoch source tag commId ↔
    isMatchedQuery2 epoch source tag commId m = true ∧ isProbed epoch source tag commId m = false := by
  have hepoch : m.epoch.slt epoch = false ↔ epoch.toInt ≤ m.epoch.toInt := by
    rw [BitVec.slt, decide_eq_false_iff_not, not_lt]
  have hinj : ∀ x y : CInt, uint64OfInt x = uint64OfInt y ↔ x = y := fun _ _ => uint64OfInt_inj
  rw [isMatchedQuery2, isProbed]
  constructor
  · rintro ⟨he, hcomm, hrank, htag, hwild⟩
    rw [hepoch.2 he]
    grind
  · rintro ⟨hmatched, hprobed⟩
    grind [Ctl.FitsLoosely]

end Tests

namespace Proc

variable {σ : Proc} {source tag : CInt} {comm : Communicator}

/-- A probe and a receive with these arguments find a message or not alike, and then the same one. -/
def SelectsAlike (σ : Proc) (source tag : CInt) (comm : Communicator) : Prop :=
  ((σ.iprobe source tag comm).isSome ↔ (σ.getMatchedQuery2 source tag comm σ.aq).isSome) ∧
  ∀ a b, σ.iprobe source tag comm = some a → σ.getMatchedQuery2 source tag comm σ.aq = some b → a = b

theorem selectsAlike_iff_eq :
    σ.SelectsAlike source tag comm ↔ σ.iprobe source tag comm = σ.getMatchedQuery2 source tag comm σ.aq := by
  rw [SelectsAlike]
  cases σ.iprobe source tag comm with
  | none => cases σ.getMatchedQuery2 source tag comm σ.aq <;> simp
  | some a => cases σ.getMatchedQuery2 source tag comm σ.aq <;> simp

theorem selects_alike_iff (σ : Proc) (source tag : CInt) (comm : Communicator) :
    σ.SelectsAlike source tag comm ↔ ∀ before a after, σ.aq = before ++ a :: after →
      (σ.queries a).msg.FitsLoosely σ.ftEpoch source tag comm.id →
      ∃ b ∈ before, (σ.queries b).msg.Fits σ.ftEpoch source tag comm.id := by
  rw [selectsAlike_iff_eq, iprobe, getMatchedQuery2,
    find?_eq_find?_iff (fun a => isMatchedQuery2_of_isProbed (m := (σ.queries a).msg.toCtl))]
  simp only [← isProbed_eq_true, fitsLoosely_iff, and_imp]

end Proc

/-- A message with tag -1 waits: a receive with tag 5 would take it, a probe with tag 5 does not see it. -/
theorem probe_misses : ∃ (es : List Event) (σ : Proc),
    Path Proc.step (fun _ e => e.FromPeer) (Proc.init Boot.zeroed) es σ ∧
    σ.aq = [0] ∧ σ.status 0 = (1, -1) ∧ ¬ σ.SelectsAlike 1 5 fmiCommWorld := by
  obtain ⟨σ, hpath, hσ⟩ := exists_path_of_runWhile Proc.step (fun _ e => e.FromPeer) (Proc.init Boot.zeroed)
    (Event.connecting 1 16 ++ [.wcRecv 0 (probeWire .eager 1 (-1))])
    (fun σ => decide (σ.aq = [0] ∧ σ.status 0 = (1, -1) ∧ σ.iprobe 1 5 fmiCommWorld = none ∧
      σ.getMatchedQuery2 1 5 fmiCommWorld σ.aq = some 0)) (by decide +kernel)
  obtain ⟨haq, hstatus, hprobe, hmatched⟩ := of_decide_eq_true hσ
  refine ⟨_, σ, hpath, haq, hstatus, fun h => ?_⟩
  rw [Proc.selectsAlike_iff_eq, hprobe, hmatched] at h
  cases h

end Libibtl
