import Mathlib.Logic.Function.Basic
import Mathlib.Data.List.Induction

/-! # Two maps that follow replacements

Names are placed on hosts, and a list of replacements moves the name of a failed host
to an elected one. A host that failed keeps a mark, so a replacement that is applied
again changes nothing.
-/

namespace Libibtl.Foundation

universe u

variable {P : Type u} [DecidableEq P]

/-- `place` sends a name to its host, `name` sends a host back to its name; `none` is the mark of a failed host. -/
structure Placement (P : Type u) where
  place : P → P
  name : P → Option P

namespace Placement

/-- Every name on the host of the same number. -/
def initial : Placement P where
  place := id
  name := some

/-- The host `x.1` is replaced by `x.2`. -/
def replace (m : Placement P) (x : P × P) : Placement P :=
  match m.name x.1 with
  | none => m
  | some v =>
    { place := Function.update m.place v x.2
      name := Function.update (Function.update m.name x.2 (some v)) x.1 none }

def replaceAll (m : Placement P) (l : List (P × P)) : Placement P := l.foldl replace m

variable {m : Placement P} {x : P × P} {l l' : List (P × P)}

@[simp] theorem replaceAll_nil (m : Placement P) : m.replaceAll [] = m := rfl

@[simp] theorem replaceAll_cons (m : Placement P) (x : P × P) (l : List (P × P)) :
    m.replaceAll (x :: l) = (m.replace x).replaceAll l := rfl

theorem replaceAll_append (m : Placement P) (l l' : List (P × P)) :
    m.replaceAll (l ++ l') = (m.replaceAll l).replaceAll l' := List.foldl_append

theorem replace_of_none (h : m.name x.1 = none) : m.replace x = m := by
  rw [replace, h]

theorem replace_name {v : P} (h : m.name x.1 = some v) (p : P) :
    (m.replace x).name p = if p = x.1 then none else if p = x.2 then some v else m.name p := by
  rw [replace, h]
  exact (Function.update_apply ..).trans (if_congr Iff.rfl rfl (Function.update_apply ..))

theorem replace_place {v : P} (h : m.name x.1 = some v) (w : P) :
    (m.replace x).place w = if w = v then x.2 else m.place w := by
  rw [replace, h]
  exact Function.update_apply ..

theorem replace_name_self (m : Placement P) (x : P × P) : (m.replace x).name x.1 = none := by
  cases h : m.name x.1 with
  | none => rw [replace_of_none h, h]
  | some v => rw [replace_name h, if_pos rfl]

/-- A mark stays until the host is elected. -/
theorem replace_name_of_none {p : P} (h : m.name p = none) (hp : x.2 ≠ p) : (m.replace x).name p = none := by
  by_cases hx : p = x.1
  · rw [hx]
    exact replace_name_self m x
  · cases hname : m.name x.1 with
    | none => rw [replace_of_none hname, h]
    | some v => rw [replace_name hname, if_neg hx, if_neg hp.symm, h]

theorem replaceAll_name_of_none {p : P} (h : m.name p = none) (hp : ∀ x ∈ l, x.2 ≠ p) :
    (m.replaceAll l).name p = none := by
  induction l generalizing m with
  | nil => exact h
  | cons x l ih =>
    rw [replaceAll_cons]
    exact ih (replace_name_of_none h (hp x (List.mem_cons_self ..))) fun y hy => hp y (List.mem_cons_of_mem _ hy)

/-! ## Replacements that are applied again -/

/-- No host is elected in the replacement in which it fails or in a later one. -/
def Lasting (l : List (P × P)) : Prop := l.Pairwise (fun x y => y.2 ≠ x.1) ∧ ∀ x ∈ l, x.2 ≠ x.1

/-- After the replacements all failed hosts are marked. -/
theorem Lasting.replaceAll_name (h : Lasting l) (m : Placement P) (hx : x ∈ l) : (m.replaceAll l).name x.1 = none := by
  obtain ⟨s, t, rfl⟩ := List.append_of_mem hx
  rw [replaceAll_append, replaceAll_cons]
  refine replaceAll_name_of_none (replace_name_self _ _) fun y hy => ?_
  exact List.rel_of_pairwise_cons (List.pairwise_append.1 h.1).2.1 hy

theorem replaceAll_of_marked (h : ∀ x ∈ l, m.name x.1 = none) : m.replaceAll l = m := by
  induction l with
  | nil => rfl
  | cons x l ih =>
    rw [replaceAll_cons, replace_of_none (h x (List.mem_cons_self ..))]
    exact ih fun y hy => h y (List.mem_cons_of_mem _ hy)

/-- Replacements that were applied before are passed over. -/
theorem Lasting.replaceAll_again (h : Lasting l) (hl : l' <+: l) (m : Placement P) :
    (m.replaceAll l).replaceAll l' = m.replaceAll l :=
  replaceAll_of_marked fun _ hx => h.replaceAll_name m (hl.subset hx)

omit [DecidableEq P] in
theorem Lasting.mono (h : Lasting l) (hl : l' <+: l) : Lasting l' :=
  ⟨h.1.sublist hl.sublist, fun x hx => h.2 x (hl.subset hx)⟩

/-- A longer list only adds the replacements that are new. -/
theorem Lasting.replaceAll_extend (h : Lasting l) (hl : l' <+: l) (m : Placement P) :
    (m.replaceAll l').replaceAll l = m.replaceAll l := by
  have hl' := h.mono hl
  obtain ⟨t, rfl⟩ := hl
  rw [replaceAll_append, hl'.replaceAll_again List.prefix_rfl, ← replaceAll_append]

/-! ## Names that keep their way back -/

/-- Elected for a host that had not failed before. -/
def Installed (l : List (P × P)) (p : P) : Prop := ∃ s x t, l = s ++ x :: t ∧ x.2 = p ∧ ∀ y ∈ s, y.1 ≠ x.1

omit [DecidableEq P] in
theorem Installed.mem {p : P} (h : Installed l p) : ∃ x ∈ l, x.2 = p := by
  obtain ⟨s, x, t, rfl, hx, -⟩ := h
  exact ⟨x, by simp, hx⟩

/-- Every host is elected at most once, and before it fails. -/
def Fresh (l : List (P × P)) : Prop := l.Pairwise (fun x y => y.2 ≠ x.1 ∧ y.2 ≠ x.2) ∧ ∀ x ∈ l, x.2 ≠ x.1

omit [DecidableEq P] in
theorem installed_concat {p : P} : Installed (l ++ [x]) p ↔ Installed l p ∨ x.2 = p ∧ ∀ y ∈ l, y.1 ≠ x.1 := by
  constructor
  · rintro ⟨s, y, t, heq, hy, hs⟩
    rcases List.eq_nil_or_concat t with rfl | ⟨t, z, rfl⟩
    · obtain ⟨rfl, hlast⟩ := List.append_inj' heq rfl
      obtain rfl := List.singleton_inj.1 hlast
      exact .inr ⟨hy, hs⟩
    · rw [List.concat_eq_append, ← List.cons_append, ← List.append_assoc] at heq
      exact .inl ⟨s, y, t, (List.append_inj' heq rfl).1, hy, hs⟩
  · rintro (⟨s, y, t, rfl, hy, hs⟩ | ⟨hx, hl⟩)
    · exact ⟨s, y, t ++ [x], by simp, hy, hs⟩
    · exact ⟨l, x, [], rfl, hx, hl⟩

/-- What the maps say after the replacements `l`: a host that was never used has its own name, and a name is found
again from its host unless the number of the name was elected as a host. -/
structure Tracks (l : List (P × P)) (m : Placement P) : Prop where
  failed : ∀ p, m.name p = none ↔ ∃ x ∈ l, x.1 = p
  home : ∀ p, (∀ x ∈ l, x.1 ≠ p ∧ x.2 ≠ p) → m.name p = some p
  back : ∀ p v, m.name p = some v → m.place v = p ∧ ¬ Installed l v
  settled : ∀ v, ¬ Installed l v → m.name (m.place v) = some v
  lost : ∀ v, Installed l v → m.place v = v

omit [DecidableEq P] in
theorem tracks_initial : Tracks [] (initial : Placement P) where
  failed p := by simp [initial]
  home _ _ := rfl
  back p v h := by
    obtain rfl := Option.some.inj h
    exact ⟨rfl, fun hi => by simpa using hi.mem⟩
  settled _ _ := rfl
  lost _ _ := rfl

/-- A host that failed before is passed over. -/
theorem Tracks.concat_of_none (h : Tracks l m) (hx : m.name x.1 = none) : Tracks (l ++ [x]) (m.replace x) := by
  obtain ⟨y, hy, hyx⟩ := (h.failed x.1).1 hx
  have hinstalled : ∀ p, Installed (l ++ [x]) p ↔ Installed l p := fun p =>
    installed_concat.trans (or_iff_left fun hnew => hnew.2 y hy hyx)
  rw [replace_of_none hx]
  refine ⟨fun p => (h.failed p).trans ?_, fun p hp => ?_, fun p v hv => ?_, fun v hv => ?_, fun v hv => ?_⟩
  · constructor
    · rintro ⟨z, hz, hzp⟩
      exact ⟨z, List.mem_append_left _ hz, hzp⟩
    · rintro ⟨z, hz, rfl⟩
      rcases List.mem_append.1 hz with hz | hz
      · exact ⟨z, hz, rfl⟩
      · obtain rfl := List.mem_singleton.1 hz
        exact ⟨y, hy, hyx⟩
  · exact h.home p fun z hz => hp z (List.mem_append_left _ hz)
  · rw [hinstalled]
    exact h.back p v hv
  · exact h.settled v fun hi => hv ((hinstalled v).2 hi)
  · exact h.lost v ((hinstalled v).1 hv)

section Concat

variable {v₀ : P}

omit [DecidableEq P] in
/-- An elected host has its own name up to then. -/
theorem Tracks.name_elected (h : Tracks l m) (hfresh : ∀ y ∈ l, x.2 ≠ y.1 ∧ x.2 ≠ y.2) : m.name x.2 = some x.2 :=
  h.home x.2 fun y hy => ⟨(hfresh y hy).1.symm, (hfresh y hy).2.symm⟩

omit [DecidableEq P] in
/-- A host that still has a name is replaced for the first time. -/
theorem Tracks.installed_concat_iff (h : Tracks l m) (hx : m.name x.1 = some v₀) (p : P) :
    Installed (l ++ [x]) p ↔ Installed l p ∨ x.2 = p := by
  apply installed_concat.trans (or_congr_right (and_iff_left _))
  intro y hy heq
  have hnone := (h.failed x.1).2 ⟨y, hy, heq⟩
  rw [hx] at hnone
  cases hnone

omit [DecidableEq P] in
theorem Tracks.elected_ne (h : Tracks l m) (hx : m.name x.1 = some v₀) (hself : x.2 ≠ x.1)
    (hfresh : ∀ y ∈ l, x.2 ≠ y.1 ∧ x.2 ≠ y.2) : x.2 ≠ v₀ := by
  have hplace := (h.back x.2 x.2 (h.name_elected hfresh)).1
  intro heq
  rw [heq, (h.back x.1 v₀ hx).1] at hplace
  exact hself (heq.trans hplace.symm)

theorem Tracks.failed_replace (h : Tracks l m) (hx : m.name x.1 = some v₀)
    (hfresh : ∀ y ∈ l, x.2 ≠ y.1 ∧ x.2 ≠ y.2) (p : P) : (m.replace x).name p = none ↔ ∃ y ∈ l ++ [x], y.1 = p := by
  rw [replace_name hx]
  by_cases hp : p = x.1
  · rw [if_pos hp]
    exact ⟨fun _ => ⟨x, List.mem_append_right _ (List.mem_singleton_self x), hp.symm⟩, fun _ => rfl⟩
  · have hlast : (∃ y ∈ l ++ [x], y.1 = p) ↔ ∃ y ∈ l, y.1 = p := by
      simp [or_and_right, exists_or, Ne.symm hp]
    rw [if_neg hp, hlast]
    by_cases hpe : p = x.2
    · rw [if_pos hpe]
      refine ⟨nofun, ?_⟩
      rintro ⟨y, hy, heq⟩
      exact absurd (hpe.symm.trans heq.symm) (hfresh y hy).1
    · rw [if_neg hpe]
      exact h.failed p

theorem Tracks.back_replace (h : Tracks l m) (hx : m.name x.1 = some v₀) (hself : x.2 ≠ x.1)
    (hfresh : ∀ y ∈ l, x.2 ≠ y.1 ∧ x.2 ≠ y.2) {p v : P} (hv : (m.replace x).name p = some v) :
    (m.replace x).place v = p ∧ ¬ Installed (l ++ [x]) v := by
  have hv₀ := h.back x.1 v₀ hx
  rw [replace_name hx] at hv
  rw [replace_place hx, h.installed_concat_iff hx, not_or]
  split at hv
  · cases hv
  · rename_i hp
    split at hv
    · rename_i hpe
      obtain rfl := Option.some.inj hv
      exact ⟨(if_pos rfl).trans hpe.symm, hv₀.2, h.elected_ne hx hself hfresh⟩
    · rename_i hpe
      obtain ⟨hback, hnot⟩ := h.back p v hv
      have hvne : v ≠ v₀ := by
        rintro rfl
        exact hp (hback.symm.trans hv₀.1)
      refine ⟨(if_neg hvne).trans hback, hnot, ?_⟩
      rintro rfl
      exact hpe (hback.symm.trans (h.back x.2 x.2 (h.name_elected hfresh)).1)

theorem Tracks.settled_replace (h : Tracks l m) (hx : m.name x.1 = some v₀) (hself : x.2 ≠ x.1)
    (hfresh : ∀ y ∈ l, x.2 ≠ y.1 ∧ x.2 ≠ y.2) {v : P} (hv : ¬ Installed (l ++ [x]) v) :
    (m.replace x).name ((m.replace x).place v) = some v := by
  rw [h.installed_concat_iff hx, not_or] at hv
  rw [replace_place hx, replace_name hx]
  by_cases hvv : v = v₀
  · rw [if_pos hvv, if_neg hself, if_pos rfl, hvv]
  · have hback := h.settled v hv.1
    have hfst : m.place v ≠ x.1 := by
      intro heq
      rw [heq, hx] at hback
      exact hvv (Option.some.inj hback).symm
    have hsnd : m.place v ≠ x.2 := by
      intro heq
      rw [heq, h.name_elected hfresh] at hback
      exact hv.2 (Option.some.inj hback)
    rw [if_neg hvv, if_neg hfst, if_neg hsnd, hback]

theorem Tracks.lost_replace (h : Tracks l m) (hx : m.name x.1 = some v₀) (hself : x.2 ≠ x.1)
    (hfresh : ∀ y ∈ l, x.2 ≠ y.1 ∧ x.2 ≠ y.2) {v : P} (hv : Installed (l ++ [x]) v) : (m.replace x).place v = v := by
  rw [h.installed_concat_iff hx] at hv
  rw [replace_place hx]
  rcases hv with hv | rfl
  · have hvv : v ≠ v₀ := by
      rintro rfl
      exact (h.back x.1 v hx).2 hv
    rw [if_neg hvv]
    exact h.lost v hv
  · rw [if_neg (h.elected_ne hx hself hfresh)]
    exact (h.back x.2 x.2 (h.name_elected hfresh)).1

/-- The name of a failing host moves to the host that is elected for it. -/
theorem Tracks.concat_of_some (h : Tracks l m) (hx : m.name x.1 = some v₀) (hself : x.2 ≠ x.1)
    (hfresh : ∀ y ∈ l, x.2 ≠ y.1 ∧ x.2 ≠ y.2) : Tracks (l ++ [x]) (m.replace x) where
  failed := h.failed_replace hx hfresh
  home p hp := by
    have hpx := hp x (List.mem_append_right _ (List.mem_singleton_self x))
    rw [replace_name hx, if_neg hpx.1.symm, if_neg hpx.2.symm]
    exact h.home p fun y hy => hp y (List.mem_append_left _ hy)
  back _ _ hv := h.back_replace hx hself hfresh hv
  settled _ hv := h.settled_replace hx hself hfresh hv
  lost _ hv := h.lost_replace hx hself hfresh hv

end Concat

omit [DecidableEq P] in
theorem Fresh.of_append {l' : List (P × P)} (h : Fresh (l ++ l')) : Fresh l :=
  ⟨(List.pairwise_append.1 h.1).1, fun x hx => h.2 x (List.mem_append_left _ hx)⟩

theorem Fresh.tracks (h : Fresh l) : Tracks l (initial.replaceAll l) := by
  induction l using List.reverseRecOn with
  | nil => exact tracks_initial
  | append_singleton l x ih =>
    have hl := ih h.of_append
    rw [replaceAll_append, replaceAll_cons, replaceAll_nil]
    cases hx : (initial.replaceAll l).name x.1 with
    | none => exact hl.concat_of_none hx
    | some v =>
      refine hl.concat_of_some hx (h.2 x (by simp)) fun y hy => ?_
      exact (List.pairwise_append.1 h.1).2.2 y hy x (List.mem_singleton_self x)

omit [DecidableEq P] in
/-- A name is found again from its host exactly when its number was not elected for another host. -/
theorem Tracks.name_place_iff (h : Tracks l m) (v : P) : m.name (m.place v) = some v ↔ ¬ Installed l v := by
  constructor
  · intro hname hi
    rw [h.lost v hi] at hname
    exact (h.back v v hname).2 hi
  · exact h.settled v

end Placement

end Libibtl.Foundation
