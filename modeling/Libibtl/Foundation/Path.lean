import Mathlib.Data.List.Basic

/-! # Finite runs of a partial step function

A system is a step function into `Option`: `none` means that the event is not
enabled in the state, or that the program ends there. A path carries a side
condition on every step, so that the same notion serves the unrestricted runs
and the runs whose steps all meet a given condition.
-/

namespace Libibtl.Foundation

universe u v

variable {S : Type u} {E : Type v}

/-- `Path step ok s es t`: the events `es` lead from `s` to `t`, and `ok` holds
of every event in the state that it leaves. -/
inductive Path (step : S → E → Option S) (ok : S → E → Prop) : S → List E → S → Prop
  | nil (s : S) : Path step ok s [] s
  | cons {s t u : S} {e : E} {es : List E} (hok : ok s e) (hstep : step s e = some t)
      (rest : Path step ok t es u) : Path step ok s (e :: es) u

namespace Path

variable {step : S → E → Option S} {ok ok' : S → E → Prop} {s t u : S} {es fs : List E}

/-- The invariant rule: what every admissible step keeps, every path keeps. -/
theorem invariant {I : S → Prop} (hI : ∀ s e t, I s → ok s e → step s e = some t → I t)
    (h : Path step ok s es t) (hs : I s) : I t := by
  induction h with
  | nil s => exact hs
  | cons hok hstep _ ih => exact ih (hI _ _ _ hs hok hstep)

theorem mono (h : Path step ok s es t) (hok : ∀ s e, ok s e → ok' s e) : Path step ok' s es t := by
  induction h with
  | nil s => exact .nil s
  | cons hs hstep _ ih => exact .cons (hok _ _ hs) hstep ih

/-- Two side conditions that agree on every enabled event have the same paths. -/
theorem congr_ok (hok : ∀ s e t, step s e = some t → (ok s e ↔ ok' s e)) :
    Path step ok s es t ↔ Path step ok' s es t := by
  constructor
  · intro h
    induction h with
    | nil s => exact .nil s
    | cons hs hstep _ ih => exact .cons ((hok _ _ _ hstep).1 hs) hstep ih
  · intro h
    induction h with
    | nil s => exact .nil s
    | cons hs hstep _ ih => exact .cons ((hok _ _ _ hstep).2 hs) hstep ih

theorem append (h : Path step ok s es t) (h' : Path step ok t fs u) : Path step ok s (es ++ fs) u := by
  induction h with
  | nil s => exact h'
  | cons hok hstep _ ih => exact .cons hok hstep (ih h')

/-- Where a step keeps `I` exactly when it meets `ok'`, the paths through states with `I` are the paths whose steps
meet `ok'`. -/
theorem always_iff {W I : S → Prop} (hW : ∀ s e t, W s → step s e = some t → W t)
    (hI : ∀ s e t, W s → I s → step s e = some t → (I t ↔ ok' s e)) (hs : W s) (his : I s) :
    Path step (fun s _ => I s) s es t ∧ I t ↔ Path step ok' s es t := by
  induction es generalizing s with
  | nil =>
    constructor
    · rintro ⟨h, -⟩
      cases h
      exact .nil _
    · intro h
      cases h
      exact ⟨.nil _, his⟩
  | cons e es ih =>
    constructor
    · rintro ⟨h, hit⟩
      cases h with
      | @cons _ u _ _ _ _ hstep rest =>
        have hu : I u := by
          cases rest with
          | nil => exact hit
          | cons hok _ _ => exact hok
        exact .cons ((hI _ _ _ hs his hstep).1 hu) hstep ((ih (hW _ _ _ hs hstep) hu).1 ⟨rest, hit⟩)
    · intro h
      cases h with
      | @cons _ u _ _ _ hok hstep rest =>
        have hu : I u := (hI _ _ _ hs his hstep).2 hok
        obtain ⟨rest', hit⟩ := (ih (hW _ _ _ hs hstep) hu).2 rest
        exact ⟨.cons his hstep rest', hit⟩

end Path

/-! ## Runs of a program that may get stuck -/

/-- Every event has a step, and `I` holds of every state on the way. -/
def Runs (step : S → E → Option S) (I : S → Prop) : S → List E → Prop
  | s, [] => I s
  | s, e :: es => I s ∧ ∃ t, step s e = some t ∧ Runs step I t es

/-- Every event that is reached meets `ok` in the state that it leaves. -/
def Meets (step : S → E → Option S) (ok : S → E → Prop) : S → List E → Prop
  | _, [] => True
  | s, e :: es => ok s e ∧ ∀ t ∈ step s e, Meets step ok t es

instance Meets.decidable (step : S → E → Option S) (ok : S → E → Prop) [∀ s e, Decidable (ok s e)] :
    ∀ (s : S) (es : List E), Decidable (Meets step ok s es)
  | _, [] => inferInstanceAs (Decidable True)
  | s, e :: es =>
    have : ∀ t, Decidable (Meets step ok t es) := fun t => Meets.decidable step ok t es
    inferInstanceAs (Decidable (ok s e ∧ ∀ t ∈ step s e, Meets step ok t es))

theorem Meets.of_forall {step : S → E → Option S} {ok : S → E → Prop} (h : ∀ s e, ok s e) (s : S) (es : List E) :
    Meets step ok s es := by
  induction es generalizing s with
  | nil => trivial
  | cons e es ih => exact ⟨h s e, fun t _ => ih t⟩

namespace Runs

variable {step : S → E → Option S} {ok fresh : S → E → Prop} {I J : S → Prop} {s t : S} {es fs : List E}

theorem here (h : Runs step I s es) : I s := by
  cases es with
  | nil => exact h
  | cons e es => exact h.1

theorem mono (h : Runs step I s es) (hIJ : ∀ s, I s → J s) : Runs step J s es := by
  induction es generalizing s with
  | nil => exact hIJ s h
  | cons e es ih =>
    obtain ⟨hs, t, hstep, ht⟩ := h
    exact ⟨hIJ s hs, t, hstep, ih ht⟩

theorem of_meets (hI : ∀ s e, I s → ok s e → ∃ t, step s e = some t ∧ I t) (hs : I s) (h : Meets step ok s es) :
    Runs step I s es := by
  induction es generalizing s with
  | nil => exact hs
  | cons e es ih =>
    obtain ⟨hok, hrest⟩ := h
    obtain ⟨t, hstep, ht⟩ := hI s e hs hok
    exact ⟨hs, t, hstep, ih ht (hrest t hstep)⟩

/-- `J` is an invariant of the events that meet `ok`, and an event that does not meet it leads out of `I`: the runs
through states with `I` are the runs whose events meet `ok`. What the environment promises of every event, `fresh`, is
assumed. -/
theorem iff_meets (hJI : ∀ s, J s → I s)
    (hgood : ∀ s e, J s → fresh s e → ok s e → ∃ t, step s e = some t ∧ J t)
    (hbad : ∀ s e t, J s → fresh s e → step s e = some t → I t → ok s e) (hs : J s)
    (hfresh : Meets step fresh s es) : Runs step I s es ↔ Meets step ok s es := by
  induction es generalizing s with
  | nil => exact iff_of_true (hJI s hs) trivial
  | cons e es ih =>
    obtain ⟨hf, hrest⟩ := hfresh
    constructor
    · rintro ⟨-, t, hstep, ht⟩
      have hok := hbad s e t hs hf hstep ht.here
      obtain ⟨u, hu, hJ⟩ := hgood s e hs hf hok
      cases hstep.symm.trans hu
      refine ⟨hok, fun u hu => ?_⟩
      cases hstep.symm.trans hu
      exact (ih hJ (hrest t hstep)).1 ht
    · rintro ⟨hok, hnext⟩
      obtain ⟨t, hstep, ht⟩ := hgood s e hs hf hok
      exact ⟨hJI s hs, t, hstep, (ih ht (hrest t hstep)).2 (hnext t hstep)⟩

theorem foldlM (h : Runs step I s es) : ∃ t, es.foldlM step s = some t ∧ I t := by
  induction es generalizing s with
  | nil => exact ⟨s, rfl, h⟩
  | cons e es ih =>
    obtain ⟨-, t, hstep, ht⟩ := h
    rw [List.foldlM_cons, hstep]
    exact ih ht

end Runs

/-- The executable form: run the events and test the side condition at every step. -/
def runWhile (step : S → E → Option S) (ok : S → E → Prop) [∀ s e, Decidable (ok s e)] :
    S → List E → Option S
  | s, [] => some s
  | s, e :: es => if ok s e then (step s e).bind (runWhile step ok · es) else none

theorem path_of_runWhile {step : S → E → Option S} {ok : S → E → Prop} [∀ s e, Decidable (ok s e)]
    {s t : S} {es : List E} (h : runWhile step ok s es = some t) : Path step ok s es t := by
  induction es generalizing s with
  | nil =>
    cases h
    exact .nil _
  | cons e es ih =>
    rw [runWhile] at h
    split at h
    · rename_i hok
      obtain ⟨u, hstep, hrest⟩ := Option.bind_eq_some_iff.mp h
      exact .cons hok hstep (ih hrest)
    · cases h

/-- A run that evaluates to a state with a decidable property is a path to such a state. -/
theorem exists_path_of_runWhile (step : S → E → Option S) (ok : S → E → Prop)
    [∀ s e, Decidable (ok s e)] (s : S) (es : List E) (p : S → Bool)
    (h : ((runWhile step ok s es).map p) = some true) : ∃ t, Path step ok s es t ∧ p t = true := by
  obtain ⟨t, hrun, hp⟩ := Option.map_eq_some_iff.mp h
  exact ⟨t, path_of_runWhile hrun, hp⟩

end Libibtl.Foundation
