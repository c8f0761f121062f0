import Mathlib.Data.Nat.Find
import Libibtl.Election
import Libibtl.Foundation.Path

/-! # The bounds of an election

`fdmi_reallocate_state_listd` looks for a stand-by rank without looking at the length of
`prank_state_list`, and the ranks behind the first stand-by rank are taken as they come.
A rank that does not exist passes all tests of the third loop.
-/

namespace Libibtl

open Foundation

/-- How a call of `fdmi_reallocate_state_listd` ends without returning: in `fdmi_err`, or at an index behind the list. -/
inductive ElectionHalt
  | err (text : String)
  | outside (index : Nat)
  deriving DecidableEq, Repr

/-- The failed ranges, and for how many of them there is an elected range. -/
structure ElectionCall where
  failed : List RankRange
  electedLength : Nat
  deriving DecidableEq, Repr

namespace StateList

/-- One turn of the first loop. -/
def markRank (z : JobSize) (states : Nat → PrankState) (j : Nat) : Except ElectionHalt (Nat → PrankState) :=
  if j < z.tableSize then .ok (Function.update states j .failure) else .error (.outside j)

def markRange (z : JobSize) (states : Nat → PrankState) (x : RankRange) : Except ElectionHalt (Nat → PrankState) :=
  (List.range' x.1 x.2).foldlM (markRank z) states

/-- `while (prank_state_list[++sid] != FDMI_PSTANDBY)`, when `left` entries of the list are left. -/
def searchStandby (states : Nat → PrankState) : Nat → Nat → Except ElectionHalt Nat
  | 0, sid => .error (.outside sid)
  | left + 1, sid => if states sid = .standby then .ok sid else searchStandby states left (sid + 1)

/-- One turn of the third loop. -/
def settleRank (z : JobSize) (states : Nat → PrankState) (j : Nat) : Except ElectionHalt (Nat → PrankState) :=
  if j < z.tableSize then
    match states j with
    | .compute => .ok states
    | .standby => .ok (Function.update states j .standby)
    -- the same test stands a second time behind this one, with the report that there are not enough stand-by ranks
    | .failure => .error (.err s!"Cannot reallocate failed node rank:{j}")
    | .nothing => .ok states
  else .error (.outside j)

def settleRange (z : JobSize) (states : Nat → PrankState) (x : RankRange) : Except ElectionHalt (Nat → PrankState) :=
  (List.range' x.1 x.2).foldlM (settleRank z) states

/-- `fdmi_reallocate_state_listd`: the new `prank_state_list` and the newly elected ranges. -/
def reallocateStateListd (z : JobSize) (states : Nat → PrankState) (c : ElectionCall) :
    Except ElectionHalt ((Nat → PrankState) × List RankRange) := do
  let states ← c.failed.foldlM (markRange z) states
  let sid ← searchStandby states z.tableSize 0
  let elected := FtMsg.electFrom sid (c.failed.drop c.electedLength)
  let states ← elected.foldlM (settleRange z) states
  return (states, elected)

/-- A process that goes on after the call. -/
def step (z : JobSize) (states : Nat → PrankState) (c : ElectionCall) : Option (Nat → PrankState) :=
  (reallocateStateListd z states c).toOption.map Prod.fst

/-- The failed ranges are ranges of ranks. -/
def Inside (z : JobSize) (c : ElectionCall) : Prop := ∀ x ∈ c.failed, x.1 + x.2 ≤ z.psize

instance (z : JobSize) (c : ElectionCall) : Decidable (Inside z c) := inferInstanceAs (Decidable (∀ x ∈ _, _))

/-- The call stays in the list, and when it returns, the elected ranks were stand-by ranks before it. -/
structure Ends (z : JobSize) (states : Nat → PrankState) (c : ElectionCall) : Prop where
  inside : ∀ i, reallocateStateListd z states c ≠ .error (.outside i)
  standby : ∀ r, reallocateStateListd z states c = .ok r → ∀ x ∈ r.2, ∀ j, Covers x j → states j = .standby

/-- A stand-by rank that does not fail with this call. -/
def Free (states : Nat → PrankState) (c : ElectionCall) (j : Nat) : Prop :=
  states j = .standby ∧ ¬ ∃ x ∈ c.failed, Covers x j

instance (states : Nat → PrankState) (c : ElectionCall) (j : Nat) : Decidable (Free states c j) :=
  inferInstanceAs (Decidable (_ ∧ _))

def Failed (states : Nat → PrankState) (c : ElectionCall) (j : Nat) : Prop :=
  states j = .failure ∨ ∃ x ∈ c.failed, Covers x j

/-- The ranks that the elected ranges take. -/
def total : List RankRange → Nat
  | [] => 0
  | x :: l => x.2 + total l

structure FirstFree (states : Nat → PrankState) (c : ElectionCall) (sid : Nat) : Prop where
  free : Free states c sid
  first : ∀ j < sid, ¬ Free states c j

/-- There is a stand-by rank, and from the first one on there are ranks for all new ranges, or one that has failed. -/
def Provides (z : JobSize) (states : Nat → PrankState) (c : ElectionCall) : Prop :=
  ∃ sid, FirstFree states c sid ∧
    (sid + total (c.failed.drop c.electedLength) ≤ z.psize ∨ ∃ j, sid ≤ j ∧ j < z.psize ∧ Failed states c j)

/-! ## What the loops do -/

variable {z : JobSize} {states : Nat → PrankState} {c : ElectionCall}

/-- The state after the first loop. -/
def marked (states : Nat → PrankState) (c : ElectionCall) : Nat → PrankState := c.failed.foldl FtMsg.markFailed states

theorem markRange_eq {x : RankRange} (hx : x.1 + x.2 ≤ z.tableSize) :
    markRange z states x = .ok (FtMsg.markFailed states x) := by
  obtain ⟨a, n⟩ := x
  rw [markRange]
  induction n generalizing a states with
  | zero =>
    have hnone : FtMsg.markFailed states (a, 0) = states := by
      funext j
      rw [FtMsg.markFailed, if_neg]
      rintro ⟨hle, hlt⟩
      exact absurd hlt (Nat.not_lt.2 hle)
    rw [hnone]
    rfl
  | succ n ih =>
    have hrest : FtMsg.markFailed (Function.update states a .failure) (a + 1, n) = FtMsg.markFailed states (a, n + 1) := by
      funext j
      have hcov : Covers (a, n + 1) j ↔ j = a ∨ Covers (a + 1, n) j := by
        simp only [Covers]
        omega
      rw [FtMsg.markFailed, FtMsg.markFailed, if_congr hcov rfl rfl, Function.update_apply]
      by_cases hrest : Covers (a + 1, n) j
      · rw [if_pos hrest, if_pos (.inr hrest)]
      · rw [if_neg hrest]
        exact if_congr (by simp [hrest]) rfl rfl
    have hhead : markRank z states a = .ok (Function.update states a .failure) := if_pos (by simp at hx; omega)
    rw [List.range'_succ, List.foldlM_cons, hhead, ← hrest]
    exact ih _ (by simp at hx ⊢; omega)

theorem markRanges_eq {l : List RankRange} (hl : ∀ x ∈ l, x.1 + x.2 ≤ z.tableSize) :
    l.foldlM (markRange z) states = .ok (l.foldl FtMsg.markFailed states) := by
  induction l generalizing states with
  | nil => rfl
  | cons x l ih =>
    rw [List.foldlM_cons, markRange_eq (hl x List.mem_cons_self)]
    exact ih fun y hy => hl y (List.mem_cons_of_mem _ hy)

theorem searchStandby_found {left a sid : Nat} (ha : a ≤ sid) (hlt : sid < a + left) (hsid : states sid = .standby)
    (hfirst : ∀ j, a ≤ j → j < sid → states j ≠ .standby) : searchStandby states left a = .ok sid := by
  induction left generalizing a with
  | zero => omega
  | succ left ih =>
    rw [searchStandby]
    rcases Nat.eq_or_lt_of_le ha with rfl | hgt
    · rw [if_pos hsid]
    · rw [if_neg (hfirst a (Nat.le_refl a) hgt)]
      exact ih hgt (by omega) fun j hj => hfirst j (Nat.le_of_succ_le hj)

theorem searchStandby_outside {left a : Nat} (hnone : ∀ j, a ≤ j → j < a + left → states j ≠ .standby) :
    searchStandby states left a = .error (.outside (a + left)) := by
  induction left generalizing a with
  | zero => rfl
  | succ left ih =>
    rw [searchStandby, if_neg (hnone a (Nat.le_refl a) (by omega)), ih, Nat.add_right_comm, Nat.add_assoc]
    intro j hj hlt
    exact hnone j (by omega) (by omega)

theorem settleRank_eq {j : Nat} (hj : j < z.tableSize) (h : states j ≠ .failure) : settleRank z states j = .ok states := by
  rw [settleRank, if_pos hj]
  split
  · rfl
  · rename_i hs
    rw [← hs, Function.update_eq_self]
  · rename_i hs
    exact absurd hs h
  · rfl

/-- The elected ranges follow one another, so the third loop runs through consecutive ranks. -/
theorem settleRanges_eq (l : List RankRange) (sid : Nat) :
    (FtMsg.electFrom sid l).foldlM (settleRange z) states = (List.range' sid (total l)).foldlM (settleRank z) states := by
  induction l generalizing sid states with
  | nil => rfl
  | cons x l ih =>
    have htotal : total (x :: l) = x.2 + total l := rfl
    rw [FtMsg.electFrom, List.foldlM_cons, htotal, ← List.range'_append_1, List.foldlM_append]
    exact congrArg (settleRange z states (sid, x.2) >>= ·) (funext fun t => ih (sid + x.2))

theorem exists_elected {l : List RankRange} {sid j : Nat} (hj : sid ≤ j) (hlt : j < sid + total l) :
    ∃ x ∈ FtMsg.electFrom sid l, Covers x j := by
  induction l generalizing sid with
  | nil => exact absurd hlt (Nat.not_lt.2 hj)
  | cons x l ih =>
    have htotal : total (x :: l) = x.2 + total l := rfl
    rw [FtMsg.electFrom]
    rcases Nat.lt_or_ge j (sid + x.2) with hhead | htail
    · exact ⟨_, List.mem_cons_self, hj, hhead⟩
    · obtain ⟨y, hy, hcov⟩ := ih htail (by omega)
      exact ⟨y, List.mem_cons_of_mem _ hy, hcov⟩

theorem covers_elected {l : List RankRange} {sid j : Nat} {x : RankRange} (hx : x ∈ FtMsg.electFrom sid l)
    (hj : Covers x j) : sid ≤ j ∧ j < sid + total l := by
  induction l generalizing sid with
  | nil => cases hx
  | cons y l ih =>
    have htotal : total (y :: l) = y.2 + total l := rfl
    rw [FtMsg.electFrom, List.mem_cons] at hx
    rcases hx with rfl | hx
    · obtain ⟨hle, hlt⟩ := hj
      simp only at hle hlt
      omega
    · have := ih hx
      omega

theorem settleRanks_ok {sid n : Nat} (hn : sid + n ≤ z.tableSize) (h : ∀ j, sid ≤ j → j < sid + n → states j ≠ .failure) :
    (List.range' sid n).foldlM (settleRank z) states = .ok states := by
  induction n generalizing sid with
  | zero => rfl
  | succ n ih =>
    rw [List.range'_succ, List.foldlM_cons, settleRank_eq (by omega) (h sid (Nat.le_refl sid) (by omega))]
    exact ih (by omega) fun j hj hlt => h j (by omega) (by omega)

theorem settleRanks_err {sid n j : Nat} (hj : sid ≤ j) (hlt : j < sid + n) (hsize : j < z.tableSize)
    (hfailed : states j = .failure) : ∃ text, (List.range' sid n).foldlM (settleRank z) states = .error (.err text) := by
  induction n generalizing sid with
  | zero => omega
  | succ n ih =>
    rw [List.range'_succ, List.foldlM_cons]
    by_cases hsid : states sid = .failure
    · refine ⟨s!"Cannot reallocate failed node rank:{sid}", ?_⟩
      rw [settleRank, if_pos (hj.trans_lt hsize), hsid]
      rfl
    · rw [settleRank_eq (hj.trans_lt hsize) hsid]
      have hne : sid ≠ j := fun heq => hsid (heq ▸ hfailed)
      exact ih (by omega) (by omega)

theorem settleRanks_outside {sid n : Nat} (hsid : sid ≤ z.tableSize) (hn : z.tableSize < sid + n)
    (h : ∀ j, sid ≤ j → j < z.tableSize → states j ≠ .failure) :
    (List.range' sid n).foldlM (settleRank z) states = .error (.outside z.tableSize) := by
  induction n generalizing sid with
  | zero => omega
  | succ n ih =>
    rw [List.range'_succ, List.foldlM_cons]
    rcases Nat.eq_or_lt_of_le hsid with rfl | hlt
    · rw [settleRank, if_neg (Nat.lt_irrefl _)]
      rfl
    · rw [settleRank_eq hlt (h sid (Nat.le_refl sid) hlt)]
      exact ih hlt (by omega) fun j hj => h j (Nat.le_of_succ_le hj)

theorem settleRanks_state {l : List Nat} {t : Nat → PrankState} (h : l.foldlM (settleRank z) states = .ok t) :
    t = states := by
  induction l generalizing states with
  | nil => exact (Except.ok.inj h).symm
  | cons j l ih =>
    rw [List.foldlM_cons] at h
    cases hturn : settleRank z states j with
    | error e =>
      rw [hturn] at h
      cases h
    | ok u =>
      rw [hturn] at h
      have hu : u = states := by
        by_cases hj : j < z.tableSize
        · by_cases hfail : states j = .failure
          · rw [settleRank, if_pos hj, hfail] at hturn
            cases hturn
          · rw [settleRank_eq hj hfail] at hturn
            exact (Except.ok.inj hturn).symm
        · rw [settleRank, if_neg hj] at hturn
          cases hturn
      exact hu ▸ ih h

/-! ## One call -/

/-- Only ranks below `psize` have failed, and the others are in their first state. -/
def Regular (z : JobSize) (states : Nat → PrankState) : Prop :=
  ∀ j, states j = z.initialState j ∨ (states j = .failure ∧ j < z.psize)

theorem regular_init (z : JobSize) : Regular z z.initialState := fun _ => .inl rfl

theorem marked_apply (j : Nat) : marked states c j = if ∃ x ∈ c.failed, Covers x j then .failure else states j :=
  FtMsg.foldl_markFailed c.failed states j

theorem marked_eq_standby {j : Nat} : marked states c j = .standby ↔ Free states c j := by
  rw [marked_apply, Free]
  split
  · rename_i hcov
    simp [hcov]
  · rename_i hcov
    simp [hcov]

theorem marked_eq_failure {j : Nat} : marked states c j = .failure ↔ Failed states c j := by
  rw [marked_apply, Failed]
  split
  · rename_i hcov
    simp [hcov]
  · rename_i hcov
    simp [hcov]

theorem Inside.bounds (hc : Inside z c) {x : RankRange} (hx : x ∈ c.failed) : x.1 + x.2 ≤ z.tableSize := by
  have := hc x hx
  rw [JobSize.tableSize]
  omega

theorem Regular.marked (h : Regular z states) (hc : Inside z c) : Regular z (marked states c) := by
  intro j
  rw [marked_apply]
  split
  · rename_i hcov
    obtain ⟨x, hx, hxj⟩ := hcov
    exact .inr ⟨rfl, hxj.2.trans_le (hc x hx)⟩
  · exact h j

theorem reallocate_eq (hc : Inside z c) : reallocateStateListd z states c =
    (searchStandby (marked states c) z.tableSize 0).bind fun sid =>
      ((List.range' sid (total (c.failed.drop c.electedLength))).foldlM (settleRank z) (marked states c)).map
        fun t => (t, FtMsg.electFrom sid (c.failed.drop c.electedLength)) := by
  rw [reallocateStateListd, markRanges_eq fun x hx => hc.bounds hx]
  refine congrArg (searchStandby (marked states c) z.tableSize 0).bind (funext fun sid => ?_)
  change ((FtMsg.electFrom sid _).foldlM (settleRange z) (marked states c)).bind _ = _
  rw [settleRanges_eq]
  rfl

theorem step_eq (hc : Inside z c) {t : Nat → PrankState} (h : step z states c = some t) : t = marked states c := by
  rw [step, reallocate_eq hc] at h
  cases hsid : searchStandby (marked states c) z.tableSize 0 with
  | error e =>
    rw [hsid] at h
    cases h
  | ok sid =>
    rw [hsid] at h
    change ((Except.map _ ((List.range' sid _).foldlM (settleRank z) (marked states c))).toOption).map Prod.fst = some t at h
    cases hrest : (List.range' sid (total (c.failed.drop c.electedLength))).foldlM (settleRank z) (marked states c) with
    | error e =>
      rw [hrest] at h
      cases h
    | ok u =>
      rw [hrest] at h
      cases h
      exact settleRanks_state hrest

/-- From the first stand-by rank on, the ranks below `psize` stand by or have failed, and behind them is nothing. -/
theorem Regular.behind (h : Regular z states) (hc : Inside z c) {sid : Nat} (hsid : Free states c sid) :
    sid < z.psize ∧ (∀ j, sid ≤ j → j < z.psize → Free states c j ∨ Failed states c j) ∧
      ∀ j, z.psize ≤ j → ¬ Free states c j ∧ ¬ Failed states c j := by
  have hfirst := (h.marked hc sid).resolve_right fun hfail => by
    rw [marked_eq_standby.2 hsid] at hfail
    cases hfail.1
  rw [marked_eq_standby.2 hsid] at hfirst
  obtain ⟨hge, hlt⟩ := FtMsg.initialState_eq_standby.1 hfirst.symm
  refine ⟨hlt, fun j hj hjlt => ?_, fun j hj => ?_⟩
  · rcases h.marked hc j with hinit | ⟨hfail, -⟩
    · rw [FtMsg.initialState_eq_standby.2 ⟨hge.trans hj, hjlt⟩] at hinit
      exact .inl (marked_eq_standby.1 hinit)
    · exact .inr (marked_eq_failure.1 hfail)
  · have hinit := (h.marked hc j).resolve_right fun hfail => Nat.not_lt.2 hj hfail.2
    rw [← marked_eq_standby, ← marked_eq_failure, hinit]
    refine ⟨fun hstandby => ?_, FtMsg.initialState_ne_failure j⟩
    have := (FtMsg.initialState_eq_standby.1 hstandby).2
    omega

/-- Without a stand-by rank the search leaves the list. -/
theorem reallocate_shortage (hc : Inside z c) (hnone : ∀ j, ¬ Free states c j) :
    reallocateStateListd z states c = .error (.outside z.tableSize) := by
  have hsearch : searchStandby (marked states c) z.tableSize 0 = .error (.outside (0 + z.tableSize)) := by
    apply searchStandby_outside
    intro j _ _
    rw [Ne, marked_eq_standby]
    exact hnone j
  rw [reallocate_eq hc, hsearch, Nat.zero_add]
  rfl

section FirstFree

variable {sid : Nat} (hfirst : FirstFree states c sid)

include hfirst

/-- The first stand-by rank is found, and the rest of the call is the third loop. -/
theorem FirstFree.reallocate (hc : Inside z c) (hlt : sid < z.tableSize) {r : Except ElectionHalt (Nat → PrankState)}
    (hr : (List.range' sid (total (c.failed.drop c.electedLength))).foldlM (settleRank z) (marked states c) = r) :
    reallocateStateListd z states c = r.map fun t => (t, FtMsg.electFrom sid (c.failed.drop c.electedLength)) := by
  have hsearch : searchStandby (marked states c) z.tableSize 0 = .ok sid := by
    apply searchStandby_found (Nat.zero_le sid) (by omega) (marked_eq_standby.2 hfirst.free)
    intro j _ hj
    rw [Ne, marked_eq_standby]
    exact hfirst.first j hj
  rw [reallocate_eq hc, hsearch, ← hr]
  rfl

theorem FirstFree.unique {s : Nat} (hs : FirstFree states c s) : s = sid := by
  rcases Nat.lt_trichotomy s sid with hless | heq | hmore
  · exact absurd hs.free (hfirst.first s hless)
  · exact heq
  · exact absurd hfirst.free (hs.first sid hmore)

theorem FirstFree.provides_iff : Provides z states c ↔ sid + total (c.failed.drop c.electedLength) ≤ z.psize ∨
    ∃ j, sid ≤ j ∧ j < z.psize ∧ Failed states c j := by
  constructor
  · rintro ⟨s, hs, hcase⟩
    rwa [hfirst.unique hs] at hcase
  · exact fun hcase => ⟨sid, hfirst, hcase⟩

/-- The third loop meets a failed rank and reports it. -/
theorem FirstFree.ends_of_failed (hc : Inside z c) {j : Nat} (hj : sid ≤ j)
    (hjn : j < sid + total (c.failed.drop c.electedLength)) (hjlt : j < z.tableSize) (hjf : Failed states c j) :
    Ends z states c := by
  obtain ⟨text, htext⟩ := settleRanks_err hj hjn hjlt (marked_eq_failure.2 hjf)
  have hrun := hfirst.reallocate hc (hj.trans_lt hjlt) htext
  refine ⟨fun i heq => ?_, fun r hr => ?_⟩
  · rw [hrun] at heq
    cases heq
  · rw [hrun] at hr
    cases hr

theorem FirstFree.ends_of_free (hc : Inside z c) (hlt : sid < z.tableSize)
    (hn : sid + total (c.failed.drop c.electedLength) ≤ z.tableSize)
    (hfree : ∀ j, sid ≤ j → j < sid + total (c.failed.drop c.electedLength) → Free states c j) : Ends z states c := by
  have halive : ∀ j, sid ≤ j → j < sid + total (c.failed.drop c.electedLength) → marked states c j ≠ .failure := by
    intro j hj hjn hmark
    rw [marked_eq_standby.2 (hfree j hj hjn)] at hmark
    cases hmark
  have hok := hfirst.reallocate hc hlt (settleRanks_ok hn halive)
  refine ⟨fun i heq => ?_, fun r hr x hx j hj => ?_⟩
  · rw [hok] at heq
    cases heq
  · rw [hok] at hr
    cases hr
    obtain ⟨hge, hbound⟩ := covers_elected hx hj
    exact (hfree j hge hbound).1

/-- The elected ranks reach `psize`, and no failed rank is in between. -/
theorem FirstFree.not_ends (hc : Inside z c) (hlt : sid < z.tableSize) {i : Nat} (hi : sid ≤ i)
    (hin : i < sid + total (c.failed.drop c.electedLength)) (hnothing : ¬ Free states c i)
    (halive : ∀ j, sid ≤ j → j < sid + total (c.failed.drop c.electedLength) → ¬ Failed states c j) :
    ¬ Ends z states c := by
  intro hends
  have hmark : ∀ j, sid ≤ j → j < sid + total (c.failed.drop c.electedLength) → marked states c j ≠ .failure := by
    intro j hj hjn
    rw [Ne, marked_eq_failure]
    exact halive j hj hjn
  rcases Nat.lt_or_ge z.tableSize (sid + total (c.failed.drop c.electedLength)) with hout | hfit
  · have hrun := settleRanks_outside (z := z) hlt.le hout fun j hj hjlt => hmark j hj (hjlt.trans hout)
    exact hends.inside _ (hfirst.reallocate hc hlt hrun)
  · have hok := hfirst.reallocate hc hlt (settleRanks_ok hfit hmark)
    obtain ⟨x, hx, hcov⟩ := exists_elected hi hin
    have hstandby := hends.standby _ hok x hx i hcov
    -- the rank is not covered, so it has the state that it had before the call
    exact hnothing ⟨hstandby, fun hcovered => halive i hi hin (.inr hcovered)⟩

end FirstFree

/-- A call ends well exactly when the list provides for the new ranges. -/
theorem Regular.ends_iff (h : Regular z states) (hc : Inside z c) : Ends z states c ↔ Provides z states c := by
  by_cases hfree : ∃ j, Free states c j
  · have hfirst : FirstFree states c (Nat.find hfree) := ⟨Nat.find_spec hfree, fun j hj => Nat.find_min hfree hj⟩
    generalize Nat.find hfree = sid at hfirst
    obtain ⟨hlt, hbelow, habove⟩ := h.behind hc hfirst.free
    have htable : z.psize ≤ z.tableSize := by
      rw [JobSize.tableSize]
      omega
    by_cases hfail : ∃ j, sid ≤ j ∧ j < z.psize ∧ j < sid + total (c.failed.drop c.electedLength) ∧ Failed states c j
    · obtain ⟨j, hj, hjlt, hjn, hjf⟩ := hfail
      exact iff_of_true (hfirst.ends_of_failed hc hj hjn (hjlt.trans_le htable) hjf)
        (hfirst.provides_iff.2 (.inr ⟨j, hj, hjlt, hjf⟩))
    · rcases Nat.lt_or_ge z.psize (sid + total (c.failed.drop c.electedLength)) with hgt | hle
      · refine iff_of_false ?_ ?_
        · apply hfirst.not_ends hc (hlt.trans_le htable) hlt.le hgt (habove z.psize (Nat.le_refl _)).1
          intro j hj hjn hjf
          rcases Nat.lt_or_ge j z.psize with hjlt | hjge
          · exact hfail ⟨j, hj, hjlt, hjn, hjf⟩
          · exact (habove j hjge).2 hjf
        · rw [hfirst.provides_iff]
          rintro (hfit | ⟨j, hj, hjlt, hjf⟩)
          · omega
          · exact hfail ⟨j, hj, hjlt, hjlt.trans hgt, hjf⟩
      · refine iff_of_true ?_ (hfirst.provides_iff.2 (.inl hle))
        apply hfirst.ends_of_free hc (hlt.trans_le htable) (hle.trans htable)
        intro j hj hjn
        have hjlt := hjn.trans_le hle
        exact (hbelow j hj hjlt).resolve_right fun hjf => hfail ⟨j, hj, hjlt, hjn, hjf⟩
  · refine iff_of_false (fun hends => ?_) ?_
    · exact hends.inside _ (reallocate_shortage hc fun j hj => hfree ⟨j, hj⟩)
    · rintro ⟨sid, hsid, -⟩
      exact hfree ⟨sid, hsid.free⟩

/-! ## Runs -/

theorem Regular.step (h : Regular z states) (hc : Inside z c) {t : Nat → PrankState}
    (hstep : StateList.step z states c = some t) : Regular z t := by
  rw [step_eq hc hstep]
  exact h.marked hc

theorem Regular.meets_iff (h : Regular z states) {calls : List ElectionCall} (hcalls : ∀ c ∈ calls, Inside z c) :
    Meets (StateList.step z) (Ends z) states calls ↔ Meets (StateList.step z) (Provides z) states calls := by
  induction calls generalizing states with
  | nil => exact Iff.rfl
  | cons c calls ih =>
    have hc := hcalls c List.mem_cons_self
    refine and_congr (h.ends_iff hc) (forall₂_congr fun t ht => ?_)
    exact ih (h.step hc ht) fun d hd => hcalls d (List.mem_cons_of_mem _ hd)

/-- From every reachable list on, all calls of a run end well exactly when each finds the ranks it needs. -/
theorem elections_end_iff {past calls : List ElectionCall}
    (hpast : Path (StateList.step z) (fun _ c => Inside z c) z.initialState past states)
    (hcalls : ∀ c ∈ calls, Inside z c) :
    Meets (StateList.step z) (Ends z) states calls ↔ Meets (StateList.step z) (Provides z) states calls := by
  have hregular : Regular z states := hpast.invariant (fun _ _ _ h hc hstep => h.step hc hstep) (regular_init z)
  exact hregular.meets_iff hcalls

/-- One spare rank behind two ranks: the second failure elects the same spare rank again, and that is reported as
no shortage. -/
theorem elections_end_two : ∃ states,
    Path (StateList.step ⟨3, 1, 1⟩) (fun _ c => Inside ⟨3, 1, 1⟩ c) (JobSize.initialState ⟨3, 1, 1⟩) [⟨[(0, 1)], 0⟩] states ∧
      Meets (StateList.step ⟨3, 1, 1⟩) (Ends ⟨3, 1, 1⟩) states [⟨[(0, 1), (1, 1)], 1⟩] := by
  have hpast : Path (StateList.step ⟨3, 1, 1⟩) (fun _ c => Inside ⟨3, 1, 1⟩ c) (JobSize.initialState ⟨3, 1, 1⟩) [⟨[(0, 1)], 0⟩]
      _ := .cons (by decide) rfl (.nil _)
  refine ⟨_, hpast, (elections_end_iff hpast (by decide)).2 ⟨⟨2, ⟨by decide, by decide⟩, .inl (by decide)⟩, ?_⟩⟩
  exact fun _ _ => trivial

/-- `fdmi_init_proc_man` asks for no spare rank, and the first failure makes the search leave the list. -/
theorem no_spare_leaves_list :
    reallocateStateListd ⟨1024 * 1024, 0, 1⟩ (JobSize.initialState ⟨1024 * 1024, 0, 1⟩) ⟨[(0, 1)], 0⟩ =
        .error (.outside (1024 * 1024 * 2)) ∧
      ¬ Ends ⟨1024 * 1024, 0, 1⟩ (JobSize.initialState ⟨1024 * 1024, 0, 1⟩) ⟨[(0, 1)], 0⟩ := by
  have hinside : Inside ⟨1024 * 1024, 0, 1⟩ ⟨[(0, 1)], 0⟩ := by decide
  have hnone : ∀ j, ¬ Free (JobSize.initialState ⟨1024 * 1024, 0, 1⟩) ⟨[(0, 1)], 0⟩ j := by
    intro j hj
    obtain ⟨hge, hlt⟩ := FtMsg.initialState_eq_standby.1 hj.1
    simp only [JobSize.vsize] at hge hlt
    omega
  have hrun := reallocate_shortage hinside hnone
  exact ⟨hrun, fun hends => hends.inside _ hrun⟩

/-! ## The lists of a process -/

theorem toOption_bind {ε α β : Type} (x : Except ε α) (f : α → Except ε β) :
    (x >>= f).toOption = x.toOption.bind fun a => (f a).toOption := by
  cases x with
  | error e => rfl
  | ok a => rfl

theorem searchStandby_toOption (left a : Nat) :
    (searchStandby states left a).toOption = (List.range' a left).find? fun j => states j = .standby := by
  induction left generalizing a with
  | zero => rfl
  | succ left ih =>
    rw [searchStandby, List.range'_succ, List.find?_cons]
    split
    · rename_i hs
      rw [decide_eq_true hs]
      rfl
    · rename_i hs
      rw [decide_eq_false hs]
      exact ih (a + 1)

theorem settleRank_toOption {j : Nat} (hj : j < z.tableSize) :
    (settleRank z states j).toOption = (FtMsg.settle (states j)).map (Function.update states j) := by
  by_cases hfail : states j = .failure
  · rw [settleRank, if_pos hj, hfail]
    rfl
  · rw [settleRank_eq hj hfail, FtMsg.settle_of_ne hfail, Option.map_some, Function.update_eq_self]
    rfl

theorem settleRange_toOption {sid n : Nat} (hsid : sid ≤ z.tableSize) :
    (settleRange z states (sid, n)).toOption = FtMsg.settleRange z states (sid, n) := by
  rw [FtMsg.settleRange]
  split
  · rename_i hfit
    have hloop : ∀ l : List Nat, (∀ j ∈ l, j < z.tableSize) → ∀ states, (l.foldlM (settleRank z) states).toOption =
        l.foldlM (fun states j => (FtMsg.settle (states j)).map (Function.update states j)) states := by
      intro l hl
      induction l with
      | nil => exact fun _ => rfl
      | cons j l ih =>
        intro states
        rw [List.foldlM_cons, List.foldlM_cons, toOption_bind, settleRank_toOption (hl j List.mem_cons_self)]
        exact congrArg (Option.bind _) (funext fun t => ih (fun i hi => hl i (List.mem_cons_of_mem _ hi)) t)
    refine hloop _ (fun j hj => ?_) states
    rw [List.mem_range'_1] at hj
    exact hj.2.trans_le hfit
  · rename_i hfit
    by_cases hfail : ∃ j, sid ≤ j ∧ j < z.tableSize ∧ states j = .failure
    · obtain ⟨j, hj, hjlt, hjf⟩ := hfail
      obtain ⟨text, htext⟩ := settleRanks_err (n := n) hj (by simp at hfit; omega) hjlt hjf
      rw [settleRange, htext]
      rfl
    · have halive : ∀ j, sid ≤ j → j < z.tableSize → states j ≠ .failure := fun j hj hjlt hjf =>
        hfail ⟨j, hj, hjlt, hjf⟩
      rw [settleRange, settleRanks_outside hsid (Nat.not_le.1 hfit) halive]
      rfl

theorem settleRanges_toOption (l : List RankRange) {sid : Nat} (hsid : sid ≤ z.tableSize) :
    ((FtMsg.electFrom sid l).foldlM (settleRange z) states).toOption =
      (FtMsg.electFrom sid l).foldlM (FtMsg.settleRange z) states := by
  induction l generalizing sid states with
  | nil => rfl
  | cons x l ih =>
    rw [FtMsg.electFrom, List.foldlM_cons, List.foldlM_cons, toOption_bind, settleRange_toOption hsid]
    cases hhead : FtMsg.settleRange z states (sid, x.2) with
    | none => rfl
    | some t =>
      rw [FtMsg.settleRange] at hhead
      split at hhead
      · rename_i hfit
        exact ih hfit
      · cases hhead

theorem reallocate_refines (σ : FtMsg) (hc : Inside z ⟨σ.failed, σ.elected.length⟩) : FtMsg.reallocate z σ =
    (reallocateStateListd z σ.states ⟨σ.failed, σ.elected.length⟩).toOption.map fun r =>
      { σ with states := r.1, elected := σ.elected ++ r.2 } := by
  have hbounds : ¬ ∃ x ∈ σ.failed, z.tableSize < x.1 + x.2 := by
    rintro ⟨x, hx, hlt⟩
    exact Nat.not_lt.2 (hc.bounds hx) hlt
  generalize hm : marked σ.states ⟨σ.failed, σ.elected.length⟩ = m
  generalize hl : σ.failed.drop σ.elected.length = l
  have hcode : reallocateStateListd z σ.states ⟨σ.failed, σ.elected.length⟩ = (searchStandby m z.tableSize 0 >>= fun sid =>
      (FtMsg.electFrom sid l).foldlM (settleRange z) m >>= fun t => .ok (t, FtMsg.electFrom sid l)) := by
    rw [reallocateStateListd, markRanges_eq fun x hx => hc.bounds hx, ← hm, ← hl]
    rfl
  have hprocess : FtMsg.reallocate z σ = ((List.range z.tableSize).find? fun j => m j = .standby).bind fun sid =>
      ((FtMsg.electFrom sid l).foldlM (FtMsg.settleRange z) m).bind fun t =>
        some { σ with states := t, elected := σ.elected ++ FtMsg.electFrom sid l } := by
    rw [FtMsg.reallocate, if_neg hbounds, ← hm, ← hl]
    rfl
  rw [hprocess, hcode, toOption_bind, searchStandby_toOption, ← List.range_eq_range']
  cases hfind : (List.range z.tableSize).find? fun j => m j = .standby with
  | none => rfl
  | some sid =>
    have hsid : sid ≤ z.tableSize := (List.mem_range.1 (List.mem_of_find?_eq_some hfind)).le
    rw [Option.bind_some, Option.bind_some, toOption_bind, settleRanges_toOption l hsid]
    cases (FtMsg.electFrom sid l).foldlM (FtMsg.settleRange z) m with
    | none => rfl
    | some t => rfl

end StateList

end Libibtl
