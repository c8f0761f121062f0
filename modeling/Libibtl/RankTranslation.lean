import Libibtl.Communicator

/-! # Rank translation

A communicator that a program can get is made from one of three masters, directly or
by duplication. Towards the physical ranks the walk starts at the communicator, towards
the virtual ranks it starts at the master; but the second walk takes the caller's own
physical rank and not its argument.
-/

namespace Libibtl

open Foundation

/-- The three masters of `fdmi_proc_man_init`. -/
structure Masters where
  ignore : CommLevel
  exclude : CommLevel
  elect : CommLevel

/-- The communicators that `fdmi_proc_man_init` makes; `id` is the value of `comm_id_counter`. -/
def procManInit (id psize numspare numproc prank : CInt) : Masters where
  ignore := procManCommInit id psize 0 numproc prank
  exclude := procManCommInit (id + 1) psize numspare numproc prank
  elect := procManCommInit (id + 2) psize numspare numproc prank

/-- `fdmi_verbs_comm_dup`: the same master and copies of both maps. -/
def commDup (id : CInt) (c : Communicator) : Communicator := { c with comm := { c.comm with id := id } }

/-- The communicators that the program can get. -/
inductive Obtained (m : Masters) : Communicator → Prop
  | ignore (id : CInt) : Obtained m (initCommWorld id m.ignore)
  | exclude (id : CInt) : Obtained m (initCommWorld id m.exclude)
  | elect (id : CInt) : Obtained m (initCommWorld id m.elect)
  | dup {c : Communicator} (id : CInt) (h : Obtained m c) : Obtained m (commDup id c)

/-- From the last master down to the communicator; `none` when a map is read out of bounds. -/
def ptovWalk : List CommLevel → CInt → Option CInt
  | [], rank => some rank
  | level :: masters, rank => (ptovWalk masters rank).bind fun r => level.rmapPtov r.toInt

/-- `fdmi_comm_get_vrank` in the process with the physical rank `fdmiPrank`. The argument is not used. -/
def commGetVrank (fdmiPrank : CInt) (c : Communicator) (_prank : CInt) : Option CInt :=
  ptovWalk (c.comm :: c.masters) fdmiPrank

/-- The tables of `fdmi_proc_man_init` have `psize * EXTRA` entries, and the product is an `int`. -/
def ProcManAccepts (psize : CInt) : Prop := 0 ≤ psize.toInt ∧ psize.toInt * 2 < 2 ^ 31

instance (psize : CInt) : Decidable (ProcManAccepts psize) := inferInstanceAs (Decidable (_ ∧ _))

section

variable {id psize numspare numproc prank : CInt} {c : Communicator}

theorem toInt_mul_extra (h : ProcManAccepts psize) : (psize * extra).toInt = psize.toInt * 2 := by
  have hextra : extra.toInt = 2 := by decide
  obtain ⟨h0, hlt⟩ := h
  rw [BitVec.toInt_mul, hextra, Int.bmod_eq_of_le] <;> omega

theorem ProcManAccepts.le_mapSize (h : ProcManAccepts psize) : psize.toInt ≤ (psize * extra).toInt := by
  have hnonneg := h.1
  rw [toInt_mul_extra h]
  omega

/-- The maps of a communicator that was made without failures. -/
def IdentityMaps (psize : CInt) (level : CommLevel) : Prop :=
  level.rmapPtov = identityMap psize (psize * extra) ∧ level.rmapVtop = identityMap psize (psize * extra)

theorem Obtained.levels (h : Obtained (procManInit id psize numspare numproc prank) c) :
    c.comm.commSize = psize ∧ IdentityMaps psize c.comm ∧ ∃ master, c.masters = [master] ∧ IdentityMaps psize master := by
  induction h with
  | ignore id => exact ⟨rfl, ⟨rfl, rfl⟩, _, rfl, rfl, rfl⟩
  | exclude id => exact ⟨rfl, ⟨rfl, rfl⟩, _, rfl, rfl, rfl⟩
  | elect id => exact ⟨rfl, ⟨rfl, rfl⟩, _, rfl, rfl, rfl⟩
  | dup id _ ih => exact ih

/-- An entry of the initial map is its own index, or -1. -/
theorem identityMap_eq_some {commSize mapSize : CInt} {i : Int} {r : CInt} (h : identityMap commSize mapSize i = some r) :
    i = r.toInt ∧ 0 ≤ r.toInt ∧ r.toInt < commSize.toInt ∨ r = -1 := by
  have hsize := commSize.toInt_lt
  rw [identityMap] at h
  split at h
  · rename_i hi
    split at h
    · rename_i hlt
      obtain rfl := Option.some.inj h
      have hi' : (BitVec.ofInt 32 i).toInt = i := by
        rw [BitVec.toInt_ofInt, Int.bmod_eq_of_le] <;> omega
      exact .inl ⟨hi'.symm, by omega, by omega⟩
    · exact .inr (Option.some.inj h).symm
  · cases h

theorem identityMap_of_neg {commSize mapSize : CInt} {i : Int} (h : i < 0) : identityMap commSize mapSize i = none :=
  if_neg fun hi => absurd hi.1 (Int.not_le.mpr h)

theorem Obtained.commGetPrank_eq (h : Obtained (procManInit id psize numspare numproc prank) c)
    (hsize : ProcManAccepts psize) {v : CInt} (h0 : 0 ≤ v.toInt) (hlt : v.toInt < psize.toInt) :
    commGetPrank c v = some v := by
  obtain ⟨-, hcomm, master, hmasters, hmaster⟩ := h.levels
  have hlevel := identityMap_of_lt h0 hlt hsize.le_mapSize
  rw [commGetPrank]
  split
  · rename_i heq
    rw [heq]
  · rw [hmasters, vtopWalk, hcomm.2, hlevel, Option.bind_some, vtopWalk, hmaster.2, hlevel, Option.bind_some, vtopWalk]

/-- The walk towards the virtual ranks gives the own physical rank, whatever the argument is. -/
theorem Obtained.commGetVrank_eq_some_iff (h : Obtained (procManInit id psize numspare numproc prank) c)
    (hsize : ProcManAccepts psize) (p : CInt) {v : CInt} :
    commGetVrank prank c p = some v ↔ v = prank ∧ 0 ≤ v.toInt ∧ v.toInt < psize.toInt := by
  obtain ⟨-, hcomm, master, hmasters, hmaster⟩ := h.levels
  have hle := hsize.le_mapSize
  rw [commGetVrank, hmasters, ptovWalk, ptovWalk, ptovWalk, Option.bind_some, hcomm.1, hmaster.1]
  constructor
  · intro hwalk
    obtain ⟨r, hr, hv⟩ := Option.bind_eq_some_iff.mp hwalk
    rcases identityMap_eq_some hr with ⟨heq, h0, hlt⟩ | rfl
    · rw [identityMap_of_lt h0 hlt hle] at hv
      obtain rfl := Option.some.inj hv
      exact ⟨(BitVec.eq_of_toInt_eq heq).symm, h0, hlt⟩
    · rw [identityMap_of_neg (by decide)] at hv
      cases hv
  · rintro ⟨rfl, h0, hlt⟩
    have hlevel := identityMap_of_lt h0 hlt hle
    rw [hlevel, Option.bind_some, hlevel]

/-- The two translations are inverse to each other exactly at the own rank of the caller. -/
theorem rank_round_trip_iff (h : Obtained (procManInit id psize numspare numproc prank) c)
    (hsize : ProcManAccepts psize) {v : CInt} (h0 : 0 ≤ v.toInt) (hlt : v.toInt < c.comm.commSize.toInt) :
    ((commGetPrank c v).bind (commGetVrank prank c) = some v ↔ v = prank) ∧
    ∀ p, commGetPrank c v = some p → ((commGetVrank prank c p).bind (commGetPrank c) = some p ↔ p = prank) := by
  rw [h.levels.1] at hlt
  have hprank := h.commGetPrank_eq hsize h0 hlt
  constructor
  · rw [hprank, Option.bind_some, h.commGetVrank_eq_some_iff hsize]
    exact and_iff_left ⟨h0, hlt⟩
  · intro p hp
    rw [hprank] at hp
    obtain rfl := Option.some.inj hp
    constructor
    · intro hback
      obtain ⟨w, hw, hwp⟩ := Option.bind_eq_some_iff.mp hback
      obtain ⟨rfl, hw0, hwlt⟩ := (h.commGetVrank_eq_some_iff hsize _).1 hw
      rw [h.commGetPrank_eq hsize hw0 hwlt] at hwp
      exact (Option.some.inj hwp).symm
    · intro heq
      rw [(h.commGetVrank_eq_some_iff hsize _).2 ⟨heq, h0, hlt⟩, Option.bind_some, hprank]

end

/-- With 16 ranks, rank 3 translates itself, through a copy of the communicator that excludes the spares. -/
theorem rank_round_trip_three :
    (commGetPrank (commDup 4 (initCommWorld 3 (procManInit 0 16 2 2 3).exclude)) 3).bind
      (commGetVrank 3 (commDup 4 (initCommWorld 3 (procManInit 0 16 2 2 3).exclude))) = some 3 :=
  (rank_round_trip_iff (.dup 4 (.exclude 3)) (by decide) (by decide) (by decide)).1.2 rfl

/-- Of two ranks, rank 0 asks for the virtual rank of physical rank 1 and gets 0. -/
theorem rank_round_trip_own :
    let c := initCommWorld 3 (procManInit 0 2 0 1 0).elect
    commGetPrank c 1 = some 1 ∧ commGetVrank 0 c 1 = some 0 ∧ commGetPrank c 0 = some 0 := by
  decide

end Libibtl
