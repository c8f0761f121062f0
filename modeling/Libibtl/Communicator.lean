import Libibtl.Foundation.CInt

/-! # Communicators

A communicator holds the maps between virtual and physical ranks. A lookup walks
from the communicator to its master and on to the master of that one; a
communicator is modelled as the list of the levels that this walk visits, the
communicator itself first.
-/

namespace Libibtl

open Foundation

def fmiAnySource : CInt := -1
def fmiAnyTag : CInt := -1

/-- One `fdmi_communicator`. A map entry is `none` outside of the allocated array. -/
structure CommLevel where
  id : CInt
  vrank : CInt
  psize : CInt
  commSize : CInt
  rmapPtov : Int → Option CInt
  rmapVtop : Int → Option CInt

structure Communicator where
  comm : CommLevel
  masters : List CommLevel

def Communicator.id (c : Communicator) : CInt := c.comm.id

/-- `EXTRA`: the maps have room for twice the number of physical ranks. -/
def extra : CInt := 2

/-- The initial content of both maps: the identity below `commSize`, then -1. -/
def identityMap (commSize mapSize : CInt) (i : Int) : Option CInt :=
  if 0 ≤ i ∧ i < mapSize.toInt then
    some (if i < commSize.toInt then BitVec.ofInt 32 i else -1)
  else none

/-- A master covers the whole of `psize`: the function ignores its `numspare` and `numproc`. -/
def procManCommInit (id psize _numspare _numproc prank : CInt) : CommLevel where
  id := id
  vrank := if prank.slt psize then prank else -1
  psize := psize
  commSize := psize
  rmapPtov := identityMap psize (psize * extra)
  rmapVtop := identityMap psize (psize * extra)

def initCommWorld (id : CInt) (master : CommLevel) : Communicator where
  comm :=
    { id := id, vrank := master.vrank, psize := master.psize, commSize := master.commSize
      rmapPtov := identityMap master.commSize (master.psize * extra)
      rmapVtop := identityMap master.commSize (master.psize * extra) }
  masters := [master]

/-- The `psize` with which `fdmi_init_proc_man` calls `fdmi_proc_man_init`. -/
def procManSize : CInt := 1024 * 1024

/-- `fdmi_comm_master_elect`, the third communicator that `fdmi_proc_man_init` makes. -/
def commMasterElect : CommLevel := procManCommInit 2 procManSize 0 1 0

/-- `FMI_COMM_WORLD`, made from the elect master after the three masters. -/
def fmiCommWorld : Communicator := initCommWorld 3 commMasterElect

/-- Translate one level after the other; `none` when a map is read out of bounds. -/
def vtopWalk : List CommLevel → CInt → Option CInt
  | [], rank => some rank
  | level :: masters, rank => (level.rmapVtop rank.toInt).bind (vtopWalk masters)

def commGetPrank (c : Communicator) (vrank : CInt) : Option CInt :=
  if vrank = -1 then some vrank else vtopWalk (c.comm :: c.masters) vrank

theorem identityMap_of_lt {commSize mapSize rank : CInt} (h0 : 0 ≤ rank.toInt)
    (h : rank.toInt < commSize.toInt) (hle : commSize.toInt ≤ mapSize.toInt) :
    identityMap commSize mapSize rank.toInt = some rank := by
  rw [identityMap, if_pos ⟨h0, by omega⟩, if_pos h, BitVec.ofInt_toInt]

theorem commGetPrank_anySource (c : Communicator) : commGetPrank c fmiAnySource = some fmiAnySource :=
  if_pos rfl

end Libibtl
