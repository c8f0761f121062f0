import Libibtl.Ibio.Routing
import Libibtl.Ibio.Table

/-! # An open that fails

The descriptor of a reply is an `int` and indexes a table on each side. Nothing
tests it, although a close that fails leaves the table of the server alone. The
memory around a table is indexed by the distance from its first element.
-/

namespace Libibtl.Ibio

open Foundation

/-- A store of `length` bytes at a distance from the first byte of `open_info`. -/
structure Store where
  start : Int
  value : Buffer
  length : Nat

namespace Store

def apply (s : Store) (m : Int → Byte) : Int → Byte :=
  fun a => if s.start ≤ a ∧ a < s.start + s.length then s.value (a - s.start).toNat else m a

def InBounds (s : Store) (size : Nat) : Prop := 0 ≤ s.start ∧ s.start + s.length ≤ size

theorem apply_of_lt {s : Store} {m : Int → Byte} {a : Int} (h : s.start + s.length ≤ a) : s.apply m a = m a := by
  rw [apply, if_neg]
  omega

end Store

/-- `open_info[fd].f = v` with an `int` index. -/
def entryStore (fd : CInt) (f : Field) (v : Buffer) : Store := ⟨fd.toInt * sizeofSopenInfo + f.offset, v, f.size⟩

/-- The stores of `ibvio_sopen` after `open` has returned `fd`, in their order. -/
def sopenStores (fd : CInt) (fileInfo : UInt64T) (mutex : Buffer) : List Store :=
  [entryStore fd .fd (Table.bytesOf (uint64OfInt fd)), entryStore fd .fileInfo (Table.bytesOf fileInfo),
    entryStore fd .writeCount (Table.bytesOf 0), entryStore fd .currentWriteCount (Table.bytesOf 0),
    entryStore fd .fastmutex mutex, entryStore fd .currentRecvSize (Table.bytesOf 0)]

/-- The memory around `open_info` on the server, and `host_ids` with its surroundings on the client. -/
structure OpenTables where
  openInfo : Int → Byte
  hostIds : Int → CInt
  nextHostId : CInt

/-- The tables after a remote open, with the stores to `open_info`, the index into `host_ids` and the result. -/
structure OpenOutcome where
  tables : OpenTables
  stores : List Store
  index : Int
  returned : CInt

/-- `ibvio_sopen` and the rest of `ibtl_open`, when `open` returns `fd`. -/
def remoteOpen (σ : OpenTables) (fd : CInt) (fileInfo : UInt64T) (mutex : Buffer) : OpenOutcome where
  tables :=
    { openInfo := (sopenStores fd fileInfo mutex).foldl (fun m s => s.apply m) σ.openInfo
      hostIds := Function.update σ.hostIds fd.toInt σ.nextHostId
      nextHostId := σ.nextHostId + 1 }
  stores := sopenStores fd fileInfo mutex
  index := fd.toInt
  returned := fd

/-- The bytes of `open_info`. -/
def openInfoSize : Nat := maxFileOpen * sizeofSopenInfo

/-- What a failed open should come to. -/
structure ChangesNothing (σ : OpenTables) (o : OpenOutcome) : Prop where
  openInfo : ∀ a : Int, 0 ≤ a → a < openInfoSize → o.tables.openInfo a = σ.openInfo a
  hostIds : ∀ i : Int, 0 ≤ i → i < maxHostIds → o.tables.hostIds i = σ.hostIds i
  openInfoBounds : ∀ s ∈ o.stores, s.InBounds openInfoSize
  hostIdsBounds : 0 ≤ o.index ∧ o.index < maxHostIds
  returned : o.returned = -1

section Stores

variable {fd : CInt} {fileInfo : UInt64T} {mutex : Buffer} {s : Store}

theorem exists_field (h : s ∈ sopenStores fd fileInfo mutex) : ∃ f v, s = entryStore fd f v := by
  simp only [sopenStores, List.mem_cons, List.not_mem_nil, or_false] at h
  obtain rfl | rfl | rfl | rfl | rfl | rfl := h
  all_goals exact ⟨_, _, rfl⟩

/-- A store stays in the table exactly when the index does. -/
theorem entryStore_inBounds_iff (f : Field) (v : Buffer) :
    (entryStore fd f v).InBounds openInfoSize ↔ 0 ≤ fd.toInt ∧ fd.toInt < maxFileOpen := by
  have hend := f.offset_add_size_le
  have hsize : (0 : Int) < sizeofSopenInfo := by decide
  have hpos : 0 < f.size := by cases f <;> decide
  rw [Store.InBounds, entryStore, openInfoSize]
  push_cast
  constructor
  · rintro ⟨hlow, hhigh⟩
    constructor
    · refine Int.not_lt.1 fun hneg => ?_
      have hle : fd.toInt * sizeofSopenInfo ≤ -1 * sizeofSopenInfo := Int.mul_le_mul_of_nonneg_right (by omega) hsize.le
      omega
    · refine Int.not_le.1 fun hle => ?_
      have hmul : (maxFileOpen : Int) * sizeofSopenInfo ≤ fd.toInt * sizeofSopenInfo :=
        Int.mul_le_mul_of_nonneg_right hle hsize.le
      omega
  · rintro ⟨hlow, hhigh⟩
    have hmul : 0 ≤ fd.toInt * sizeofSopenInfo := Int.mul_nonneg hlow hsize.le
    have hmul' : (fd.toInt + 1) * sizeofSopenInfo ≤ (maxFileOpen : Int) * sizeofSopenInfo :=
      Int.mul_le_mul_of_nonneg_right (by omega) hsize.le
    rw [Int.add_mul, Int.one_mul] at hmul'
    omega

theorem apply_entryStore {n : Nat} (hn : n < 2 ^ 31) (m : Int → Byte) (f : Field) (v : Buffer) :
    (fun a : Nat => (entryStore (BitVec.ofNat 32 n) f v).apply m a) = Table.put (fun a => m a) n f v := by
  obtain ⟨k, hk⟩ : ∃ k : Nat, k = n * sizeofSopenInfo + f.offset := ⟨_, rfl⟩
  have hstart : (n : Int) * sizeofSopenInfo + f.offset = k := by
    rw [hk]
    push_cast
    rfl
  funext a
  simp only [Store.apply, entryStore, toInt_ofNat_of_lt hn, Table.put, memcpy, Table.addr, ← hk, hstart]
  by_cases ha : k ≤ a ∧ a < k + f.size
  · rw [if_pos ha, if_pos (by omega)]
    congr 1
    omega
  · rw [if_neg ha, if_neg (by omega)]

/-- Where the index is one of the table, the stores are what the handler does to the table. -/
theorem sopenStores_eq_run {n : Nat} (hn : n < 2 ^ 31) (m : Int → Byte) :
    (fun a : Nat => (sopenStores (BitVec.ofNat 32 n) fileInfo mutex).foldl (fun m s => s.apply m) m a) =
      Handler.run n (fun a => m a) (.sopen fileInfo mutex) := by
  simp only [sopenStores, List.foldl_cons, List.foldl_nil, apply_entryStore hn, Handler.run, uint64OfInt_ofNat hn]

/-- Stores below the table leave it as it was. -/
theorem foldl_apply_of_below {l : List Store} (h : ∀ s ∈ l, s.start + s.length ≤ 0) (m : Int → Byte) {a : Int} (ha : 0 ≤ a) :
    l.foldl (fun m s => s.apply m) m a = m a := by
  induction l generalizing m with
  | nil => rfl
  | cons s l ih =>
    rw [List.foldl_cons, ih (fun s hs => h s (List.mem_cons_of_mem _ hs))]
    exact Store.apply_of_lt ((h s List.mem_cons_self).trans ha)

end Stores

/-- Whatever the tables hold, a failed open stores six members of `open_info[-1]` and `host_ids[-1]`. -/
theorem failed_open_out_of_bounds (σ : OpenTables) (fileInfo : UInt64T) (mutex : Buffer) :
    ¬ ChangesNothing σ (remoteOpen σ (-1) fileInfo mutex) ∧
      (∀ s ∈ (remoteOpen σ (-1) fileInfo mutex).stores, -(sizeofSopenInfo : Int) ≤ s.start ∧ s.start + s.length ≤ 0) ∧
      (remoteOpen σ (-1) fileInfo mutex).index = -1 ∧
      (remoteOpen σ (-1) fileInfo mutex).tables.hostIds (-1) = σ.nextHostId ∧
      (∀ a : Int, 0 ≤ a → (remoteOpen σ (-1) fileInfo mutex).tables.openInfo a = σ.openInfo a) ∧
      (∀ i : Int, 0 ≤ i → (remoteOpen σ (-1) fileInfo mutex).tables.hostIds i = σ.hostIds i) ∧
      (remoteOpen σ (-1) fileInfo mutex).returned = -1 := by
  have hindex : (-1 : CInt).toInt = -1 := by decide
  have hbelow : ∀ s ∈ sopenStores (-1) fileInfo mutex, -(sizeofSopenInfo : Int) ≤ s.start ∧ s.start + s.length ≤ 0 := by
    intro s hs
    obtain ⟨f, v, rfl⟩ := exists_field hs
    have hend := f.offset_add_size_le
    simp only [entryStore, hindex]
    omega
  refine ⟨fun h => ?_, hbelow, hindex, ?_, fun a ha => foldl_apply_of_below (fun s hs => (hbelow s hs).2) _ ha,
    fun i hi => ?_, rfl⟩
  · have hbounds : (0 : Int) ≤ (-1 : CInt).toInt := h.hostIdsBounds.1
    rw [hindex] at hbounds
    exact absurd hbounds (by decide)
  · change Function.update σ.hostIds (-1 : CInt).toInt σ.nextHostId (-1) = _
    rw [hindex, Function.update_self]
  · refine Function.update_of_ne ?_ ..
    rw [hindex]
    omega

/-- The first open of a client, refused by the host. -/
theorem first_open_refused :
    ¬ ChangesNothing ⟨fun _ => 0, fun _ => 0, 0⟩ (remoteOpen ⟨fun _ => 0, fun _ => 0, 0⟩ (-1) 4096 fun _ => 0) := by
  intro h
  exact absurd h.hostIdsBounds.1 (by decide)

end Libibtl.Ibio
