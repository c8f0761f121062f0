import Libibtl.Foundation.Relocation
import Libibtl.RankTranslation

/-! # Replacing failed ranks in the world communicator

`fdmi_update_comm_world` takes the whole list of failed and elected ranges that a process
knows. It works on the master of the elect communicators only, and -2 marks a physical
rank that failed.
-/

namespace Libibtl

open Foundation

/-- One entry of the four arrays that `fdmi_update_comm_world` takes. -/
structure Replacement where
  failedOffset : CInt
  failedRange : CInt
  electedOffset : CInt
  electedRange : CInt
  deriving DecidableEq, Repr

/-- The body of the inner loop; `none` when a map is accessed out of bounds. -/
def replaceRank (c : CommLevel) (f e : CInt) : Option CommLevel := do
  let vrank ← c.rmapPtov f.toInt
  if vrank = -2 then return c
  let _ ← c.rmapVtop vrank.toInt
  let _ ← c.rmapPtov e.toInt
  return { c with
    rmapVtop := Function.update c.rmapVtop vrank.toInt (some e)
    rmapPtov := Function.update (Function.update c.rmapPtov e.toInt (some vrank)) f.toInt (some (-2)) }

/-- The inner loop, which needs one turn for every failed rank. -/
def replaceLoop : Nat → CommLevel → CInt → CInt → CInt → CInt → Option CommLevel
  | 0, c, _, _, _, _ => some c
  | fuel + 1, c, f, e, fEnd, eEnd =>
    if f.slt fEnd ∧ e.slt eEnd then (replaceRank c f e).bind (replaceLoop fuel · (f + 1) (e + 1) fEnd eEnd)
    else some c

def replaceEntry (c : CommLevel) (x : Replacement) : Option CommLevel :=
  let fEnd := x.failedOffset + x.failedRange
  replaceLoop (fEnd.toInt - x.failedOffset.toInt).toNat c x.failedOffset x.electedOffset fEnd
    (x.electedOffset + x.electedRange)

/-- `fdmi_update_comm_world` in the process with the physical rank `fdmiPrank`. -/
def updateCommWorld (fdmiPrank : CInt) (c : CommLevel) (l : List Replacement) : Option CommLevel := do
  let c ← l.foldlM replaceEntry c
  let vrank ← c.rmapPtov fdmiPrank.toInt
  return { c with vrank := vrank }

/-! ## Ranges -/

/-- A rank below `psize`. -/
def IsRank (psize r : CInt) : Prop := 0 ≤ r.toInt ∧ r.toInt < psize.toInt

instance (psize r : CInt) : Decidable (IsRank psize r) := inferInstanceAs (Decidable (_ ∧ _))

/-- Both ranges are ranges of ranks below `psize`, of the same length. -/
structure Replacement.InBounds (psize : CInt) (x : Replacement) : Prop where
  failedOffset : 0 ≤ x.failedOffset.toInt
  electedOffset : 0 ≤ x.electedOffset.toInt
  range : 0 ≤ x.failedRange.toInt
  failed : x.failedOffset.toInt + x.failedRange.toInt ≤ psize.toInt
  elected : x.electedOffset.toInt + x.failedRange.toInt ≤ psize.toInt
  length : x.electedRange = x.failedRange

instance (psize : CInt) (x : Replacement) : Decidable (x.InBounds psize) :=
  decidable_of_iff (0 ≤ x.failedOffset.toInt ∧ 0 ≤ x.electedOffset.toInt ∧ 0 ≤ x.failedRange.toInt ∧
      x.failedOffset.toInt + x.failedRange.toInt ≤ psize.toInt ∧
      x.electedOffset.toInt + x.failedRange.toInt ≤ psize.toInt ∧ x.electedRange = x.failedRange)
    ⟨fun ⟨h₁, h₂, h₃, h₄, h₅, h₆⟩ => ⟨h₁, h₂, h₃, h₄, h₅, h₆⟩, fun ⟨h₁, h₂, h₃, h₄, h₅, h₆⟩ => ⟨h₁, h₂, h₃, h₄, h₅, h₆⟩⟩

def rankPairs : Nat → CInt → CInt → List (CInt × CInt)
  | 0, _, _ => []
  | k + 1, f, e => (f, e) :: rankPairs k (f + 1) (e + 1)

/-- The failed ranks with the ranks that are elected for them, in the order of the loop. -/
def Replacement.pairs (x : Replacement) : List (CInt × CInt) :=
  rankPairs x.failedRange.toNat x.failedOffset x.electedOffset

section

variable {psize : CInt}

theorem toInt_succ_of_lt {a b : CInt} (h : a.toInt < b.toInt) : (a + 1).toInt = a.toInt + 1 := by
  have hone : (1 : CInt).toInt = 1 := by decide
  have hb := b.toInt_lt
  have ha := a.le_toInt
  rw [BitVec.toInt_add, hone, Int.bmod_eq_of_le] <;> omega

theorem toInt_add_of_le {a b c : CInt} (ha : 0 ≤ a.toInt) (hb : 0 ≤ b.toInt) (h : a.toInt + b.toInt ≤ c.toInt) :
    (a + b).toInt = a.toInt + b.toInt := by
  have hc := c.toInt_lt
  rw [BitVec.toInt_add, Int.bmod_eq_of_le] <;> omega

/-- The loop over two ranges of the same length takes them pair by pair. -/
theorem replaceLoop_eq {k : Nat} {c : CommLevel} {f e fEnd eEnd : CInt} (hf : fEnd.toInt = f.toInt + k)
    (he : eEnd.toInt = e.toInt + k) :
    replaceLoop k c f e fEnd eEnd = (rankPairs k f e).foldlM (fun c x => replaceRank c x.1 x.2) c := by
  induction k generalizing c f e with
  | zero => rfl
  | succ k ih =>
    have hflt : f.toInt < fEnd.toInt := by omega
    have helt : e.toInt < eEnd.toInt := by omega
    rw [replaceLoop, if_pos ⟨BitVec.slt_iff_toInt_lt.mpr hflt, BitVec.slt_iff_toInt_lt.mpr helt⟩, rankPairs,
      List.foldlM_cons]
    refine congrArg _ (funext fun c' => ih ?_ ?_)
    · rw [toInt_succ_of_lt hflt]
      omega
    · rw [toInt_succ_of_lt helt]
      omega

theorem Replacement.InBounds.entry_eq {x : Replacement} (h : x.InBounds psize) (c : CommLevel) :
    replaceEntry c x = x.pairs.foldlM (fun c x => replaceRank c x.1 x.2) c := by
  have hfEnd := toInt_add_of_le h.failedOffset h.range h.failed
  have heEnd := toInt_add_of_le h.electedOffset h.range h.elected
  have hnat : (x.failedRange.toNat : Int) = x.failedRange.toInt := (toInt_eq_toNat_of_nonneg h.range).symm
  have hfuel : ((x.failedOffset + x.failedRange).toInt - x.failedOffset.toInt).toNat = x.failedRange.toNat := by
    omega
  rw [replaceEntry, hfuel, h.length]
  refine replaceLoop_eq ?_ ?_
  · rw [hfEnd, hnat]
  · rw [heEnd, hnat]

theorem isRank_of_mem_rankPairs {k : Nat} {f e : CInt} (hf : 0 ≤ f.toInt) (he : 0 ≤ e.toInt)
    (hfk : f.toInt + k ≤ psize.toInt) (hek : e.toInt + k ≤ psize.toInt) {x : CInt × CInt}
    (hx : x ∈ rankPairs k f e) : IsRank psize x.1 ∧ IsRank psize x.2 := by
  induction k generalizing f e with
  | zero => cases hx
  | succ k ih =>
    have hflt : f.toInt < psize.toInt := by omega
    have helt : e.toInt < psize.toInt := by omega
    rcases List.mem_cons.1 hx with rfl | hx
    · exact ⟨⟨hf, hflt⟩, he, helt⟩
    · have hfs := toInt_succ_of_lt hflt
      have hes := toInt_succ_of_lt helt
      exact ih (by omega) (by omega) (by omega) (by omega) hx

theorem Replacement.InBounds.isRank {x : Replacement} (h : x.InBounds psize) {y : CInt × CInt} (hy : y ∈ x.pairs) :
    IsRank psize y.1 ∧ IsRank psize y.2 := by
  have hnat : (x.failedRange.toNat : Int) = x.failedRange.toInt := (toInt_eq_toNat_of_nonneg h.range).symm
  refine isRank_of_mem_rankPairs h.failedOffset h.electedOffset ?_ ?_ hy
  · rw [hnat]
    exact h.failed
  · rw [hnat]
    exact h.elected

/-! ## The tables against the placement of names -/

/-- The tables of `c` are those of `c₀` where no rank below `psize` is concerned, and below `psize` they hold `m`. -/
structure Represents (psize : CInt) (c₀ : CommLevel) (m : Placement CInt) (c : CommLevel) : Prop where
  frame : c.id = c₀.id ∧ c.psize = c₀.psize ∧ c.commSize = c₀.commSize
  ptov : ∀ r, IsRank psize r → c.rmapPtov r.toInt = some ((m.name r).getD (-2))
  vtop : ∀ r, IsRank psize r → c.rmapVtop r.toInt = some (m.place r)
  outside : ∀ i, ¬ (0 ≤ i ∧ i < psize.toInt) → c.rmapPtov i = c₀.rmapPtov i ∧ c.rmapVtop i = c₀.rmapVtop i
  name : ∀ r v, IsRank psize r → m.name r = some v → IsRank psize v
  place : ∀ r, IsRank psize r → IsRank psize (m.place r)

variable {c₀ c c' : CommLevel} {m : Placement CInt}

theorem IsRank.ne_mark {r : CInt} (h : IsRank psize r) : r ≠ -2 := by
  rintro rfl
  exact absurd h.1 (by decide)

theorem update_toInt {f : Int → Option CInt} {r q v : CInt} :
    Function.update f r.toInt (some v) q.toInt = if q = r then some v else f q.toInt := by
  rw [Function.update_apply]
  exact if_congr BitVec.toInt_inj rfl rfl

theorem update_toInt_outside {f : Int → Option CInt} {r v : CInt} (h : IsRank psize r) {i : Int}
    (hi : ¬ (0 ≤ i ∧ i < psize.toInt)) : Function.update f r.toInt (some v) i = f i := by
  refine Function.update_of_ne ?_ ..
  rintro rfl
  exact hi h

theorem replaceRank_of_mark {f e : CInt} (hf : c.rmapPtov f.toInt = some (-2)) : replaceRank c f e = some c := by
  rw [replaceRank, hf]
  rfl

theorem replaceRank_of_name {f e v w u : CInt} (hf : c.rmapPtov f.toInt = some v) (hne : v ≠ -2)
    (hv : c.rmapVtop v.toInt = some w) (he : c.rmapPtov e.toInt = some u) :
    replaceRank c f e = some { c with
      rmapVtop := Function.update c.rmapVtop v.toInt (some e)
      rmapPtov := Function.update (Function.update c.rmapPtov e.toInt (some v)) f.toInt (some (-2)) } := by
  rw [replaceRank, hf, Option.bind_eq_bind, Option.bind_some, if_neg hne, hv, he]
  rfl

/-- One turn of the inner loop is one replacement. -/
theorem Represents.replaceRank (h : Represents psize c₀ m c) {f e : CInt} (hf : IsRank psize f) (he : IsRank psize e) :
    ∃ c', Libibtl.replaceRank c f e = some c' ∧ Represents psize c₀ (m.replace (f, e)) c' := by
  cases hname : m.name f with
  | none =>
    refine ⟨c, replaceRank_of_mark ?_, ?_⟩
    · rw [h.ptov f hf, hname]
      rfl
    · rwa [Placement.replace_of_none hname]
  | some v =>
    have hv := h.name f v hf hname
    have hat := Placement.replace_name (x := (f, e)) hname
    have hon := Placement.replace_place (x := (f, e)) hname
    have hf' : c.rmapPtov f.toInt = some v := by
      rw [h.ptov f hf, hname]
      rfl
    refine ⟨_, replaceRank_of_name hf' hv.ne_mark (h.vtop v hv) (h.ptov e he), ?_⟩
    refine ⟨h.frame, fun r hr => ?_, fun r hr => ?_, fun i hi => ?_, fun r w hr hw => ?_, fun r hr => ?_⟩
    · simp only [update_toInt, hat, h.ptov r hr]
      split
      · rfl
      · split
        · rfl
        · rfl
    · simp only [update_toInt, hon, h.vtop r hr]
      split
      · rfl
      · rfl
    · simp only [update_toInt_outside hf hi, update_toInt_outside he hi, update_toInt_outside hv hi]
      exact h.outside i hi
    · rw [hat] at hw
      split at hw
      · cases hw
      · split at hw
        · obtain rfl := Option.some.inj hw
          exact hv
        · exact h.name r w hr hw
    · rw [hon]
      split
      · exact he
      · exact h.place r hr

theorem Represents.pairs {l : List (CInt × CInt)} (h : Represents psize c₀ m c)
    (hl : ∀ x ∈ l, IsRank psize x.1 ∧ IsRank psize x.2) :
    ∃ c', l.foldlM (fun c x => Libibtl.replaceRank c x.1 x.2) c = some c' ∧ Represents psize c₀ (m.replaceAll l) c' := by
  induction l generalizing c m with
  | nil => exact ⟨c, rfl, h⟩
  | cons x l ih =>
    have hx := hl x (List.mem_cons_self ..)
    obtain ⟨c₁, hc₁, h₁⟩ := h.replaceRank hx.1 hx.2
    obtain ⟨c₂, hc₂, h₂⟩ := ih h₁ fun y hy => hl y (List.mem_cons_of_mem _ hy)
    refine ⟨c₂, ?_, h₂⟩
    rw [List.foldlM_cons, hc₁]
    exact hc₂

theorem Represents.entries {l : List Replacement} (h : Represents psize c₀ m c) (hl : ∀ x ∈ l, x.InBounds psize) :
    ∃ c', l.foldlM replaceEntry c = some c' ∧ Represents psize c₀ (m.replaceAll (l.flatMap Replacement.pairs)) c' := by
  induction l generalizing c m with
  | nil => exact ⟨c, rfl, h⟩
  | cons x l ih =>
    have hx := hl x (List.mem_cons_self ..)
    obtain ⟨c₁, hc₁, h₁⟩ := h.pairs fun y hy => hx.isRank hy
    obtain ⟨c₂, hc₂, h₂⟩ := ih h₁ fun y hy => hl y (List.mem_cons_of_mem _ hy)
    refine ⟨c₂, ?_, ?_⟩
    · rw [List.foldlM_cons, hx.entry_eq, hc₁]
      exact hc₂
    · rw [List.flatMap_cons, Placement.replaceAll_append]
      exact h₂

/-- The tables are determined by what they represent. -/
theorem Represents.maps_eq (h : Represents psize c₀ m c) (h' : Represents psize c₀ m c') :
    c.rmapPtov = c'.rmapPtov ∧ c.rmapVtop = c'.rmapVtop := by
  have heq : ∀ i, c.rmapPtov i = c'.rmapPtov i ∧ c.rmapVtop i = c'.rmapVtop i := by
    intro i
    by_cases hi : 0 ≤ i ∧ i < psize.toInt
    · have hsize := psize.toInt_lt
      have hi' : (BitVec.ofInt 32 i).toInt = i := by
        rw [BitVec.toInt_ofInt, Int.bmod_eq_of_le] <;> omega
      have hr : IsRank psize (BitVec.ofInt 32 i) := by rwa [IsRank, hi']
      rw [← hi', h.ptov _ hr, h'.ptov _ hr, h.vtop _ hr, h'.vtop _ hr]
      exact ⟨rfl, rfl⟩
    · rw [(h.outside i hi).1, (h'.outside i hi).1, (h.outside i hi).2, (h'.outside i hi).2]
      exact ⟨rfl, rfl⟩
  exact ⟨funext fun i => (heq i).1, funext fun i => (heq i).2⟩

theorem Represents.updateCommWorld (h : Represents psize c₀ m c) {l : List Replacement}
    (hl : ∀ x ∈ l, x.InBounds psize) {prank : CInt} (hc' : Libibtl.updateCommWorld prank c l = some c') :
    Represents psize c₀ (m.replaceAll (l.flatMap Replacement.pairs)) c' ∧ c'.rmapPtov prank.toInt = some c'.vrank := by
  obtain ⟨c₁, hc₁, h₁⟩ := h.entries hl
  simp only [Libibtl.updateCommWorld, hc₁, Option.bind_eq_bind, Option.bind_some, Option.bind_eq_some_iff] at hc'
  obtain ⟨v, hv, hc'⟩ := hc'
  obtain rfl := Option.some.inj hc'
  exact ⟨⟨h₁.frame, h₁.ptov, h₁.vtop, h₁.outside, h₁.name, h₁.place⟩, hv⟩

/-- The master that `fdmi_proc_man_init` makes. -/
theorem represents_elect (hsize : ProcManAccepts psize) (id numspare numproc prank : CInt) :
    Represents psize (procManInit id psize numspare numproc prank).elect .initial
      (procManInit id psize numspare numproc prank).elect where
  frame := ⟨rfl, rfl, rfl⟩
  ptov r hr := identityMap_of_lt hr.1 hr.2 hsize.le_mapSize
  vtop r hr := identityMap_of_lt hr.1 hr.2 hsize.le_mapSize
  outside _ _ := ⟨rfl, rfl⟩
  name r v hr hv := by
    obtain rfl := Option.some.inj hv
    exact hr
  place _ hr := hr

theorem Represents.calls (h : Represents psize c₀ m c) {calls : List (List Replacement)}
    (hl : ∀ x ∈ calls.flatten, x.InBounds psize) {prank : CInt}
    (hc' : calls.foldlM (Libibtl.updateCommWorld prank) c = some c') :
    Represents psize c₀ (m.replaceAll (calls.flatten.flatMap Replacement.pairs)) c' := by
  induction calls generalizing c m with
  | nil =>
    obtain rfl := Option.some.inj hc'
    exact h
  | cons l calls ih =>
    rw [List.flatten_cons] at hl
    rw [List.foldlM_cons] at hc'
    obtain ⟨c₁, hc₁, hc'⟩ := Option.bind_eq_some_iff.mp hc'
    have h₁ := (h.updateCommWorld (fun x hx => hl x (List.mem_append_left _ hx)) hc₁).1
    rw [List.flatten_cons, List.flatMap_append, Placement.replaceAll_append]
    exact ih h₁ (fun x hx => hl x (List.mem_append_right _ hx)) hc'

/-! ## The world map as a bijection -/

/-- The virtual rank is found again from the physical rank that it is mapped to. -/
def CommLevel.RoundTrip (c : CommLevel) (v : CInt) : Prop := ∃ p, c.rmapVtop v.toInt = some p ∧ c.rmapPtov p.toInt = some v

/-- The map from virtual to physical ranks is a bijection on its image, and the image has no rank of `failed`. -/
structure CommLevel.WorldMap (c : CommLevel) (failed : List CInt) : Prop where
  roundTrip : ∀ v, IsRank c.commSize v → c.RoundTrip v
  injective : ∀ v w p, IsRank c.commSize v → IsRank c.commSize w → c.rmapVtop v.toInt = some p →
    c.rmapVtop w.toInt = some p → v = w
  alive : ∀ v p, IsRank c.commSize v → c.rmapVtop v.toInt = some p → p ∉ failed

theorem Represents.roundTrip_iff (h : Represents psize c₀ m c) {v : CInt} (hv : IsRank psize v) :
    c.RoundTrip v ↔ m.name (m.place v) = some v := by
  have hplace := h.place v hv
  have hread : c.RoundTrip v ↔ some ((m.name (m.place v)).getD (-2)) = some v := by
    rw [CommLevel.RoundTrip, h.vtop v hv, ← h.ptov _ hplace]
    constructor
    · rintro ⟨p, hp, hback⟩
      obtain rfl := Option.some.inj hp
      exact hback
    · exact fun hback => ⟨_, rfl, hback⟩
  rw [hread, Option.some.injEq]
  cases hname : m.name (m.place v) with
  | none => simpa using hv.ne_mark.symm
  | some w => simp

/-- A virtual rank keeps its way back exactly when its number was not elected as a physical rank for another one, so
the map is a bijection only as long as nothing was replaced. -/
theorem world_map_iff {id psize numspare numproc prank : CInt} (hsize : ProcManAccepts psize)
    {calls : List (List Replacement)} (hbounds : ∀ x ∈ calls.flatten, x.InBounds psize)
    (hfresh : Placement.Fresh (calls.flatten.flatMap Replacement.pairs)) {c : CommLevel}
    (hc : calls.foldlM (updateCommWorld prank) (procManInit id psize numspare numproc prank).elect = some c) :
    (∀ v, IsRank c.commSize v →
      (c.RoundTrip v ↔ ¬ Placement.Installed (calls.flatten.flatMap Replacement.pairs) v)) ∧
    (c.WorldMap ((calls.flatten.flatMap Replacement.pairs).map Prod.fst) ↔
      calls.flatten.flatMap Replacement.pairs = []) := by
  have hrep := (represents_elect hsize id numspare numproc prank).calls hbounds hc
  have htracks := hfresh.tracks
  have hranks : ∀ x ∈ calls.flatten.flatMap Replacement.pairs, IsRank psize x.2 := by
    intro x hx
    obtain ⟨y, hy, hxy⟩ := List.mem_flatMap.1 hx
    exact ((hbounds y hy).isRank hxy).2
  generalize calls.flatten.flatMap Replacement.pairs = l at hrep htracks hranks
  have hcommSize : c.commSize = psize := hrep.frame.2.2
  have hback : ∀ v, IsRank c.commSize v → (c.RoundTrip v ↔ ¬ Placement.Installed l v) := by
    intro v hv
    rw [hcommSize] at hv
    rw [hrep.roundTrip_iff hv]
    exact htracks.name_place_iff v
  refine ⟨hback, ⟨fun hmap => ?_, ?_⟩⟩
  · -- the first replacement of all is carried out
    cases l with
    | nil => rfl
    | cons x l =>
      have hx : IsRank c.commSize x.2 := hcommSize ▸ hranks x (List.mem_cons_self ..)
      exact absurd ⟨[], x, l, rfl, rfl, nofun⟩ ((hback x.2 hx).1 (hmap.roundTrip x.2 hx))
  · rintro rfl
    have hplace : ∀ v, IsRank c.commSize v → c.rmapVtop v.toInt = some v := by
      intro v hv
      rw [hcommSize] at hv
      exact hrep.vtop v hv
    refine ⟨fun v hv => (hback v hv).2 fun hi => ?_, fun v w p hv hw hp hp' => ?_, nofun⟩
    · simpa using hi.mem
    · rw [hplace v hv] at hp
      rw [hplace w hw] at hp'
      exact (Option.some.inj hp).trans (Option.some.inj hp').symm

/-! ## Lists that grow -/

theorem pairs_mono {k l : List Replacement} (h : k <+: l) :
    k.flatMap Replacement.pairs <+: l.flatMap Replacement.pairs := by
  obtain ⟨t, rfl⟩ := h
  exact ⟨t.flatMap Replacement.pairs, List.flatMap_append.symm⟩

theorem take_pairs_mono (l : List Replacement) (i : Nat) :
    (l.take i).flatMap Replacement.pairs <+: l.flatMap Replacement.pairs := pairs_mono (List.take_prefix i l)

theorem Represents.ext (h : Represents psize c₀ m c) (h' : Represents psize c₀ m c') (hvrank : c.vrank = c'.vrank) :
    c = c' := by
  obtain ⟨hptov, hvtop⟩ := h.maps_eq h'
  have hid := h.frame.1.trans h'.frame.1.symm
  have hpsize := h.frame.2.1.trans h'.frame.2.1.symm
  have hcommSize := h.frame.2.2.trans h'.frame.2.2.symm
  cases c
  cases c'
  simp_all

/-- An update fails only when the own rank is outside of the tables. -/
theorem Represents.exists_update (h : Represents psize c₀ m c) {l : List Replacement} (hl : ∀ x ∈ l, x.InBounds psize)
    {prank : CInt} (hprank : (c₀.rmapPtov prank.toInt).isSome) :
    ∃ c', Libibtl.updateCommWorld prank c l = some c' := by
  obtain ⟨c₁, hc₁, h₁⟩ := h.entries hl
  have hread : ∃ v, c₁.rmapPtov prank.toInt = some v := by
    by_cases hr : IsRank psize prank
    · exact ⟨_, h₁.ptov prank hr⟩
    · rw [(h₁.outside _ hr).1]
      exact Option.isSome_iff_exists.1 hprank
  obtain ⟨v, hv⟩ := hread
  exact ⟨{ c₁ with vrank := v }, by simp [Libibtl.updateCommWorld, hc₁, hv]⟩

theorem Represents.update_eq_none (h : Represents psize c₀ m c) {l : List Replacement} (hl : ∀ x ∈ l, x.InBounds psize)
    {prank : CInt} (hprank : c₀.rmapPtov prank.toInt = none) (hsome : ∀ r, IsRank psize r → (c₀.rmapPtov r.toInt).isSome) :
    Libibtl.updateCommWorld prank c l = none := by
  obtain ⟨c₁, hc₁, h₁⟩ := h.entries hl
  have hr : ¬ IsRank psize prank := fun hr => by simpa [hprank] using hsome prank hr
  simp [Libibtl.updateCommWorld, hc₁, (h₁.outside _ hr).1, hprank]

/-- After prefixes of one list, the tables are those of the longest one. -/
theorem Represents.prefixes (h₀ : Represents psize c₀ .initial c₀) {l : List Replacement}
    (hl : ∀ x ∈ l, x.InBounds psize) (hlasting : Placement.Lasting (l.flatMap Replacement.pairs)) {prank : CInt}
    (hprank : (c₀.rmapPtov prank.toInt).isSome) (ns : List Nat) :
    ∃ k c, (ns.map (l.take ·)).foldlM (Libibtl.updateCommWorld prank) c₀ = some c ∧
      Represents psize c₀ (Placement.initial.replaceAll ((l.take k).flatMap Replacement.pairs)) c := by
  induction ns using List.reverseRecOn with
  | nil => exact ⟨0, c₀, rfl, h₀⟩
  | append_singleton ns n ih =>
    obtain ⟨k, c, hc, h⟩ := ih
    have hbounds : ∀ x ∈ l.take n, x.InBounds psize := fun x hx => hl x (List.mem_of_mem_take hx)
    obtain ⟨c', hc'⟩ := h.exists_update hbounds hprank
    have hrun : ((ns ++ [n]).map (l.take ·)).foldlM (Libibtl.updateCommWorld prank) c₀ = some c' := by
      rw [List.map_append, List.foldlM_append, hc]
      simp [hc']
    have hlast := fun i => hlasting.mono (take_pairs_mono l i)
    have h' := (h.updateCommWorld hbounds hc').1
    rcases Nat.le_total n k with hnk | hkn
    · rw [(hlast k).replaceAll_again (pairs_mono (List.take_prefix_take_left hnk))] at h'
      exact ⟨k, c', hrun, h'⟩
    · rw [(hlast n).replaceAll_extend (pairs_mono (List.take_prefix_take_left hkn))] at h'
      exact ⟨n, c', hrun, h'⟩

/-- Applying any prefixes of a list before the list itself changes nothing, so processes that learn of the failures in
different batches agree. -/
theorem update_comm_world_prefixes {id psize numspare numproc prank : CInt} (hsize : ProcManAccepts psize)
    {l : List Replacement} (hl : ∀ x ∈ l, x.InBounds psize)
    (hlasting : Placement.Lasting (l.flatMap Replacement.pairs)) (ns : List Nat) :
    (ns.map (l.take ·) ++ [l]).foldlM (updateCommWorld prank) (procManInit id psize numspare numproc prank).elect =
      updateCommWorld prank (procManInit id psize numspare numproc prank).elect l ∧
    (0 ≤ prank.toInt → prank.toInt < psize.toInt * 2 →
      (updateCommWorld prank (procManInit id psize numspare numproc prank).elect l).isSome) := by
  have h₀ := represents_elect hsize id numspare numproc prank
  have htable : ∀ {r : CInt}, ((procManInit id psize numspare numproc prank).elect.rmapPtov r.toInt).isSome ↔
      0 ≤ r.toInt ∧ r.toInt < psize.toInt * 2 := by
    intro r
    show (identityMap psize (psize * extra) r.toInt).isSome ↔ _
    rw [identityMap, toInt_mul_extra hsize]
    split
    · rename_i hr
      exact ⟨fun _ => hr, fun _ => rfl⟩
    · rename_i hr
      exact ⟨fun h => absurd h Bool.false_ne_true, fun h => absurd h hr⟩
  generalize (procManInit id psize numspare numproc prank).elect = c₀ at h₀ htable
  constructor
  · rw [List.foldlM_append]
    by_cases hprank : (c₀.rmapPtov prank.toInt).isSome
    · obtain ⟨k, c, hc, h⟩ := h₀.prefixes hl hlasting hprank ns
      obtain ⟨c₁, hc₁⟩ := h.exists_update hl hprank
      obtain ⟨c₂, hc₂⟩ := h₀.exists_update hl hprank
      obtain ⟨h₁, hv₁⟩ := h.updateCommWorld hl hc₁
      obtain ⟨h₂, hv₂⟩ := h₀.updateCommWorld hl hc₂
      rw [hlasting.replaceAll_extend (take_pairs_mono l k)] at h₁
      have hvrank : c₁.vrank = c₂.vrank := by
        rw [(h₁.maps_eq h₂).1, hv₂] at hv₁
        exact (Option.some.inj hv₁).symm
      rw [hc, hc₂, ← h₁.ext h₂ hvrank]
      simp [hc₁]
    · have hnone : ∀ {k : List Replacement}, (∀ x ∈ k, x.InBounds psize) → updateCommWorld prank c₀ k = none := by
        intro k hk
        refine h₀.update_eq_none hk (by simpa using hprank) fun r hr => htable.2 ⟨hr.1, ?_⟩
        have hnonneg := hsize.1
        have hlt := hr.2
        omega
      rw [hnone hl]
      cases ns with
      | nil => simp [hnone hl]
      | cons n ns => simp [hnone fun x hx => hl x (List.mem_of_mem_take hx)]
  · exact fun h0 hlt => Option.isSome_iff_exists.2 (h₀.exists_update hl (htable.2 ⟨h0, hlt⟩))

end

/-- Of four ranks with two spares, rank 0 fails and then the spare that replaced it. -/
def twoFailures : List Replacement := [⟨0, 1, 2, 1⟩, ⟨2, 1, 3, 1⟩]

theorem twoFailures_other : ∀ x ∈ twoFailures.flatMap Replacement.pairs, x.2 ≠ x.1 := by
  have hpairs : twoFailures.flatMap Replacement.pairs = [(0, 2), (2, 3)] := by decide
  simp [hpairs]

theorem update_comm_world_batches :
    ([0, 1].map (twoFailures.take ·) ++ [twoFailures]).foldlM (updateCommWorld 1) (procManInit 0 4 2 1 1).elect =
      updateCommWorld 1 (procManInit 0 4 2 1 1).elect twoFailures :=
  (update_comm_world_prefixes (by decide) (by decide) ⟨by decide, twoFailures_other⟩ [0, 1]).1

theorem world_map_two : ∃ c, (twoFailures.map ([·])).foldlM (updateCommWorld 1) (procManInit 0 4 2 1 1).elect = some c ∧
    c.commSize = 4 ∧ c.RoundTrip 0 ∧ ¬ c.RoundTrip 2 := by
  obtain ⟨c, hc, hsize⟩ := Option.map_eq_some_iff.1
    (by decide : ((twoFailures.map ([·])).foldlM (updateCommWorld 1) (procManInit 0 4 2 1 1).elect).map (·.commSize) = some 4)
  have hback := (world_map_iff (by decide) (by decide) ⟨by decide, by exact twoFailures_other⟩ hc).1
  rw [hsize] at hback
  refine ⟨c, hc, hsize, (hback 0 (by decide)).2 fun hi => absurd hi.mem (by decide), fun hround => ?_⟩
  exact (hback 2 (by decide)).1 hround ⟨[], (0, 2), [(2, 3)], by decide, rfl, nofun⟩

/-- Of two ranks with one spare, rank 0 fails: the virtual ranks 0 and 1 are both on the spare. -/
theorem world_map_spare : ∃ c, updateCommWorld 1 (procManInit 0 2 1 1 1).elect [⟨0, 1, 1, 1⟩] = some c ∧
    c.commSize = 2 ∧ c.rmapVtop 0 = some 1 ∧ c.rmapVtop 1 = some 1 ∧ c.rmapPtov 1 = some 0 := by
  obtain ⟨c, hc, h⟩ := Option.map_eq_some_iff.1
    (by decide : (updateCommWorld 1 (procManInit 0 2 1 1 1).elect [⟨0, 1, 1, 1⟩]).map
      (fun c => (c.commSize, c.rmapVtop 0, c.rmapVtop 1, c.rmapPtov 1)) = some (2, some 1, some 1, some 0))
  simp only [Prod.mk.injEq] at h
  exact ⟨c, hc, h⟩

end Libibtl
