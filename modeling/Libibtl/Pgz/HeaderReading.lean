import Mathlib.Data.Nat.Bitwise
import Libibtl.Pgz.Format

/-! # Reading a header

The input comes in buffers of a fixed size. What `get_header` finds does not depend on
where one buffer ends and the next begins, and it finds what `put_header` wrote.
-/

namespace Libibtl.Pgz

open Foundation

/-- The input: what is left in the buffer, and what has not been read. `short` is set when a buffer was not filled,
`eof` when there was nothing more. -/
structure In where
  buf : List Byte
  rest : List Byte
  short : Bool
  eof : Bool

/-- The globals that `get_header` sets. A name is stored with the zero behind it. -/
structure Found where
  form : CInt
  stamp : ULong
  hname : Option (List Byte)
  magic1 : CInt
  zipCrc : ULong
  zipClen : ULong
  zipUlen : ULong

/-- A reading that may return early with a negative number. -/
abbrev Reading := EStateM CInt (In × Found)

namespace In

variable (size : Nat) (s : In)

/-- `load`, with the number that it returns. -/
def load : Nat × In :=
  if s.short then (0, { s with buf := [], eof := true })
  else
    let bs := s.rest.take size
    (bs.length, ⟨bs, s.rest.drop size, bs.length < size, s.eof || bs.length = 0⟩)

/-- `GET()`, where `EOF` is -1. -/
def get : CInt × In :=
  if s.eof then (-1, s)
  else
    match s.buf with
    | b :: bs => (b.setWidth 32, { s with buf := bs })
    | [] =>
      let s' := (s.load size).2
      match s'.buf with
      | b :: bs => (b.setWidth 32, { s' with buf := bs })
      | [] => (-1, s')

/-- The loop that takes `togo` bytes out of the buffers and returns `code` when there are not so many. -/
def takeLoop (code : CInt) : Nat → Nat → List Byte → In → EStateM.Result CInt In (List Byte)
  | 0, _, _, s => .error code s
  | n + 1, togo, bs, s =>
    if s.buf.length < togo then
      if (s.load size).1 = 0 then .error code (s.load size).2
      else takeLoop code n (togo - s.buf.length) (bs ++ s.buf) (s.load size).2
    else .ok (bs ++ s.buf.take togo) { s with buf := s.buf.drop togo }

/-- The loop that takes the bytes as far as the next zero. -/
def nameLoop : Nat → List Byte → In → EStateM.Result CInt In (List Byte)
  | 0, _, s => .error (-3) s
  | n + 1, bs, s =>
    let (count, s) := if s.buf.length = 0 then s.load size else (s.buf.length, s)
    if count = 0 then .error (-3) s
    else
      match s.buf.findIdx? (· = 0) with
      | none => nameLoop n (bs ++ s.buf) { s with buf := [] }
      | some i => .ok (bs ++ s.buf.take (i + 1)) { s with buf := s.buf.drop (i + 1) }

/-- The loop that passes the bytes as far as the next zero. -/
def passLoop : Nat → In → EStateM.Result CInt In Unit
  | 0, s => .error (-3) s
  | n + 1, s =>
    let (b, s) := s.get size
    if b = 0 then .ok () s else if s.eof then .error (-3) s else passLoop n s

/-- What has not been taken. -/
def content : List Byte := s.buf ++ s.rest

/-- `in_init`, for what is in the file. -/
def init (bs : List Byte) : In := ⟨[], bs, false, false⟩

/-- The end of the input has not been met. -/
structure Ok : Prop where
  eof : s.eof = false
  short : s.short = true → s.rest = []

end In

namespace Reading

variable {α : Type} (size : Nat)

def lift (f : In → EStateM.Result CInt In α) : Reading α := fun (s, g) =>
  match f s with
  | .ok a s => .ok a (s, g)
  | .error code s => .error code (s, g)

def set (f : Found → Found) : Reading Unit := fun (s, g) => .ok () (s, f g)

def found : Reading Found := fun (s, g) => .ok g (s, g)

/-- `if (in_eof) return code;`. -/
def checkEof (code : CInt) : Reading Unit := fun (s, g) => if s.eof then .error code (s, g) else .ok () (s, g)

/-- `GET()`. -/
def get1 : Reading CInt := lift fun s => .ok (s.get size).1 (s.get size).2

/-- `GET2()`. -/
def get2 : Reading UInt32T := do
  let a ← get1 size
  let b ← get1 size
  return a + b <<< 8

/-- `GET4()`. -/
def get4 : Reading ULong := do
  let a ← get2 size
  let b ← get2 size
  return a.setWidth 64 + b.setWidth 64 <<< 16

def take (code : CInt) (togo : Nat) : Reading (List Byte) :=
  lift fun s => s.takeLoop size code (s.rest.length + 1) togo []

/-- `SKIP(dist)`. -/
def skip (dist : Nat) : Reading Unit := do
  let _ ← take size (-1) dist
  return ()

/-- The value that the reading returns is not looked at. -/
def ignore (x : Reading α) : Reading Unit := fun t =>
  match x t with
  | .ok _ t => .ok () t
  | .error _ t => .ok () t

end Reading

open Reading

/-- `tolong`. -/
def tolong (val : ULong) : ULong := (val &&& 0x7fffffff#64) - (val &&& 0x80000000#64)

section GetHeader

variable (size : Nat) (dos2time : ULong → ULong) (save : Bool)

/-- The lengths in a Zip64 field; what is left of the field. -/
def readZip64 (length : Nat) : Reading Nat := do
  let g ← found
  let length ← if g.zipUlen = 0xffffffff#64 ∧ 8 ≤ length then do
      let len ← get4 size
      set ({ · with zipUlen := len })
      skip size 4
      pure (length - 8)
    else pure length
  if g.zipClen = 0xffffffff#64 ∧ 8 ≤ length then
    let len ← get4 size
    set ({ · with zipClen := len })
    skip size 4
    return length - 8
  else return length

/-- The time in a Unix field. -/
def readUnix (length : Nat) : Reading Nat := do
  skip size 4
  let time ← get4 size
  set ({ · with stamp := tolong time })
  return length - 8

/-- The time in an extended timestamp. -/
def readTimestamp (length : Nat) : Reading Nat := do
  let flags ← get1 size
  if flags &&& 1 ≠ 0 then
    let time ← get4 size
    set ({ · with stamp := tolong time })
    return length - 1 - 4
  else return length - 1

/-- What `read_extra` does with one block. -/
def readBlock (id : UInt32T) (length : Nat) : Reading Unit := do
  let length ← if id = 1 then readZip64 size length else pure length
  let length ← if save = true ∧ (id = 0x000d ∨ id = 0x5855) ∧ 8 ≤ length then readUnix size length else pure length
  let length ← if save = true ∧ id = 0x5455 ∧ 5 ≤ length then readTimestamp size length else pure length
  skip size length

/-- The loop of `read_extra`; what is left behind the last block. -/
def readBlocks : Nat → Nat → Reading Nat
  | 0, len => return len
  | n + 1, len =>
    if len < 4 then return len
    else do
      let id ← get2 size
      let length ← get2 size
      checkEof (-1)
      if len - 4 < length.toNat then return len - 4
      else do
        readBlock size save id length.toNat
        readBlocks n (len - 4 - length.toNat)

/-- `read_extra`. -/
def readExtra (len : Nat) : Reading Unit := do
  let len ← readBlocks size save len len
  skip size len

/-- The time in the header of a zip file. -/
def zipTime : Reading Unit :=
  if save then do
    let time ← get4 size
    set ({ · with stamp := dos2time time })
  else skip size 4

/-- The name in the header of a zip file. -/
def zipName (fname : Nat) : Reading Unit :=
  if save then do
    let name ← take size (-3) fname
    set ({ · with hname := some (name ++ [0]) })
  else skip size fname

/-- `get_header` behind the signature and the flags of a zip file. -/
def getZipFields (flags : CInt) : Reading CInt := do
  let method ← get2 size
  checkEof (-3)
  zipTime size dos2time save
  let crc ← get4 size
  set ({ · with zipCrc := crc })
  let clen ← get4 size
  set ({ · with zipClen := clen })
  let ulen ← get4 size
  set ({ · with zipUlen := ulen })
  let fname ← get2 size
  let extra ← get2 size
  zipName size save fname.toNat
  ignore (readExtra size save extra.toNat)
  set ({ · with form := 2 + (flags &&& 8) >>> 3 })
  checkEof (-3)
  return if flags &&& 1 ≠ 0 then 255 else method

/-- `get_header` behind the first two bytes of a zip file. -/
def getZip : Reading CInt := do
  let third ← get1 size
  if third ≠ 3 then throw (-3)
  else do
    let fourth ← get1 size
    if fourth ≠ 4 then throw (-3)
    else do
      skip size 2
      let flags ← get2 size
      checkEof (-3)
      if flags &&& 0xfff0 ≠ 0 then throw (-4) else getZipFields size dos2time save flags

/-- The time in the header of a gzip file. -/
def gzipTime : Reading Unit :=
  if save then do
    let time ← get4 size
    set ({ · with stamp := tolong time })
  else skip size 4

/-- The extra field of a gzip file. -/
def gzipExtra (flags : CInt) : Reading Unit :=
  if flags &&& 4 ≠ 0 then do
    let extra ← get2 size
    checkEof (-3)
    skip size extra.toNat
  else pure ()

/-- `while (GET() != 0) if (in_eof) return -3;`. -/
def pass : Reading Unit := lift fun s => s.passLoop size (s.content.length + 1)

/-- The name in the header of a gzip file. -/
def gzipName (flags : CInt) : Reading Unit :=
  if flags &&& 8 ≠ 0 then
    if save then do
      let name ← lift fun s => s.nameLoop size (s.rest.length + 2) []
      set ({ · with hname := some name })
    else pass size
  else pure ()

/-- The comment and the check value of a gzip header. -/
def gzipRest (flags : CInt) : Reading Unit := do
  if flags &&& 16 ≠ 0 then pass size
  if flags &&& 2 ≠ 0 then skip size 2

/-- `get_header` behind the first two bytes of a gzip file. -/
def getGzip : Reading CInt := do
  let method ← get1 size
  let flags ← get1 size
  checkEof (-1)
  if flags &&& 0xe0 ≠ 0 then throw (-4)
  else do
    gzipTime size save
    skip size 2
    gzipExtra size flags
    gzipName size save flags
    gzipRest size flags
    return method

/-- `get_header`; a negative number is thrown. -/
def getHeader : Reading CInt := do
  set fun g => if save then { g with stamp := 0, hname := none, form := 0 } else { g with form := 0 }
  let magic1 ← get1 size
  set ({ · with magic1 := magic1 })
  checkEof (-1)
  let second ← get1 size
  checkEof (-2)
  let magic := magic1 <<< 8 + second
  if magic.toNat % 31 = 0 then do
    set ({ · with form := 1 })
    return magic >>> 8 &&& 0xf
  else if magic = 0x1f9d then return 256
  else if magic = 0x504b then getZip size dos2time save
  else if magic ≠ 0x1f8b then do
    lift fun s => .ok () { s with buf := second.setWidth 8 :: s.buf }
    throw (-2)
  else getGzip size save

end GetHeader

namespace In

variable {size : Nat} {s : In} {b : Byte} {bs cs : List Byte}

theorem Ok.init : (init bs).Ok :=
  ⟨rfl, fun hs => by cases hs⟩

theorem Ok.not_short (h : s.Ok) (hne : s.rest ≠ []) : s.short = false := by
  cases hs : s.short with
  | false => rfl
  | true => exact absurd (h.short hs) hne

theorem load_spec (hsize : 0 < size) (h : s.Ok) (hne : s.rest ≠ []) :
    (s.load size).2.Ok ∧ (s.load size).2.content = s.rest ∧ (s.load size).2.buf ≠ [] ∧ (s.load size).1 ≠ 0 ∧
      (s.load size).2.rest.length < s.rest.length := by
  have hpos := List.length_pos_iff.2 hne
  have hlen : (s.rest.take size).length ≠ 0 := by
    rw [List.length_take]
    omega
  rw [load, h.not_short hne, if_neg Bool.false_ne_true]
  refine ⟨⟨?_, ?_⟩, List.take_append_drop _ _, ?_, hlen, ?_⟩
  · dsimp only
    rw [h.eof, Bool.false_or, decide_eq_false hlen]
  · intro hs
    have hlt := of_decide_eq_true hs
    rw [List.length_take] at hlt
    apply List.drop_eq_nil_of_le
    omega
  · intro hnil
    exact hlen (congrArg List.length hnil)
  · dsimp only
    rw [List.length_drop]
    omega

theorem get_spec (hsize : 0 < size) (h : s.Ok) (hcontent : s.content = b :: bs) :
    ∃ s', s.get size = (b.setWidth 32, s') ∧ s'.Ok ∧ s'.content = bs := by
  rw [get, h.eof, if_neg Bool.false_ne_true]
  cases hbuf : s.buf with
  | cons c cs =>
    rw [content, hbuf, List.cons_append] at hcontent
    obtain ⟨rfl, htail⟩ := List.cons.inj hcontent
    exact ⟨_, rfl, ⟨rfl, h.short⟩, htail⟩
  | nil =>
    rw [content, hbuf, List.nil_append] at hcontent
    have hne : s.rest ≠ [] := by
      rw [hcontent]
      exact List.cons_ne_nil _ _
    obtain ⟨hok, hsame, hfull, -, -⟩ := load_spec hsize h hne
    dsimp only
    cases hbuf' : (s.load size).2.buf with
    | nil => exact absurd hbuf' hfull
    | cons c cs =>
      rw [hcontent, content, hbuf', List.cons_append] at hsame
      obtain ⟨rfl, htail⟩ := List.cons.inj hsame
      exact ⟨_, rfl, ⟨hok.eof, hok.short⟩, htail⟩

/-- A buffer that is not shorter than the first part of the input begins with it. -/
theorem take_drop_of_append {xs ys : List Byte} (h : xs ++ ys = cs ++ bs) (hlen : cs.length ≤ xs.length) :
    xs.take cs.length = cs ∧ xs.drop cs.length ++ ys = bs := by
  constructor
  · have htake := congrArg (List.take cs.length) h
    rwa [List.take_append_of_le_length hlen, List.take_left] at htake
  · have hdrop := congrArg (List.drop cs.length) h
    rwa [List.drop_append_of_le_length hlen, List.drop_left] at hdrop

theorem takeLoop_spec (hsize : 0 < size) (code : CInt) {n togo : Nat} (acc : List Byte) (h : s.Ok)
    (hcontent : s.content = cs ++ bs) (hlen : cs.length = togo) (hn : s.rest.length < n) :
    ∃ s', takeLoop size code n togo acc s = .ok (acc ++ cs) s' ∧ s'.Ok ∧ s'.content = bs := by
  induction n generalizing s togo acc cs with
  | zero => exact absurd hn (Nat.not_lt_zero _)
  | succ n ih =>
    rw [takeLoop]
    have hsplit : s.buf ++ s.rest = cs ++ bs := hcontent
    by_cases hshort : s.buf.length < togo
    · rw [if_pos hshort]
      -- the buffer is the first part of the bytes
      obtain ⟨ds, hcs, hrest⟩ : ∃ ds, cs = s.buf ++ ds ∧ s.rest = ds ++ bs := by
        obtain ⟨ds, hcs, hrest⟩ | ⟨ds, hbuf, -⟩ := List.append_eq_append_iff.1 hsplit
        · exact ⟨ds, hcs, hrest⟩
        · have := congrArg List.length hbuf
          rw [List.length_append] at this
          omega
      have hds : ds.length = togo - s.buf.length := by
        rw [← hlen, hcs, List.length_append]
        omega
      have hne : s.rest ≠ [] := by
        intro hnil
        have := congrArg List.length (hrest.symm.trans hnil)
        rw [List.length_append, List.length_nil] at this
        omega
      obtain ⟨hok, hsame, -, hcount, hlt⟩ := load_spec hsize h hne
      rw [if_neg hcount]
      obtain ⟨s', htake, hok', hcontent'⟩ := @ih _ ds _ (acc ++ s.buf) hok (hsame.trans hrest) hds (by omega)
      refine ⟨s', ?_, hok', hcontent'⟩
      rw [htake, hcs, List.append_assoc]
    · rw [if_neg hshort]
      obtain ⟨htake, hdrop⟩ := take_drop_of_append hsplit (by omega)
      rw [← hlen, htake]
      exact ⟨_, rfl, ⟨h.eof, h.short⟩, hdrop⟩

theorem nameLoop_spec (hsize : 0 < size) {n : Nat} (acc : List Byte) (h : s.Ok)
    (hcontent : s.content = cs ++ 0 :: bs) (hcs : 0 ∉ cs) (hn : s.rest.length + min s.buf.length 1 < n) :
    ∃ s', nameLoop size n acc s = .ok (acc ++ (cs ++ [0])) s' ∧ s'.Ok ∧ s'.content = bs := by
  induction n generalizing s acc cs with
  | zero => exact absurd hn (Nat.not_lt_zero _)
  | succ n ih =>
    rw [nameLoop]
    -- a buffer with something in it, which may have been loaded now
    obtain ⟨count, t, hload, hcount, hok, hsame, hfull, hlt⟩ : ∃ count t,
        (if s.buf.length = 0 then s.load size else (s.buf.length, s)) = (count, t) ∧ count ≠ 0 ∧ t.Ok ∧
          t.content = s.content ∧ t.buf ≠ [] ∧ t.rest.length < n := by
      by_cases hbuf : s.buf.length = 0
      · have hnil := List.eq_nil_of_length_eq_zero hbuf
        have hrest : s.content = s.rest := by rw [content, hnil, List.nil_append]
        have hne : s.rest ≠ [] := by
          rw [← hrest, hcontent]
          simp
        obtain ⟨hok, hsame, hfull, hcount, hlt⟩ := load_spec hsize h hne
        rw [if_pos hbuf]
        exact ⟨_, _, rfl, hcount, hok, hsame.trans hrest.symm, hfull, hlt.trans_le (by omega)⟩
      · rw [if_neg hbuf]
        refine ⟨_, _, rfl, hbuf, h, rfl, ?_, ?_⟩
        · intro hnil
          exact hbuf (congrArg List.length hnil)
        · omega
    rw [hload]
    dsimp only
    rw [if_neg hcount]
    rw [← hsame] at hcontent
    have hsplit : t.buf ++ t.rest = cs ++ 0 :: bs := hcontent
    cases hfind : t.buf.findIdx? (· = 0) with
    | none =>
      have hzero : 0 ∉ t.buf := by
        intro hmem
        have := List.findIdx?_eq_none_iff.1 hfind 0 hmem
        simp at this
      -- the zero is behind this buffer, or the next buffer begins with it
      obtain ⟨ds, hds, hrest⟩ | ⟨ds, hbuf, hrest⟩ := List.append_eq_append_iff.1 hsplit
      · obtain ⟨s', hname, hok', hcontent'⟩ := @ih { t with buf := [] } ds (acc ++ t.buf)
          ⟨hok.eof, hok.short⟩ hrest (fun hmem => hcs (hds ▸ List.mem_append_right _ hmem)) (by simpa using hlt)
        refine ⟨s', ?_, hok', hcontent'⟩
        rw [hname, hds, List.append_assoc, List.append_assoc]
      · cases ds with
        | nil =>
          rw [List.append_nil] at hbuf
          obtain ⟨s', hname, hok', hcontent'⟩ := @ih { t with buf := [] } [] (acc ++ t.buf)
            ⟨hok.eof, hok.short⟩ hrest.symm List.not_mem_nil (by simpa using hlt)
          refine ⟨s', ?_, hok', hcontent'⟩
          rw [hname, hbuf, List.append_assoc, List.nil_append]
        | cons d ds =>
          obtain ⟨rfl, -⟩ := List.cons.inj hrest
          exact absurd (hbuf ▸ List.mem_append_right _ List.mem_cons_self) hzero
    | some i =>
      -- the name ends in this buffer
      obtain ⟨hi, hzero, hbefore⟩ := List.findIdx?_eq_some_iff_getElem.1 hfind
      have hat : ∀ j, j < t.buf.length → t.buf[j]? = (cs ++ 0 :: bs)[j]? := by
        intro j hj
        rw [← hsplit, List.getElem?_append_left hj]
      have hcslen : cs.length = i := by
        obtain hlt | heq | hgt := Nat.lt_trichotomy cs.length i
        · have hzero' := hat cs.length (hlt.trans hi)
          rw [List.getElem?_append_right (Nat.le_refl _), Nat.sub_self, List.getElem?_cons_zero,
            List.getElem?_eq_getElem (hlt.trans hi)] at hzero'
          exact absurd (decide_eq_true (Option.some.inj hzero')) (hbefore _ hlt)
        · exact heq
        · have hzero' := hat i hi
          rw [List.getElem?_append_left hgt, List.getElem?_eq_getElem hi, of_decide_eq_true hzero] at hzero'
          exact absurd (List.mem_of_getElem? hzero'.symm) hcs
      have hlen : (cs ++ [0]).length = i + 1 := by
        rw [List.length_append, hcslen]
        rfl
      have hsplit' : t.buf ++ t.rest = (cs ++ [0]) ++ bs := by
        rw [hsplit, List.append_assoc]
        rfl
      obtain ⟨htake, hdrop⟩ := take_drop_of_append hsplit' (by omega)
      dsimp only
      rw [← hlen, htake]
      exact ⟨_, rfl, ⟨hok.eof, hok.short⟩, hdrop⟩

end In

/-- However it is buffered, an input that begins with `bs` makes the reading return `v` and change the globals from `g`
to `g'`, and what is behind `bs` is left. -/
def Reads {α : Type} (x : Reading α) (bs : List Byte) (g : Found) (v : α) (g' : Found) : Prop :=
  ∀ s after, s.Ok → s.content = bs ++ after → ∃ s', x (s, g) = .ok v (s', g') ∧ s'.Ok ∧ s'.content = after

namespace Reads

variable {α β : Type} {size : Nat} {x : Reading α} {f : α → Reading β} {bs cs : List Byte} {g g' g'' : Found} {v : α}
  {w : β}

theorem pure : Reads (pure v) [] g v g :=
  fun s _ hok hcontent => ⟨s, rfl, hok, hcontent⟩

theorem bind (hx : Reads x bs g v g') (hf : Reads (f v) cs g' w g'') : Reads (x >>= f) (bs ++ cs) g w g'' := by
  intro s after hok hcontent
  rw [List.append_assoc] at hcontent
  obtain ⟨s₁, hrun₁, hok₁, hcontent₁⟩ := hx s _ hok hcontent
  obtain ⟨s₂, hrun₂, hok₂, hcontent₂⟩ := hf s₁ after hok₁ hcontent₁
  refine ⟨s₂, ?_, hok₂, hcontent₂⟩
  change EStateM.bind x f (s, g) = _
  rw [EStateM.bind, hrun₁]
  exact hrun₂

/-- A step that takes nothing. -/
theorem next (hx : Reads x [] g v g') (hf : Reads (f v) cs g' w g'') : Reads (x >>= f) cs g w g'' :=
  bind hx hf

/-- The step that takes the last bytes. -/
theorem last (hx : Reads x bs g v g') (hf : Reads (f v) [] g' w g'') : Reads (x >>= f) bs g w g'' :=
  List.append_nil bs ▸ bind hx hf

theorem set (f : Found → Found) : Reads (Reading.set f) [] g () (f g) :=
  fun s _ hok hcontent => ⟨s, rfl, hok, hcontent⟩

theorem checkEof (code : CInt) : Reads (Reading.checkEof code) [] g () g := by
  intro s after hok hcontent
  refine ⟨s, ?_, hok, hcontent⟩
  rw [Reading.checkEof, hok.eof]
  rfl

theorem ignore (hx : Reads x bs g v g') : Reads (Reading.ignore x) bs g () g' := by
  intro s after hok hcontent
  obtain ⟨s', hrun, hok', hcontent'⟩ := hx s after hok hcontent
  refine ⟨s', ?_, hok', hcontent'⟩
  rw [Reading.ignore, hrun]

theorem get1 (hsize : 0 < size) (b : Byte) : Reads (Reading.get1 size) [b] g (b.setWidth 32) g := by
  intro s after hok hcontent
  obtain ⟨s', hget, hok', hcontent'⟩ := In.get_spec hsize hok hcontent
  refine ⟨s', ?_, hok', hcontent'⟩
  rw [Reading.get1, lift, hget]

theorem get2 (hsize : 0 < size) (y : ULong) : Reads (Reading.get2 size) (put2L y) g ((y.setWidth 16).setWidth 32) g := by
  have hvalue : (y.setWidth 8).setWidth 32 + ((y >>> 8).setWidth 8).setWidth 32 <<< 8 =
      ((y.setWidth 16).setWidth 32 : UInt32T) := by
    apply BitVec.eq_of_toNat_eq
    simp only [BitVec.toNat_add, BitVec.toNat_shiftLeft, BitVec.toNat_setWidth, BitVec.toNat_ushiftRight,
      Nat.shiftLeft_eq, Nat.shiftRight_eq_div_pow]
    omega
  rw [← hvalue]
  exact bind (get1 hsize _) (last (get1 hsize _) pure)

theorem get4 (hsize : 0 < size) (y : ULong) : Reads (Reading.get4 size) (put4L y) g (y &&& 0xffffffff#64) g := by
  have hvalue : (((y &&& 0xffff#64).setWidth 16).setWidth 32).setWidth 64 +
      (((y >>> 16).setWidth 16).setWidth 32).setWidth 64 <<< 16 = y &&& 0xffffffff#64 := by
    apply BitVec.eq_of_toNat_eq
    have hmask : (y &&& 0xffffffff#64).toNat = y.toNat % 2 ^ 32 := by
      rw [BitVec.toNat_and]
      exact Nat.and_two_pow_sub_one_eq_mod y.toNat 32
    have hlow : (y &&& 0xffff#64).toNat = y.toNat % 2 ^ 16 := by
      rw [BitVec.toNat_and]
      exact Nat.and_two_pow_sub_one_eq_mod y.toNat 16
    rw [hmask]
    simp only [BitVec.toNat_add, BitVec.toNat_shiftLeft, BitVec.toNat_setWidth, BitVec.toNat_ushiftRight,
      Nat.shiftLeft_eq, Nat.shiftRight_eq_div_pow, hlow]
    omega
  rw [← hvalue]
  exact bind (get2 hsize _) (last (get2 hsize _) pure)

theorem take (hsize : 0 < size) (code : CInt) {togo : Nat} (hlen : bs.length = togo) :
    Reads (Reading.take size code togo) bs g bs g := by
  intro s after hok hcontent
  obtain ⟨s', htake, hok', hcontent'⟩ := In.takeLoop_spec hsize code [] hok hcontent hlen (Nat.lt_succ_self _)
  refine ⟨s', ?_, hok', hcontent'⟩
  rw [Reading.take, lift, htake]
  rfl

theorem skip (hsize : 0 < size) {dist : Nat} (hlen : bs.length = dist) : Reads (Reading.skip size dist) bs g () g :=
  last (take hsize _ hlen) pure

theorem name (hsize : 0 < size) (hbs : 0 ∉ bs) :
    Reads (lift fun s => s.nameLoop size (s.rest.length + 2) []) (bs ++ [0]) g (bs ++ [0]) g := by
  intro s after hok hcontent
  rw [List.append_assoc] at hcontent
  obtain ⟨s', hname, hok', hcontent'⟩ := In.nameLoop_spec hsize [] hok hcontent hbs
    (Nat.lt_succ_of_le (Nat.add_le_add_left (Nat.min_le_right _ _) _))
  refine ⟨s', ?_, hok', hcontent'⟩
  rw [lift, hname]
  rfl

end Reads

namespace Header

variable (g : Header) {size : Nat} (dos2time : ULong → ULong) (f : Found)

/-- What a header tells of the globals it was written from. -/
def found : Found :=
  if 1 < g.form.toInt then
    ⟨3, tolong (g.mtime &&& 0xffffffff#64), some (g.zipName ++ [0]), 0x50, 0, 0, 0⟩
  else if g.form ≠ 0 then { f with form := 1, stamp := 0, hname := none, magic1 := 0x78 }
  else
    { f with
      form := 0, stamp := tolong (g.mtime &&& 0xffffffff#64), hname := g.name.map (· ++ [0]), magic1 := 31 }

theorem reads_extra (hsize : 0 < size) : Reads (readExtra size true 9) g.extra f ()
    { f with stamp := tolong (g.mtime &&& 0xffffffff#64) } := by
  have hblock : Reads (readBlock size true 0x5455 5) ([1] ++ put4L g.mtime) f ()
      { f with stamp := tolong (g.mtime &&& 0xffffffff#64) } := by
    apply Reads.next Reads.pure
    apply Reads.next Reads.pure
    apply Reads.last _ (Reads.skip hsize rfl)
    apply Reads.bind (Reads.get1 hsize 1)
    exact Reads.last (Reads.get4 hsize _) (Reads.next (Reads.set _) Reads.pure)
  have hblocks : Reads (readBlocks size true 9 9) g.extra f 0 { f with stamp := tolong (g.mtime &&& 0xffffffff#64) } := by
    rw [extra, List.append_assoc, List.append_assoc]
    apply Reads.bind (Reads.get2 hsize _)
    apply Reads.bind (Reads.get2 hsize _)
    apply Reads.next (Reads.checkEof _)
    exact Reads.last hblock Reads.pure
  exact Reads.last hblocks (Reads.skip hsize rfl)

theorem reads_zlib (hsize : 0 < size) (hform : ¬1 < g.form.toInt) (hzlib : g.form ≠ 0) :
    Reads (getHeader size dos2time true) g.putHeader f 8 (g.found f) := by
  rw [putHeader, if_neg hform, if_pos hzlib, found, if_neg hform, if_pos hzlib]
  apply Reads.next (Reads.set _)
  apply Reads.bind (Reads.get1 hsize 0x78)
  apply Reads.next (Reads.set _)
  apply Reads.next (Reads.checkEof _)
  apply Reads.last (Reads.get1 hsize _)
  apply Reads.next (Reads.checkEof _)
  have hlevel : g.zlibLevel = 0 ∨ g.zlibLevel = 1 ∨ g.zlibLevel = 2 ∨ g.zlibLevel = 3 := by
    rw [zlibLevel]
    split_ifs <;> simp
  obtain h | h | h | h := hlevel <;> rw [zlibFlags, h] <;> exact Reads.next (Reads.set _) Reads.pure

theorem reads_gzip (hsize : 0 < size) (hform : g.form = 0) (hname : ∀ name, g.name = some name → 0 ∉ name) :
    Reads (getHeader size dos2time true) g.putHeader f 8 (g.found f) := by
  have hzip : ¬1 < g.form.toInt := by
    rw [hform]
    decide
  rw [putHeader, if_neg hzip, if_neg (not_not.2 hform), found, if_neg hzip, if_neg (not_not.2 hform)]
  simp only [List.append_assoc]
  apply Reads.next (Reads.set _)
  apply Reads.bind (Reads.get1 hsize 31)
  apply Reads.next (Reads.set _)
  apply Reads.next (Reads.checkEof _)
  apply Reads.bind (Reads.get1 hsize 139)
  apply Reads.next (Reads.checkEof _)
  change Reads (getGzip size true) _ _ _ _
  apply Reads.bind (Reads.get1 hsize 8)
  have htime : Reads (gzipTime size true) (put4L g.mtime) { f with form := 0, stamp := 0, hname := none, magic1 := 31 } ()
      { f with form := 0, stamp := tolong (g.mtime &&& 0xffffffff#64), hname := none, magic1 := 31 } :=
    Reads.last (Reads.get4 hsize _) (Reads.set _)
  cases hn : g.name with
  | none =>
    rw [if_pos rfl]
    apply Reads.bind (Reads.get1 hsize 0)
    apply Reads.next (Reads.checkEof _)
    apply Reads.bind htime
    apply Reads.last (Reads.skip hsize rfl)
    apply Reads.next Reads.pure
    apply Reads.next Reads.pure
    exact Reads.next Reads.pure Reads.pure
  | some name =>
    rw [if_neg (Option.some_ne_none name)]
    apply Reads.bind (Reads.get1 hsize 8)
    apply Reads.next (Reads.checkEof _)
    apply Reads.bind htime
    apply Reads.bind (Reads.skip hsize rfl)
    apply Reads.next Reads.pure
    apply Reads.last (Reads.last (Reads.name hsize (hname name hn)) (Reads.set _))
    exact Reads.next Reads.pure Reads.pure

theorem reads_zip (hsize : 0 < size) (hform : 1 < g.form.toInt) (hlen : g.zipName.length < 2 ^ 16) :
    Reads (getHeader size dos2time true) g.putHeader f 8 (g.found f) := by
  rw [putHeader, if_pos hform, found, if_pos hform]
  simp only [List.append_assoc]
  change Reads _ ([0x50] ++ ([0x4b] ++ ([3] ++ ([4] ++ _)))) _ _ _
  apply Reads.next (Reads.set _)
  apply Reads.bind (Reads.get1 hsize 0x50)
  apply Reads.next (Reads.set _)
  apply Reads.next (Reads.checkEof _)
  apply Reads.bind (Reads.get1 hsize 0x4b)
  apply Reads.next (Reads.checkEof _)
  change Reads (getZip size dos2time true) _ _ _ _
  apply Reads.bind (Reads.get1 hsize 3)
  apply Reads.bind (Reads.get1 hsize 4)
  apply Reads.bind (Reads.skip hsize rfl)
  apply Reads.bind (Reads.get2 hsize 8)
  apply Reads.next (Reads.checkEof _)
  change Reads (getZipFields size dos2time true 8) _ _ _ _
  apply Reads.bind (Reads.get2 hsize 8)
  apply Reads.next (Reads.checkEof _)
  apply Reads.bind (Reads.last (Reads.get4 hsize g.dos) (Reads.set _))
  apply Reads.bind (Reads.get4 hsize 0)
  apply Reads.next (Reads.set _)
  apply Reads.bind (Reads.get4 hsize 0)
  apply Reads.next (Reads.set _)
  apply Reads.bind (Reads.get4 hsize 0)
  apply Reads.next (Reads.set _)
  apply Reads.bind (Reads.get2 hsize _)
  apply Reads.bind (Reads.get2 hsize 9)
  have hfname : g.zipName.length = (((BitVec.ofNat 64 g.zipName.length).setWidth 16).setWidth 32 : UInt32T).toNat := by
    simp only [BitVec.toNat_setWidth, BitVec.toNat_ofNat]
    omega
  apply Reads.bind (Reads.last (Reads.take hsize _ hfname) (Reads.set _))
  apply Reads.last (Reads.ignore (g.reads_extra _ hsize))
  apply Reads.next (Reads.set _)
  apply Reads.next (Reads.checkEof _)
  exact Reads.pure

/-- `get_header` finds what `put_header` wrote. -/
theorem reads_putHeader (hsize : 0 < size) (hname : ∀ name, g.name = some name → 0 ∉ name)
    (hlen : 1 < g.form.toInt → g.zipName.length < 2 ^ 16) :
    Reads (getHeader size dos2time true) g.putHeader f 8 (g.found f) := by
  by_cases hform : 1 < g.form.toInt
  · exact g.reads_zip dos2time f hsize hform (hlen hform)
  · by_cases hzlib : g.form = 0
    · exact g.reads_gzip dos2time f hsize hzlib hname
    · exact g.reads_zlib dos2time f hsize hform hzlib

end Header

/-- `tolong` gives back a time of 32 bits. -/
theorem tolong_eq {time : ULong} (hlow : -2 ^ 31 ≤ time.toInt) (hhigh : time.toInt < 2 ^ 31) :
    tolong (time &&& 0xffffffff#64) = time := by
  have hbits : (time &&& 0x7fffffff#64).toNat = time.toNat % 2 ^ 31 := by
    rw [BitVec.toNat_and]
    exact Nat.and_two_pow_sub_one_eq_mod time.toNat 31
  have hsign : (time &&& 0x80000000#64).toNat = (time.toNat.testBit 31).toNat * 2 ^ 31 := by
    rw [BitVec.toNat_and]
    exact Nat.and_two_pow time.toNat 31
  rw [tolong, BitVec.and_assoc, BitVec.and_assoc]
  change (time &&& 0x7fffffff#64) - (time &&& 0x80000000#64) = time
  apply BitVec.eq_of_toNat_eq
  rw [BitVec.toNat_sub, hbits, hsign, Nat.testBit_eq_decide_div_mod_eq]
  rw [BitVec.toInt_eq_toNat_cond] at hlow hhigh
  have hlt := time.isLt
  split_ifs at hlow hhigh with hpos
  · rw [decide_eq_false (by omega), Bool.toNat_false]
    omega
  · rw [decide_eq_true (by omega), Bool.toNat_true]
    omega

/-- However its input is buffered, `get_header` takes a header that `put_header` wrote, no more, and finds the form, the
name and the time. -/
theorem header_round_trip (g : Header) {size : Nat} (hsize : 0 < size) (dos2time : ULong → ULong)
    (hname : ∀ name, g.name = some name → 0 ∉ name) (hlen : 1 < g.form.toInt → g.zipName.length < 2 ^ 16)
    (hlow : -2 ^ 31 ≤ g.mtime.toInt) (hhigh : g.mtime.toInt < 2 ^ 31) {s : In} (hok : s.Ok) (f : Found)
    {after : List Byte} (hcontent : s.content = g.putHeader ++ after) :
    ∃ s' f', getHeader size dos2time true (s, f) = .ok 8 (s', f') ∧ s'.Ok ∧ s'.content = after ∧
      (1 < g.form.toInt → f'.form = 3 ∧ f'.hname = some (g.zipName ++ [0]) ∧ f'.stamp = g.mtime) ∧
      (g.form = 0 → f'.form = 0 ∧ f'.hname = g.name.map (· ++ [0]) ∧ f'.stamp = g.mtime) ∧
      (¬1 < g.form.toInt → g.form ≠ 0 → f'.form = 1 ∧ f'.hname = none ∧ f'.stamp = 0) := by
  obtain ⟨s', hrun, hok', hcontent'⟩ := g.reads_putHeader dos2time f hsize hname hlen s after hok hcontent
  refine ⟨s', g.found f, hrun, hok', hcontent', ?_, ?_, ?_⟩
  · intro hform
    rw [Header.found, if_pos hform]
    exact ⟨rfl, rfl, tolong_eq hlow hhigh⟩
  · intro hform
    have hzip : ¬1 < g.form.toInt := by
      rw [hform]
      decide
    rw [Header.found, if_neg hzip, if_neg (not_not.2 hform)]
    exact ⟨rfl, rfl, tolong_eq hlow hhigh⟩
  · intro hzip hform
    rw [Header.found, if_neg hzip, if_pos hform]
    exact ⟨rfl, rfl, rfl⟩

/-- A gzip header with a name of one letter, read by two bytes. -/
theorem header_round_trip_letter : ∃ s' f', getHeader 2 (fun _ => 0) true
    (In.init (Header.putHeader ⟨0, 9, some [0x61], 1700000000, 0⟩ ++ [3, 0]), ⟨0, 0, none, 0, 0, 0, 0⟩) = .ok 8 (s', f') ∧
      s'.content = [3, 0] ∧ f'.form = 0 ∧ f'.hname = some [0x61, 0] ∧ f'.stamp = 1700000000 := by
  have hname : ∀ name, some [0x61] = some name → (0 : Byte) ∉ name := by
    intro name h
    cases h
    decide
  obtain ⟨s', f', hrun, -, hcontent, -, hgzip, -⟩ := header_round_trip ⟨0, 9, some [0x61], 1700000000, 0⟩
    Nat.zero_lt_two (fun _ => 0) hname (fun h => absurd h (by decide)) (by decide) (by decide) In.Ok.init
    ⟨0, 0, none, 0, 0, 0, 0⟩ rfl
  obtain ⟨hform, hname, hstamp⟩ := hgzip rfl
  exact ⟨s', f', hrun, hcontent, hform, hname, hstamp⟩

end Libibtl.Pgz
