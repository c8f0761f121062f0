import Libibtl.Pgz.Checksum

/-! # Headers and trailers

What the write thread puts before and behind the compressed chunks, for gzip, zlib and
zip. A time stands for its bits, and its form in a zip header depends on the time zone.
-/

namespace Libibtl.Pgz

open Foundation

/-- `PUT2L`. -/
def put2L (b : ULong) : List Byte := [b.setWidth 8, (b >>> 8).setWidth 8]

/-- `PUT4L`. -/
def put4L (b : ULong) : List Byte := put2L (b &&& 0xffff#64) ++ put2L (b >>> 16)

/-- `PUT4M`. -/
def put4M (b : ULong) : List Byte := [(b >>> 24).setWidth 8, (b >>> 16).setWidth 8, (b >>> 8).setWidth 8, b.setWidth 8]

/-- The globals that headers and trailers tell of. `name` is a string without its end, and `dos` is the value of
`time2dos(mtime)`. -/
structure Header where
  form : CInt
  level : CInt
  name : Option (List Byte)
  mtime : ULong
  dos : ULong

namespace Header

variable (g : Header)

/-- The name in a zip file. -/
def zipName : List Byte := g.name.getD [0x2d]

/-- The extended timestamp. -/
def extra : List Byte := put2L 0x5455 ++ put2L 5 ++ [1] ++ put4L g.mtime

/-- The level in the second byte of a zlib header. -/
def zlibLevel : Nat :=
  if g.level = 9 then 3 else if g.level = 1 then 0 else if 6 ≤ g.level.toInt ∨ g.level = -1 then 1 else 2

def zlibFlags : Nat := g.zlibLevel * 2 ^ 6 + (31 - (0x78 * 2 ^ 8 + g.zlibLevel * 2 ^ 6) % 31)

/-- The bytes that `put_header` writes. -/
def putHeader : List Byte :=
  if 1 < g.form.toInt then
    put4L 0x04034b50 ++ put2L 20 ++ put2L 8 ++ put2L 8 ++ put4L g.dos ++ put4L 0 ++ put4L 0 ++ put4L 0 ++
      put2L (BitVec.ofNat 64 g.zipName.length) ++ put2L 9 ++ g.zipName ++ g.extra
  else if g.form ≠ 0 then [0x78, BitVec.ofNat 8 g.zlibFlags]
  else
    [31, 139, 8, if g.name = none then 0 else 8] ++ put4L g.mtime ++
      [if g.level = 9 then 2 else if g.level = 1 then 4 else 0, 3] ++ (g.name.map (· ++ [0])).getD []

/-- The length that `put_header` returns. -/
def headerLen : ULong :=
  if 1 < g.form.toInt then 30 + BitVec.ofNat 64 g.zipName.length + 9
  else if g.form ≠ 0 then 2
  else
    match g.name with
    | none => 10
    | some name => 10 + BitVec.ofNat 64 name.length + 1

/-- The bytes that `put_trailer` writes. -/
def putTrailer (ulen clen check head : ULong) : List Byte :=
  if 1 < g.form.toInt then
    let descriptor := put4L 0x08074b50 ++ put4L check ++ put4L clen ++ put4L ulen
    let central := put4L 0x02014b50 ++ [63, 255] ++ put2L 20 ++ put2L 8 ++ put2L 8 ++ put4L g.dos ++ put4L check ++
      put4L clen ++ put4L ulen ++ put2L (BitVec.ofNat 64 g.zipName.length) ++ put2L 9 ++ put2L 0 ++ put2L 0 ++
      put2L 0 ++ put4L 0 ++ put4L 0
    let cent := 46 + BitVec.ofNat 64 g.zipName.length + 9
    let record := put4L 0x06054b50 ++ put2L 0 ++ put2L 0 ++ put2L 1 ++ put2L 1 ++ put4L cent ++
      put4L (head + clen + 16) ++ put2L 0
    descriptor ++ central ++ g.zipName ++ g.extra ++ record
  else if g.form ≠ 0 then put4M check
  else put4L check ++ put4L ulen

@[simp] theorem length_put2L (b : ULong) : (put2L b).length = 2 := rfl

@[simp] theorem length_put4L (b : ULong) : (put4L b).length = 4 := rfl

@[simp] theorem length_put4M (b : ULong) : (put4M b).length = 4 := rfl

/-- `put_header` returns the number of bytes that it writes. -/
theorem headerLen_eq : g.headerLen = BitVec.ofNat 64 g.putHeader.length := by
  apply BitVec.eq_of_toNat_eq
  rw [headerLen, putHeader]
  split
  · simp [extra]
    omega
  · split
    · rfl
    · cases g.name with
      | none => rfl
      | some name =>
        simp
        omega

/-- The end record of a zip file names the length of the central directory and its place behind the header, the
compressed bytes `a` and their descriptor. -/
theorem putTrailer_zip (hform : 1 < g.form.toInt) (ulen check : ULong) (a : List Byte) :
    ∃ descriptor central, g.putTrailer ulen (BitVec.ofNat 64 a.length) check g.headerLen =
      descriptor ++ (central ++ (put4L 0x06054b50 ++ put2L 0 ++ put2L 0 ++ put2L 1 ++ put2L 1 ++
        put4L (BitVec.ofNat 64 central.length) ++ put4L (BitVec.ofNat 64 (g.putHeader ++ a ++ descriptor).length) ++ put2L 0)) := by
  have hhead := g.headerLen_eq
  generalize hclen : BitVec.ofNat 64 a.length = clen
  refine ⟨put4L 0x08074b50 ++ put4L check ++ put4L clen ++ put4L ulen,
    put4L 0x02014b50 ++ [63, 255] ++ put2L 20 ++ put2L 8 ++ put2L 8 ++ put4L g.dos ++ put4L check ++ put4L clen ++
      put4L ulen ++ put2L (BitVec.ofNat 64 g.zipName.length) ++ put2L 9 ++ put2L 0 ++ put2L 0 ++ put2L 0 ++ put4L 0 ++
      put4L 0 ++ g.zipName ++ g.extra, ?_⟩
  have hoffset : g.headerLen + clen + 16 = BitVec.ofNat 64 (g.putHeader ++ a ++
      (put4L 0x08074b50 ++ put4L check ++ put4L clen ++ put4L ulen)).length := by
    rw [hhead, ← hclen, List.length_append, List.length_append, BitVec.ofNat_add, BitVec.ofNat_add]
    rfl
  rw [← hoffset, putTrailer, if_pos hform]
  have hcent : ∀ front : List Byte, front.length = 46 →
      46 + BitVec.ofNat 64 g.zipName.length + 9 = BitVec.ofNat 64 (front ++ g.zipName ++ g.extra).length := by
    intro front hfront
    rw [List.length_append, List.length_append, BitVec.ofNat_add, BitVec.ofNat_add, hfront]
    rfl
  rw [← hcent _ rfl]
  simp only [List.append_assoc]

end Header

end Libibtl.Pgz
