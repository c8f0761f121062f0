import Libibtl.Datatype

/-! # Coded block lengths

The main thread lists the lengths of the blocks of a chunk in one, two or three bytes
each, and 128 ends the list. The compress thread decodes them while it compresses. What
it then takes for the blocks are the lengths of the list, and the rest of the chunk.
-/

namespace Libibtl.Pgz

/-- The bytes that `append_len` adds to the list. There are none when its assertion fails. -/
def appendLen (len : Nat) : Option (List Byte) :=
  if len < 4227136 then
    some <|
      if len < 64 then [BitVec.ofNat 8 (len + 128)]
      else if len < 32832 then [BitVec.ofNat 8 ((len - 64) / 2 ^ 8), BitVec.ofNat 8 (len - 64)]
      else [BitVec.ofNat 8 ((len - 32832) / 2 ^ 16 + 192), BitVec.ofNat 8 ((len - 32832) / 2 ^ 8),
        BitVec.ofNat 8 (len - 32832)]
  else none

/-- The length of the next block that `compress_thread` reads from the list, or `left` without one or at its end. -/
def nextLen : Option (List Byte) → Nat → Option (Nat × Option (List Byte))
  | none, left => some (left, none)
  | some [], _ => none
  | some (b :: next), left =>
    if b.toNat < 128 then
      match next with
      | [] => none
      | c :: next => some (b.toNat * 2 ^ 8 + c.toNat + 64, some next)
    else if b.toNat = 128 then some (left, some next)
    else if b.toNat < 192 then some (b.toNat % 2 ^ 6, some next)
    else
      match next with
      | c :: d :: next => some (b.toNat % 2 ^ 6 * 2 ^ 16 + c.toNat * 2 ^ 8 + 32832 + d.toNat, some next)
      | _ => none

/-- The blocks that the loop of `compress_thread` compresses. There are none when it reads past the list, or when
the blocks are longer than the input and `left` wraps. -/
def blocksLoop : Nat → Option (List Byte) → Nat → Option (List Nat)
  | 0, _, _ => none
  | n + 1, next, left =>
    match nextLen next left with
    | none => none
    | some (len, next) =>
      if left < len then none
      else if left - len = 0 then some [len]
      else (blocksLoop n next (left - len)).map (len :: ·)

/-- The blocks of a chunk of `left` bytes. No block but that of an empty chunk is empty. -/
def blocks (lens : Option (List Byte)) (left : Nat) : Option (List Nat) := blocksLoop (left + 1) lens left

/-- The list of block lengths for `ls`, without its end. -/
def codedLens : List Nat → Option (List Byte)
  | [] => some []
  | len :: ls =>
    match appendLen len, codedLens ls with
    | some bs, some rest => some (bs ++ rest)
    | _, _ => none

theorem appendLen_isSome {len : Nat} : (appendLen len).isSome ↔ len < 4227136 := by
  rw [appendLen]
  split <;> simp_all

theorem appendLen_zero : appendLen 0 = some [128#8] := rfl

/-- A coded length is read back. -/
theorem nextLen_appendLen {len : Nat} (hpos : 0 < len) {bs : List Byte} (h : appendLen len = some bs)
    (next : List Byte) (left : Nat) : nextLen (some (bs ++ next)) left = some (len, some next) := by
  rw [appendLen] at h
  split at h
  · next hlt =>
    rw [Option.some.injEq] at h
    subst h
    by_cases h₁ : len < 64
    · simp only [h₁, if_true, List.singleton_append, nextLen, BitVec.toNat_ofNat]
      rw [if_neg (by omega), if_neg (by omega), if_pos (by omega)]
      simp only [Option.some.injEq, Prod.mk.injEq, and_true]
      omega
    · by_cases h₂ : len < 32832
      · simp only [h₁, h₂, if_false, if_true, List.cons_append, List.nil_append, nextLen, BitVec.toNat_ofNat]
        rw [if_pos (by omega)]
        simp only [Option.some.injEq, Prod.mk.injEq, and_true]
        omega
      · simp only [h₁, h₂, if_false, List.cons_append, List.nil_append, nextLen, BitVec.toNat_ofNat]
        rw [if_neg (by omega), if_neg (by omega), if_neg (by omega)]
        simp only [Option.some.injEq, Prod.mk.injEq, and_true]
        omega
  · cases h

theorem nextLen_end (next : List Byte) (left : Nat) : nextLen (some (128#8 :: next)) left = some (left, some next) := rfl

theorem blocksLoop_coded {ls : List Nat} {bs next : List Byte} (hcoded : codedLens ls = some bs)
    (hpos : ∀ len ∈ ls, 0 < len) {n left : Nat} (hleft : 0 < left) (hsum : ls.sum ≤ left) (hn : left < n) :
    blocksLoop n (some (bs ++ 128#8 :: next)) left =
      some (if ls.sum = left then ls else ls ++ [left - ls.sum]) := by
  induction ls generalizing n left bs with
  | nil =>
    cases hcoded
    obtain ⟨n, rfl⟩ : ∃ k, n = k + 1 := ⟨n - 1, by omega⟩
    simp only [List.nil_append, blocksLoop, nextLen_end]
    simp [hleft.ne]
  | cons len ls ih =>
    rw [codedLens] at hcoded
    split at hcoded
    · next cs rest hlen hls =>
      cases hcoded
      obtain ⟨n, rfl⟩ : ∃ k, n = k + 1 := ⟨n - 1, by omega⟩
      have hlen' := hpos len List.mem_cons_self
      have hcons : (len :: ls).sum = len + ls.sum := List.sum_cons
      rw [blocksLoop, List.append_assoc, nextLen_appendLen hlen' hlen]
      dsimp only
      rw [if_neg (by omega)]
      split
      · have hnil : ls = [] := by
          cases ls with
          | nil => rfl
          | cons k ls =>
            have := hpos k (by simp)
            have : (k :: ls).sum = k + ls.sum := List.sum_cons
            omega
        subst hnil
        rw [if_pos (by omega)]
      · rw [ih hls (fun k hk => hpos k (List.mem_cons_of_mem _ hk)) (by omega) (by omega) (by omega)]
        by_cases hall : ls.sum = left - len
        · rw [if_pos hall, if_pos (by omega)]
          rfl
        · rw [if_neg hall, if_neg (by omega), hcons, Nat.sub_sub]
          rfl
    · cases hcoded

/-- The compress thread takes the blocks that the main thread has listed, and the rest of the chunk. -/
theorem blocks_coded {ls : List Nat} {bs : List Byte} (hcoded : codedLens ls = some bs) (hpos : ∀ len ∈ ls, 0 < len)
    {left : Nat} (hleft : 0 < left) (hsum : ls.sum ≤ left) :
    blocks (some (bs ++ [128#8])) left = some (if ls.sum = left then ls else ls ++ [left - ls.sum]) :=
  blocksLoop_coded hcoded hpos hleft hsum (Nat.lt_succ_self left)

/-- The blocks make up the chunk. -/
theorem blocksLoop_sum {n left : Nat} {next : Option (List Byte)} {ls : List Nat} (h : blocksLoop n next left = some ls) :
    ls.sum = left ∧ ls ≠ [] := by
  induction n generalizing next left ls with
  | zero => cases h
  | succ n ih =>
    rw [blocksLoop] at h
    split at h
    · cases h
    · next len next' _ =>
      split at h
      · cases h
      · split at h
        · cases h
          exact ⟨by rw [List.sum_singleton]; omega, List.cons_ne_nil _ _⟩
        · obtain ⟨ls', hls', rfl⟩ := Option.map_eq_some_iff.1 h
          have hcons : (len :: ls').sum = len + ls'.sum := List.sum_cons
          have := (ih hls').1
          exact ⟨by omega, List.cons_ne_nil _ _⟩

/-- Without a list a chunk is one block. -/
theorem blocks_none (left : Nat) : blocks none left = some [left] := by
  simp [blocks, blocksLoop, nextLen]

theorem codedLens_concat {ls : List Nat} {bs cs : List Byte} {len : Nat} (h : codedLens ls = some bs)
    (hlen : appendLen len = some cs) : codedLens (ls ++ [len]) = some (bs ++ cs) := by
  induction ls generalizing bs with
  | nil =>
    cases h
    simp [codedLens, hlen]
  | cons k ls ih =>
    rw [codedLens] at h
    split at h
    · next ds rest hk hls =>
      cases h
      rw [List.cons_append, codedLens, hk, ih hls, List.append_assoc]
    · cases h

end Libibtl.Pgz
