import Libibtl.Pgz.Deflate

/-! # Stored blocks

At level 0 the compression library stores its input, in blocks with their lengths before
them. The stream below keeps its input until it is flushed.
-/

namespace Libibtl.Pgz

/-- A stored block of less than 65536 bytes. -/
def storedBlock (last : Bool) (bs : List Byte) : List Byte :=
  [if last then 1 else 0, BitVec.ofNat 8 bs.length, BitVec.ofNat 8 (bs.length / 2 ^ 8),
    ~~~ BitVec.ofNat 8 bs.length, ~~~ BitVec.ofNat 8 (bs.length / 2 ^ 8)] ++ bs

/-- Stored blocks of `bs`, at most `n` of them short of the last. -/
def storedBlocks (last : Bool) : Nat → List Byte → List Byte
  | 0, bs => storedBlock last bs
  | n + 1, bs =>
    if bs.length < 65536 then storedBlock last bs
    else storedBlock false (bs.take 65535) ++ storedBlocks last n (bs.drop 65535)

/-- The bytes are stored blocks of the text. -/
inductive StoredCode : List Byte → List Byte → Bool → Prop
  | nil : StoredCode [] [] false
  | block {bs a cs : List Byte} {last : Bool} (hlen : bs.length < 65536) (h : StoredCode a cs last) :
    StoredCode (storedBlock false bs ++ a) (bs ++ cs) last
  | last {bs : List Byte} (hlen : bs.length < 65536) : StoredCode (storedBlock true bs) bs true

theorem StoredCode.append {a b bs cs : List Byte} {last last' : Bool} (h : StoredCode a bs last') (hmore : last' = false)
    (h' : StoredCode b cs last) : StoredCode (a ++ b) (bs ++ cs) last := by
  induction h with
  | nil => exact h'
  | block hlen _ ih =>
    rw [List.append_assoc, List.append_assoc]
    exact .block hlen (ih hmore)
  | last => cases hmore

theorem storedCode_storedBlocks (last : Bool) {n : Nat} {bs : List Byte} (hn : bs.length ≤ n) :
    StoredCode (storedBlocks last n bs) bs last := by
  have hone : ∀ {cs : List Byte}, cs.length < 65536 → StoredCode (storedBlock last cs) cs last := by
    intro cs hlen
    cases last with
    | true => exact .last hlen
    | false =>
      have := StoredCode.block hlen .nil
      rwa [List.append_nil, List.append_nil] at this
  induction n generalizing bs with
  | zero => exact hone (by omega)
  | succ n ih =>
    rw [storedBlocks]
    split
    · next hlen => exact hone hlen
    · next hlen =>
      have hdrop : (bs.drop 65535).length ≤ n := by
        rw [List.length_drop]
        omega
      have htake : (bs.take 65535).length < 65536 := by
        rw [List.length_take]
        omega
      have := StoredCode.block htake (ih hdrop)
      rwa [List.take_append_drop] at this

theorem length_storedBlocks (last : Bool) (n : Nat) (bs : List Byte) :
    (storedBlocks last n bs).length ≤ 5 + 6 * bs.length := by
  induction n generalizing bs with
  | zero =>
    rw [storedBlocks, storedBlock, List.length_append]
    simp
    omega
  | succ n ih =>
    rw [storedBlocks]
    split
    · rw [storedBlock, List.length_append]
      simp
      omega
    · have := ih (bs.drop 65535)
      rw [List.length_append, storedBlock, List.length_append]
      simp at this ⊢
      omega

/-- A stream with the input that is not in a block yet, and the output that has not been handed out. -/
structure StoredStream where
  buf : List Byte
  pending : List Byte
  bits : Nat
  ended : Bool

namespace StoredStream

/-- What a call adds to the output. -/
def coded (s : StoredStream) (bs : List Byte) (f : Flush) : List Byte :=
  let text := s.buf ++ bs
  match f with
  | .noFlush => []
  | .block => if text = [] then [] else storedBlocks false text.length text
  | .syncFlush => (if text = [] then [] else storedBlocks false text.length text) ++ storedBlock false []
  | .finish => if s.ended then [] else storedBlocks true text.length text

def call (s : StoredStream) (bs : List Byte) (f : Flush) (room : Nat) : StoredStream where
  buf :=
    match f with
    | .noFlush => s.buf ++ bs
    | _ => []
  pending := (s.pending ++ s.coded bs f).drop room
  bits := if s.coded bs f = [] then s.bits else 0
  ended :=
    match f with
    | .finish => true
    | _ => s.ended

def out (s : StoredStream) (bs : List Byte) (f : Flush) (room : Nat) : List Byte :=
  (s.pending ++ s.coded bs f).take room

def Ready (s : StoredStream) (bs a : List Byte) : Prop :=
  s.ended = false ∧ ∃ cs, StoredCode (a ++ s.pending) cs false ∧ cs ++ s.buf = bs

def Ended (s : StoredStream) (bs a : List Byte) : Prop :=
  s.ended = true ∧ s.buf = [] ∧ StoredCode (a ++ s.pending) bs true

variable {s : StoredStream} {bs a input : List Byte} {f : Flush} {room : Nat}

theorem out_pending (s : StoredStream) (bs : List Byte) (f : Flush) (room : Nat) :
    s.out bs f room ++ (s.call bs f room).pending = s.pending ++ s.coded bs f := List.take_append_drop ..

theorem pending_of_lt (h : (s.out bs f room).length < room) : (s.call bs f room).pending = [] := by
  rw [out, List.length_take] at h
  apply List.drop_eq_nil_of_le
  omega

theorem coded_block (s : StoredStream) (bs : List Byte) : StoredCode (s.coded bs .block) (s.buf ++ bs) false := by
  simp only [coded]
  split
  · next hnil =>
    rw [hnil]
    exact .nil
  · exact storedCode_storedBlocks false (Nat.le_refl _)

theorem Ready.call (h : s.Ready bs a) (hf : f ≠ .finish) :
    (s.call input f room).Ready (bs ++ input) (a ++ s.out input f room) ∧
      (f ≠ .noFlush → (s.call input f room).buf = []) := by
  obtain ⟨hended, cs, hcode, rfl⟩ := h
  have hblock : ∀ {b}, StoredCode b (s.buf ++ input) false →
      StoredCode (a ++ (s.pending ++ b)) (cs ++ (s.buf ++ input)) false := by
    intro b hb
    rw [← List.append_assoc]
    exact hcode.append rfl hb
  have hout := s.out_pending input f room
  cases f with
  | noFlush =>
    refine ⟨⟨hended, cs, ?_, ?_⟩, fun hn => absurd rfl hn⟩
    · rw [List.append_assoc, hout]
      simp only [coded, List.append_nil]
      exact hcode
    · rw [List.append_assoc]
      rfl
  | block =>
    refine ⟨⟨hended, cs ++ (s.buf ++ input), ?_, ?_⟩, fun _ => rfl⟩
    · rw [List.append_assoc, hout]
      exact hblock (s.coded_block input)
    · change cs ++ (s.buf ++ input) ++ [] = cs ++ s.buf ++ input
      rw [List.append_nil, List.append_assoc]
  | syncFlush =>
    refine ⟨⟨hended, cs ++ (s.buf ++ input), ?_, ?_⟩, fun _ => rfl⟩
    · rw [List.append_assoc, hout]
      apply hblock
      have hempty : StoredCode (storedBlock false []) [] false := .block (by decide) .nil
      have := (s.coded_block input).append rfl hempty
      rwa [List.append_nil] at this
    · change cs ++ (s.buf ++ input) ++ [] = cs ++ s.buf ++ input
      rw [List.append_nil, List.append_assoc]
  | finish => exact absurd rfl hf

theorem Ready.finish (h : s.Ready bs a) : (s.call input .finish room).Ended (bs ++ input) (a ++ s.out input .finish room) := by
  obtain ⟨hended, cs, hcode, rfl⟩ := h
  refine ⟨rfl, rfl, ?_⟩
  rw [List.append_assoc, s.out_pending, ← List.append_assoc a, List.append_assoc cs]
  apply hcode.append rfl
  simp only [coded, hended, Bool.false_eq_true, if_false]
  exact storedCode_storedBlocks true (Nat.le_refl _)

theorem Ended.finish (h : s.Ended bs a) : (s.call [] .finish room).Ended bs (a ++ s.out [] .finish room) := by
  obtain ⟨hended, hbuf, hcode⟩ := h
  refine ⟨rfl, rfl, ?_⟩
  rw [List.append_assoc, s.out_pending]
  simp only [coded, hended, if_true, List.append_nil]
  exact hcode

theorem Ready.call_or_finish (h : s.Ready bs a) (f : Flush) (room : Nat) :
    (s.call input f room).Ready (bs ++ input) (a ++ s.out input f room) ∨
      f = .finish ∧ (s.call input f room).Ended (bs ++ input) (a ++ s.out input f room) := by
  cases f with
  | finish => exact .inr ⟨rfl, h.finish⟩
  | noFlush => exact .inl (h.call (f := .noFlush) (by decide)).1
  | block => exact .inl (h.call (f := .block) (by decide)).1
  | syncFlush => exact .inl (h.call (f := .syncFlush) (by decide)).1

theorem Ready.code (h : s.Ready bs a) (hpending : s.pending = []) (hbuf : s.buf = []) : StoredCode a bs false := by
  obtain ⟨-, cs, hcode, rfl⟩ := h
  rw [hpending, List.append_nil] at hcode
  rwa [hbuf, List.append_nil]

theorem Ended.code (h : s.Ended bs a) (hpending : s.pending = []) : StoredCode a bs true := by
  have hcode := h.2.2
  rwa [hpending, List.append_nil] at hcode

theorem length_coded (s : StoredStream) (bs : List Byte) (f : Flush) (room : Nat) :
    (s.coded bs f).length + 10 * (s.call bs f room).buf.length ≤ 6 + 10 * (s.buf.length + bs.length) := by
  have hblocks := fun last => length_storedBlocks last (s.buf ++ bs).length (s.buf ++ bs)
  have hempty : (storedBlock false []).length = 5 := rfl
  have htext : (s.buf ++ bs).length = s.buf.length + bs.length := List.length_append
  have hnil : s.buf ++ bs = [] ∨ 0 < (s.buf ++ bs).length := or_iff_not_imp_left.2 List.length_pos_iff.2
  cases f with
  | noFlush =>
    simp only [coded, call, List.length_nil]
    omega
  | block =>
    have := hblocks false
    simp only [coded, call, List.length_nil]
    split
    · exact Nat.zero_le _
    · next hne =>
      have := hnil.resolve_left hne
      omega
  | syncFlush =>
    have := hblocks false
    simp only [coded, call, List.length_nil]
    have hlen : ∀ a : List Byte, (a ++ storedBlock false []).length = a.length + 5 := fun a => List.length_append
    rw [hlen]
    split
    · rw [List.length_nil]
      omega
    · next hne =>
      have := hnil.resolve_left hne
      omega
  | finish =>
    have := hblocks true
    simp only [coded, call, List.length_nil]
    split
    · exact Nat.zero_le _
    · omega

/-- What is left to hand out becomes less when a call with more than six bytes of room fills them. -/
theorem measure_call (hroom : 6 < room) (hout : (s.out bs f room).length = room) :
    (s.call bs f room).pending.length + 10 * (s.call bs f room).buf.length <
      s.pending.length + 10 * (s.buf.length + bs.length) := by
  have hcoded := s.length_coded bs f room
  have hlen := congrArg List.length (s.out_pending bs f room)
  rw [List.length_append, List.length_append, hout] at hlen
  omega

end StoredStream

/-- Level 0 of the compression library. -/
def storedCodec : Codec where
  Stream := StoredStream
  init := ⟨[], [], 0, false⟩
  reset _ := ⟨[], [], 0, false⟩
  setDictionary s _ := s
  deflate s bs f room s' rest out := s' = s.call bs f room ∧ rest = [] ∧ out = s.out bs f room
  bits := StoredStream.bits
  prime s := { s with bits := s.bits + 10 }
  decodes _ := StoredCode
  ready s _ bs a := s.Ready bs a
  during f s _ bs a input := s.Ready bs a ∨ f = .finish ∧ input = [] ∧ s.Ended bs a
  flushed s _ bs a := s.Ready bs a ∧ s.buf = []
  ready_of_flushed := And.left
  during_of_ready _ := Or.inl
  flushed_reset _ := ⟨⟨rfl, [], .nil, rfl⟩, rfl⟩
  flushed_setDictionary _ _ _ := ⟨⟨rfl, [], .nil, rfl⟩, rfl⟩
  flushed_prime h := h
  bits_prime _ := rfl
  call s bs f room := ⟨_, _, _, rfl, rfl, rfl⟩
  room h := by
    obtain ⟨-, -, rfl⟩ := h
    exact List.length_take_le _ _
  finite f := by
    apply Subrelation.wf (r := InvImage (· < ·) fun x : StoredStream × List Byte =>
      x.1.pending.length + 10 * (x.1.buf.length + x.2.length)) _ (InvImage.wf _ Nat.lt_wfRel.wf)
    rintro ⟨s', rest⟩ ⟨s, bs⟩ ⟨room, out, hroom, ⟨rfl, rfl, rfl⟩, hout⟩
    exact StoredStream.measure_call hroom hout
  full h hcall _ := by
    obtain ⟨rfl, rfl, rfl⟩ := hcall
    refine ⟨_, (List.append_nil _).symm, ?_⟩
    rcases h with h | ⟨rfl, rfl, h⟩
    · exact (h.call_or_finish _ _).imp_right fun h => ⟨h.1, rfl, h.2⟩
    · rw [List.append_nil]
      exact .inr ⟨rfl, rfl, h.finish⟩
  emptied _ hcall _ := hcall.2.1
  taken h hcall _ := by
    obtain ⟨rfl, -, rfl⟩ := hcall
    exact ((h.resolve_right fun h => nomatch h.1).call (f := .noFlush) (by decide)).1
  block h hcall hroom := by
    obtain ⟨rfl, -, rfl⟩ := hcall
    obtain ⟨hready, hbuf⟩ := (h.resolve_right fun h => nomatch h.1).call (f := .block) (by decide)
    exact ⟨⟨hready, hbuf (by decide)⟩, fun _ => hready.code (StoredStream.pending_of_lt hroom) (hbuf (by decide))⟩
  idle h hcall := by
    obtain ⟨rfl, -, rfl⟩ := hcall
    obtain ⟨hready, hbuf⟩ := h
    constructor
    · have hcall := fun room => @StoredStream.Ready.call _ _ _ [] .block room hready (by decide)
      simp only [List.append_nil] at hcall
      exact ⟨(hcall _).1, (hcall _).2 (by decide)⟩
    · simp [StoredStream.call, StoredStream.coded, hbuf]
  sync h hcall hroom := by
    obtain ⟨rfl, -, rfl⟩ := hcall
    obtain ⟨hready, hbuf⟩ := (h.resolve_right fun h => nomatch h.1).call (f := .syncFlush) (by decide)
    refine ⟨⟨hready, hbuf (by decide)⟩, ?_, hready.code (StoredStream.pending_of_lt hroom) (hbuf (by decide))⟩
    simp [StoredStream.call, StoredStream.coded, storedBlock]
  finish h hcall hroom := by
    obtain ⟨rfl, -, rfl⟩ := hcall
    rcases h with h | ⟨-, rfl, h⟩
    · exact h.finish.code (StoredStream.pending_of_lt hroom)
    · rw [List.append_nil]
      exact h.finish.code (StoredStream.pending_of_lt hroom)
  decodes_nil _ := .nil
  decodes_append h h' := h.append rfl h'
  decodes_longer _ h := h

end Libibtl.Pgz
