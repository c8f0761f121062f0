import Libibtl.EagerDelivery

/-! # The bytes that the eager path touches

The unpack loops run over the count of the sender and the datatype of the receiver.
The posted count is not looked at, nor is `eager_size`. Each loop is given as the
list of its copies, and the bounds are bounds of every copy in the list.
-/

namespace Libibtl

open Foundation

/-- The copies of `fdmi_cpy_eager_buff` and `fdmi_cpy_eager_buff2`, from the eager buffer to the
user pointer. -/
def eagerCopies (d : Datatype) (count : CInt) : List Copy :=
  if d.count = 1 then [⟨0, 0, (uint64OfInt d.blength * d.size * uint64OfInt count).toNat⟩]
  else blockCopies (blockLen d) (strideLen d) (blockLen d) (turns d.count * turns count) 0 0

theorem unpackEager_eq_perform (d : Datatype) (count : CInt) (recv : Buffer) (recvOff : Nat) (eager : Buffer) :
    unpackEager d count recv recvOff eager = perform eager recvOff 0 (eagerCopies d count) recv := by
  rw [unpackEager, eagerCopies]
  split
  · rfl
  · exact copyLoop_dst ..

/-- The region of `n` elements of `d` behind a user pointer holds the byte at offset `i`. -/
def Datatype.Covers (d : Datatype) (n : CInt) (i : Nat) : Prop :=
  ∃ b < d.blocks n, b * d.stepLen ≤ i ∧ i < b * d.stepLen + blockLen d

/-- The copies write inside the region of `n` elements of `d`, and they read the first `size` bytes only. -/
def CopiesWithin (cs : List Copy) (d : Datatype) (n : CInt) (size : Nat) : Prop :=
  (∀ c ∈ cs, ∀ i, c.Writes i → d.Covers n i) ∧ ∀ c ∈ cs, ∀ i, c.Reads i → i < size

section CopiesWithin

variable {cs : List Copy} {d : Datatype} {n : CInt} {size off : Nat} {src src' dst : Buffer}

theorem CopiesWithin.outside (h : CopiesWithin cs d n size) {i : Nat} (hi : ∀ k, d.Covers n k → i ≠ off + k) :
    perform src off 0 cs dst i = dst i := by
  apply perform_other
  intro c hc k hk
  exact hi k (h.1 c hc k hk)

/-- What lies behind the payload does not matter. -/
theorem CopiesWithin.payload (h : CopiesWithin cs d n size) (hsrc : ∀ k < size, src k = src' k) :
    perform src off 0 cs dst = perform src' off 0 cs dst := by
  apply perform_congr
  intro c hc k hk
  rw [Nat.zero_add]
  exact hsrc k (h.2 c hc k hk)

end CopiesWithin

namespace Proc

variable {σ τ : Proc} {q p a : QueryId} {d : Datatype} {n : CInt} {w : Wire}

/-- The copies of `fdmi_cpy_eager_buff`. -/
def cpyEagerBuffCopies (τ : Proc) (p a : QueryId) : List Copy :=
  eagerCopies (τ.queries p).msg.dtype (τ.queries a).msg.count

/-- The copies of `fdmi_cpy_eager_buff2`. -/
def cpyEagerBuff2Copies (τ : Proc) (dtype : Datatype) (a : QueryId) : List Copy :=
  eagerCopies dtype (τ.queries a).msg.count

theorem copyEager_perform (recv : Ptr) (dtype : Datatype) (a : QueryId) : (τ.copyEager recv dtype a).mem =
    Function.update τ.mem recv.obj
      (perform (τ.queries a).msg.eagerBuff recv.off 0 (τ.cpyEagerBuff2Copies dtype a) (τ.mem recv.obj)) := by
  rw [copyEager, setMem, unpackEager_eq_perform]
  rfl

theorem cpyEagerBuff_perform : (τ.cpyEagerBuff p a).mem = Function.update τ.mem (τ.queries p).msg.addr.obj
    (perform (τ.queries a).msg.eagerBuff (τ.queries p).msg.addr.off 0 (τ.cpyEagerBuffCopies p a)
      (τ.mem (τ.queries p).msg.addr.obj)) := by
  rw [cpyEagerBuff_mem, copyEager_perform]
  rfl

/-- A receive that takes an eager message makes the copies of `fdmi_cpy_eager_buff2` into its buffer. -/
theorem postRecvMsgParam_perform {rank : CInt} {prm : RecvParam}
    (hsel : τ.getMatchedQuery2 rank prm.tag prm.comm τ.aq = some a) (hop : (τ.queries a).msg.opcode = .eager) :
    (τ.postRecvMsgParam rank prm).mem = Function.update τ.mem prm.buf.obj
      (perform (τ.queries a).msg.eagerBuff prm.buf.off 0 (τ.cpyEagerBuff2Copies prm.datatype a)
        (τ.mem prm.buf.obj)) := by
  rw [postRecvMsgParam]
  simp only [hsel, hop]
  exact copyEager_perform ..

theorem Sends.sizes (h : σ.Sends q d n w) (hfit : (totalSendSize d n).toNat ≤ eagerBuffSize) :
    w.ctl.count = n ∧ w.ctl.eagerSize = totalSendSize d n := by
  obtain ⟨c, hc, hposted⟩ := h.posted
  rw [← h.dtype, ← h.count] at hfit
  rw [postSendMsg_sq_eager hc hfit] at hposted
  have hlast := List.append_cancel_left hposted
  simp only [List.cons.injEq, SendWr.mk.injEq, SendOp.send.injEq, true_and, and_true] at hlast
  rw [← hlast, sentCtl, if_pos hfit, ← h.count, ← h.dtype]
  exact ⟨rfl, rfl⟩

end Proc

/-- A message of `n` elements of `d` that went the eager way has arrived in `a`, and it is matched with a
receive of `n'` elements of `d'`: the waiting query `p`, or a call with the arguments `prm`. -/
def EagerWithin (d : Datatype) (n : CInt) (d' : Datatype) (n' : CInt) : Prop :=
  ∀ (σ τ : Proc) (q p a : QueryId) (w : Wire) (prm : RecvParam), σ.Sends q d n w → p ≠ a →
    (τ.queries p).msg.dtype = d' → (τ.queries p).msg.count = n' → prm.datatype = d' → prm.count = n' →
    CopiesWithin ((τ.scatter a w).cpyEagerBuffCopies p a) d' n'
      ((τ.scatter a w).queries a).msg.eagerSize.toNat ∧
    CopiesWithin ((τ.scatter a w).cpyEagerBuff2Copies prm.datatype a) d' n'
      ((τ.scatter a w).queries a).msg.eagerSize.toNat

section Within

variable {d d' : Datatype} {n n' : CInt} {size : Nat}

theorem forall_writes_single {len : Nat} {P : Nat → Prop} :
    (∀ c ∈ ([⟨0, 0, len⟩] : List Copy), ∀ i, c.Writes i → P i) ↔ ∀ i < len, P i := by
  simp [Copy.Writes]

theorem forall_reads_single {len : Nat} {P : Nat → Prop} :
    (∀ c ∈ ([⟨0, 0, len⟩] : List Copy), ∀ i, c.Reads i → P i) ↔ ∀ i < len, P i := by
  simp [Copy.Reads]

theorem forall_writes_blocks {len dstStep srcStep N : Nat} {P : Nat → Prop} :
    (∀ c ∈ blockCopies len dstStep srcStep N 0 0, ∀ i, c.Writes i → P i) ↔
      ∀ k < N, ∀ i, k * dstStep ≤ i → i < k * dstStep + len → P i := by
  simp only [mem_blockCopies, Copy.Writes]
  constructor
  · intro h k hk i hlow hhigh
    exact h _ ⟨k, hk, rfl⟩ i ⟨by simpa using hlow, by simpa using hhigh⟩
  · rintro h _ ⟨k, hk, rfl⟩ i ⟨hlow, hhigh⟩
    exact h k hk i (by simpa using hlow) (by simpa using hhigh)

theorem forall_reads_blocks {len dstStep srcStep N : Nat} {P : Nat → Prop} :
    (∀ c ∈ blockCopies len dstStep srcStep N 0 0, ∀ i, c.Reads i → P i) ↔
      ∀ k < N, ∀ i, k * srcStep ≤ i → i < k * srcStep + len → P i := by
  simp only [mem_blockCopies, Copy.Reads]
  constructor
  · intro h k hk i hlow hhigh
    exact h _ ⟨k, hk, rfl⟩ i ⟨by simpa using hlow, by simpa using hhigh⟩
  · rintro h _ ⟨k, hk, rfl⟩ i ⟨hlow, hhigh⟩
    exact h k hk i (by simpa using hlow) (by simpa using hhigh)

theorem forall_lt_iff_le {a b : Nat} : (∀ i < a, i < b) ↔ a ≤ b := by
  constructor
  · intro h
    by_contra hlt
    exact absurd (h b (by omega)) (by omega)
  · intro h i hi
    omega

theorem covers_contiguous (hcount : d.count = 1) {i : Nat} : d.Covers n i ↔ i < d.dataSize n := by
  rw [Datatype.Covers, Datatype.stepLen, if_pos hcount, Datatype.dataSize]
  constructor
  · rintro ⟨b, hb, hlow, hhigh⟩
    exact consecutive_lt_iff.2 (Nat.le_refl _) b hb i hlow hhigh
  · intro hi
    have hlen : 0 < blockLen d := Nat.pos_of_ne_zero fun h => by simp [h] at hi
    refine ⟨i / blockLen d, (Nat.div_lt_iff_lt_mul hlen).2 hi, Nat.div_mul_le_self i _, ?_⟩
    have := Nat.lt_div_mul_add (a := i) hlen
    omega

theorem copiesWithin_iff : CopiesWithin (eagerCopies d' n) d' n' size ↔
    (d'.count = 1 ∧ (uint64OfInt d'.blength * d'.size * uint64OfInt n).toNat ≤ d'.dataSize n' ∧
      (uint64OfInt d'.blength * d'.size * uint64OfInt n).toNat ≤ size) ∨
    (d'.count ≠ 1 ∧ (blockLen d' = 0 ∨ d'.blocks n ≤ d'.blocks n' ∨ (strideLen d' = 0 ∧ 0 < d'.blocks n')) ∧
      d'.dataSize n ≤ size) := by
  rw [CopiesWithin, eagerCopies]
  by_cases hcount : d'.count = 1
  · rw [if_pos hcount, forall_writes_single, forall_reads_single, forall_lt_iff_le]
    simp only [covers_contiguous hcount, forall_lt_iff_le, hcount, true_and, ne_eq, not_true, false_and, or_false]
  · rw [if_neg hcount, forall_writes_blocks, forall_reads_blocks]
    simp only [Datatype.Covers, Datatype.stepLen, if_neg hcount]
    rw [writes_within_iff, consecutive_lt_iff]
    simp only [hcount, false_and, ne_eq, not_false_eq_true, true_and, false_or, Datatype.dataSize, Datatype.blocks]

end Within

/-- A receiver whose queries all hold `n` elements of `d`. -/
def postedReceiver (d : Datatype) (n : CInt) : Proc :=
  { Proc.init Boot.zeroed with
    queries := fun q =>
      let x := Boot.zeroed.queries q
      { x with msg := { x.msg with dtype := d, count := n } } }

theorem eagerWithin_iff_copies {d d' : Datatype} {n n' : CInt} (hfit : (totalSendSize d n).toNat ≤ eagerBuffSize) :
    EagerWithin d n d' n' ↔ CopiesWithin (eagerCopies d' n) d' n' (totalSendSize d n).toNat := by
  constructor
  · intro h
    have hsq := Proc.postSendMsg_sq_eager (σ := staleSender d n) (q := 0) (c := 0) rfl hfit
    obtain ⟨w, hsend⟩ : ∃ w, (staleSender d n).Sends 0 d n w := ⟨_, rfl, rfl, 0, rfl, hsq⟩
    obtain ⟨hcount, hsize⟩ := hsend.sizes hfit
    obtain ⟨-, hwithin⟩ := h (staleSender d n) (postedReceiver d' n') 0 1 0 w
      ⟨⟨0, 0⟩, n', d', 0, 0, fmiCommWorld, 0, 0⟩ hsend (by decide) rfl rfl rfl rfl
    rw [Proc.cpyEagerBuff2Copies] at hwithin
    simp only [Proc.scatter, Proc.setQuery, Function.update_self, hcount, hsize] at hwithin
    exact hwithin
  · intro hwithin σ τ q p a w prm hsend hne hdtype hpcount hprm hprmcount
    obtain ⟨hcount, hsize⟩ := hsend.sizes hfit
    rw [Proc.cpyEagerBuffCopies, Proc.cpyEagerBuff2Copies]
    simp only [Proc.scatter, Proc.setQuery, Function.update_self, Function.update_of_ne hne, hcount, hsize, hdtype, hprm]
    exact ⟨hwithin, hwithin⟩

theorem eager_within_iff {d d' : Datatype} {n n' : CInt} (hfit : (totalSendSize d n).toNat ≤ eagerBuffSize) :
    EagerWithin d n d' n' ↔
      (d'.count = 1 ∧ (uint64OfInt d'.blength * d'.size * uint64OfInt n).toNat ≤ d'.dataSize n' ∧
        (uint64OfInt d'.blength * d'.size * uint64OfInt n).toNat ≤ (totalSendSize d n).toNat) ∨
      (d'.count ≠ 1 ∧ (blockLen d' = 0 ∨ d'.blocks n ≤ d'.blocks n' ∨ (strideLen d' = 0 ∧ 0 < d'.blocks n')) ∧
        d'.dataSize n ≤ (totalSendSize d n).toNat) := by
  rw [eagerWithin_iff_copies hfit, copiesWithin_iff]

/-- Two integers are received as at most three. -/
theorem eager_within_two_ints : (totalSendSize fmiInt 2).toNat ≤ eagerBuffSize ∧ EagerWithin fmiInt 2 fmiInt 3 := by
  have hfit : (totalSendSize fmiInt 2).toNat ≤ eagerBuffSize := by decide
  exact ⟨hfit, (eager_within_iff hfit).2 (.inl ⟨rfl, by decide, by decide⟩)⟩

/-- Of two integers the second one is written behind a receive buffer for one. -/
theorem eager_overruns : (totalSendSize fmiInt 2).toNat ≤ eagerBuffSize ∧ ¬ EagerWithin fmiInt 2 fmiInt 1 := by
  have hfit : (totalSendSize fmiInt 2).toNat ≤ eagerBuffSize := by decide
  refine ⟨hfit, fun h => ?_⟩
  rw [eagerWithin_iff_copies hfit, copiesWithin_iff] at h
  revert h
  decide

end Libibtl
