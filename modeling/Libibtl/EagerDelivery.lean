import Libibtl.Delivery
import Libibtl.Pool

/-! # Eager delivery

A contiguous message is gathered from the user buffer and arrives as it is. For a
strided one the pack loop moves the pointer that it then stores as the address of
the gather entry: the bytes that travel are those behind the packed data.
-/

namespace Libibtl

open Foundation

namespace Proc

/-- `fdmi_post_send_msg` has posted `w` for the message in `q`, which is `n` elements of `d`. -/
structure Sends (σ : Proc) (q : QueryId) (d : Datatype) (n : CInt) (w : Wire) : Prop where
  dtype : (σ.queries q).msg.dtype = d
  count : (σ.queries q).msg.count = n
  posted : ∃ c, (σ.queries q).conn = some c ∧ (σ.postSendMsg q).sq = σ.sq ++ [⟨c, q, .send w⟩]

/-- The bytes that an eager message of `q` puts on the wire. -/
def eagerPayload (σ : Proc) (q : QueryId) : Buffer :=
  let m := (σ.queries q).msg
  if m.dtype.count = 1 then fun i => σ.mem m.addr.obj (m.addr.off + i)
  else
    let st := packLoop m.dtype m.count m.eagerBuff (σ.mem m.addr.obj) m.addr.off
    fun i => st.dst (st.dstOff + i)

variable {σ τ : Proc} {q p a : QueryId} {d : Datatype} {n : CInt} {w : Wire}

theorem postSendMsg_sq_eager {c : ConnId} (hc : (σ.queries q).conn = some c)
    (hfit : (totalSendSize (σ.queries q).msg.dtype (σ.queries q).msg.count).toNat ≤ eagerBuffSize) :
    (σ.postSendMsg q).sq = σ.sq ++ [⟨c, q, .send ⟨sentCtl (σ.queries q).msg.toCtl,
      (totalSendSize (σ.queries q).msg.dtype (σ.queries q).msg.count).toNat, σ.eagerPayload q⟩⟩] := by
  rw [postSendMsg]
  simp only [if_pos hfit, eagerEntry, eagerPayload, sentCtl]
  split
  · simp only [setCtl, setQuery, ibvPostSend, Function.update_self, hc]
    rfl
  · simp only [setCtl, setQuery, ibvPostSend, Function.update_self, Function.update_idem, hc, gather]

theorem Sends.payload (h : σ.Sends q d n w) (hd : d.Regular) (hn : 0 ≤ n.toInt) (hfit : d.dataSize n ≤ eagerBuffSize) :
    w.ctl.count = n ∧ w.payloadLen = d.dataSize n ∧ w.payload = σ.eagerPayload q := by
  obtain ⟨c, hc, hposted⟩ := h.posted
  have htotal : (totalSendSize (σ.queries q).msg.dtype (σ.queries q).msg.count).toNat = d.dataSize n := by
    rw [h.dtype, h.count, hd.totalSendSize_eq hn hfit]
  rw [postSendMsg_sq_eager hc (htotal ▸ hfit)] at hposted
  have hlast := List.append_cancel_left hposted
  simp only [List.cons.injEq, SendWr.mk.injEq, SendOp.send.injEq, true_and, and_true] at hlast
  rw [← hlast]
  refine ⟨?_, htotal, rfl⟩
  rw [← h.count, sentCtl]
  split <;> rfl

theorem cpyEagerBuff_mem :
    (τ.cpyEagerBuff p a).mem = (τ.copyEager (τ.queries p).msg.addr (τ.queries p).msg.dtype a).mem := by
  rw [cpyEagerBuff]
  split <;> rfl

theorem copyEager_mem (recv : Ptr) (d : Datatype) (a : QueryId) : (τ.copyEager recv d a).mem recv.obj =
    unpackEager d (τ.queries a).msg.count (τ.mem recv.obj) recv.off (τ.queries a).msg.eagerBuff :=
  Function.update_self ..

theorem copyEager_scatter (recv : Ptr) (d : Datatype) (a : QueryId) (w : Wire) :
    ((τ.scatter a w).copyEager recv d a).mem recv.obj = unpackEager d w.ctl.count (τ.mem recv.obj) recv.off
      (memcpy (τ.queries a).msg.eagerBuff 0 w.payload 0 w.payloadLen) := by
  simp [copyEager_mem, scatter, setQuery]

end Proc

/-- For all buffers, `n` elements of `d` that were posted as an eager message arrive block by block,
through either of the two copy functions. -/
def EagerDelivers (d : Datatype) (n : CInt) : Prop :=
  ∀ (σ τ : Proc) (q p a : QueryId) (w : Wire) (recv : Ptr) (flag : ReqId), σ.Sends q d n w →
    (τ.queries p).msg.dtype = d → p ≠ a →
    SameBlocks d n (σ.mem (σ.queries q).msg.addr.obj) (σ.queries q).msg.addr.off
      (((τ.scatter a w).cpyEagerBuff p a).mem (τ.queries p).msg.addr.obj) (τ.queries p).msg.addr.off ∧
    SameBlocks d n (σ.mem (σ.queries q).msg.addr.obj) (σ.queries q).msg.addr.off
      (((τ.scatter a w).cpyEagerBuff2 recv d flag a).mem recv.obj) recv.off

section Delivers

variable {d : Datatype} {n : CInt}

theorem sameBlocks_of_dataSize_eq_zero {send recv : Buffer} {sendOff recvOff : Nat} (h : d.dataSize n = 0) :
    SameBlocks d n send sendOff recv recvOff := by
  intro b hb k hk
  rcases Nat.mul_eq_zero.1 h with hzero | hzero <;> omega

theorem memcpyLen_eq (hn : 0 ≤ n.toInt) (hcount : d.count = 1) (hfit : d.dataSize n < 2 ^ 64) :
    (uint64OfInt d.blength * d.size * uint64OfInt n).toNat = d.dataSize n := by
  have hsize : d.dataSize n = blockLen d * n.toNat := by
    rw [Datatype.dataSize, Datatype.blocks, hcount, turns_of_nonneg hn, Nat.mul_comm]
    exact congrArg (blockLen d * ·) (Nat.one_mul _)
  rw [toNat_mul_of_lt, toNat_uint64OfInt_of_nonneg hn, hsize]
  · rfl
  · rw [toNat_uint64OfInt_of_nonneg hn]
    exact hsize ▸ hfit

/-- A contiguous message arrives block by block. -/
theorem sameBlocks_contiguous (hn : 0 ≤ n.toInt) (hcount : d.count = 1)
    (hfit : d.dataSize n ≤ eagerBuffSize) (send stale recv : Buffer) (sendOff recvOff : Nat) :
    SameBlocks d n send sendOff
      (unpackEager d n recv recvOff (memcpy stale 0 (fun i => send (sendOff + i)) 0 (d.dataSize n))) recvOff := by
  intro b hb k hk
  have hin : b * blockLen d + k < d.dataSize n := by
    have : (b + 1) * blockLen d ≤ d.blocks n * blockLen d := Nat.mul_le_mul_right _ hb
    rw [Nat.add_mul, Nat.one_mul] at this
    rw [Datatype.dataSize]
    omega
  have hlen := memcpyLen_eq hn hcount (lt_of_le_of_lt hfit (by decide))
  have heager : memcpy stale 0 (fun i => send (sendOff + i)) 0 (d.dataSize n) (0 + (b * blockLen d + k)) =
      send (sendOff + (0 + (b * blockLen d + k))) := memcpy_inside hin
  rw [unpackEager, if_pos hcount, hlen, Datatype.stepLen, if_pos hcount, Nat.add_assoc, memcpy_inside hin, heager,
    Nat.zero_add, Nat.add_assoc]

/-- The pack loop ends behind the data. -/
theorem packLoop_dstOff (d : Datatype) (n : CInt) (eager send : Buffer) (sendOff : Nat) :
    (packLoop d n eager send sendOff).dstOff = d.dataSize n := by
  rw [packLoop, copyLoop_eq_iterate, (iterate_copyBlock_offsets ..).1]
  exact Nat.zero_add _

theorem packLoop_behind (d : Datatype) (n : CInt) (eager send : Buffer) (sendOff i : Nat) :
    (packLoop d n eager send sendOff).dst ((packLoop d n eager send sendOff).dstOff + i) =
      eager (d.dataSize n + i) := by
  rw [packLoop_dstOff, packLoop, copyLoop_eq_iterate]
  refine iterate_copyBlock_other _ _ _ _ _ fun k hk => .inr ?_
  have : (k + 1) * blockLen d ≤ d.blocks n * blockLen d := Nat.mul_le_mul_right _ hk
  rw [Nat.add_mul, Nat.one_mul] at this
  rw [Datatype.dataSize]
  dsimp only
  omega

theorem Datatype.Regular.blockLen_lt_strideLen (h : d.Regular) (hcount : d.count ≠ 1) : blockLen d < strideLen d := by
  have hlt : d.blength.toInt < d.stride.toInt := h.shape.resolve_left hcount
  have hnonneg : 0 ≤ d.stride.toInt := h.blength_nonneg.trans hlt.le
  have hstride : strideLen d = d.stride.toNat * d.size.toNat := h.mul_size hnonneg
  rw [h.blockLen_eq, hstride]
  refine Nat.mul_lt_mul_of_pos_right ?_ h.size_pos
  rw [toInt_eq_toNat_of_nonneg h.blength_nonneg, toInt_eq_toNat_of_nonneg hnonneg] at hlt
  exact Int.ofNat_lt.1 hlt

/-- The first byte that a strided unpack writes is the first byte of the eager buffer. -/
theorem unpackLoop_first (hd : d.Regular) (hcount : d.count ≠ 1) (hpos : 0 < d.dataSize n) (recv eager : Buffer)
    (recvOff : Nat) : (unpackLoop d n recv recvOff eager).dst recvOff = eager 0 := by
  have hblocks : 0 < d.blocks n := Nat.pos_of_mul_pos_right hpos
  have hblock : 0 < blockLen d := Nat.pos_of_mul_pos_left hpos
  have := iterate_copyBlock_block eager (blockLen d) (strideLen d) (blockLen d) ⟨recv, recvOff, 0⟩
    (hd.blockLen_lt_strideLen hcount).le hblocks hblock
  rw [unpackLoop, copyLoop_eq_iterate]
  simpa [Datatype.blocks] using this

end Delivers

open Proc

/-- Of a strided message the bytes behind the packed data travel. -/
theorem Proc.Sends.payload_strided {σ : Proc} {q : QueryId} {d : Datatype} {n : CInt} {w : Wire} (h : σ.Sends q d n w)
    (hcount : d.count ≠ 1) (i : Nat) : σ.eagerPayload q i = (σ.queries q).msg.eagerBuff (d.dataSize n + i) := by
  simp only [eagerPayload, h.dtype, h.count, if_neg hcount]
  exact packLoop_behind ..

/-- The first byte that a strided message leaves in the receive buffer is the first byte of the wire. -/
theorem Proc.copyEager_scatter_strided {d : Datatype} {n : CInt} {w : Wire} (hd : d.Regular) (hcount : d.count ≠ 1)
    (hwcount : w.ctl.count = n) (hlen : w.payloadLen = d.dataSize n) (hpos : 0 < d.dataSize n) (τ : Proc)
    (a : QueryId) (recv : Ptr) : ((τ.scatter a w).copyEager recv d a).mem recv.obj recv.off = w.payload 0 := by
  rw [copyEager_scatter, unpackEager, if_neg hcount, hwcount, unpackLoop_first hd hcount hpos, hlen]
  exact memcpy_inside (j := 0) hpos

/-- A sender of `n` elements of `d` whose user memory is zero and whose eager buffer holds old ones. -/
def staleSender (d : Datatype) (n : CInt) : Proc :=
  { Proc.init Boot.zeroed with
    queries := fun q =>
      let x := Boot.zeroed.queries q
      { x with
        conn := some 0
        msg := { x.msg with dtype := d, count := n, eagerBuff := fun _ => 1 } } }

theorem not_eagerDelivers {d : Datatype} {n : CInt} (hd : d.Regular) (hn : 0 ≤ n.toInt)
    (hfit : d.dataSize n ≤ eagerBuffSize) (hcount : d.count ≠ 1) (hpos : 0 < d.dataSize n) : ¬ EagerDelivers d n := by
  intro h
  have hsq := postSendMsg_sq_eager (σ := staleSender d n) (q := 0) (c := 0) rfl
    ((hd.totalSendSize_eq hn hfit).trans_le hfit)
  obtain ⟨w, hsend⟩ : ∃ w, (staleSender d n).Sends 0 d n w := ⟨_, rfl, rfl, 0, rfl, hsq⟩
  obtain ⟨hwcount, hlen, hpayload⟩ := hsend.payload hd hn hfit
  obtain ⟨-, hsame⟩ := h (staleSender d n) (staleSender d n) 0 1 0 w ⟨1, 0⟩ 0 hsend rfl (by decide)
  have hbyte := hsame 0 (Nat.pos_of_mul_pos_right hpos) 0 (Nat.pos_of_mul_pos_left hpos)
  rw [Nat.zero_mul] at hbyte
  have hrecv := copyEager_scatter_strided hd hcount hwcount hlen hpos (staleSender d n) 0 ⟨1, 0⟩
  have hstale := hrecv.symm.trans hbyte
  rw [hpayload, hsend.payload_strided hcount] at hstale
  cases hstale

theorem eager_delivers_iff {d : Datatype} {n : CInt} (hd : d.Built) (hn : 0 ≤ n.toInt)
    (hfit : d.dataSize n ≤ eagerBuffSize) :
    EagerDelivers d n ↔ d.count = 1 ∨ n = 0 ∨ d.count = 0 ∨ d.blength = 0 := by
  have hreg := hd.regular
  rw [← hreg.dataSize_eq_zero hn]
  constructor
  · intro h
    by_contra hnot
    obtain ⟨hcount, hsize⟩ := not_or.1 hnot
    exact not_eagerDelivers hreg hn hfit hcount (Nat.pos_of_ne_zero hsize) h
  · rintro (hcount | hzero) σ τ q p a w recv flag hsend hp hne
    · obtain ⟨hwcount, hlen, hpayload⟩ := hsend.payload hreg hn hfit
      have hbytes : σ.eagerPayload q =
          fun i => σ.mem (σ.queries q).msg.addr.obj ((σ.queries q).msg.addr.off + i) := by
        simp only [eagerPayload, hsend.dtype, if_pos hcount]
      have hdelivers := fun (r : Ptr) (recv : Buffer) => sameBlocks_contiguous hn hcount hfit
        (σ.mem (σ.queries q).msg.addr.obj) (τ.queries a).msg.eagerBuff recv (σ.queries q).msg.addr.off r.off
      have hpa : (τ.scatter a w).queries p = τ.queries p := Function.update_of_ne hne ..
      constructor
      · rw [cpyEagerBuff_mem, hpa, hp, copyEager_scatter, hwcount, hlen, hpayload, hbytes]
        exact hdelivers _ _
      · rw [show ((τ.scatter a w).cpyEagerBuff2 recv d flag a).mem = ((τ.scatter a w).copyEager recv d a).mem from rfl,
          copyEager_scatter, hwcount, hlen, hpayload, hbytes]
        exact hdelivers _ _
    · exact ⟨sameBlocks_of_dataSize_eq_zero hzero, sameBlocks_of_dataSize_eq_zero hzero⟩

theorem eager_delivers_three_ints :
    fmiInt.Built ∧ 0 ≤ (3 : CInt).toInt ∧ fmiInt.dataSize 3 ≤ eagerBuffSize ∧ EagerDelivers fmiInt 3 := by
  have hn : 0 ≤ (3 : CInt).toInt := by decide
  have hfit : fmiInt.dataSize 3 ≤ eagerBuffSize := by decide
  exact ⟨.int, hn, hfit, (eager_delivers_iff .int hn hfit).2 (.inl rfl)⟩

/-- Two bytes with one byte between them. -/
def spacedBytes : Datatype := typeVector 2 1 2 fmiByte

theorem spacedBytes_built : spacedBytes.Built := .vector .byte (by decide) (by decide) (by decide) (by decide)

theorem eager_spaced_lost : spacedBytes.Built ∧ 0 ≤ (1 : CInt).toInt ∧ spacedBytes.dataSize 1 = 2 ∧
    ¬ EagerDelivers spacedBytes 1 :=
  ⟨spacedBytes_built, by decide, by decide,
    not_eagerDelivers spacedBytes_built.regular (by decide) (by decide) (by decide) (by decide)⟩

end Libibtl
