import Libibtl.MessageSizes

/-! # The remote range of a rendezvous read

The address of the read comes with the message, its length from the arguments of
the receive. Nothing compares the two, so the range stays inside of the region that
the sender registered only when the extent of the receive, as far as the 32-bit
length holds it, does.
-/

namespace Libibtl

open Foundation

/-- The extent of the sender and of the receiver, in bytes. -/
def extent (d : Datatype) (n : CInt) : Nat := (regSize d n).toNat

/-- A message of `n` elements of `d` that went the rendezvous way has been received into `a`, and a read is posted
for the receive `p` of `n'` elements of `d'`. It addresses bytes of the region that the sender registered, and for a
receive that is larger than the message it has the length of the message. -/
def ReadsInside (d : Datatype) (n : CInt) (d' : Datatype) (n' : CInt) : Prop :=
  ∀ (σ τ : Proc) (prm : SendParam) (c c' : ConnId) (q p a : QueryId) (w : Wire) (sge : Sge) (remote : Place),
    RegistersExactly σ.ibvRegMr → (σ.peers prm.dest.toInt).conn = some c → prm.datatype = d → prm.count = n →
    (σ.postSendMsgParam prm).sq = σ.sq ++ [⟨c, q, .send w⟩] → w.ctl.opcode = .rdmaRead →
    (τ.queries a).msg.rdmaMr = w.ctl.rdmaMr → (τ.queries a).conn = some c' → p ≠ a →
    (τ.queries p).msg.dtype = d' → (τ.queries p).msg.count = n' →
    (τ.postRdmaRead p a).sq = τ.sq ++ [⟨c', p, .rdmaRead sge remote⟩] →
    ∃ r : Ptr, remote = .user r ∧ r.obj = prm.buf.obj ∧
      (∀ k, r.off ≤ k → k < r.off + sge.length.toNat → prm.buf.off ≤ k ∧ k < prm.buf.off + extent d n) ∧
      (extent d n < extent d' n' → sge.length.toNat = extent d n)

section

variable {d d' : Datatype} {n n' : CInt}

theorem range_inside_iff {off len size : Nat} :
    (∀ k, off ≤ k → k < off + len → off ≤ k ∧ k < off + size) ↔ len ≤ size := by
  constructor
  · intro h
    by_contra hlt
    exact absurd (h (off + size) (by omega) (by omega)).2 (by omega)
  · intro h k hlow hhigh
    exact ⟨hlow, by omega⟩

theorem postRdmaRead_posted {τ : Proc} {p a : QueryId} {c : ConnId} {sge : Sge} {remote : Place}
    (hc : (τ.queries a).conn = some c) (hne : p ≠ a)
    (hread : (τ.postRdmaRead p a).sq = τ.sq ++ [⟨c, p, .rdmaRead sge remote⟩]) :
    remote = (τ.queries a).msg.rdmaMr.addr ∧
      sge.length.toNat = extent (τ.queries p).msg.dtype (τ.queries p).msg.count % 2 ^ 32 := by
  obtain ⟨regs, cached, mr, heq⟩ := Proc.postRdmaRead_eq hc hne
  rw [heq] at hread
  have hlast := List.append_cancel_left hread
  simp only [List.cons.injEq, SendWr.mk.injEq, SendOp.rdmaRead.injEq, true_and, and_true] at hlast
  rw [← hlast.1, ← hlast.2]
  exact ⟨rfl, toNat_uint32OfUint64 _⟩

theorem readsInside_iff_lengths (hlarge : eagerBuffSize < (totalSendSize d n).toNat) : ReadsInside d n d' n' ↔
    extent d' n' % 2 ^ 32 ≤ extent d n ∧ (extent d n < extent d' n' → extent d' n' % 2 ^ 32 = extent d n) := by
  constructor
  · intro h
    let prm : SendParam := ⟨⟨0, 0⟩, n, d, 1, 0, fmiCommWorld, 0, 0⟩
    obtain ⟨q, w, hsq, haddr, ⟨mr, eagerSize, hctl⟩, -⟩ :=
      Proc.postSendMsgParam_region (σ := filledProc d n) (c := 0) Boot.zeroed_exactly prm rfl
    have hopcode : w.ctl.opcode = .rdmaRead := by
      rw [hctl, Proc.sentCtl, if_neg]
      · rfl
      · exact Nat.not_le.2 hlarge
    let x := Boot.zeroed.queries 0
    let τ : Proc := { filledProc d' n' with
      queries := fun _ => { x with
        conn := some 0, msg := { x.msg with dtype := d', count := n', rdmaMr := w.ctl.rdmaMr } } }
    obtain ⟨regs, cached, mr', hread⟩ := Proc.postRdmaRead_eq (σ := τ) (p := 0) (a := 1) (c := 0) rfl (by decide)
    obtain ⟨r, hr, -, hinside, hlength⟩ := h (filledProc d n) τ prm 0 0 q 0 1 w _ _ Boot.zeroed_exactly rfl rfl rfl hsq
      hopcode rfl rfl (by decide) rfl rfl (by rw [hread])
    have hlen : (Proc.readSge (τ.queries 0).msg).length.toNat = extent d' n' % 2 ^ 32 := toNat_uint32OfUint64 _
    have hoff : r = ⟨0, 0⟩ := Place.user.inj (hr.symm.trans haddr)
    rw [hlen] at hinside hlength
    subst hoff
    exact ⟨range_inside_iff.1 hinside, hlength⟩
  · rintro ⟨hle, heq⟩ σ τ prm c c' q p a w sge remote hreg hpeer hdtype hcount hsq - hmr hc hne hd hn hread
    obtain ⟨hremote, hlength⟩ := postRdmaRead_posted hc hne hread
    obtain ⟨q', w', hsq', haddr, -, -⟩ := Proc.postSendMsgParam_region hreg _ hpeer
    obtain rfl := wire_eq_of_append (hsq.symm.trans hsq')
    refine ⟨prm.buf, by rw [hremote, hmr, haddr], rfl, ?_, ?_⟩
    · rw [hlength, hd, hn]
      exact range_inside_iff.2 hle
    · rw [hlength, hd, hn]
      exact heq

end

theorem reads_inside_iff {d d' : Datatype} {n n' : CInt} (hlarge : eagerBuffSize < (totalSendSize d n).toNat) :
    ReadsInside d n d' n' ↔ extent d' n' ≤ extent d n ∨ extent d' n' % 2 ^ 32 = extent d n := by
  rw [readsInside_iff_lengths hlarge]
  have hmod := Nat.mod_le (extent d' n') (2 ^ 32)
  constructor
  · rintro ⟨hle, heq⟩
    by_cases hlt : extent d n < extent d' n'
    · exact .inr (heq hlt)
    · exact .inl (by omega)
  · rintro (hle | heq)
    · exact ⟨hmod.trans hle, fun hlt => by omega⟩
    · exact ⟨heq.le, fun _ => heq⟩

/-- A receive of exactly the message. -/
theorem reads_inside_bytes : eagerBuffSize < (totalSendSize fmiByte 65537).toNat ∧
    ReadsInside fmiByte 65537 fmiByte 65537 := by
  have hlarge : eagerBuffSize < (totalSendSize fmiByte 65537).toNat := by decide
  exact ⟨hlarge, (reads_inside_iff hlarge).2 (.inl (Nat.le_refl _))⟩

/-- A receive of 70000 bytes reads 4463 bytes behind a message of 65537. -/
theorem reads_behind_message : eagerBuffSize < (totalSendSize fmiByte 65537).toNat ∧
    ¬ ReadsInside fmiByte 65537 fmiByte 70000 := by
  have hlarge : eagerBuffSize < (totalSendSize fmiByte 65537).toNat := by decide
  refine ⟨hlarge, fun h => ?_⟩
  rw [readsInside_iff_lengths hlarge] at h
  revert h
  decide

end Libibtl
