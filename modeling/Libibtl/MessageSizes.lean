import Libibtl.EagerDelivery
import Libibtl.Registration

/-! # The sizes of a message in C arithmetic

The size of a message is computed in three places. Each product is right modulo
`2 ^ 32` and then narrowed to 32 bits, so all three agree with the exact size up to
4 GiB and none of them beyond.
-/

namespace Libibtl

open Foundation

/-- `blength * dtype.count * count * size`, without overflow. -/
def Datatype.exactSize (d : Datatype) (n : CInt) : Nat :=
  (d.blength.toInt * d.count.toInt * n.toInt).toNat * d.size.toNat

/-- No factor of the size is negative. -/
structure Datatype.Countable (d : Datatype) (n : CInt) : Prop where
  blength : 0 ≤ d.blength.toInt
  count : 0 ≤ d.count.toInt
  elements : 0 ≤ n.toInt

section Narrowed

variable {d : Datatype} {n : CInt}

theorem Datatype.Countable.exactSize_eq (h : d.Countable n) :
    d.exactSize n = d.blength.toNat * d.count.toNat * n.toNat * d.size.toNat := by
  rw [exactSize, toInt_eq_toNat_of_nonneg h.blength, toInt_eq_toNat_of_nonneg h.count, toInt_eq_toNat_of_nonneg h.elements,
    ← Int.natCast_mul, ← Int.natCast_mul, Int.toNat_natCast]

theorem toNat_totalSendSize (h : d.Countable n) : (totalSendSize d n).toNat = d.exactSize n % 2 ^ 32 := by
  rw [h.exactSize_eq]
  have hmod : (uint64OfInt (d.blength * d.count * n) * d.size).toNat ≡
      d.blength.toNat * d.count.toNat * n.toNat * d.size.toNat [MOD 2 ^ 32] := by
    calc
      _ ≡ (uint64OfInt (d.blength * d.count * n)).toNat * d.size.toNat [MOD 2 ^ 32] := toNat_mul_modEq_64 _ _
      _ ≡ (d.blength * d.count * n).toNat * d.size.toNat [MOD 2 ^ 32] := (toNat_uint64OfInt_modEq _).mul_right _
      _ ≡ (d.blength * d.count).toNat * n.toNat * d.size.toNat [MOD 2 ^ 32] := (toNat_mul_modEq_32 _ _).mul_right _
      _ ≡ d.blength.toNat * d.count.toNat * n.toNat * d.size.toNat [MOD 2 ^ 32] :=
        ((toNat_mul_modEq_32 _ _).mul_right _).mul_right _
  rw [totalSendSize, toNat_uint32OfUint64]
  exact hmod

theorem toNat_regSize_contiguous (h : d.Countable n) (hcount : d.count = 1) :
    (uint32OfUint64 (regSize d n)).toNat = d.exactSize n % 2 ^ 32 := by
  have hextent : d.stride * ((1 : CInt) - 1) + d.blength = d.blength := by simp
  have hone : (1 : CInt).toNat = 1 := rfl
  have hmod : (uint64OfInt d.blength * d.size * uint64OfInt n).toNat ≡ d.exactSize n [MOD 2 ^ 32] := by
    calc
      _ ≡ (uint64OfInt d.blength * d.size).toNat * (uint64OfInt n).toNat [MOD 2 ^ 32] := toNat_mul_modEq_64 _ _
      _ ≡ (uint64OfInt d.blength).toNat * d.size.toNat * n.toNat [MOD 2 ^ 32] :=
        (toNat_mul_modEq_64 _ _).mul (toNat_uint64OfInt_modEq _)
      _ ≡ d.blength.toNat * d.size.toNat * n.toNat [MOD 2 ^ 32] :=
        ((toNat_uint64OfInt_modEq _).mul_right _).mul_right _
      _ = d.exactSize n := by
        rw [h.exactSize_eq, hcount, hone, Nat.mul_one, Nat.mul_right_comm]
  rw [toNat_uint32OfUint64, regSize, hcount, hextent]
  exact hmod

end Narrowed

/-! ## What is registered -/

namespace Proc

variable {σ : Proc}

/-- `fdmi_reg_mr` returns a region at the address that covers the length, and one of exactly this length when no
registered region starts there. -/
theorem regMr_region (h : RegistersExactly σ.ibvRegMr) (addr : Place) (size : UInt32T) (pd : Pd) :
    (σ.regMr addr size pd).2.addr = addr ∧
    ((∀ mr ∈ σ.regMrQ, mr.addr ≠ addr) → (σ.regMr addr size pd).2.length.toNat = size.toNat) := by
  rw [regMr]
  split
  · rename_i mr hfind
    have hcovers := List.find?_some hfind
    simp only [covers, decide_eq_true_eq] at hcovers
    obtain ⟨-, haddr, -⟩ := hcovers
    exact ⟨haddr, fun hfresh => absurd haddr (hfresh mr (List.mem_of_find?_eq_some hfind))⟩
  · obtain ⟨-, haddr, hlength⟩ := h σ.regMrQ pd addr size
    exact ⟨haddr, fun _ => hlength⟩

/-- Taking a query from the pool registers nothing but its message. -/
theorem createQuery_regions (h : RegistersExactly σ.ibvRegMr) (conn : Option ConnId) :
    (σ.createQuery conn).1.ibvRegMr = σ.ibvRegMr ∧
    ∀ mr ∈ (σ.createQuery conn).1.regMrQ, mr ∈ σ.regMrQ ∨ ∃ q, mr.addr = .msg q := by
  rw [createQuery]
  simp only [setQuery, takeQuery]
  split
  · exact ⟨rfl, fun mr hmr => .inl hmr⟩
  · cases conn with
    | none => exact ⟨rfl, fun mr hmr => .inl hmr⟩
    | some c =>
      simp only [regMr]
      split
      · exact ⟨rfl, fun mr hmr => .inl hmr⟩
      · refine ⟨rfl, fun mr hmr => ?_⟩
        rcases List.mem_append.1 hmr with hmr | hmr
        · exact .inl hmr
        · rw [List.mem_singleton.1 hmr]
          exact .inr ⟨_, (h _ _ _ _).2.1⟩

theorem postSendMsgParam_region (h : RegistersExactly σ.ibvRegMr) (prm : SendParam) {c : ConnId}
    (hc : (σ.peers prm.dest.toInt).conn = some c) :
    ∃ q wire, (σ.postSendMsgParam prm).sq = σ.sq ++ [⟨c, q, .send wire⟩] ∧ wire.ctl.rdmaMr.addr = .user prm.buf ∧
      (∃ mr eagerSize, wire.ctl = sentCtl (σ.sendCtl prm mr eagerSize)) ∧
      ((∀ mr ∈ σ.regMrQ, mr.addr ≠ .user prm.buf) →
        wire.ctl.rdmaMr.length.toNat = (uint32OfUint64 (regSize prm.datatype prm.count)).toNat) := by
  obtain ⟨g, wire, -, hx, hmr, heq⟩ := postSendMsgParam_eq hc
  obtain ⟨hreg, hregions⟩ := createQuery_regions h (some c)
  obtain ⟨haddr, hlength⟩ := regMr_region (σ := (σ.createQuery (some c)).1) (hreg ▸ h) (.user prm.buf)
    (uint32OfUint64 (regSize prm.datatype prm.count)) (σ.conns c).pd
  refine ⟨g.query, wire, by rw [heq], by rw [hmr, haddr], hx.wire, fun hfresh => ?_⟩
  rw [hmr]
  refine hlength fun mr hmem => ?_
  rcases hregions mr hmem with hold | ⟨q, hq⟩
  · exact hfresh mr hold
  · rw [hq]
    exact fun heq => Place.noConfusion heq

/-- The message that `fdmi_post_send_msg` posts for a query that was filled in for a large message. -/
theorem postSendMsg_wire {q : QueryId} {c : ConnId} {d : Datatype} {n : CInt} (hc : (σ.queries q).conn = some c)
    (hdtype : (σ.queries q).msg.dtype = d) (hcount : (σ.queries q).msg.count = n)
    (hop : (σ.queries q).msg.opcode = .rdmaRead) :
    ∃ wire, (σ.postSendMsg q).sq = σ.sq ++ [⟨c, q, .send wire⟩] ∧
      (wire.ctl.opcode = .eager ↔ (totalSendSize d n).toNat ≤ eagerBuffSize) ∧
      (wire.ctl.opcode = .eager →
        wire.ctl.eagerSize = totalSendSize d n ∧ wire.payloadLen = (totalSendSize d n).toNat) := by
  subst hdtype hcount
  by_cases hfit : (totalSendSize (σ.queries q).msg.dtype (σ.queries q).msg.count).toNat ≤ eagerBuffSize
  · refine ⟨_, postSendMsg_sq_eager hc hfit, ?_, fun _ => ?_⟩
    · rw [sentCtl, if_pos hfit]
      exact iff_of_true rfl hfit
    · rw [sentCtl, if_pos hfit]
      exact ⟨rfl, rfl⟩
  · obtain ⟨msg, wire, hmsg, hwire, heq⟩ := postSendMsg_eq hc
    have hopcode : wire.ctl.opcode ≠ .eager := by
      rw [hwire, hmsg, sentCtl, if_neg hfit, hop]
      decide
    exact ⟨wire, by rw [heq], iff_of_false hopcode hfit, fun h => absurd h hopcode⟩

end Proc

/-- Each place that computes the size of `n` elements of `d` gets the exact size. -/
structure SizesExact (d : Datatype) (n : CInt) : Prop where
  chosen : ∀ (σ : Proc) (q : QueryId) (c : ConnId), (σ.queries q).conn = some c → (σ.queries q).msg.dtype = d →
    (σ.queries q).msg.count = n → (σ.queries q).msg.opcode = .rdmaRead →
    ∃ wire, (σ.postSendMsg q).sq = σ.sq ++ [⟨c, q, .send wire⟩] ∧
      (wire.ctl.opcode = .eager ↔ d.exactSize n ≤ eagerBuffSize) ∧
      (wire.ctl.opcode = .eager → wire.ctl.eagerSize.toNat = d.exactSize n ∧ wire.payloadLen = d.exactSize n)
  registered : d.count = 1 → eagerBuffSize < d.exactSize n → ∀ (σ : Proc) (prm : SendParam) (c : ConnId),
    RegistersExactly σ.ibvRegMr → (σ.peers prm.dest.toInt).conn = some c →
    (∀ mr ∈ σ.regMrQ, mr.addr ≠ .user prm.buf) → prm.datatype = d → prm.count = n →
    ∃ q wire, (σ.postSendMsgParam prm).sq = σ.sq ++ [⟨c, q, .send wire⟩] ∧
      wire.ctl.rdmaMr.length.toNat = d.exactSize n
  read : d.count = 1 → eagerBuffSize < d.exactSize n → ∀ (τ : Proc) (p a : QueryId) (c : ConnId),
    (τ.queries a).conn = some c → p ≠ a → (τ.queries p).msg.dtype = d → (τ.queries p).msg.count = n →
    ∃ sge remote, (τ.postRdmaRead p a).sq = τ.sq ++ [⟨c, p, .rdmaRead sge remote⟩] ∧
      sge.length.toNat = d.exactSize n

/-- A process whose queries are all filled in for a large message on connection 0. -/
def filledProc (d : Datatype) (n : CInt) : Proc :=
  { Proc.init Boot.zeroed with
    peers := fun _ => ⟨some 0, true, false⟩
    queries := fun q =>
      let x := Boot.zeroed.queries q
      { x with conn := some 0, msg := { x.msg with opcode := .rdmaRead, dtype := d, count := n } } }

section Exact

variable {d : Datatype} {n : CInt}

theorem wire_eq_of_append {sq : List SendWr} {c c' : ConnId} {q q' : QueryId} {w w' : Wire}
    (h : sq ++ [(⟨c, q, .send w⟩ : SendWr)] = sq ++ [⟨c', q', .send w'⟩]) : w = w' := by
  have hlast := List.append_cancel_left h
  simp only [List.cons.injEq, SendWr.mk.injEq, SendOp.send.injEq, and_true] at hlast
  exact hlast.2.2

theorem sizesExact_iff_narrowed (h : d.Countable n) : SizesExact d n ↔
    (d.exactSize n % 2 ^ 32 ≤ eagerBuffSize ↔ d.exactSize n ≤ eagerBuffSize) ∧
    (d.exactSize n % 2 ^ 32 ≤ eagerBuffSize → d.exactSize n % 2 ^ 32 = d.exactSize n) ∧
    (d.count = 1 → eagerBuffSize < d.exactSize n → d.exactSize n % 2 ^ 32 = d.exactSize n) := by
  constructor
  · intro hexact
    obtain ⟨w, hsq, hopcode, hsizes⟩ := hexact.chosen (filledProc d n) 0 0 rfl rfl rfl rfl
    obtain ⟨w', hsq', hopcode', hsizes'⟩ := (filledProc d n).postSendMsg_wire (q := 0) (c := 0) (d := d) (n := n) rfl rfl rfl rfl
    obtain rfl := wire_eq_of_append (hsq.symm.trans hsq')
    rw [toNat_totalSendSize h] at hopcode' hsizes'
    refine ⟨hopcode'.symm.trans hopcode, fun hsmall => ?_, fun hcount hlarge => ?_⟩
    · have heager := hopcode'.2 hsmall
      exact (hsizes' heager).2.symm.trans (hsizes heager).2
    · obtain ⟨sge, remote, hread, hlength⟩ := hexact.read hcount hlarge (filledProc d n) 0 1 0 rfl (by decide) rfl rfl
      obtain ⟨regs, cached, mr, heq⟩ := Proc.postRdmaRead_eq (σ := filledProc d n) (p := 0) (a := 1) (c := 0) rfl (by decide)
      rw [heq] at hread
      have hlast := List.append_cancel_left hread
      simp only [List.cons.injEq, SendWr.mk.injEq, SendOp.rdmaRead.injEq, true_and, and_true] at hlast
      rw [← toNat_regSize_contiguous h hcount, ← hlength, ← hlast.1]
      rfl
  · rintro ⟨hchosen, hsize, hcontiguous⟩
    refine ⟨fun σ q c hc hdtype hcount hop => ?_, fun hcount hlarge σ prm c hreg hc hfresh hdtype hprm => ?_,
      fun hcount hlarge τ p a c hc hne hdtype hp => ?_⟩
    · obtain ⟨wire, hsq, hopcode, hsizes⟩ := σ.postSendMsg_wire hc hdtype hcount hop
      rw [toNat_totalSendSize h] at hopcode hsizes
      refine ⟨wire, hsq, hopcode.trans hchosen, fun heager => ?_⟩
      obtain ⟨heagerSize, hlen⟩ := hsizes heager
      rw [heagerSize, hlen, toNat_totalSendSize h]
      exact ⟨hsize (hopcode.1 heager), hsize (hopcode.1 heager)⟩
    · obtain ⟨q, wire, hsq, -, -, hlength⟩ := Proc.postSendMsgParam_region hreg _ hc
      refine ⟨q, wire, hsq, ?_⟩
      rw [hlength hfresh, hdtype, hprm, toNat_regSize_contiguous h hcount]
      exact hcontiguous hcount hlarge
    · obtain ⟨regs, cached, mr, heq⟩ := Proc.postRdmaRead_eq hc hne
      refine ⟨_, _, by rw [heq], ?_⟩
      rw [Proc.readSge, hdtype, hp]
      exact (toNat_regSize_contiguous h hcount).trans (hcontiguous hcount hlarge)

end Exact

theorem sizes_exact_iff {d : Datatype} {n : CInt} (h : d.Countable n) :
    SizesExact d n ↔ d.exactSize n < 2 ^ 32 ∨ (d.count ≠ 1 ∧ eagerBuffSize < d.exactSize n % 2 ^ 32) := by
  have hlimit : eagerBuffSize < 2 ^ 32 := by decide
  rw [sizesExact_iff_narrowed h]
  by_cases hone : d.count = 1
  · simp only [hone, true_implies, ne_eq, not_true, false_and, or_false]
    omega
  · simp only [hone, false_implies, and_true, ne_eq, not_false_eq_true, true_and]
    omega

theorem sizes_exact_bytes : fmiByte.Countable 65537 ∧ SizesExact fmiByte 65537 := by
  have h : fmiByte.Countable 65537 := ⟨by decide, by decide, by decide⟩
  exact ⟨h, (sizes_exact_iff h).2 (.inl (by decide))⟩

/-- The size of `2 ^ 29` doubles wraps to 0, and the message goes the eager way with nothing in it. -/
theorem sizes_wrap : fmiDouble.Countable 536870912 ∧ fmiDouble.exactSize 536870912 = 2 ^ 32 ∧
    (totalSendSize fmiDouble 536870912).toNat = 0 ∧ ¬ SizesExact fmiDouble 536870912 := by
  have h : fmiDouble.Countable 536870912 := ⟨by decide, by decide, by decide⟩
  have hsize : fmiDouble.exactSize 536870912 = 2 ^ 32 := by decide
  refine ⟨h, hsize, by decide, fun hexact => ?_⟩
  obtain ⟨hchosen, -⟩ := (sizesExact_iff_narrowed h).1 hexact
  rw [hsize] at hchosen
  exact absurd (hchosen.1 (by decide)) (by decide)

end Libibtl
