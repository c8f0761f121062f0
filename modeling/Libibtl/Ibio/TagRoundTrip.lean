import Libibtl.Ibio.Table
import Libibtl.Probe

/-! # Tags through the whole stack

The client packs operation and descriptor into an `int`, the message carries a
`uint64_t`, and the probe of the server reports an `int` again. The table of the
server has room for more descriptors than the tag has.
-/

namespace Libibtl

open Foundation

namespace Proc

variable {σ σ' : Proc}

theorem sent_tag {prm : SendParam} (h : σ.step (.isend prm) = some σ') :
    ∃ c q w, σ'.sq = σ.sq ++ [⟨c, q, .send w⟩] ∧ w.ctl.tag = uint64OfInt prm.tag := by
  cases isend_transition h with
  | link hlink => cases hlink
  | launch hc hg hx =>
    obtain ⟨mr, eagerSize, hctl⟩ := hx.wire
    refine ⟨_, _, _, rfl, ?_⟩
    rw [hctl, sentCtl]
    split
    · rfl
    · rfl

theorem received_tag {c : ConnId} {w : Wire} {a : QueryId} (h : σ.takeRecv c w = some (σ', a)) :
    (σ'.status a).2 = intOfUint64 w.ctl.tag := by
  obtain ⟨wr, -, hwr⟩ := Option.map_eq_some_iff.1 h
  cases hwr
  simp only [status, scatter, setQuery, stampRank, Function.update_self]
  split
  · simp [abort]
  · simp [setCtl, setQuery]

end Proc

namespace Ibio

/-- The operation codes of the protocol. -/
def operations : List CInt := [opNoop, opOpen, opWrite, opWriteBegin, opWriteChunk, opRead, opClose]

/-- `ibvio_serialize_tag` as the client calls it, with the operation in the place of `fd`. -/
def requestTag (op : CInt) (fd : Nat) : CInt := serializeTag op (BitVec.ofNat 32 fd)

/-- A tag as `fdmi_verbs_isend` stores it and `fdmi_verbs_iprobe` reports it. -/
def reportedTag (tag : CInt) : CInt := intOfUint64 (uint64OfInt tag)

/-- The tags for the descriptors `fds` name what the client meant, and nothing else. -/
structure TagsFaithful (fds : Set Nat) : Prop where
  decoded : ∀ op ∈ operations, ∀ fd ∈ fds,
    deserializeTag (reportedTag (requestTag op fd)) = (op, BitVec.ofNat 32 fd)
  distinct : ∀ op ∈ operations, ∀ op' ∈ operations, ∀ fd ∈ fds, ∀ fd' ∈ fds, (op, fd) ≠ (op', fd') →
    requestTag op fd ≠ requestTag op' fd'
  notAny : ∀ op ∈ operations, ∀ fd ∈ fds, requestTag op fd ≠ fmiAnyTag

section Tags

variable {op : CInt} {fd : Nat}

theorem and_mask_operation (hop : op ∈ operations) : op &&& 0xffff = op := by
  simp only [operations, List.mem_cons, List.not_mem_nil, or_false] at hop
  obtain rfl | rfl | rfl | rfl | rfl | rfl | rfl := hop
  all_goals decide

/-- The descriptor comes back modulo `2 ^ 16`. -/
theorem deserializeTag_requestTag (hop : op ∈ operations) (fd : Nat) :
    deserializeTag (reportedTag (requestTag op fd)) = (op, BitVec.ofNat 32 fd &&& 0xffff) := by
  rw [reportedTag, intOfUint64_uint64OfInt, requestTag, deserializeTag_serializeTag, and_mask_operation hop]

theorem and_mask_iff (hfd : fd < maxFileOpen) : BitVec.ofNat 32 fd &&& 0xffff = BitVec.ofNat 32 fd ↔ fd < 65536 := by
  refine ⟨fun h => ?_, and_mask⟩
  have hlt : fd < 2 ^ 32 := hfd.trans (by decide)
  have hval := congrArg BitVec.toNat h
  simp only [BitVec.toNat_and, BitVec.toNat_ofNat, BitVec.ofNat_eq_ofNat] at hval
  rw [Nat.mod_eq_of_lt hlt, Nat.and_two_pow_sub_one_eq_mod _ 16] at hval
  rw [← hval]
  exact Nat.mod_lt _ (by decide)

/-- The wildcard would decode to an operation that does not exist. -/
theorem requestTag_ne_any (hop : op ∈ operations) (fd : Nat) : requestTag op fd ≠ fmiAnyTag := by
  intro h
  have hdecode := deserializeTag_requestTag hop fd
  rw [h] at hdecode
  have hany : (deserializeTag (reportedTag fmiAnyTag)).1 ∉ operations := by decide
  rw [hdecode] at hany
  exact hany hop

end Tags

/-- A probe reports the tag that the sender gave, and the tags for some descriptors of the table are faithful exactly when
these descriptors fit into 16 bits. -/
theorem tags_faithful_iff (fds : Set Nat) (hfds : ∀ fd ∈ fds, fd < maxFileOpen) :
    (∀ (σ σ' τ τ' : Proc) (prm : SendParam) (c : ConnId) (a : QueryId), σ.step (.isend prm) = some σ' →
      ∃ c' q w, σ'.sq = σ.sq ++ [⟨c', q, .send w⟩] ∧
        (τ.takeRecv c w = some (τ', a) → (τ'.status a).2 = reportedTag prm.tag)) ∧
      (TagsFaithful fds ↔ ∀ fd ∈ fds, fd < 65536) := by
  refine ⟨fun σ σ' τ τ' prm c a h => ?_, fun h fd hfd => ?_, fun h => ?_⟩
  · obtain ⟨c', q, w, hsq, htag⟩ := Proc.sent_tag h
    refine ⟨c', q, w, hsq, fun hrecv => ?_⟩
    rw [Proc.received_tag hrecv, htag, reportedTag]
  · have hop : opWrite ∈ operations := by decide
    have hdecode := h.decoded opWrite hop fd hfd
    rw [deserializeTag_requestTag hop, Prod.mk.injEq] at hdecode
    exact (and_mask_iff (hfds fd hfd)).1 hdecode.2
  · have hdecoded : ∀ op ∈ operations, ∀ fd ∈ fds,
        deserializeTag (reportedTag (requestTag op fd)) = (op, BitVec.ofNat 32 fd) := by
      intro op hop fd hfd
      rw [deserializeTag_requestTag hop, and_mask (h fd hfd)]
    refine ⟨hdecoded, ?_, fun op hop fd _ => requestTag_ne_any hop fd⟩
    intro op hop op' hop' fd hfd fd' hfd' hne heq
    have hpair := hdecoded op hop fd hfd
    rw [heq, hdecoded op' hop' fd' hfd', Prod.mk.injEq] at hpair
    have hval := congrArg BitVec.toNat hpair.2
    have hlt := h fd hfd
    have hlt' := h fd' hfd'
    rw [BitVec.toNat_ofNat, BitVec.toNat_ofNat, Nat.mod_eq_of_lt (by omega), Nat.mod_eq_of_lt (by omega)] at hval
    exact hne (Prod.ext hpair.1.symm hval.symm)

/-- The descriptors that a busy server has handed out so far. -/
theorem tags_faithful_low : TagsFaithful { fd | 3 ≤ fd ∧ fd < 1024 } :=
  (tags_faithful_iff { fd | 3 ≤ fd ∧ fd < 1024 } fun _ h => h.2.trans (by decide)).2.2 fun _ h => h.2.trans (by decide)

/-- A write on the descriptor 65536 carries the tag of a write on the descriptor 0. -/
theorem tags_collide : ¬ TagsFaithful { fd | fd < maxFileOpen } := by
  intro h
  refine h.distinct opWrite (by decide) opWrite (by decide) 65536 ?_ 0 ?_ (by decide) (by decide)
  · change 65536 < maxFileOpen
    decide
  · change 0 < maxFileOpen
    decide

end Ibio

end Libibtl
