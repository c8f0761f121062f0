import Libibtl.Ownership

/-! # The tables of connections

Identifiers of the connection manager, connections, ranks and peer slots. What
holds here does not depend on how ranks are chosen.
-/

namespace Libibtl

open Foundation

namespace Proc

/-- The identifier has a rank, and a connection under it is still to be made or has been made. -/
structure Registered (σ : Proc) : Prop where
  numpeer : σ.numpeer = 1024 * 1024
  unused : ∀ id, σ.cm id = .unused → σ.hstbItop.find id = none
  early : ∀ id, σ.cm id = .unused ∨ σ.cm id = .resolving → ∀ c < σ.nconn, (σ.conns c).rcid ≠ id
  resolving : ∀ id, σ.cm id = .resolving → ∃ nd, σ.hstbItop.find id = some nd
  found : ∀ c < σ.nconn, ∃ nd, σ.hstbItop.find (σ.conns c).rcid = some nd
  injective : ∀ c < σ.nconn, ∀ c' < σ.nconn, (σ.conns c).rcid = (σ.conns c').rcid → c = c'
  ranked : ∀ id nd, σ.hstbItop.find id = some nd → ∃ r, nd.data = uint64OfInt r ∧ σ.InTable r
  slot : ∀ i c, (σ.peers i).conn = some c → c < σ.nconn
  posted : ∀ wr ∈ σ.rq, wr.conn < σ.nconn

variable {σ σ' : Proc}

/-- The tables of connections are as they were. -/
structure SameTables (σ σ' : Proc) : Prop where
  numpeer : σ'.numpeer = σ.numpeer
  cm : σ'.cm = σ.cm
  itop : σ'.hstbItop = σ.hstbItop
  conns : σ'.conns = σ.conns
  nconn : σ'.nconn = σ.nconn
  peers : σ'.peers = σ.peers

theorem Registered.init (b : Boot) : (Proc.init b).Registered := by
  constructor <;> simp [Proc.init]

theorem rmapItopGet_of_find {id : CmId} {nd : HashtableNode} (h : σ.hstbItop.find id = some nd) :
    σ.rmapItopGet id = intOfUint64 nd.data := by
  simp [rmapItopGet, Hashtable.get, h]

theorem Registered.inTable (h : σ.Registered) {c : ConnId} (hc : c < σ.nconn) :
    σ.InTable (σ.rmapItopGet (σ.conns c).rcid) := by
  obtain ⟨nd, hnd⟩ := h.found c hc
  obtain ⟨r, hr, htab⟩ := h.ranked _ _ hnd
  rwa [rmapItopGet_of_find hnd, hr, intOfUint64_uint64OfInt]

namespace Registered

theorem refill (h : σ.Registered) {c : ConnId} (hc : c < σ.nconn) (g : Grab) : (σ.refill c g).Registered := by
  refine ⟨h.1, h.2, h.3, h.4, h.5, h.6, h.7, h.8, fun wr hwr => ?_⟩
  rcases List.mem_append.1 hwr with hwr | hwr
  · exact h.posted wr hwr
  · rw [List.mem_singleton.1 hwr]
    exact hc

theorem refills (h : σ.Registered) {c : ConnId} (hc : c < σ.nconn) {n : Nat} (hr : Refills c σ n σ') :
    σ'.Registered := by
  induction hr with
  | zero => exact h
  | @succ n τ g hτ hg hx ih =>
    refine ih.refill ?_ g
    rw [hτ.rest]
    exact hc

theorem conn_lt (h : σ.Registered) {c : ConnId} {wr : RecvWr} (hwr : σ.rq.find? (·.conn = c) = some wr) :
    c < σ.nconn := by
  have hc : wr.conn = c := by simpa using List.find?_some hwr
  rw [← hc]
  exact h.posted wr (List.mem_of_find?_eq_some hwr)

theorem ranked_add (h : σ.Registered) {id : CmId} {r : CInt} (hid : σ.cm id = .unused) (htab : σ.InTable r)
    {id' : CmId} {nd : HashtableNode} (hnd : (σ.hstbItop.add id (uint64OfInt r)).find id' = some nd) :
    ∃ r', nd.data = uint64OfInt r' ∧ σ.InTable r' := by
  by_cases hne : id' = id
  · subst hne
    rw [Hashtable.find_add_self _ _ _ (h.unused _ hid)] at hnd
    cases hnd
    exact ⟨r, rfl, htab⟩
  · rw [Hashtable.find_add_ne _ _ _ hne] at hnd
    exact h.ranked _ _ hnd

theorem connected_injective (h : σ.Registered) {id : CmId} (hid : ∀ c < σ.nconn, (σ.conns c).rcid ≠ id)
    (dctx : Option DomainContext) (pd : Pd) :
    ∀ c < σ.nconn + 1, ∀ c' < σ.nconn + 1,
      ((σ.connected id dctx pd).conns c).rcid = ((σ.connected id dctx pd).conns c').rcid → c = c' := by
  intro c hc c' hc' heq
  simp only [connected_conns, Function.update_apply] at heq
  rcases Nat.lt_succ_iff_lt_or_eq.1 hc with hc | rfl
  · rcases Nat.lt_succ_iff_lt_or_eq.1 hc' with hc' | rfl
    · rw [if_neg (Nat.ne_of_lt hc), if_neg (Nat.ne_of_lt hc')] at heq
      exact h.injective c hc c' hc' heq
    · rw [if_neg (Nat.ne_of_lt hc), if_pos rfl] at heq
      exact absurd heq (hid c hc)
  · rcases Nat.lt_succ_iff_lt_or_eq.1 hc' with hc' | rfl
    · rw [if_pos rfl, if_neg (Nat.ne_of_lt hc')] at heq
      exact absurd heq.symm (hid c' hc')
    · rfl

theorem connected_rcid (id : CmId) (dctx : Option DomainContext) (pd : Pd) {c : ConnId} (hc : c < σ.nconn + 1) :
    (((σ.connected id dctx pd).conns c).rcid = id ∧ c = σ.nconn) ∨
      (c < σ.nconn ∧ (σ.connected id dctx pd).conns c = σ.conns c) := by
  rcases Nat.lt_succ_iff_lt_or_eq.1 hc with hc | rfl
  · exact .inr ⟨hc, Function.update_of_ne (Nat.ne_of_lt hc) ..⟩
  · exact .inl ⟨by simp, rfl⟩

theorem phase_cases {id id' : CmId} {phase x : CmPhase} (h : Function.update σ.cm id phase id' = x) :
    (id' = id ∧ phase = x) ∨ (id' ≠ id ∧ σ.cm id' = x) := by
  by_cases hid : id' = id
  · subst hid
    rw [Function.update_self] at h
    exact .inl ⟨rfl, h⟩
  · rw [Function.update_of_ne hid] at h
    exact .inr ⟨hid, h⟩

theorem setPhase (h : σ.Registered) (id : CmId) (phase : CmPhase) (hu : phase ≠ .unused) (hr : phase ≠ .resolving) :
    ({ σ with cm := Function.update σ.cm id phase } : Proc).Registered := by
  refine ⟨h.numpeer, ?_, ?_, ?_, h.found, h.injective, h.ranked, h.slot, h.posted⟩
  · intro id' hid'
    rcases phase_cases hid' with ⟨-, hphase⟩ | ⟨-, hold⟩
    · exact absurd hphase hu
    · exact h.unused id' hold
  · rintro id' (hid' | hid')
    · rcases phase_cases hid' with ⟨-, hphase⟩ | ⟨-, hold⟩
      · exact absurd hphase hu
      · exact h.early id' (.inl hold)
    · rcases phase_cases hid' with ⟨-, hphase⟩ | ⟨-, hold⟩
      · exact absurd hphase hr
      · exact h.early id' (.inr hold)
  · intro id' hid'
    rcases phase_cases hid' with ⟨-, hphase⟩ | ⟨-, hold⟩
    · exact absurd hphase hr
    · exact h.resolving id' hold

theorem rmapItopAdd (h : σ.Registered) {id : CmId} {rank : CInt} (hcm : σ.cm id = .unused) (htab : σ.InTable rank) :
    ({ σ with
      hstbItop := σ.hstbItop.add id (uint64OfInt rank), cm := Function.update σ.cm id .resolving
      } : Proc).Registered := by
  refine ⟨h.numpeer, ?_, ?_, ?_, ?_, h.injective, fun id' nd hnd => h.ranked_add hcm htab hnd, h.slot, h.posted⟩
  · intro id' hid'
    rcases phase_cases hid' with ⟨-, hphase⟩ | ⟨hne, hold⟩
    · cases hphase
    · rw [Hashtable.find_add_ne _ _ _ hne]
      exact h.unused id' hold
  · rintro id' hid'
    by_cases hne : id' = id
    · rw [hne]
      exact h.early id (.inl hcm)
    · simp only [Function.update_of_ne hne] at hid'
      exact h.early id' hid'
  · intro id' hid'
    rcases phase_cases hid' with ⟨rfl, -⟩ | ⟨-, hold⟩
    · exact ⟨_, Hashtable.find_add_self _ _ _ (h.unused _ hcm)⟩
    · exact (h.resolving id' hold).imp fun nd hnd => Hashtable.find_add_mono _ _ _ hnd
  · exact fun c hc => (h.found c hc).imp fun nd hnd => Hashtable.find_add_mono _ _ _ hnd

/-- A connection is made for an identifier that is being resolved, and may take a slot. -/
theorem connected (h : σ.Registered) {id : CmId} (hcm : σ.cm id = .resolving) (dctx : Option DomainContext) (pd : Pd)
    (phase : CmPhase) (hu : phase ≠ .unused) (hr : phase ≠ .resolving) (peers : Int → Peer)
    (hpeers : ∀ i c, (peers i).conn = some c → c = σ.nconn ∨ (σ.peers i).conn = some c) :
    ({ σ.connected id dctx pd with
      peers := peers, cm := Function.update σ.cm id phase } : Proc).Registered := by
  refine ⟨h.numpeer, ?_, ?_, ?_, ?_, h.connected_injective (h.early id (.inr hcm)) dctx pd, h.ranked, ?_, ?_⟩
  · intro id' hid'
    rcases phase_cases hid' with ⟨-, hphase⟩ | ⟨-, hold⟩
    · exact absurd hphase hu
    · exact h.unused id' hold
  · intro id' hid' c hc
    by_cases hne : id' = id
    · subst hne
      simp only [Function.update_self] at hid'
      rcases hid' with hphase | hphase
      · exact absurd hphase hu
      · exact absurd hphase hr
    · simp only [Function.update_of_ne hne] at hid'
      rcases connected_rcid id dctx pd hc with ⟨hid, -⟩ | ⟨hlt, hold⟩
      · exact fun heq => hne (heq.symm.trans hid)
      · exact fun heq => h.early id' hid' c hlt (hold ▸ heq)
  · intro id' hid'
    rcases phase_cases hid' with ⟨-, hphase⟩ | ⟨-, hold⟩
    · exact absurd hphase hr
    · exact h.resolving id' hold
  · intro c hc
    rcases connected_rcid id dctx pd hc with ⟨hid, -⟩ | ⟨hlt, hold⟩
    · simp only [hid]
      exact h.resolving id hcm
    · simp only [hold]
      exact h.found c hlt
  · intro i c hc
    rcases hpeers i c hc with rfl | hold
    · exact Nat.lt_succ_self _
    · exact Nat.lt_succ_of_lt (h.slot i c hold)
  · exact fun wr hwr => Nat.lt_succ_of_lt (h.posted wr hwr)

theorem linked (h : σ.Registered) {e : Event} (hl : σ.Linked e σ') : σ'.Registered := by
  cases hl with
  | connect hcm htab => exact h.rmapItopAdd hcm htab
  | reject hcm => exact h.setPhase _ _ (by decide) (by decide)
  | @acceptRequest id verbs pd pd' dctx hcm htab hd =>
    -- an incoming identifier is registered and connected in one step
    have hadd := h.rmapItopAdd hcm htab
    have hphase : Function.update σ.cm id .resolving id = .resolving := Function.update_self ..
    have hconn := hadd.connected hphase dctx pd' .accepted (by decide) (by decide)
      (Function.update σ.peers σ.connectedRank.toInt
        { σ.peers σ.connectedRank.toInt with onConnectingLock := true, conn := some σ.nconn }) (by
        intro i c hc
        rw [Function.update_apply] at hc
        split at hc
        · exact .inl (Option.some.inj hc).symm
        · exact .inr hc)
    simp only [Function.update_idem] at hconn
    exact ⟨hconn.1, hconn.2, hconn.3, hconn.4, hconn.5, hconn.6, hconn.7, hconn.8, hconn.9⟩
  | resolve hcm hslot hd =>
    refine h.connected hcm _ _ _ (by decide) (by decide) _ fun i c hc => ?_
    rw [Function.update_apply] at hc
    split at hc
    · exact .inl (Option.some.inj hc).symm
    · exact .inr hc
  | drop hcm hd => exact h.connected hcm _ _ _ (by decide) (by decide) _ fun i c hc => .inr hc
  | route hcm => exact h.setPhase _ _ (by decide) (by decide)

theorem of_sameTables (h : σ.Registered) (hs : SameTables σ σ') (hrq : ∀ wr ∈ σ'.rq, wr.conn < σ.nconn) :
    σ'.Registered := by
  obtain ⟨hnum, hcm, hitop, hconns, hnconn, hpeers⟩ := hs
  refine ⟨?_, ?_, ?_, ?_, ?_, ?_, ?_, ?_, ?_⟩ <;> simp only [InTable, hnum, hcm, hitop, hconns, hnconn, hpeers]
  · exact h.numpeer
  · exact h.unused
  · exact h.early
  · exact h.resolving
  · exact h.found
  · exact h.injective
  · exact h.ranked
  · exact h.slot
  · exact hrq

theorem posted_of_arrive (h : σ.Registered) {c : ConnId} {wr : RecvWr}
    (hwr : σ.rq.find? (·.conn = c) = some wr) (q : QueryId) (k : UInt32T) :
    ∀ x ∈ σ.rq.eraseP (·.conn = c) ++ [recvWr c q k], x.conn < σ.nconn := by
  intro x hx
  rcases List.mem_append.1 hx with hx | hx
  · exact h.posted x (List.mem_of_mem_eraseP hx)
  · rw [List.mem_singleton.1 hx]
    exact h.conn_lt hwr

theorem transition (h : σ.Registered) {e : Event} (ht : Transition σ e σ') : σ'.Registered := by
  cases ht with
  | launch _ _ _ | accept _ _ _ | fetch _ _ _ _ _ _ _ _ | await _ _ _ _ _ | sentEager _ _ _ _ | sentOther _ _
  | readDone _ _ _ _ _ | flush => exact h.of_sameTables ⟨rfl, rfl, rfl, rfl, rfl, rfl⟩ h.posted
  | deliver _ hwr _ _ _ _ _ => exact h.of_sameTables ⟨rfl, rfl, rfl, rfl, rfl, rfl⟩ (h.posted_of_arrive hwr _ _)
  | startRead _ hwr _ _ _ _ => exact h.of_sameTables ⟨rfl, rfl, rfl, rfl, rfl, rfl⟩ (h.posted_of_arrive hwr _ _)
  | store _ hwr _ _ _ => exact h.of_sameTables ⟨rfl, rfl, rfl, rfl, rfl, rfl⟩ (h.posted_of_arrive hwr _ _)
  | finish _ hwr _ _ => exact h.of_sameTables ⟨rfl, rfl, rfl, rfl, rfl, rfl⟩ (h.posted_of_arrive hwr _ _)
  | link hl => exact h.linked hl
  | @establish id c τ hcm hc hτ =>
    have hr := (h.refills (h.slot _ _ hc) hτ).setPhase id .established (by decide) (by decide)
    refine ⟨hr.1, hr.2, hr.3, hr.4, hr.5, hr.6, hr.7, ?_, hr.9⟩
    intro i c' hc'
    simp only [Proc.setPhase, setPeer, Function.update_apply] at hc'
    split at hc'
    · exact hr.slot _ c' hc'
    · exact hr.slot i c' hc'

end Registered

theorem Registered.of_path {b : Boot} {es : List Event}
    (h : Path Proc.step (fun _ e => e.FromPeer) (Proc.init b) es σ) : σ.Registered :=
  (h.invariant (I := fun σ => σ.Sound [] ∧ σ.Registered)
    (fun _ _ _ hs he hstep => ⟨hs.1.step he hstep,
      hs.2.transition (transition_of_step hs.1.toOwned hs.1.toWired he hstep)⟩)
    ⟨Sound.init b, Registered.init b⟩).2

end Proc

end Libibtl
