import Libibtl.Connections

/-! # The identity of a connection

An identifier that has passed address resolution or has been accepted keeps its
own connection in the slot of its rank, as long as no incoming request is given
the rank of a slot that is already taken. The handler of incoming requests does
not look at the slot, and a run where one takes an outgoing connection's slot is
given at the end.
-/

namespace Libibtl

open Foundation

/-- The phases in which an identifier has a slot. -/
def CmPhase.slotted : CmPhase → Bool
  | .routing | .connecting | .accepted | .established => true
  | .unused | .resolving | .dropped => false

namespace Proc

/-- An incoming request meets a slot that no connection has taken. -/
def RequestsFreeSlot (σ : Proc) : Event → Prop
  | .connectRequest _ _ _ => (σ.peers σ.connectedRank.toInt).conn = none
  | _ => True

instance (σ : Proc) (e : Event) : Decidable (σ.RequestsFreeSlot e) :=
  match e with
  | .connectRequest _ _ _ => inferInstanceAs (Decidable (_ = _))
  | .wcRecv _ _ | .isend _ | .irecv _ | .wcSend _ | .wcRdmaRead _ _ | .flush | .connect _ _ | .addrResolved _ _ _
  | .routeResolved _ | .established _ => .isTrue trivial

/-- The slot of an identifier holds the connection made for it. -/
def HoldsSlot (σ : Proc) (id : CmId) : Prop :=
  ∃ c, (σ.peers (σ.rmapItopGet id).toInt).conn = some c ∧ (σ.conns c).rcid = id

def Slotted (σ : Proc) : Prop := ∀ id, (σ.cm id).slotted → σ.HoldsSlot id

/-- Established connections have distinct ranks, each is in the slot of its rank, and a message to
that rank is posted on it. -/
structure Identified (σ : Proc) : Prop where
  ranks : ∀ id id', σ.cm id = .established → σ.cm id' = .established →
    σ.rmapItopGet id = σ.rmapItopGet id' → id = id'
  slots : ∀ id, σ.cm id = .established → σ.HoldsSlot id
  sends : ∀ id prm σ', σ.cm id = .established → prm.dest = σ.rmapItopGet id → σ.step (.isend prm) = some σ' →
    ∃ wr, σ'.sq = σ.sq ++ [wr] ∧ (σ.conns wr.conn).rcid = id

variable {σ σ' : Proc}

theorem Slotted.init (b : Boot) : (Proc.init b).Slotted := fun _ hid => nomatch hid

theorem Slotted.identified (h : σ.Slotted) : σ.Identified := by
  have hslot : ∀ id, σ.cm id = .established → σ.HoldsSlot id := fun id hid => h id (by rw [hid]; rfl)
  refine ⟨?_, hslot, ?_⟩
  · intro id id' hid hid' hrank
    obtain ⟨c, hc, hrcid⟩ := hslot id hid
    obtain ⟨c', hc', hrcid'⟩ := hslot id' hid'
    rw [hrank, hc'] at hc
    cases hc
    exact hrcid.symm.trans hrcid'
  · intro id prm σ' hid hdest hstep
    obtain ⟨c, hc, hrcid⟩ := hslot id hid
    rw [← hdest] at hc
    cases isend_transition hstep with
    | launch hpeer hg hx =>
      rw [hc] at hpeer
      cases hpeer
      exact ⟨_, rfl, hrcid⟩
    | link hl => cases hl

theorem HoldsSlot.of_sameTables {id : CmId} (h : σ.HoldsSlot id) (hs : SameTables σ σ') : σ'.HoldsSlot id := by
  obtain ⟨c, hc, hrcid⟩ := h
  refine ⟨c, ?_, ?_⟩
  · rw [hs.peers, rmapItopGet, hs.itop]
    exact hc
  · rw [hs.conns]
    exact hrcid

theorem HoldsSlot.kept (hreg : σ.Registered) {id : CmId} (h : σ.HoldsSlot id)
    (hrank : σ'.rmapItopGet id = σ.rmapItopGet id) (hconns : ∀ c < σ.nconn, σ'.conns c = σ.conns c)
    (hpeers : ∀ i c, (σ.peers i).conn = some c → (σ'.peers i).conn = some c) : σ'.HoldsSlot id := by
  obtain ⟨c, hc, hrcid⟩ := h
  refine ⟨c, ?_, ?_⟩
  · rw [hrank]
    exact hpeers _ c hc
  · rw [hconns c (hreg.slot _ c hc)]
    exact hrcid

theorem rmapItopGet_add_ne {id id' : CmId} {rank : CInt} (h : id' ≠ id) :
    (σ.rmapItopAdd id rank).rmapItopGet id' = σ.rmapItopGet id' := by
  rw [rmapItopGet, rmapItopGet, Hashtable.get, Hashtable.get]
  simp only [rmapItopAdd]
  rw [Hashtable.find_add_ne _ _ _ h]

theorem rmapItopGet_add_self {id : CmId} {rank : CInt} (h : σ.hstbItop.find id = none) :
    (σ.rmapItopAdd id rank).rmapItopGet id = rank := by
  have hfind : (σ.rmapItopAdd id rank).hstbItop.find id = some ⟨id, uint64OfInt rank⟩ :=
    Hashtable.find_add_self _ _ _ h
  rw [rmapItopGet_of_find hfind, intOfUint64_uint64OfInt]

theorem update_peers_of_none {i : Int} {x : Peer} (h : (σ.peers i).conn = none) {j : Int} {c : ConnId}
    (hc : (σ.peers j).conn = some c) : (Function.update σ.peers i x j).conn = some c := by
  rw [Function.update_of_ne]
  · exact hc
  · rintro rfl
    rw [h] at hc
    cases hc

theorem slotted_update {id id' : CmId} {phase : CmPhase} (h : (Function.update σ.cm id phase id').slotted) :
    (id' = id ∧ phase.slotted) ∨ (id' ≠ id ∧ (σ.cm id').slotted) := by
  by_cases hid : id' = id
  · rw [hid, Function.update_self] at h
    exact .inl ⟨hid, h⟩
  · rw [Function.update_of_ne hid] at h
    exact .inr ⟨hid, h⟩

theorem Slotted.linked (h : σ.Slotted) (hreg : σ.Registered) {e : Event} (hfree : σ.RequestsFreeSlot e)
    (hl : σ.Linked e σ') : σ'.Slotted := by
  intro id' hid'
  cases hl with
  | @connect rank id hcm htab =>
    rcases slotted_update hid' with ⟨rfl, hphase⟩ | ⟨hne, hold⟩
    · cases hphase
    · exact (h id' hold).kept hreg (rmapItopGet_add_ne hne) (fun _ _ => rfl) fun _ _ hc => hc
  | reject hcm =>
    rcases slotted_update hid' with ⟨rfl, hphase⟩ | ⟨hne, hold⟩
    · cases hphase
    · exact (h id' hold).kept hreg rfl (fun _ _ => rfl) fun _ _ hc => hc
  | @acceptRequest id verbs pd pd' dctx hcm htab hd =>
    have hslot : (σ.peers σ.connectedRank.toInt).conn = none := hfree
    rcases slotted_update hid' with ⟨rfl, hphase⟩ | ⟨hne, hold⟩
    · have hrank : (σ.acceptRequest id' dctx pd').rmapItopGet id' = σ.connectedRank :=
        rmapItopGet_add_self (hreg.unused _ hcm)
      refine ⟨σ.nconn, ?_, ?_⟩
      · rw [hrank]
        simp
      · simp
    · exact (h id' hold).kept hreg (rmapItopGet_add_ne hne) (fun _ hc => Function.update_of_ne (Nat.ne_of_lt hc) ..) fun _ _ hc =>
        update_peers_of_none hslot hc
  | @resolve id verbs pd pd' dctx hcm hslot hd =>
    rcases slotted_update hid' with ⟨rfl, hphase⟩ | ⟨hne, hold⟩
    · refine ⟨σ.nconn, ?_, ?_⟩
      · have hrank : (σ.resolve id' dctx pd').rmapItopGet id' = σ.rmapItopGet id' := rfl
        rw [hrank]
        simp
      · simp
    · exact (h id' hold).kept hreg rfl (fun _ hc => Function.update_of_ne (Nat.ne_of_lt hc) ..) fun _ _ hc =>
        update_peers_of_none hslot hc
  | drop hcm hd =>
    rcases slotted_update hid' with ⟨rfl, hphase⟩ | ⟨hne, hold⟩
    · cases hphase
    · exact (h id' hold).kept hreg rfl (fun _ hc => Function.update_of_ne (Nat.ne_of_lt hc) ..) fun _ _ hc => hc
  | route hcm =>
    rcases slotted_update hid' with ⟨rfl, hphase⟩ | ⟨hne, hold⟩
    · exact (h id' (by rw [hcm]; rfl)).kept hreg rfl (fun _ _ => rfl) fun _ _ hc => hc
    · exact (h id' hold).kept hreg rfl (fun _ _ => rfl) fun _ _ hc => hc

theorem Slotted.transition (h : σ.Slotted) (hreg : σ.Registered) {e : Event} (hfree : σ.RequestsFreeSlot e)
    (ht : Transition σ e σ') : σ'.Slotted := by
  have hsame : SameTables σ σ' → σ'.Slotted := by
    intro hs id hid
    rw [hs.cm] at hid
    exact (h id hid).of_sameTables hs
  cases ht with
  | launch _ _ _ | accept _ _ _ | fetch _ _ _ _ _ _ _ _ | await _ _ _ _ _ | sentEager _ _ _ _ | sentOther _ _
  | readDone _ _ _ _ _ | flush | deliver _ _ _ _ _ _ _ | startRead _ _ _ _ _ _ | store _ _ _ _ _ | finish _ _ _ _ =>
    exact hsame ⟨rfl, rfl, rfl, rfl, rfl, rfl⟩
  | link hl => exact h.linked hreg hfree hl
  | @establish id c τ hcm hc hτ =>
    rw [hτ.rest]
    intro id' hid'
    have hold : σ.HoldsSlot id' := by
      rcases slotted_update hid' with ⟨rfl, -⟩ | ⟨-, hold⟩
      · rcases hcm with hcm | hcm
        · exact h id' (by rw [hcm]; rfl)
        · exact h id' (by rw [hcm]; rfl)
      · exact h id' hold
    refine hold.kept hreg rfl (fun _ _ => rfl) fun i c' hc' => ?_
    simp only [setPhase, setPeer, Function.update_apply]
    split
    · next hi =>
      rw [hi] at hc'
      exact hc'
    · exact hc'

end Proc

open Proc

/-- In runs where every incoming request meets an empty slot, connections keep their identity. -/
theorem connection_identity_of_free_slots {b : Boot} {es : List Event} {σ : Proc}
    (h : Path Proc.step (fun σ e => e.FromPeer ∧ σ.RequestsFreeSlot e) (Proc.init b) es σ) : σ.Identified := by
  have hinv := h.invariant (I := fun σ => σ.Sound [] ∧ σ.Registered ∧ σ.Slotted)
    (fun σ e τ hs he hstep => by
      obtain ⟨hsound, hreg, hslot⟩ := hs
      have ht := transition_of_step hsound.toOwned hsound.toWired he.1 hstep
      exact ⟨hsound.step he.1 hstep, hreg.transition ht, hslot.transition hreg he.2 ht⟩)
    ⟨Sound.init b, Registered.init b, Slotted.init b⟩
  exact hinv.2.2.identified

/-- The caller connects to rank 2, and one request comes in under rank 1. -/
def twoConnections : List Event := Event.connecting 2 16 ++ [.connectRequest 32 0 0, .established 32]

theorem connection_identity_two :
    ∃ σ, Path Proc.step (fun σ e => e.FromPeer ∧ σ.RequestsFreeSlot e) (Proc.init Boot.zeroed) twoConnections σ ∧
      σ.cm 16 = .established ∧ σ.cm 32 = .established ∧ σ.Identified := by
  obtain ⟨σ, hpath, hcm⟩ := exists_path_of_runWhile Proc.step (fun σ e => e.FromPeer ∧ σ.RequestsFreeSlot e)
    (Proc.init Boot.zeroed) twoConnections (fun σ => decide (σ.cm 16 = .established ∧ σ.cm 32 = .established))
    (by decide +kernel)
  obtain ⟨h16, h32⟩ := of_decide_eq_true hcm
  exact ⟨σ, hpath, h16, h32, connection_identity_of_free_slots hpath⟩

/-- The ranks that the caller of `fdmi_verbs_connect` chooses. -/
def Event.connectRank : Event → Option CInt
  | .connect rank _ => some rank
  | _ => none

/-- The caller connects to rank 1. Before the connection is established, a request comes in and is
given rank 1 as well. -/
def sharedSlot : List Event :=
  [.connect 1 16, .addrResolved 16 0 0, .connectRequest 32 0 0, .routeResolved 16, .established 16, .established 32]

theorem connection_identity_shared_slot :
    (sharedSlot.filterMap Event.connectRank).Nodup ∧
    ∃ σ, Path Proc.step (fun _ e => e.FromPeer) (Proc.init Boot.zeroed) sharedSlot σ ∧
      ¬ (∀ id id', σ.cm id = .established → σ.cm id' = .established → σ.rmapItopGet id = σ.rmapItopGet id' → id = id') ∧
      ¬ σ.HoldsSlot 16 ∧ ¬ σ.Identified := by
  refine ⟨by decide, ?_⟩
  obtain ⟨σ, hpath, hσ⟩ := exists_path_of_runWhile Proc.step (fun _ e => e.FromPeer) (Proc.init Boot.zeroed) sharedSlot
    (fun σ => decide (σ.cm 16 = .established ∧ σ.cm 32 = .established ∧ σ.rmapItopGet 16 = σ.rmapItopGet 32 ∧
      ((σ.peers (σ.rmapItopGet 16).toInt).conn.map fun c => (σ.conns c).rcid) = some 32)) (by decide +kernel)
  obtain ⟨h16, h32, hrank, hslot⟩ := of_decide_eq_true hσ
  have hranks : ¬ ∀ id id', σ.cm id = .established → σ.cm id' = .established →
      σ.rmapItopGet id = σ.rmapItopGet id' → id = id' := by
    intro h
    exact absurd (h 16 32 h16 h32 hrank) (by decide)
  refine ⟨σ, hpath, hranks, ?_, fun h => hranks h.ranks⟩
  rintro ⟨c, hc, hrcid⟩
  rw [hc, Option.map_some, hrcid] at hslot
  cases hslot

end Libibtl
