import Libibtl.Failure

/-! # Messages of an earlier epoch

`ft_msg.epoch` is a counter that may grow between two steps. Three tests keep
messages of earlier epochs out: the one on the message in `fdmi_is_matched_query2`,
the one in front of the active queue, and the one in `fdmi_is_matched_query`, which
looks at the receive. An arriving message of an earlier epoch is therefore still
paired with a receive that waits.
-/

namespace Libibtl

open Foundation

inductive EpochEvent
  | lib (e : Event)
  | raise (epoch : CInt)

namespace Proc

def epochStep (σ : Proc) : EpochEvent → Option Proc
  | .lib e => σ.step e
  | .raise epoch => if σ.ftEpoch.sle epoch then some { σ with ftEpoch := epoch } else none

/-- The message is of an earlier epoch. -/
def Stale (σ : Proc) (c : Ctl) : Prop := c.epoch.slt σ.ftEpoch = true

instance (σ : Proc) (c : Ctl) : Decidable (σ.Stale c) := inferInstanceAs (Decidable (_ = _))

/-- No receive, no user memory and no read of this step has to do with a message of an earlier epoch: an arriving
one leaves them alone, and a new receive takes a message of the current epoch or leaves them alone. -/
def Fresh (σ : Proc) (e : EpochEvent) : Prop :=
  ∀ σ', σ.epochStep e = some σ' →
    match e with
    | .lib (.wcRecv _ w) =>
      w.ctl.type = .commInit → σ.Stale w.ctl → σ'.pq = σ.pq ∧ σ'.mem = σ.mem ∧ σ'.sq = σ.sq
    | .lib (.irecv _) =>
      (σ'.aq = σ.aq ∧ σ'.mem = σ.mem ∧ σ'.sq = σ.sq) ∨
        ∃ a ∈ σ.aq, σ'.aq = σ.aq.erase a ∧ ¬ σ.Stale (σ.queries a).msg.toCtl
    | _ => True

/-- A message of an earlier epoch arrives, and a waiting receive matches it. -/
def StaleMatched (σ : Proc) : EpochEvent → Prop
  | .lib (.wcRecv c w) =>
    w.ctl.type = .commInit ∧ σ.Stale w.ctl ∧
      ∃ r, σ.takeRecv c w = some r ∧ (r.1.getMatchedQuery r.2 r.1.pq).isSome
  | _ => False

section Arrival

variable {σ : Proc} {c : ConnId} {w : Wire}

theorem takeRecv_spec {r : Proc × QueryId} (h : σ.takeRecv c w = some r) :
    r.1.pq = σ.pq ∧ r.1.mem = σ.mem ∧ r.1.sq = σ.sq ∧ r.1.ftEpoch = σ.ftEpoch ∧
      (r.1.queries r.2).msg.type = w.ctl.type ∧ (r.1.queries r.2).msg.epoch = w.ctl.epoch := by
  obtain ⟨wr, -, rfl⟩ := Option.map_eq_some_iff.1 h
  simp only [scatter, setQuery, stampRank, Function.update_self]
  split
  · simp [abort]
  · simp [setCtl, setQuery]

theorem postRecvMsg_frame (q : QueryId) :
    (σ.postRecvMsg q).pq = σ.pq ∧ (σ.postRecvMsg q).mem = σ.mem ∧ (σ.postRecvMsg q).sq = σ.sq := by
  rw [postRecvMsg]
  split <;> exact ⟨rfl, rfl, rfl⟩

theorem repost_frame (q : QueryId) :
    (σ.repost q).pq = σ.pq ∧ (σ.repost q).mem = σ.mem ∧ (σ.repost q).sq = σ.sq := by
  obtain ⟨g, -, -, heq⟩ := createQuery_eq (σ := σ) (σ.queries q).conn
  rw [repost, heq]
  exact postRecvMsg_frame g.query

theorem postRdmaRead_queues (p a : QueryId) : (σ.postRdmaRead p a).pq = σ.pq ∧ (σ.postRdmaRead p a).aq = σ.aq := by
  rw [postRdmaRead]
  split
  · exact ⟨rfl, rfl⟩
  · rename_i c hc
    obtain ⟨regs, cached, hreg⟩ := regMr_eq (σ := σ) (.msg p) msgSize (σ.conns c).pd
    simp only [hreg, setQuery, and_self]

theorem matchArrival_paired {a p : QueryId} (h : σ.getMatchedQuery a σ.pq = some p) :
    (σ.matchArrival a).pq = σ.pq.erase p := by
  rw [matchArrival, h]
  simp only
  split
  · rw [cpyEagerBuff]
    split <;> rfl
  · exact (postRdmaRead_queues ..).1
  · rfl

theorem matchArrival_stale {a : QueryId} (h : σ.getMatchedQuery a σ.pq = none)
    (hstale : (σ.queries a).msg.epoch.slt σ.ftEpoch = true) : σ.matchArrival a = σ := by
  rw [matchArrival, h]
  simp only [hstale, if_true]

theorem step_init {r : Proc × QueryId} {σ' : Proc} (hr : σ.takeRecv c w = some r) (htype : w.ctl.type = .commInit)
    (hstep : σ.step (.wcRecv c w) = some σ') : σ' = (r.1.matchArrival r.2).repost r.2 := by
  obtain ⟨heff, -⟩ := step_eq_some.1 hstep
  obtain ⟨-, -, -, -, hmsg, -⟩ := takeRecv_spec hr
  simp only [effect, wcRecv, hr, Option.map_some, Option.some.injEq, dispatchRecv, hmsg, htype, onRecvCqWcRecv,
    discards_false, Bool.false_eq_true, if_false] at heff
  exact heff.symm

theorem fresh_arrival (hstep : (σ.step (.wcRecv c w)).isSome) :
    σ.Fresh (.lib (.wcRecv c w)) ↔ ¬ σ.StaleMatched (.lib (.wcRecv c w)) := by
  obtain ⟨σ', hσ'⟩ := Option.isSome_iff_exists.1 hstep
  constructor
  · rintro hfresh ⟨htype, hstale, r, hr, hmatched⟩
    obtain ⟨p, hp⟩ := Option.isSome_iff_exists.1 hmatched
    obtain ⟨hrpq, -⟩ := takeRecv_spec hr
    obtain ⟨hpq, -⟩ := hfresh σ' hσ' htype hstale
    rw [step_init hr htype hσ', (repost_frame r.2).1, matchArrival_paired hp, hrpq] at hpq
    -- the receive that was taken is missing from the queue
    have hmem : p ∈ σ.pq := hrpq ▸ List.mem_of_find?_eq_some hp
    have hlength := List.length_erase_of_mem hmem
    have hpos := List.length_pos_of_mem hmem
    rw [hpq] at hlength
    omega
  · intro hnot σ'' hσ'' htype hstale
    obtain rfl := Option.some.inj (hσ'.symm.trans hσ'')
    obtain ⟨heff, -⟩ := step_eq_some.1 hσ'
    obtain ⟨r, hr, -⟩ := Option.map_eq_some_iff.1 heff
    obtain ⟨hpq, hmem, hsq, hepoch, -, hmsg⟩ := takeRecv_spec hr
    have hnone : r.1.getMatchedQuery r.2 r.1.pq = none := by
      by_contra hsome
      exact hnot ⟨htype, hstale, r, hr, Option.isSome_iff_ne_none.2 hsome⟩
    have hslt : (r.1.queries r.2).msg.epoch.slt r.1.ftEpoch = true := by
      rw [hepoch, hmsg]
      exact hstale
    rw [step_init hr htype hσ', matchArrival_stale hnone hslt]
    obtain ⟨hpq', hmem', hsq'⟩ := repost_frame (σ := r.1) r.2
    exact ⟨hpq'.trans hpq, hmem'.trans hmem, hsq'.trans hsq⟩

end Arrival

section Post

variable {σ : Proc}

theorem initPassiveQuery_frame (rank : CInt) (prm : RecvParam) :
    (σ.initPassiveQuery rank prm).1.aq = σ.aq ∧ (σ.initPassiveQuery rank prm).1.mem = σ.mem ∧
      (σ.initPassiveQuery rank prm).1.sq = σ.sq := by
  cases hd : σ.dctx with
  | none =>
    rw [initPassiveQuery, hd]
    exact ⟨rfl, rfl, rfl⟩
  | some dctx =>
    obtain ⟨g, -, -, -, heq⟩ := initPassiveQuery_eq (σ := σ) (by rw [hd]; rfl) rank prm
    rw [heq]
    exact ⟨rfl, rfl, rfl⟩

theorem postRecvMsgParam_taken {source : CInt} {prm : RecvParam} {a : QueryId}
    (h : σ.getMatchedQuery2 source prm.tag prm.comm σ.aq = some a) :
    (σ.postRecvMsgParam source prm).aq = σ.aq.erase a := by
  rw [postRecvMsgParam, h]
  simp only
  split
  · rfl
  · exact (postRdmaRead_queues ..).2.trans (initPassiveQuery_frame ..).1
  · rfl

theorem postRecvMsgParam_waits {source : CInt} {prm : RecvParam}
    (h : σ.getMatchedQuery2 source prm.tag prm.comm σ.aq = none) :
    (σ.postRecvMsgParam source prm).aq = σ.aq ∧ (σ.postRecvMsgParam source prm).mem = σ.mem ∧
      (σ.postRecvMsgParam source prm).sq = σ.sq := by
  rw [postRecvMsgParam, h]
  exact initPassiveQuery_frame source prm

theorem not_stale_of_matched {rank tag commId : CInt} {c : Ctl} (h : isMatchedQuery2 σ.ftEpoch rank tag commId c = true) :
    ¬ σ.Stale c := by
  intro hstale
  have hslt : c.epoch.slt σ.ftEpoch = true := hstale
  rw [isMatchedQuery2, if_pos hslt] at h
  cases h

/-- A new receive never takes a message of an earlier epoch. -/
theorem fresh_irecv (prm : RecvParam) : σ.Fresh (.lib (.irecv prm)) := by
  intro σ' hstep
  change (σ'.aq = σ.aq ∧ σ'.mem = σ.mem ∧ σ'.sq = σ.sq) ∨
    ∃ a ∈ σ.aq, σ'.aq = σ.aq.erase a ∧ ¬ σ.Stale (σ.queries a).msg.toCtl
  obtain ⟨heff, -⟩ := step_eq_some.1 hstep
  simp only [effect] at heff
  split at heff
  · obtain rfl := Option.some.inj heff
    rw [irecv]
    split
    · exact .inl ⟨rfl, rfl, rfl⟩
    · rename_i source hsrc
      split
      · cases hsel : (σ.setFlag prm.request 0).getMatchedQuery2 source prm.tag prm.comm σ.aq with
        | none => exact .inl (postRecvMsgParam_waits hsel)
        | some a =>
          refine .inr ⟨a, List.mem_of_find?_eq_some hsel, postRecvMsgParam_taken hsel, ?_⟩
          rw [getMatchedQuery2] at hsel
          have hmatched := List.find?_some hsel
          exact not_stale_of_matched hmatched
      · exact .inl ⟨rfl, rfl, rfl⟩
  · cases heff

theorem fresh_iff {e : EpochEvent} {σ' : Proc} (hstep : σ.epochStep e = some σ') : σ.Fresh e ↔ ¬ σ.StaleMatched e := by
  cases e with
  | raise epoch => exact ⟨fun _ h => h, fun _ _ _ => trivial⟩
  | lib e =>
    cases e with
    | wcRecv c w => exact fresh_arrival (Option.isSome_iff_exists.2 ⟨σ', hstep⟩)
    | irecv prm => exact ⟨fun _ h => h, fun _ => fresh_irecv prm⟩
    | _ => exact ⟨fun _ h => h, fun _ _ _ => trivial⟩

end Post

end Proc

/-- The runs in which no message of an earlier epoch is paired are the runs in which none arrives while a receive
that matches it waits. -/
theorem stale_never_paired_iff (b : Boot) (es : List EpochEvent) (σ : Proc) :
    Path Proc.epochStep Proc.Fresh (Proc.init b) es σ ↔
      Path Proc.epochStep (fun σ e => ¬ σ.StaleMatched e) (Proc.init b) es σ :=
  Path.congr_ok fun _ _ _ hstep => Proc.fresh_iff hstep

/-- A connection, an increase of the epoch and a receive. -/
def EpochEvent.raised : List EpochEvent :=
  (Event.connecting 1 16).map .lib ++ [.raise 1, .lib (.irecv ⟨⟨0, 0⟩, 1, fmiByte, 1, 5, fmiCommWorld, 0, 0⟩)]

/-- The message was sent before the increase. It is paired with the receive, and its byte is delivered. -/
theorem stale_paired : ∃ σ σ',
    Path Proc.epochStep (fun _ _ => True) (Proc.init Boot.zeroed) EpochEvent.raised σ ∧
    σ.epochStep (.lib (.wcRecv 0 (plainWire .commInit))) = some σ' ∧ σ.Stale (plainWire .commInit).ctl ∧
    σ.pq.length = 1 ∧ σ'.pq = [] ∧ σ.mem 0 0 = 0 ∧ σ'.mem 0 0 = 7 ∧
    ¬ σ.Fresh (.lib (.wcRecv 0 (plainWire .commInit))) := by
  obtain ⟨σ, h, hσ⟩ := exists_path_of_runWhile Proc.epochStep (fun _ _ => True) (Proc.init Boot.zeroed)
    EpochEvent.raised (fun σ => decide (σ.Stale (plainWire .commInit).ctl ∧ σ.pq.length = 1 ∧ σ.mem 0 0 = 0 ∧
      (σ.epochStep (.lib (.wcRecv 0 (plainWire .commInit)))).map (fun σ' => (σ'.pq, σ'.mem 0 0)) = some ([], 7)))
    (by decide +kernel)
  obtain ⟨hstale, hlength, hmem, hsome⟩ := of_decide_eq_true hσ
  obtain ⟨σ', hstep, hσ'⟩ := Option.map_eq_some_iff.1 hsome
  obtain ⟨hpq', hmem'⟩ := Prod.mk.inj hσ'
  refine ⟨σ, σ', h, hstep, hstale, hlength, hpq', hmem, hmem', fun hfresh => ?_⟩
  have hpq := (hfresh σ' hstep rfl hstale).1
  rw [hpq', eq_comm] at hpq
  rw [hpq] at hlength
  cases hlength

end Libibtl
