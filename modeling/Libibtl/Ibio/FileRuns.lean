import Libibtl.Ibio.ClientWrite

/-! # Runs as one file sees them

A step of a run works on the file or leaves it alone. What every step on the file
keeps, and every step that leaves it alone, holds in the whole run.
-/

namespace Libibtl.Ibio

open Foundation

theorem FileView.Resting.move {fd : Nat} {v v' : FileView} (h : v.Resting) (hm : FileMove fd v v') : v'.Resting := by
  have hspent : ∀ {j : Nat} {t u : Thread}, v.threads[j]? = some t → u.spent = true →
      ∀ w ∈ v.threads.set j u, w.spent = true := by
    intro j t u hj hu w hw
    rcases mem_set_cases hw with rfl | hw
    · exact hu
    · exact h.spent w hw
  cases hm with
  | writerLock hj _ | writerWrite hj | writerAdvance hj _ | readerLock hj _ | readerReceive _ _ _ hj =>
    exact absurd (h.spent _ (List.mem_of_getElem? hj)) Bool.false_ne_true
  | readerSend _ _ hj hlt => exact absurd (h.spent _ (List.mem_of_getElem? hj)) (by simp [Thread.spent, hlt])
  | writerUnlock hj => exact ⟨h.guarded.release hj rfl rfl, hspent hj rfl⟩
  | readerUnlock hj _ => exact ⟨h.guarded.release hj rfl rfl, hspent hj rfl⟩

theorem Server.setMutex_cache (s : Server) (fd i : Nat) (b : Bool) (u : Thread) :
    (((s.setMutex fd b).setThread i u).entry fd).cache = (s.entry fd).cache := by
  rw [setThread_entry, setMutex_entry_self]

/-! ## A file at rest -/

/-- Nothing works on the file, and the requests in `pending` are not served yet. -/
structure Waiting (fd : Nat) (base : List Output) (pending : List Message) (s : Server) (todo : List Message) : Prop where
  opened : s.Opened fd
  resting : (s.view fd).Resting
  queue : s.requests fd ++ todo = pending
  history : s.history fd = base
  main : ¬ s.pc.on fd

section Rest

variable {fd : Nat} {base : List Output} {pending todo : List Message} {s s' : Server}

/-- In a resting file a thread can only unlock. -/
theorem Server.Move.of_resting {i : Nat} {t : Thread} (hm : Server.Move s i s') (hi : s.threads[i]? = some t)
    (hrest : (s.view t.fd).Resting) : (s'.view t.fd).Resting ∧ s'.requests t.fd = s.requests t.fd ∧
      s'.history t.fd = s.history t.fd ∧ (s'.entry t.fd).cache = (s.entry t.fd).cache := by
  have hspent := hrest.spent t (List.mem_filter.2 ⟨List.mem_of_getElem? hi, decide_eq_true rfl⟩)
  constructor
  · obtain ⟨t', hi', hmove, -⟩ := hm.view
    obtain rfl : t = t' := Option.some.inj (hi.symm.trans hi')
    exact hrest.move hmove
  · cases hm with
    | @writerUnlock fd hi' =>
      obtain rfl : t = .writer fd .advanced := Option.some.inj (hi.symm.trans hi')
      exact ⟨rfl, rfl, Server.setMutex_cache s fd i _ _⟩
    | @readerUnlock k fd r hi' =>
      obtain rfl : t = .reader k fd (.sending r) := Option.some.inj (hi.symm.trans hi')
      exact ⟨rfl, rfl, Server.setMutex_cache s fd i _ _⟩
    | writerLock hi' _ | writerWrite hi' | writerAdvance hi' | readerLock hi' _ | readerReceive hi' _ =>
      rw [hi] at hi'
      cases hi'
      cases hspent
    | readerSend hi' hlt =>
      rw [hi] at hi'
      cases hi'
      simp [Thread.spent, hlt] at hspent

theorem Waiting.spares (h : Waiting fd base pending s todo) (hs : Server.Spares fd s s') (ho : s'.Opened fd) :
    Waiting fd base pending s' todo where
  opened := ho
  resting := hs.view ▸ h.resting
  queue := by rw [hs.requests, h.queue]
  history := hs.history.trans h.history
  main hon := h.main (hs.main hon)

theorem Waiting.move {i : Nat} {t : Thread} (h : Waiting fd base pending s todo) (hm : Server.Move s i s')
    (hi : s.threads[i]? = some t) (ht : t.fd = fd) (ho : s'.Opened fd) : Waiting fd base pending s' todo := by
  subst ht
  obtain ⟨hrest, hrequests, hhistory, -⟩ := hm.of_resting hi h.resting
  refine ⟨ho, hrest, ?_, hhistory.trans h.history, ?_⟩
  · rw [hrequests, h.queue]
  · rw [hm.pc_eq]
    exact h.main

theorem requests_receive (s : Server) {m : Message} (hm : m.requests fd = true) :
    (s.receive m).requests fd = s.requests fd ++ [m] := by
  rw [Server.requests, Server.receive, List.filter_append, List.filter_cons_of_pos (by simpa using hm), List.filter_nil,
    Server.requests]

theorem queue_receive {m : Message} (hm : m.requests fd = true) (h : s.requests fd ++ m :: todo = pending) :
    (s.receive m).requests fd ++ todo = pending := by
  rw [requests_receive s hm, List.append_assoc]
  exact h

theorem Waiting.receive {m : Message} (h : Waiting fd base pending s (m :: todo)) (hm : m.requests fd = true)
    (ho : (s.receive m).Opened fd) : Waiting fd base pending (s.receive m) todo :=
  ⟨ho, h.resting, queue_receive hm h.queue, h.history, h.main⟩

theorem spares_receive (s : Server) {m : Message} (hm : m.requests fd = false) : Server.Spares fd s (s.receive m) where
  view := rfl
  requests := by
    rw [Server.requests, Server.receive, List.filter_append, List.filter_cons_of_neg (by simp [hm]), List.filter_nil,
      List.append_nil, Server.requests]
  history := rfl
  main := id

/-- The main loop, when it is not on the file, serves a request on the file or leaves the file alone. -/
theorem Server.Opened.turn_cases {env : Env} (h : s.Opened fd) (hon : ¬ s.pc.on fd)
    (hclose : s.pc = .probe → ∀ m ∈ s.aq.head?, m.op ≠ opClose) (hstep : s.step (.turn env) = some s') :
    (s.pc = .probe ∧ ∃ m aq, s.aq = m :: aq ∧ m.requests fd = true) ∨ Server.Spares fd s s' := by
  by_cases hhead : s.pc = .probe ∧ ∃ m aq, s.aq = m :: aq ∧ m.requests fd = true
  · exact .inl hhead
  · have hspares : s.HeadSpares fd := by
      intro hpc m hm
      refine ⟨Bool.eq_false_iff.2 fun hreq => hhead ⟨hpc, m, s.aq.tail, ?_, hreq⟩, hclose hpc m hm⟩
      exact (List.cons_head?_tail hm).symm
    exact .inr (h.orderly.turn_spares (Server.turn_cases hstep) hspares hon h.mem)

end Rest

/-! ## The rule for runs -/

/-- The request on the file is served with an environment in `P`. -/
def WriteRun.Serves (fd : Nat) (P : Env → Prop) (w : WriteRun) : WriteEvent → Prop
  | .server (.turn env) => w.server.pc = .probe → ∀ m ∈ w.server.aq.head?, m.requests fd = true → P env
  | _ => True

/-- `I` speaks about one file, and the steps on the file keep it. -/
structure FileInvariant (fd : Nat) (P : Env → Prop) (I : Server → List Message → Prop) : Prop where
  opened {s : Server} {todo : List Message} (h : I s todo) : s.Opened fd
  send {s : Server} {m : Message} {todo : List Message} (h : I s (m :: todo)) (ho : (s.receive m).Opened fd) :
    I (s.receive m) todo
  spares {s s' : Server} {todo : List Message} (h : I s todo) (hs : Server.Spares fd s s') (ho : s'.Opened fd)
    (hpc : s.pc.on fd → s'.pc = s.pc) : I s' todo
  serve {s s' : Server} {todo : List Message} {m : Message} {aq : List Message} {env : Env} (h : I s todo)
    (hpc : s.pc = .probe) (haq : s.aq = m :: aq) (hm : m.requests fd = true) (henv : P env)
    (hstep : s.step (.turn env) = some s') (ho : s'.Opened fd) : I s' todo
  main {s s' : Server} {todo : List Message} {env : Env} (h : I s todo) (hon : s.pc.on fd)
    (hstep : s.step (.turn env) = some s') (ho : s'.Opened fd) : I s' todo
  move {s s' : Server} {todo : List Message} {i : Nat} {t : Thread} (h : I s todo) (hm : Server.Move s i s')
    (hi : s.threads[i]? = some t) (ht : t.fd = fd) (ho : s'.Opened fd) : I s' todo

namespace FileInvariant

variable {fd : Nat} {P : Env → Prop} {I : Server → List Message → Prop} {w w' : WriteRun} {e : WriteEvent}

theorem step (h : FileInvariant fd P I) (hfd : 0 < fd) (hw : I w.server w.todo) (halone : w.Alone fd e)
    (hserves : w.Serves fd P e) (hstep : w.step e = some w') : I w'.server w'.todo := by
  have hopened := h.opened hw
  cases e with
  | send =>
    cases htodo : w.todo with
    | nil =>
      rw [WriteRun.step, htodo] at hstep
      cases hstep
    | cons m todo =>
      rw [WriteRun.step, htodo] at hstep
      obtain rfl := Option.some.inj hstep
      exact h.send (htodo ▸ hw) (hopened.step (e := .arrive m) trivial rfl)
  | server e =>
    obtain ⟨s', hs', rfl⟩ := Option.map_eq_some_iff.1 hstep
    cases e with
    | arrive m =>
      obtain rfl := Option.some.inj hs'
      exact h.spares hw (spares_receive w.server halone) (hopened.step (e := .arrive m) trivial rfl) fun _ => rfl
    | turn env =>
      have ho := hopened.step (e := .turn env) halone hs'
      by_cases hon : w.server.pc.on fd
      · exact h.main hw hon hs' ho
      · rcases hopened.turn_cases hon halone hs' with ⟨hpc, m, aq, haq, hm⟩ | hspares
        · exact h.serve hw hpc haq hm (hserves hpc m (by rw [haq]; rfl) hm) hs' ho
        · exact h.spares hw hspares ho fun heq => absurd heq hon
    | thread i =>
      have ho := hopened.step (e := .thread i) trivial hs'
      have hm : Server.Move w.server i s' := Server.threadStep_cases hs'
      obtain ⟨t, hi, -, -⟩ := hm.view
      by_cases ht : t.fd = fd
      · exact h.move hw hm hi ht ho
      · exact h.spares hw (hopened.orderly.move_spares hm hi ht hfd) ho fun _ => hm.pc_eq

/-- What holds when the client starts holds in every state of the run. -/
theorem run {ok : WriteRun → WriteEvent → Prop} (h : FileInvariant fd P I) (hfd : 0 < fd)
    (hok : ∀ w e, ok w e → w.Alone fd e ∧ w.Serves fd P e) {es : List WriteEvent} (hpath : Path WriteRun.step ok w es w')
    (hw : I w.server w.todo) : I w'.server w'.todo :=
  hpath.invariant (I := fun w => I w.server w.todo)
    (fun w e _ hw he hstep => h.step hfd hw (hok w e he).1 (hok w e he).2 hstep) hw

end FileInvariant

end Libibtl.Ibio
