import Libibtl.Ibio.MainLoop

/-! # Who waits for whom

A client that waits either finds its answer on the way, or the server still has a step
to take for it: the main loop has a request to serve or a write to complete, a reader
has a chunk to send, or a writer has one to write.
-/

namespace Libibtl.Ibio

open Foundation

namespace Server

instance (s : Server) : ∀ e, Decidable (s.Calm e)
  | .turn _ => decidable_of_iff
      (s.pc = .probe → ∀ m ∈ s.aq.head?, m.op = opRead → s.unserved m.key < s.queued m.key) (by
        constructor
        · intro h hpc m aq haq
          exact h hpc m (by rw [haq]; rfl)
        · intro h hpc m hm
          obtain ⟨aq, haq⟩ := List.head?_eq_some_iff.1 hm
          exact h hpc m aq haq)
  | .arrive _ | .thread _ => isTrue trivial

instance (s : Server) : ∀ e, Decidable (s.ClosesIdle e)
  | .turn _ => inferInstanceAs (Decidable (s.pc = .probe → ∀ m ∈ s.aq.head?, m.op = opClose →
      (s.entry m.fd).fastmutex = false ∧ (s.entry (m.fd + 1)).fastmutex = false ∧
        (s.entry (m.fd + 1)).currentWriteCount = (s.entry (m.fd + 1)).writeCount))
  | .arrive _ | .thread _ => isTrue trivial

end Server

instance : ∀ x : Call, Decidable x.Fits
  | .ibtlWrite _ _ count => inferInstanceAs (Decidable (0 < count.toNat ∧ count.toNat ≤ bufSize))
  | .ibtlRead _ count => inferInstanceAs (Decidable (count.toNat ≤ bufSize))
  | .ibtlOpen | .ibtlClose _ => isTrue trivial

namespace System

/-- The calls fit, and the main loop comes in time. -/
def Careful (w : System) : SystemEvent → Prop
  | .call _ x => x.Fits
  | .turn env => w.server.Calm (.turn env) ∧ w.server.ClosesIdle (.turn env)
  | _ => True

instance (w : System) : ∀ e, Decidable (w.Careful e)
  | .call _ x => inferInstanceAs (Decidable x.Fits)
  | .turn env => inferInstanceAs (Decidable (w.server.Calm (.turn env) ∧ w.server.ClosesIdle (.turn env)))
  | .send _ | .arrive _ | .receive _ | .thread _ => isTrue trivial

variable {J : Nat → Job} {w w' : System} {c : CInt}

/-! ## Steps -/

theorem coherent_init : init.Coherent fun _ => .free where
  balanced := Server.balanced_init
  served _ _ := Nat.le_refl 0
  sized := ⟨fun _ => nofun, fun _ _ _ => nofun⟩
  fits _ := ⟨rfl, fun _ => rfl, fun _ => nofun⟩
  named _ _ := nofun
  readers _ _ _ := nofun
  main := .inl rfl
  paid _ _ := rfl
  clients _ := ⟨fun _ => nofun, [], [], rfl, fun _ => nofun, .reading nofun (fun _ => nofun) fun _ _ _ => nofun⟩

theorem Coherent.turn {env : Env} {s : Server} (h : w.Coherent J) (hcalm : w.server.Calm (.turn env))
    (hidle : w.server.ClosesIdle (.turn env)) (hstep : w.server.step (.turn env) = some s) :
    ∃ J', (w.serve s).Coherent J' := by
  have hturn := Server.turn_cases hstep
  cases hturn with
  | sopen hpc haq hop hfresh hlt => exact ⟨_, h.sopen hstep hpc haq hop hfresh hlt⟩
  | swriteBegin hpc haq hop => exact h.swriteBegin hstep hpc haq hop
  | swriteChunk hpc haq hop => exact h.swriteChunk hstep hpc haq hop
  | sread hpc haq hop => exact h.sread hstep hcalm hpc haq hop
  | sclose hpc haq hop => exact h.sclose hstep hidle hpc haq hop
  | complete hpc hcount => exact h.complete hstep hpc hcount
  | swriteTurn hpc | swriteEnd hpc => exact absurd hpc (h.not_swrite _ _ _)
  | swrite hpc haq hop =>
    exact absurd hop (h.known haq).1
  | noop hpc haq hop => exact absurd (h.known haq).2 hop

theorem Coherent.step {e : SystemEvent} (h : w.Coherent J) (he : w.Careful e) (hstep : w.step e = some w') :
    ∃ J', w'.Coherent J' := by
  cases e with
  | call c x =>
    obtain ⟨cl, hcall, rfl⟩ := Option.map_eq_some_iff.1 hstep
    exact ⟨J, h.call he hcall⟩
  | send c =>
    obtain ⟨cl, hsend, rfl⟩ := Option.map_eq_some_iff.1 hstep
    exact ⟨J, h.send hsend⟩
  | arrive c =>
    rw [System.step] at hstep
    split at hstep
    · cases hstep
    · rename_i m flight hflight
      obtain rfl := Option.some.inj hstep
      exact ⟨J, h.arrive hflight⟩
  | receive c =>
    obtain ⟨cl, hrecv, rfl⟩ := Option.map_eq_some_iff.1 hstep
    exact ⟨J, h.receive hrecv⟩
  | turn env =>
    obtain ⟨s, hturn, rfl⟩ := Option.map_eq_some_iff.1 hstep
    exact h.turn he.1 he.2 hturn
  | thread i =>
    obtain ⟨s, hmove, rfl⟩ := Option.map_eq_some_iff.1 hstep
    exact ⟨J, h.thread hmove⟩

/-! ## No deadlock -/

/-- A reader that owes a chunk has a step. -/
theorem exists_reader {s : Server} {k : Key} (haq : s.aq = []) (howed : 0 < s.owed k) :
    ∃ i, s.step (.thread i) ≠ none := by
  rw [Server.owed, haq, asked, List.map_nil, List.sum_nil, Nat.add_zero] at howed
  obtain ⟨x, hx, hpos⟩ := List.sum_pos_iff_exists_pos_nat.1 howed
  obtain ⟨t, ht, rfl⟩ := List.mem_map.1 hx
  obtain ⟨i, hi⟩ := List.mem_iff_getElem?.1 ht
  refine ⟨i, ?_⟩
  rw [Server.step, Server.threadStep, hi]
  cases t with
  | writer => exact absurd hpos (Nat.lt_irrefl 0)
  | reader k' g pc =>
    cases pc with
    | sending r =>
      simp only [Server.readerStep]
      split
      · exact Option.some_ne_none _
      · exact Option.some_ne_none _
    | start | locked | ended => exact absurd hpos (Nat.lt_irrefl 0)

/-- While the main loop waits for the writers, one of them has a step, or it goes on. -/
theorem Coherent.not_await (h : w.Coherent J) (hturns : ∀ env, w.server.step (.turn env) = none)
    (hthreads : ∀ i, w.server.step (.thread i) = none) : w.server.pc = .probe := by
  rcases h.main with hpc | ⟨c, fd, n, hpc, hjob⟩
  · exact hpc
  · have hfits := h.fits fd
    rw [hjob] at hfits
    obtain ⟨hn, d, hfilling⟩ := hfits.writers
    rcases Nat.lt_or_ge d (chunkCount n) with hd | hd
    · obtain ⟨i, t, -, -, hstep⟩ := exists_enabled hfilling hd
      exact absurd (hthreads i) hstep
    · have hcount : (w.server.entry fd).currentWriteCount = (w.server.entry fd).writeCount :=
        (hfilling.counts_eq_iff hn).2 hd
      have hturn := hturns .three
      rw [Server.step, Server.turn, hpc] at hturn
      simp only [if_pos hcount] at hturn
      cases hturn

/-- A client that waits for a chunk waits for a reader. -/
theorem Coherent.owes (h : w.Coherent J) {tag : CInt} (hwant : some tag ∈ (w.clients c).want)
    (htodo : (w.clients c).todo = []) (hflight : (w.clients c).flight = []) (hinbox : (w.clients c).inbox = []) :
    0 < w.server.owed (c, tag) := by
  have hpaid := h.paid c tag
  have hpos : 0 < (w.clients c).want.count (some tag) := List.count_pos_iff.2 hwant
  rw [htodo, hflight, hinbox, List.countP_nil] at hpaid
  have hnone : asked (c, tag) ([] ++ []) = 0 := rfl
  omega

theorem Coherent.not_deadlock (h : w.Coherent J) : ¬ w.Deadlock := by
  rintro ⟨⟨c, htodo, hwant⟩, hflight, hinbox, haq, hturns, hthreads⟩
  have hpc := h.not_await hturns hthreads
  obtain ⟨reads, rest, heq, -, hstage⟩ := (h.clients c).stage
  have hout : outstanding w.server c (w.clients c) = [] := by
    rw [outstanding, haq, hflight, htodo]
    rfl
  have hrest : rest = [] := (List.append_eq_nil_iff.1 (heq.symm.trans hout)).2
  generalize hpc' : w.server.pc = pc at hstage
  cases hstage with
  | reading hnone =>
    obtain ⟨x, want, hcons⟩ := List.exists_cons_of_ne_nil hwant
    have hmem : x ∈ (w.clients c).want := hcons ▸ List.mem_cons_self
    obtain ⟨tag, rfl⟩ := Option.ne_none_iff_exists'.1 fun heq : x = none => hnone (heq ▸ hmem)
    obtain ⟨i, hi⟩ := exists_reader haq (h.owes hmem htodo (hflight c) (hinbox c))
    exact hi (hthreads i)
  | opening | closing | beginning => cases hrest
  | @filling fd buf n r _ _ _ _ hr hmain =>
    rcases Nat.lt_or_ge r (chunkCount n) with hlt | hge
    · rw [chunksFrom_of_lt hlt] at hrest
      cases hrest
    · have hawait := hmain (Nat.le_antisymm hr hge)
      rw [← hpc', hpc] at hawait
      cases hawait
  | answered _ hone =>
    rw [hinbox c] at hone
    cases hone

/-! ## Runs -/

/-- No file operation is left waiting in a careful run. -/
theorem no_call_hangs {es : List SystemEvent} (h : Path step Careful init es w) : ¬ w.Deadlock := by
  obtain ⟨J, hJ⟩ := h.invariant (I := fun w => ∃ J, w.Coherent J) (fun _ _ _ ⟨_, hJ⟩ he hstep => hJ.step he hstep)
    ⟨_, coherent_init⟩
  exact hJ.not_deadlock

/-- A client opens a file. -/
def opening : List SystemEvent := [.call 7 .ibtlOpen, .send 7, .arrive 7, .turn .three, .receive 7]

/-- It writes one byte, up to where it waits for the reply and the main loop for the writer. -/
def writing : List SystemEvent := opening ++
  [.call 7 (.ibtlWrite 3 (fun _ => 65) 1), .send 7, .send 7, .arrive 7, .turn .three, .arrive 7, .turn .three]

theorem no_call_hangs_writing : ∃ w, Path step Careful init writing w ∧ (w.clients 7).Blocked ∧ w.server.aq.length = 0 ∧
    ¬ w.Deadlock := by
  obtain ⟨w, h, hw⟩ := exists_path_of_runWhile step Careful init writing
    (fun w => decide ((w.clients 7).todo.length = 0 ∧ (w.clients 7).want = [none] ∧ w.server.aq.length = 0))
    (by decide +kernel)
  obtain ⟨htodo, hwant, haq⟩ := of_decide_eq_true hw
  refine ⟨w, h, ⟨List.length_eq_zero_iff.1 htodo, ?_⟩, haq, no_call_hangs h⟩
  rw [hwant]
  exact List.cons_ne_nil _ _

/-! ## A write of nothing -/

/-- The event is one of this client, or the server sends to this client only. -/
def Only (c : CInt) (w : System) : SystemEvent → Prop
  | .call c' _ | .send c' | .arrive c' | .receive c' => c' = c
  | .turn env => ∀ s ∈ w.server.step (.turn env), ∀ r ∈ w.server.sent s, r.1.1 = c
  | .thread i => ∀ s ∈ w.server.step (.thread i), ∀ r ∈ w.server.sent s, r.1.1 = c

instance (c : CInt) (w : System) : ∀ e, Decidable (w.Only c e)
  | .call c' _ | .send c' | .arrive c' | .receive c' => inferInstanceAs (Decidable (c' = c))
  | .turn env => inferInstanceAs (Decidable (∀ s ∈ w.server.step (.turn env), ∀ r ∈ w.server.sent s, r.1.1 = c))
  | .thread i => inferInstanceAs (Decidable (∀ s ∈ w.server.step (.thread i), ∀ r ∈ w.server.sent s, r.1.1 = c))

theorem clients_of_only {e : SystemEvent} {c' : CInt} (hc : c' ≠ c) (he : w.Only c e) (hstep : w.step e = some w') :
    w'.clients c' = w.clients c' := by
  have hserve : ∀ {s : Server}, (∀ r ∈ w.server.sent s, r.1.1 = c) → (w.serve s).clients c' = w.clients c' := by
    intro s hs
    refine serve_clients_of_nil (List.filter_eq_nil_iff.2 fun r hr => ?_)
    rw [hs r hr]
    simpa using Ne.symm hc
  cases e with
  | call | send | receive =>
    obtain rfl := he
    obtain ⟨cl, -, rfl⟩ := Option.map_eq_some_iff.1 hstep
    exact Function.update_of_ne hc ..
  | arrive =>
    obtain rfl := he
    rw [System.step] at hstep
    split at hstep
    · cases hstep
    · obtain rfl := Option.some.inj hstep
      exact Function.update_of_ne hc ..
  | turn | thread =>
    obtain ⟨s, hs, rfl⟩ := Option.map_eq_some_iff.1 hstep
    exact hserve (he s hs)

/-- A run of one client that ends with all queues empty and no thread, while the client waits. -/
theorem deadlock_of_only {es : List SystemEvent} (h : Path step (Only c) init es w) (hblocked : (w.clients c).Blocked)
    (hflight : (w.clients c).flight = []) (hinbox : (w.clients c).inbox = []) (haq : w.server.aq = [])
    (hpc : w.server.pc = .probe) (hthreads : w.server.threads = []) : w.Deadlock := by
  have hothers : ∀ c' ≠ c, w.clients c' = ⟨[], [], [], [], []⟩ := fun c' hc =>
    h.invariant (I := fun w => w.clients c' = ⟨[], [], [], [], []⟩)
      (fun _ _ _ hw he hstep => (clients_of_only hc he hstep).trans hw) rfl
  refine ⟨⟨c, hblocked⟩, fun c' => ?_, fun c' => ?_, haq, fun env => ?_, fun i => ?_⟩
  · by_cases hc : c' = c
    · rw [hc, hflight]
    · rw [hothers c' hc]
  · by_cases hc : c' = c
    · rw [hc, hinbox]
    · rw [hothers c' hc]
  · simp only [Server.step, Server.turn, hpc, haq]
  · simp only [Server.step, Server.threadStep, hthreads, List.getElem?_nil]

/-- A client writes nothing to its file. -/
def emptyWrite : List SystemEvent := opening ++
  [.call 7 (.ibtlWrite 3 (fun _ => 65) 0), .send 7, .arrive 7, .turn .three]

/-- Only the last chunk is answered, and a write of nothing has no chunk. -/
theorem empty_write_hangs : ∃ w, Path step (fun _ _ => True) init emptyWrite w ∧ w.Deadlock := by
  obtain ⟨w, h, hw⟩ := exists_path_of_runWhile step (Only 7) init emptyWrite
    (fun w => decide ((w.clients 7).todo.length = 0 ∧ (w.clients 7).want = [none] ∧ (w.clients 7).flight.length = 0 ∧
      (w.clients 7).inbox.length = 0 ∧ w.server.aq.length = 0 ∧ w.server.pc = .probe ∧ w.server.threads = []))
    (by decide +kernel)
  obtain ⟨htodo, hwant, hflight, hinbox, haq, hpc, hthreads⟩ := of_decide_eq_true hw
  refine ⟨w, h.mono fun _ _ _ => trivial, deadlock_of_only h ⟨List.length_eq_zero_iff.1 htodo, ?_⟩
    (List.length_eq_zero_iff.1 hflight) (List.length_eq_zero_iff.1 hinbox) (List.length_eq_zero_iff.1 haq) hpc hthreads⟩
  rw [hwant]
  exact List.cons_ne_nil _ _

end System

end Libibtl.Ibio
