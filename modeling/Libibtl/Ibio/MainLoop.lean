import Libibtl.Ibio.Serving

/-! # The main loop serves the clients

Every request that the main loop serves moves one client on, and at most the job of one
file changes.
-/

namespace Libibtl.Ibio

open Foundation

/-- A close finds the mutexes free that it clears, and no write in progress on the file above. -/
def Server.ClosesIdle (s : Server) : ServerEvent → Prop
  | .turn _ => s.pc = .probe → ∀ m ∈ s.aq.head?, m.op = opClose →
      (s.entry m.fd).fastmutex = false ∧ (s.entry (m.fd + 1)).fastmutex = false ∧
        (s.entry (m.fd + 1)).currentWriteCount = (s.entry (m.fd + 1)).writeCount
  | _ => True

section MainLoop

variable {J : Nat → Job} {w : System} {s : Server} {c : CInt} {cl : Client} {env : Env}

/-! ## The head of the queue -/

theorem System.Coherent.lt (h : w.Coherent J) (c : CInt) (fd : Nat) (hfd : (J fd).owner = some c) : fd < maxHostIds :=
  (h.named fd c hfd).2

theorem System.Coherent.not_swrite (h : w.Coherent J) : ∀ k fd l, w.server.pc ≠ .swrite k fd l := by
  intro k fd l hpc
  rcases h.main with hmain | ⟨c, g, n, hmain, -⟩
  · rw [hmain] at hpc
    cases hpc
  · rw [hmain] at hpc
    cases hpc

theorem outstanding_head {s : Server} {m : Message} {aq : List Message} (haq : s.aq = m :: aq) (hc : m.source = c) :
    outstanding s c cl = m :: (aq.filter (·.source = c) ++ cl.flight ++ cl.todo) := by
  rw [outstanding, haq, List.filter_cons_of_pos (by simpa using hc), List.cons_append, List.cons_append]

/-- A request that is no read is the first one of its client. -/
theorem ClientOk.head {s : Server} {m : Message} {aq : List Message} (h : ClientOk J s c cl) (haq : s.aq = m :: aq)
    (hc : m.source = c) (hop : m.op ≠ opRead) (hlt : ∀ fd, (J fd).owner = some c → fd < maxHostIds) :
    Stage J s.pc c cl [] (m :: (aq.filter (·.source = c) ++ cl.flight ++ cl.todo)) := by
  obtain ⟨reads, rest, heq, hreads, hstage⟩ := h.stage
  rw [outstanding_head haq hc] at heq
  cases reads with
  | nil =>
    rw [List.nil_append] at heq
    exact heq ▸ hstage
  | cons m' reads =>
    obtain ⟨rfl, -⟩ := List.cons.inj heq
    obtain ⟨fd, n, howner, -, rfl⟩ := hreads _ List.mem_cons_self
    exact absurd (readMessage_op c _ (hlt fd howner)) hop

/-- The requests that can be the first one. -/
theorem Stage.head {pc : MainPc} {m : Message} {tail : List Message} (h : Stage J pc c cl [] (m :: tail))
    (hlt : ∀ fd, (J fd).owner = some c → fd < maxHostIds) : cl.want = [none] ∧ cl.inbox = [] ∧
      ((m.op = opOpen ∧ tail = [] ∧ Rests J c) ∨
      (m.op = opClose ∧ tail = [] ∧ Rests J c ∧ (J m.fd).owner = some c ∧ m.fd ∉ cl.files) ∨
      (m.op = opWriteBegin ∧ ∃ buf n, m = beginMessage c m.fd (BitVec.ofNat 64 n) ∧ tail = chunksFrom c m.fd buf n 0 ∧
        Rests J c ∧ (J m.fd).owner = some c ∧ 0 < n ∧ n ≤ bufSize) ∨
      (m.op = opWriteChunk ∧ ∃ buf n r, m = chunkOf c m.fd buf n r ∧ tail = chunksFrom c m.fd buf n (r + 1) ∧
        r < chunkCount n ∧ J m.fd = .filling c n r ∧ ∀ fd n' r', J fd = .filling c n' r' → fd = m.fd)) := by
  generalize hrest : m :: tail = rest at h
  cases h with
  | reading | answered => cases hrest
  | opening hwant hinbox hrests =>
    obtain ⟨rfl, rfl⟩ := List.cons.inj hrest
    exact ⟨hwant, hinbox, .inl ⟨openMessage_op c, rfl, hrests⟩⟩
  | @closing _ fd hwant hinbox hrests howner hfile =>
    obtain ⟨rfl, rfl⟩ := List.cons.inj hrest
    have hfd := closeMessage_fd c (hlt fd howner)
    refine ⟨hwant, hinbox, .inr (.inl ⟨closeMessage_op c (hlt fd howner), rfl, hrests, ?_⟩)⟩
    rw [hfd]
    exact ⟨howner, hfile⟩
  | @beginning _ fd buf n hwant hinbox hrests howner hpos hn =>
    obtain ⟨rfl, rfl⟩ := List.cons.inj hrest
    refine ⟨hwant, hinbox, .inr (.inr (.inl ⟨beginMessage_op c _ (hlt fd howner), buf, n, ?_⟩))⟩
    rw [beginMessage_fd c _ (hlt fd howner)]
    exact ⟨rfl, rfl, hrests, howner, hpos, hn⟩
  | @filling fd buf n r hwant hinbox hjob honly hr hmain =>
    have hfd : fd < maxHostIds := hlt fd (by rw [hjob]; rfl)
    rcases Nat.lt_or_ge r (chunkCount n) with hlast | hlast
    · rw [chunksFrom_of_lt hlast] at hrest
      obtain ⟨rfl, rfl⟩ := List.cons.inj hrest
      refine ⟨hwant, hinbox, .inr (.inr (.inr ⟨chunkMessage_op c buf _ _ hfd, buf, n, r, ?_⟩))⟩
      rw [chunkOf, chunkMessage_fd c buf _ _ hfd]
      exact ⟨rfl, rfl, hlast, hjob, honly⟩
    · rw [chunksFrom_of_le hlast] at hrest
      cases hrest

theorem Rests.held (h : Rests J c) {fd : Nat} (howner : (J fd).owner = some c) : J fd = .held c := by
  cases hj : J fd with
  | free =>
    rw [hj] at howner
    cases howner
  | held c' =>
    rw [hj] at howner
    obtain rfl := Option.some.inj howner
    rfl
  | filling c' n r =>
    rw [hj] at howner
    obtain rfl := Option.some.inj howner
    exact absurd hj (h fd n r)

/-! ## Readers of a client that waits for a reply -/

/-- When a client waits for a reply and has no read in the queue, its readers have nothing left to do but to unlock. -/
theorem System.Coherent.readers_spent (h : w.Coherent J) (hwant : (w.clients c).want = [none])
    (hnone : ∀ m ∈ w.server.aq, m.source = c → m.op ≠ opRead) {k : Key} {g : Nat} {pc : ReaderPc}
    (ht : Thread.reader k g pc ∈ w.server.threads) (hk : k.1 = c) : (Thread.reader k g pc).spent = true := by
  have hreads := h.balanced.reads ht
  have hwaits : ∀ {pc}, Thread.reader k g pc ∈ w.server.threads → ¬ (Thread.reader k g pc).awaits k = true := by
    intro pc ht hawait
    have hpos : 0 < w.server.unserved k := List.countP_pos_iff.2 ⟨_, ht, hawait⟩
    obtain ⟨m, hm, hkey⟩ := List.countP_pos_iff.1 (hpos.trans_le (h.served k hreads))
    have hkey' : m.key = k := of_decide_eq_true hkey
    refine hnone m hm ?_ ?_
    · rw [← hk, ← hkey']
      rfl
    · rw [← hreads, ← hkey']
      rfl
  cases pc with
  | start => exact absurd (by simp [Thread.awaits]) (hwaits ht)
  | locked => exact absurd (by simp [Thread.awaits]) (hwaits ht)
  | ended => rfl
  | sending r =>
    obtain ⟨n, j, hr⟩ := h.sized.readers k g r ht
    have hpaid := h.paid c k.2
    have hkey : (c, k.2) = k := by rw [← hk]
    have hzero : [(none : Option CInt)].count (some k.2) = 0 := rfl
    rw [hwant, hzero, hkey] at hpaid
    have hnothing := Server.unsent_of_owed (by omega : w.server.owed k = 0) ht
    have hunsent : Thread.unsent k (.reader k g (.sending r)) = chunkCount n - j := by
      simp only [Thread.unsent, if_true, hr.unsent]
    have hdone : ¬ j < chunkCount n := by omega
    simp only [Thread.spent, hr.slt, decide_eq_false hdone, Bool.not_false]

/-! ## One served request -/

/-- The main loop moves on for the client `c`, and the file `fd` gets the job `j`. -/
theorem System.Coherent.serve_client {fd : Nat} {j : Job} {l : List Reply} (h : w.Coherent J)
    (hstep : w.server.step (.turn env) = some s) (hcalm : w.server.Calm (.turn env))
    (hJ : (J fd).owner = none ∨ (J fd).owner = some c) (hj : j.owner = none ∨ j.owner = some c)
    (haq : ∀ c' ≠ c, s.aq.filter (·.source = c') = w.server.aq.filter (·.source = c'))
    (hpc : ∀ c' ≠ c, ∀ g, w.server.pc = .await (chunkKey c' g) g → s.pc = w.server.pc)
    (hsent : w.server.sent s = l) (hl : ∀ r ∈ l, r.1.1 = c ∧ r.isChunk r.1 = false)
    (hfits : ∀ g, (Function.update J fd j g).Fits (s.view g))
    (hnamed : ∀ g c', (Function.update J fd j g).owner = some c' → g ∈ s.opened ∧ g < maxHostIds)
    (hreaders : ∀ k g pc, Thread.reader k g pc ∈ s.threads → pc ≠ .ended →
      (Function.update J fd j g).owner = some k.1 ∧ k.2 = readTag g)
    (hmain : s.pc = .probe ∨ ∃ c' g n, s.pc = .await (chunkKey c' g) g ∧
      Function.update J fd j g = .filling c' n (chunkCount n))
    (hclient : ClientOk (Function.update J fd j) s c { w.clients c with inbox := (w.clients c).inbox ++ l }) :
    (w.serve s).Coherent (Function.update J fd j) := by
  have hturn : Server.Turn w.server env s := Server.turn_cases hstep
  constructor
  · exact h.balanced.turn hturn
  · exact (h.balanced.served_step h.served hstep).2 hcalm
  · exact h.sized.turn hturn
  · exact hfits
  · exact hnamed
  · exact hreaders
  · exact hmain
  · refine h.paid_serve fun k => ?_
    have hnone : l.countP (Reply.isChunk k) = 0 := by
      rw [List.countP_eq_zero]
      intro r hr hchunk
      have hself := (Reply.isChunk_iff.1 hchunk).1
      rw [(hl r hr).2] at hself
      cases hself
    rw [hsent, hnone, hturn.owed h.not_swrite, Nat.add_zero]
  · intro c'
    by_cases hc : c' = c
    · subst hc
      have hall : l.filter (·.1.1 = c') = l := List.filter_eq_self.2 fun r hr => by simpa using (hl r hr).1
      rw [System.serve_clients, hsent, hall]
      exact hclient
    · have hnil : l.filter (·.1.1 = c') = [] := List.filter_eq_nil_iff.2 fun r hr => by
        rw [(hl r hr).1]
        simpa using Ne.symm hc
      rw [System.serve_clients_of_nil (by rw [hsent, hnil])]
      have hne : ∀ {o : Option CInt}, o = none ∨ o = some c → o ≠ some c' := by
        rintro _ (rfl | rfl)
        · exact nofun
        · exact fun heq => hc (Option.some.inj heq).symm
      exact (h.clients c').frame (.update (hne hJ) (hne hj)) (haq c' hc) (hpc c' hc)

theorem filter_tail {m : Message} {aq : List Message} {s : Server} (haq : s.aq = m :: aq) {c' : CInt}
    (hc : c' ≠ m.source) : aq.filter (·.source = c') = s.aq.filter (·.source = c') := by
  rw [haq, List.filter_cons_of_neg (by simpa using Ne.symm hc)]

theorem not_await (hpc : w.server.pc = .probe) (c' : CInt) (g : Nat) (pc : MainPc) :
    w.server.pc = .await (chunkKey c' g) g → pc = w.server.pc := by
  intro hawait
  rw [hpc] at hawait
  cases hawait

/-- What holds of all files holds when the job of one changes, if it holds of this one. -/
theorem forall_update {P : Nat → Job → Prop} {fd : Nat} {j : Job} (hself : P fd j) (hothers : ∀ g ≠ fd, P g (J g)) :
    ∀ g, P g (Function.update J fd j g) := by
  intro g
  by_cases hg : g = fd
  · subst hg
    rw [Function.update_self]
    exact hself
  · rw [Function.update_of_ne hg]
    exact hothers g hg

theorem held_ne_filling (c c' : CInt) (n r : Nat) : Job.held c ≠ .filling c' n r := nofun

theorem free_ne_filling (c : CInt) (n r : Nat) : Job.free ≠ .filling c n r := nofun

/-- The client fills no file, when it fills none of the others and this one gets another job. -/
theorem Rests.update {fd : Nat} {j : Job} (hj : ∀ n r, j ≠ .filling c n r)
    (hothers : ∀ g ≠ fd, ∀ n r, J g ≠ .filling c n r) : Rests (Function.update J fd j) c :=
  forall_update (P := fun _ j => ∀ n r, j ≠ .filling c n r) hj hothers

/-- A request is served, and the client has its answer. -/
theorem answered_of_head {J' : Nat → Job} {r : Reply} (hwant : cl.want = [none]) (hinbox : cl.inbox = [])
    (hout : outstanding s c cl = []) (hfiles : ∀ fd ∈ cl.files, (J' fd).owner = some c) (hchunk : r.isChunk r.1 = false)
    (hopened : ∀ fd, r.2 = .opened fd → (J' fd).owner = some c) (hrests : Rests J' c) :
    ClientOk J' s c { cl with inbox := cl.inbox ++ [r] } := by
  refine ⟨hfiles, [], [], hout, fun _ => nofun, .answered hwant ?_ hchunk hopened hrests⟩
  rw [hinbox, List.nil_append]

/-! ## The requests -/

variable {m : Message} {aq : List Message}

theorem System.Coherent.head (h : w.Coherent J) (haq : w.server.aq = m :: aq) (hop : m.op ≠ opRead) :
    Stage J w.server.pc m.source (w.clients m.source) []
      (m :: (aq.filter (·.source = m.source) ++ (w.clients m.source).flight ++ (w.clients m.source).todo)) :=
  (h.clients m.source).head haq rfl hop (h.lt _)

theorem System.Coherent.known (h : w.Coherent J) (haq : w.server.aq = m :: aq) :
    m.op ≠ opWrite ∧ m.op ∈ [opOpen, opWrite, opWriteBegin, opWriteChunk, opRead, opClose] := by
  by_cases hread : m.op = opRead
  · rw [hread]
    decide
  · obtain ⟨-, -, ⟨hop, -⟩ | ⟨hop, -⟩ | ⟨hop, -⟩ | ⟨hop, -⟩⟩ := (h.head haq hread).head (h.lt _)
    all_goals
      rw [hop]
      decide

theorem System.Coherent.opens (h : w.Coherent J) (haq : w.server.aq = m :: aq) (hop : m.op = opOpen) :
    (w.clients m.source).want = [none] ∧ (w.clients m.source).inbox = [] ∧
      aq.filter (·.source = m.source) ++ (w.clients m.source).flight ++ (w.clients m.source).todo = [] ∧
      Rests J m.source := by
  have hne : m.op ≠ opRead := hop.trans_ne (by decide)
  obtain ⟨hwant, hinbox, ⟨-, htail, hrests⟩ | ⟨hop', -⟩ | ⟨hop', -⟩ | ⟨hop', -⟩⟩ := (h.head haq hne).head (h.lt _)
  · exact ⟨hwant, hinbox, htail, hrests⟩
  all_goals exact absurd (hop.symm.trans hop') (by decide)

theorem System.Coherent.free (h : w.Coherent J) {fd : Nat} (hfd : fd ∉ w.server.opened) : J fd = .free := by
  cases hj : J fd with
  | free => rfl
  | held c => exact absurd (h.named fd c (by rw [hj]; rfl)).1 hfd
  | filling c n r => exact absurd (h.named fd c (by rw [hj]; rfl)).1 hfd

theorem sopen_view (s : Server) (m : Message) (env : Env) : (s.sopen m env).view env.fd =
    ⟨⟨env.fd, 0, 0, 0, false, env.memory⟩, (s.view env.fd).threads⟩ := by
  simp only [Server.view, Server.entry, Server.sopen, Function.update_self]

theorem owner_update_of_ne {fd g : Nat} {j : Job} (hg : g ≠ fd) :
    (Function.update J fd j g).owner = (J g).owner := by
  rw [Function.update_of_ne hg]

/-- An open gives a free descriptor to the client. -/
theorem System.Coherent.sopen (h : w.Coherent J)
    (hstep : w.server.step (.turn env) = some (({ w.server with aq := aq } : Server).sopen m env))
    (hpc : w.server.pc = .probe) (haq : w.server.aq = m :: aq) (hop : m.op = opOpen) (hfresh : env.fd ∉ w.server.opened)
    (hlt : env.fd < maxHostIds) :
    (w.serve (({ w.server with aq := aq } : Server).sopen m env)).Coherent
      (Function.update J env.fd (.held m.source)) := by
  obtain ⟨hwant, hinbox, htail, hrests⟩ := h.opens haq hop
  have hfree : J env.fd = .free := h.free hfresh
  have hne : m.op ≠ opRead := hop.trans_ne (by decide)
  have hkeep : ∀ fd c, (J fd).owner = some c → (Function.update J env.fd (.held m.source) fd).owner = some c := by
    intro fd c howner
    have hfd : fd ≠ env.fd := by
      rintro rfl
      rw [hfree] at howner
      cases howner
    rw [owner_update_of_ne hfd, howner]
  refine h.serve_client (c := m.source) (l := [(m.key, .opened env.fd)]) hstep (Server.calm_of_not_read haq hne)
    (.inl (by rw [hfree]; rfl)) (.inr rfl) (fun c' hc => filter_tail haq hc) (fun c' _ g => not_await hpc c' g _)
    ((Server.sent_of_trace (l := [.reply m.key (.opened env.fd)]) rfl).trans rfl) ?_ ?_ ?_ ?_ (.inl hpc) ?_
  · intro r hr
    obtain rfl := List.mem_singleton.1 hr
    exact ⟨rfl, rfl⟩
  · refine forall_update (P := fun g j => j.Fits ((({ w.server with aq := aq } : Server).sopen m env).view g)) ?_
      fun g hg => ?_
    · rw [sopen_view]
      exact (hfree ▸ h.fits env.fd).opened m.source env.memory env.fd
    · have hturn := Server.turn_cases hstep
      rw [hturn.view_eq]
      · exact h.fits g
      · rw [Server.touches_probe hpc haq, hop]
        rintro (⟨-, heq⟩ | ⟨hmem, -⟩ | ⟨heq, -⟩)
        · exact hg heq.symm
        · exact absurd hmem (by decide)
        · exact absurd heq (by decide)
  · refine forall_update (P := fun g j => ∀ c', j.owner = some c' → g ∈ env.fd :: w.server.opened ∧ g < maxHostIds) ?_
      fun g _ c' howner => ?_
    · exact fun _ _ => ⟨List.mem_cons_self, hlt⟩
    · exact ⟨List.mem_cons_of_mem _ (h.named g c' howner).1, (h.named g c' howner).2⟩
  · intro k g pc ht hended
    obtain ⟨howner, htag⟩ := h.readers k g pc ht hended
    exact ⟨hkeep g _ howner, htag⟩
  · refine answered_of_head hwant hinbox htail (fun fd hfd => hkeep fd _ ((h.clients m.source).files fd hfd)) rfl ?_ ?_
    · rintro fd ⟨⟩
      rw [Function.update_self]
      rfl
    · exact .update (held_ne_filling m.source m.source) fun g _ => hrests g

/-! ## Writes -/

theorem System.Coherent.fits_update (h : w.Coherent J) {fd : Nat} {j : Job}
    (hstep : w.server.step (.turn env) = some s) (htouch : ∀ g ≠ fd, ¬ w.server.Touches env g)
    (hself : j.Fits (s.view fd)) : ∀ g, (Function.update J fd j g).Fits (s.view g) :=
  forall_update (P := fun g j => j.Fits (s.view g)) hself fun g hg => by
    rw [(Server.turn_cases hstep).view_eq (htouch g hg)]
    exact h.fits g

theorem ClientOk.of_stage {rest : List Message} (hfiles : ∀ fd ∈ cl.files, (J fd).owner = some c)
    (hout : outstanding s c cl = rest) (hstage : Stage J s.pc c cl [] rest) : ClientOk J s c cl := by
  refine ⟨hfiles, [], rest, ?_, fun _ => nofun, hstage⟩
  rw [hout, List.nil_append]

/-- A write of the client goes on: the file keeps its owner. -/
theorem System.Coherent.serve_write {fd : Nat} {j : Job} {l : List Reply} {rest : List Message} (h : w.Coherent J)
    (hstep : w.server.step (.turn env) = some s) (hcalm : w.server.Calm (.turn env))
    (hJ : (J fd).owner = some c) (hj : j.owner = some c) (htouch : ∀ g ≠ fd, ¬ w.server.Touches env g)
    (haq : ∀ c' ≠ c, s.aq.filter (·.source = c') = w.server.aq.filter (·.source = c'))
    (hpc : ∀ c' ≠ c, ∀ g, w.server.pc = .await (chunkKey c' g) g → s.pc = w.server.pc)
    (hsent : w.server.sent s = l) (hl : ∀ r ∈ l, r.1.1 = c ∧ r.isChunk r.1 = false) (hself : j.Fits (s.view fd))
    (hopened : s.opened = w.server.opened)
    (hreaders : ∀ k g pc, Thread.reader k g pc ∈ s.threads → Thread.reader k g pc ∈ w.server.threads)
    (hmain : s.pc = .probe ∨ ∃ n, s.pc = .await (chunkKey c fd) fd ∧ j = .filling c n (chunkCount n))
    (hout : outstanding s c (w.clients c) = rest)
    (hstage : Stage (Function.update J fd j) s.pc c { w.clients c with inbox := (w.clients c).inbox ++ l } [] rest) :
    (w.serve s).Coherent (Function.update J fd j) := by
  have howner : ∀ g, (Function.update J fd j g).owner = (J g).owner :=
    forall_update (P := fun g j => j.owner = (J g).owner) (hj.trans hJ.symm) fun _ _ => rfl
  refine h.serve_client hstep hcalm (.inr hJ) (.inr hj) haq hpc hsent hl (h.fits_update hstep htouch hself) ?_ ?_ ?_
    (.of_stage (fun g hg => ?_) hout hstage)
  · intro g c' hg
    rw [howner] at hg
    rw [hopened]
    exact h.named g c' hg
  · intro k g pc ht hended
    rw [howner]
    exact h.readers k g pc (hreaders k g pc ht) hended
  · rcases hmain with hmain | ⟨n, hmain, rfl⟩
    · exact .inl hmain
    · exact .inr ⟨c, fd, n, hmain, Function.update_self ..⟩
  · rw [howner]
    exact (h.clients c).files g hg

theorem not_touches_of_ne (hpc : w.server.pc = .probe) (haq : w.server.aq = m :: aq)
    (hop : m.op ∈ [opWriteBegin, opWriteChunk, opRead]) (g : Nat) (hg : g ≠ m.fd) : ¬ w.server.Touches env g := by
  rw [Server.touches_probe hpc haq]
  simp only [List.mem_cons, List.not_mem_nil, or_false] at hop
  rintro (⟨heq, -⟩ | ⟨-, heq⟩ | ⟨heq, -⟩)
  · rw [heq] at hop
    exact absurd hop (by decide)
  · exact hg heq.symm
  · rw [heq] at hop
    exact absurd hop (by decide)

/-- No reader of the file is at work, when the client that has it waits for a reply and has no read in the queue. -/
theorem System.Coherent.file_spent (h : w.Coherent J) (hwant : (w.clients c).want = [none]) {fd : Nat}
    (hnone : ∀ m ∈ w.server.aq, m.source = c → m.op ≠ opRead) (howner : (J fd).owner = some c) :
    ∀ k g pc, .reader k g pc ∈ (w.server.view fd).threads → (Thread.reader k g pc).spent = true := by
  intro k g pc ht
  obtain ⟨⟨i, hi⟩, hg⟩ := Server.mem_view_threads ht
  by_cases hended : pc = .ended
  · rw [hended]
    rfl
  · have hmem := List.mem_of_getElem? hi
    obtain ⟨hreader, -⟩ := h.readers k g pc hmem hended
    rw [show g = fd from hg, howner] at hreader
    exact h.readers_spent hwant hnone hmem (Option.some.inj hreader).symm

theorem System.Coherent.head_only (h : w.Coherent J) (haq : w.server.aq = m :: aq) (hop : m.op ≠ opRead) :
    ∀ m' ∈ w.server.aq, m'.source = m.source → m'.op ≠ opRead := by
  intro m' hm' hsource
  refine ((h.head haq hop).sound (h.lt _) m' ?_).2
  rw [haq] at hm'
  rcases List.mem_cons.1 hm' with rfl | hm'
  · exact List.mem_cons_self
  · refine List.mem_cons_of_mem _ (List.mem_append_left _ (List.mem_append_left _ ?_))
    exact List.mem_filter.2 ⟨hm', decide_eq_true hsource⟩

theorem chunkCount_pos {n : Nat} (hpos : 0 < n) : 0 < chunkCount n := by
  rw [lt_chunkCount, Nat.zero_mul]
  exact hpos

theorem System.Coherent.begins (h : w.Coherent J) (haq : w.server.aq = m :: aq) (hop : m.op = opWriteBegin) :
    (w.clients m.source).want = [none] ∧ (w.clients m.source).inbox = [] ∧
      ∃ buf n, uint64OfInt m.count = BitVec.ofNat 64 n ∧
        aq.filter (·.source = m.source) ++ (w.clients m.source).flight ++ (w.clients m.source).todo =
          chunksFrom m.source m.fd buf n 0 ∧
        Rests J m.source ∧ (J m.fd).owner = some m.source ∧ 0 < n ∧ n ≤ bufSize := by
  have hne : m.op ≠ opRead := hop.trans_ne (by decide)
  obtain ⟨hwant, hinbox, ⟨hop', -⟩ | ⟨hop', -⟩ | ⟨-, buf, n, hm, htail, hrests, howner, hpos, hn⟩ | ⟨hop', -⟩⟩ :=
    (h.head haq hne).head (h.lt _)
  · exact absurd (hop.symm.trans hop') (by decide)
  · exact absurd (hop.symm.trans hop') (by decide)
  · refine ⟨hwant, hinbox, buf, n, ?_, htail, hrests, howner, hpos, hn⟩
    rw [hm, beginMessage, intOfUint64_ofNat, uint64OfInt_ofNat_of_le hn]
  · exact absurd (hop.symm.trans hop') (by decide)

theorem System.Coherent.swriteBegin (h : w.Coherent J)
    (hstep : w.server.step (.turn env) = some (({ w.server with aq := aq } : Server).swriteBegin m))
    (hpc : w.server.pc = .probe) (haq : w.server.aq = m :: aq) (hop : m.op = opWriteBegin) :
    ∃ J', (w.serve (({ w.server with aq := aq } : Server).swriteBegin m)).Coherent J' := by
  obtain ⟨hwant, hinbox, buf, n, hcount, htail, hrests, howner, hpos, hn⟩ := h.begins haq hop
  have hne : m.op ≠ opRead := hop.trans_ne (by decide)
  have hheld : J m.fd = .held m.source := hrests.held howner
  refine ⟨_, h.serve_write (c := m.source) (j := .filling m.source n 0) (l := []) hstep
    (Server.calm_of_not_read haq hne) howner rfl (not_touches_of_ne hpc haq (by rw [hop]; decide))
    (fun c' hc => filter_tail haq hc)
    (fun c' _ g => not_await hpc c' g _) (Server.sent_of_trace_eq rfl) (fun _ => nofun) ?_ rfl (fun _ _ _ ht => ht)
    (.inl hpc) htail (.filling hwant ?_ (Function.update_self ..) ?_ (Nat.zero_le _) ?_)⟩
  · rw [swriteBegin_view rfl, hcount]
    have hfits := h.fits m.fd
    rw [hheld] at hfits
    exact hfits.begin hn (h.file_spent hwant (h.head_only haq hne) howner)
  · rw [hinbox]
    rfl
  · refine forall_update (P := fun g j => ∀ n' r', j = .filling m.source n' r' → g = m.fd) (fun _ _ _ => rfl) ?_
    exact fun g _ n' r' hg => absurd hg (hrests g n' r')
  · intro hzero
    have hfirst : 0 < chunkCount n := chunkCount_pos hpos
    omega

theorem System.Coherent.chunks (h : w.Coherent J) (haq : w.server.aq = m :: aq) (hop : m.op = opWriteChunk) :
    (w.clients m.source).want = [none] ∧ (w.clients m.source).inbox = [] ∧
      ∃ buf n r, m.key = chunkKey m.source m.fd ∧
        aq.filter (·.source = m.source) ++ (w.clients m.source).flight ++ (w.clients m.source).todo =
          chunksFrom m.source m.fd buf n (r + 1) ∧
        r < chunkCount n ∧ J m.fd = .filling m.source n r ∧ ∀ fd n' r', J fd = .filling m.source n' r' → fd = m.fd := by
  have hne : m.op ≠ opRead := hop.trans_ne (by decide)
  obtain ⟨hwant, hinbox, ⟨hop', -⟩ | ⟨hop', -⟩ | ⟨hop', -⟩ | ⟨-, buf, n, r, hm, htail, hr, hjob, honly⟩⟩ :=
    (h.head haq hne).head (h.lt _)
  · exact absurd (hop.symm.trans hop') (by decide)
  · exact absurd (hop.symm.trans hop') (by decide)
  · exact absurd (hop.symm.trans hop') (by decide)
  · exact ⟨hwant, hinbox, buf, n, r, congrArg Message.key hm, htail, hr, hjob, honly⟩

theorem System.Coherent.swriteChunk (h : w.Coherent J)
    (hstep : w.server.step (.turn env) = some (({ w.server with aq := aq } : Server).swriteChunk m))
    (hpc : w.server.pc = .probe) (haq : w.server.aq = m :: aq) (hop : m.op = opWriteChunk) :
    ∃ J', (w.serve (({ w.server with aq := aq } : Server).swriteChunk m)).Coherent J' := by
  obtain ⟨hwant, hinbox, buf, n, r, hkey, htail, hr, hjob, honly⟩ := h.chunks haq hop
  have hne : m.op ≠ opRead := hop.trans_ne (by decide)
  have hfits := h.fits m.fd
  rw [hjob] at hfits
  obtain ⟨hn, d, hfilling⟩ := hfits.writers
  have hawait := Filling.swriteChunk_pc (s := { w.server with aq := aq }) (m := m) hfilling hn rfl
  refine ⟨_, h.serve_write (c := m.source) (j := .filling m.source n (r + 1)) (l := []) hstep
    (Server.calm_of_not_read haq hne) (by rw [hjob]; rfl) rfl (not_touches_of_ne hpc haq (by rw [hop]; decide))
    (fun c' hc => filter_tail haq hc) (fun c' _ g => not_await hpc c' g _)
    (Server.sent_of_trace (Server.swriteChunk_trace _ _)) (fun _ => nofun) ?_ rfl ?_ ?_ htail
    (.filling hwant ?_ (Function.update_self ..) ?_ hr ?_)⟩
  · rw [swriteChunk_view rfl, swriteChunk_entry rfl]
    exact hfits.chunk rfl _ _
  · intro k g pc ht
    rw [Server.swriteChunk_threads] at ht
    rcases List.mem_append.1 ht with ht | ht
    · exact ht
    · cases List.mem_singleton.1 ht
  · rw [hawait, hkey]
    by_cases hlast : chunkCount n ≤ r + 1
    · rw [if_pos hlast]
      exact .inr ⟨n, rfl, by rw [Nat.le_antisymm hlast hr]⟩
    · rw [if_neg hlast]
      exact .inl rfl
  · rw [hinbox]
    rfl
  · refine forall_update (P := fun g j => ∀ n' r', j = .filling m.source n' r' → g = m.fd) (fun _ _ _ => rfl) ?_
    exact fun g _ => honly g
  · intro hlast
    rw [hawait, if_pos hlast.ge, hkey]

/-- The client that fills a file has its chunks behind. -/
theorem ClientOk.fills {fd n r : Nat} (h : ClientOk J s c cl) (hjob : J fd = .filling c n r) :
    cl.want = [none] ∧ cl.inbox = [] ∧ r ≤ chunkCount n ∧ (r = chunkCount n → s.pc = .await (chunkKey c fd) fd) ∧
      (∃ buf, outstanding s c cl = chunksFrom c fd buf n r) ∧ ∀ fd' n' r', J fd' = .filling c n' r' → fd' = fd := by
  obtain ⟨reads, rest, heq, -, hstage⟩ := h.stage
  cases hstage with
  | reading _ _ hrests | opening _ _ hrests | closing _ _ hrests | beginning _ _ hrests | answered _ _ _ _ hrests =>
    exact absurd hjob (hrests fd n r)
  | @filling fd' buf n' r' hwant hinbox hjob' honly hr hmain =>
    obtain rfl := honly fd n r hjob
    rw [hjob, Job.filling.injEq] at hjob'
    obtain ⟨-, rfl, rfl⟩ := hjob'
    rw [List.nil_append] at heq
    exact ⟨hwant, hinbox, hr, hmain, ⟨buf, heq⟩, honly⟩

/-- The writers are done, and the client has its answer. -/
theorem System.Coherent.complete {k : Key} {fd : Nat} (h : w.Coherent J)
    (hstep : w.server.step (.turn env) = some ((w.server.emit [.reply k .completed]).goto .probe))
    (hpc : w.server.pc = .await k fd)
    (hcount : (w.server.entry fd).currentWriteCount = (w.server.entry fd).writeCount) :
    ∃ J', (w.serve ((w.server.emit [.reply k .completed]).goto .probe)).Coherent J' := by
  rcases h.main with hmain | ⟨c, fd', n, hmain, hjob⟩
  · rw [hpc] at hmain
    cases hmain
  rw [hpc, MainPc.await.injEq] at hmain
  obtain ⟨rfl, rfl⟩ := hmain
  obtain ⟨hwant, hinbox, -, -, ⟨buf, hout⟩, honly⟩ := (h.clients c).fills hjob
  rw [chunksFrom_of_le (Nat.le_refl _)] at hout
  have hfits := h.fits fd
  rw [hjob] at hfits
  refine ⟨_, h.serve_write (c := c) (j := .held c) (l := [(chunkKey c fd, .completed)]) hstep
    (Server.calm_of_not_probe (by rw [hpc]; nofun)) (by rw [hjob]; rfl) rfl ?_ (fun _ _ => rfl) ?_
    ((Server.sent_of_trace (l := [.reply (chunkKey c fd) .completed]) rfl).trans rfl) ?_ (hfits.done hcount) rfl
    (fun _ _ _ ht => ht) (.inl rfl) hout
    (.answered (r := (chunkKey c fd, .completed)) hwant ?_ rfl (fun _ => nofun) ?_)⟩
  · intro g hg htouch
    rw [Server.Touches, hpc] at htouch
    exact htouch
  · intro c' hc g hawait
    rw [hpc, MainPc.await.injEq] at hawait
    exact absurd (congrArg Prod.fst hawait.1).symm hc
  · intro r hr
    obtain rfl := List.mem_singleton.1 hr
    exact ⟨rfl, rfl⟩
  · rw [hinbox]
    rfl
  · exact .update (held_ne_filling c c) fun g hg n r hg' => hg (honly g n r hg')

/-! ## Reads -/

/-- A read at the head of the queue is one of a file that its client has opened and does not fill. -/
theorem System.Coherent.asks (h : w.Coherent J) (haq : w.server.aq = m :: aq) (hop : m.op = opRead) :
    J m.fd = .held m.source ∧ m.key = (m.source, readTag m.fd) := by
  obtain ⟨reads, rest, heq, hreads, hstage⟩ := (h.clients m.source).stage
  rw [outstanding_head haq rfl] at heq
  have hmem : m ∈ reads := by
    have hall : m ∈ reads ++ rest := heq ▸ List.mem_cons_self
    exact (List.mem_append.1 hall).resolve_right fun hrest => (hstage.sound (h.lt _) m hrest).2 hop
  obtain ⟨fd, n, howner, -, hm⟩ := hreads m hmem
  have hrests : Rests J m.source := by
    cases hstage with
    | reading _ _ hrests | opening _ _ hrests | closing _ _ hrests | beginning _ _ hrests | answered _ _ _ _ hrests =>
      exact hrests
    | filling => cases hmem
  have hfd : m.fd = fd := by
    rw [hm, readMessage_fd _ _ (h.lt _ fd howner)]
  rw [hfd]
  exact ⟨hrests.held howner, congrArg Message.key hm⟩

theorem runThread_view (s : Server) (t : Thread) : (s.runThread t).view t.fd =
    ⟨s.entry t.fd, (s.view t.fd).threads ++ [t]⟩ := by
  have hself : [t].filter (fun u => decide (u.fd = t.fd)) = [t] := by simp
  rw [Server.view, Server.runThread, List.filter_append, hself]
  rfl

theorem System.Coherent.sread (h : w.Coherent J)
    (hstep : w.server.step (.turn env) = some (w.server.runThread (.reader m.key m.fd .start)))
    (hcalm : w.server.Calm (.turn env)) (hpc : w.server.pc = .probe) (haq : w.server.aq = m :: aq)
    (hop : m.op = opRead) :
    ∃ J', (w.serve (w.server.runThread (.reader m.key m.fd .start))).Coherent J' := by
  obtain ⟨hheld, hkey⟩ := h.asks haq hop
  have hsame : Function.update J m.fd (.held m.source) = J := by
    rw [← hheld, Function.update_eq_self]
  have hfits := h.fits m.fd
  rw [hheld] at hfits
  refine ⟨_, h.serve_client (c := m.source) (j := .held m.source) (l := []) hstep hcalm (.inr (by rw [hheld]; rfl))
    (.inr rfl) (fun _ _ => rfl) (fun c' _ g => not_await hpc c' g _) (Server.sent_of_trace_eq rfl) (fun _ => nofun)
    (h.fits_update hstep (not_touches_of_ne hpc haq (by rw [hop]; decide)) ?_) ?_ ?_ (.inl hpc) ?_⟩
  · exact runThread_view w.server (.reader m.key m.fd .start) ▸ hfits.read m.key m.fd
  · rw [hsame]
    exact h.named
  · rw [hsame]
    intro k g pc ht hended
    rcases List.mem_append.1 ht with ht | ht
    · exact h.readers k g pc ht hended
    · cases List.mem_singleton.1 ht
      rw [hheld, hkey]
      exact ⟨rfl, rfl⟩
  · rw [hsame, List.append_nil]
    exact (h.clients m.source).frame (fun _ _ => rfl) rfl fun _ _ => rfl

/-! ## Closes -/

theorem System.Coherent.closes (h : w.Coherent J) (haq : w.server.aq = m :: aq) (hop : m.op = opClose) :
    (w.clients m.source).want = [none] ∧ (w.clients m.source).inbox = [] ∧
      aq.filter (·.source = m.source) ++ (w.clients m.source).flight ++ (w.clients m.source).todo = [] ∧
      Rests J m.source ∧ (J m.fd).owner = some m.source ∧ m.fd ∉ (w.clients m.source).files := by
  have hne : m.op ≠ opRead := hop.trans_ne (by decide)
  obtain ⟨hwant, hinbox, ⟨hop', -⟩ | ⟨-, htail, hrests, howner, hfile⟩ | ⟨hop', -⟩ | ⟨hop', -⟩⟩ :=
    (h.head haq hne).head (h.lt _)
  · exact absurd (hop.symm.trans hop') (by decide)
  · exact ⟨hwant, hinbox, htail, hrests, howner, hfile⟩
  · exact absurd (hop.symm.trans hop') (by decide)
  · exact absurd (hop.symm.trans hop') (by decide)

/-- While the main loop probes, the counters of a write in progress differ. -/
theorem System.Coherent.not_filling (h : w.Coherent J) (hpc : w.server.pc = .probe) {fd : Nat}
    (hcount : (w.server.entry fd).currentWriteCount = (w.server.entry fd).writeCount) :
    ∀ c n r, J fd ≠ .filling c n r := by
  intro c n r hjob
  have hfits := h.fits fd
  rw [hjob] at hfits
  obtain ⟨hn, d, hfilling⟩ := hfits.writers
  have hall := (hfilling.counts_eq_iff hn).1 hcount
  obtain ⟨-, -, hr, hmain, -⟩ := (h.clients c).fills hjob
  have hawait := hmain (le_antisymm hr (hall.trans hfilling.le_received))
  rw [hpc] at hawait
  cases hawait

theorem sclose_view (hfd : m.fd ∈ s.opened) :
    (s.sclose m).view m.fd = ⟨⟨0, 0, 0, 0, false, (s.entry m.fd).cache⟩, (s.view m.fd).threads⟩ := by
  simp only [Server.view, Server.sclose, if_pos hfd, Server.entry, Function.update_self]

theorem sclose_view_next (hfd : m.fd ∈ s.opened) :
    (s.sclose m).view (m.fd + 1) = ⟨⟨0, 0, 0, 0, false, (s.entry (m.fd + 1)).cache⟩, (s.view (m.fd + 1)).threads⟩ := by
  have hne : m.fd + 1 ≠ m.fd := Nat.succ_ne_self _
  simp only [Server.view, Server.sclose, if_pos hfd, Server.entry, Function.update_of_ne hne,
    Function.update_self]

theorem sclose_opened (hfd : m.fd ∈ s.opened) : (s.sclose m).opened = s.opened.erase m.fd := by
  simp only [Server.sclose, if_pos hfd]

theorem sclose_trace (hfd : m.fd ∈ s.opened) : (s.sclose m).trace = s.trace ++ [.reply m.key (.closed 0)] := by
  simp only [Server.sclose, if_pos hfd]

/-- With the mutex free, a reader that has nothing left to do is done. -/
theorem ended_of_spent {k : Key} {g : Nat} {pc : ReaderPc} {v : FileView}
    (h : Guarded Thread.holds v.entry.fastmutex v.threads) (hmutex : v.entry.fastmutex = false)
    (ht : .reader k g pc ∈ v.threads) (hspent : (Thread.reader k g pc).spent = true) : pc = .ended := by
  rw [hmutex] at h
  have hnone : (Thread.reader k g pc).holds ≠ true := List.countP_eq_zero.1 h _ ht
  cases pc with
  | start => cases hspent
  | locked | sending _ => exact absurd rfl hnone
  | ended => rfl

theorem System.Coherent.sclose (h : w.Coherent J)
    (hstep : w.server.step (.turn env) = some (({ w.server with aq := aq } : Server).sclose m))
    (hidle : w.server.ClosesIdle (.turn env)) (hpc : w.server.pc = .probe) (haq : w.server.aq = m :: aq)
    (hop : m.op = opClose) : ∃ J', (w.serve (({ w.server with aq := aq } : Server).sclose m)).Coherent J' := by
  obtain ⟨hwant, hinbox, htail, hrests, howner, hfile⟩ := h.closes haq hop
  obtain ⟨hmutex, hmutex', hcount⟩ := hidle hpc m (by rw [haq]; rfl) hop
  have hne : m.op ≠ opRead := hop.trans_ne (by decide)
  have hopen : m.fd ∈ w.server.opened := (h.named m.fd m.source howner).1
  have hheld := hrests.held howner
  have hfits := h.fits m.fd
  rw [hheld] at hfits
  have hother : ∀ g c', g ≠ m.fd → (J g).owner = some c' →
      (Function.update J m.fd .free g).owner = some c' := fun g c' hg hg' => (owner_update_of_ne hg).trans hg'
  refine ⟨_, h.serve_client (c := m.source) (j := .free) (l := [(m.key, .closed 0)]) hstep
    (Server.calm_of_not_read haq hne) (.inr howner) (.inl rfl) (fun c' hc => ?_) (fun c' _ g => not_await hpc c' g _)
    ((Server.sent_of_trace (sclose_trace (s := { w.server with aq := aq }) hopen)).trans rfl) (fun r hr => ?_)
    (forall_update (P := fun g j => j.Fits ((({ w.server with aq := aq } : Server).sclose m).view g)) ?_ fun g hg => ?_)
    ?_ (fun k g pc ht hended => ?_) (.inl ((Server.sclose_pc m).trans hpc)) ?_⟩
  · rw [Server.sclose_aq]
    exact filter_tail haq hc
  · obtain rfl := List.mem_singleton.1 hr
    exact ⟨rfl, rfl⟩
  · rw [sclose_view (s := { w.server with aq := aq }) hopen]
    exact hfits.closed hmutex _
  · by_cases hnext : g = m.fd + 1
    · rw [hnext, sclose_view_next (s := { w.server with aq := aq }) hopen]
      exact (h.fits (m.fd + 1)).cleared (h.not_filling hpc hcount) hmutex' _
    · rw [(Server.turn_cases hstep).view_eq]
      · exact h.fits g
      · rw [Server.touches_probe hpc haq, hop]
        rintro (⟨heq, -⟩ | ⟨hmem, -⟩ | ⟨-, heq | heq⟩)
        · exact absurd heq (by decide)
        · exact absurd hmem (by decide)
        · exact hg heq.symm
        · exact hnext heq.symm
  · rw [sclose_opened (s := { w.server with aq := aq }) hopen]
    refine forall_update (P := fun g j => ∀ c', j.owner = some c' → g ∈ w.server.opened.erase m.fd ∧ g < maxHostIds)
      (fun _ => nofun) fun g hg c' hg' => ?_
    exact ⟨(List.mem_erase_of_ne hg).2 (h.named g c' hg').1, (h.named g c' hg').2⟩
  · rw [Server.sclose_threads] at ht
    by_cases hg : g = m.fd
    · subst hg
      obtain ⟨i, hi⟩ := List.mem_iff_getElem?.1 ht
      have hview : Thread.reader k m.fd pc ∈ (w.server.view m.fd).threads := Server.view_mem_threads hi rfl
      exact absurd (ended_of_spent hfits.guarded hmutex hview
        (h.file_spent hwant (h.head_only haq hne) howner k _ pc hview)) hended
    · obtain ⟨hreader, htag⟩ := h.readers k g pc ht hended
      exact ⟨hother g _ hg hreader, htag⟩
  · refine answered_of_head hwant hinbox ?_ (fun fd hfd => hother fd _ ?_ ((h.clients m.source).files fd hfd)) rfl
      (fun _ => nofun) ?_
    · rw [outstanding, Server.sclose_aq]
      exact htail
    · rintro rfl
      exact hfile hfd
    · exact .update (free_ne_filling m.source) fun g _ => hrests g

end MainLoop

end Libibtl.Ibio
