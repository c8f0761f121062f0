import Libibtl.Ibio.Service

/-! # The server keeps what it owes

A step of a thread, and every request that the main loop serves, keep the clients and
the files in agreement, as long as the request is served in time: a read gets one thread,
and a close finds the mutexes free that it clears.
-/

namespace Libibtl.Ibio

open Foundation

section Serving

variable {J : Nat → Job} {w : System} {s s' : Server} {c : CInt} {cl : Client}

/-! ## Messages on the way to the clients -/

theorem System.serve_clients (w : System) (s : Server) (c : CInt) : (w.serve s).clients c =
    { w.clients c with inbox := (w.clients c).inbox ++ (w.server.sent s).filter (·.1.1 = c) } := rfl

theorem System.serve_clients_of_nil (h : (w.server.sent s).filter (·.1.1 = c) = []) :
    (w.serve s).clients c = w.clients c := by
  rw [System.serve_clients, h, List.append_nil]

theorem countP_sent (l : List Reply) (c : CInt) (tag : CInt) :
    (l.filter (·.1.1 = c)).countP (Reply.isChunk (c, tag)) = l.countP (Reply.isChunk (c, tag)) := by
  rw [List.countP_filter]
  refine List.countP_congr fun r _ => ?_
  simp only [Bool.and_eq_true, decide_eq_true_eq, and_iff_left_iff_imp]
  intro hr
  rw [(Reply.isChunk_iff.1 hr).2]

/-- The chunks that are paid, when the owed ones are on the way. -/
theorem System.Coherent.paid_serve (h : w.Coherent J)
    (howed : ∀ k, s.owed k + (w.server.sent s).countP (Reply.isChunk k) = w.server.owed k) (c tag : CInt) :
    ((w.serve s).clients c).want.count (some tag) = ((w.serve s).clients c).inbox.countP (Reply.isChunk (c, tag)) +
      (w.serve s).server.owed (c, tag) +
      asked (c, tag) (((w.serve s).clients c).flight ++ ((w.serve s).clients c).todo) := by
  have hpaid := h.paid c tag
  have hnew := howed (c, tag)
  simp only [System.serve_clients, List.countP_append, countP_sent]
  rw [hpaid]
  change _ = _ + s.owed (c, tag) + _
  omega

/-! ## Readers -/

theorem Server.Balanced.reads (h : s.Balanced) {k : Key} {g : Nat} {pc : ReaderPc}
    (ht : Thread.reader k g pc ∈ s.threads) : (deserializeTag k.2).1 = opRead := by
  by_contra hk
  have hzero := h.keys k hk
  have hpos : 0 < s.started k := List.countP_pos_iff.mpr ⟨_, ht, by simp [Thread.reads, Thread.key?]⟩
  omega

/-- A reader that is not done was not done before. -/
theorem Server.Move.reader {i : Nat} (hm : Server.Move s i s') {k : Key} {g : Nat} {pc : ReaderPc}
    (ht : Thread.reader k g pc ∈ s'.threads) (hpc : pc ≠ .ended) :
    ∃ pc', Thread.reader k g pc' ∈ s.threads ∧ pc' ≠ .ended := by
  have hset : ∀ {u : Thread}, (∀ k g pc, u = .reader k g pc → pc ≠ .ended →
      ∃ pc', Thread.reader k g pc' ∈ s.threads ∧ pc' ≠ .ended) → s'.threads = s.threads.set i u →
      ∃ pc', Thread.reader k g pc' ∈ s.threads ∧ pc' ≠ .ended := by
    intro u hu hthreads
    rw [hthreads] at ht
    rcases mem_set_cases ht with heq | ht
    · exact hu k g pc heq.symm hpc
    · exact ⟨pc, ht, hpc⟩
  cases hm with
  | writerLock | writerWrite | writerAdvance | writerUnlock =>
    refine hset ?_ rfl
    rintro _ _ _ ⟨⟩
  | readerLock hi | readerReceive hi | readerSend hi =>
    refine hset ?_ rfl
    rintro _ _ _ ⟨⟩ -
    exact ⟨_, List.mem_of_getElem? hi, nofun⟩
  | readerUnlock =>
    refine hset ?_ rfl
    rintro _ _ _ ⟨⟩ hended
    exact absurd rfl hended

/-- A thread takes at most one request out of the queue, a read of its client. -/
theorem Server.Move.queue {i : Nat} (hm : Server.Move s i s') : s'.aq = s.aq ∨
    ∃ k g m, Thread.reader k g .locked ∈ s.threads ∧ s.aq.find? (·.key = k) = some m ∧
      s'.aq = s.aq.eraseP (·.key = k) := by
  cases hm with
  | writerLock | writerWrite | writerAdvance | writerUnlock | readerLock | readerSend | readerUnlock => exact .inl rfl
  | readerReceive hi hm => exact .inr ⟨_, _, _, List.mem_of_getElem? hi, hm, rfl⟩

theorem exists_of_find?_eraseP {T : Type} {q : T → Bool} {l : List T} {x : T} (h : l.find? q = some x) :
    ∃ l₁ l₂, l = l₁ ++ x :: l₂ ∧ l.eraseP q = l₁ ++ l₂ := by
  obtain ⟨hx, l₁, l₂, rfl, hl₁⟩ := List.find?_eq_some_iff_append.1 h
  refine ⟨l₁, l₂, rfl, ?_⟩
  rw [List.eraseP_append_right _ fun y hy => by simpa using hl₁ y hy, List.eraseP_cons_of_pos hx]

/-- An entry of a list that is not in its second part. -/
theorem append_eq_of_notMem {T : Type} {l l' a b : List T} {x : T} (h : l ++ l' = a ++ x :: b) (hx : x ∉ l') :
    ∃ b', l = a ++ x :: b' ∧ b = b' ++ l' := by
  rcases List.append_eq_append_iff.1 h with ⟨a', -, hl'⟩ | ⟨c', hl, hc'⟩
  · exact absurd (hl' ▸ List.mem_append_right _ List.mem_cons_self) hx
  · cases c' with
    | nil =>
      rw [List.nil_append] at hc'
      exact absurd (hc' ▸ List.mem_cons_self) hx
    | cons y b' =>
      obtain ⟨rfl, rfl⟩ := List.cons.inj hc'
      exact ⟨b', hl, rfl⟩

/-- While the client fills no file, any of its reads may be left. -/
theorem Stage.reads {pc : MainPc} {reads rest : List Message} (h : Stage J pc c cl reads rest) (hne : reads ≠ [])
    (reads' : List Message) : Stage J pc c cl reads' rest := by
  cases h with
  | reading hwant hinbox hrests => exact .reading hwant hinbox hrests
  | opening hwant hinbox hrests => exact .opening hwant hinbox hrests
  | closing hwant hinbox hrests howner hfile => exact .closing hwant hinbox hrests howner hfile
  | beginning hwant hinbox hrests howner hpos hn => exact .beginning hwant hinbox hrests howner hpos hn
  | answered hwant hinbox hchunk hopened hrests => exact .answered hwant hinbox hchunk hopened hrests
  | filling => exact absurd rfl hne

theorem ClientOk.received {k : Key} {m : Message} (h : ClientOk J s c cl)
    (hlt : ∀ fd, (J fd).owner = some c → fd < maxHostIds) (hm : s.aq.find? (·.key = k) = some m) (hop : m.op = opRead)
    (haq : s'.aq = s.aq.eraseP (·.key = k)) (hpc : s'.pc = s.pc) : ClientOk J s' c cl := by
  obtain ⟨l₁, l₂, hl, herase⟩ := exists_of_find?_eraseP hm
  rw [← haq] at herase
  by_cases hc : m.source = c
  · refine ⟨h.files, ?_⟩
    obtain ⟨reads, rest, heq, hreads, hstage⟩ := h.stage
    have hrest : m ∉ rest := fun hin => (hstage.sound hlt m hin).2 hop
    rw [outstanding, hl, List.filter_append, List.filter_cons_of_pos (by simpa using hc), List.append_assoc,
      List.append_assoc, List.cons_append] at heq
    obtain ⟨reads', rfl, htail⟩ := append_eq_of_notMem heq.symm hrest
    refine ⟨l₁.filter (·.source = c) ++ reads', rest, ?_, fun m' hm' => hreads m' ?_, ?_⟩
    · rw [outstanding, herase, List.filter_append, List.append_assoc, List.append_assoc, List.append_assoc, htail]
    · rcases List.mem_append.1 hm' with hm' | hm'
      · exact List.mem_append_left _ hm'
      · exact List.mem_append_right _ (List.mem_cons_of_mem _ hm')
    · rw [hpc]
      exact hstage.reads (by simp) _
  · refine h.frame (fun _ _ => rfl) ?_ fun _ _ => hpc
    rw [herase, hl, List.filter_append, List.filter_append, List.filter_cons_of_neg (by simpa using hc)]

/-- A chunk is on the way to a client that waits for chunks. -/
theorem ClientOk.delivered {r : Reply} (h : ClientOk J s c cl) (hwant : cl.want ≠ [none]) (hr : r.1.1 = c)
    (hchunk : r.isChunk r.1 = true) : ClientOk J s c { cl with inbox := cl.inbox ++ [r] } := by
  refine ⟨h.files, ?_⟩
  obtain ⟨reads, rest, heq, hreads, hstage⟩ := h.stage
  cases hstage with
  | reading hnone hinbox hrests =>
    refine ⟨reads, [], heq, hreads, .reading hnone (fun r' hr' => ?_) hrests⟩
    rcases List.mem_append.1 hr' with hr' | hr'
    · exact hinbox r' hr'
    · obtain rfl := List.mem_singleton.1 hr'
      exact ⟨hr, hchunk⟩
  | opening hask | closing hask | beginning hask | filling hask | answered hask => exact absurd hask hwant

theorem System.Coherent.thread {i : Nat} (h : w.Coherent J) (hstep : w.server.step (.thread i) = some s) :
    (w.serve s).Coherent J := by
  have hm : Server.Move w.server i s := Server.threadStep_cases hstep
  have hkeys : ∀ k g pc, Thread.reader k g pc ∈ w.server.threads → (deserializeTag k.2).1 = opRead :=
    fun _ _ _ ht => h.balanced.reads ht
  have hlt : ∀ c fd, (J fd).owner = some c → fd < maxHostIds := fun c fd hfd => (h.named fd c hfd).2
  constructor
  · exact h.balanced.move hm
  · exact (h.balanced.served_step h.served hstep).2 trivial
  · exact h.sized.move hm hkeys
  · intro fd
    obtain ⟨t, hi, hmove, hothers⟩ := hm.view
    by_cases hfd : fd = t.fd
    · subst hfd
      refine (h.fits t.fd).move hmove fun hfree k g pc ht => ?_
      by_contra hpc
      obtain ⟨⟨i', hi'⟩, hg⟩ := Server.mem_view_threads ht
      obtain ⟨howner, -⟩ := h.readers k g pc (List.mem_of_getElem? hi') hpc
      rw [show g = t.fd from hg, hfree] at howner
      cases howner
    · exact hothers fd hfd ▸ h.fits fd
  · intro fd c hfd
    have hopened : s.opened = w.server.opened ∧ (s.entry fd).fd = (w.server.entry fd).fd := hm.opened
    exact hopened.1 ▸ h.named fd c hfd
  · intro k g pc ht hpc
    obtain ⟨pc', ht', hpc'⟩ := hm.reader ht hpc
    exact h.readers k g pc' ht' hpc'
  · rw [show (w.serve s).server.pc = w.server.pc from hm.pc_eq]
    exact h.main
  · exact h.paid_serve (hm.owed h.sized hkeys)
  · intro c
    have hreceived : ClientOk J s c (w.clients c) := by
      rcases hm.queue with haq | ⟨k, g, m, ht, hfind, haq⟩
      · exact (h.clients c).frame (fun _ _ => rfl) (by rw [haq]) fun _ _ => hm.pc_eq
      · have hop : m.op = opRead := by
          rw [← h.balanced.reads ht, ← (Server.find?_key hfind).1]
          rfl
        exact (h.clients c).received (hlt c) hfind hop haq hm.pc_eq
    rcases hm.sent with hnil | ⟨k, g, r, chunk, hi, -, hsent⟩
    · rw [System.serve_clients_of_nil (by rw [hnil]; rfl)]
      exact hreceived
    · by_cases hc : k.1 = c
      · rw [System.serve_clients, hsent, List.filter_cons_of_pos (by simpa using hc), List.filter_nil]
        refine hreceived.delivered (fun hwant => ?_) hc (by simp [Reply.isChunk])
        -- the chunk was owed, so it is waited for
        have hpaid := h.paid c k.2
        have howed := hm.owed h.sized hkeys k
        have hkey : k = (c, k.2) := by rw [← hc]
        rw [hsent, List.countP_cons_of_pos (by simp [Reply.isChunk]), List.countP_nil] at howed
        rw [hwant, ← hkey] at hpaid
        have hnone : [(none : Option CInt)].count (some k.2) = 0 := rfl
        omega
      · rw [System.serve_clients_of_nil (by rw [hsent, List.filter_cons_of_neg (by simpa using hc), List.filter_nil])]
        exact hreceived

end Serving

end Libibtl.Ibio
