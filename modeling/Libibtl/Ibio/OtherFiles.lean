import Libibtl.Ibio.CacheOverruns

/-! # Steps that leave one file alone

The main loop and the threads serve many files. A step that works on another file keeps
the view of this one, the requests that are queued for it, and what was done for it:
the chunks received, the calls of `write` and the replies that complete a write.
-/

namespace Libibtl.Ibio

open Foundation

/-- The file that the tag of a message names. -/
def Key.fd (k : Key) : Nat := (deserializeTag k.2).2.toNat

/-- A request on the file. An open names no file yet. -/
def Message.requests (fd : Nat) (m : Message) : Bool := m.op ≠ opOpen ∧ m.fd = fd

/-- What was done for the file. -/
def Output.on (fd : Nat) : Output → Bool
  | .receive g _ _ => g = fd
  | .write g _ => g = fd
  | .reply k .completed => k.fd = fd
  | .reply _ _ => false

def MainPc.on (fd : Nat) : MainPc → Prop
  | .probe => False
  | .swrite _ g _ => g = fd
  | .await _ g => g = fd

namespace Server

def requests (s : Server) (fd : Nat) : List Message := s.aq.filter (·.requests fd)

def history (s : Server) (fd : Nat) : List Output := s.trace.filter (·.on fd)

/-- The entries have their own number or none, and whatever works on a file received a key with its number. -/
structure Orderly (s : Server) : Prop where
  names : ∀ g, (s.entry g).fd = g ∨ (s.entry g).fd = 0
  readers : ∀ t ∈ s.threads, ∀ k g pc, t = .reader k g pc → k.fd = g
  swrite : ∀ k g w, s.pc = .swrite k g w → k.fd = g
  await : ∀ k g, s.pc = .await k g → k.fd = g

/-- The step leaves the file alone. -/
structure Spares (fd : Nat) (s s' : Server) : Prop where
  view : s'.view fd = s.view fd
  requests : s'.requests fd = s.requests fd
  history : s'.history fd = s.history fd
  main : s'.pc.on fd → s.pc.on fd

variable {s s' : Server} {fd : Nat}

theorem Spares.refl (s : Server) : Spares fd s s := ⟨rfl, rfl, rfl, id⟩

/-! ## The order of a server -/

theorem orderly_init : init.Orderly where
  names g := .inr rfl
  readers t ht := by cases ht
  swrite k g w h := by cases h
  await k g h := by cases h

/-- New names are those of an entry, or they are zero. -/
theorem Orderly.of_entries (h : s.Orderly) (hentries : ∀ g, (s'.entry g).fd = (s.entry g).fd ∨
    (s'.entry g).fd = g ∨ (s'.entry g).fd = 0) (hthreads : ∀ t ∈ s'.threads, ∀ k g pc, t = .reader k g pc → k.fd = g)
    (hswrite : ∀ k g w, s'.pc = .swrite k g w → k.fd = g) (hawait : ∀ k g, s'.pc = .await k g → k.fd = g) :
    s'.Orderly where
  names g := by
    rcases hentries g with heq | hname
    · rw [heq]
      exact h.names g
    · exact hname
  readers := hthreads
  swrite := hswrite
  await := hawait

theorem Orderly.runThread (h : s.Orderly) {t : Thread} (ht : ∀ k g pc, t = .reader k g pc → k.fd = g) :
    ∀ u ∈ s.threads ++ [t], ∀ k g pc, u = .reader k g pc → k.fd = g := by
  intro u hu k g pc heq
  rcases List.mem_append.1 hu with hu | hu
  · exact h.readers u hu k g pc heq
  · rw [List.mem_singleton.1 hu] at heq
    exact ht k g pc heq

theorem Orderly.setThread (h : s.Orderly) {i : Nat} {t u : Thread} (hi : s.threads[i]? = some t)
    (hkeep : ∀ k g pc, u = .reader k g pc → ∃ pc', t = .reader k g pc') :
    ∀ v ∈ s.threads.set i u, ∀ k g pc, v = .reader k g pc → k.fd = g := by
  intro v hv k g pc heq
  rcases List.mem_or_eq_of_mem_set hv with hv | rfl
  · exact h.readers v hv k g pc heq
  · obtain ⟨pc', ht⟩ := hkeep k g pc heq
    exact h.readers t (List.mem_of_getElem? hi) k g pc' ht

theorem chunkEntry_eq (s : Server) (m : Message) : s.chunkEntry m = { s.entry m.fd with
    cache := (s.chunkEntry m).cache
    currentRecvSize := (s.entry m.fd).currentRecvSize +
      uint64OfInt (serverChunk (s.entry m.fd).currentRecvSize (s.entry m.fd).writeCount) } := by
  simp only [chunkEntry]

theorem chunkEntry_fd (s : Server) (m : Message) : (s.chunkEntry m).fd = (s.entry m.fd).fd := by
  rw [chunkEntry_eq]

section Projections

variable (s) (i : Nat) (k : Key) (fd : Nat) (count : CInt) (l : Sread)

theorem storeSread_entries : (s.storeSread i k fd count l).entries =
    Function.update s.entries fd { s.entry fd with cache := l.cache } := rfl

theorem storeSread_trace : (s.storeSread i k fd count l).trace =
    s.trace ++ l.sent.map fun c => .reply k (.chunk c) := rfl

theorem swriteTurn_entries (w : Swrite) (m : Message) (env : Env) : (s.swriteTurn k fd w m env).entries =
    Function.update s.entries fd { s.entry fd with cache := w.receive (s.entry fd).cache m.chunk } := by
  simp only [swriteTurn]

theorem swriteTurn_pc (w : Swrite) (m : Message) (env : Env) : (s.swriteTurn k fd w m env).pc = .swrite k fd w.turn := by
  simp only [swriteTurn]

theorem swriteTurn_trace (w : Swrite) (m : Message) (env : Env) : (s.swriteTurn k fd w m env).trace =
    s.trace ++ (w.writes (s.entry fd).cache env.heap m.chunk env.landed).toList.map (.write fd) := by
  simp only [swriteTurn]

end Projections

theorem update_fd {g : Nat} {e : Entry} (hentries : s'.entries = Function.update s.entries g e)
    (he : e.fd = (s.entry g).fd) (g' : Nat) : (s'.entry g').fd = (s.entry g').fd := by
  rw [entry, hentries]
  by_cases hg : g' = g
  · subst hg
    rw [Function.update_self, he]
  · rw [Function.update_of_ne hg]
    rfl

theorem Orderly.turn {env : Env} (h : s.Orderly) (ht : Turn s env s') : s'.Orderly := by
  cases ht with
  | sopen hpc haq hop hfresh hlt =>
    refine h.of_entries (fun g => ?_) h.readers h.swrite h.await
    by_cases hg : g = env.fd
    · refine .inr (.inl ?_)
      simp [Server.sopen, entry, hg]
    · refine .inl ?_
      simp [Server.sopen, entry, hg]
  | @swrite m aq hpc haq hop =>
    refine h.of_entries (fun g => .inl rfl) h.readers (fun k g w heq => ?_) fun k g heq => ?_
    · simp only [goto, MainPc.swrite.injEq] at heq
      obtain ⟨rfl, rfl, -⟩ := heq
      rfl
    · cases heq
  | swriteBegin hpc haq hop =>
    exact h.of_entries (fun g => .inl (update_fd rfl (by rfl) g)) h.readers h.swrite h.await
  | @swriteChunk m aq hpc haq hop =>
    refine h.of_entries (fun g => .inl ?_) ?_ (fun k g w heq => ?_) fun k g heq => ?_
    · exact update_fd (s := { s with aq := aq }) (swriteChunk_entries _ m) (chunkEntry_fd _ m) g
    · rw [swriteChunk_threads]
      exact h.runThread fun k g pc heq => by cases heq
    · rw [swriteChunk_pc] at heq
      split at heq
      · cases heq
      · cases heq
    · rw [swriteChunk_pc] at heq
      split at heq
      · cases heq
        rfl
      · cases heq
  | sread hpc haq hop =>
    refine h.of_entries (fun g => .inl rfl) (h.runThread fun k g pc heq => ?_) h.swrite h.await
    cases heq
    rfl
  | @sclose m aq hpc haq hop =>
    refine h.of_entries (fun g => ?_) ?_ ?_ ?_
    · unfold Server.sclose
      split
      · by_cases hg : g = m.fd
        · refine .inr (.inr ?_)
          simp [entry, hg]
        · by_cases hnext : g = m.fd + 1
          · refine .inr (.inr ?_)
            simp [entry, hnext]
          · refine .inl ?_
            simp [entry, hg, hnext]
      · exact .inl rfl
    · rw [sclose_threads]
      exact h.readers
    · rw [sclose_pc]
      exact h.swrite
    · rw [sclose_pc]
      exact h.await
  | noop hpc haq hop => exact h
  | @swriteTurn k fd w m hpc hlt hm =>
    refine h.of_entries (fun g => .inl (update_fd (swriteTurn_entries ..) (by rfl) g)) h.readers (fun k' g w' heq => ?_)
      fun k' g heq => ?_
    · rw [swriteTurn_pc, MainPc.swrite.injEq] at heq
      obtain ⟨rfl, rfl, -⟩ := heq
      exact h.swrite k fd w hpc
    · rw [swriteTurn_pc] at heq
      cases heq
  | swriteEnd | complete =>
    refine h.of_entries (fun g => .inl rfl) h.readers (fun k g w heq => ?_) fun k g heq => ?_
    · cases heq
    · cases heq

theorem Orderly.move {i : Nat} (h : s.Orderly) (hm : Move s i s') : s'.Orderly := by
  cases hm with
  | writerLock hi _ | writerAdvance hi | writerUnlock hi =>
    exact h.of_entries (fun g => .inl (update_fd rfl (by rfl) g))
      (h.setThread hi fun k g pc heq => by cases heq) h.swrite h.await
  | writerWrite hi =>
    exact h.of_entries (fun g => .inl rfl) (h.setThread hi fun k g pc heq => by cases heq) h.swrite h.await
  | readerLock hi _ | readerUnlock hi _ =>
    refine h.of_entries (fun g => .inl (update_fd rfl (by rfl) g)) (h.setThread hi fun k g pc heq => ?_) h.swrite h.await
    cases heq
    exact ⟨_, rfl⟩
  | @readerReceive k fd m hi _ =>
    refine h.of_entries (fun g => .inl (update_fd (storeSread_entries s i k fd m.count _) (by rfl) g))
      (h.setThread hi fun k g pc heq => ?_) h.swrite h.await
    rw [Thread.reader.injEq] at heq
    obtain ⟨rfl, rfl, -⟩ := heq
    exact ⟨_, rfl⟩
  | @readerSend k fd r hi _ =>
    refine h.of_entries (fun g => .inl (update_fd (storeSread_entries s i k fd r.count _) (by rfl) g))
      (h.setThread hi fun k g pc heq => ?_) h.swrite h.await
    rw [Thread.reader.injEq] at heq
    obtain ⟨rfl, rfl, -⟩ := heq
    exact ⟨_, rfl⟩

theorem Orderly.step (h : s.Orderly) {e : ServerEvent} (hstep : s.step e = some s') : s'.Orderly := by
  cases e with
  | arrive m =>
    cases hstep
    exact ⟨h.names, h.readers, h.swrite, h.await⟩
  | turn env => exact h.turn (turn_cases hstep)
  | thread i => exact h.move (threadStep_cases hstep)

/-! ## Steps on other files -/

theorem history_append {l : List Output} (htrace : s'.trace = s.trace ++ l) (hl : ∀ o ∈ l, o.on fd = false) :
    s'.history fd = s.history fd := by
  have hnil : l.filter (·.on fd) = [] := List.filter_eq_nil_iff.2 fun o ho => by simp [hl o ho]
  rw [history, htrace, List.filter_append, hnil, List.append_nil, history]

theorem history_concat {o : Output} (htrace : s'.trace = s.trace ++ [o]) (ho : o.on fd = true) :
    s'.history fd = s.history fd ++ [o] := by
  rw [history, htrace, List.filter_append, List.filter_cons_of_pos ho, List.filter_nil, history]

theorem requests_tail {m : Message} {aq : List Message} (haq : s.aq = m :: aq) (hm : m.requests fd = false)
    (haq' : s'.aq = aq) : s'.requests fd = s.requests fd := by
  rw [requests, requests, haq, haq', List.filter_cons_of_neg (by simp [hm])]

theorem filter_eraseP {l : List Message} {k : Key} (hk : k.fd ≠ fd) :
    (l.eraseP (·.key = k)).filter (·.requests fd) = l.filter (·.requests fd) := by
  induction l with
  | nil => rfl
  | cons m l ih =>
    by_cases hm : m.key = k
    · have hother : m.requests fd = false := by
        rw [Message.requests, decide_eq_false_iff_not]
        rintro ⟨-, hfd⟩
        exact hk (hm ▸ hfd)
      rw [List.eraseP_cons_of_pos (by simpa using hm), List.filter_cons_of_neg (by simp [hother])]
    · rw [List.eraseP_cons_of_neg (by simpa using hm), List.filter_cons, List.filter_cons, ih]

/-- The next message is none for the file, and no close. -/
def HeadSpares (fd : Nat) (s : Server) : Prop :=
  s.pc = .probe → ∀ m ∈ s.aq.head?, m.requests fd = false ∧ m.op ≠ opClose

theorem HeadSpares.head {m : Message} {aq : List Message} (h : s.HeadSpares fd) (hpc : s.pc = .probe)
    (haq : s.aq = m :: aq) : m.requests fd = false ∧ m.op ≠ opClose :=
  h hpc m (by rw [haq]; rfl)

theorem requests_of_op {m : Message} (h : m.requests fd = false) (hop : m.op ≠ opOpen) : m.fd ≠ fd := by
  intro hfd
  rw [Message.requests, decide_eq_false_iff_not] at h
  exact h ⟨hop, hfd⟩

theorem Turn.not_touches {env : Env} (ht : Turn s env s') (hhead : s.HeadSpares fd) (hmain : ¬ s.pc.on fd)
    (hfd : fd ∈ s.opened) : ¬ s.Touches env fd := by
  cases ht with
  | sopen hpc haq hop hfresh hlt =>
    rw [touches_probe hpc haq, hop]
    rintro (⟨-, heq⟩ | ⟨hmem, -⟩ | ⟨hclose, -⟩)
    · exact hfresh (heq ▸ hfd)
    · exact absurd hmem (by decide)
    · exact absurd hclose (by decide)
  | swrite hpc haq hop | swriteBegin hpc haq hop | swriteChunk hpc haq hop | sread hpc haq hop =>
    have hne := requests_of_op (hhead.head hpc haq).1 (by rw [hop]; decide)
    rw [touches_probe hpc haq, hop]
    rintro (⟨hopen, -⟩ | ⟨-, heq⟩ | ⟨hclose, -⟩)
    · exact absurd hopen (by decide)
    · exact hne heq
    · exact absurd hclose (by decide)
  | sclose hpc haq hop => exact absurd hop (hhead.head hpc haq).2
  | noop hpc haq hop =>
    rw [touches_probe hpc haq]
    rintro (⟨hopen, -⟩ | ⟨hmem, -⟩ | ⟨hclose, -⟩)
    · exact hop (by simp [hopen])
    · simp only [List.mem_cons, List.not_mem_nil, or_false] at hop hmem
      tauto
    · exact hop (by simp [hclose])
  | swriteTurn hpc hlt hm =>
    rw [Touches, hpc]
    rintro ⟨-, heq⟩
    exact hmain (by rw [hpc]; exact heq)
  | swriteEnd hpc hlt =>
    rw [Touches, hpc]
    rintro ⟨-, heq⟩
    exact hmain (by rw [hpc]; exact heq)
  | complete hpc hcount =>
    rw [Touches, hpc]
    exact id

theorem swriteChunk_not_on (s : Server) {m : Message} (h : m.fd ≠ fd) : ¬ (s.swriteChunk m).pc.on fd := by
  rw [swriteChunk_pc]
  split
  · exact h
  · exact id

theorem Orderly.turn_keeps {env : Env} (h : s.Orderly) (ht : Turn s env s') (hhead : s.HeadSpares fd)
    (hmain : ¬ s.pc.on fd) :
    s'.requests fd = s.requests fd ∧ s'.history fd = s.history fd ∧ (s'.pc.on fd → s.pc.on fd) := by
  cases ht with
  | sopen hpc haq hop hfresh hlt =>
    refine ⟨requests_tail haq (hhead.head hpc haq).1 rfl, history_append rfl fun o ho => ?_, id⟩
    rw [List.mem_singleton.1 ho]
    rfl
  | swrite hpc haq hop =>
    have hm := (hhead.head hpc haq).1
    exact ⟨requests_tail haq hm rfl, rfl, fun heq => absurd heq (requests_of_op hm (by rw [hop]; decide))⟩
  | swriteBegin hpc haq hop => exact ⟨requests_tail haq (hhead.head hpc haq).1 rfl, rfl, id⟩
  | @swriteChunk m aq hpc haq hop =>
    have hm := (hhead.head hpc haq).1
    have hne := requests_of_op hm (by rw [hop]; decide)
    refine ⟨requests_tail haq hm (swriteChunk_aq _ m), history_append (swriteChunk_trace _ m) fun o ho => ?_,
      (swriteChunk_not_on _ hne).elim⟩
    rw [List.mem_singleton.1 ho, Output.on]
    exact decide_eq_false hne
  | sread hpc haq hop => exact ⟨rfl, rfl, id⟩
  | sclose hpc haq hop => exact absurd hop (hhead.head hpc haq).2
  | noop hpc haq hop => exact ⟨rfl, rfl, id⟩
  | @swriteTurn k g w m hpc hlt hm =>
    have hne : g ≠ fd := fun heq => hmain (by rw [hpc]; exact heq)
    refine ⟨filter_eraseP (h.swrite k g w hpc ▸ hne), history_append (swriteTurn_trace ..) fun o ho => ?_,
      fun hon => absurd hon hne⟩
    obtain ⟨data, -, rfl⟩ := List.mem_map.1 ho
    exact decide_eq_false hne
  | @swriteEnd k g w hpc hlt =>
    have hne : g ≠ fd := fun heq => hmain (by rw [hpc]; exact heq)
    refine ⟨rfl, history_append (List.append_assoc ..) fun o ho => ?_, False.elim⟩
    rcases List.mem_cons.1 ho with rfl | ho
    · exact decide_eq_false hne
    · rw [List.mem_singleton.1 ho]
      exact decide_eq_false (h.swrite k g w hpc ▸ hne)
  | @complete k g hpc hcount =>
    have hne : g ≠ fd := fun heq => hmain (by rw [hpc]; exact heq)
    refine ⟨rfl, history_append rfl fun o ho => ?_, False.elim⟩
    rw [List.mem_singleton.1 ho]
    exact decide_eq_false (h.await k g hpc ▸ hne)

/-- The main loop leaves a file alone while it works on other requests. -/
theorem Orderly.turn_spares {env : Env} (h : s.Orderly) (ht : Turn s env s') (hhead : s.HeadSpares fd)
    (hmain : ¬ s.pc.on fd) (hfd : fd ∈ s.opened) : Spares fd s s' := by
  have hview := ht.view_eq (ht.not_touches hhead hmain hfd)
  obtain ⟨hrequests, hhistory, hmain'⟩ := h.turn_keeps ht hhead hmain
  exact ⟨hview, hrequests, hhistory, hmain'⟩

/-- A thread writes to the file that its entry names, and it sends chunks. -/
theorem Move.trace_eq {i : Nat} {t : Thread} (h : Move s i s') (hi : s.threads[i]? = some t) :
    ∃ l, s'.trace = s.trace ++ l ∧
      ∀ o ∈ l, (∃ data, o = .write (s.entry t.fd).fd data) ∨ ∃ k c, o = .reply k (.chunk c) := by
  have hreply : ∀ (k : Key) (l : List Chunk), ∀ o ∈ l.map (fun c => Output.reply k (.chunk c)),
      (∃ data, o = .write (s.entry t.fd).fd data) ∨ ∃ k c, o = .reply k (.chunk c) := by
    intro k l o ho
    obtain ⟨c, -, rfl⟩ := List.mem_map.1 ho
    exact .inr ⟨k, c, rfl⟩
  cases h with
  | writerLock | writerAdvance | writerUnlock | readerLock | readerUnlock =>
    exact ⟨[], (List.append_nil _).symm, fun o ho => absurd ho List.not_mem_nil⟩
  | @writerWrite g hi' =>
    obtain rfl : t = .writer g .locked := Option.some.inj (hi.symm.trans hi')
    refine ⟨_, rfl, fun o ho => ?_⟩
    exact .inl ⟨_, List.mem_singleton.1 ho⟩
  | @readerReceive k g m => exact ⟨_, storeSread_trace s i k g m.count _, hreply k _⟩
  | @readerSend k g r => exact ⟨_, storeSread_trace s i k g r.count _, hreply k _⟩

/-- A reader takes one request out of the queue, that of its own key. -/
theorem Move.aq_eq {i : Nat} {t : Thread} (h : Move s i s') (hi : s.threads[i]? = some t) :
    s'.aq = s.aq ∨ ∃ k, t = .reader k t.fd .locked ∧ s'.aq = s.aq.eraseP (·.key = k) := by
  cases h with
  | writerLock | writerWrite | writerAdvance | writerUnlock | readerLock | readerUnlock | readerSend => exact .inl rfl
  | @readerReceive k g m hi' =>
    obtain rfl : t = .reader k g .locked := Option.some.inj (hi.symm.trans hi')
    exact .inr ⟨k, rfl, rfl⟩

/-- A thread leaves all files alone but its own. -/
theorem Orderly.move_spares {i : Nat} {t : Thread} (h : s.Orderly) (hm : Move s i s') (hi : s.threads[i]? = some t)
    (ht : t.fd ≠ fd) (hpos : 0 < fd) : Spares fd s s' := by
  constructor
  · obtain ⟨t', hi', -, hother⟩ := hm.view
    obtain rfl : t = t' := Option.some.inj (hi.symm.trans hi')
    exact hother fd ht.symm
  · rcases hm.aq_eq hi with haq | ⟨k, hk, haq⟩
    · rw [requests, haq, requests]
    · have hfd := h.readers t (List.mem_of_getElem? hi) k t.fd _ hk
      rw [requests, haq, filter_eraseP (hfd ▸ ht), requests]
  · obtain ⟨l, htrace, hl⟩ := hm.trace_eq hi
    refine history_append htrace fun o ho => ?_
    rcases hl o ho with ⟨data, rfl⟩ | ⟨k, c, rfl⟩
    · refine decide_eq_false fun heq => ?_
      rcases h.names t.fd with hname | hname
      · exact ht (hname.symm.trans heq)
      · omega
    · rfl
  · rw [hm.pc_eq]
    exact id

end Server

end Libibtl.Ibio
