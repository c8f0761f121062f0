import Libibtl.Foundation.Path
import Libibtl.Foundation.Mutex
import Libibtl.Ibio.ServerSteps

/-! # How many threads a read request gets

A probe leaves the request in `aq`, and the thread that it starts receives the request
later. Between the two the main loop may probe the same request again. The threads of
a source and tag that still have to receive, compared with the requests that are still
queued, tell whether it did.
-/

namespace Libibtl.Ibio

open Foundation

/-- The key of read requests. -/
def Key.Reads (k : Key) : Prop := (deserializeTag k.2).1 = opRead

namespace Thread

def isReader : Thread → Bool
  | .reader .. => true
  | .writer .. => false

/-- The key of the probed message, for a reader. -/
def key? : Thread → Option Key
  | .reader k _ _ => some k
  | .writer .. => none

/-- A thread that was started for `k`. -/
def reads (k : Key) (t : Thread) : Bool := t.key? = some k

/-- A thread that was started for `k` and has not received a request. -/
def awaits (k : Key) : Thread → Bool
  | .reader k' _ .start | .reader k' _ .locked => k' = k
  | _ => false

end Thread

namespace Server

def started (s : Server) (k : Key) : Nat := s.threads.countP (Thread.reads k)

def unserved (s : Server) (k : Key) : Nat := s.threads.countP (Thread.awaits k)

def queued (s : Server) (k : Key) : Nat := s.aq.countP (·.key = k)

def requested (s : Server) (k : Key) : Nat := s.arrived.countP (·.key = k)

/-- At most one thread for every read request, and no thread that has the mutex waits for a request that is not there. -/
structure OneHandler (s : Server) : Prop where
  each : ∀ k, s.started k ≤ s.requested k
  total : s.threads.countP Thread.isReader ≤ s.arrived.countP (·.op = opRead)
  served : ∀ (i : Nat) (k : Key) (fd : Nat), s.threads[i]? = some (.reader k fd .locked) →
    (s.aq.find? (·.key = k)).isSome

/-- When the main loop probes a read request, it is not the case that all queued requests of this source and tag have
a thread already. -/
def Calm (s : Server) : ServerEvent → Prop
  | .turn _ => s.pc = .probe → ∀ m aq, s.aq = m :: aq → m.op = opRead → s.unserved m.key < s.queued m.key
  | _ => True

/-- Threads started and requests queued against requests arrived and threads that wait. -/
structure Balanced (s : Server) : Prop where
  counts : ∀ k : Key, k.Reads → s.started k + s.queued k = s.requested k + s.unserved k
  keys : ∀ k : Key, ¬ k.Reads → s.started k = 0
  main : ∀ k fd w, s.pc = .swrite k fd w → ¬ k.Reads

variable {s s' : Server}

/-! ## Balance -/

/-- The four counts after a step that takes no read request and starts no reader. -/
theorem Balanced.of_counts (h : s.Balanced) (hs : ∀ k, s'.started k = s.started k)
    (hu : ∀ k, s'.unserved k = s.unserved k) (hq : ∀ k : Key, k.Reads → s'.queued k = s.queued k)
    (hr : s'.requested = s.requested) (hmain : ∀ k fd w, s'.pc = .swrite k fd w → ¬ k.Reads) : s'.Balanced where
  counts k hk := by rw [hs, hu, hq k hk, hr, h.counts k hk]
  keys k hk := by rw [hs, h.keys k hk]
  main := hmain

theorem queued_tail {m : Message} {aq : List Message} (haq : s.aq = m :: aq) (hop : m.op ≠ opRead) {k : Key}
    (hk : k.Reads) : aq.countP (·.key = k) = s.queued k := by
  have hne : ¬ m.key = k := by
    rintro rfl
    exact hop hk
  rw [queued, haq, List.countP_cons_of_neg (by simpa using hne)]

theorem Balanced.not_swrite (h : s.pc = .probe) : ∀ k fd w, s.pc = .swrite k fd w → ¬ k.Reads := by
  intro k fd w hpc
  rw [h] at hpc
  cases hpc

theorem Balanced.turn (h : s.Balanced) {env : Env} (ht : Turn s env s') : s'.Balanced := by
  cases ht with
  | sopen hpc haq hop _ _ =>
    refine h.of_counts (fun _ => rfl) (fun _ => rfl) (fun k hk => queued_tail haq ?_ hk) rfl (Balanced.not_swrite hpc)
    rw [hop]
    decide
  | @swrite m aq hpc haq hop =>
    have hne : m.op ≠ opRead := by
      rw [hop]
      decide
    refine h.of_counts (fun _ => rfl) (fun _ => rfl) (fun k hk => queued_tail haq hne hk) rfl ?_
    intro k fd w hpc'
    cases hpc'
    exact hne
  | swriteBegin hpc haq hop =>
    refine h.of_counts (fun _ => rfl) (fun _ => rfl) (fun k hk => queued_tail haq ?_ hk) rfl (Balanced.not_swrite hpc)
    rw [hop]
    decide
  | @swriteChunk m aq hpc haq hop =>
    refine h.of_counts (fun k => ?_) (fun k => ?_) (fun k hk => queued_tail haq ?_ hk) rfl ?_
    · exact countP_concat _ _ _
    · exact countP_concat _ _ _
    · rw [hop]
      decide
    · intro k fd w hpc'
      simp only [Server.swriteChunk, goto] at hpc'
      split at hpc' <;> cases hpc'
  | @sread m aq hpc haq hop =>
    have hstart : ∀ k, (s.runThread (.reader m.key m.fd .start)).started k = s.started k + (decide (m.key = k)).toNat := by
      intro k
      refine (countP_concat _ _ _).trans ?_
      simp [Thread.reads, Thread.key?, started]
    have hwait : ∀ k, (s.runThread (.reader m.key m.fd .start)).unserved k =
        s.unserved k + (decide (m.key = k)).toNat := fun k => countP_concat _ _ _
    refine ⟨fun k hk => ?_, fun k hk => ?_, h.main⟩
    · have hcounts := h.counts k hk
      rw [hstart, hwait]
      show _ + s.queued k = s.requested k + _
      omega
    · have hne : ¬ m.key = k := fun heq => hk (heq ▸ hop)
      rw [hstart, h.keys k hk]
      simp [hne]
  | @sclose m aq hpc haq hop =>
    refine h.of_counts (fun k => ?_) (fun k => ?_) (fun k hk => ?_) ?_ (Balanced.not_swrite (by simpa using hpc))
    · simp [started]
    · simp [unserved]
    · refine Eq.trans ?_ (queued_tail haq (by rw [hop]; decide) hk)
      simp [queued]
    · funext k
      simp [requested]
  | noop => exact h
  | @swriteTurn k fd w m hpc hlt hm =>
    refine h.of_counts (fun _ => rfl) (fun _ => rfl) (fun k' hk' => ?_) rfl ?_
    · have herase := countP_eraseP_add (p := fun m => decide (m.key = k')) hm
      have hne : ¬ m.key = k' := by
        intro heq
        have hkey : m.key = k := by simpa using List.find?_some hm
        exact h.main k fd w hpc (hkey ▸ heq ▸ hk')
      simp only [hne, decide_false, Bool.toNat_false, Nat.add_zero] at herase
      exact herase
    · intro k' fd' w' hpc'
      cases hpc'
      exact h.main k fd w hpc
  | swriteEnd hpc hlt => exact h.of_counts (fun _ => rfl) (fun _ => rfl) (fun _ _ => rfl) rfl (Balanced.not_swrite rfl)
  | complete hpc hcount =>
    exact h.of_counts (fun _ => rfl) (fun _ => rfl) (fun _ _ => rfl) rfl (Balanced.not_swrite rfl)

theorem Balanced.of_set (h : s.Balanced) {i : Nat} {t t' : Thread} (hi : s.threads[i]? = some t)
    (hthreads : s'.threads = s.threads.set i t') (hkey : t'.key? = t.key?) (hwait : ∀ k, t'.awaits k = t.awaits k)
    (haq : s'.aq = s.aq) (hr : s'.arrived = s.arrived) (hpc : s'.pc = s.pc) : s'.Balanced := by
  refine h.of_counts (fun k => ?_) (fun k => ?_) (fun k _ => ?_) ?_ ?_
  · rw [started, hthreads]
    exact countP_set_of_eq hi (by rw [Thread.reads, hkey, Thread.reads])
  · rw [unserved, hthreads]
    exact countP_set_of_eq hi (hwait k)
  · rw [queued, haq, queued]
  · funext k
    rw [requested, hr, requested]
  · rw [hpc]
    exact h.main

/-- The counts after a receive: the thread does not wait any more, and its request is not queued any more. -/
theorem Balanced.of_receive (h : s.Balanced) {i fd : Nat} {k : Key} {r : ReadLocals} {m : Message}
    (hi : s.threads[i]? = some (.reader k fd .locked))
    (hthreads : s'.threads = s.threads.set i (.reader k fd (.sending r))) (hm : s.aq.find? (·.key = k) = some m)
    (haq : s'.aq = s.aq.eraseP (·.key = k)) (hr : s'.arrived = s.arrived) (hpc : s'.pc = s.pc) : s'.Balanced := by
  have hkey : m.key = k := by simpa using List.find?_some hm
  have hstart : ∀ k', s'.started k' = s.started k' := by
    intro k'
    rw [started, hthreads]
    exact countP_set_of_eq hi rfl
  refine ⟨fun k' hk' => ?_, fun k' hk' => ?_, ?_⟩
  · have hcounts := h.counts k' hk'
    have herase := countP_eraseP_add (p := fun m => decide (m.key = k')) hm
    have hwait := countP_set_add (p := Thread.awaits k') (u := .reader k fd (.sending r)) hi
    rw [hkey] at herase
    simp only [Thread.awaits, Bool.toNat_false, Nat.add_zero] at hwait
    rw [hstart, queued, haq, requested, hr, unserved, hthreads]
    rw [queued, requested, unserved] at hcounts
    omega
  · rw [hstart, h.keys k' hk']
  · rw [hpc]
    exact h.main

theorem Balanced.move (h : s.Balanced) {i : Nat} (hm : Move s i s') : s'.Balanced := by
  cases hm with
  | writerLock hi _ => exact h.of_set hi rfl rfl (fun _ => rfl) rfl rfl rfl
  | writerWrite hi => exact h.of_set hi rfl rfl (fun _ => rfl) rfl rfl rfl
  | writerAdvance hi => exact h.of_set hi rfl rfl (fun _ => rfl) rfl rfl rfl
  | writerUnlock hi => exact h.of_set hi rfl rfl (fun _ => rfl) rfl rfl rfl
  | readerLock hi _ => exact h.of_set hi rfl rfl (fun _ => rfl) rfl rfl rfl
  | readerReceive hi hm => exact h.of_receive hi rfl hm rfl rfl rfl
  | readerSend hi _ => exact h.of_set hi rfl rfl (fun _ => rfl) rfl rfl rfl
  | readerUnlock hi _ => exact h.of_set hi rfl rfl (fun _ => rfl) rfl rfl rfl

theorem Balanced.step (h : s.Balanced) {e : ServerEvent} (hstep : s.step e = some s') : s'.Balanced := by
  cases e with
  | arrive m =>
    obtain rfl := Option.some.inj hstep
    refine ⟨fun k hk => ?_, h.keys, h.main⟩
    have hcounts := h.counts k hk
    simp only [started, queued, requested, unserved, countP_concat] at hcounts ⊢
    omega
  | turn env => exact h.turn (turn_cases hstep)
  | thread i => exact h.move (threadStep_cases hstep)

theorem balanced_init : init.Balanced := ⟨fun _ _ => rfl, fun _ _ => rfl, fun _ _ _ h => nomatch h⟩

/-! ## One thread for every request -/

/-- All threads that still have to receive have a request. -/
def Served (s : Server) : Prop := ∀ k : Key, k.Reads → s.unserved k ≤ s.queued k

theorem Balanced.started_le_iff (h : s.Balanced) {k : Key} (hk : k.Reads) :
    s.started k ≤ s.requested k ↔ s.unserved k ≤ s.queued k := by
  have hcounts := h.counts k hk
  omega

theorem Balanced.started_le (h : s.Balanced) (hs : s.Served) (k : Key) : s.started k ≤ s.requested k := by
  by_cases hk : k.Reads
  · exact (h.started_le_iff hk).2 (hs k hk)
  · rw [h.keys k hk]
    exact Nat.zero_le _

theorem countP_isReader (l : List Thread) : l.countP Thread.isReader = (l.filterMap Thread.key?).length := by
  rw [List.length_filterMap_eq_countP]
  refine List.countP_congr fun t _ => ?_
  cases t <;> simp [Thread.isReader, Thread.key?]

theorem count_keys (l : List Thread) (k : Key) : (l.filterMap Thread.key?).count k = l.countP (Thread.reads k) := by
  rw [List.count, List.countP_filterMap]
  refine List.countP_congr fun t _ => ?_
  cases t <;> simp [Thread.reads, Thread.key?]

/-- A bound for every key is a bound for the sum over all keys. -/
theorem Balanced.total_le (h : s.Balanced) (hle : ∀ k, s.started k ≤ s.requested k) :
    s.threads.countP Thread.isReader ≤ s.arrived.countP (·.op = opRead) := by
  have hsub : (s.threads.filterMap Thread.key?).Subperm ((s.arrived.filter (·.op = opRead)).map Message.key) := by
    refine List.subperm_ext_iff.mpr fun k _ => ?_
    rw [count_keys]
    by_cases hk : k.Reads
    · refine (hle k).trans (le_of_eq ?_)
      rw [requested, List.count, List.countP_map, List.countP_filter]
      refine List.countP_congr fun m _ => ?_
      have hread : m.key = k → m.op = opRead := by
        rintro rfl
        exact hk
      simpa using hread
    · exact (h.keys k hk).trans_le (Nat.zero_le _)
  calc s.threads.countP Thread.isReader = (s.threads.filterMap Thread.key?).length := countP_isReader _
    _ ≤ ((s.arrived.filter (·.op = opRead)).map Message.key).length := hsub.length_le
    _ = s.arrived.countP (·.op = opRead) := by rw [List.length_map, List.countP_eq_length_filter]

theorem Balanced.find?_isSome (h : s.Balanced) (hs : s.Served) {i : Nat} {k : Key} {fd : Nat}
    (hi : s.threads[i]? = some (.reader k fd .locked)) : (s.aq.find? (·.key = k)).isSome := by
  have hmem : Thread.reader k fd .locked ∈ s.threads := List.mem_of_getElem? hi
  have hstarted : 0 < s.started k := List.countP_pos_iff.mpr ⟨_, hmem, by simp [Thread.reads, Thread.key?]⟩
  have hk : k.Reads := by
    by_contra hk
    have hzero := h.keys k hk
    omega
  have hpos : 0 < s.unserved k := List.countP_pos_iff.mpr ⟨_, hmem, by simp [Thread.awaits]⟩
  obtain ⟨m, hm, hkey⟩ := List.countP_pos_iff.mp (hpos.trans_le (hs k hk))
  exact List.find?_isSome.mpr ⟨m, hm, hkey⟩

theorem Balanced.oneHandler_iff (h : s.Balanced) : s.OneHandler ↔ s.Served := by
  constructor
  · exact fun hone k hk => (h.started_le_iff hk).1 (hone.each k)
  · intro hs
    have hle := h.started_le hs
    exact ⟨hle, h.total_le hle, fun _ _ _ hi => h.find?_isSome hs hi⟩

/-! ## Steps and runs -/

/-- A probe of another request, or a turn inside of a handler. -/
theorem calm_of_not_read {m : Message} {aq : List Message} {env : Env} (haq : s.aq = m :: aq) (hop : m.op ≠ opRead) :
    s.Calm (.turn env) := by
  intro _ m' aq' haq' hop'
  rw [haq] at haq'
  cases haq'
  exact absurd hop' hop

theorem calm_of_not_probe {env : Env} (hpc : s.pc ≠ .probe) : s.Calm (.turn env) := fun h => absurd h hpc

theorem turn_started {env : Env} (ht : Turn s env s') :
    (∃ m aq, s.pc = .probe ∧ s.aq = m :: aq ∧ m.op = opRead ∧ s' = s.runThread (.reader m.key m.fd .start)) ∨
      ((∀ k, s'.started k = s.started k) ∧ s'.arrived = s.arrived ∧ s.Calm (.turn env)) := by
  cases ht with
  | sopen hpc haq hop _ _ => exact .inr ⟨fun _ => rfl, rfl, calm_of_not_read haq (by rw [hop]; decide)⟩
  | swrite hpc haq hop => exact .inr ⟨fun _ => rfl, rfl, calm_of_not_read haq (by rw [hop]; decide)⟩
  | swriteBegin hpc haq hop => exact .inr ⟨fun _ => rfl, rfl, calm_of_not_read haq (by rw [hop]; decide)⟩
  | swriteChunk hpc haq hop =>
    exact .inr ⟨fun _ => countP_concat _ _ _, rfl, calm_of_not_read haq (by rw [hop]; decide)⟩
  | sread hpc haq hop => exact .inl ⟨_, _, hpc, haq, hop, rfl⟩
  | sclose hpc haq hop =>
    exact .inr ⟨fun _ => by simp [started], sclose_arrived _, calm_of_not_read haq (by rw [hop]; decide)⟩
  | noop hpc haq hop =>
    refine .inr ⟨fun _ => rfl, rfl, calm_of_not_read haq fun hread => hop ?_⟩
    simp [hread]
  | swriteTurn hpc hlt hm => exact .inr ⟨fun _ => rfl, rfl, calm_of_not_probe (by rw [hpc]; exact nofun)⟩
  | swriteEnd hpc hlt => exact .inr ⟨fun _ => rfl, rfl, calm_of_not_probe (by rw [hpc]; exact nofun)⟩
  | complete hpc hcount => exact .inr ⟨fun _ => rfl, rfl, calm_of_not_probe (by rw [hpc]; exact nofun)⟩

theorem move_started {i : Nat} (hm : Move s i s') : (∀ k, s'.started k = s.started k) ∧ s'.arrived = s.arrived := by
  cases hm with
  | writerLock hi _ => exact ⟨fun _ => countP_set_of_eq hi rfl, rfl⟩
  | writerWrite hi => exact ⟨fun _ => countP_set_of_eq hi rfl, rfl⟩
  | writerAdvance hi => exact ⟨fun _ => countP_set_of_eq hi rfl, rfl⟩
  | writerUnlock hi => exact ⟨fun _ => countP_set_of_eq hi rfl, rfl⟩
  | readerLock hi _ => exact ⟨fun _ => countP_set_of_eq hi rfl, rfl⟩
  | readerReceive hi _ => exact ⟨fun _ => countP_set_of_eq hi rfl, rfl⟩
  | readerSend hi _ => exact ⟨fun _ => countP_set_of_eq hi rfl, rfl⟩
  | readerUnlock hi _ => exact ⟨fun _ => countP_set_of_eq hi rfl, rfl⟩

theorem Balanced.served_of_started (h : s.Balanced) (hs : s.Served) (h' : s'.Balanced)
    (hstarted : ∀ k, s'.started k = s.started k) (hrequested : ∀ k, s.requested k ≤ s'.requested k) : s'.Served := by
  intro k hk
  rw [← h'.started_le_iff hk, hstarted]
  exact (h.started_le hs k).trans (hrequested k)

/-- A probed read keeps one thread for every request exactly when a request of its key has none yet. -/
theorem served_sread (hs : s.Served) {m : Message} (hop : m.op = opRead) :
    (s.runThread (.reader m.key m.fd .start)).Served ↔ s.unserved m.key < s.queued m.key := by
  have hwait : ∀ k, (s.runThread (.reader m.key m.fd .start)).unserved k =
      s.unserved k + (decide (m.key = k)).toNat := fun k => countP_concat _ _ _
  constructor
  · intro h
    have hle := h m.key hop
    rw [hwait, decide_eq_true rfl] at hle
    exact hle
  · intro hlt k hk
    rw [hwait]
    by_cases heq : m.key = k
    · subst heq
      rw [decide_eq_true rfl]
      exact hlt
    · rw [decide_eq_false heq]
      exact hs k hk

theorem Balanced.served_step (h : s.Balanced) (hs : s.Served) {e : ServerEvent} (hstep : s.step e = some s') :
    s'.Served ↔ s.Calm e := by
  have h' := h.step hstep
  cases e with
  | arrive m =>
    refine ⟨fun _ => trivial, fun _ => ?_⟩
    obtain rfl := Option.some.inj hstep
    refine h.served_of_started hs h' (fun _ => rfl) fun k => ?_
    exact (List.sublist_append_left _ _).countP_le
  | turn env =>
    obtain ⟨m, aq, hpc, haq, hop, rfl⟩ | ⟨hstarted, harrived, hcalm⟩ := turn_started (turn_cases hstep)
    · rw [served_sread hs hop]
      constructor
      · intro hlt _ m' aq' haq' _
        rw [haq] at haq'
        cases haq'
        exact hlt
      · exact fun hcalm => hcalm hpc m aq haq hop
    · refine ⟨fun _ => hcalm, fun _ => h.served_of_started hs h' hstarted fun k => ?_⟩
      rw [requested, requested, harrived]
  | thread i =>
    obtain ⟨hstarted, harrived⟩ := move_started (threadStep_cases hstep)
    refine ⟨fun _ => trivial, fun _ => h.served_of_started hs h' hstarted fun k => ?_⟩
    rw [requested, requested, harrived]

end Server

/-- The runs in which every read request gets at most one thread are those in which no probe finds a read request
while all queued requests of its source and tag have a thread. -/
theorem reads_handled_iff (es : List ServerEvent) (s : Server) :
    Path Server.step (fun s _ => s.OneHandler) .init es s ∧ s.OneHandler ↔ Path Server.step Server.Calm .init es s :=
  Path.always_iff (fun _ _ _ hb h => hb.step h)
    (fun _ _ _ hb hs h => (hb.step h).oneHandler_iff.trans (hb.served_step (hb.oneHandler_iff.1 hs) h))
    Server.balanced_init (Server.balanced_init.oneHandler_iff.2 fun _ _ => Nat.le_refl 0)

/-- What the outside gives in the run below: `open` returns the descriptor 3. -/
def Env.three : Env := ⟨3, [], fun _ => 0, 0, 0, fun _ => 0, fun _ => false⟩

/-- A client opens a file and reads from it once, and the read is probed twice. -/
def probedTwice : List ServerEvent :=
  [.arrive ⟨7, serializeTag opOpen 0, 0, ⟨0, fun _ => 0⟩⟩, .turn .three,
    .arrive ⟨7, serializeTag opRead 3, 0, ⟨0, fun _ => 0⟩⟩, .turn .three, .turn .three,
    .thread 0, .thread 0, .thread 0, .thread 1]

/-- When the first thread has served the read, the second one has the mutex and waits for a request that nobody sent. -/
theorem read_handled_twice : ∃ s, Path Server.step (fun _ _ => True) .init probedTwice s ∧
    s.threads.countP Thread.isReader = 2 ∧ s.arrived.countP (·.op = opRead) = 1 ∧
    s.threads[1]? = some (.reader (7, serializeTag opRead 3) 3 .locked) ∧ s.aq.length = 0 ∧
    (s.entry 3).fastmutex = true := by
  obtain ⟨s, h, hs⟩ := exists_path_of_runWhile Server.step (fun _ _ => True) .init probedTwice
    (fun s => decide (s.threads.countP Thread.isReader = 2 ∧ s.arrived.countP (·.op = opRead) = 1 ∧
      s.threads[1]? = some (Thread.reader (7, serializeTag opRead 3) 3 .locked) ∧ s.aq.length = 0 ∧
      (s.entry 3).fastmutex = true)) (by decide +kernel)
  exact ⟨s, h, of_decide_eq_true hs⟩

end Libibtl.Ibio
