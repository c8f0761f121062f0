import Libibtl.Pgz.PipelineWorkers

/-! # The main thread and the buffers

The buffers that the main thread writes to have no other reference, so that it makes the
jobs of `feed` whatever the other threads do. It waits only for an input buffer, for the
write thread and for the compress threads.
-/

namespace Libibtl.Pgz

open Foundation

/-! ## The parts of a turn -/

section Turns

variable {P : Program} {o : Options} {plan : List Job} {addr : List Byte} {f f' : Feed} {job : Job}

theorem turn_parts (h : turn o addr f = some (job, f')) :
    ∃ c dict, f.cut o f.next (f.following o addr).1 = some c ∧
      nextDict o (c.next.length ≠ 0) c.input f.dict = some dict ∧
      job = ⟨f.seq, c.next.length ≠ 0, c.input, f.dict, c.lens⟩ ∧
      f' = ⟨(f.following o addr).2, f.seq + 1, c.next, c.hold, dict, c.scan, c.hash, c.left⟩ := by
  rw [turn] at h
  split at h
  · cases h
  · next c hc =>
    dsimp only at h
    split at h
    · cases h
    · next dict hdict =>
      cases h
      exact ⟨c, dict, hc, hdict, rfl, rfl⟩

/-- What is left to make begins with the job of the next turn. -/
theorem Feeding.turn (ho : o.Ok) (h : Feeding plan o addr f) : ∃ f' job, Turn plan o addr f f' job := by
  obtain ⟨n, pre, hfed, hnext, hloop⟩ := h
  obtain ⟨job, f', hturn, -, -, hseq, hmore, hlast⟩ := turn_spec ho hfed hnext
  cases n with
  | zero => cases hloop
  | succ n =>
    rw [feedLoop, hturn] at hloop
    dsimp only at hloop
    have hdrop : ∀ {rest}, plan.drop f.seq = job :: rest → plan[f.seq]? = some job ∧ rest = plan.drop (f.seq + 1) := by
      intro rest hrest
      constructor
      · rw [← List.head?_drop, hrest]
        rfl
      · rw [← List.tail_drop, hrest]
        rfl
    cases hm : job.more with
    | true =>
      rw [hm, if_pos rfl] at hloop
      obtain ⟨rest, hrest, hcons⟩ := Option.map_eq_some_iff.1 hloop
      obtain ⟨hplanned, htail⟩ := hdrop hcons.symm
      obtain ⟨hnext', -, hfed'⟩ := hmore hm
      refine ⟨f', job, hturn, hplanned, fun _ => ⟨n, _, hfed', fun _ => hnext', ?_⟩, fun hf => ?_⟩
      · rw [hseq, ← htail, hrest]
      · rw [hm] at hf
        cases hf
    | false =>
      rw [hm, if_neg Bool.false_ne_true] at hloop
      have hcons := Option.some.inj hloop
      obtain ⟨hplanned, htail⟩ := hdrop hcons.symm
      refine ⟨f', job, hturn, hplanned, fun hf => ?_, fun _ => ⟨?_, (hlast hm).2⟩⟩
      · rw [hm] at hf
        cases hf
      · have hlt := (List.getElem?_eq_some_iff.1 hplanned).1
        have hle := List.drop_eq_nil_iff.1 htail.symm
        omega

theorem cut_congr {g : Feed} (hscan : f.scan = g.scan) (hhash : f.hash = g.hash) (hleft : f.left = g.left)
    (curr next : List Byte) : f.cut o curr next = g.cut o curr next := by
  simp only [Feed.cut, cutBlocks, scanCurr, hscan, hhash, hleft]

theorem cutAt_hold_or (curr next : List Byte) (s : Scan) (lens : List Byte) :
    (cutAt curr next s lens).hold = none ∨ (cutAt curr next s lens).hold = some next := by
  rw [cutAt]
  generalize (if lens.length = 1 then s.scan else s.last) = len
  split
  · exact .inl rfl
  · split
    · exact .inr rfl
    · exact .inl rfl

/-- What is held back is the buffer that follows. -/
theorem cut_hold {c : Cut} {curr next : List Byte} (h : f.cut o curr next = some c) : c.hold = none ∨ c.hold = some next := by
  rw [Feed.cut] at h
  split at h
  · rw [cutBlocks] at h
    split at h
    · cases h
    · split at h
      · cases h
        exact cutAt_hold_or _ _ _ _
      · cases h
  · cases h
    exact .inl rfl

end Turns

section Main

variable {P : Program} {plan : List Job} {addr : List Byte} {σ : State P.codec.Stream} {v : Vars} {curr : Space}
  {lens : Option Space} {cell : JobCell}

theorem Memory.withMain (h : Memory P plan addr σ) {m : Main} {heap : Spaces}
    (hheld : Held P.limit heap m.solo (m.shared ++ σ.others)) (hbuf : ∀ s ∈ σ.others, heap.buf s = σ.heap.buf s)
    (hm : m.Holds plan heap.buf P.opt addr) : Memory P plan addr { σ with heap := heap, main := m } :=
  ⟨hheld, h.contents.withMain hbuf hm⟩

/-- All input buffers are in use. -/
def Full (P : Program) (σ : State P.codec.Stream) : Prop :=
  inBufs P.procs ≤ (σ.refs.filter (·.pool = .inPool)).length

/-- A new buffer for the main thread alone. -/
theorem get_solo (h : Memory P plan addr σ) (p : PoolName) :
    (∃ s heap, getSpace σ.heap p = .done (s, heap) ∧ s ∉ σ.refs ∧
      Held P.limit heap (s :: σ.main.solo) (σ.main.shared ++ σ.others) ∧ ∀ t ∈ σ.refs, heap.buf t = σ.heap.buf t) ∨
    getSpace σ.heap p = .wait ∧ p = .inPool ∧ Full P σ := by
  rcases h.held.owned.get_or_full p with ⟨s, heap, hget⟩ | ⟨hwait, n, hn, hfull⟩
  · obtain ⟨hheld, hnot, hbuf⟩ := h.held.get hget
    refine .inl ⟨s, heap, hget, hnot, hheld.keep hnot, fun t ht => ?_⟩
    rw [hbuf, Function.update_of_ne (ne_of_mem_of_not_mem ht hnot)]
  · cases p with
    | inPool =>
      cases hn
      exact .inr ⟨hwait, rfl, hfull⟩
    | outPool => cases hn
    | dictPool => cases hn
    | lensPool => cases hn

theorem setBuf_of_not_mem {heap : Spaces} {l : List Space} {s : Space} (hnot : s ∉ l)
    (hbuf : ∀ t ∈ l, heap.buf t = σ.heap.buf t) (bs : List Byte) : ∀ t ∈ l, (heap.setBuf s bs).buf t = σ.heap.buf t := by
  intro t ht
  rw [Spaces.setBuf_of_ne (ne_of_mem_of_not_mem ht hnot), hbuf t ht]

/-- A buffer from a pool without a limit. -/
theorem get_shared (h : Memory P plan addr σ) {p : PoolName} (hp : P.limit p = none) (bs : List Byte) :
    ∃ s heap, getSpace σ.heap p = .done (s, heap) ∧
      Held P.limit (heap.setBuf s bs) σ.main.solo (s :: (σ.main.shared ++ σ.others)) ∧
        (∀ t ∈ σ.refs, heap.buf t = σ.heap.buf t) ∧ ∀ t ∈ σ.refs, (heap.setBuf s bs).buf t = σ.heap.buf t := by
  rcases h.held.owned.get_or_full p with ⟨s, heap, hget⟩ | ⟨-, n, hn, -⟩
  · obtain ⟨hheld, hnot, hbuf⟩ := h.held.get hget
    have hold : ∀ t ∈ σ.refs, heap.buf t = σ.heap.buf t := fun t ht => by
      rw [hbuf, Function.update_of_ne (ne_of_mem_of_not_mem ht hnot)]
    exact ⟨s, heap, hget, hheld.setBuf s bs, hold, setBuf_of_not_mem hnot hold bs⟩
  · rw [hp] at hn
    cases hn

theorem main_start (hp : Planned P addr plan) (h : Memory P plan addr σ) (hmain : σ.main = .start) :
    (∃ σ', σ.mainStep P addr = .done σ' ∧ Memory P plan addr σ') ∨ σ.mainStep P addr = .wait ∧ Full P σ := by
  simp only [State.mainStep, hmain, withSpace]
  rcases get_solo h .inPool with ⟨s, heap, hget, hnot, hheld, hbuf⟩ | ⟨hget, -, hfull⟩
  · left
    simp only [hget]
    refine ⟨_, rfl, h.withMain ?_ (fun t ht => ?_) ?_⟩
    · rw [hmain] at hheld
      exact hheld.setBuf s _
    · exact setBuf_of_not_mem hnot hbuf _ t (List.mem_append_right _ (List.mem_append_right _ ht))
    · refine ⟨addr.length + 1, [], ?_, fun hne => absurd rfl hne, ?_⟩
      · rw [Vars.feed, Spaces.setBuf_self]
        exact Fed.init P.opt addr
      · rw [Vars.feed, Spaces.setBuf_self]
        exact hp.feed
  · right
    simp only [hget]
    exact ⟨trivial, hfull⟩

theorem main_top (hp : Planned P addr plan) (h : Memory P plan addr σ) (hmain : σ.main = .top v) :
    (∃ σ', σ.mainStep P addr = .done σ' ∧ Memory P plan addr σ') ∨ σ.mainStep P addr = .wait ∧ Full P σ := by
  have hholds := h.contents.main
  rw [hmain] at hholds
  obtain ⟨f', job, hturn⟩ := hholds.turn hp.ok
  have hheld := h.held
  rw [hmain] at hheld
  simp only [State.mainStep, hmain]
  cases hhold : v.hold with
  | some hold =>
    left
    refine ⟨_, rfl, h.withMain ?_ (fun _ _ => rfl) ?_⟩
    · simpa [Main.solo, Main.shared, hhold] using hheld
    · refine ⟨v.feed σ.heap.buf, f', job, hturn, rfl, rfl, rfl, ?_, rfl, rfl, rfl, rfl⟩
      simp only [Feed.following, Vars.feed, hhold, Option.map_some]
  | none =>
    rcases get_solo h .inPool with ⟨s, heap, hget, hnot, hheld', hbuf⟩ | ⟨hget, -, hfull⟩
    · left
      simp only [withSpace, hget]
      have hnext : v.next ∈ σ.refs := by
        rw [State.refs, hmain]
        exact List.mem_cons_self
      have hsame := setBuf_of_not_mem hnot hbuf (readn2 addr v.offset P.opt.size).1
      refine ⟨_, rfl, h.withMain ?_ (fun t ht => ?_) ?_⟩
      · rw [hmain] at hheld'
        apply (hheld'.setBuf s _).permSolo
        simp only [Main.solo, hhold]
        exact List.Perm.swap _ _ _
      · exact hsame t (List.mem_append_right _ (List.mem_append_right _ ht))
      · refine ⟨v.feed σ.heap.buf, f', job, hturn, rfl, hsame _ hnext, ?_, ?_, rfl, rfl, rfl, rfl⟩
        · refine map_congr fun t ht => hsame t ?_
          rw [State.refs, hmain]
          exact List.mem_append_right _ (List.mem_append_left _ ht)
        · simp only [Feed.following, Vars.feed, hhold, Option.map_none, Spaces.setBuf_self]
    · right
      simp only [withSpace, hget]
      exact ⟨trivial, hfull⟩

theorem main_fed (h : Memory P plan addr σ) (hmain : σ.main = .fed v curr) :
    ∃ σ', σ.mainStep P addr = .done σ' ∧ Memory P plan addr σ' := by
  have hholds := h.contents.main
  rw [hmain] at hholds
  obtain ⟨f, f', job, hturn, hseq, hcurr, hdict, hfollow, hhold, hscan, hhash, hleft⟩ := hholds
  obtain ⟨c, dict, hcut, -, -, -⟩ := turn_parts hturn.turn
  have hheld := h.held
  rw [hmain] at hheld
  have hcut' : (σ.feedVars v curr).cut P.opt (σ.heap.buf curr) (σ.heap.buf v.next) = some c := by
    rw [hfollow] at hcut
    rw [← hcut, hcurr]
    exact cut_congr hscan hhash hleft _ _
  simp only [State.mainStep, hmain, hcut']
  cases hlens : c.lens with
  | none =>
    refine ⟨_, rfl, h.withMain ?_ (fun _ _ => rfl) ?_⟩
    · simpa [Main.solo, Main.shared] using hheld
    · exact ⟨f, f', job, hturn, hseq, hcurr, hdict, hfollow, hhold, hcut, hlens.symm⟩
  | some bs =>
    obtain ⟨lens, heap, hget, hheld', -, hsame⟩ := get_shared (p := .lensPool) h rfl bs
    have hmem : ∀ t ∈ curr :: v.next :: v.dict.toList, t ∈ σ.refs := by
      intro t ht
      rw [State.refs, hmain]
      simp only [Main.solo, Main.shared, List.mem_cons, List.mem_append] at ht ⊢
      rcases ht with rfl | rfl | ht
      · exact .inl (.inl rfl)
      · exact .inl (.inr (.inl rfl))
      · exact .inr (.inl ht)
    simp only [withSpace, hget]
    refine ⟨_, rfl, h.withMain ?_ (fun t ht => ?_) ?_⟩
    · rw [hmain] at hheld'
      apply hheld'.perm
      simp only [Main.shared, Option.toList_some, List.append_assoc, List.singleton_append]
      exact List.perm_middle
    · exact hsame t (List.mem_append_right _ (List.mem_append_right _ ht))
    · refine ⟨f, f', job, hturn, hseq, ?_, ?_, ?_, hhold, hcut, ?_⟩
      · exact (hsame curr (hmem curr List.mem_cons_self)).trans hcurr
      · refine (map_congr fun t ht => hsame t (hmem t ?_)).trans hdict
        exact List.mem_cons_of_mem _ (List.mem_cons_of_mem _ ht)
      · rwa [hsame v.next (hmem v.next (List.mem_cons_of_mem _ List.mem_cons_self))]
      · rw [hlens, Option.map_some, Spaces.setBuf_self]

/-- The main thread stores into buffers of its own. -/
theorem setBuf_same {heap : Spaces} {solo shared : List Space} (hh : Held P.limit heap solo shared) {s t : Space}
    (hs : s ∈ solo) (ht : t ∈ shared) (bs : List Byte) : (heap.setBuf s bs).buf t = heap.buf t :=
  Spaces.setBuf_of_ne fun heq => hh.apart s hs (heq ▸ ht)

theorem main_scanned (h : Memory P plan addr σ) {c : Cut} (hmain : σ.main = .scanned v curr c lens) :
    (∃ σ', σ.mainStep P addr = .done σ' ∧ Memory P plan addr σ') ∨ σ.mainStep P addr = .wait ∧ Full P σ := by
  have hholds := h.contents.main
  rw [hmain] at hholds
  obtain ⟨f, f', job, hturn, hseq, hcurr, hdict, hfollow, hhold, hcut, hlens⟩ := hholds
  obtain ⟨c', dict, hcut', -, hjob, hf'⟩ := turn_parts hturn.turn
  obtain rfl : c = c' := Option.some.inj (hcut.symm.trans hcut')
  have hheld := h.held
  rw [hmain] at hheld
  simp only [Main.solo, hhold, Option.toList_none] at hheld
  have hne : curr ≠ v.next := fun heq => by
    have := hheld.nodup
    simp [heq] at this
  simp only [State.mainStep, hmain]
  cases hheldBack : c.hold with
  | none =>
    left
    refine ⟨_, rfl, h.withMain ?_ (fun t ht => ?_) ?_⟩
    · have := (hheld.setBuf curr c.input).setBuf v.next c.next
      simpa [Main.solo, Main.shared, hhold] using this
    · rw [setBuf_same (hheld.setBuf curr c.input) (List.mem_cons_of_mem _ List.mem_cons_self) (List.mem_append_right _ ht),
        setBuf_same hheld List.mem_cons_self (List.mem_append_right _ ht)]
    · have hsame : ∀ t ∈ Main.shared (.scanned v curr c lens),
          ((σ.heap.setBuf curr c.input).setBuf v.next c.next).buf t = σ.heap.buf t := by
        intro t ht
        rw [setBuf_same (hheld.setBuf curr c.input) (List.mem_cons_of_mem _ List.mem_cons_self) (List.mem_append_left _ ht),
          setBuf_same hheld List.mem_cons_self (List.mem_append_left _ ht)]
      refine ⟨f, f', job, hturn, hseq, ?_, ?_, ?_, ?_, ?_, ?_, ?_, ?_, ?_⟩
      · rw [Spaces.setBuf_of_ne hne, Spaces.setBuf_self, hjob]
      · exact (map_congr fun t ht => hsame t (List.mem_append_left _ ht)).trans hdict
      · rw [map_congr fun t ht => hsame t (List.mem_append_right _ ht), hlens, hjob]
      · rw [Spaces.setBuf_self, hf']
      · rw [hf', hheldBack, hhold]
        rfl
      · rw [hf', hfollow]
      · rw [hf']
      · rw [hf']
      · rw [hf']
  | some held =>
    have hnext : held = σ.heap.buf v.next := by
      have := (cut_hold hcut).resolve_left (by rw [hheldBack]; exact Option.some_ne_none _)
      rw [hheldBack, hfollow] at this
      exact Option.some.inj this
    rcases get_solo h .inPool with ⟨s, heap, hget, hnot, hheld', hbuf⟩ | ⟨hget, -, hfull⟩
    · left
      rw [hmain] at hheld'
      simp only [Main.solo, hhold, Option.toList_none] at hheld'
      have hrefs : σ.refs = curr :: v.next :: (Main.shared (.scanned v curr c lens) ++ σ.others) := by
        rw [State.refs, hmain]
        simp only [Main.solo, hhold, Option.toList_none]
        rfl
      rw [hrefs] at hnot hbuf
      have hcurrS : curr ≠ s := ne_of_mem_of_not_mem List.mem_cons_self hnot
      have hsame : ∀ t ∈ v.next :: (Main.shared (.scanned v curr c lens) ++ σ.others),
          ((heap.setBuf curr c.input).setBuf s c.next).buf t = σ.heap.buf t := by
        intro t ht
        have hmem := List.mem_cons_of_mem curr ht
        have htc : t ≠ curr := by
          rintro rfl
          rcases List.mem_cons.1 ht with heq | ht
          · exact hne heq
          · exact hheld.apart t List.mem_cons_self ht
        rw [Spaces.setBuf_of_ne (ne_of_mem_of_not_mem hmem hnot), Spaces.setBuf_of_ne htc, hbuf t hmem]
      simp only [withSpace, hget]
      refine ⟨_, rfl, h.withMain ?_ (fun t ht => ?_) ?_⟩
      · apply ((hheld'.setBuf curr c.input).setBuf s c.next).permSolo
        simp only [Main.solo, Option.toList_some]
        exact List.Perm.swap _ _ _
      · exact hsame t (List.mem_cons_of_mem _ (List.mem_append_right _ ht))
      · have hshared : ∀ t ∈ Main.shared (.scanned v curr c lens),
            ((heap.setBuf curr c.input).setBuf s c.next).buf t = σ.heap.buf t :=
          fun t ht => hsame t (List.mem_cons_of_mem _ (List.mem_append_left _ ht))
        refine ⟨f, f', job, hturn, hseq, ?_, ?_, ?_, ?_, ?_, ?_, ?_, ?_, ?_⟩
        · rw [Spaces.setBuf_of_ne hcurrS, Spaces.setBuf_self, hjob]
        · exact (map_congr fun t ht => hshared t (List.mem_append_left _ ht)).trans hdict
        · rw [map_congr fun t ht => hshared t (List.mem_append_right _ ht), hlens, hjob]
        · rw [Spaces.setBuf_self, hf']
        · rw [hf', hheldBack, Option.map_some, hsame v.next List.mem_cons_self, hnext]
        · rw [hf', hfollow]
        · rw [hf']
        · rw [hf']
        · rw [hf']
    · right
      simp only [withSpace, hget]
      exact ⟨trivial, hfull⟩

theorem JobOk.dict_none {o : Options} {pre : List Byte} {job : Job} (h : JobOk o pre job) (hset : o.setdict = false) :
    job.dict = none := by
  by_cases hpre : pre = []
  · exact h.first hpre
  · have := h.later hpre
    rwa [if_neg (by rw [hset]; exact Bool.false_ne_true)] at this

/-- The main thread with a job ready to be posted, and `dict` for the next one. -/
theorem ready_holds {f f' : Feed} {job : Job} (heap : Spaces) (dict : Option Space)
    (hturn : Turn plan P.opt addr f f' job) (hseq : v.seq = f.seq) (hcurr : heap.buf curr = job.input)
    (hdict : v.dict.map heap.buf = job.dict) (hlens : lens.map heap.buf = job.lens) (hnext : heap.buf v.next = f'.next)
    (hhold : v.hold.map heap.buf = f'.hold) (hoffset : v.offset = f'.offset) (hscan : v.scan = f'.scan)
    (hhash : v.hash = f'.hash) (hleft : v.left = f'.left) (hdict' : job.more = true → dict.map heap.buf = f'.dict) :
    Main.Holds plan heap.buf P.opt addr (.ready { v with dict := dict } ⟨v.seq, job.more, curr, v.dict, lens⟩) := by
  have hseq' : f'.seq = f.seq + 1 := by
    obtain ⟨c, d, -, -, -, hf'⟩ := turn_parts hturn.turn
    rw [hf']
  refine ⟨f, f', job, hturn, hseq, hseq, ⟨?_, rfl, hcurr, hlens⟩, hdict, hhold, fun hmore => ?_⟩
  · rw [hseq]
    exact hturn.planned
  · simp only [Vars.feed, hnext, hhold, hdict' hmore, hoffset, hscan, hhash, hleft, hseq, ← hseq']

theorem main_filled (hp : Planned P addr plan) (h : Memory P plan addr σ) (hmain : σ.main = .filled v curr lens) :
    ∃ σ', σ.mainStep P addr = .done σ' ∧ Memory P plan addr σ' := by
  have hholds := h.contents.main
  rw [hmain] at hholds
  obtain ⟨f, f', job, hturn, hseq, hcurr, hdict, hlens, hnext, hhold, hoffset, hscan, hhash, hleft⟩ := hholds
  obtain ⟨c, dict, -, hnextDict, hjob, hf'⟩ := turn_parts hturn.turn
  have hinput : c.input = σ.heap.buf curr := by rw [hcurr, hjob]
  have hmore : job.more = decide ((σ.heap.buf v.next).length ≠ 0) := by rw [hnext, hf', hjob]
  have hmore' : decide (c.next.length ≠ 0) = job.more := by rw [hjob]
  have hdict' : f'.dict = dict := by rw [hf']
  have hjobDict : job.dict = f.dict := by rw [hjob]
  rw [hmore', hinput, ← hdict] at hnextDict
  have hheld := h.held
  rw [hmain] at hheld
  have hgive : Held P.limit σ.heap (v.next :: v.hold.toList)
      (curr :: (v.dict.toList ++ lens.toList ++ σ.others)) := by
    simpa [Main.solo, Main.shared] using hheld.give
  simp only [State.mainStep, hmain, ← hmore]
  cases hset : (job.more && P.opt.setdict) with
  | false =>
    rw [if_neg Bool.false_ne_true]
    refine ⟨_, rfl, h.withMain ?_ (fun _ _ => rfl) ?_⟩
    · apply hgive.perm
      have hnone : (if job.more = true then v.dict.toList else []) = [] := by
        split
        · next hm =>
          rw [hm, Bool.true_and] at hset
          have hjobNone := (hp.jobs hturn.planned).1.dict_none hset
          rw [hjobDict, ← hdict] at hjobNone
          rw [Option.map_eq_none_iff.1 hjobNone]
          rfl
        · rfl
      simp only [Main.shared, hnone, JobCell.refs]
      exact List.Perm.refl _
    · apply ready_holds _ v.dict hturn hseq hcurr (hdict.trans hjobDict.symm) hlens hnext hhold hoffset hscan hhash
        hleft
      intro _
      simp only [nextDict, hset, Bool.false_eq_true, if_false, Option.some.injEq] at hnextDict
      rw [hdict', ← hnextDict]
  | true =>
    rw [if_pos rfl]
    have hm : job.more = true := (Bool.and_eq_true_iff.1 hset).1
    have hshare : dict = some (σ.heap.buf curr) → Memory P plan addr { σ with
        heap := useSpace σ.heap curr
        main := .ready { v with dict := some curr } ⟨v.seq, job.more, curr, v.dict, lens⟩ } := by
      intro hd
      refine h.withMain ?_ (fun _ _ => rfl) ?_
      · apply (hgive.useSpace List.mem_cons_self).perm
        simp only [Main.shared, hm, if_true, JobCell.refs]
        exact List.Perm.refl _
      · exact ready_holds (useSpace σ.heap curr) _ hturn hseq hcurr (hdict.trans hjobDict.symm) hlens hnext hhold
          hoffset hscan hhash hleft fun _ => (hdict'.trans hd).symm
    simp only [nextDict, hset, if_true] at hnextDict
    cases hvd : v.dict with
    | none =>
      rw [hvd] at hshare hnextDict
      exact ⟨_, rfl, hshare (Option.some.inj hnextDict).symm⟩
    | some d =>
      rw [hvd] at hshare hnextDict
      dsimp only [Option.map_some] at hnextDict ⊢
      by_cases hlong : dictSize ≤ (σ.heap.buf curr).length
      · rw [if_pos hlong] at hnextDict ⊢
        exact ⟨_, rfl, hshare (Option.some.inj hnextDict).symm⟩
      · rw [if_neg hlong] at hnextDict ⊢
        split at hnextDict
        · next hlen =>
          obtain ⟨s, heap, hget, hheld', hold, hsame⟩ := get_shared (p := .dictPool) h rfl
            ((σ.heap.buf d).drop ((σ.heap.buf d).length - (dictSize - (σ.heap.buf curr).length)) ++ σ.heap.buf curr)
          have hrefs : σ.refs = curr :: v.next :: v.hold.toList ++ (d :: lens.toList ++ σ.others) := by
            rw [State.refs, hmain, Main.solo, Main.shared, hvd, List.append_assoc]
            rfl
          rw [hrefs] at hold hsame
          rw [hmain] at hheld'
          have hd : d ∈ curr :: v.next :: v.hold.toList ++ (d :: lens.toList ++ σ.others) :=
            List.mem_append_right _ List.mem_cons_self
          simp only [withSpace, hget, hold curr List.mem_cons_self, hold d hd, if_pos hlen]
          refine ⟨_, rfl, h.withMain ?_ (fun t ht => hsame t (List.mem_append_right _ (List.mem_append_right _ ht))) ?_⟩
          · apply hheld'.give.perm
            simp only [Main.shared, hm, if_true, JobCell.refs, hvd]
            exact List.Perm.swap _ _ _
          · have hshared : ∀ t ∈ d :: lens.toList, t ∈ curr :: v.next :: v.hold.toList ++ (d :: lens.toList ++ σ.others) :=
              fun t ht => List.mem_append_right _ (List.mem_append_left _ ht)
            rw [← hvd]
            apply ready_holds _ (some s) hturn hseq
            · exact (hsame curr List.mem_cons_self).trans hcurr
            · rw [hvd, Option.map_some, hsame d hd, hjobDict, ← hdict, hvd, Option.map_some]
            · exact (map_congr fun t ht => hsame t (hshared t (List.mem_cons_of_mem _ ht))).trans hlens
            · exact (hsame _ (List.mem_cons_of_mem _ List.mem_cons_self)).trans hnext
            · refine (map_congr fun t ht => hsame t ?_).trans hhold
              exact List.mem_append_left _ (List.mem_cons_of_mem _ (List.mem_cons_of_mem _ ht))
            · exact hoffset
            · exact hscan
            · exact hhash
            · exact hleft
            · intro _
              rw [hdict', ← Option.some.inj hnextDict, Option.map_some, Spaces.setBuf_self]
        · cases hnextDict

theorem launched {S : Type} (ws : List (Worker S)) (strm : S) {p : Prop} [Decidable p] :
    ∃ new, (if p then ws ++ [.idle strm] else ws) = ws ++ new ∧ ∀ w ∈ new, w = .idle strm := by
  split
  · exact ⟨[.idle strm], rfl, fun w hw => List.mem_singleton.1 hw⟩
  · exact ⟨[], (List.append_nil _).symm, fun w hw => absurd hw List.not_mem_nil⟩

theorem main_ready (h : Memory P plan addr σ) (hmain : σ.main = .ready v cell) :
    ∃ σ', σ.mainStep P addr = .done σ' ∧ Memory P plan addr σ' := by
  have hholds := h.contents.main
  rw [hmain] at hholds
  obtain ⟨f, f', job, hturn, hseq, hseq', hposted, hdict, hhold, hfeed⟩ := hholds
  have hheld := h.held
  rw [hmain] at hheld
  have hc := h.contents
  simp only [State.mainStep, hmain]
  obtain ⟨new, hnew, hidle⟩ := launched σ.workers P.codec.init
    (p := σ.cthreads < v.seq + 1 ∧ σ.cthreads < P.procs)
  rw [hnew]
  have hrefs : (σ.workers ++ new).flatMap Worker.refs = σ.workers.flatMap Worker.refs := by
    have hnone : new.flatMap Worker.refs = [] := List.flatMap_eq_nil_iff.2 fun w hw => by
      rw [hidle w hw]
      rfl
    rw [List.flatMap_append, hnone, List.append_nil]
  refine ⟨_, rfl, ?_, ?_, ?_, ?_, hc.write, hc.writer⟩
  · cases hmore : cell.more with
    | true =>
      rw [if_pos rfl]
      apply hheld.perm
      simp only [Main.shared, hmore, if_true, State.others, hrefs, List.flatMap_append, List.flatMap_singleton]
      rw [List.perm_iff_count]
      intro s
      simp only [List.count_append]
      omega
    | false =>
      rw [if_neg Bool.false_ne_true]
      have hnone : v.hold = none := by
        rw [(hturn.last (hposted.more.symm.trans hmore)).2] at hhold
        exact Option.map_eq_none_iff.1 hhold
      simp only [Main.solo, hnone, Option.toList_none] at hheld ⊢
      apply hheld.perm
      simp only [Main.shared, hmore, Bool.false_eq_true, if_false, State.others, hrefs, List.flatMap_append,
        List.flatMap_singleton, List.nil_append]
      rw [List.perm_iff_count]
      intro s
      simp only [List.count_append]
      omega
  · cases hmore : cell.more with
    | true =>
      rw [if_pos rfl]
      have := hturn.rest (hposted.more.symm.trans hmore)
      rwa [← hfeed hmore] at this
    | false => trivial
  · intro cell' hcell'
    rcases List.mem_append.1 hcell' with hcell' | hcell'
    · exact hc.compress cell' hcell'
    · rw [List.mem_singleton.1 hcell']
      exact ⟨job, hposted, hdict⟩
  · intro w hw
    rcases List.mem_append.1 hw with hw | hw
    · exact hc.workers w hw
    · rw [hidle w hw]
      trivial

theorem main_last {next : Space} (h : Memory P plan addr σ) (hmain : σ.main = .last next) :
    ∃ σ', σ.mainStep P addr = .done σ' ∧ Memory P plan addr σ' := by
  have hheld := h.held
  rw [hmain] at hheld
  obtain ⟨heap, hdone, hheld', hbuf⟩ := hheld.give.drop (List.Perm.refl _)
  simp only [State.mainStep, hmain, withDrop, hdone]
  exact ⟨_, rfl, h.withMain hheld' (fun s _ => by rw [hbuf]) trivial⟩

end Main

end Libibtl.Pgz
