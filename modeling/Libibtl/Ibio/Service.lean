import Libibtl.Ibio.Jobs
import Libibtl.Ibio.ReadHandlers
import Libibtl.Ibio.RemoteWrite

/-! # Clients in the middle of a call

What a client waits for is on the way to it, or the server still has to do something
for it. Reads are accounted for by the chunks that are owed. Of the other calls there is
at most one for every client, and its requests come behind the reads of the client.
-/

namespace Libibtl.Ibio

open Foundation

/-! ## Requests -/

section Requests

variable {fd : Nat} (source : CInt)

theorem openMessage_op : (openMessage source).op = opOpen := by
  rw [Message.op]
  change (deserializeTag (serializeTag opOpen 0)).1 = opOpen
  decide

theorem readMessage_op (count : UInt64T) (hfd : fd < maxHostIds) : (readMessage source fd count).op = opRead := by
  rw [Message.op, readMessage, readTag, deserializeTag_of_lt (by decide) hfd]

theorem readMessage_fd (count : UInt64T) (hfd : fd < maxHostIds) : (readMessage source fd count).fd = fd := by
  rw [Message.fd, readMessage, readTag, deserializeTag_of_lt (by decide) hfd, toNat_ofNat_fd hfd]

theorem closeMessage_op (hfd : fd < maxHostIds) : (closeMessage source fd).op = opClose := by
  rw [Message.op, closeMessage, deserializeTag_of_lt (by decide) hfd]

theorem closeMessage_fd (hfd : fd < maxHostIds) : (closeMessage source fd).fd = fd := by
  rw [Message.fd, closeMessage, deserializeTag_of_lt (by decide) hfd, toNat_ofNat_fd hfd]

end Requests

/-! ## Stages -/

/-- The client fills no file. -/
def Rests (J : Nat → Job) (c : CInt) : Prop := ∀ fd n r, J fd ≠ .filling c n r

/-- A read of a file that the client has opened. -/
def ReadOf (J : Nat → Job) (c : CInt) (m : Message) : Prop :=
  ∃ fd n, (J fd).owner = some c ∧ n ≤ bufSize ∧ m = readMessage c fd (BitVec.ofNat 64 n)

/-- Where the client `c` is in its calls. The requests that are not served yet are the reads `reads` and then `rest`. -/
inductive Stage (J : Nat → Job) (pc : MainPc) (c : CInt) (cl : Client) : List Message → List Message → Prop
  | reading {reads : List Message} (hwant : none ∉ cl.want)
      (hinbox : ∀ r ∈ cl.inbox, r.1.1 = c ∧ r.isChunk r.1 = true) (hrests : Rests J c) : Stage J pc c cl reads []
  | opening {reads : List Message} (hwant : cl.want = [none]) (hinbox : cl.inbox = []) (hrests : Rests J c) :
      Stage J pc c cl reads [openMessage c]
  | closing {reads : List Message} {fd : Nat} (hwant : cl.want = [none]) (hinbox : cl.inbox = []) (hrests : Rests J c)
      (howner : (J fd).owner = some c) (hfile : fd ∉ cl.files) : Stage J pc c cl reads [closeMessage c fd]
  | beginning {reads : List Message} {fd : Nat} {buf : Buffer} {n : Nat} (hwant : cl.want = [none])
      (hinbox : cl.inbox = []) (hrests : Rests J c) (howner : (J fd).owner = some c) (hpos : 0 < n) (hn : n ≤ bufSize) :
      Stage J pc c cl reads (beginMessage c fd (BitVec.ofNat 64 n) :: chunksFrom c fd buf n 0)
  | filling {fd : Nat} {buf : Buffer} {n r : Nat} (hwant : cl.want = [none]) (hinbox : cl.inbox = [])
      (hjob : J fd = .filling c n r) (honly : ∀ fd' n' r', J fd' = .filling c n' r' → fd' = fd) (hr : r ≤ chunkCount n)
      (hmain : r = chunkCount n → pc = .await (chunkKey c fd) fd) : Stage J pc c cl [] (chunksFrom c fd buf n r)
  | answered {reads : List Message} {r : Reply} (hwant : cl.want = [none]) (hinbox : cl.inbox = [r])
      (hchunk : r.isChunk r.1 = false) (hopened : ∀ fd, r.2 = .opened fd → (J fd).owner = some c) (hrests : Rests J c) :
      Stage J pc c cl reads []

/-- The requests of the client that are not served yet. -/
def outstanding (s : Server) (c : CInt) (cl : Client) : List Message :=
  s.aq.filter (·.source = c) ++ cl.flight ++ cl.todo

structure ClientOk (J : Nat → Job) (s : Server) (c : CInt) (cl : Client) : Prop where
  files : ∀ fd ∈ cl.files, (J fd).owner = some c
  stage : ∃ reads rest, outstanding s c cl = reads ++ rest ∧ (∀ m ∈ reads, ReadOf J c m) ∧ Stage J s.pc c cl reads rest

/-- The jobs of the client are the same. -/
def Agree (c : CInt) (J J' : Nat → Job) : Prop :=
  ∀ fd, (J fd).owner = some c ∨ (J' fd).owner = some c → J' fd = J fd

section Frame

variable {J J' : Nat → Job} {pc pc' : MainPc} {c : CInt} {cl : Client} {s s' : Server}

theorem Agree.owner (h : Agree c J J') {fd : Nat} (hfd : (J fd).owner = some c) : (J' fd).owner = some c := by
  rw [h fd (.inl hfd), hfd]

theorem Agree.filling (h : Agree c J J') {fd n r : Nat} : J' fd = .filling c n r ↔ J fd = .filling c n r := by
  constructor
  · intro heq
    rw [← h fd (.inr (by rw [heq]; rfl)), heq]
  · intro heq
    rw [h fd (.inl (by rw [heq]; rfl)), heq]

theorem Agree.rests (h : Agree c J J') (hrests : Rests J c) : Rests J' c := fun fd n r heq =>
  hrests fd n r (h.filling.1 heq)

/-- Another job for a file that neither is nor becomes one of the client. -/
theorem Agree.update {c' : CInt} {fd : Nat} {j : Job} (hJ : (J fd).owner ≠ some c') (hj : j.owner ≠ some c') :
    Agree c' J (Function.update J fd j) := by
  intro fd' h
  by_cases heq : fd' = fd
  · subst heq
    rw [Function.update_self] at h
    rcases h with h | h
    · exact absurd h hJ
    · exact absurd h hj
  · exact Function.update_of_ne heq ..

theorem ReadOf.frame (h : Agree c J J') {m : Message} (hm : ReadOf J c m) : ReadOf J' c m := by
  obtain ⟨fd, n, howner, hn, rfl⟩ := hm
  exact ⟨fd, n, h.owner howner, hn, rfl⟩

theorem Stage.frame {reads rest : List Message} (h : Stage J pc c cl reads rest) (hJ : Agree c J J')
    (hpc : ∀ fd, pc = .await (chunkKey c fd) fd → pc' = pc) : Stage J' pc' c cl reads rest := by
  cases h with
  | reading hwant hinbox hrests => exact .reading hwant hinbox (hJ.rests hrests)
  | opening hwant hinbox hrests => exact .opening hwant hinbox (hJ.rests hrests)
  | closing hwant hinbox hrests howner hfile => exact .closing hwant hinbox (hJ.rests hrests) (hJ.owner howner) hfile
  | beginning hwant hinbox hrests howner hpos hn =>
    exact .beginning hwant hinbox (hJ.rests hrests) (hJ.owner howner) hpos hn
  | @filling fd _ _ _ hwant hinbox hjob honly hr hmain =>
    refine .filling hwant hinbox (hJ.filling.2 hjob) (fun fd' n' r' h' => honly fd' n' r' (hJ.filling.1 h')) hr ?_
    intro hlast
    rw [hpc fd (hmain hlast), hmain hlast]
  | answered hwant hinbox hchunk hopened hrests =>
    exact .answered hwant hinbox hchunk (fun fd hfd => hJ.owner (hopened fd hfd)) (hJ.rests hrests)

theorem ClientOk.frame (h : ClientOk J s c cl) (hJ : Agree c J J')
    (haq : s'.aq.filter (·.source = c) = s.aq.filter (·.source = c))
    (hpc : ∀ fd, s.pc = .await (chunkKey c fd) fd → s'.pc = s.pc) : ClientOk J' s' c cl where
  files fd hfd := hJ.owner (h.files fd hfd)
  stage := by
    obtain ⟨reads, rest, heq, hreads, hstage⟩ := h.stage
    refine ⟨reads, rest, ?_, fun m hm => (hreads m hm).frame hJ, hstage.frame hJ hpc⟩
    rw [outstanding, haq, ← outstanding, heq]

end Frame

/-! ## The system -/

/-- What the server and the clients keep. -/
structure System.Coherent (J : Nat → Job) (w : System) : Prop where
  balanced : w.server.Balanced
  served : w.server.Served
  sized : w.server.Sized
  fits : ∀ fd, (J fd).Fits (w.server.view fd)
  named : ∀ fd c, (J fd).owner = some c → fd ∈ w.server.opened ∧ fd < maxHostIds
  readers : ∀ k g pc, Thread.reader k g pc ∈ w.server.threads → pc ≠ .ended → (J g).owner = some k.1 ∧ k.2 = readTag g
  main : w.server.pc = .probe ∨
    ∃ c fd n, w.server.pc = .await (chunkKey c fd) fd ∧ J fd = .filling c n (chunkCount n)
  paid : ∀ c tag, (w.clients c).want.count (some tag) = (w.clients c).inbox.countP (Reply.isChunk (c, tag)) +
    w.server.owed (c, tag) + asked (c, tag) ((w.clients c).flight ++ (w.clients c).todo)
  clients : ∀ c, ClientOk J w.server c (w.clients c)

section Clients

variable {J : Nat → Job} {w : System} {c : CInt} {cl cl' : Client} {s : Server}

theorem chunksFrom_sound {fd : Nat} {buf : Buffer} {n r : Nat} (hfd : fd < maxHostIds) {m : Message}
    (hm : m ∈ chunksFrom c fd buf n r) : m.source = c ∧ m.op = opWriteChunk := by
  obtain ⟨i, -, rfl⟩ := List.mem_map.1 hm
  exact ⟨rfl, chunkMessage_op _ _ _ _ hfd⟩

/-- The other requests of a call are not reads. -/
theorem Stage.sound {pc : MainPc} {reads rest : List Message} (h : Stage J pc c cl reads rest)
    (hlt : ∀ fd, (J fd).owner = some c → fd < maxHostIds) : ∀ m ∈ rest, m.source = c ∧ m.op ≠ opRead := by
  intro m hm
  cases h with
  | reading | answered => cases hm
  | opening =>
    obtain rfl := List.mem_singleton.1 hm
    rw [openMessage_op]
    exact ⟨rfl, by decide⟩
  | closing _ _ _ howner =>
    obtain rfl := List.mem_singleton.1 hm
    rw [closeMessage_op c (hlt _ howner)]
    exact ⟨rfl, by decide⟩
  | beginning _ _ _ howner =>
    rcases List.mem_cons.1 hm with rfl | hm
    · rw [beginMessage_op c _ (hlt _ howner)]
      exact ⟨rfl, by decide⟩
    · obtain ⟨hsource, hop⟩ := chunksFrom_sound (hlt _ howner) hm
      rw [hop]
      exact ⟨hsource, by decide⟩
  | filling _ _ hjob =>
    obtain ⟨hsource, hop⟩ := chunksFrom_sound (hlt _ (by rw [hjob]; rfl)) hm
    rw [hop]
    exact ⟨hsource, by decide⟩

/-- What a client has sent and still sends are its own requests, and the reads among them fit the cache. -/
theorem ClientOk.sound (h : ClientOk J s c cl) (hlt : ∀ fd, (J fd).owner = some c → fd < maxHostIds) :
    ∀ m ∈ outstanding s c cl, m.source = c ∧ (m.op = opRead → ∃ n ≤ bufSize, m.count = BitVec.ofNat 32 n) := by
  obtain ⟨reads, rest, heq, hreads, hstage⟩ := h.stage
  intro m hm
  rw [heq] at hm
  rcases List.mem_append.1 hm with hm | hm
  · obtain ⟨fd, n, -, hn, rfl⟩ := hreads m hm
    exact ⟨rfl, fun _ => ⟨n, hn, intOfUint64_ofNat n⟩⟩
  · obtain ⟨hsource, hop⟩ := hstage.sound hlt m hm
    exact ⟨hsource, fun hread => absurd hread hop⟩

theorem Stage.of_eq {pc : MainPc} {reads rest : List Message} (h : Stage J pc c cl reads rest)
    (hwant : cl'.want = cl.want) (hinbox : cl'.inbox = cl.inbox) (hfiles : cl'.files = cl.files) :
    Stage J pc c cl' reads rest := by
  obtain ⟨todo, want, files, flight, inbox⟩ := cl
  obtain ⟨todo', want', files', flight', inbox'⟩ := cl'
  cases hwant
  cases hinbox
  cases hfiles
  cases h with
  | reading hwant hinbox hrests => exact .reading hwant hinbox hrests
  | opening hwant hinbox hrests => exact .opening hwant hinbox hrests
  | closing hwant hinbox hrests howner hfile => exact .closing hwant hinbox hrests howner hfile
  | beginning hwant hinbox hrests howner hpos hn => exact .beginning hwant hinbox hrests howner hpos hn
  | filling hwant hinbox hjob honly hr hmain => exact .filling hwant hinbox hjob honly hr hmain
  | answered hwant hinbox hchunk hopened hrests => exact .answered hwant hinbox hchunk hopened hrests

theorem System.Coherent.setClient (h : w.Coherent J) (hclient : ClientOk J w.server c cl)
    (hpaid : ∀ tag, cl.want.count (some tag) = cl.inbox.countP (Reply.isChunk (c, tag)) + w.server.owed (c, tag) +
      asked (c, tag) (cl.flight ++ cl.todo)) : (w.setClient c cl).Coherent J where
  balanced := h.balanced
  served := h.served
  sized := h.sized
  fits := h.fits
  named := h.named
  readers := h.readers
  main := h.main
  paid c' tag := by
    by_cases hc : c' = c
    · subst hc
      simpa only [System.setClient, Function.update_self] using hpaid tag
    · simpa only [System.setClient, Function.update_of_ne hc] using h.paid c' tag
  clients c' := by
    by_cases hc : c' = c
    · subst hc
      simpa only [System.setClient, Function.update_self] using hclient
    · simpa only [System.setClient, Function.update_of_ne hc] using h.clients c'

/-! ## Sending -/

theorem System.Coherent.send (h : w.Coherent J) (hsend : (w.clients c).send = some cl) :
    (w.setClient c cl).Coherent J := by
  rw [Client.send] at hsend
  split at hsend
  · cases hsend
  · rename_i m todo htodo
    obtain rfl := Option.some.inj hsend
    have hclient := h.clients c
    refine h.setClient ⟨hclient.files, ?_⟩ fun tag => ?_
    · obtain ⟨reads, rest, heq, hreads, hstage⟩ := hclient.stage
      refine ⟨reads, rest, ?_, hreads, hstage.of_eq rfl rfl rfl⟩
      rw [← heq, outstanding, outstanding, htodo]
      simp only [List.append_assoc, List.singleton_append]
    · have hpaid := h.paid c tag
      rw [htodo] at hpaid
      rw [hpaid]
      simp only [List.append_assoc, List.singleton_append]

/-! ## Arrivals -/

theorem owed_receive_message (s : Server) (m : Message) (k : Key) : (s.receive m).owed k = s.owed k + m.asks k := by
  rw [Server.owed, Server.receive, asked_append, Server.owed, ← Nat.add_assoc]
  rfl

theorem Server.Sized.receive (h : s.Sized) {m : Message}
    (hm : m.op = opRead → ∃ n ≤ bufSize, m.count = BitVec.ofNat 32 n) : (s.receive m).Sized where
  queued m' hm' := by
    rcases List.mem_append.1 hm' with hm' | hm'
    · exact h.queued m' hm'
    · cases List.mem_singleton.1 hm'
      exact hm
  readers := h.readers

theorem asks_of_source_ne {m : Message} {k : Key} (hne : m.source ≠ k.1) : m.asks k = 0 := by
  refine if_neg fun h => hne ?_
  rw [← h.2]
  rfl

theorem System.Coherent.arrive {m : Message} {flight : List Message} (h : w.Coherent J)
    (hflight : (w.clients c).flight = m :: flight) :
    ({ w.setClient c { w.clients c with flight := flight } with
      server := w.server.receive m } : System).Coherent J := by
  have hclient := h.clients c
  have hmem : m ∈ outstanding w.server c (w.clients c) := by
    rw [outstanding, hflight]
    simp
  obtain ⟨hsource, hcount⟩ := hclient.sound (fun fd hfd => (h.named fd c hfd).2) m hmem
  have hstep := Server.step_arrive w.server m
  constructor
  · exact h.balanced.step hstep
  · exact (h.balanced.served_step h.served hstep).2 trivial
  · exact h.sized.receive hcount
  · exact h.fits
  · exact h.named
  · exact h.readers
  · exact h.main
  · intro c' tag
    have hpaid := h.paid c' tag
    by_cases hc : c' = c
    · subst hc
      rw [hflight, List.cons_append, asked, List.map_cons, List.sum_cons, ← asked] at hpaid
      simp only [System.setClient, Function.update_self, owed_receive_message]
      omega
    · have hzero : m.asks (c', tag) = 0 := asks_of_source_ne (by rw [hsource]; exact Ne.symm hc)
      simp only [System.setClient, Function.update_of_ne hc, owed_receive_message, hzero]
      exact hpaid
  · intro c'
    by_cases hc : c' = c
    · subst hc
      simp only [System.setClient, Function.update_self]
      refine ⟨hclient.files, ?_⟩
      obtain ⟨reads, rest, heq, hreads, hstage⟩ := hclient.stage
      refine ⟨reads, rest, ?_, hreads, hstage.of_eq rfl rfl rfl⟩
      rw [← heq, outstanding, outstanding, hflight, Server.receive, List.filter_append,
        List.filter_cons_of_pos (by simpa using hsource), List.filter_nil]
      simp only [List.append_assoc, List.cons_append, List.nil_append]
    · simp only [System.setClient, Function.update_of_ne hc]
      refine (h.clients c').frame (fun _ _ => rfl) ?_ fun _ _ => rfl
      rw [Server.receive, List.filter_append, List.filter_cons_of_neg (by simpa [hsource] using Ne.symm hc),
        List.filter_nil, List.append_nil]

/-! ## Calls -/

/-- Between two calls nothing is on the way to the client. -/
theorem System.Coherent.idle (h : w.Coherent J) (hidle : (w.clients c).Idle) : (w.clients c).inbox = [] ∧ Rests J c ∧
    ∀ m ∈ outstanding w.server c (w.clients c), ReadOf J c m := by
  obtain ⟨reads, rest, heq, hreads, hstage⟩ := (h.clients c).stage
  cases hstage with
  | reading hwant hinbox hrests =>
    refine ⟨List.eq_nil_iff_forall_not_mem.2 fun r hr => ?_, hrests, ?_⟩
    · obtain ⟨hsource, hchunk⟩ := hinbox r hr
      have hpaid := h.paid c r.1.2
      have hkey : r.1 = (c, r.1.2) := by rw [← hsource]
      rw [hidle.2, List.count_nil, ← hkey] at hpaid
      have hpos : 0 < (w.clients c).inbox.countP (Reply.isChunk r.1) := List.countP_pos_iff.2 ⟨r, hr, hchunk⟩
      omega
    · rw [heq, List.append_nil]
      exact hreads
  | opening hwant | closing hwant | beginning hwant | filling hwant | answered hwant =>
    rw [hidle.2] at hwant
    cases hwant

/-- A call that waits for one reply of any tag. -/
theorem System.Coherent.ask (h : w.Coherent J) (hidle : (w.clients c).Idle) {todo : List Message} {files : List Nat}
    (hfiles : ∀ fd ∈ files, fd ∈ (w.clients c).files)
    (hstage : ∀ reads,
      Stage J w.server.pc c { w.clients c with todo := todo, want := [none], files := files } reads todo) :
    (w.setClient c { w.clients c with todo := todo, want := [none], files := files }).Coherent J := by
  obtain ⟨hinbox, -, hout⟩ := h.idle hidle
  refine h.setClient ⟨fun fd hfd => (h.clients c).files fd (hfiles fd hfd), ?_⟩ fun tag => ?_
  · refine ⟨outstanding w.server c (w.clients c), todo, ?_, hout, hstage _⟩
    rw [outstanding, outstanding, hidle.1, List.append_nil]
  · have hpaid := h.paid c tag
    rw [hidle.1, hidle.2, List.append_nil] at hpaid
    have hreads := (hstage []).sound fun fd hfd => (h.named fd c hfd).2
    simp only [asked_append, asked_of_ne fun m hm => (hreads m hm).2]
    exact hpaid

/-- What a call may ask for. -/
def Call.Fits : Call → Prop
  | .ibtlWrite _ _ count => 0 < count.toNat ∧ count.toNat ≤ bufSize
  | .ibtlRead _ count => count.toNat ≤ bufSize
  | _ => True

theorem receives_read (fd : Nat) {n : Nat} (hn : n ≤ bufSize) : (Call.ibtlRead fd (BitVec.ofNat 64 n)).receives =
    some (List.replicate (chunkCount n) (some (readTag fd))) := by
  rw [Call.receives, clientChunks_eq hn, Option.map_some, List.map_map]
  refine congrArg some (List.eq_replicate_iff.2 ⟨?_, fun w hw => ?_⟩)
  · rw [List.length_map, List.length_range]
  · obtain ⟨_, _, rfl⟩ := List.mem_map.1 hw
    rfl

theorem asked_read {fd n : Nat} (hfd : fd < maxHostIds) (hn : n ≤ bufSize) (tag : CInt) :
    asked (c, tag) [readMessage c fd (BitVec.ofNat 64 n)] =
      (List.replicate (chunkCount n) (some (readTag fd))).count (some tag) := by
  have hop := readMessage_op c (BitVec.ofNat 64 n) hfd
  have hkey : (readMessage c fd (BitVec.ofNat 64 n)).key = (c, readTag fd) := rfl
  have hcount : (readMessage c fd (BitVec.ofNat 64 n)).count.toNat = n := by
    rw [readMessage, intOfUint64_ofNat, toNat_ofNat_of_le hn]
  rw [asked, List.map_singleton, List.sum_singleton, Message.asks, hop, hkey, hcount, List.count_replicate]
  simp

theorem System.Coherent.read {fd n : Nat} (h : w.Coherent J) (hidle : (w.clients c).Idle)
    (hfd : fd ∈ (w.clients c).files) (hn : n ≤ bufSize) :
    (w.setClient c { w.clients c with
      todo := [readMessage c fd (BitVec.ofNat 64 n)]
      want := List.replicate (chunkCount n) (some (readTag fd)) }).Coherent J := by
  obtain ⟨hinbox, hrests, hout⟩ := h.idle hidle
  have howner := (h.clients c).files fd hfd
  refine h.setClient ⟨(h.clients c).files, ?_⟩ fun tag => ?_
  · refine ⟨outstanding w.server c (w.clients c) ++ [readMessage c fd (BitVec.ofNat 64 n)], [], ?_, ?_, ?_⟩
    · rw [outstanding, outstanding, hidle.1, List.append_nil, List.append_nil]
    · intro m hm
      rcases List.mem_append.1 hm with hm | hm
      · exact hout m hm
      · exact ⟨fd, n, howner, hn, List.mem_singleton.1 hm⟩
    · refine .reading (fun hnone => ?_) (fun r hr => ?_) hrests
      · cases List.eq_of_mem_replicate hnone
      · rw [hinbox] at hr
        cases hr
  · have hpaid := h.paid c tag
    rw [hidle.1, hidle.2, List.append_nil, List.count_nil] at hpaid
    simp only [asked_append, asked_read (h.named fd c howner).2 hn]
    omega

theorem System.Coherent.call (h : w.Coherent J) {x : Call} (hx : x.Fits) (hcall : (w.clients c).call c x = some cl) :
    (w.setClient c cl).Coherent J := by
  rw [Client.call] at hcall
  split at hcall
  · rename_i hidle
    obtain ⟨hidle, hfile⟩ := hidle
    obtain ⟨hinbox, hrests, -⟩ := h.idle hidle
    cases x with
    | ibtlOpen =>
      obtain rfl := Option.some.inj hcall
      exact h.ask hidle (fun _ hfd => hfd) fun reads => .opening rfl hinbox hrests
    | ibtlWrite fd buf count =>
      have howner := (h.clients c).files fd (hfile fd rfl)
      have hofNat : BitVec.ofNat 64 count.toNat = count := by rw [BitVec.ofNat_toNat, BitVec.setWidth_eq]
      obtain ⟨hpos, hn⟩ := hx
      generalize count.toNat = n at hofNat hpos hn
      subst hofNat
      rw [Call.requests, ibtlWrite_eq c fd buf hn] at hcall
      obtain rfl := Option.some.inj hcall
      exact h.ask hidle (fun _ hfd => hfd) fun reads => .beginning rfl hinbox hrests howner hpos hn
    | ibtlRead fd count =>
      have hofNat : BitVec.ofNat 64 count.toNat = count := by rw [BitVec.ofNat_toNat, BitVec.setWidth_eq]
      change count.toNat ≤ bufSize at hx
      generalize count.toNat = n at hofNat hx
      subst hofNat
      rw [receives_read fd hx] at hcall
      obtain rfl := Option.some.inj hcall
      exact h.read hidle (hfile fd rfl) hx
    | ibtlClose fd =>
      obtain rfl := Option.some.inj hcall
      have howner := (h.clients c).files fd (hfile fd rfl)
      refine h.ask hidle (fun _ hfd => (List.mem_filter.1 hfd).1) fun reads => .closing rfl hinbox hrests howner ?_
      simp [Call.keeps]
  · cases hcall

/-! ## Receives -/

theorem Client.receive_cases (h : cl.receive = some cl') : ∃ x want r, cl.todo = [] ∧ cl.want = x :: want ∧
    cl.inbox.find? (·.matches x) = some r ∧
    cl' = { cl with want := want, files := r.2.files cl.files, inbox := cl.inbox.eraseP (·.matches x) } := by
  rw [Client.receive] at h
  split at h
  · rename_i x want htodo hwant
    obtain ⟨r, hr, rfl⟩ := Option.map_eq_some_iff.1 h
    exact ⟨x, want, r, htodo, hwant, hr, rfl⟩
  · cases h

theorem Reply.isChunk_iff {r : Reply} {k : Key} : r.isChunk k = true ↔ r.isChunk r.1 = true ∧ r.1 = k := by
  rw [Reply.isChunk, Reply.isChunk]
  split <;> simp

theorem System.Coherent.receive (h : w.Coherent J) (hrecv : (w.clients c).receive = some cl) :
    (w.setClient c cl).Coherent J := by
  obtain ⟨x, want, r, htodo, hwant, hr, rfl⟩ := Client.receive_cases hrecv
  obtain ⟨hfiles, reads, rest, heq, hreads, hstage⟩ := h.clients c
  have hmem := List.mem_of_find?_eq_some hr
  have hmatch := List.find?_some hr
  cases hstage with
  | reading hnone hinbox hrests =>
    rw [hwant] at hnone
    obtain ⟨t, rfl⟩ := Option.ne_none_iff_exists'.1 fun heq : x = none => hnone (heq ▸ List.mem_cons_self)
    obtain ⟨hsource, hchunk⟩ := hinbox r hmem
    have hkey : r.1 = (c, t) := Prod.ext hsource (of_decide_eq_true hmatch)
    have hkeep : r.2.files (w.clients c).files = (w.clients c).files := by
      rw [Reply.isChunk] at hchunk
      split at hchunk
      · rename_i body hbody
        rw [hbody]
        rfl
      · cases hchunk
    rw [hkeep]
    refine h.setClient ⟨hfiles, reads, [], heq, hreads, ?_⟩ fun tag => ?_
    · exact .reading (fun hin => hnone (List.mem_cons_of_mem _ hin))
        (fun r' hr' => hinbox r' (List.eraseP_sublist.subset hr')) hrests
    · have hpaid := h.paid c tag
      have herase := countP_eraseP_add (p := Reply.isChunk (c, tag)) hr
      have hsame : r.isChunk (c, tag) = decide (t = tag) := by
        rw [Bool.eq_iff_iff, Reply.isChunk_iff, hkey]
        rw [hkey] at hchunk
        simp [hchunk]
      rw [hwant, List.count_cons] at hpaid
      rw [hsame] at herase
      simp only [beq_iff_eq, Option.some.injEq] at hpaid
      dsimp only
      rcases Decidable.em (t = tag) with htag | htag
      · rw [decide_eq_true htag] at herase
        rw [if_pos htag] at hpaid
        rw [Bool.toNat_true] at herase
        omega
      · rw [decide_eq_false htag] at herase
        rw [if_neg htag] at hpaid
        rw [Bool.toNat_false] at herase
        omega
  | answered hnone hinbox hchunk hopened hrests =>
    rename_i r'
    rw [hwant] at hnone
    obtain ⟨rfl, rfl⟩ := List.cons.inj hnone
    rw [hinbox] at hr hmem
    obtain rfl := List.mem_singleton.1 hmem
    have hempty : (w.clients c).inbox.eraseP (·.matches none) = [] := by
      rw [hinbox]
      rfl
    rw [hempty]
    refine h.setClient ⟨?_, reads, [], heq, hreads, .reading List.not_mem_nil ?_ hrests⟩ fun tag => ?_
    · intro fd hfd
      cases hbody : r.2 with
      | opened fd' =>
        rw [hbody] at hfd
        rcases List.mem_cons.1 hfd with rfl | hfd
        · exact hopened fd hbody
        · exact hfiles fd hfd
      | completed | closed | chunk =>
        rw [hbody] at hfd
        exact hfiles fd hfd
    · exact fun r' hr' => absurd hr' List.not_mem_nil
    · have hpaid := h.paid c tag
      rw [hwant] at hpaid
      have hnone : [(none : Option CInt)].count (some tag) = 0 := rfl
      rw [hnone] at hpaid
      dsimp only [List.count_nil, List.countP_nil]
      omega
  | opening _ hinbox | closing _ hinbox | beginning _ hinbox | filling _ hinbox =>
    rw [hinbox] at hmem
    cases hmem

end Clients

end Libibtl.Ibio
