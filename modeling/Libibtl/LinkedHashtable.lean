import Mathlib.Data.List.Find
import Libibtl.QueueContents

/-! # The hash table over linked queues

Each bucket is a queue of pointers to `fdmi_hashtable_node` blocks, and every
search moves the cursor of the bucket. `fdmi_hashtable_remove` reads its result
from the node that it has just freed; what the block holds then is an argument.
-/

namespace Libibtl

open Foundation

universe u

/-- A map from keys to lists of data, of which the oldest counts. -/
abbrev FifoMap (D : Type u) := UInt64T → List D

namespace FifoMap

variable {D : Type u}

def add (m : FifoMap D) (key : UInt64T) (data : D) : FifoMap D := Function.update m key (m key ++ [data])

def get (m : FifoMap D) (key : UInt64T) : Option D := (m key).head?

def update (m : FifoMap D) (key : UInt64T) (newData : D) : Option D × FifoMap D :=
  match m key with
  | [] => (none, m.add key newData)
  | d :: ds => (some d, Function.update m key (newData :: ds))

def remove (m : FifoMap D) (key : UInt64T) : Option D × FifoMap D :=
  match m key with
  | [] => (none, m)
  | d :: ds => (some d, Function.update m key ds)

end FifoMap

structure KeyedData (D : Type u) where
  key : UInt64T
  data : Option D
  deriving DecidableEq, Repr

/-- The buckets from `len` on are never used. -/
structure LinkedHashtable (A B D : Type u) where
  mem : QueueHeap A B
  nodes : Heap B (KeyedData D)
  len : CInt
  list : Nat → HeapQueue A

namespace LinkedHashtable

variable {A B D : Type u} [DecidableEq A] [DecidableEq B]

/-- `fdmi_hashtable_create` in any memory. -/
def create (mem : QueueHeap A B) (nodes : Heap B (KeyedData D)) (ite : Nat → Option A) (length : CInt) :
    LinkedHashtable A B D := ⟨mem, nodes, length, fun i => HeapQueue.create (ite i)⟩

def hash (ht : LinkedHashtable A B D) (key : UInt64T) : Nat := (key / 16 % uint64OfInt ht.len).toNat

def setBucket (ht : LinkedHashtable A B D) (key : UInt64T) (q : HeapQueue A) : LinkedHashtable A B D :=
  { ht with list := Function.update ht.list (ht.hash key) q }

/-- The loop over the bucket of a key: the node with the key, if any. -/
def search (ht : LinkedHashtable A B D) (key : UInt64T) :
    Option (LinkedHashtable A B D × Option (B × KeyedData D)) := do
  let (q, nd) ← HeapQueue.search ht.mem (ht.list (ht.hash key)) fun nd =>
    (ht.nodes.cell nd).map fun n => n.key = key
  match nd with
  | none => some (ht.setBucket key q, none)
  | some nd =>
    let n ← ht.nodes.cell nd
    some (ht.setBucket key q, some (nd, n))

/-- `nd` and `d` are the blocks of the new node and of its place in the queue. -/
def add (ht : LinkedHashtable A B D) (key : UInt64T) (data : Option D) (nd : B) (d : A) :
    Option (LinkedHashtable A B D) := do
  let (mem, q) ← HeapQueue.enq ht.mem (ht.list (ht.hash key)) d (some nd)
  some { ht.setBucket key q with mem, nodes := ht.nodes.malloc nd ⟨key, data⟩ }

def update (ht : LinkedHashtable A B D) (key : UInt64T) (newData : Option D) (nd : B) (d : A) :
    Option (Option D × LinkedHashtable A B D) := do
  let (ht, found) ← ht.search key
  match found with
  | some (nd, n) => some (n.data, { ht with nodes := ht.nodes.store nd { n with data := newData } })
  | none =>
    let ht ← ht.add key newData nd d
    some (none, ht)

def get (ht : LinkedHashtable A B D) (key : UInt64T) : Option (Option D × LinkedHashtable A B D) := do
  let (ht, found) ← ht.search key
  match found with
  | some (_, n) => some (n.data, ht)
  | none => some (none, ht)

/-- The local `data` keeps the result, but the function returns `nd->data` after `fdmi_free(nd)`: `freed` is what it
reads there. -/
def remove (ht : LinkedHashtable A B D) (key : UInt64T) (freed : Option D) :
    Option (Option D × LinkedHashtable A B D) := do
  let (ht, found) ← ht.search key
  match found with
  | some (nd, _) =>
    let (mem, q) ← HeapQueue.remove ht.mem (ht.list (ht.hash key)) (some nd)
    some (freed, { ht.setBucket key q with mem, nodes := ht.nodes.free nd })
  | none => some (none, ht)

/-! ## What a table holds -/

/-- One node of a bucket, with the block that links it there. -/
structure Entry (A B D : Type u) where
  addr : A
  node : B
  key : UInt64T
  data : D

def Entry.link (e : Entry A B D) : A × Option B := (e.addr, some e.node)

/-- The buckets hold the entries `es`, each where its key belongs. -/
structure Stores (ht : LinkedHashtable A B D) (es : Nat → List (Entry A B D)) : Prop where
  queue : ∀ i < ht.len.toNat, HeapQueue.Represents ht.mem (ht.list i) ((es i).map Entry.link)
  node : ∀ i, ∀ e ∈ es i, ht.nodes.cell e.node = some ⟨e.key, some e.data⟩
  placed : ∀ i, ∀ e ∈ es i, ht.hash e.key = i
  nodup : ∀ i, ((es i).map Entry.node).Nodup
  apart : ∀ i j, i ≠ j → ∀ e ∈ es i, ∀ e' ∈ es j, e.addr ≠ e'.addr

namespace Stores

variable {ht : LinkedHashtable A B D} {es : Nat → List (Entry A B D)} {key : UInt64T} {l r : List (Entry A B D)} {e : Entry A B D} {data : D} {nd : B} {d : A}

omit [DecidableEq A] [DecidableEq B] in
theorem hash_lt (hlen : 0 < ht.len.toInt) (key : UInt64T) : ht.hash key < ht.len.toNat := by
  have hpos : 0 < ht.len.toNat := by
    have h := toInt_eq_toNat_of_nonneg hlen.le
    omega
  rw [hash, BitVec.toNat_umod, toNat_uint64OfInt_of_nonneg hlen.le]
  exact Nat.mod_lt _ hpos

omit [DecidableEq A] [DecidableEq B] in
/-- A search moves the cursor of the bucket and finds the first entry with the key. -/
theorem search_eq (h : ht.Stores es) (hlen : 0 < ht.len.toInt) (key : UInt64T) :
    ∃ ite, ht.search key = some (ht.setBucket key { ht.list (ht.hash key) with ite },
      ((es (ht.hash key)).find? (·.key = key)).map fun e => (e.node, ⟨e.key, some e.data⟩)) := by
  have hnode := h.node (ht.hash key)
  -- the keys read through the pointers are those of the entries
  let p : B → Bool := fun nd => ((ht.nodes.cell nd).map fun n => decide (n.key = key)).getD false
  have hp : ∀ e ∈ es (ht.hash key), p e.node = decide (e.key = key) := by
    intro e he
    simp only [p, hnode e he, Option.map_some, Option.getD_some]
  have hlinks : ((es (ht.hash key)).map Entry.link).map Prod.snd = ((es (ht.hash key)).map Entry.node).map some := by
    rw [List.map_map, List.map_map]
    rfl
  have htest : ∀ nd ∈ (es (ht.hash key)).map Entry.node,
      (ht.nodes.cell nd).map (fun n => decide (n.key = key)) = some (p nd) := by
    intro nd hnd
    obtain ⟨e, he, rfl⟩ := List.mem_map.1 hnd
    rw [hp e he, hnode e he]
    rfl
  obtain ⟨ite, hsearch⟩ := (h.queue _ (hash_lt hlen key)).search_eq hlinks htest
  have hfind : ((es (ht.hash key)).map Entry.node).find? p = ((es (ht.hash key)).find? (·.key = key)).map Entry.node := by
    rw [List.find?_map]
    exact congrArg _ (List.find?_congr fun e he => hp e he)
  refine ⟨ite, ?_⟩
  rw [search, hsearch, hfind]
  cases hfound : (es (ht.hash key)).find? (·.key = key) with
  | none => rfl
  | some e =>
    have hcell := hnode e (List.mem_of_find?_eq_some hfound)
    simp only [Option.map_some, Option.bind_eq_bind, Option.bind_some, hcell]

omit [DecidableEq A] [DecidableEq B] in
theorem setBucket (h : ht.Stores es) (key : UInt64T) (ite : Option A) :
    (ht.setBucket key { ht.list (ht.hash key) with ite }).Stores es := by
  refine ⟨fun i hi => ?_, h.node, h.placed, h.nodup, h.apart⟩
  change HeapQueue.Represents ht.mem (Function.update ht.list (ht.hash key) _ i) _
  by_cases hkey : i = ht.hash key
  · subst hkey
    rw [Function.update_self]
    exact (h.queue _ hi).with_ite ite
  · rw [Function.update_of_ne hkey]
    exact h.queue i hi

omit [DecidableEq A] [DecidableEq B] in
theorem of_find? (h : ht.Stores es) (hfound : (es (ht.hash key)).find? (·.key = key) = some e) :
    ∃ l r, es (ht.hash key) = l ++ e :: r ∧ e.key = key ∧ (∀ b ∈ l, b.key ≠ key) ∧
      (∀ b ∈ l ++ r, b.node ≠ e.node) := by
  obtain ⟨hkey, l, r, hes, -, hl⟩ := Queue.split_of_find? hfound
  refine ⟨l, r, hes, by simpa using hkey, fun b hb => by simpa using hl b hb, ?_⟩
  have hnodup := h.nodup (ht.hash key)
  rw [hes, List.map_append, List.map_cons, List.nodup_middle, List.nodup_cons, ← List.map_append] at hnodup
  exact fun b hb heq => hnodup.1 (List.mem_map.2 ⟨b, hb, heq⟩)

omit [DecidableEq A] [DecidableEq B] in
theorem lt_of_mem (h : ht.Stores es) (hlen : 0 < ht.len.toInt) {i : Nat} (he : e ∈ es i) : i < ht.len.toNat :=
  h.placed i e he ▸ hash_lt hlen e.key

omit [DecidableEq A] [DecidableEq B] in
/-- One bucket changes, and the memory of the others does not. -/
theorem replace (h : ht.Stores es) {t : LinkedHashtable A B D} {i : Nat} (ht' : t.len = ht.len)
    (hlist : ∀ j, j ≠ i → t.list j = ht.list j) (hmallocs : ht.mem.mallocs ≤ t.mem.mallocs)
    (hq : HeapQueue.Represents t.mem (t.list i) (l.map Entry.link))
    (hnode : ∀ e ∈ l, t.nodes.cell e.node = some ⟨e.key, some e.data⟩) (hplaced : ∀ e ∈ l, ht.hash e.key = i)
    (hnodup : (l.map Entry.node).Nodup)
    (hother : ∀ j, j ≠ i → ∀ e ∈ es j, t.mem.cell e.addr = ht.mem.cell e.addr ∧
      t.nodes.cell e.node = ht.nodes.cell e.node ∧ ∀ e' ∈ l, e.addr ≠ e'.addr) :
    t.Stores (Function.update es i l) := by
  have hhash : t.hash = ht.hash := by
    funext key
    rw [hash, hash, ht']
  refine ⟨fun j hj => ?_, fun j => ?_, fun j => ?_, fun j => ?_, fun j k hjk e he e' he' => ?_⟩
  · by_cases hji : j = i
    · subst hji
      rw [Function.update_self]
      exact hq
    · rw [Function.update_of_ne hji, hlist j hji]
      refine (h.queue j (ht' ▸ hj)).frame (fun a ha => ?_) hmallocs
      rw [List.map_map] at ha
      obtain ⟨e, he, rfl⟩ := List.mem_map.1 ha
      exact (hother j hji e he).1
  · by_cases hji : j = i
    · subst hji
      rw [Function.update_self]
      exact hnode
    · rw [Function.update_of_ne hji]
      exact fun e he => (hother j hji e he).2.1.trans (h.node j e he)
  · rw [hhash]
    by_cases hji : j = i
    · subst hji
      rw [Function.update_self]
      exact hplaced
    · rw [Function.update_of_ne hji]
      exact h.placed j
  · by_cases hji : j = i
    · subst hji
      rw [Function.update_self]
      exact hnodup
    · rw [Function.update_of_ne hji]
      exact h.nodup j
  · by_cases hji : j = i
    · subst hji
      rw [Function.update_self] at he
      rw [Function.update_of_ne (Ne.symm hjk)] at he'
      exact ((hother k (Ne.symm hjk) e' he').2.2 e he).symm
    · rw [Function.update_of_ne hji] at he
      by_cases hki : k = i
      · subst hki
        rw [Function.update_self] at he'
        exact (hother j hji e he).2.2 e' he'
      · rw [Function.update_of_ne hki] at he'
        exact h.apart j k hjk e he e' he'

theorem add (h : ht.Stores es) (hlen : 0 < ht.len.toInt) (key : UInt64T) (data : D) (hd : ht.mem.cell d = none)
    (hnd : ht.nodes.cell nd = none) :
    ∃ t, ht.add key (some data) nd d = some t ∧ t.len = ht.len ∧
      t.Stores (Function.update es (ht.hash key) (es (ht.hash key) ++ [⟨d, nd, key, data⟩])) := by
  have hq := h.queue _ (hash_lt hlen key)
  obtain ⟨mem, q, henq, hq', -, hmallocs, hframe⟩ := hq.push hd (d := some nd)
  have hnode : ∀ i, ∀ e ∈ es i, e.node ≠ nd := by
    rintro i e he rfl
    exact Option.some_ne_none _ ((h.node i e he).symm.trans hnd)
  have haddr : ∀ i, ∀ e ∈ es i, e.addr ≠ d := by
    rintro i e he rfl
    refine (h.queue i (h.lt_of_mem hlen he)).chain.allocated ?_ hd
    rw [List.map_map]
    exact List.mem_map.2 ⟨e, he, rfl⟩
  refine ⟨{ ht.setBucket key q with mem, nodes := ht.nodes.malloc nd ⟨key, some data⟩ }, ?_, rfl,
    h.replace rfl (fun j hj => Function.update_of_ne hj ..) (hmallocs ▸ Nat.le_succ _) ?_ ?_ ?_ ?_ ?_⟩
  · rw [LinkedHashtable.add, henq]
    rfl
  · change HeapQueue.Represents mem (Function.update ht.list (ht.hash key) q (ht.hash key)) _
    rw [Function.update_self, List.map_append]
    exact hq'
  · intro e he
    obtain he | he := List.mem_append.1 he
    · exact (Heap.cell_malloc_ne (hnode _ e he)).trans (h.node _ e he)
    · obtain rfl := List.mem_singleton.1 he
      exact Heap.cell_malloc_self ..
  · intro e he
    obtain he | he := List.mem_append.1 he
    · exact h.placed _ e he
    · obtain rfl := List.mem_singleton.1 he
      rfl
  · rw [List.map_append, List.nodup_append]
    refine ⟨h.nodup _, List.nodup_singleton _, ?_⟩
    rintro a ha b hb rfl
    obtain ⟨e, he, hea⟩ := List.mem_map.1 ha
    exact hnode _ e he (hea.trans (List.mem_singleton.1 hb))
  · intro j hj e he
    refine ⟨hframe _ ?_ (haddr j e he), Heap.cell_malloc_ne (hnode j e he), fun e' he' => ?_⟩
    · rw [List.map_map]
      rintro hm
      obtain ⟨e', he', hea⟩ := List.mem_map.1 hm
      exact h.apart j _ hj e he e' he' hea.symm
    · obtain he' | he' := List.mem_append.1 he'
      · exact h.apart j _ hj e he e' he'
      · obtain rfl := List.mem_singleton.1 he'
        exact haddr j e he

omit [DecidableEq A] [DecidableEq B] in
/-- Two buckets hold different nodes, because they hold different keys. -/
theorem node_ne (h : ht.Stores es) {i j : Nat} (hij : i ≠ j) {e e' : Entry A B D} (he : e ∈ es i) (he' : e' ∈ es j) :
    e.node ≠ e'.node := by
  intro heq
  have hcell := (h.node i e he).symm.trans ((congrArg ht.nodes.cell heq).trans (h.node j e' he'))
  rw [Option.some.injEq, KeyedData.mk.injEq] at hcell
  exact hij ((h.placed i e he).symm.trans ((congrArg ht.hash hcell.1).trans (h.placed j e' he')))

omit [DecidableEq A] in
theorem store (h : ht.Stores es) (hlen : 0 < ht.len.toInt) (hes : es (ht.hash key) = l ++ e :: r) (hkey : e.key = key)
    (hnode : ∀ b ∈ l ++ r, b.node ≠ e.node) (data : D) :
    ({ ht with nodes := ht.nodes.store e.node ⟨key, some data⟩ } : LinkedHashtable A B D).Stores
      (Function.update es (ht.hash key) (l ++ { e with data } :: r)) := by
  have hmem : ∀ b, b ∈ l ++ { e with data } :: r → (b ∈ l ++ r ∧ b ∈ es (ht.hash key)) ∨ b = { e with data } := by
    intro b hb
    rw [hes]
    simp only [List.mem_append, List.mem_cons] at hb ⊢
    tauto
  have he : e ∈ es (ht.hash key) := by
    rw [hes]
    simp
  have hq := h.queue _ (hash_lt hlen key)
  have hnodup := h.nodup (ht.hash key)
  rw [hes] at hq hnodup
  refine h.replace rfl (fun _ _ => rfl) (Nat.le_refl _) ?_ ?_ ?_ ?_ ?_
  · rw [List.map_append, List.map_cons] at hq ⊢
    exact hq
  · intro b hb
    obtain ⟨hb, hbes⟩ | rfl := hmem b hb
    · exact (Heap.cell_store_ne (hnode b hb)).trans (h.node _ b hbes)
    · rw [hkey]
      exact Heap.cell_store_self ..
  · intro b hb
    obtain ⟨-, hbes⟩ | rfl := hmem b hb
    · exact h.placed _ b hbes
    · exact congrArg ht.hash hkey
  · rw [List.map_append, List.map_cons] at hnodup ⊢
    exact hnodup
  · intro j hj b hb
    refine ⟨rfl, Heap.cell_store_ne (h.node_ne hj hb he), fun b' hb' => ?_⟩
    obtain ⟨-, hbes⟩ | rfl := hmem b' hb'
    · exact h.apart j _ hj b hb b' hbes
    · exact h.apart j _ hj b hb e he

theorem remove (h : ht.Stores es) (hlen : 0 < ht.len.toInt) (hes : es (ht.hash key) = l ++ e :: r)
    (hnode : ∀ b ∈ l ++ r, b.node ≠ e.node) :
    ∃ mem q, HeapQueue.remove ht.mem (ht.list (ht.hash key)) (some e.node) = some (mem, q) ∧
      ({ ht.setBucket key q with mem, nodes := ht.nodes.free e.node } : LinkedHashtable A B D).Stores
        (Function.update es (ht.hash key) (l ++ r)) := by
  have he : e ∈ es (ht.hash key) := by
    rw [hes]
    simp
  have hsub : ∀ b ∈ l ++ r, b ∈ es (ht.hash key) := by
    rw [hes]
    exact fun b hb => ((List.sublist_cons_self e r).append_left l).subset hb
  have hq := h.queue _ (hash_lt hlen key)
  have hnodup := h.nodup (ht.hash key)
  rw [hes] at hq hnodup
  rw [List.map_append, List.map_cons] at hq
  have hfirst : some e.node ∉ (l.map Entry.link).map Prod.snd := by
    rw [List.map_map]
    intro hm
    obtain ⟨b, hb, hbe⟩ := List.mem_map.1 hm
    exact hnode b (List.mem_append_left _ hb) (Option.some.inj hbe)
  obtain ⟨mem, q, hremove, hq', -, -, hmallocs, hframe⟩ := HeapQueue.Represents.remove_at hq hfirst
  refine ⟨mem, q, hremove, h.replace rfl (fun j hj => Function.update_of_ne hj ..) hmallocs.ge ?_ ?_ ?_ ?_ ?_⟩
  · change HeapQueue.Represents mem (Function.update ht.list (ht.hash key) q (ht.hash key)) _
    rw [Function.update_self, List.map_append]
    exact hq'
  · exact fun b hb => (Heap.cell_free_ne (hnode b hb)).trans (h.node _ b (hsub b hb))
  · exact fun b hb => h.placed _ b (hsub b hb)
  · exact hnodup.sublist (((List.sublist_cons_self e r).append_left l).map Entry.node)
  · intro j hj b hb
    refine ⟨hframe _ ?_, Heap.cell_free_ne (h.node_ne hj hb he), fun b' hb' => h.apart j _ hj b hb b' (hsub b' hb')⟩
    have hlinks : l.map Entry.link ++ (e.addr, some e.node) :: r.map Entry.link = (es (ht.hash key)).map Entry.link := by
      rw [hes, List.map_append, List.map_cons]
      rfl
    rw [hlinks, List.map_map]
    intro hm
    obtain ⟨b', hb', hba⟩ := List.mem_map.1 hm
    exact h.apart j _ hj b hb b' hb' hba.symm

end Stores

/-- The table holds the data of `map`, bucket by bucket and key by key. -/
def Refines (ht : LinkedHashtable A B D) (map : FifoMap D) : Prop :=
  ∃ es, ht.Stores es ∧ ∀ key, map key = ((es (ht.hash key)).filter (·.key = key)).map Entry.data

namespace Refines

variable {ht : LinkedHashtable A B D} {map : FifoMap D} {key : UInt64T} {data : D} {nd : B} {d : A}

omit [DecidableEq A] [DecidableEq B] in
theorem create (mem : QueueHeap A B) (nodes : Heap B (KeyedData D)) (ite : Nat → Option A) (length : CInt) :
    (create mem nodes ite length).Refines fun _ => [] := by
  refine ⟨fun _ => [], ⟨fun i _ => .create mem (ite i), ?_, ?_, ?_, ?_⟩, fun _ => rfl⟩
  all_goals simp

omit [DecidableEq A] [DecidableEq B] in
/-- A bucket may change in the entries with one key. -/
theorem replace {es : Nat → List (Entry A B D)} {l : List (Entry A B D)} {t : LinkedHashtable A B D}
    (hmap : ∀ key, map key = ((es (ht.hash key)).filter (·.key = key)).map Entry.data)
    (h : t.Stores (Function.update es (ht.hash key) l)) (ht' : t.len = ht.len)
    (hsame : ∀ k, k ≠ key → l.filter (·.key = k) = (es (ht.hash key)).filter (·.key = k)) :
    t.Refines (Function.update map key ((l.filter (·.key = key)).map Entry.data)) := by
  refine ⟨_, h, fun k => ?_⟩
  have hhash : t.hash k = ht.hash k := by rw [hash, hash, ht']
  rw [hhash]
  by_cases hk : k = key
  · subst hk
    rw [Function.update_self, Function.update_self]
  · rw [Function.update_of_ne hk, hmap k]
    by_cases hbucket : ht.hash k = ht.hash key
    · rw [hbucket, Function.update_self, hsame k hk]
    · rw [Function.update_of_ne hbucket]

theorem add (h : ht.Refines map) (hlen : 0 < ht.len.toInt) (key : UInt64T) (data : D) (hd : ht.mem.cell d = none)
    (hnd : ht.nodes.cell nd = none) :
    ∃ t, ht.add key (some data) nd d = some t ∧ t.len = ht.len ∧ t.Refines (map.add key data) := by
  obtain ⟨es, hes, hmap⟩ := h
  obtain ⟨t, hadd, ht', ht⟩ := hes.add hlen key data hd hnd
  refine ⟨t, hadd, ht', ?_⟩
  have hnew := replace hmap ht ht' (fun k hk => ?_)
  · rw [List.filter_append, List.map_append, ← hmap key, List.filter_cons_of_pos (by simp)] at hnew
    exact hnew
  · rw [List.filter_append, List.filter_cons_of_neg (by simpa using Ne.symm hk), List.filter_nil, List.append_nil]

/-- What a search finds is the head of the list of its key. -/
theorem search (h : ht.Refines map) (hlen : 0 < ht.len.toInt) (key : UInt64T) :
    ∃ t, t.Refines map ∧ t.len = ht.len ∧ t.mem = ht.mem ∧ t.nodes = ht.nodes ∧
      (ht.search key = some (t, none) ∧ map key = [] ∨
        ∃ (e : Entry A B D) (ds : List D), ht.search key = some (t, some (e.node, ⟨key, some e.data⟩)) ∧ map key = e.data :: ds ∧
          (∀ data, ({ t with nodes := t.nodes.store e.node ⟨key, some data⟩ } : LinkedHashtable A B D).Refines
            (Function.update map key (data :: ds))) ∧
          ∃ mem q, HeapQueue.remove t.mem (t.list (t.hash key)) (some e.node) = some (mem, q) ∧
            ({ t.setBucket key q with mem, nodes := t.nodes.free e.node } : LinkedHashtable A B D).Refines
              (Function.update map key ds)) := by
  obtain ⟨es, hes, hmap⟩ := h
  obtain ⟨ite, hsearch⟩ := hes.search_eq hlen key
  have hes' := hes.setBucket key ite
  obtain ⟨t, htable⟩ : ∃ t, t = ht.setBucket key { ht.list (ht.hash key) with ite } := ⟨_, rfl⟩
  rw [← htable] at hsearch hes'
  have hlen' : t.len = ht.len := by rw [htable]; rfl
  have hhash : t.hash = ht.hash := by rw [htable]; rfl
  have hmap' : ∀ key, map key = ((es (t.hash key)).filter (·.key = key)).map Entry.data := hhash ▸ hmap
  refine ⟨t, ⟨es, hes', hmap'⟩, hlen', by rw [htable]; rfl, by rw [htable]; rfl, ?_⟩
  rw [← hhash] at hsearch
  rw [← hlen'] at hlen
  cases hfind : (es (t.hash key)).find? (·.key = key) with
  | none =>
    rw [hfind] at hsearch
    refine .inl ⟨hsearch, ?_⟩
    rw [hmap' key, List.filter_eq_nil_iff.2 fun e he => List.find?_eq_none.1 hfind e he, List.map_nil]
  | some e =>
    obtain ⟨l, r, hl, hkey, hleft, hnode⟩ := hes'.of_find? hfind
    have hnone : l.filter (·.key = key) = [] := List.filter_eq_nil_iff.2 fun b hb => by simpa using hleft b hb
    refine .inr ⟨e, (r.filter (·.key = key)).map Entry.data, ?_, ?_, fun data => ?_, ?_⟩
    · rw [hfind, Option.map_some, hkey] at hsearch
      exact hsearch
    · rw [hmap' key, hl, List.filter_append, hnone, List.nil_append, List.filter_cons_of_pos (by simpa using hkey)]
      rfl
    · have hnew := replace hmap' (hes'.store hlen hl hkey hnode data) rfl (fun k hk => ?_)
      · rw [List.filter_append, hnone, List.nil_append, List.filter_cons_of_pos (by simpa using hkey)] at hnew
        exact hnew
      · have hne : e.key ≠ k := fun hek => hk (hek.symm.trans hkey)
        rw [hl, List.filter_append, List.filter_append, List.filter_cons_of_neg (by simpa using hne),
          List.filter_cons_of_neg (by simpa using hne)]
    · obtain ⟨mem, q, hremove, hstores⟩ := hes'.remove hlen hl hnode
      refine ⟨mem, q, hremove, ?_⟩
      have hnew := replace hmap' hstores rfl (fun k hk => ?_)
      · rw [List.filter_append, hnone, List.nil_append] at hnew
        exact hnew
      · have hne : e.key ≠ k := fun hek => hk (hek.symm.trans hkey)
        rw [hl, List.filter_append, List.filter_append, List.filter_cons_of_neg (by simpa using hne)]

theorem get (h : ht.Refines map) (hlen : 0 < ht.len.toInt) (key : UInt64T) :
    ∃ t, ht.get key = some (map.get key, t) ∧ t.len = ht.len ∧ t.Refines map := by
  obtain ⟨t, ht, hlen', -, -, ⟨hsearch, hmap⟩ | ⟨e, ds, hsearch, hmap, -⟩⟩ := h.search hlen key
  all_goals
    refine ⟨t, ?_, hlen', ht⟩
    rw [LinkedHashtable.get, hsearch, FifoMap.get, hmap]
    rfl

theorem update (h : ht.Refines map) (hlen : 0 < ht.len.toInt) (key : UInt64T) (data : D) (hd : ht.mem.cell d = none)
    (hnd : ht.nodes.cell nd = none) :
    ∃ t, ht.update key (some data) nd d = some ((map.update key data).1, t) ∧ t.len = ht.len ∧
      t.Refines (map.update key data).2 := by
  obtain ⟨t, ht, hlen', hmem, hnodes, ⟨hsearch, hmap⟩ | ⟨e, ds, hsearch, hmap, hstore, -⟩⟩ := h.search hlen key
  · obtain ⟨u, hadd, hu, hrefines⟩ := ht.add (hlen' ▸ hlen) key data (hmem ▸ hd) (hnodes ▸ hnd)
    refine ⟨u, ?_, hu.trans hlen', ?_⟩
    · simp only [LinkedHashtable.update, hsearch, hadd, FifoMap.update, hmap, Option.bind_eq_bind, Option.bind_some]
    · simp only [FifoMap.update, hmap]
      exact hrefines
  · refine ⟨{ t with nodes := t.nodes.store e.node ⟨key, some data⟩ }, ?_, ?_, ?_⟩
    · simp only [LinkedHashtable.update, hsearch, FifoMap.update, hmap, Option.bind_eq_bind, Option.bind_some]
    · exact hlen'
    · simp only [FifoMap.update, hmap]
      exact hstore data

/-- `remove` deletes the right node, whatever it returns. -/
theorem remove (h : ht.Refines map) (hlen : 0 < ht.len.toInt) (key : UInt64T) (freed : Option D) :
    ∃ t, ht.remove key freed = some (if (map.get key).isSome then freed else none, t) ∧ t.len = ht.len ∧
      t.Refines (map.remove key).2 := by
  obtain ⟨t, ht, hlen', -, -, ⟨hsearch, hmap⟩ | ⟨e, ds, hsearch, hmap, -, mem, q, hremove, hrefines⟩⟩ := h.search hlen key
  · refine ⟨t, ?_, hlen', ?_⟩
    · simp only [LinkedHashtable.remove, hsearch, FifoMap.get, hmap, Option.bind_eq_bind, Option.bind_some]
      rfl
    · simp only [FifoMap.remove, hmap]
      exact ht
  · refine ⟨{ t.setBucket key q with mem, nodes := t.nodes.free e.node }, ?_, ?_, ?_⟩
    · simp only [LinkedHashtable.remove, hsearch, hremove, FifoMap.get, hmap, Option.bind_eq_bind, Option.bind_some]
      rfl
    · exact hlen'
    · simp only [FifoMap.remove, hmap]
      exact hrefines

end Refines

end LinkedHashtable

/-- A call with what the memory management does in it: the blocks that `fdmi_malloc` returns, and what a freed block
reads as. -/
inductive HashtableCall (A B D : Type u)
  | add (key : UInt64T) (data : D) (nd : B) (d : A)
  | update (key : UInt64T) (newData : D) (nd : B) (d : A)
  | get (key : UInt64T)
  | remove (key : UInt64T) (freed : Option D)
  deriving DecidableEq, Repr

/-- A table beside the map that it stands for, each with the results of its calls. -/
structure ComparedHashtable (A B D : Type u) where
  table : LinkedHashtable A B D
  returned : List (Option D)
  map : FifoMap D
  expected : List (Option D)

namespace ComparedHashtable

variable {A B D : Type u} [DecidableEq A] [DecidableEq B]

def create (mem : QueueHeap A B) (nodes : Heap B (KeyedData D)) (ite : Nat → Option A) (length : CInt) :
    ComparedHashtable A B D := ⟨.create mem nodes ite length, [], fun _ => [], []⟩

def step (s : ComparedHashtable A B D) : HashtableCall A B D → Option (ComparedHashtable A B D)
  | .add key data nd d =>
    (s.table.add key (some data) nd d).map fun t => { s with table := t, map := s.map.add key data }
  | .update key newData nd d =>
    (s.table.update key (some newData) nd d).map fun r =>
      let m := s.map.update key newData
      ⟨r.2, s.returned ++ [r.1], m.2, s.expected ++ [m.1]⟩
  | .get key =>
    (s.table.get key).map fun r => ⟨r.2, s.returned ++ [r.1], s.map, s.expected ++ [s.map.get key]⟩
  | .remove key freed =>
    (s.table.remove key freed).map fun r =>
      let m := s.map.remove key
      ⟨r.2, s.returned ++ [r.1], m.2, s.expected ++ [m.1]⟩

/-- The allocator returns blocks that are not in use. -/
def Fresh (s : ComparedHashtable A B D) : HashtableCall A B D → Prop
  | .add _ _ nd d | .update _ _ nd d => (s.table.nodes.cell nd).isNone ∧ (s.table.mem.cell d).isNone
  | .get _ | .remove _ _ => True

/-- A `remove` that finds its key reads back what the freed block held. -/
def KeepsFreed (s : ComparedHashtable A B D) : HashtableCall A B D → Prop
  | .remove key freed => ∀ d ∈ s.map.get key, freed = some d
  | .add _ _ _ _ | .update _ _ _ _ | .get _ => True

instance (s : ComparedHashtable A B D) (c : HashtableCall A B D) : Decidable (s.Fresh c) := by
  cases c
  all_goals unfold Fresh; infer_instance

instance [DecidableEq D] (s : ComparedHashtable A B D) (c : HashtableCall A B D) : Decidable (s.KeepsFreed c) := by
  cases c
  all_goals unfold KeepsFreed; infer_instance

structure Agrees (s : ComparedHashtable A B D) : Prop where
  len : 0 < s.table.len.toInt
  table : s.table.Refines s.map
  returned : s.returned = s.expected

variable {s t : ComparedHashtable A B D} {c : HashtableCall A B D}

theorem Agrees.step (h : s.Agrees) (hfresh : s.Fresh c) (hok : s.KeepsFreed c) : ∃ t, s.step c = some t ∧ t.Agrees := by
  cases c with
  | add key data nd d =>
    obtain ⟨t, hadd, hlen, ht⟩ := h.table.add h.len key data (Option.isNone_iff_eq_none.1 hfresh.2)
      (Option.isNone_iff_eq_none.1 hfresh.1)
    refine ⟨{ s with table := t, map := s.map.add key data }, ?_, hlen ▸ h.len, ht, h.returned⟩
    rw [ComparedHashtable.step, hadd]
    rfl
  | update key data nd d =>
    obtain ⟨t, hupdate, hlen, ht⟩ := h.table.update h.len key data (Option.isNone_iff_eq_none.1 hfresh.2)
      (Option.isNone_iff_eq_none.1 hfresh.1)
    refine ⟨⟨t, _, (s.map.update key data).2, _⟩, ?_, hlen ▸ h.len, ht,
      congrArg (· ++ [(s.map.update key data).1]) h.returned⟩
    rw [ComparedHashtable.step, hupdate]
    rfl
  | get key =>
    obtain ⟨t, hget, hlen, ht⟩ := h.table.get h.len key
    refine ⟨⟨t, _, s.map, _⟩, ?_, hlen ▸ h.len, ht, congrArg (· ++ [s.map.get key]) h.returned⟩
    rw [ComparedHashtable.step, hget]
    rfl
  | remove key freed =>
    obtain ⟨t, hremove, hlen, ht⟩ := h.table.remove h.len key freed
    have hresult : (if (s.map.get key).isSome then freed else none) = (s.map.remove key).1 := by
      have hok : ∀ d ∈ (s.map key).head?, freed = some d := hok
      rw [FifoMap.get, FifoMap.remove]
      cases hmap : s.map key with
      | nil => rfl
      | cons d ds =>
        rw [hmap] at hok
        exact hok d rfl
    rw [hresult] at hremove
    refine ⟨⟨t, _, (s.map.remove key).2, _⟩, ?_, hlen ▸ h.len, ht,
      congrArg (· ++ [(s.map.remove key).1]) h.returned⟩
    rw [ComparedHashtable.step, hremove]
    rfl

theorem keepsFreed_of_returned (h : s.Agrees) (hstep : s.step c = some t) (ht : t.returned = t.expected) :
    s.KeepsFreed c := by
  cases c with
  | add _ _ _ _ | update _ _ _ _ | get _ => trivial
  | remove key freed =>
    intro d hd
    obtain ⟨u, hremove, -, -⟩ := h.table.remove h.len key freed
    rw [step, hremove] at hstep
    cases hstep
    rw [Option.mem_def] at hd
    have hlast : s.returned ++ [if (s.map.get key).isSome then freed else none] =
        s.expected ++ [(s.map.remove key).1] := ht
    rw [h.returned, List.append_cancel_left_eq, List.cons.injEq, hd, Option.isSome_some, if_pos rfl] at hlast
    have hmap : (s.map.remove key).1 = s.map.get key := by
      rw [FifoMap.remove, FifoMap.get]
      cases s.map key with
      | nil => rfl
      | cons _ _ => rfl
    rw [hlast.1, hmap, hd]

/-- The results are those of the map as long as every `remove` that finds its key reads back what it has freed. -/
theorem hashtable_refines_iff (mem : QueueHeap A B) (nodes : Heap B (KeyedData D)) (ite : Nat → Option A) (length : CInt)
    (hlen : 0 < length.toInt) (calls : List (HashtableCall A B D))
    (hfresh : Meets step Fresh (create mem nodes ite length) calls) :
    Runs step (fun s => s.returned = s.expected) (create mem nodes ite length) calls ↔
      Meets step KeepsFreed (create mem nodes ite length) calls :=
  Runs.iff_meets (fun _ h => h.returned) (fun _ _ h hfresh hok => h.step hfresh hok)
    (fun _ _ _ h _ hstep ht => keepsFreed_of_returned h hstep ht)
    ⟨hlen, LinkedHashtable.Refines.create mem nodes ite length, rfl⟩ hfresh

/-- The keys 16 and 80 fall into one bucket of four; the first two calls on 16 leave two data there. -/
def collidingCalls : List (HashtableCall Nat Nat Nat) :=
  [.add 16 1 100 200, .add 80 2 101 201, .add 16 3 102 202, .update 16 4 103 203, .get 80, .update 32 5 103 203, .get 16,
    .remove 48 none, .remove 16 (some 4), .get 16, .get 80]

theorem hashtable_refines_colliding :
    Runs step (fun s => s.returned = s.expected) (create ⟨fun _ => none, 0⟩ ⟨fun _ => none, 0⟩ (fun _ => none) 4)
      collidingCalls :=
  (hashtable_refines_iff _ _ _ 4 (by decide) collidingCalls (by decide)).2 (by decide)

/-- The freed block reads as NULL, which `fdmi_hashtable_remove` then returns for the datum 1. -/
theorem remove_returns_freed :
    ¬ Runs step (fun s => s.returned = s.expected)
      (create (⟨fun _ => none, 0⟩ : QueueHeap Nat Nat) (⟨fun _ => none, 0⟩ : Heap Nat (KeyedData Nat)) (fun _ => none) 4)
      [.add 16 1 100 200, .remove 16 none] := by
  intro h
  obtain ⟨t, ht, hresult⟩ := h.foldlM
  have hrun : ([.add 16 1 100 200, .remove 16 none].foldlM step
      (create (⟨fun _ => none, 0⟩ : QueueHeap Nat Nat) (⟨fun _ => none, 0⟩ : Heap Nat (KeyedData Nat)) (fun _ => none) 4)).map
        (fun s => (s.returned, s.expected)) = some ([none], [some 1]) := rfl
  rw [ht, Option.map_some, Option.some.injEq, Prod.mk.injEq, hresult] at hrun
  exact absurd (hrun.1.symm.trans hrun.2) (by decide)

end ComparedHashtable

end Libibtl
