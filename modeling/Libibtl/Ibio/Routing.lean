import Libibtl.Foundation.Path
import Libibtl.Foundation.CInt

/-! # Descriptors of one client

Every `ibtl_open` makes a connection of its own, and `host_ids` maps the number that
the host returned to that connection. The numbers are chosen by the hosts, so two
hosts may return the same one.
-/

namespace Libibtl.Ibio

open Foundation

abbrev Host := Nat

/-- A descriptor returned by an open, with the connection that the open made. -/
structure Handle where
  fd : Nat
  conn : Nat
  deriving DecidableEq, Repr

/-- The table of `ibio_client.c`, the hosts behind the connections and the descriptors open on them. `live` are the
descriptors that the user may still use. -/
structure Descriptors where
  hostIds : Nat → Nat
  nextHostId : Nat
  hosts : Nat → Host
  opened : Host → List Nat
  live : List Handle

/-- The size of `host_ids`. -/
def maxHostIds : Nat := 1024

/-- The size of the peer table, which bounds the ranks that `fdmi_verbs_connect` takes. -/
def maxRanks : Nat := 1024 * 1024

namespace Descriptors

def init : Descriptors where
  hostIds _ := 0
  nextHostId := 0
  hosts _ := 0
  opened _ := []
  live := []

/-- `ibtl_open` of a file on `host`, which answers with `fd`. -/
def ibtlOpen (σ : Descriptors) (host : Host) (fd : Nat) : Descriptors :=
  { hostIds := Function.update σ.hostIds fd σ.nextHostId
    nextHostId := σ.nextHostId + 1
    hosts := Function.update σ.hosts σ.nextHostId host
    opened := Function.update σ.opened host (fd :: σ.opened host)
    live := ⟨fd, σ.nextHostId⟩ :: σ.live }

/-- The connection that `ibtl_read`, `ibtl_write`, `ibtl_dwrite` and `ibtl_close` use. -/
def hostId (σ : Descriptors) (fd : Nat) : Nat := σ.hostIds fd

/-- `ibtl_close`: the host that the message goes to closes the number there. -/
def ibtlClose (σ : Descriptors) (x : Handle) : Descriptors :=
  let host := σ.hosts (σ.hostId x.fd)
  { σ with
    opened := Function.update σ.opened host ((σ.opened host).erase x.fd)
    live := σ.live.erase x }

end Descriptors

inductive ClientCall
  | open (host : Host) (fd : Nat)
  | transfer (x : Handle)
  | close (x : Handle)
  deriving DecidableEq, Repr

namespace Descriptors

/-- A host answers with a number that is not open on it; reads and writes change no table. -/
def step (σ : Descriptors) : ClientCall → Option Descriptors
  | .open host fd =>
    if σ.nextHostId < maxRanks ∧ fd < maxHostIds ∧ fd ∉ σ.opened host then some (σ.ibtlOpen host fd) else none
  | .transfer x => if x ∈ σ.live then some σ else none
  | .close x => if x ∈ σ.live then some (σ.ibtlClose x) else none

/-- Every operation on a live descriptor goes to the connection of the open that returned it. -/
def Routed (σ : Descriptors) : Prop := ∀ x ∈ σ.live, σ.hostId x.fd = x.conn

instance (σ : Descriptors) : Decidable σ.Routed := inferInstanceAs (Decidable (∀ x ∈ _, _))

/-- The number is not that of another live descriptor. -/
def FreshNumber (σ : Descriptors) : ClientCall → Prop
  | .open _ fd => ∀ x ∈ σ.live, x.fd ≠ fd
  | _ => True

instance (σ : Descriptors) (e : ClientCall) : Decidable (σ.FreshNumber e) :=
  match e with
  | .open _ _ => inferInstanceAs (Decidable (∀ x ∈ _, _))
  | .transfer _ | .close _ => .isTrue trivial

/-- Connections are numbered in the order of the opens. -/
def Numbered (σ : Descriptors) : Prop := ∀ x ∈ σ.live, x.conn < σ.nextHostId

variable {σ σ' : Descriptors} {e : ClientCall}

theorem step_cases (h : σ.step e = some σ') :
    (∃ host fd, e = .open host fd ∧ σ' = σ.ibtlOpen host fd) ∨
    (∃ x ∈ σ.live, e = .transfer x ∧ σ' = σ) ∨
    (∃ x ∈ σ.live, e = .close x ∧ σ' = σ.ibtlClose x) := by
  cases e with
  | «open» host fd =>
    rw [step] at h
    split at h
    · exact .inl ⟨host, fd, rfl, (Option.some.inj h).symm⟩
    · cases h
  | transfer x =>
    rw [step] at h
    split at h
    · rename_i hx
      exact .inr (.inl ⟨x, hx, rfl, (Option.some.inj h).symm⟩)
    · cases h
  | close x =>
    rw [step] at h
    split at h
    · rename_i hx
      exact .inr (.inr ⟨x, hx, rfl, (Option.some.inj h).symm⟩)
    · cases h

theorem Numbered.step (hn : σ.Numbered) (h : σ.step e = some σ') : σ'.Numbered := by
  obtain ⟨host, fd, rfl, rfl⟩ | ⟨x, -, rfl, rfl⟩ | ⟨x, -, rfl, rfl⟩ := step_cases h
  · intro x hx
    rcases List.mem_cons.1 hx with rfl | hx
    · exact Nat.lt_succ_self _
    · exact Nat.lt_succ_of_lt (hn x hx)
  · exact hn
  · exact fun y hy => hn y (List.mem_of_mem_erase hy)

/-- An open keeps the routes exactly when its number is fresh. -/
theorem routed_open (hn : σ.Numbered) (hr : σ.Routed) (host : Host) (fd : Nat) :
    (σ.ibtlOpen host fd).Routed ↔ ∀ x ∈ σ.live, x.fd ≠ fd := by
  constructor
  · intro h x hx heq
    have hroute := h x (List.mem_cons_of_mem _ hx)
    simp only [hostId, ibtlOpen, heq, Function.update_self] at hroute
    have hlt := hn x hx
    omega
  · intro h x hx
    rcases List.mem_cons.1 hx with rfl | hx
    · simp [hostId, ibtlOpen]
    · simp only [hostId, ibtlOpen, Function.update_of_ne (h x hx)]
      exact hr x hx

theorem routed_step (hn : σ.Numbered) (hr : σ.Routed) (h : σ.step e = some σ') : σ'.Routed ↔ σ.FreshNumber e := by
  obtain ⟨host, fd, rfl, rfl⟩ | ⟨x, -, rfl, rfl⟩ | ⟨x, -, rfl, rfl⟩ := step_cases h
  · exact routed_open hn hr host fd
  · exact ⟨fun _ => trivial, fun _ => hr⟩
  · exact ⟨fun _ => trivial, fun _ y hy => hr y (List.mem_of_mem_erase hy)⟩

end Descriptors

/-- The runs in which every operation is routed to the connection of its open are those in which no host answers
with a number that another live descriptor has. -/
theorem descriptors_routed_iff (es : List ClientCall) (σ : Descriptors) :
    Path Descriptors.step (fun σ _ => σ.Routed) .init es σ ∧ σ.Routed ↔
      Path Descriptors.step Descriptors.FreshNumber .init es σ :=
  Path.always_iff (fun _ _ _ hn h => hn.step h) (fun _ _ _ hn hr h => Descriptors.routed_step hn hr h)
    (fun _ hx => nomatch hx) (fun _ hx => nomatch hx)

/-- Two hosts answer with the number 5, and a transfer on the first descriptor goes to the second host. -/
theorem descriptors_crossed : ∃ σ,
    Path Descriptors.step (fun _ _ => True) .init [.open 0 5, .open 1 5, .transfer ⟨5, 0⟩] σ ∧
      ⟨5, 0⟩ ∈ σ.live ∧ σ.hosts 0 = 0 ∧ σ.hosts (σ.hostId 5) = 1 ∧ σ.hostId 5 ≠ 0 := by
  obtain ⟨σ, h, hσ⟩ := exists_path_of_runWhile Descriptors.step (fun _ _ => True) .init
    [.open 0 5, .open 1 5, .transfer ⟨5, 0⟩]
    (fun σ => decide (⟨5, 0⟩ ∈ σ.live ∧ σ.hosts 0 = 0 ∧ σ.hosts (σ.hostId 5) = 1 ∧ σ.hostId 5 ≠ 0)) (by decide)
  exact ⟨σ, h, of_decide_eq_true hσ⟩

end Libibtl.Ibio
