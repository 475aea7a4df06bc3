import RiscvVp.Uncore
import RiscvVp.Base.SharedObject

/-!
# Harts

`spike_module` runs Spike's processor one instruction at a time. The processor
is a parameter: an instruction is the accesses it makes through `mmio_load` and
`mmio_store`, each chosen after the answers to the ones before. What the module
adds is the payload, the wait for the delay, and `keep_sim`.
-/

/-- The arguments of `mmio_load` and `mmio_store`. The buffer is the caller's;
what a load finds in it does not matter. -/
structure Mmio where
  store : Bool
  paddr : BitVec 64
  bytes : DataBuffer
  nonempty : 0 < bytes.bytes.length

/-- The boolean that both return and what the buffer holds then. -/
structure Reply where
  done : Bool
  bytes : DataBuffer
deriving DecidableEq

/-- `proc->step(1)` in a state of the processor. -/
abbrev Processor (H : Type) := H → Ask Mmio Reply H

namespace Mmio

/-- The calls of `set_...` before the transport. The extension is left alone. -/
def setOn (a : Mmio) (trans : Payload) : Payload :=
  { trans with
    command := if a.store then .write else .read
    address := a.paddr
    data := a.bytes
    responseStatus := .incomplete }

/-- The same on a payload without an extension. -/
def payload (a : Mmio) : Payload :=
  ⟨if a.store then .write else .read, a.paddr, a.bytes, .incomplete, none⟩

theorem setOn_eq_payload (a : Mmio) {trans : Payload} (plain : trans.extension = none) :
    a.setOn trans = a.payload := by
  rw [setOn, plain]
  rfl

theorem payload_serviceable (a : Mmio) : a.payload.Serviceable := by
  cases store : a.store with
  | true => exact Or.inr (by simp [payload, store])
  | false => exact Or.inl (by simp [payload, store])

theorem payload_positive (a : Mmio) : a.payload.PositiveDelays := by
  rintro _ ⟨⟩

@[simp] theorem payload_dataLength (a : Mmio) : a.payload.dataLength = a.bytes.bytes.length := rfl

end Mmio

/-- Where `spike_thread` stands: at the head of its loop, inside `proc->step(1)`,
there in the transport or in the wait for its delay, or in the wait of the loop. -/
inductive SpikePc (H : Type) where
  | loop (proc : H)
  | step (rest : Ask Mmio Reply H)
  | transport (a : Mmio) (next : Reply → Ask Mmio Reply H)
  | delayed (a : Mmio) (next : Reply → Ask Mmio Reply H) (wake : Nat)
  | paused (proc : H) (wake : Nat)
  | finished

structure SpikeModule (H : Type) where
  keepSim : Bool
  trans : Payload
  delay : Nat
  pc : SpikePc H

namespace SpikeModule

variable {H : Type}

def constructed (proc : H) : SpikeModule H :=
  { keepSim := true
    trans := ⟨.ignore, 0, ⟨[], Nat.two_pow_pos 32⟩, .incomplete, none⟩
    delay := 0
    pc := .loop proc }

/-- Up to the call of `b_transport`. -/
def request (m : SpikeModule H) (a : Mmio) : SpikeModule H :=
  { m with delay := 0, trans := a.setOn m.trans }

/-- `b_transport` has returned and `wait(delay)` begins. -/
def returned (m : SpikeModule H) (now : Nat) (a : Mmio) (next : Reply → Ask Mmio Reply H)
    (trans : Payload) (delay : Nat) : SpikeModule H :=
  { m with trans := trans, delay := delay, pc := .delayed a next (now + delay) }

/-- The switch on the response status: the reply, and `keep_sim` after it. -/
def respond (m : SpikeModule H) : Except Report (Reply × Bool) :=
  match m.trans.responseStatus with
  | .ok => .ok (⟨true, m.trans.data⟩, m.keepSim)
  | .genericError => .ok (⟨false, m.trans.data⟩, false)
  | _ => .error ⟨"Spike_Module", "Response_status ERROR."⟩

/-- `wait(2, SC_NS)` of the loop. -/
def quantum : Nat := scNs 2

/-- What the thread does by itself: leave or go on at the head of the loop, and
begin and end its wait there. -/
def work (proc : Processor H) (now : Nat) (m : SpikeModule H) : Option (SpikeModule H) :=
  match m.pc with
  | .loop h => some { m with pc := if m.keepSim then .step (proc h) else .finished }
  | .step (.done h) => some { m with pc := .paused h (now + quantum) }
  | .paused h wake => if now = wake then some { m with pc := .loop h } else none
  | _ => none

/-- The reply is handed to the processor, which goes on with its instruction. -/
def replied (m : SpikeModule H) : SpikeModule H :=
  match m.pc, m.respond with
  | .delayed _ next _, .ok (reply, keepSim) =>
    { m with keepSim := keepSim, pc := .step (next reply) }
  | _, _ => m

/-- The time at which a timed wait of the thread ends. -/
def wake (m : SpikeModule H) : Option Nat :=
  match m.pc with
  | .paused _ wake => some wake
  | .delayed _ _ wake => some wake
  | _ => none

/-- The two statuses that the switch takes without a report. -/
theorem respond_ok {m : SpikeModule H} (ok : m.trans.responseStatus = .ok) :
    m.respond = .ok (⟨true, m.trans.data⟩, m.keepSim) := by
  rw [respond, ok]

theorem respond_error {m : SpikeModule H} (error : m.trans.responseStatus = .genericError) :
    m.respond = .ok (⟨false, m.trans.data⟩, false) := by
  rw [respond, error]

end SpikeModule

namespace Uncore

variable {B : Type} (ucfg : Ucfg) (S : SpikeBus B)

/-- What becomes of a call when it reaches the RTL memory through the uncore:
it is back at once, it queues for the mutex, or a report is raised. -/
inductive Outcome (B : Type) where
  | answered (trans : Payload) (delay : Nat) (bus : B)
  | queued (act : Activation)
  | raised (r : Report)

def transport (bus : B) (trans : Payload) (delay : Nat) : Outcome B :=
  match bTransport ucfg S bus trans delay with
  | .answered reply delay bus => .answered reply delay bus
  | .raised r => .raised r
  | .forwarded request delay =>
    match Activation.bTransport request delay with
    | ⟨reply, delay, .returned⟩ => .answered reply delay bus
    | ⟨_, _, .raised r⟩ => .raised r
    | act => .queued act

variable {ucfg S} {bus bus' : B} {trans trans' : Payload} {delay delay' : Nat}

theorem transport_of_answered
    (hop : bTransport ucfg S bus trans delay = .answered trans' delay' bus') :
    transport ucfg S bus trans delay = .answered trans' delay' bus' := by
  rw [transport, hop]

/-- The delay that the uncore annotates for an access. -/
def latency (ucfg : Ucfg) (S : SpikeBus B) (a : Mmio) : Nat :=
  match tlmAddressDecode ucfg S a.paddr with
  | .spikeBus => if a.store then scNs 50 else scNs 10
  | .extram => scNs 7
  | .unknownDevice => 0

variable {a : Mmio}

theorem latency_of_answered (address : trans.address = a.paddr)
    (command : trans.command = if a.store then .write else .read)
    (hop : bTransport ucfg S bus trans delay = .answered trans' delay' bus') :
    delay' = delay + latency ucfg S a := by
  simp only [bTransport, address] at hop
  cases decode : tlmAddressDecode ucfg S a.paddr with
  | spikeBus =>
    simp only [decode, command] at hop
    rw [latency, decode]
    cases store : a.store with
    | true =>
      simp only [store, if_true] at hop
      cases hop
      rfl
    | false =>
      simp only [store, Bool.false_eq_true, if_false] at hop
      cases hop
      rfl
  | extram =>
    simp only [decode] at hop
    cases hop
  | unknownDevice =>
    simp only [decode] at hop
    rw [latency, decode]
    cases hop
    rfl

theorem latency_of_forwarded (address : trans.address = a.paddr)
    (command : trans.command = if a.store then .write else .read)
    (hop : bTransport ucfg S bus trans delay = .forwarded trans' delay') :
    latency ucfg S a = scNs 7 ∧ delay' = delay + scNs 7 := by
  simp only [bTransport, address] at hop
  cases decode : tlmAddressDecode ucfg S a.paddr with
  | spikeBus =>
    simp only [decode, command] at hop
    cases store : a.store <;> simp [store] at hop
  | extram =>
    simp only [decode] at hop
    cases hop
    exact ⟨by rw [latency, decode], rfl⟩
  | unknownDevice =>
    simp only [decode] at hop
    cases hop

end Uncore
