import RiscvVp.RangeCheck
import RiscvVp.Base.Region

/-!
# The uncore

`uncore_module` looks at the first byte of a transaction and serves it from the
Spike bus, hands it to the external memory with the window's start subtracted,
or refuses it. The bus is Spike's own; what is used of it are its device map
and what its loads and stores do.
-/

structure Ucfg where
  defaultRstvec : BitVec 64
  spikeRamMemoryAddress : BitVec 64
  extramStartAddress : BitVec 64
  extramEndAddress : BitVec 64

/-- Spike's `bus_t` with its devices added. `byte` is what a device holds at an
address. -/
structure SpikeBus (B : Type) where
  findDevice : BitVec 64 → Nat → Bool
  load : B → BitVec 64 → DataBuffer → Bool × DataBuffer
  store : B → BitVec 64 → DataBuffer → Bool × B
  byte : B → Nat → Byte

namespace Uncore

inductive TlmNexthop where
  | spikeBus
  | extram
  | unknownDevice
deriving DecidableEq, Repr

def resetVecSize : Nat := 8

/-- The reset vector of 32-bit words, filled up to whole pages. -/
def bootRom (ucfg : Ucfg) : Region :=
  ⟨ucfg.defaultRstvec.toNat, (4 * resetVecSize + 0x1000 - 1) / 0x1000 * 0x1000⟩

def spikeRam (ucfg : Ucfg) : Region := ⟨ucfg.spikeRamMemoryAddress.toNat, 16384⟩

/-- The window of the external memory; its end address belongs to it. -/
def extram (ucfg : Ucfg) : Region :=
  ⟨ucfg.extramStartAddress.toNat,
    ucfg.extramEndAddress.toNat + 1 - ucfg.extramStartAddress.toNat⟩

section Transport
variable {B : Type} (ucfg : Ucfg) (S : SpikeBus B)

/-- `paddr >> PGSHIFT << PGSHIFT` is looked up for a whole page. -/
def tlmAddressDecode (paddr : BitVec 64) : TlmNexthop :=
  if S.findDevice (paddr >>> 12 <<< 12) 4096 then .spikeBus
  else if ucfg.extramStartAddress ≤ paddr ∧ paddr ≤ ucfg.extramEndAddress then .extram
  else .unknownDevice

/-- What `b_transport` does itself: answer, or call the initiator socket last. -/
inductive Hop (B : Type) where
  | answered (trans : Payload) (delay : Nat) (bus : B)
  | forwarded (trans : Payload) (delay : Nat)
  | raised (r : Report)

def answer (done : Bool) : TlmResponseStatus := if done then .ok else .genericError

def translate (trans : Payload) : Payload :=
  { trans with address := trans.address - ucfg.extramStartAddress }

def bTransport (bus : B) (trans : Payload) (delay : Nat) : Hop B :=
  match tlmAddressDecode ucfg S trans.address with
  | .spikeBus =>
    match trans.command with
    | .read =>
      .answered { trans with
        data := (S.load bus trans.address trans.data).2
        responseStatus := answer (S.load bus trans.address trans.data).1 } (delay + scNs 10) bus
    | .write =>
      .answered (trans.setResponseStatus (answer (S.store bus trans.address trans.data).1))
        (delay + scNs 50) (S.store bus trans.address trans.data).2
    | .ignore => .raised ⟨"Uncore_Module", "Command ERROR."⟩
  | .extram => .forwarded (translate ucfg trans) (delay + scNs 7)
  | .unknownDevice => .answered (trans.setResponseStatus .genericError) delay bus

end Transport

end Uncore
