import RiscvVp.Spike

/-!
# The hart with a debugger

`rbbspike_module` runs its processor as `spike_module` does, with Spike's debug
module on a bus of its own and a second thread that polls the remote bitbang
socket. The debug module and what is behind it are Spike's, and a poll may find
anything on the socket.
-/

/-- The debug module and its JTAG side. `X` is what a poll of the socket finds. -/
structure DebugChain (D X : Type) where
  findDevice : BitVec 64 → Nat → Bool
  load : D → BitVec 64 → DataBuffer → Bool × DataBuffer × D
  store : D → BitVec 64 → DataBuffer → Bool × D
  tick : X → D → D

/-- `proc->step(1)` under the debugger. What it looks up in the debug module, and
changes there without the bus, comes first. -/
abbrev DebuggedProcessor (D H : Type) := D → H → D × Ask Mmio Reply H

/-- `bitbang_thread` at the head of its loop, at once or when its wait ends. -/
inductive BitbangPc where
  | waiting (wake : Nat)
  | finished
deriving DecidableEq

namespace RbbspikeModule

variable {D X H : Type}

inductive TlmNexthop where
  | localBus
  | uncore
deriving DecidableEq, Repr

def tlmAddressDecode (C : DebugChain D X) (paddr : BitVec 64) : TlmNexthop :=
  if C.findDevice (paddr >>> 12 <<< 12) 4096 then .localBus else .uncore

/-- `wait(2000, SC_NS)` of the loop. -/
def quantum : Nat := scNs 2000

/-- An access on the local bus. Whether it fails or not, `keep_sim` is left alone. -/
def localBus (C : DebugChain D X) (d : D) (a : Mmio) : Reply × D :=
  if a.store then
    let (done, d) := C.store d a.paddr a.bytes
    (⟨done, a.bytes⟩, d)
  else
    let (done, bytes, d) := C.load d a.paddr a.bytes
    (⟨done, bytes⟩, d)

/-- The switch on the response status of an access through the uncore. -/
def respond (m : SpikeModule H) : Except Report (Reply × Bool) :=
  match m.trans.responseStatus with
  | .ok => .ok (⟨true, m.trans.data⟩, m.keepSim)
  | .genericError => .ok (⟨false, m.trans.data⟩, false)
  | _ => .error ⟨"RbbSpike_Module", "Response_status ERROR."⟩

end RbbspikeModule
