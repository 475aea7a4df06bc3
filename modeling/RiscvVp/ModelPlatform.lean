import RiscvVp.MemModel
import RiscvVp.IssPlatform
import RiscvVp.Rbbspike
import Mathlib.Data.Finset.Card

/-!
# Harts on the reference memory

The platforms of two_iss_with_memmodel and two_iss_rbb_with_memmodel, with any
number of harts of either kind. The memory answers at once, so every thread only
waits for times. What is due at one instant comes in any order.
-/

namespace Uncore

variable {B : Type} (ucfg : Ucfg) (S : SpikeBus B)

/-- `b_transport` down to the reference memory, in one go. -/
def transportModel (bus : B) (mem : Memmodel) (trans : Payload) (delay : Nat) :
    Except Report (Payload × Nat × B × Memmodel) :=
  match bTransport ucfg S bus trans delay with
  | .answered reply delay bus => .ok (reply, delay, bus, mem)
  | .raised r => .error r
  | .forwarded request delay =>
    match mem.bTransport request delay with
    | .ok (reply, delay, mem) => .ok (reply, delay, bus, mem)
    | .error r => .error r

end Uncore

/-- What the platform is built from; `rbb` tells which harts have a debugger. -/
structure ModelConfig (ι H B D X : Type) where
  ucfg : Ucfg
  spikeBus : SpikeBus B
  rbb : ι → Bool
  proc : Processor H
  debugged : DebuggedProcessor D H
  chain : DebugChain D X
  bitbangDelay : Nat

namespace ModelConfig

variable {ι H B D X : Type} (cfg : ModelConfig ι H B D X) (i : ι)

/-- The wait in the loop of the thread. -/
def quantum : Nat := if cfg.rbb i then RbbspikeModule.quantum else SpikeModule.quantum

def begins (d : D) (h : H) : D × Ask Mmio Reply H :=
  if cfg.rbb i then cfg.debugged d h else (d, cfg.proc h)

/-- The access does not leave the module. -/
def Stays (a : Mmio) : Prop :=
  cfg.rbb i = true ∧ RbbspikeModule.tlmAddressDecode cfg.chain a.paddr = .localBus

instance (a : Mmio) : Decidable (cfg.Stays i a) := inferInstanceAs (Decidable (_ ∧ _))

def respond (m : SpikeModule H) : Except Report (Reply × Bool) :=
  if cfg.rbb i then RbbspikeModule.respond m else m.respond

end ModelConfig

structure ModelPlatform (ι H B D : Type) where
  now : Nat
  bus : B
  mem : Memmodel
  spike : ι → SpikeModule H
  debug : ι → D
  bitbang : ι → BitbangPc
  runningThreadsCounter : Int
  main : ScMain

namespace ModelPlatform

variable {ι H B D X : Type}

/-- A hart goes round its loop by `step`, `pause` and `wake`, with its accesses in
between, inside its module or through the uncore, and ends by `leave`. -/
inductive Event (ι X : Type) where
  | advance (t : Nat)
  | scStart
  | step (i : ι)
  | leave (i : ι)
  | pause (i : ι)
  | wake (i : ι)
  | inside (i : ι) (a : Mmio)
  | access (i : ι) (a : Mmio)
  | respond (i : ι) (a : Mmio) (r : Reply)
  | tick (i : ι) (x : X)
  | detach (i : ι)
  | fail (i : ι) (r : Report)

section Machine
variable [DecidableEq ι] (cfg : ModelConfig ι H B D X)

/-- `sc_main` has counted the threads and is in its first `sc_start`. -/
def powerOn [Fintype ι] (bus : B) (proc : ι → H) (debug : ι → D) : ModelPlatform ι H B D :=
  let counter : Int := Fintype.card ι + (Finset.univ.filter (cfg.rbb · = true)).card
  { now := 0
    bus := bus
    mem := .empty
    spike := fun i => .constructed (proc i)
    debug := debug
    bitbang := fun i => if cfg.rbb i then .waiting 0 else .finished
    runningThreadsCounter := counter
    main := if 0 < counter then .simulating (scNs 50) else .exited 0 }

/-- What becomes of an access of hart i at the uncore. -/
def served (s : ModelPlatform ι H B D) (i : ι) (a : Mmio) :
    Except Report (Payload × Nat × B × Memmodel) :=
  Uncore.transportModel cfg.ucfg cfg.spikeBus s.bus s.mem ((s.spike i).request a).trans
    ((s.spike i).request a).delay

/-- The threads of hart i cannot go on before time t. -/
def Blocked (s : ModelPlatform ι H B D) (t : Nat) (i : ι) : Prop :=
  (match (s.spike i).pc with
    | .delayed _ _ wake => t ≤ wake
    | .paused _ wake => t ≤ wake
    | .finished => True
    | _ => False) ∧
  match s.bitbang i with
  | .waiting wake => t ≤ wake
  | .finished => True

def Possible (s : ModelPlatform ι H B D) : Event ι X → Prop
  | .advance t => s.now < t ∧ (∀ stop, s.main = .simulating stop → t ≤ stop) ∧ ∀ i, s.Blocked t i
  | .scStart => s.main = .simulating s.now
  | .step i => ∃ h, (s.spike i).pc = .loop h ∧ (s.spike i).keepSim = true
  | .leave i => ∃ h, (s.spike i).pc = .loop h ∧ (s.spike i).keepSim = false
  | .pause i => ∃ h, (s.spike i).pc = .step (.done h)
  | .wake i => ∃ h, (s.spike i).pc = .paused h s.now
  | .inside i a => ∃ next, (s.spike i).pc = .step (.ask a next) ∧ cfg.Stays i a
  | .access i a => ∃ next reply delay bus mem, (s.spike i).pc = .step (.ask a next) ∧
      ¬ cfg.Stays i a ∧ s.served cfg i a = .ok (reply, delay, bus, mem)
  | .respond i a r => ∃ next keepSim, (s.spike i).pc = .delayed a next s.now ∧
      cfg.respond i (s.spike i) = .ok (r, keepSim)
  | .tick i _ => s.bitbang i = .waiting s.now ∧ (s.spike i).keepSim = true
  | .detach i => s.bitbang i = .waiting s.now ∧ (s.spike i).keepSim = false
  | .fail i r => (∃ a next, (s.spike i).pc = .delayed a next s.now ∧
      cfg.respond i (s.spike i) = .error r) ∨
      ∃ a next, (s.spike i).pc = .step (.ask a next) ∧ ¬ cfg.Stays i a ∧
        s.served cfg i a = .error r

/-- Nothing moves outside `sc_start`. -/
def Enabled (s : ModelPlatform ι H B D) (e : Event ι X) : Prop :=
  (∃ stop, s.main = .simulating stop) ∧ s.Possible cfg e

def withSpike (s : ModelPlatform ι H B D) (i : ι) (m : SpikeModule H) : ModelPlatform ι H B D :=
  { s with spike := Function.update s.spike i m }

def withPc (s : ModelPlatform ι H B D) (i : ι) (pc : SpikePc H) : ModelPlatform ι H B D :=
  s.withSpike i { s.spike i with pc := pc }

def next (s : ModelPlatform ι H B D) : Event ι X → ModelPlatform ι H B D
  | .advance t => { s with now := t }
  | .scStart =>
    { s with
      main := if 0 < s.runningThreadsCounter then .simulating (s.now + scNs 50) else .exited 0 }
  | .step i =>
    match (s.spike i).pc with
    | .loop h =>
      { s.withPc i (.step (cfg.begins i (s.debug i) h).2) with
        debug := Function.update s.debug i (cfg.begins i (s.debug i) h).1 }
    | _ => s
  | .leave i =>
    { s.withPc i .finished with runningThreadsCounter := s.runningThreadsCounter - 1 }
  | .pause i =>
    match (s.spike i).pc with
    | .step (.done h) => s.withPc i (.paused h (s.now + cfg.quantum i))
    | _ => s
  | .wake i =>
    match (s.spike i).pc with
    | .paused h _ => s.withPc i (.loop h)
    | _ => s
  | .inside i a =>
    match (s.spike i).pc with
    | .step (.ask _ next) =>
      { s.withPc i (.step (next (RbbspikeModule.localBus cfg.chain (s.debug i) a).1)) with
        debug := Function.update s.debug i (RbbspikeModule.localBus cfg.chain (s.debug i) a).2 }
    | _ => s
  | .access i a =>
    match (s.spike i).pc, s.served cfg i a with
    | .step (.ask _ next), .ok (reply, delay, bus, mem) =>
      { s.withSpike i (((s.spike i).request a).returned s.now a next reply delay) with
        bus := bus
        mem := mem }
    | _, _ => s
  | .respond i _ _ =>
    match (s.spike i).pc, cfg.respond i (s.spike i) with
    | .delayed _ next _, .ok (reply, keepSim) =>
      s.withSpike i { s.spike i with keepSim := keepSim, pc := .step (next reply) }
    | _, _ => s
  | .tick i x =>
    { s with
      debug := Function.update s.debug i (cfg.chain.tick x (s.debug i))
      bitbang := Function.update s.bitbang i (.waiting (s.now + cfg.bitbangDelay)) }
  | .detach i =>
    { s with
      bitbang := Function.update s.bitbang i .finished
      runningThreadsCounter := s.runningThreadsCounter - 1 }
  | .fail _ _ => { s with main := .exited 1 }

def machine : EventMachine (ModelPlatform ι H B D) (Event ι X) := ⟨Enabled cfg, next cfg⟩

end Machine

/-- An event on the way of a hart round its loop. -/
def Event.inLoop : Event ι X → Bool
  | .step _ => true
  | .pause _ => true
  | .wake _ => true
  | .inside _ _ => true
  | .access _ _ => true
  | .respond _ _ _ => true
  | _ => false

section Traces
variable (tr ur : List (Event ι X))

/-- The accesses that the uncore served, in that order. -/
def taken (tr : List (Event ι X)) : List (ι × Mmio) :=
  tr.filterMap (fun | .access i a => some (i, a) | _ => none)

/-- The replies to them that reached the processors. -/
def got (tr : List (Event ι X)) : List (ι × Reply) :=
  tr.filterMap (fun | .respond i _ r => some (i, r) | _ => none)

@[simp] theorem taken_append : taken (tr ++ ur) = taken tr ++ taken ur :=
  List.filterMap_append ..

@[simp] theorem got_append : got (tr ++ ur) = got tr ++ got ur := List.filterMap_append ..

end Traces

section Next
variable [DecidableEq ι] {cfg : ModelConfig ι H B D X} {s : ModelPlatform ι H B D} {i : ι}
  {a : Mmio} {h : H} {after : Reply → Ask Mmio Reply H}

theorem next_step (pc : (s.spike i).pc = .loop h) : s.next cfg (.step i) =
    { s.withPc i (.step (cfg.begins i (s.debug i) h).2) with
      debug := Function.update s.debug i (cfg.begins i (s.debug i) h).1 } := by
  simp only [next, pc]

theorem next_pause (pc : (s.spike i).pc = .step (.done h)) :
    s.next cfg (.pause i) = s.withPc i (.paused h (s.now + cfg.quantum i)) := by
  simp only [next, pc]

theorem next_wake {wake : Nat} (pc : (s.spike i).pc = .paused h wake) :
    s.next cfg (.wake i) = s.withPc i (.loop h) := by
  simp only [next, pc]

theorem next_inside (pc : (s.spike i).pc = .step (.ask a after)) : s.next cfg (.inside i a) =
    { s.withPc i (.step (after (RbbspikeModule.localBus cfg.chain (s.debug i) a).1)) with
      debug :=
        Function.update s.debug i (RbbspikeModule.localBus cfg.chain (s.debug i) a).2 } := by
  simp only [next, pc]

theorem next_access {reply : Payload} {delay : Nat} {bus : B} {mem : Memmodel}
    (pc : (s.spike i).pc = .step (.ask a after))
    (served : s.served cfg i a = .ok (reply, delay, bus, mem)) : s.next cfg (.access i a) =
      { s.withSpike i (((s.spike i).request a).returned s.now a after reply delay) with
        bus := bus
        mem := mem } := by
  simp only [next, pc, served]

theorem next_respond {r : Reply} {keepSim : Bool} {wake : Nat}
    (pc : (s.spike i).pc = .delayed a after wake)
    (response : cfg.respond i (s.spike i) = .ok (r, keepSim)) : s.next cfg (.respond i a r) =
      s.withSpike i { s.spike i with keepSim := keepSim, pc := .step (after r) } := by
  simp only [next, pc, response]

/-- In its loop a hart leaves time, the other threads and `sc_main` alone. -/
theorem next_frame {e : Event ι X} (he : s.Possible cfg e) (inLoop : e.inLoop = true) :
    (s.next cfg e).now = s.now ∧ (s.next cfg e).bitbang = s.bitbang ∧
      (s.next cfg e).runningThreadsCounter = s.runningThreadsCounter ∧
      (s.next cfg e).main = s.main := by
  cases e with
  | step i =>
    obtain ⟨h, pc, _⟩ := he
    rw [next_step pc]
    exact ⟨rfl, rfl, rfl, rfl⟩
  | pause i =>
    obtain ⟨h, pc⟩ := he
    rw [next_pause pc]
    exact ⟨rfl, rfl, rfl, rfl⟩
  | wake i =>
    obtain ⟨h, pc⟩ := he
    rw [next_wake pc]
    exact ⟨rfl, rfl, rfl, rfl⟩
  | inside i a =>
    obtain ⟨after, pc, _⟩ := he
    rw [next_inside pc]
    exact ⟨rfl, rfl, rfl, rfl⟩
  | access i a =>
    obtain ⟨after, _, _, _, _, pc, _, served⟩ := he
    rw [next_access pc served]
    exact ⟨rfl, rfl, rfl, rfl⟩
  | respond i a r =>
    obtain ⟨after, _, pc, response⟩ := he
    rw [next_respond pc response]
    exact ⟨rfl, rfl, rfl, rfl⟩
  | advance t => cases inLoop
  | scStart => cases inLoop
  | leave i => cases inLoop
  | tick i x => cases inLoop
  | detach i => cases inLoop
  | fail i r => cases inLoop

end Next

end ModelPlatform
