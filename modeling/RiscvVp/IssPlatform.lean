import RiscvVp.SerialCalls
import RiscvVp.Spike
import Mathlib.Data.Fintype.Card

/-!
# Harts on the RTL memory

The platform of two_iss_with_memrtl, with any number of harts: their threads,
the uncore between them and the memory, the clock, the end of reset and the
loop of `sc_main`. What is due at one instant comes in any order; time passes
only when every thread waits, and never past anything that is due.
-/

/-- `sc_main` inside `sc_start` until a time, or gone with an exit code. -/
inductive ScMain where
  | simulating (stop : Nat)
  | exited (code : Nat)
deriving DecidableEq

/-- What the platform is built from. -/
structure IssConfig (H B : Type) where
  ucfg : Ucfg
  spikeBus : SpikeBus B
  proc : Processor H
  clkPeriod : Nat
  rstTimeout : Nat

structure IssPlatform (ι H B : Type) extends Platform ι where
  bus : B
  act : ι → Option Activation
  spike : ι → SpikeModule H
  runningThreadsCounter : Int
  main : ScMain

namespace IssPlatform

variable {ι H B : Type}

/-- The labels of an access say where it stands: answered at once or queued,
with the mutex taken, returned by the memory, its reply with the processor. -/
inductive Event (ι : Type) where
  | edge
  | release
  | advance (t : Nat)
  | scStart
  | work (i : ι)
  | answer (i : ι) (a : Mmio)
  | enter (i : ι) (a : Mmio)
  | acquire (i : ι) (a : Mmio)
  | go (i : ι)
  | ret (i : ι)
  | respond (i : ι) (a : Mmio) (r : Reply)
  | fail (i : ι) (r : Report)

section Machine
variable [DecidableEq ι] (cfg : IssConfig H B)

/-- `sc_main` has counted one thread for each hart and is in `sc_start(1, SC_NS)`. -/
def powerOn [Fintype ι] (io : IoBlock top0) (bus : B) (proc : ι → H) : IssPlatform ι H B :=
  { Platform.powerOn io cfg.rstTimeout with
    bus := bus
    act := fun _ => none
    spike := fun i => .constructed (proc i)
    runningThreadsCounter := Fintype.card ι
    main := .simulating (scNs 1) }

def resumed (s : IssPlatform ι H B) (i : ι) : Option (Activation × Memrtl ι) :=
  (s.act i).bind fun act => act.resume i s.now s.mem

/-- What the uncore makes of an access of hart i. -/
def outcome (s : IssPlatform ι H B) (i : ι) (a : Mmio) : Uncore.Outcome B :=
  Uncore.transport cfg.ucfg cfg.spikeBus s.bus ((s.spike i).request a).trans
    ((s.spike i).request a).delay

/-- Hart i cannot go on before time t. -/
def Blocked (s : IssPlatform ι H B) (t : Nat) (i : ι) : Prop :=
  match (s.spike i).pc with
  | .loop _ => False
  | .step _ => False
  | .transport _ _ => s.resumed i = none ∧ ∀ act ∈ s.act i, ∀ w ∈ act.pc.wake, t ≤ w
  | .delayed _ _ wake => t ≤ wake
  | .paused _ wake => t ≤ wake
  | .finished => True

def Possible (s : IssPlatform ι H B) : Event ι → Prop
  | .edge => s.now = s.nextEdge
  | .release => s.release = some s.now
  | .advance t => s.now < t ∧ t ≤ s.nextEdge ∧ (∀ r ∈ s.release, t ≤ r) ∧
      (∀ stop, s.main = .simulating stop → t ≤ stop) ∧ ∀ i, s.Blocked t i
  | .scStart => s.main = .simulating s.now
  | .work i => ((s.spike i).work cfg.proc s.now).isSome
  | .answer i a => ∃ next trans delay bus, (s.spike i).pc = .step (.ask a next) ∧
      s.outcome cfg i a = .answered trans delay bus
  | .enter i a => ∃ next act, (s.spike i).pc = .step (.ask a next) ∧
      s.outcome cfg i a = .queued act
  | .acquire i a => ∃ next act, (s.spike i).pc = .transport a next ∧ s.act i = some act ∧
      act.pc = .lock ∧ (s.resumed i).isSome
  | .go i => ∃ act, s.act i = some act ∧ act.pc ≠ .lock ∧ act.pc ≠ .unlock ∧ (s.resumed i).isSome
  | .ret i => ∃ a next act, (s.spike i).pc = .transport a next ∧ s.act i = some act ∧
      act.pc = .unlock
  | .respond i a r => ∃ next keepSim, (s.spike i).pc = .delayed a next s.now ∧
      (s.spike i).respond = .ok (r, keepSim)
  | .fail i r => (∃ a next, (s.spike i).pc = .delayed a next s.now ∧
      (s.spike i).respond = .error r) ∨
      ∃ a next, (s.spike i).pc = .step (.ask a next) ∧ s.outcome cfg i a = .raised r

/-- Nothing moves outside `sc_start`. -/
def Enabled (s : IssPlatform ι H B) (e : Event ι) : Prop :=
  (∃ stop, s.main = .simulating stop) ∧ s.Possible cfg e

def step (s : IssPlatform ι H B) (i : ι) : IssPlatform ι H B :=
  match s.resumed i with
  | some (act, mem) => { s with mem := mem, act := Function.update s.act i (some act) }
  | none => s

def withSpike (s : IssPlatform ι H B) (i : ι) (m : SpikeModule H) : IssPlatform ι H B :=
  { s with spike := Function.update s.spike i m }

def next (s : IssPlatform ι H B) : Event ι → IssPlatform ι H B
  | .edge =>
    { s with
      nextEdge := s.nextEdge + cfg.clkPeriod
      mem := { s.mem with pipe := s.mem.pipe.posedge } }
  | .release =>
    { s with
      release := none
      mem := { s.mem with pipe := s.mem.pipe.releaseReset } }
  | .advance t => { s with now := t }
  | .scStart =>
    { s with
      main := if 0 < s.runningThreadsCounter then .simulating (s.now + scNs 50) else .exited 0 }
  | .work i =>
    match (s.spike i).work cfg.proc s.now with
    | some m =>
      { s.withSpike i m with
        runningThreadsCounter :=
          match m.pc with
          | .finished => s.runningThreadsCounter - 1
          | _ => s.runningThreadsCounter }
    | none => s
  | .answer i _ =>
    match (s.spike i).pc with
    | .step (.ask a next) =>
      match s.outcome cfg i a with
      | .answered reply delay bus =>
        { s.withSpike i (((s.spike i).request a).returned s.now a next reply delay) with
          bus := bus }
      | _ => s
    | _ => s
  | .enter i _ =>
    match (s.spike i).pc with
    | .step (.ask a next) =>
      match s.outcome cfg i a with
      | .queued act =>
        { s.withSpike i { (s.spike i).request a with pc := .transport a next } with
          act := Function.update s.act i (some act) }
      | _ => s
    | _ => s
  | .acquire i _ => s.step i
  | .go i => s.step i
  | .ret i =>
    match (s.spike i).pc, s.resumed i with
    | .transport a next, some (act, mem) =>
      { s.withSpike i ((s.spike i).returned s.now a next act.trans act.delay) with
        mem := mem
        act := Function.update s.act i none }
    | _, _ => s
  | .respond i _ _ => s.withSpike i (s.spike i).replied
  | .fail _ _ => { s with main := .exited 1 }

def machine : EventMachine (IssPlatform ι H B) (Event ι) := ⟨Enabled cfg, next cfg⟩

end Machine

section Traces
variable (tr ur : List (Event ι))

/-- The accesses handed to the uncore, in that order. -/
def issued (tr : List (Event ι)) : List (ι × Mmio) :=
  tr.filterMap (fun | .answer i a => some (i, a) | .enter i a => some (i, a) | _ => none)

/-- The accesses in the order they took effect: when the uncore answered, or
when the call took the mutex of the memory. -/
def taken (tr : List (Event ι)) : List (ι × Mmio) :=
  tr.filterMap (fun | .answer i a => some (i, a) | .acquire i a => some (i, a) | _ => none)

/-- The replies that reached the processors. -/
def got (tr : List (Event ι)) : List (ι × Reply) :=
  tr.filterMap (fun | .respond i _ r => some (i, r) | _ => none)

@[simp] theorem issued_append : issued (tr ++ ur) = issued tr ++ issued ur :=
  List.filterMap_append ..

@[simp] theorem taken_append : taken (tr ++ ur) = taken tr ++ taken ur :=
  List.filterMap_append ..

@[simp] theorem got_append : got (tr ++ ur) = got tr ++ got ur := List.filterMap_append ..

end Traces

section Next
variable [DecidableEq ι] {cfg : IssConfig H B} {s : IssPlatform ι H B} {i : ι} {a : Mmio}
  {next : Reply → Ask Mmio Reply H}

theorem resumed_of_act {act : Activation} (here : s.act i = some act) :
    s.resumed i = act.resume i s.now s.mem := by
  rw [resumed, here]
  rfl

theorem step_of_resumed {act : Activation} {mem : Memrtl ι}
    (resumed : s.resumed i = some (act, mem)) :
    s.step i = { s with mem := mem, act := Function.update s.act i (some act) } := by
  rw [step, resumed]

/-- What the threads and `sc_main` hold is out of reach of a call. -/
theorem step_frame (s : IssPlatform ι H B) (i : ι) : (s.step i).spike = s.spike ∧
    (s.step i).now = s.now ∧ (s.step i).runningThreadsCounter = s.runningThreadsCounter ∧
    (s.step i).main = s.main := by
  rw [step]
  split <;> exact ⟨rfl, rfl, rfl, rfl⟩

theorem resumed_of_unlock {act : Activation} (here : s.act i = some act)
    (unlock : act.pc = .unlock) : s.resumed i = some ({ act with pc := .returned },
      { s.mem with rtlAccess := if s.mem.rtlAccess = some i then none else s.mem.rtlAccess }) := by
  rw [resumed_of_act here, Activation.resume, unlock]

theorem next_answer {trans : Payload} {delay : Nat} {bus : B}
    (pc : (s.spike i).pc = .step (.ask a next))
    (out : s.outcome cfg i a = .answered trans delay bus) : s.next cfg (.answer i a) =
      { s.withSpike i (((s.spike i).request a).returned s.now a next trans delay) with
        bus := bus } := by
  simp only [IssPlatform.next, pc, out]

theorem next_enter {act : Activation} (pc : (s.spike i).pc = .step (.ask a next))
    (out : s.outcome cfg i a = .queued act) : s.next cfg (.enter i a) =
      { s.withSpike i { (s.spike i).request a with pc := .transport a next } with
        act := Function.update s.act i (some act) } := by
  simp only [IssPlatform.next, pc, out]

theorem next_ret {act : Activation} {mem : Memrtl ι} (pc : (s.spike i).pc = .transport a next)
    (resumed : s.resumed i = some (act, mem)) : s.next cfg (.ret i) =
      { s.withSpike i ((s.spike i).returned s.now a next act.trans act.delay) with
        mem := mem
        act := Function.update s.act i none } := by
  simp only [IssPlatform.next, pc, resumed]

theorem next_work {m : SpikeModule H} (work : (s.spike i).work cfg.proc s.now = some m) :
    s.next cfg (.work i) = { s.withSpike i m with
      runningThreadsCounter :=
        match m.pc with
        | .finished => s.runningThreadsCounter - 1
        | _ => s.runningThreadsCounter } := by
  simp only [IssPlatform.next, work]

theorem next_respond {r : Reply} {keepSim : Bool} {wake : Nat}
    (pc : (s.spike i).pc = .delayed a next wake)
    (response : (s.spike i).respond = .ok (r, keepSim)) : s.next cfg (.respond i a r) =
      s.withSpike i { s.spike i with keepSim := keepSim, pc := .step (next r) } := by
  simp only [IssPlatform.next, SpikeModule.replied, pc, response]

/-- The clock side of the platform, under a call that is over. -/
def clock (k : Platform ι) : Kernel Unit :=
  { now := k.now
    nextEdge := k.nextEdge
    release := k.release
    mem := ⟨k.pipe, none⟩
    act := ⟨(SpikeModule.constructed ()).trans, 0, .returned⟩ }

omit [DecidableEq ι] in
theorem clock_timed {period : Nat} {k : Platform ι} :
    (clock k).Timed period ↔ k.Timed period :=
  ⟨fun timed => ⟨timed.valid, timed.edge_due, timed.edge_soon, timed.reset⟩,
    fun timed => ⟨timed.valid, timed.edge_due, timed.edge_soon, timed.reset⟩⟩

theorem timed_of_resumed {period : Nat} {act : Activation} {mem : Memrtl ι}
    (timed : s.toPlatform.Timed period) (resumed : s.resumed i = some (act, mem)) :
    ({ s.toPlatform with mem := mem } : Platform ι).Timed period := by
  rw [IssPlatform.resumed, Option.bind_eq_some_iff] at resumed
  obtain ⟨old, _, step⟩ := resumed
  obtain ⟨rstn, block⟩ := Activation.resume_block step
  have reset := timed.reset
  refine ⟨Activation.resume_valid timed.valid step, timed.edge_due, timed.edge_soon, ?_⟩
  simpa only [Platform.ResetPending, Platform.pipe, Pipe.Cleared, rstn, block] using reset

theorem step_timed {period : Nat} (timed : s.toPlatform.Timed period)
    (moves : (s.resumed i).isSome) : (s.step i).toPlatform.Timed period := by
  obtain ⟨⟨act, mem⟩, resumed⟩ := Option.isSome_iff_exists.mp moves
  rw [step_of_resumed resumed]
  exact timed_of_resumed timed resumed

/-- Every event keeps the valid pipeline, the next edge ahead, and reset pending or over. -/
theorem next_timed {e : Event ι} (timed : s.toPlatform.Timed cfg.clkPeriod)
    (he : s.Possible cfg e) : (s.next cfg e).toPlatform.Timed cfg.clkPeriod := by
  have bare := clock_timed.mpr timed
  cases e with
  | edge =>
    have he' : Kernel.Enabled () (clock s.toPlatform) .edge := he
    exact clock_timed.mp (Kernel.next_timed bare he')
  | release =>
    have he' : Kernel.Enabled () (clock s.toPlatform) .release := he
    exact clock_timed.mp (Kernel.next_timed bare he')
  | advance t =>
    obtain ⟨later, edge, release, _⟩ := he
    have he' : Kernel.Enabled () (clock s.toPlatform) (.advance t) :=
      ⟨rfl, later, edge, release, by rintro _ ⟨⟩⟩
    exact clock_timed.mp (Kernel.next_timed bare he')
  | acquire j a =>
    obtain ⟨_, _, _, _, _, moves⟩ := he
    exact step_timed timed moves
  | go j =>
    obtain ⟨_, _, _, _, moves⟩ := he
    exact step_timed timed moves
  | ret j =>
    obtain ⟨a, after, act, pc, here, last⟩ := he
    have resumed := resumed_of_unlock here last
    rw [next_ret pc resumed]
    exact timed_of_resumed timed resumed
  | work j =>
    obtain ⟨m, work⟩ := Option.isSome_iff_exists.mp he
    rw [next_work work]
    exact timed
  | answer j a =>
    obtain ⟨_, _, _, _, pc, out⟩ := he
    rw [next_answer pc out]
    exact timed
  | enter j a =>
    obtain ⟨_, _, pc, out⟩ := he
    rw [next_enter pc out]
    exact timed
  | scStart => exact timed
  | respond j a r => exact timed
  | fail j r => exact timed

end Next

end IssPlatform
