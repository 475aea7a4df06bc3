import RiscvVp.BurstMemory
import RiscvVp.PipelineStream

/-!
# One call under the simulation kernel

The clock rises once per period, `reset_thread` wakes up once, and the thread
inside `b_transport` goes on when what it waits for has come. Events that are
due at one instant may come in any order; time passes only while the thread is
suspended, and never past an event that is due.
-/

/-- The clock period is a parameter of the machine; `release` is the time at
which reset will be released, if it has not been. -/
structure Platform (ι : Type) where
  now : Nat
  nextEdge : Nat
  release : Option Nat
  mem : Memrtl ι

structure Kernel (ι : Type) extends Platform ι where
  act : Activation

namespace Platform

variable {ι : Type}

def pipe (k : Platform ι) : Pipe := k.mem.pipe

/-- The clock rises at time 0 and reset is released when its timeout has passed. -/
def powerOn (io : IoBlock top0) (rstTimeout : Nat) : Platform ι :=
  ⟨0, 0, some rstTimeout, ⟨.powerOn io, none⟩⟩

def call (k : Platform ι) (trans : Payload) (delay : Nat) : Kernel ι :=
  { k with act := .bTransport trans delay }

/-- Reset is released no earlier than due, and not before an edge has cleared the block. -/
def ResetPending (k : Platform ι) : Prop :=
  match k.release with
  | none => k.pipe.rstn = true
  | some r => k.pipe.rstn = false ∧ k.now ≤ r ∧ (k.pipe.Cleared ∨ k.nextEdge < r)

structure Timed (period : Nat) (k : Platform ι) : Prop where
  valid : k.pipe.Valid
  edge_due : k.now ≤ k.nextEdge
  edge_soon : k.nextEdge ≤ k.now + period
  reset : k.ResetPending

/-- The mutex is free and no beat is under way. -/
structure Idle (period : Nat) (k : Platform ι) : Prop extends Timed period k where
  free : k.mem.rtlAccess = none
  quiet : k.pipe.Quiet

theorem Timed.cleared {period : Nat} {k : Platform ι} (timed : Timed period k)
    (due : k.release = some k.now) : k.pipe.Cleared := by
  have reset := timed.reset
  simp only [ResetPending, due] at reset
  have := timed.edge_due
  rcases reset.2.2 with cleared | later
  · exact cleared
  · omega

theorem powerOn_idle (io : IoBlock top0) {period rstTimeout : Nat}
    (later : 0 < rstTimeout ∨ io.downValidQ = false) :
    Idle period (powerOn io rstTimeout : Platform ι) := by
  refine ⟨⟨Pipe.powerOn_valid io, Nat.le_refl 0, Nat.zero_le _, rfl, Nat.zero_le _, ?_⟩,
    rfl, rfl, rfl, by rintro ⟨⟩, rfl, rfl⟩
  rcases later with later | empty
  · exact Or.inr later
  · exact Or.inl fun _ => empty

end Platform

namespace Kernel

variable {ι : Type} [DecidableEq ι]

inductive Event where
  | edge
  | release
  | resume
  | advance (t : Nat)
deriving DecidableEq

def resumed (me : ι) (k : Kernel ι) : Option (Activation × Memrtl ι) :=
  k.act.resume me k.now k.mem

def Enabled (me : ι) (k : Kernel ι) : Event → Prop
  | .edge => k.now = k.nextEdge
  | .release => k.release = some k.now
  | .resume => (k.resumed me).isSome
  | .advance t => k.resumed me = none ∧ k.now < t ∧ t ≤ k.nextEdge ∧
      (∀ r ∈ k.release, t ≤ r) ∧ ∀ w ∈ k.act.pc.wake, t ≤ w

def next (period : Nat) (me : ι) (k : Kernel ι) : Event → Kernel ι
  | .edge =>
    { k with
      nextEdge := k.nextEdge + period
      mem := { k.mem with pipe := k.mem.pipe.posedge } }
  | .release =>
    { k with
      release := none
      mem := { k.mem with pipe := k.mem.pipe.releaseReset } }
  | .resume =>
    match k.resumed me with
    | some (act, mem) => { k with act := act, mem := mem }
    | none => k
  | .advance t => { k with now := t }

def machine (period : Nat) (me : ι) : EventMachine (Kernel ι) Event :=
  ⟨Enabled me, next period me⟩

variable {period : Nat} {me : ι} {k : Kernel ι}

theorem next_resume {act : Activation} {mem : Memrtl ι} (step : k.resumed me = some (act, mem)) :
    k.next period me .resume = { k with act := act, mem := mem } := by
  rw [next, step]

theorem next_timed {e : Event} (timed : k.Timed period) (he : k.Enabled me e) :
    (k.next period me e).Timed period := by
  have due := timed.edge_due
  have soon := timed.edge_soon
  have reset := timed.reset
  cases e with
  | edge =>
    have hnow : k.now = k.nextEdge := he
    have cleared : k.pipe.posedge.Cleared := Bench.posedge_cleared
    refine ⟨Pipe.posedge_valid timed.valid, ?_, ?_, ?_⟩
    · change k.now ≤ k.nextEdge + period
      omega
    · change k.nextEdge + period ≤ k.now + period
      omega
    · simp only [Platform.ResetPending, next] at reset ⊢
      cases hr : k.release with
      | none => rw [hr] at reset; exact reset
      | some r => rw [hr] at reset; exact ⟨reset.1, reset.2.1, Or.inl cleared⟩
  | release => exact ⟨Pipe.releaseReset_valid timed.valid, due, soon, rfl⟩
  | resume =>
    obtain ⟨⟨act, mem⟩, step⟩ := Option.isSome_iff_exists.mp he
    obtain ⟨hrstn, hblock⟩ := Activation.resume_block step
    rw [next_resume step]
    refine ⟨Activation.resume_valid timed.valid step, due, soon, ?_⟩
    simpa only [Platform.ResetPending, Platform.pipe, Pipe.Cleared, hrstn, hblock] using reset
  | advance t =>
    obtain ⟨_, hlt, hedge, hrel, _⟩ := he
    refine ⟨timed.valid, hedge, ?_, ?_⟩
    · change k.nextEdge ≤ t + period
      omega
    · simp only [Platform.ResetPending, next] at reset ⊢
      cases hr : k.release with
      | none => rw [hr] at reset; exact reset
      | some r => rw [hr] at reset; exact ⟨reset.1, hrel r hr, reset.2.2⟩

/-- How far the call entered with payload t on the memory m has come: it waits
for the mutex, owns the pipeline, or is over. -/
inductive Phase (t : Payload) (m : Ram) (me : ι) (k : Kernel ι) : Prop where
  | locking (pc : k.act.pc = .lock) (trans : k.act.trans = t) (free : k.mem.rtlAccess = none)
      (idle : k.pipe.answers = []) (settled : k.pipe.settled = m)
  | holding (owner : k.mem.rtlAccess = some me) (holding : k.act.Holding t m k.pipe)
  | returned (pc : k.act.pc = .returned) (free : k.mem.rtlAccess = none)
      (idle : k.pipe.answers = []) (served : (k.act.trans, k.pipe.settled) = t.serve m)

variable {t : Payload} {m : Ram}

omit [DecidableEq ι] in
/-- What happens to the pipeline alone leaves the call where it is, as long as no
answer comes or goes and the memory is to settle as before. -/
theorem Phase.of_pipe {k' : Kernel ι} (phase : Phase t m me k) (act : k'.act = k.act)
    (owner : k'.mem.rtlAccess = k.mem.rtlAccess) (answers : k'.pipe.answers = k.pipe.answers)
    (settled : k'.pipe.settled = k.pipe.settled)
    (holds : k.act.Holding t m k.pipe → k.act.Holding t m k'.pipe) : Phase t m me k' := by
  cases phase with
  | locking pc trans free idle mem =>
    exact .locking (act ▸ pc) (act ▸ trans) (owner.trans free) (answers.trans idle)
      (settled.trans mem)
  | holding owned holding => exact .holding (owner.trans owned) (act ▸ holds holding)
  | returned pc free idle served =>
    refine .returned (act ▸ pc) (owner.trans free) (answers.trans idle) ?_
    rw [act, settled]
    exact served

theorem Phase.edge (phase : Phase t m me k) (valid : k.pipe.Valid) :
    Phase t m me (k.next period me .edge) :=
  phase.of_pipe rfl rfl (Pipe.posedge_answers valid) (Pipe.posedge_settled valid)
    fun holding => holding.posedge valid

theorem Phase.release (phase : Phase t m me k) (cleared : k.pipe.Cleared) :
    Phase t m me (k.next period me .release) := by
  obtain ⟨answers, settled⟩ := Pipe.releaseReset_answers cleared
  exact phase.of_pipe rfl rfl answers settled fun holding => holding.releaseReset cleared

theorem Phase.resume (phase : Phase t m me k) (he : k.Enabled me .resume) :
    Phase t m me (k.next period me .resume) := by
  obtain ⟨⟨act, mem⟩, step⟩ := Option.isSome_iff_exists.mp he
  rw [next_resume step]
  cases phase with
  | locking pc trans free idle settled =>
    simp only [resumed, Activation.resume, pc, free, if_true, Option.some.injEq,
      Prod.mk.injEq] at step
    obtain ⟨rfl, rfl⟩ := step
    exact .holding rfl (trans ▸ Activation.burst_holding idle settled)
  | holding owner holding =>
    by_cases pc : k.act.pc = .unlock
    · obtain ⟨idle, served⟩ := holding.finished pc
      simp only [resumed, Activation.resume, pc, owner, if_true, Option.some.injEq,
        Prod.mk.injEq] at step
      obtain ⟨rfl, rfl⟩ := step
      exact .returned rfl rfl idle served
    · obtain ⟨holding', same⟩ := Activation.resume_holding holding step pc
      exact .holding (same.trans owner) holding'
  | returned pc free idle served =>
    simp [resumed, Activation.resume, pc] at step

theorem Phase.next {e : Event} (phase : Phase t m me k) (timed : k.Timed period)
    (he : k.Enabled me e) : Phase t m me (k.next period me e) := by
  cases e with
  | edge => exact phase.edge timed.valid
  | release => exact phase.release (timed.cleared he)
  | resume => exact phase.resume he
  | advance d =>
    cases phase with
    | locking pc trans free idle settled => exact .locking pc trans free idle settled
    | holding owner holding => exact .holding owner holding
    | returned pc free idle served => exact .returned pc free idle served

variable {k₀ : Platform ι} {delay : Nat} {tr : List Event}

/-- A payload that passes the bound test, as the target hands it on. -/
theorem bTransport_accepted (delay : Nat) (serviceable : t.Serviceable)
    (accepted : t.beyond Payload.rtlMaxRamAddress = false) :
    Activation.bTransport t delay = ⟨t.setResponseStatus .ok, delay, .lock⟩ := by
  rcases serviceable with h | h <;> simp [Activation.bTransport, accepted, h]

theorem bTransport_refused (delay : Nat) (refused : t.beyond Payload.rtlMaxRamAddress = true) :
    Activation.bTransport t delay = ⟨t.setResponseStatus .genericError, delay, .returned⟩ := by
  simp [Activation.bTransport, refused]

omit [DecidableEq ι] in
theorem call_phase (delay : Nat) (idle : k₀.Idle period) (serviceable : t.Serviceable)
    (accepted : t.beyond Payload.rtlMaxRamAddress = false) :
    Phase (t.setResponseStatus .ok) k₀.pipe.ram me (k₀.call t delay) := by
  have entry := bTransport_accepted delay serviceable accepted
  exact .locking (congrArg Activation.pc entry) (congrArg Activation.trans entry) idle.free
    idle.quiet.answers_eq_nil idle.quiet.settled_eq_ram

/-- Every state of a run from an accepted call keeps time and a phase of that call. -/
theorem run_phase (idle : k₀.Idle period) (serviceable : t.Serviceable)
    (accepted : t.beyond Payload.rtlMaxRamAddress = false)
    (run : (machine period me).Run (k₀.call t delay) tr k) :
    k.Timed period ∧ Phase (t.setResponseStatus .ok) k₀.pipe.ram me k := by
  refine run.invariant
    (fun _ k => k.Timed period ∧ Phase (t.setResponseStatus .ok) k₀.pipe.ram me k)
    ⟨idle.toTimed, call_phase delay idle serviceable accepted⟩ ?_
  rintro _ k e ⟨timed, phase⟩ he
  exact ⟨next_timed timed he, phase.next timed he⟩

/-- A call that has returned gave the burst's own result and left the platform idle. -/
theorem returned_serve (idle : k₀.Idle period) (serviceable : t.Serviceable)
    (accepted : t.beyond Payload.rtlMaxRamAddress = false)
    (run : (machine period me).Run (k₀.call t delay) tr k) (ret : k.act.pc = .returned) :
    (k.act.trans, k.pipe.ram) = (t.setResponseStatus .ok).serve k₀.pipe.ram ∧
      k.Idle period := by
  obtain ⟨timed, phase⟩ := run_phase idle serviceable accepted run
  cases phase with
  | locking pc => rw [ret] at pc; cases pc
  | holding _ holding =>
    obtain ⟨_, _, _, hpc⟩ := holding
    rw [ret] at hpc
    exact hpc.elim
  | returned _ free answers served =>
    obtain ⟨quiet, mem⟩ := Pipe.quiet_of_answers answers
    exact ⟨by rw [show k.pipe.ram = _ from mem]; exact served, timed, free, quiet⟩

/-- A refused call is over at once, and the platform stays idle with its memory. -/
theorem refused_run (idle : k₀.Idle period) (refused : t.beyond Payload.rtlMaxRamAddress = true)
    (run : (machine period me).Run (k₀.call t delay) tr k) :
    k.act = ⟨t.setResponseStatus .genericError, delay, .returned⟩ ∧
      k.pipe.ram = k₀.pipe.ram ∧ k.Idle period := by
  have still : k.act = ⟨t.setResponseStatus .genericError, delay, .returned⟩ ∧
      k.Timed period ∧ k.mem.rtlAccess = none ∧ k.pipe.answers = [] ∧
      k.pipe.settled = k₀.pipe.ram := by
    refine run.invariant (fun _ k => k.act = ⟨t.setResponseStatus .genericError, delay, .returned⟩ ∧
      k.Timed period ∧ k.mem.rtlAccess = none ∧ k.pipe.answers = [] ∧
      k.pipe.settled = k₀.pipe.ram) ⟨bTransport_refused delay refused, idle.toTimed, idle.free,
        idle.quiet.answers_eq_nil, idle.quiet.settled_eq_ram⟩ ?_
    rintro _ k e ⟨act, timed, free, answers, settled⟩ he
    have timed' := next_timed timed he
    cases e with
    | edge =>
      exact ⟨act, timed', free, (Pipe.posedge_answers timed.valid).trans answers,
        (Pipe.posedge_settled timed.valid).trans settled⟩
    | release =>
      obtain ⟨answers', settled'⟩ := Pipe.releaseReset_answers (timed.cleared he)
      exact ⟨act, timed', free, answers'.trans answers, settled'.trans settled⟩
    | resume =>
      change (k.act.resume me k.now k.mem).isSome at he
      simp [Activation.resume, act] at he
    | advance d => exact ⟨act, timed', free, answers, settled⟩
  obtain ⟨act, timed, free, answers, settled⟩ := still
  obtain ⟨quiet, mem⟩ := Pipe.quiet_of_answers answers
  exact ⟨act, mem.trans settled, timed, free, quiet⟩

end Kernel
