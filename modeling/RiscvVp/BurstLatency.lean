import RiscvVp.Termination

/-!
# How long a burst takes

Without the extension a call pushes a beat and waits for its answer before the
next. A beat alone needs three edges from queue to queue, and the beat after it
is pushed at the third. So once the first beat has been taken the return is at
a fixed edge.
-/

namespace Pipe

/-- One beat is under way, with so many edges behind it. -/
structure Lone (p : Pipe) (stage : Nat) : Prop where
  request : p.reqPipe.items.length = if stage = 0 then 1 else 0
  front : p.queue2pinsDownValid = decide (stage = 1)
  block : (p.rstn && p.pins2queueUpValid) = decide (stage = 2)
  skid : p.state = .bypass
  response : p.respPipe.items.length = if stage = 3 then 1 else 0

variable {p q : Pipe} {stage : Nat} {w : Word}

theorem Quiet.push (quiet : p.Quiet) (h : p.nbWrite w = some q) : q.Lone 0 := by
  obtain ⟨more, hwrite, rfl⟩ := nbWrite_eq_some.mp h
  obtain ⟨_, items⟩ := BoundedFifo.nbWrite_eq_some.mp hwrite
  refine ⟨?_, quiet.front, ?_, quiet.skid, ?_⟩
  · change more.items.length = 1
    rw [items, quiet.request]
    rfl
  · change (p.rstn && p.veritop0.downValidQ) = false
    cases live : p.rstn with
    | false => rfl
    | true => exact quiet.block live
  · change p.respPipe.items.length = 0
    rw [quiet.response]
    rfl

theorem Quiet.room (quiet : p.Quiet) (w : Word) : ∃ q, p.nbWrite w = some q := by
  cases h : p.nbWrite w with
  | some q => exact ⟨q, rfl⟩
  | none =>
    have full := nbWrite_eq_none.mp h
    rw [quiet.request] at full
    cases full

/-- Only an edge out of reset moves it, and each moves it one stage. -/
theorem Lone.posedge (lone : p.Lone stage) (valid : p.Valid) (live : p.rstn = true)
    (before : stage < 3) : p.posedge.Lone (stage + 1) := by
  have ready : p.pins2queueUpReady = true := by simp [valid.ready, lone.skid]
  have room : p.respPipe.items.length < 4 := by
    rw [lone.response]
    split <;> decide
  have offered : p.posedge.pins2queueUpValid = p.queue2pinsDownValid := by
    simp [pins2queueUpValid, Pipe.posedge, live, ready, IoBlock.downValid]
  have front := work_of_advance live (Or.inr ready)
  have block := lone.block
  rw [live, Bool.true_and] at block
  have back := valid.skidStep live
  have request := lone.request
  have response := lone.response
  -- the request queue hands its beat to the front register at the first edge
  have head : p.posedge.reqPipe.items.length = 0 ∧
      p.posedge.queue2pinsDownValid = decide (stage = 0) := by
    by_cases first : stage = 0
    · rw [if_pos first] at request
      cases taken : p.posedge.queue2pinsDownValid with
      | false =>
        rw [taken, Bool.toNat_false] at front
        omega
      | true =>
        rw [taken, Bool.toNat_true] at front
        exact ⟨by omega, by simp [first]⟩
    · rw [if_neg first] at request
      cases taken : p.posedge.queue2pinsDownValid with
      | false =>
        rw [taken, Bool.toNat_false] at front
        exact ⟨by omega, by simp [first]⟩
      | true =>
        rw [taken, Bool.toNat_true] at front
        omega
  -- the response queue takes it at the third
  have tail : p.posedge.state = .bypass ∧
      p.posedge.respPipe.items.length = if stage = 2 then 1 else 0 := by
    rw [if_neg (by omega)] at response
    by_cases third : stage = 2
    · obtain ⟨bypass, items⟩ := back.pushed ⟨room, Or.inr (by simpa [third] using block)⟩
      rw [items, List.length_append, response, if_pos third]
      exact ⟨bypass, rfl⟩
    · have quiet : p.pins2queueUpValid = false := by simpa [third] using block
      obtain ⟨items, _, _, idles⟩ := back.unmoved (by simp [lone.skid, quiet])
      rw [items, response, if_neg third]
      exact ⟨idles lone.skid quiet, rfl⟩
  refine ⟨?_, ?_, ?_, tail.1, ?_⟩
  · rw [if_neg (Nat.succ_ne_zero _)]
    exact head.1
  · rw [head.2]
    simp
  · rw [posedge_rstn, live, Bool.true_and, offered, lone.front]
    simp
  · rw [tail.2]
    simp

/-- Under reset it stays in the request queue. -/
theorem Lone.posedge_of_reset (lone : p.Lone 0) (valid : p.Valid) (reset : p.rstn = false) :
    p.posedge.Lone 0 := by
  obtain ⟨same, _, _⟩ := Pipe.posedge_of_reset valid reset
  rw [same]
  exact ⟨lone.request, lone.front, by rw [reset]; rfl, lone.skid, lone.response⟩

theorem Lone.releaseReset (lone : p.Lone 0) (cleared : p.Cleared) (reset : p.rstn = false) :
    p.releaseReset.Lone 0 :=
  ⟨lone.request, lone.front, cleared reset, lone.skid, lone.response⟩

/-- It can be read at the third stage and leaves nothing behind. -/
theorem Lone.pop (lone : p.Lone stage) (h : p.nbRead = some (w, q)) : stage = 3 ∧ q.Quiet := by
  obtain ⟨rest, hread, rfl⟩ := nbRead_eq_some.mp h
  have items := congrArg List.length (BoundedFifo.nbRead_eq_some.mp hread)
  rw [lone.response, List.length_cons] at items
  by_cases third : stage = 3
  · subst third
    refine ⟨rfl, ?_, lone.front, fun live => ?_, lone.skid, ?_⟩
    · exact List.eq_nil_of_length_eq_zero lone.request
    · have block := lone.block
      change p.rstn = true at live
      rwa [live, Bool.true_and] at block
    · exact List.eq_nil_of_length_eq_zero (by simpa using items.symm)
  · rw [if_neg third] at items
    omega

theorem Lone.ready (lone : p.Lone 3) : ∃ r, p.nbRead = some r := by
  cases h : p.nbRead with
  | some r => exact ⟨r, rfl⟩
  | none =>
    have items := lone.response
    rw [nbRead_eq_none.mp h] at items
    cases items

end Pipe

namespace Kernel

variable {ι : Type} [DecidableEq ι] {period base grid : Nat} {me : ι} {k : Kernel ι} {t : Payload}
  {m : Ram}

/-- From this time on an edge takes a beat that waits. -/
def ready (k : Platform ι) : Nat := k.release.getD k.now

/-- Reset is over at `base`, and edges come at `grid` and every period after. -/
structure Clocked (period base grid : Nat) (k : Platform ι) : Prop where
  pending : ∀ r, k.release = some r → r = base
  live : k.release = none → base ≤ k.now
  grid : ∃ n, k.nextEdge = grid + n * period

/-- An edge that may be the first to take a beat. -/
structure Takes (period base grid edge : Nat) : Prop where
  lower : base ≤ edge
  upper : edge ≤ base + period
  grid : ∃ n, edge = grid + n * period

/-- Where a burst without the extension stands: before its first beat is taken,
or a whole number of edges after it, three for each beat. -/
inductive Paces (period base grid : Nat) (k : Kernel ι) (length : Nat) : Prop
  | early (pc : k.act.pc = .lock ∨ ∃ w, k.act.pc = .write 0 w) (quiet : k.pipe.Quiet)
      (now : k.now ≤ base) (soon : k.nextEdge ≤ base + period)
  | first (pc : k.act.pc = .read 0) (lone : k.pipe.Lone 0) (soon : k.nextEdge ≤ base + period)
  | reading {edge i stage : Nat} (takes : Takes period base grid edge)
      (released : k.release = none) (pc : k.act.pc = .read i) (lone : k.pipe.Lone stage)
      (three : stage ≤ 3) (moved : 0 < 3 * i + stage)
      (next : k.nextEdge = edge + (3 * i + stage) * period)
      (answered : stage = 3 → k.now + period = k.nextEdge)
  | writing {edge i : Nat} {w : Word} (takes : Takes period base grid edge)
      (released : k.release = none) (pc : k.act.pc = .write i w) (quiet : k.pipe.Quiet)
      (later : 0 < i) (next : k.nextEdge = edge + 3 * i * period)
      (now : k.now + period = k.nextEdge)
  | complete {edge : Nat} (takes : Takes period base grid edge) (released : k.release = none)
      (pc : k.act.pc = .unlock) (next : k.nextEdge = edge + 3 * length * period)
      (now : k.now + period = k.nextEdge)
  | returned (pc : k.act.pc = .returned)

theorem Clocked.next {e : Event} (clocked : Clocked period base grid k.toPlatform)
    (he : k.Enabled me e) : Clocked period base grid (k.next period me e).toPlatform := by
  obtain ⟨pending, live, n, next⟩ := clocked
  cases e with
  | edge =>
    refine ⟨pending, live, n + 1, ?_⟩
    change k.nextEdge + period = _
    rw [next, Nat.succ_mul, Nat.add_assoc]
  | release => exact ⟨by rintro _ ⟨⟩, fun _ => (pending _ he).ge, n, next⟩
  | resume =>
    obtain ⟨⟨act, mem⟩, step⟩ := Option.isSome_iff_exists.mp he
    rw [next_resume step]
    exact ⟨pending, live, n, next⟩
  | advance d =>
    exact ⟨pending, fun released => (live released).trans he.2.1.le, n, next⟩

omit [DecidableEq ι] in
theorem Timed.live (timed : k.Timed period) (released : k.release = none) :
    k.pipe.rstn = true := by
  simpa only [Platform.ResetPending, released] using timed.reset

theorem Paces.edge {length : Nat} (paces : Paces period base grid k length) (rising : 0 < period)
    (timed : k.Timed period) (clocked : Clocked period base grid k.toPlatform)
    (he : k.Enabled me .edge) : Paces period base grid (k.next period me .edge) length := by
  have instant : k.now = k.nextEdge := he
  have pipe : (k.next period me .edge).pipe = k.pipe.posedge := rfl
  have edge : (k.next period me .edge).nextEdge = k.nextEdge + period := rfl
  have now : (k.next period me .edge).now = k.now := rfl
  have act : (k.next period me .edge).act = k.act := rfl
  have release : (k.next period me .edge).release = k.release := rfl
  cases paces with
  | early pc quiet before soon =>
    have answers := Pipe.posedge_answers timed.valid
    rw [quiet.answers_eq_nil] at answers
    exact .early pc (Pipe.quiet_of_answers answers).1 before (by omega)
  | first pc lone soon =>
    cases released : k.release with
    | some r =>
      have reset := timed.reset
      have due := clocked.pending r released
      simp only [Platform.ResetPending, released] at reset
      exact .first pc (lone.posedge_of_reset timed.valid reset.1) (by omega)
    | none =>
      have live := clocked.live released
      have takes : Takes period base grid k.nextEdge := ⟨by omega, soon, clocked.grid⟩
      have lone' := lone.posedge timed.valid (Timed.live timed released) (by decide)
      rw [← pipe] at lone'
      refine .reading takes released pc lone' (by decide) (by decide) ?_ (by rintro ⟨⟩)
      rw [edge, Nat.mul_zero, Nat.zero_add, Nat.zero_add, Nat.one_mul]
  | @reading first i stage takes released pc lone three moved next answered =>
    have before : stage < 3 := by
      by_contra last
      have := answered (by omega)
      omega
    have lone' := lone.posedge timed.valid (Timed.live timed released) before
    rw [← pipe] at lone'
    refine .reading takes released pc lone' before (by omega) ?_ ?_
    · rw [edge, next, Nat.add_assoc, ← Nat.succ_mul]
      rfl
    · intro _
      omega
  | writing _ _ _ _ _ _ waits => omega
  | complete _ _ _ _ waits => omega
  | returned pc => exact .returned pc

theorem Paces.release {length : Nat} (paces : Paces period base grid k length)
    (timed : k.Timed period) (he : k.Enabled me .release) :
    Paces period base grid (k.next period me .release) length := by
  have due : k.release = some k.now := he
  have cleared := timed.cleared he
  have reset := timed.reset
  simp only [Platform.ResetPending, due] at reset
  cases paces with
  | early pc quiet before soon =>
    have answers := (Pipe.releaseReset_answers cleared).1
    rw [quiet.answers_eq_nil] at answers
    exact .early pc (Pipe.quiet_of_answers answers).1 before soon
  | first pc lone soon => exact .first pc (lone.releaseReset cleared reset.1) soon
  | reading _ released => rw [due] at released; cases released
  | writing _ released => rw [due] at released; cases released
  | complete _ released => rw [due] at released; cases released
  | returned pc => exact .returned pc

/-- A call that goes on is at a point where no time has passed since the last edge. -/
theorem Paces.resume (paces : Paces period base grid k t.dataLength)
    (running : Running period t m me k) (plain : t.extension = none) (nonempty : 0 < t.dataLength)
    (he : k.Enabled me .resume) :
    Paces period base grid (k.next period me .resume) t.dataLength := by
  obtain ⟨⟨act, mem⟩, step⟩ := Option.isSome_iff_exists.mp he
  rw [next_resume step]
  cases paces with
  | early pc quiet before soon =>
    rcases pc with pc | ⟨w, pc⟩
    · cases running.phase with
      | locking _ trans free =>
        simp only [resumed, Activation.resume, pc, Option.ite_none_right_eq_some, Option.some.injEq,
          Prod.mk.injEq] at step
        obtain ⟨_, rfl, rfl⟩ := step
        refine .early (Or.inr ⟨t.reqBeat 0, ?_⟩) quiet before soon
        simp only [Activation.burst, trans, plain, Activation.blockingHead, if_pos nonempty]
      | holding _ holding => exact absurd pc holding.pc_ne.1
      | returned pc' => rw [pc] at pc'; cases pc'
    · simp only [resumed, Activation.resume, pc, Option.map_eq_some_iff, Prod.mk.injEq] at step
      obtain ⟨q, hwrite, rfl, rfl⟩ := step
      exact .first rfl (quiet.push hwrite) soon
  | first pc lone soon =>
    simp only [resumed, Activation.resume, pc, Option.map_eq_some_iff, Prod.mk.injEq] at step
    obtain ⟨⟨w, q⟩, hread, _, _⟩ := step
    cases (lone.pop hread).1
  | @reading first i stage takes released pc lone three moved next answered =>
    obtain ⟨sent, got, beats, hpc⟩ :=
      running.holding_of (by rw [pc]; rintro ⟨⟩) (by rw [pc]; rintro ⟨⟩)
    rw [pc] at hpc
    obtain ⟨rfl, rfl⟩ := hpc
    have sent := beats.pushed_le
    simp only [resumed, Activation.resume, pc, Option.map_eq_some_iff, Prod.mk.injEq] at step
    obtain ⟨⟨w, q⟩, hread, rfl, rfl⟩ := step
    obtain ⟨rfl, quiet⟩ := lone.pop hread
    have now := answered rfl
    simp only [Activation.blockingHead, Payload.acceptResp_dataLength, beats.dataLength]
    split
    · exact .writing takes released rfl quiet (Nat.succ_pos i) next now
    · rename_i done
      have all : t.dataLength = i + 1 := by omega
      refine .complete takes released rfl ?_ now
      rw [all]
      exact next
  | @writing first i w takes released pc quiet later next now =>
    simp only [resumed, Activation.resume, pc, Option.map_eq_some_iff, Prod.mk.injEq] at step
    obtain ⟨q, hwrite, rfl, rfl⟩ := step
    exact .reading takes released rfl (quiet.push hwrite) (by decide) (by omega) next
      (by rintro ⟨⟩)
  | complete _ _ pc =>
    simp only [resumed, Activation.resume, pc, Option.some.injEq, Prod.mk.injEq] at step
    obtain ⟨rfl, rfl⟩ := step
    exact .returned rfl
  | returned pc => simp [resumed, Activation.resume, pc] at step

/-- Time passes only while the beat under way has edges to wait for. -/
theorem Paces.advance {length d : Nat} (paces : Paces period base grid k length)
    (phase : Phase t m me k) (he : k.Enabled me (.advance d)) :
    Paces period base grid (k.next period me (.advance d)) length := by
  have blocked := he.1
  cases paces with
  | early pc quiet before soon =>
    exfalso
    rcases pc with pc | ⟨w, pc⟩
    · cases phase with
      | locking _ _ free => simp [resumed, Activation.resume, pc, free] at blocked
      | holding _ holding => exact holding.pc_ne.1 pc
      | returned pc' => rw [pc] at pc'; cases pc'
    · obtain ⟨q, room⟩ := quiet.room w
      have room' : k.mem.pipe.nbWrite w = some q := room
      simp [resumed, Activation.resume, pc, room'] at blocked
  | first pc lone soon => exact .first pc lone soon
  | @reading first i stage takes released pc lone three moved next answered =>
    refine .reading takes released pc lone three moved next fun third => ?_
    subst third
    obtain ⟨r, ready⟩ := lone.ready
    have ready' : k.mem.pipe.nbRead = some r := ready
    simp [resumed, Activation.resume, pc, ready'] at blocked
  | @writing first i w takes released pc quiet later next now =>
    obtain ⟨q, room⟩ := quiet.room w
    have room' : k.mem.pipe.nbWrite w = some q := room
    simp [resumed, Activation.resume, pc, room'] at blocked
  | complete _ _ pc => simp [resumed, Activation.resume, pc] at blocked
  | returned pc => exact .returned pc

theorem Paces.next {e : Event} (paces : Paces period base grid k t.dataLength)
    (running : Running period t m me k) (clocked : Clocked period base grid k.toPlatform)
    (rising : 0 < period) (plain : t.extension = none) (nonempty : 0 < t.dataLength)
    (he : k.Enabled me e) : Paces period base grid (k.next period me e) t.dataLength := by
  cases e with
  | edge => exact paces.edge rising running.timed clocked he
  | release => exact paces.release running.timed he
  | resume => exact paces.resume running plain nonempty he
  | advance d => exact paces.advance running.phase he

omit [DecidableEq ι] in
theorem now_le_ready {k : Platform ι} (timed : k.Timed period) : k.now ≤ ready k := by
  have reset := timed.reset
  cases released : k.release with
  | none => simp [ready, released]
  | some r =>
    simp only [Platform.ResetPending, released] at reset
    simp only [ready, released, Option.getD_some]
    exact reset.2.1

omit [DecidableEq ι] in
theorem clocked_start (k : Platform ι) : Clocked period (ready k) k.nextEdge k := by
  refine ⟨fun r due => ?_, fun released => ?_, 0, by simp⟩
  · rw [ready, due, Option.getD_some]
  · rw [ready, released, Option.getD_none]

omit [DecidableEq ι] in
theorem paces_start {length : Nat} (timed : k.Timed period) (pc : k.act.pc = .lock)
    (quiet : k.pipe.Quiet) :
    Paces period (ready k.toPlatform) k.nextEdge k length :=
  .early (Or.inl pc) quiet (now_le_ready timed)
    (timed.edge_soon.trans (Nat.add_le_add_right (now_le_ready timed) _))

/-- Only the unlocking call returns. -/
theorem Phase.unlock_of_return {e : Event} (phase : Phase t m me k)
    (unfinished : k.act.pc ≠ .returned) (he : k.Enabled me e)
    (ret : (k.next period me e).act.pc = .returned) : k.act.pc = .unlock := by
  cases e with
  | resume =>
    obtain ⟨⟨act, mem⟩, step⟩ := Option.isSome_iff_exists.mp he
    rw [next_resume step] at ret
    cases phase with
    | locking pc trans free idle settled =>
      simp only [resumed, Activation.resume, pc, Option.ite_none_right_eq_some, Option.some.injEq,
        Prod.mk.injEq] at step
      obtain ⟨_, rfl, _⟩ := step
      exact absurd ret (Activation.burst_holding idle settled).pc_ne.2
    | holding _ holding =>
      by_contra busy
      exact (Activation.resume_holding holding step busy).1.pc_ne.2 ret
    | returned pc => exact absurd pc unfinished
  | _ => exact absurd ret unfinished

omit [DecidableEq ι] in
/-- The instant of the return, seen from the event that returns. -/
theorem Paces.return_time {length : Nat} (paces : Paces period base grid k length)
    (last : k.act.pc = .unlock) : ∃ edge, Takes period base grid edge ∧
      k.now + period = edge + 3 * length * period := by
  cases paces with
  | complete takes _ _ next now => exact ⟨_, takes, now.trans next⟩
  | early pc =>
    rw [last] at pc
    rcases pc with pc | ⟨w, pc⟩ <;> cases pc
  | first pc => rw [last] at pc; cases pc
  | reading _ _ pc => rw [last] at pc; cases pc
  | writing _ _ pc => rw [last] at pc; cases pc
  | returned pc => rw [last] at pc; cases pc

variable {k₀ : Platform ι} {delay : Nat} {tr : List Event} {e : Event}

/-- A blocking burst of n bytes returns 3n - 1 periods after the first edge that
can take its first beat. That is the first edge at which reset is over, except
that a call made at the very instant of an edge may have to wait for the next. -/
theorem bTransport_latency (me : ι) (delay : Nat) (rising : 0 < period) (idle : k₀.Idle period)
    (serviceable : t.Serviceable) (accepted : t.beyond Payload.rtlMaxRamAddress = false)
    (plain : t.extension = none) (nonempty : 0 < t.dataLength)
    (run : (machine period me).Run (k₀.call t delay) tr k) (unfinished : k.act.pc ≠ .returned)
    (he : k.Enabled me e) (ret : (k.next period me e).act.pc = .returned) :
    ∃ n, ready k₀ ≤ k₀.nextEdge + n * period ∧ k₀.nextEdge + n * period ≤ ready k₀ + period ∧
      k.now + period = k₀.nextEdge + (n + 3 * t.dataLength) * period := by
  have positive : (t.setResponseStatus .ok).PositiveDelays := by
    intro ext paced
    cases plain.symm.trans paced
  have start := call_running delay me idle serviceable accepted
  have entry := bTransport_accepted delay serviceable accepted
  have all := run.invariant (fun _ k => Running period (t.setResponseStatus .ok) k₀.pipe.ram me k ∧
      Clocked period (ready k₀) k₀.nextEdge k.toPlatform ∧
      Paces period (ready k₀) k₀.nextEdge k t.dataLength)
    ⟨start, clocked_start k₀, paces_start (k := k₀.call t delay)
      idle.toTimed (congrArg Activation.pc entry) idle.quiet⟩ (by
      rintro _ k e ⟨running, clocked, paces⟩ he
      exact ⟨running.next positive he, clocked.next he,
        paces.next (t := t.setResponseStatus .ok) running clocked rising plain nonempty he⟩)
  obtain ⟨running, _, paces⟩ := all
  have last := running.phase.unlock_of_return unfinished he ret
  obtain ⟨edge, ⟨lower, upper, n, rfl⟩, time⟩ := paces.return_time last
  exact ⟨n, lower, upper, by rw [time, Nat.add_mul, Nat.add_assoc]⟩

/-- Two bytes loaded from power-on, with the clock and the reset of the platforms. -/
def loadTwo : Payload := ⟨.read, 5, ⟨[0, 0], DataBuffer.two_fits⟩, .incomplete, none⟩

def loadTwoRun : List Event :=
  [.resume, .resume, .edge, .advance 10, .edge, .advance 17, .release, .advance 20, .edge,
    .advance 30, .edge, .advance 40, .edge, .resume, .resume, .advance 50, .edge, .advance 60,
    .edge, .advance 70, .edge, .resume]

theorem loadTwoRun_run :
    (machine 10 ()).Run ((Platform.powerOn Bench.staleBlock 17).call loadTwo 0) loadTwoRun
      ((machine 10 ()).after ((Platform.powerOn Bench.staleBlock 17).call loadTwo 0)
        loadTwoRun) := by
  apply EventMachine.run_of_admits
  refine ⟨rfl, rfl, rfl,
    ⟨rfl, by decide, by decide, by rintro _ ⟨⟩; decide, by rintro _ ⟨⟩⟩, rfl,
    ⟨rfl, by decide, by decide, by rintro _ ⟨⟩; decide, by rintro _ ⟨⟩⟩, rfl,
    ⟨rfl, by decide, by decide, by rintro _ ⟨⟩, by rintro _ ⟨⟩⟩, rfl,
    ⟨rfl, by decide, by decide, by rintro _ ⟨⟩, by rintro _ ⟨⟩⟩, rfl,
    ⟨rfl, by decide, by decide, by rintro _ ⟨⟩, by rintro _ ⟨⟩⟩, rfl, rfl, rfl,
    ⟨rfl, by decide, by decide, by rintro _ ⟨⟩, by rintro _ ⟨⟩⟩, rfl,
    ⟨rfl, by decide, by decide, by rintro _ ⟨⟩, by rintro _ ⟨⟩⟩, rfl,
    ⟨rfl, by decide, by decide, by rintro _ ⟨⟩, by rintro _ ⟨⟩⟩, rfl, rfl, trivial⟩

/-- The first beat is taken at 20 and the return is at 70. -/
theorem bTransport_latency_loadTwo : ∃ n k,
    (machine 10 ()).Run ((Platform.powerOn Bench.staleBlock 17).call loadTwo 0) loadTwoRun k ∧
      17 ≤ n * 10 ∧ n * 10 ≤ 27 ∧ k.now + 10 = (n + 6) * 10 := by
  obtain ⟨n, lower, upper, time⟩ := bTransport_latency (e := .resume) () 0 (by decide)
    (Platform.powerOn_idle _ (Or.inl (by decide))) (Or.inl rfl) (by decide) rfl (by decide)
    loadTwoRun_run (by rintro ⟨⟩) rfl rfl
  change 17 ≤ 0 + n * 10 at lower
  change 0 + n * 10 ≤ 17 + 10 at upper
  refine ⟨n, _, loadTwoRun_run, by omega, by omega, time.trans ?_⟩
  exact Nat.zero_add _

end Kernel
