import RiscvVp.KernelProgress

/-!
# A bound on every call

The budget counts the time to the deadline, the events due at this instant and
the resumptions possible at it. Every event before the return spends some of
it, and until then some event is possible.
-/

namespace Pipe

variable {p : Pipe}

theorem answers_length (p : Pipe) : p.answers.length = p.respPipe.items.length +
    (decide (p.state = .skid)).toNat + (p.rstn && p.pins2queueUpValid).toNat +
    p.queue2pinsDownValid.toNat + p.reqPipe.items.length := by
  have register (v : Bool) (w : Word) : (held v w).length = v.toNat := by cases v <;> rfl
  simp only [answers, StreamServer.answers, server, respBeats, reqBeats, List.length_append,
    StreamServer.replies_length, register]
  omega

theorem work_le_of_answers (live : p.rstn = true) : p.work ≤ 5 * p.answers.length := by
  rw [answers_length, live, Bool.true_and, work]
  omega

theorem Quiet.work_le (quiet : p.Quiet) : p.work ≤ 3 := by
  have valid : p.pins2queueUpValid.toNat ≤ 1 := Bool.toNat_le _
  simp only [work, quiet.request, quiet.front, quiet.skid, quiet.response, List.length_nil]
  simp
  omega

/-- An edge that finds room in the response queue leaves the skid register empty. -/
theorem posedge_bypass (valid : p.Valid) (live : p.rstn = true)
    (room : p.respPipe.items.length < 4) : p.posedge.state = .bypass := by
  have step := valid.skidStep live
  by_cases moves : p.state = .skid ∨ p.pins2queueUpValid = true
  · exact (step.pushed ⟨room, moves⟩).1
  · have stays := step.unmoved fun both => moves both.2
    rw [not_or, Bool.not_eq_true] at moves
    cases state : p.state with
    | bypass => exact stays.2.2.2 state moves.2
    | skid => exact absurd state moves.1

/-- The only beat under way is in the response queue, or has at most so many
edges behind it as its charge tells. -/
structure Nearing (p : Pipe) (edges : Nat) : Prop where
  valid : p.Valid
  live : p.rstn = true
  single : p.answers.length = 1
  closer : p.respPipe.items = [] → p.work + edges ≤ 5 ∧ (0 < edges → p.state = .bypass)

theorem Nearing.start (valid : p.Valid) (live : p.rstn = true) (single : p.answers.length = 1) :
    p.Nearing 0 :=
  ⟨valid, live, single, fun _ => ⟨by have := work_le_of_answers live; omega, by rintro ⟨⟩⟩⟩

theorem Nearing.posedge {edges : Nat} (near : p.Nearing edges) :
    p.posedge.Nearing (edges + 1) := by
  refine ⟨posedge_valid near.valid, near.live, ?_, fun empty' => ?_⟩
  · rw [posedge_answers near.valid]
    exact near.single
  · have empty : p.respPipe.items = [] := by
      by_contra waiting
      exact posedge_response_ne_nil near.valid waiting empty'
    have room : p.respPipe.items.length < 4 := by simp [empty]
    have outside : p.Outside := by
      by_contra inside
      have owed := near.single
      rw [Kernel.owes_nothing empty inside] at owed
      cases owed
    have lighter := posedge_work_lt near.valid near.live outside room
    have charge := (near.closer empty).1
    exact ⟨by omega, fun _ => posedge_bypass near.valid near.live room⟩

/-- Three edges bring a lone beat from anywhere to the consumer. -/
theorem Nearing.response_ne_nil {edges : Nat} (near : p.Nearing edges) (three : 3 ≤ edges) :
    p.respPipe.items ≠ [] := by
  intro empty
  obtain ⟨charge, bypass⟩ := near.closer empty
  have single := near.single
  have idle : decide (p.state = .skid) = false := by simp [bypass (by omega)]
  simp only [answers_length, near.live, Bool.true_and, empty, idle, List.length_nil,
    Bool.toNat_false] at single
  simp only [work, empty, idle, List.length_nil, Bool.toNat_false] at charge
  omega

end Pipe

namespace Kernel

variable {ι : Type} [DecidableEq ι] {period window : Nat} {me : ι} {k : Kernel ι} {t : Payload}
  {m : Ram}

def budget (window length : Nat) (k : Kernel ι) : Nat :=
  4 * (k.deadline window length - k.now) + (if k.now = k.nextEdge then 1 else 0) +
    (if k.release = some k.now then 1 else 0) + k.ops length

theorem Running.budget_next {e : Event} (running : Running period t m me k) (rising : 0 < period)
    (positive : t.PositiveDelays) (wide : period + t.pace ≤ window)
    (unfinished : k.act.pc ≠ .returned) (he : k.Enabled me e) :
    (k.next period me e).budget window t.dataLength < k.budget window t.dataLength := by
  have closer := running.deadline_next positive wide unfinished he
  cases e with
  | edge =>
    have instant : k.now = k.nextEdge := he
    have now : (k.next period me .edge).now = k.now := rfl
    have nextEdge : (k.next period me .edge).nextEdge = k.nextEdge + period := rfl
    have release : (k.next period me .edge).release = k.release := rfl
    have ops : (k.next period me .edge).ops t.dataLength = k.ops t.dataLength := rfl
    simp only [budget, now, nextEdge, release, ops]
    rw [if_pos instant, if_neg (by omega)]
    omega
  | release =>
    have due : k.release = some k.now := he
    have now : (k.next period me .release).now = k.now := rfl
    have nextEdge : (k.next period me .release).nextEdge = k.nextEdge := rfl
    have release : (k.next period me .release).release = none := rfl
    have ops : (k.next period me .release).ops t.dataLength = k.ops t.dataLength := rfl
    simp only [budget, now, nextEdge, release, ops]
    rw [if_neg (show ¬ (none : Option Nat) = some k.now from by rintro ⟨⟩), if_pos due]
    omega
  | resume =>
    obtain ⟨⟨act, mem⟩, step⟩ := Option.isSome_iff_exists.mp he
    have spent := (running.advanced positive wide step).ops
    rw [next_resume step] at closer ⊢
    simp only [budget]
    omega
  | advance d =>
    have upto := running.advance_le_deadline window unfinished he
    have later : k.now < d := he.2.1
    have now : (k.next period me (.advance d)).now = d := rfl
    have ops : (k.next period me (.advance d)).ops t.dataLength ≤ k.ops t.dataLength + 1 := by
      have act : (k.next period me (.advance d)).act = k.act := rfl
      cases pc : k.act.pc with
      | wait ext l wake =>
        simp only [Kernel.ops, act, pc]
        split <;> split <;> omega
      | _ =>
        simp only [Kernel.ops, act, pc]
        exact Nat.le_succ _
    simp only [budget, now]
    split <;> split <;> omega

/-- Some event is possible at any time: the call goes on, or something is due,
or time passes to the next thing that is. -/
theorem Running.exists_enabled (running : Running period t m me k) : ∃ e, k.Enabled me e := by
  cases step : k.resumed me with
  | some r => exact ⟨.resume, Option.isSome_iff_exists.mpr ⟨r, step⟩⟩
  | none =>
    by_cases released : k.release = some k.now
    · exact ⟨.release, released⟩
    by_cases edge : k.now = k.nextEdge
    · exact ⟨.edge, edge⟩
    have due := running.timed.edge_due
    have reset := running.timed.reset
    have release : ∀ r ∈ k.release, k.now < r := by
      intro r pending
      have pending' : k.release = some r := pending
      simp only [Platform.ResetPending, pending'] at reset
      have other : k.now ≠ r := by
        rintro rfl
        exact released pending'
      omega
    have wake : ∀ w ∈ k.act.pc.wake, k.now < w := by
      intro w waits
      have paced := running.paced
      cases pc : k.act.pc with
      | wait ext l wake =>
        simp only [Pc.wake, pc, Option.mem_def, Option.some.injEq] at waits
        subst waits
        simp only [Paced, pc] at paced
        simp only [resumed, Activation.resume, pc] at step
        split at step
        · cases step
        · omega
      | _ => simp [Pc.wake, pc] at waits
    let d := min k.nextEdge (min (k.release.getD k.nextEdge) (k.act.pc.wake.getD k.nextEdge))
    refine ⟨.advance d, step, ?_, Nat.min_le_left _ _, ?_, ?_⟩
    · have first : k.now < k.release.getD k.nextEdge := by
        cases h : k.release with
        | none => rw [Option.getD_none]; omega
        | some r => exact release r h
      have second : k.now < k.act.pc.wake.getD k.nextEdge := by
        cases h : k.act.pc.wake with
        | none => rw [Option.getD_none]; omega
        | some w => exact wake w h
      simp only [d]
      omega
    · intro r pending
      have : k.release.getD k.nextEdge = r := by rw [show k.release = some r from pending]; rfl
      simp only [d]
      omega
    · intro w waits
      have : k.act.pc.wake.getD k.nextEdge = w := by
        rw [show k.act.pc.wake = some w from waits]
        rfl
      simp only [d]
      omega

/-- What reset still has to go. -/
def resetLeft (k₀ : Platform ι) : Nat :=
  match k₀.release with
  | none => 0
  | some r => r - k₀.now

/-- No more events than this come between a call and its return. -/
def stepBound (period : Nat) (t : Payload) (k₀ : Platform ι) : Nat :=
  4 * (resetLeft k₀ + (6 * t.dataLength + 4) * (period + t.pace)) + 2 * t.dataLength + 6

variable {k₀ : Platform ι} {delay : Nat}

omit [DecidableEq ι] in
theorem call_running (delay : Nat) (me : ι) (idle : k₀.Idle period) (serviceable : t.Serviceable)
    (accepted : t.beyond Payload.rtlMaxRamAddress = false) :
    Running period (t.setResponseStatus .ok) k₀.pipe.ram me (k₀.call t delay) := by
  refine ⟨idle.toTimed, call_phase delay idle serviceable accepted, ?_⟩
  simp only [Paced, Platform.call, bTransport_accepted delay serviceable accepted]

omit [DecidableEq ι] in
theorem call_budget_le (delay : Nat) (idle : k₀.Idle period) (serviceable : t.Serviceable)
    (accepted : t.beyond Payload.rtlMaxRamAddress = false) :
    (k₀.call t delay).budget (period + t.pace) t.dataLength ≤ stepBound period t k₀ := by
  have entry := bTransport_accepted delay serviceable accepted
  have work : (k₀.call t delay).work t.dataLength = 6 * t.dataLength + k₀.pipe.work := by
    simp only [Kernel.work, Platform.call, entry, Pc.unsent]
  have charge := idle.quiet.work_le
  have paid : (6 * t.dataLength + k₀.pipe.work + 1) * (period + t.pace) ≤
      (6 * t.dataLength + 4) * (period + t.pace) := Nat.mul_le_mul_right _ (by omega)
  have ops : (k₀.call t delay).ops t.dataLength = 2 * t.dataLength + 4 := by
    simp only [Kernel.ops, Platform.call, entry]
  have due : (k₀.call t delay).due (period + t.pace) = k₀.now + (period + t.pace) := by
    simp only [Kernel.due, Platform.call, entry]
  have close : (k₀.call t delay).deadline (period + t.pace) t.dataLength - k₀.now ≤
      resetLeft k₀ + (6 * t.dataLength + 4) * (period + t.pace) := by
    simp only [deadline, work, due, resetLeft]
    rw [show (k₀.call t delay).release = k₀.release from rfl]
    cases k₀.release with
    | none =>
      simp only
      rw [Nat.succ_mul] at paid
      omega
    | some r =>
      simp only
      omega
  have now : (k₀.call t delay).now = k₀.now := rfl
  simp only [budget, now, ops, stepBound]
  split <;> split <;> omega

/-- While the call does not go on, each edge brings its beat nearer. -/
theorem Running.read_nearing {i : Nat} {ur : List Event} {k' : Kernel ι}
    (running : Running period t m me k) (pc : k.act.pc = .read i) (live : k.pipe.rstn = true)
    (run : (machine period me).Run k ur k') (silent : .resume ∉ ur) :
    k'.act = k.act ∧ k'.release = none ∧ k'.pipe.Nearing (ur.count .edge) := by
  have near : k.pipe.Nearing 0 := by
    obtain ⟨_, _, stage, hpc⟩ := running.holding_of (by rw [pc]; rintro ⟨⟩) (by rw [pc]; rintro ⟨⟩)
    rw [pc] at hpc
    obtain ⟨rfl, rfl⟩ := hpc
    exact .start running.timed.valid live (by rw [stage.answers_length]; omega)
  have released : k.release = none := by
    have reset := running.timed.reset
    cases pending : k.release with
    | none => rfl
    | some r =>
      simp only [Platform.ResetPending, pending] at reset
      exact absurd (live.symm.trans reset.1) (by simp)
  refine run.invariant (fun ur k' => .resume ∉ ur → k'.act = k.act ∧ k'.release = none ∧
    k'.pipe.Nearing (ur.count .edge)) (fun _ => ⟨rfl, released, near⟩) ?_ silent
  intro ur k' e ih he silent
  simp only [List.mem_append, List.mem_singleton, not_or] at silent
  obtain ⟨act, released, near⟩ := ih silent.1
  rw [List.count_append]
  cases e with
  | edge => exact ⟨act, released, near.posedge⟩
  | release =>
    have pending : k'.release = some k'.now := he
    rw [released] at pending
    cases pending
  | resume => exact absurd rfl silent.2
  | advance d => exact ⟨act, released, near⟩

theorem Running.read_answered {i : Nat} {ur : List Event} {k' : Kernel ι}
    (running : Running period t m me k) (pc : k.act.pc = .read i) (live : k.pipe.rstn = true)
    (run : (machine period me).Run k ur k') (silent : .resume ∉ ur)
    (three : 3 ≤ ur.count .edge) : k'.Enabled me .resume := by
  obtain ⟨act, _, near⟩ := running.read_nearing pc live run silent
  have answered := near.response_ne_nil three
  change (k'.act.resume me k'.now k'.mem).isSome
  simp only [Activation.resume, act, pc, Option.isSome_map]
  cases hread : k'.mem.pipe.nbRead with
  | none => exact absurd (Pipe.nbRead_eq_none.mp hread) answered
  | some r => rfl

theorem Running.run {tr : List Event} {k' : Kernel ι} (running : Running period t m me k)
    (positive : t.PositiveDelays) (run : (machine period me).Run k tr k') :
    Running period t m me k' :=
  run.invariant (fun _ k => Running period t m me k) running
    fun _ _ _ running he => running.next positive he

/-- A call on the way is over after boundedly many events, and some run of it returns. -/
theorem Running.returns (running : Running period t m me k) (rising : 0 < period)
    (positive : t.PositiveDelays) :
    (∀ tr k', (machine period me).Run k tr k' → k'.act.pc ≠ .returned →
      tr.length + k'.budget (period + t.pace) t.dataLength ≤
        k.budget (period + t.pace) t.dataLength) ∧
    ∃ tr k', (machine period me).Run k tr k' ∧ k'.act.pc = .returned := by
  have wide := Nat.le_refl (period + t.pace)
  constructor
  · intro tr k' run unfinished
    refine run.length_add_budget_le (Running period t m me) (·.act.pc = .returned)
      (budget (period + t.pace) t.dataLength) ?_ ?_ ?_ running unfinished
    · exact fun _ _ running he => running.next positive he
    · intro k e returned he
      cases e with
      | resume =>
        change (k.act.resume me k.now k.mem).isSome at he
        simp [Activation.resume, returned] at he
      | _ => exact returned
    · exact fun _ _ running unfinished he =>
        running.budget_next rising positive wide unfinished he
  · obtain ⟨tr, k', run, _, returned⟩ := EventMachine.exists_run_finished
      (M := machine period me) (Running period t m me) (·.act.pc = .returned)
      (budget (period + t.pace) t.dataLength) (fun k running unfinished => by
        obtain ⟨e, he⟩ := running.exists_enabled
        exact ⟨e, he, running.next positive he,
          running.budget_next rising positive wide unfinished he⟩) running
    exact ⟨tr, k', run, returned⟩

/-- An accepted call returns: before it does, some event is always possible and
only boundedly many can come. A blocking read is answered within three edges. -/
theorem bTransport_returns (me : ι) (delay : Nat) (rising : 0 < period) (idle : k₀.Idle period)
    (serviceable : t.Serviceable) (accepted : t.beyond Payload.rtlMaxRamAddress = false)
    (positive : t.PositiveDelays) :
    (∀ tr k, (machine period me).Run (k₀.call t delay) tr k → k.act.pc ≠ .returned →
      tr.length ≤ stepBound period t k₀ ∧ ∃ e, k.Enabled me e) ∧
    (∀ tr k ur k' i, (machine period me).Run (k₀.call t delay) tr k → k.act.pc = .read i →
      k.pipe.rstn = true → (machine period me).Run k ur k' → .resume ∉ ur →
      3 ≤ ur.count .edge → k'.Enabled me .resume) ∧
    ∃ tr k, (machine period me).Run (k₀.call t delay) tr k ∧ k.act.pc = .returned := by
  have start := call_running delay me idle serviceable accepted
  have positive' : (t.setResponseStatus .ok).PositiveDelays := positive
  obtain ⟨bounded, returns⟩ := start.returns rising positive'
  refine ⟨fun tr k run unfinished => ?_, fun tr k ur k' i run pc live wait silent three => ?_,
    returns⟩
  · have within := bounded tr k run unfinished
    have enough := call_budget_le delay idle serviceable accepted
    exact ⟨Nat.le_trans (Nat.le_add_right _ _) (Nat.le_trans within enough),
      (start.run positive' run).exists_enabled⟩
  · exact (start.run positive' run).read_answered pc live wait silent three

/-- A load of two bytes with a fast request side and a slow response side. -/
def pacedLoad : Payload :=
  ⟨.read, 5, ⟨[0, 0], DataBuffer.two_fits⟩, .incomplete, some ⟨1, 100⟩⟩

theorem bTransport_returns_pacedLoad : ∃ tr k,
    (machine 10 ()).Run ((Platform.powerOn Bench.staleBlock 25).call pacedLoad 0) tr k ∧
      k.act.pc = .returned :=
  (bTransport_returns () 0 (by decide) (Platform.powerOn_idle _ (Or.inl (by decide))) (Or.inl rfl)
    (by decide) (fun ext h => by cases h; decide)).2.2

end Kernel
