import RiscvVp.BurstLatency
import RiscvVp.SequentialConsistency

/-!
# How long a hart waits for the RTL memory

The mutex has no queue, so with three harts two of them may pass it back and
forth. With one rival a hart is next after at most one burst: the rival still
waits for the delay of its call when the mutex is free again.
-/

namespace Activation

variable {ι : Type} [DecidableEq ι] {a b : Activation} {me : ι} {now : Nat} {m n : Memrtl ι}

/-- A burst without the extension leaves the delay as it came. -/
theorem resume_delay (step : a.resume me now m = some (b, n))
    (untimed : a.trans.extension = none) (waits : a.pc.wake = none) : b.delay = a.delay := by
  cases pc : a.pc with
  | lock =>
    simp only [resume, pc, Option.ite_none_right_eq_some, Option.some.injEq, Prod.mk.injEq] at step
    obtain ⟨_, rfl, _⟩ := step
    simp only [burst, untimed, blockingHead]
    split <;> rfl
  | write i reqVec =>
    simp only [resume, pc, Option.map_eq_some_iff, Prod.mk.injEq] at step
    obtain ⟨_, _, rfl, _⟩ := step
    rfl
  | read i =>
    simp only [resume, pc, Option.map_eq_some_iff, Prod.mk.injEq] at step
    obtain ⟨_, _, rfl, _⟩ := step
    simp only [blockingHead]
    split <;> rfl
  | wait ext l wake => rw [pc] at waits; cases waits
  | unlock =>
    simp only [resume, pc, Option.some.injEq, Prod.mk.injEq] at step
    exact step.1 ▸ rfl
  | returned => simp [resume, pc] at step
  | raised r => simp [resume, pc] at step

end Activation

namespace IssPlatform

open Initiators (acquired)
open Kernel (ready Clocked Paces Running)

variable {ι H B : Type} [DecidableEq ι]

/-- The platform as the call of one hart sees it. -/
def under (s : IssPlatform ι H B) (act : Activation) : Kernel ι := { s.toPlatform with act := act }

/-- Hart j has the mutex, for a burst of at most n bytes that could first be
taken at `base`. -/
structure Turn (period n : Nat) (s : IssPlatform ι H B) (j : ι) (base : Nat) : Prop where
  owner : s.mem.rtlAccess = some j
  burst : ∃ act grid t m, s.act j = some act ∧ 0 < act.delay ∧ t.extension = none ∧
    0 < t.dataLength ∧ t.dataLength ≤ n ∧ Running period t m j (s.under act) ∧
    Clocked period base grid s.toPlatform ∧ Paces period base grid (s.under act) t.dataLength

section Steps
variable {cfg : IssConfig H B} {m₀ : Ram} {flat₀ : Nat → Byte} {tr : List (Event ι)}
  {s s' : IssPlatform ι H B} {vr : List (Initiators.Event ι)} {c : Initiators ι}
  {ur : List (SharedObject.Event ι (Hart H) Mmio)} {u : SharedObject ι (Nat → Byte) (Hart H)}
  {e : Event ι} {i j : ι} {n base : Nat}

/-- A call past the mutex is its owner's. -/
theorem Follows.owner_of (fol : Follows cfg m₀ flat₀ tr s vr c ur u) {act : Activation}
    (here : s.act i = some act) (entered : act.pc ≠ .lock) : s.mem.rtlAccess = some i := by
  rw [← fol.mem]
  exact fol.inv.owner_of (by rw [fol.act]; exact here) entered

omit [DecidableEq ι] in
theorem Turn.now_le (turn : Turn cfg.clkPeriod n s j base) :
    s.now ≤ base + 3 * n * cfg.clkPeriod := by
  obtain ⟨owner, act, grid, t, m, here, delay, untimed, nonempty, short, running, clocked, paces⟩ :=
    turn
  have due : s.now ≤ s.nextEdge := running.timed.edge_due
  have whole : 3 * t.dataLength * cfg.clkPeriod ≤ 3 * n * cfg.clkPeriod :=
    Nat.mul_le_mul_right _ (by omega)
  have one : cfg.clkPeriod ≤ 3 * t.dataLength * cfg.clkPeriod :=
    Nat.le_mul_of_pos_left _ (by omega)
  have now : (s.under act).now = s.now := rfl
  have next : (s.under act).nextEdge = s.nextEdge := rfl
  cases paces with
  | early _ _ before => omega
  | first _ _ soon => omega
  | @reading edge k stage takes _ pc _ three _ at_ answered =>
    have upper := takes.upper
    have beat : k < t.dataLength := by
      obtain ⟨_, _, beats, hpc⟩ :=
        running.holding_of (by rw [pc]; rintro ⟨⟩) (by rw [pc]; rintro ⟨⟩)
      rw [pc] at hpc
      obtain ⟨rfl, rfl⟩ := hpc
      exact beats.pushed_le
    by_cases third : stage = 3
    · have waits := answered third
      have last : (3 * k + stage) * cfg.clkPeriod ≤ 3 * t.dataLength * cfg.clkPeriod :=
        Nat.mul_le_mul_right _ (by omega)
      omega
    · have last : (3 * k + stage + 1) * cfg.clkPeriod ≤ 3 * t.dataLength * cfg.clkPeriod :=
        Nat.mul_le_mul_right _ (by omega)
      rw [Nat.succ_mul] at last
      omega
  | @writing edge k w takes _ pc _ _ at_ waits =>
    have upper := takes.upper
    have beat : k < t.dataLength := by
      obtain ⟨_, _, beats, hpc⟩ :=
        running.holding_of (by rw [pc]; rintro ⟨⟩) (by rw [pc]; rintro ⟨⟩)
      rw [pc] at hpc
      exact hpc.2.2.1
    have last : 3 * k * cfg.clkPeriod ≤ 3 * t.dataLength * cfg.clkPeriod :=
      Nat.mul_le_mul_right _ (by omega)
    omega
  | complete takes _ _ at_ waits =>
    have upper := takes.upper
    omega
  | returned pc =>
    cases running.phase with
    | locking pc' => rw [pc] at pc'; cases pc'
    | holding _ holding => exact absurd pc holding.pc_ne.2
    | returned _ free => rw [show s.mem.rtlAccess = none from free] at owner; cases owner

omit [DecidableEq ι] in
theorem Turn.kept (turn : Turn cfg.clkPeriod n s j base)
    (platform : s'.toPlatform = s.toPlatform) (act : s'.act j = s.act j) :
    Turn cfg.clkPeriod n s' j base := by
  obtain ⟨owner, b, grid, t, m, here, delay, untimed, nonempty, short, running, clocked, paces⟩ :=
    turn
  have under : s'.under b = s.under b := by rw [IssPlatform.under, platform]; rfl
  refine ⟨by rw [platform]; exact owner, b, grid, t, m, act.trans here, delay, untimed, nonempty,
    short, ?_, ?_, ?_⟩
  · rw [under]
    exact running
  · rw [platform]
    exact clocked
  · rw [under]
    exact paces

/-- Nobody takes the mutex from its owner. -/
theorem Turn.next (turn : Turn cfg.clkPeriod n s j base) (rising : 0 < cfg.clkPeriod)
    (maps : cfg.Maps) (fol : Follows cfg m₀ flat₀ tr s vr c ur u) (he : s.Possible cfg e) :
    e = .ret j ∨ Turn cfg.clkPeriod n (s.next cfg e) j base := by
  obtain ⟨owner, act, grid, t, m, here, delay, untimed, nonempty, short, running, clocked, paces⟩ :=
    id turn
  have positive : t.PositiveDelays := by
    intro ext paced
    cases untimed.symm.trans paced
  have kernel {e' : Kernel.Event} (he' : (s.under act).Enabled j e') :
      Running cfg.clkPeriod t m j ((s.under act).next cfg.clkPeriod j e') ∧
        Clocked cfg.clkPeriod base grid ((s.under act).next cfg.clkPeriod j e').toPlatform ∧
        Paces cfg.clkPeriod base grid ((s.under act).next cfg.clkPeriod j e') t.dataLength :=
    ⟨running.next positive he', Clocked.next clocked he',
      paces.next running clocked rising untimed nonempty he'⟩
  cases e with
  | edge =>
    exact Or.inr ⟨owner, act, grid, t, m, here, delay, untimed, nonempty, short,
      kernel (show (s.under act).Enabled j .edge from he)⟩
  | release =>
    exact Or.inr ⟨owner, act, grid, t, m, here, delay, untimed, nonempty, short,
      kernel (show (s.under act).Enabled j .release from he)⟩
  | advance d =>
    obtain ⟨later, edge, release, _, blocked⟩ := he
    obtain ⟨_, _, stands, _⟩ := fol.attends j
    obtain ⟨_, _, pc⟩ := stands.transport_of_act here
    have waits := blocked j
    simp only [Blocked, pc] at waits
    have still : (s.under act).resumed j = none := by
      rw [← waits.1, resumed_of_act here]
      rfl
    exact Or.inr ⟨owner, act, grid, t, m, here, delay, untimed, nonempty, short,
      kernel (show (s.under act).Enabled j (.advance d) from
        ⟨still, later, edge, release, waits.2 act here⟩)⟩
  | scStart => exact Or.inr (turn.kept rfl rfl)
  | work k =>
    obtain ⟨m, work⟩ := Option.isSome_iff_exists.mp he
    rw [next_work work]
    exact Or.inr (turn.kept rfl rfl)
  | answer k a =>
    obtain ⟨_, _, _, _, pc, out⟩ := he
    rw [next_answer pc out]
    exact Or.inr (turn.kept rfl rfl)
  | enter k a =>
    obtain ⟨next, act', pc, out⟩ := he
    have other : j ≠ k := by
      rintro rfl
      obtain ⟨_, _, stands, _⟩ := fol.attends j
      obtain ⟨_, _, outside, _⟩ := stands.of_ask pc
      rw [outside] at here
      cases here
    rw [next_enter pc out]
    exact Or.inr (turn.kept rfl (Function.update_of_ne other ..))
  | acquire k a =>
    obtain ⟨_, act', _, here', lock, moves⟩ := he
    rw [resumed_of_act here'] at moves
    simp [Activation.resume, lock, owner] at moves
  | go k =>
    obtain ⟨act', here', entered, busy, moves⟩ := he
    have same : k = j := Option.some.inj ((fol.owner_of here' entered).symm.trans owner)
    subst same
    rw [here] at here'
    cases here'
    obtain ⟨⟨act', mem⟩, resumed⟩ := Option.isSome_iff_exists.mp moves
    have resumed' : (s.under act).resumed k = some (act', mem) := by
      rw [← resumed, resumed_of_act here]
      rfl
    have kernel' := kernel (show (s.under act).Enabled k .resume from
      Option.isSome_iff_exists.mpr ⟨_, resumed'⟩)
    rw [Kernel.next_resume resumed'] at kernel'
    have holding := running.holding_of entered (by
      intro returned
      simp [resumed_of_act here, Activation.resume,
        show act.pc = .returned from returned] at moves)
    obtain ⟨_, sameOwner⟩ := Activation.resume_holding holding resumed' busy
    have step : s.next cfg (.go k) = s.step k := rfl
    rw [step, step_of_resumed resumed]
    refine Or.inr ⟨sameOwner.trans owner, act', grid, t, m, Function.update_self .., ?_, untimed,
      nonempty, short, kernel'⟩
    have plain : act.trans.extension = none := by
      obtain ⟨_, _, beats, _⟩ := holding
      exact beats.extension.trans untimed
    rw [Activation.resume_delay resumed' plain (holding.wake_eq_none untimed)]
    exact delay
  | ret k =>
    obtain ⟨_, _, act', _, here', unlock⟩ := he
    have entered : act'.pc ≠ .lock := by
      rw [unlock]
      rintro ⟨⟩
    have same : k = j := Option.some.inj ((fol.owner_of here' entered).symm.trans owner)
    exact Or.inl (by rw [same])
  | respond k a r => exact Or.inr (turn.kept rfl rfl)
  | fail k r => exact absurd he (fol.no_report maps k)

/-- Taking the free mutex begins a turn. -/
theorem Turn.acquire {a : Mmio} (rising : 0 < cfg.clkPeriod)
    (fol : Follows cfg m₀ flat₀ tr s vr c ur u) (short : a.bytes.bytes.length ≤ n)
    (he : s.Possible cfg (.acquire j a)) :
    Turn cfg.clkPeriod n (s.next cfg (.acquire j a)) j (ready s.toPlatform) := by
  obtain ⟨next, act, pc, here, lock, moves⟩ := he
  obtain ⟨_, _, stands, _⟩ := fol.attends j
  obtain ⟨_, _, queues, call, _⟩ := stands.of_lock pc here lock
  obtain ⟨⟨act', mem⟩, resumed⟩ := Option.isSome_iff_exists.mp moves
  have plain : (FlatMemory.queued cfg.ucfg a).extension = none := rfl
  have trans : act.trans = FlatMemory.queued cfg.ucfg a := by rw [call]
  have resumed' : (s.under act).resumed j = some (act', mem) := by
    rw [← resumed, resumed_of_act here]
    rfl
  have free : s.mem.rtlAccess = none ∧ mem = { s.mem with rtlAccess := some j } := by
    rw [resumed_of_act here] at resumed
    simp only [Activation.resume, lock, Option.ite_none_right_eq_some, Option.some.injEq,
      Prod.mk.injEq] at resumed
    exact ⟨resumed.1, resumed.2.2.symm⟩
  have idle : s.mem.pipe.answers = [] := by
    rw [← fol.mem]
    cases fol.inv.session with
    | free _ _ idle => exact idle
    | held _ _ _ _ has => rw [fol.mem, free.1] at has; cases has
  have running : Running cfg.clkPeriod (FlatMemory.queued cfg.ucfg a) s.mem.pipe.settled j
      (s.under act) :=
    ⟨fol.timed, .locking lock trans free.1 idle rfl, by simp only [Kernel.Paced, under, lock]⟩
  have clocked : Clocked cfg.clkPeriod (ready s.toPlatform) s.nextEdge (s.under act).toPlatform :=
    Kernel.clocked_start s.toPlatform
  have paces : Paces cfg.clkPeriod (ready s.toPlatform) s.nextEdge (s.under act)
      a.bytes.bytes.length :=
    Kernel.paces_start (k := s.under act) fol.timed lock (Pipe.quiet_of_answers idle).1
  have he' : (s.under act).Enabled j .resume := Option.isSome_iff_exists.mpr ⟨_, resumed'⟩
  have running' := running.next a.payload_positive he'
  have clocked' := Clocked.next clocked he'
  have paces' := paces.next (t := FlatMemory.queued cfg.ucfg a) running clocked rising plain
    a.nonempty he'
  have step : s.next cfg (.acquire j a) = s.step j := rfl
  rw [Kernel.next_resume resumed'] at running' clocked' paces'
  rw [step, step_of_resumed resumed]
  refine ⟨by rw [free.2], act', s.nextEdge, _, _, Function.update_self .., ?_, plain, a.nonempty,
    short, running', clocked', paces'⟩
  have kept : act'.delay = act.delay :=
    Activation.resume_delay (show act.resume j s.now s.mem = some (act', mem) from resumed')
      (by rw [trans]; exact plain) (by rw [lock]; rfl)
  rw [kept, call]
  exact (by decide : 0 < scNs 7)

/-- The mutex stays free until somebody takes it. -/
theorem Follows.next_free (fol : Follows cfg m₀ flat₀ tr s vr c ur u) (maps : cfg.Maps)
    (free : s.mem.rtlAccess = none) (he : s.Possible cfg e) (nobody : ∀ k a, e ≠ .acquire k a) :
    (s.next cfg e).mem.rtlAccess = none := by
  have outside {k : ι} {act : Activation} (here : s.act k = some act) : act.pc = .lock := by
    by_contra entered
    have owner := fol.owner_of here entered
    rw [free] at owner
    cases owner
  cases e with
  | edge => exact free
  | release => exact free
  | advance d => exact free
  | scStart => exact free
  | work k =>
    obtain ⟨m, work⟩ := Option.isSome_iff_exists.mp he
    rw [next_work work]
    exact free
  | answer k a =>
    obtain ⟨_, _, _, _, pc, out⟩ := he
    rw [next_answer pc out]
    exact free
  | enter k a =>
    obtain ⟨_, act, pc, out⟩ := he
    rw [next_enter pc out]
    exact free
  | acquire k a => exact absurd rfl (nobody k a)
  | go k =>
    obtain ⟨act, here, entered, _⟩ := he
    exact absurd (outside here) entered
  | ret k =>
    obtain ⟨_, _, act, _, here, unlock⟩ := he
    have lock := outside here
    rw [unlock] at lock
    cases lock
  | respond k a r => exact free
  | fail k r => exact absurd he (fol.no_report maps k)

/-- A call that queues does so until its hart takes the mutex. -/
theorem Follows.next_queued (fol : Follows cfg m₀ flat₀ tr s vr c ur u) (maps : cfg.Maps)
    {act : Activation} (here : s.act i = some act) (lock : act.pc = .lock)
    (he : s.Possible cfg e) (mine : ∀ a, e ≠ .acquire i a) :
    (s.next cfg e).act i = some act := by
  cases e with
  | edge => exact here
  | release => exact here
  | advance d => exact here
  | scStart => exact here
  | work k =>
    obtain ⟨m, work⟩ := Option.isSome_iff_exists.mp he
    rw [next_work work]
    exact here
  | answer k a =>
    obtain ⟨_, _, _, _, pc, out⟩ := he
    rw [next_answer pc out]
    exact here
  | enter k a =>
    obtain ⟨_, act', pc, out⟩ := he
    have other : i ≠ k := by
      rintro rfl
      obtain ⟨_, _, stands, _⟩ := fol.attends i
      obtain ⟨_, _, outside, _⟩ := stands.of_ask pc
      rw [outside] at here
      cases here
    rw [next_enter pc out]
    exact (Function.update_of_ne other ..).trans here
  | acquire k a =>
    obtain ⟨_, _, _, _, _, moves⟩ := he
    obtain ⟨⟨act', mem⟩, resumed⟩ := Option.isSome_iff_exists.mp moves
    have other : i ≠ k := by
      rintro rfl
      exact mine a rfl
    have step : s.next cfg (.acquire k a) = s.step k := rfl
    rw [step, step_of_resumed resumed]
    exact (Function.update_of_ne other ..).trans here
  | go k =>
    obtain ⟨act', here', entered, _, moves⟩ := he
    obtain ⟨⟨act'', mem⟩, resumed⟩ := Option.isSome_iff_exists.mp moves
    have other : i ≠ k := by
      rintro rfl
      rw [here] at here'
      cases here'
      exact entered lock
    have step : s.next cfg (.go k) = s.step k := rfl
    rw [step, step_of_resumed resumed]
    exact (Function.update_of_ne other ..).trans here
  | ret k =>
    obtain ⟨a, next, act', pc, here', unlock⟩ := he
    have resumed := resumed_of_unlock here' unlock
    have other : i ≠ k := by
      rintro rfl
      rw [here] at here'
      cases here'
      rw [unlock] at lock
      cases lock
    rw [next_ret pc resumed]
    exact (Function.update_of_ne other ..).trans here
  | respond k a r => exact here
  | fail k r => exact absurd he (fol.no_report maps k)

/-- A hart that queues while the mutex is free goes on before time does. -/
theorem Follows.now_of_free (fol : Follows cfg m₀ flat₀ tr s vr c ur u) {act : Activation}
    (here : s.act i = some act) (lock : act.pc = .lock) (free : s.mem.rtlAccess = none)
    (he : s.Possible cfg e) : (s.next cfg e).now = s.now := by
  cases e with
  | advance d =>
    obtain ⟨_, _, _, _, blocked⟩ := he
    obtain ⟨_, _, stands, _⟩ := fol.attends i
    obtain ⟨_, _, pc⟩ := stands.transport_of_act here
    have waits := blocked i
    simp only [Blocked, pc, resumed_of_act here] at waits
    simp [Activation.resume, lock, free] at waits
  | work k =>
    obtain ⟨m, work⟩ := Option.isSome_iff_exists.mp he
    rw [next_work work]
    rfl
  | answer k a =>
    obtain ⟨_, _, _, _, pc, out⟩ := he
    rw [next_answer pc out]
    rfl
  | enter k a =>
    obtain ⟨_, _, pc, out⟩ := he
    rw [next_enter pc out]
    rfl
  | acquire k a => exact (s.step_frame k).2.1
  | go k => exact (s.step_frame k).2.1
  | ret k =>
    obtain ⟨_, _, _, pc, here', unlock⟩ := he
    rw [next_ret pc (resumed_of_unlock here' unlock)]
    rfl
  | _ => rfl

/-- Where hart i stands between its call and the return, with at most one rival. -/
inductive Waits (cfg : IssConfig H B) (n base : Nat) (s : IssPlatform ι H B) (i : ι) : Prop
  | free {act : Activation} (here : s.act i = some act) (lock : act.pc = .lock)
      (mutex : s.mem.rtlAccess = none) (now : s.now ≤ base)
  | behind {act : Activation} {j : ι} {first : Nat} (here : s.act i = some act)
      (lock : act.pc = .lock) (other : j ≠ i) (turn : Turn cfg.clkPeriod n s j first)
      (begun : first ≤ base)
  | nextUp {act : Activation} {j : ι} {a : Mmio} {after : Reply → Ask Mmio Reply H} {wake : Nat}
      (here : s.act i = some act) (lock : act.pc = .lock) (mutex : s.mem.rtlAccess = none)
      (now : s.now ≤ base + 3 * n * cfg.clkPeriod) (other : j ≠ i)
      (pc : (s.spike j).pc = .delayed a after wake) (away : s.now < wake)
  | inside {first : Nat} (turn : Turn cfg.clkPeriod n s i first)
      (begun : first ≤ base + 3 * n * cfg.clkPeriod)

/-- A rival that waits for its delay does nothing before the end of it. -/
theorem next_delayed {a : Mmio} {after : Reply → Ask Mmio Reply H} {wake : Nat}
    (pc : (s.spike j).pc = .delayed a after wake) (away : s.now < wake) (he : s.Possible cfg e) :
    (s.next cfg e).spike j = s.spike j := by
  cases e with
  | work k =>
    obtain ⟨m, work⟩ := Option.isSome_iff_exists.mp he
    have other : j ≠ k := by
      rintro rfl
      simp [SpikeModule.work, pc] at work
    rw [next_work work]
    exact Function.update_of_ne other ..
  | answer k a =>
    obtain ⟨_, _, _, _, pc', out⟩ := he
    have other : j ≠ k := by
      rintro rfl
      rw [pc] at pc'
      cases pc'
    rw [next_answer pc' out]
    exact Function.update_of_ne other ..
  | enter k a =>
    obtain ⟨_, _, pc', out⟩ := he
    have other : j ≠ k := by
      rintro rfl
      rw [pc] at pc'
      cases pc'
    rw [next_enter pc' out]
    exact Function.update_of_ne other ..
  | acquire k a => exact congrFun (s.step_frame k).1 j
  | go k => exact congrFun (s.step_frame k).1 j
  | ret k =>
    obtain ⟨_, _, _, pc', here, unlock⟩ := he
    have other : j ≠ k := by
      rintro rfl
      rw [pc] at pc'
      cases pc'
    rw [next_ret pc' (resumed_of_unlock here unlock)]
    exact Function.update_of_ne other ..
  | respond k a r =>
    obtain ⟨_, _, pc', _⟩ := he
    have other : j ≠ k := by
      rintro rfl
      rw [pc] at pc'
      cases pc'
      exact Nat.lt_irrefl _ away
    exact Function.update_of_ne other ..
  | _ => rfl

theorem next_clocked {grid : Nat} (clocked : Clocked cfg.clkPeriod base grid s.toPlatform)
    (he : s.Possible cfg e) : Clocked cfg.clkPeriod base grid (s.next cfg e).toPlatform := by
  obtain ⟨pending, live, k, next⟩ := id clocked
  have moved (i : ι) : Clocked cfg.clkPeriod base grid (s.step i).toPlatform := by
    rw [step]
    split <;> exact ⟨pending, live, k, next⟩
  cases e with
  | edge =>
    refine ⟨pending, live, k + 1, ?_⟩
    change s.nextEdge + cfg.clkPeriod = _
    rw [next, Nat.succ_mul, Nat.add_assoc]
  | release => exact ⟨by rintro _ ⟨⟩, fun _ => (pending _ he).ge, k, next⟩
  | advance d => exact ⟨pending, fun released => (live released).trans he.1.le, k, next⟩
  | work i =>
    obtain ⟨m, work⟩ := Option.isSome_iff_exists.mp he
    rw [next_work work]
    exact clocked
  | answer i a =>
    obtain ⟨_, _, _, _, pc, out⟩ := he
    rw [next_answer pc out]
    exact clocked
  | enter i a =>
    obtain ⟨_, _, pc, out⟩ := he
    rw [next_enter pc out]
    exact clocked
  | acquire i a => exact moved i
  | go i => exact moved i
  | ret i =>
    obtain ⟨_, _, _, pc, here, unlock⟩ := he
    rw [next_ret pc (resumed_of_unlock here unlock)]
    exact ⟨pending, live, k, next⟩
  | _ => exact clocked

omit [DecidableEq ι] in
/-- While i queues a turn can begin no later than now, or at the end of reset. -/
theorem ready_le {grid bound : Nat} (clocked : Clocked cfg.clkPeriod base grid s.toPlatform)
    (now : s.now ≤ bound) (later : base ≤ bound) : ready s.toPlatform ≤ bound := by
  cases pending : s.release with
  | none =>
    rw [ready, pending]
    exact now
  | some r =>
    rw [ready, pending, Option.getD_some, clocked.pending r pending]
    exact later

theorem Follows.issued_of_acquire {a : Mmio} (fol : Follows cfg m₀ flat₀ tr s vr c ur u)
    (he : s.Possible cfg (.acquire i a)) : (i, a) ∈ issued tr := by
  obtain ⟨next, act, pc, here, lock, _⟩ := he
  obtain ⟨_, _, stands, issues, _⟩ := fol.attends i
  obtain ⟨rfl, _⟩ := stands.of_lock pc here lock
  have last : (i, a) ∈ (issued tr).filter (·.1 = i) := by
    rw [issues]
    exact List.mem_append_right _ (List.mem_singleton.mpr rfl)
  exact List.mem_of_mem_filter last

/-- Whoever takes the mutex, i is inside or next. -/
theorem Waits.next {grid : Nat} (waits : Waits cfg n base s i) (rising : 0 < cfg.clkPeriod)
    (maps : cfg.Maps) (rival : ∀ j k, j ≠ i → k ≠ i → j = k)
    (fol : Follows cfg m₀ flat₀ tr s vr c ur u)
    (clocked : Clocked cfg.clkPeriod base grid s.toPlatform)
    (short : ∀ c ∈ issued tr, c.2.bytes.bytes.length ≤ n) (he : s.Possible cfg e)
    (stays : e ≠ .ret i) : Waits cfg n base (s.next cfg e) i := by
  have room : base ≤ base + 3 * n * cfg.clkPeriod := Nat.le_add_right _ _
  have turn {j : ι} {a : Mmio} (he : s.Possible cfg (.acquire j a)) :
      Turn cfg.clkPeriod n (s.next cfg (.acquire j a)) j (ready s.toPlatform) :=
    .acquire rising fol (short _ (fol.issued_of_acquire he)) he
  cases waits with
  | @free act here lock mutex now =>
    by_cases taken : ∃ k a, e = .acquire k a
    · obtain ⟨k, a, rfl⟩ := taken
      have begun := ready_le clocked now (Nat.le_refl base)
      by_cases same : k = i
      · subst same
        exact .inside (turn he) (begun.trans room)
      · have here' := fol.next_queued maps here lock he (by
          rintro b ⟨⟩
          exact same rfl)
        exact .behind here' lock same (turn he) begun
    · have nobody : ∀ k a, e ≠ .acquire k a := fun k a is => taken ⟨k, a, is⟩
      refine .free (fol.next_queued maps here lock he (nobody i)) lock
        (fol.next_free maps mutex he nobody) ?_
      rw [fol.now_of_free here lock mutex he]
      exact now
  | @behind act j first here lock other held begun =>
    have mine : ∀ a, e ≠ .acquire i a := by
      rintro a rfl
      obtain ⟨_, act', _, here', lock', moves⟩ := he
      rw [resumed_of_act here'] at moves
      simp [Activation.resume, lock', held.owner] at moves
    have here' := fol.next_queued maps here lock he mine
    rcases held.next rising maps fol he with rfl | held'
    · -- the rival is back and waits for its delay
      have bound := held.now_le
      obtain ⟨owner, call, _, _, _, calls, delay, _⟩ := held
      obtain ⟨a, after, act', pc, calls', unlock⟩ := he
      rw [calls] at calls'
      cases calls'
      have resumed := resumed_of_unlock calls unlock
      rw [next_ret pc resumed] at here' ⊢
      have back : (Function.update s.spike j
          ((s.spike j).returned s.now a after call.trans call.delay) j).pc =
            .delayed a after (s.now + call.delay) := by
        rw [Function.update_self]
        rfl
      refine .nextUp here' lock (by rw [if_pos owner]) ?_ other back ?_
      · exact bound.trans (Nat.add_le_add_right begun _)
      · exact Nat.lt_add_of_pos_right delay
    · exact .behind here' lock other held' begun
  | @nextUp act j a after wake here lock mutex now other pc away =>
    by_cases taken : ∃ k b, e = .acquire k b
    · obtain ⟨k, b, rfl⟩ := taken
      by_cases same : k = i
      · subst same
        exact .inside (turn he) (ready_le clocked now room)
      · obtain ⟨_, _, pc', _⟩ := he
        rw [rival k j same other, pc] at pc'
        cases pc'
    · have nobody : ∀ k a, e ≠ .acquire k a := fun k a is => taken ⟨k, a, is⟩
      have still := fol.now_of_free here lock mutex he
      refine .nextUp (fol.next_queued maps here lock he (nobody i)) lock
        (fol.next_free maps mutex he nobody) ?_ other
        ((congrArg SpikeModule.pc (next_delayed pc away he)).trans pc) ?_
      · rw [still]
        exact now
      · rw [still]
        exact away
  | @inside first held begun =>
    rcases held.next rising maps fol he with rfl | held'
    · exact absurd rfl stays
    · exact .inside held' begun

omit [DecidableEq ι] in
theorem Waits.now_le (waits : Waits cfg n base s i) :
    s.now ≤ base + 6 * n * cfg.clkPeriod := by
  have twice : 6 * n * cfg.clkPeriod = 3 * n * cfg.clkPeriod + 3 * n * cfg.clkPeriod := by
    rw [← Nat.add_mul, ← Nat.add_mul]
  cases waits with
  | free _ _ _ now => exact now.trans (Nat.le_add_right _ _)
  | behind _ _ _ held begun =>
    have bound := held.now_le
    omega
  | nextUp _ _ _ now => omega
  | inside held begun =>
    have bound := held.now_le
    omega

theorem next_ret_owner (owner : s.mem.rtlAccess = some j) (he : s.Possible cfg (.ret j)) :
    (s.next cfg (.ret j)).mem.rtlAccess = none := by
  obtain ⟨_, _, _, pc, here, unlock⟩ := he
  rw [next_ret pc (resumed_of_unlock here unlock)]
  exact if_pos owner

/-- The owner after an event took its turn by the event or has it still. -/
theorem Follows.turn_next (fol : Follows cfg m₀ flat₀ tr s vr c ur u) (maps : cfg.Maps)
    (rising : 0 < cfg.clkPeriod) (short : ∀ c ∈ issued tr, c.2.bytes.bytes.length ≤ n)
    (he : s.Possible cfg e)
    (turns : ∀ j, s.mem.rtlAccess = some j → ∃ base, Turn cfg.clkPeriod n s j base)
    (owner : (s.next cfg e).mem.rtlAccess = some j) :
    ∃ base, Turn cfg.clkPeriod n (s.next cfg e) j base := by
  by_cases taken : ∃ k a, e = .acquire k a
  · obtain ⟨k, a, rfl⟩ := taken
    have turn : Turn cfg.clkPeriod n (s.next cfg (.acquire k a)) k (ready s.toPlatform) :=
      .acquire rising fol (short _ (fol.issued_of_acquire he)) he
    rw [turn.owner] at owner
    cases owner
    exact ⟨_, turn⟩
  · have nobody : ∀ k a, e ≠ .acquire k a := fun k a is => taken ⟨k, a, is⟩
    cases held : s.mem.rtlAccess with
    | none =>
      rw [fol.next_free maps held he nobody] at owner
      cases owner
    | some k =>
      obtain ⟨base, turn⟩ := turns k held
      rcases turn.next rising maps fol he with rfl | turn'
      · rw [next_ret_owner held he] at owner
        cases owner
      · rw [turn'.owner] at owner
        cases owner
        exact ⟨base, turn'⟩

end Steps

section Runs
variable [Fintype ι] {cfg : IssConfig H B} {io : IoBlock top0} {bus : B} {proc : ι → H}
  {tr : List (Event ι)} {s : IssPlatform ι H B} {i j : ι} {n : Nat}

/-- Whoever has the mutex got it by a turn. -/
theorem run_turn (maps : cfg.Maps) (later : 0 < cfg.rstTimeout) (rising : 0 < cfg.clkPeriod)
    (run : (machine cfg).Run (powerOn cfg io bus proc) tr s)
    (short : ∀ c ∈ issued tr, c.2.bytes.bytes.length ≤ n) (owner : s.mem.rtlAccess = some j) :
    ∃ base, Turn cfg.clkPeriod n s j base := by
  have both : (machine cfg).Run (powerOn cfg io bus proc) tr s ∧
      ((∀ c ∈ issued tr, c.2.bytes.bytes.length ≤ n) → ∀ j, s.mem.rtlAccess = some j →
        ∃ base, Turn cfg.clkPeriod n s j base) := by
    refine run.invariant (fun tr s => (machine cfg).Run (powerOn cfg io bus proc) tr s ∧
      ((∀ c ∈ issued tr, c.2.bytes.bytes.length ≤ n) → ∀ j, s.mem.rtlAccess = some j →
        ∃ base, Turn cfg.clkPeriod n s j base)) ⟨.refl, fun _ _ => by rintro ⟨⟩⟩ ?_
    rintro tr s e ⟨before, turns⟩ he
    refine ⟨before.snoc he, fun short j owner => ?_⟩
    obtain ⟨vr, c, ur, u, _, fol⟩ := run_follows maps later before
    have short' : ∀ c ∈ issued tr, c.2.bytes.bytes.length ≤ n := fun c hc =>
      short c (by rw [issued_append]; exact List.mem_append_left _ hc)
    exact fol.turn_next maps rising short' he.2 (turns short') owner
  exact both.2 short j owner

/-- At its call hart i queues behind nobody or behind the owner. -/
theorem enter_waits (maps : cfg.Maps) (later : 0 < cfg.rstTimeout) (rising : 0 < cfg.clkPeriod)
    (run : (machine cfg).Run (powerOn cfg io bus proc) tr s) {a : Mmio}
    (he : s.Possible cfg (.enter i a)) (short : ∀ c ∈ issued tr, c.2.bytes.bytes.length ≤ n) :
    Waits cfg n (ready s.toPlatform) (s.next cfg (.enter i a)) i := by
  obtain ⟨vr, c, ur, u, _, fol⟩ := run_follows maps later run
  obtain ⟨after, act, pc, out⟩ := id he
  obtain ⟨_, _, stands, _⟩ := fol.attends i
  obtain ⟨_, _, outside, _⟩ := stands.of_ask pc
  have lock : act.pc = .lock := by
    rcases fol.transport_cases maps i a with ⟨queues, _⟩ | ⟨_, _, _, answered, _⟩
    · rw [out] at queues
      cases queues
      rfl
    · rw [out] at answered
      cases answered
  have here : (s.next cfg (.enter i a)).act i = some act := by
    rw [next_enter pc out]
    exact Function.update_self ..
  cases held : s.mem.rtlAccess with
  | none =>
    refine .free here lock (fol.next_free maps held he (by rintro _ _ ⟨⟩)) ?_
    rw [next_enter pc out]
    exact Kernel.now_le_ready fol.timed
  | some j =>
    obtain ⟨first, turn⟩ := run_turn maps later rising run short held
    have other : j ≠ i := by
      rintro rfl
      obtain ⟨_, call, _, _, _, calls, _⟩ := turn
      rw [outside] at calls
      cases calls
    have begun : first ≤ ready s.toPlatform := by
      obtain ⟨_, _, _, _, _, _, _, _, _, _, _, turned, _⟩ := turn
      cases pending : s.release with
      | none =>
        rw [ready, pending]
        exact turned.live pending
      | some r =>
        rw [ready, pending]
        exact (turned.pending r pending).ge
    rcases turn.next rising maps fol he with is | turn'
    · cases is
    · exact .behind here lock other turn' begun

/-- It waits in one of these ways until its call returns. -/
theorem run_waits (maps : cfg.Maps) (later : 0 < cfg.rstTimeout) (rising : 0 < cfg.clkPeriod)
    (rival : ∀ j k, j ≠ i → k ≠ i → j = k)
    (run : (machine cfg).Run (powerOn cfg io bus proc) tr s) {base grid : Nat}
    (clocked : Clocked cfg.clkPeriod base grid s.toPlatform) (start : Waits cfg n base s i)
    {ur : List (Event ι)} {s' : IssPlatform ι H B} (rest : (machine cfg).Run s ur s')
    (inside : .ret i ∉ ur) (short : ∀ c ∈ issued (tr ++ ur), c.2.bytes.bytes.length ≤ n) :
    Waits cfg n base s' i := by
  have all := rest.invariant (fun ur t =>
    (machine cfg).Run (powerOn cfg io bus proc) (tr ++ ur) t ∧
      Clocked cfg.clkPeriod base grid t.toPlatform ∧
      (.ret i ∉ ur → (∀ c ∈ issued (tr ++ ur), c.2.bytes.bytes.length ≤ n) →
        Waits cfg n base t i))
    ⟨by rw [List.append_nil]; exact run, clocked, fun _ _ => start⟩ (by
      rintro ur t e ⟨run, clocked, waits⟩ he
      refine ⟨by rw [← List.append_assoc]; exact run.snoc he, next_clocked clocked he.2,
        fun inside short => ?_⟩
      simp only [List.mem_append, List.mem_singleton, not_or] at inside
      have short' : ∀ c ∈ issued (tr ++ ur), c.2.bytes.bytes.length ≤ n :=
        fun c hc => short c (by
          rw [← List.append_assoc, issued_append]
          exact List.mem_append_left _ hc)
      obtain ⟨_, _, _, _, _, fol⟩ := run_follows maps later run
      exact (waits inside.1 short').next rising maps rival fol clocked short' he.2
        (Ne.symm inside.2))
  exact all.2.2 inside short

/-- The bound for hart i, whoever else is at the mutex when it calls. -/
theorem bounded_wait (maps : cfg.Maps) (later : 0 < cfg.rstTimeout) (rising : 0 < cfg.clkPeriod)
    (rival : ∀ j k, j ≠ i → k ≠ i → j = k)
    (run : (machine cfg).Run (powerOn cfg io bus proc) tr s) {a : Mmio}
    (he : s.Enabled cfg (.enter i a)) {ur : List (Event ι)} {s' : IssPlatform ι H B}
    (rest : (machine cfg).Run (s.next cfg (.enter i a)) ur s') (inside : .ret i ∉ ur)
    (short : ∀ c ∈ issued (tr ++ .enter i a :: ur), c.2.bytes.bytes.length ≤ n) :
    s'.now ≤ s.release.getD s.now + 6 * n * cfg.clkPeriod := by
  have before : ∀ c ∈ issued tr, c.2.bytes.bytes.length ≤ n := fun c hc =>
    short c (by rw [issued_append]; exact List.mem_append_left _ hc)
  have clocked : Clocked cfg.clkPeriod (ready s.toPlatform) s.nextEdge s.toPlatform :=
    Kernel.clocked_start s.toPlatform
  have start := enter_waits maps later rising run he.2 before
  refine (run_waits maps later rising rival (run.snoc he) (next_clocked clocked he.2) start rest
    inside ?_).now_le
  rw [List.append_assoc]
  exact short

end Runs

/-- Another hart queues already before the first edge. -/
def callOne : List (Event Iss) := [.work .spike0, .work .spike1, .enter .spike0 storeSeven]

/-- That hart goes first, and when it is back the second has pushed its beat. -/
def waitOne : List (Event Iss) :=
  [.acquire .spike0 storeSeven, .go .spike0, .edge, .advance (scNs 1), .scStart,
    .advance (scNs 10), .edge, .advance (scNs 17), .release, .advance (scNs 20), .edge,
    .advance (scNs 30), .edge, .advance (scNs 40), .edge, .go .spike0, .ret .spike0,
    .acquire .spike1 loadByte, .go .spike1, .advance (scNs 47)]

theorem callOne_run : (machine exampleCfg).Run twoIss_start callOne
    ((machine exampleCfg).after twoIss_start callOne) := by
  apply EventMachine.run_of_admits
  exact ⟨⟨⟨_, rfl⟩, rfl⟩, ⟨⟨_, rfl⟩, rfl⟩, ⟨⟨_, rfl⟩, _, _, rfl, rfl⟩, trivial⟩

theorem waitOne_run : (machine exampleCfg).Run
    ((machine exampleCfg).next ((machine exampleCfg).after twoIss_start callOne)
      (.enter .spike1 loadByte)) waitOne
    ((machine exampleCfg).after twoIss_start (callOne ++ .enter .spike1 loadByte :: waitOne)) := by
  apply EventMachine.run_of_admits
  refine ⟨⟨⟨_, rfl⟩, _, _, rfl, rfl, rfl, rfl⟩,
    ⟨⟨_, rfl⟩, _, rfl, by rintro ⟨⟩, by rintro ⟨⟩, rfl⟩, ⟨⟨_, rfl⟩, rfl⟩,
    ⟨⟨_, rfl⟩, by decide, by decide, by rintro _ ⟨⟩; decide, by rintro _ ⟨⟩; decide, ?_⟩,
    ⟨⟨_, rfl⟩, rfl⟩,
    ⟨⟨_, rfl⟩, by decide, by decide, by rintro _ ⟨⟩; decide, by rintro _ ⟨⟩; decide, ?_⟩,
    ⟨⟨_, rfl⟩, rfl⟩,
    ⟨⟨_, rfl⟩, by decide, by decide, by rintro _ ⟨⟩; decide, by rintro _ ⟨⟩; decide, ?_⟩,
    ⟨⟨_, rfl⟩, rfl⟩,
    ⟨⟨_, rfl⟩, by decide, by decide, by rintro _ ⟨⟩, by rintro _ ⟨⟩; decide, ?_⟩,
    ⟨⟨_, rfl⟩, rfl⟩,
    ⟨⟨_, rfl⟩, by decide, by decide, by rintro _ ⟨⟩, by rintro _ ⟨⟩; decide, ?_⟩,
    ⟨⟨_, rfl⟩, rfl⟩,
    ⟨⟨_, rfl⟩, by decide, by decide, by rintro _ ⟨⟩, by rintro _ ⟨⟩; decide, ?_⟩,
    ⟨⟨_, rfl⟩, rfl⟩, ⟨⟨_, rfl⟩, _, rfl, by rintro ⟨⟩, by rintro ⟨⟩, rfl⟩,
    ⟨⟨_, rfl⟩, _, _, _, rfl, rfl, rfl⟩, ⟨⟨_, rfl⟩, _, _, rfl, rfl, rfl, rfl⟩,
    ⟨⟨_, rfl⟩, _, rfl, by rintro ⟨⟩, by rintro ⟨⟩, rfl⟩,
    ⟨⟨_, rfl⟩, by decide, by decide, by rintro _ ⟨⟩, by rintro _ ⟨⟩; decide, ?_⟩, trivial⟩
  iterate 6 exact Iss.forall_iss ⟨rfl, by rintro _ ⟨⟩ _ ⟨⟩⟩ ⟨rfl, by rintro _ ⟨⟩ _ ⟨⟩⟩
  exact Iss.forall_iss (Nat.le_refl _) ⟨rfl, by rintro _ ⟨⟩ _ ⟨⟩⟩

/-- At 47 ns the second hart is still inside; the bound for its call is 77 ns. -/
theorem bounded_wait_waitOne : ∃ s, (machine exampleCfg).Run twoIss_start
    (callOne ++ .enter .spike1 loadByte :: waitOne) s ∧ .ret .spike1 ∉ waitOne ∧
      s.now = scNs 47 ∧ s.now ≤ scNs 17 + 6 * 1 * scNs 10 := by
  have rival : ∀ j k : Iss, j ≠ .spike1 → k ≠ .spike1 → j = k := by decide
  have enters : ((machine exampleCfg).after twoIss_start callOne).Enabled exampleCfg
      (.enter .spike1 loadByte) := ⟨⟨_, rfl⟩, _, _, rfl, rfl⟩
  have inside : Event.ret .spike1 ∉ waitOne := by simp [waitOne]
  have bound := bounded_wait (n := 1) exampleCfg_maps (by decide) (by decide) rival callOne_run
    (a := loadByte) enters waitOne_run inside (by
      intro c hc
      simp only [issued, callOne, waitOne, List.filterMap_append, List.filterMap_cons,
        List.filterMap_nil, List.mem_append, List.mem_cons, List.not_mem_nil, or_false] at hc
      rcases hc with rfl | rfl <;> exact Nat.le_refl 1)
  exact ⟨_, callOne_run.trans (.cons enters waitOne_run), inside, rfl, bound⟩

end IssPlatform
