import RiscvVp.ModelHarts

/-!
# Every thread has its own clock

On the reference memory no thread ever waits for another. What a hart does
happens at the time that its own waits have added up to, and each socket is
polled at the multiples of its delay, whatever else the platform does.
-/

namespace Uncore

variable {B : Type} {ucfg : Ucfg} {S : SpikeBus B}

/-- The reference memory adds no time of its own. -/
theorem memmodel_delay {m m' : Memmodel} {t reply : Payload} {delay delay' : Nat}
    (call : m.bTransport t delay = .ok (reply, delay', m')) : delay' = delay := by
  simp only [Memmodel.bTransport] at call
  split at call
  · cases call
    rfl
  · split at call <;> cases call <;> rfl

theorem transportModel_delay {a : Mmio} {t reply : Payload} {bus bus' : B} {mem mem' : Memmodel}
    {delay delay' : Nat} (address : t.address = a.paddr)
    (command : t.command = if a.store then .write else .read)
    (served : transportModel ucfg S bus mem t delay = .ok (reply, delay', bus', mem')) :
    delay' = delay + latency ucfg S a := by
  rw [transportModel] at served
  cases hop : bTransport ucfg S bus t delay with
  | answered t' d b =>
    rw [hop] at served
    cases served
    exact latency_of_answered address command hop
  | raised r =>
    rw [hop] at served
    cases served
  | forwarded t' d =>
    obtain ⟨window, annotated⟩ := latency_of_forwarded address command hop
    simp only [hop] at served
    split at served
    · rename_i call
      have same := memmodel_delay call
      cases served
      rw [same, annotated, window]
    · cases served

end Uncore

namespace ModelPlatform

variable {ι H B D X : Type} [DecidableEq ι]

/-- The hart whose `spike_thread` makes the event. -/
def Event.hart : Event ι X → Option ι
  | .step i => some i
  | .leave i => some i
  | .pause i => some i
  | .wake i => some i
  | .inside i _ => some i
  | .access i _ => some i
  | .respond i _ _ => some i
  | _ => none

/-- The hart whose `bitbang_thread` makes the event. -/
def Event.poller : Event ι X → Option ι
  | .tick i _ => some i
  | .detach i => some i
  | _ => none

/-- The wait that the event begins. -/
def cost (cfg : ModelConfig ι H B D X) : Event ι X → Nat
  | .pause i => cfg.quantum i
  | .access _ a => Uncore.latency cfg.ucfg cfg.spikeBus a
  | _ => 0

/-- All waits of hart i so far. -/
def spent (cfg : ModelConfig ι H B D X) (i : ι) (tr : List (Event ι X)) : Nat :=
  ((tr.filter (·.hart = some i)).map (cost cfg)).sum

/-- The polls for hart i so far. -/
def ticks (i : ι) (tr : List (Event ι X)) : Nat :=
  (tr.filterMap (fun | .tick j _ => some j | _ => none)).count i

/-- The time of a hart that has waited for t in all. -/
def HartTime (pc : SpikePc H) (now t : Nat) : Prop :=
  match pc with
  | .loop _ => now = t
  | .step _ => now = t
  | .transport _ _ => False
  | .delayed _ _ wake => now ≤ wake ∧ wake = t
  | .paused _ wake => now ≤ wake ∧ wake = t
  | .finished => t ≤ now

structure OnTime (cfg : ModelConfig ι H B D X) (tr : List (Event ι X))
    (s : ModelPlatform ι H B D) : Prop where
  harts : ∀ i, HartTime (s.spike i).pc s.now (spent cfg i tr)
  polls : ∀ i wake, s.bitbang i = .waiting wake →
    s.now ≤ wake ∧ wake ≤ s.now + cfg.bitbangDelay ∧ wake = cfg.bitbangDelay * ticks i tr

section Steps
variable {cfg : ModelConfig ι H B D X} {tr : List (Event ι X)} {s s' : ModelPlatform ι H B D}
  {e : Event ι X} {i : ι} {m : SpikeModule H}

theorem spent_append (tr : List (Event ι X)) (e : Event ι X) (i : ι) :
    spent cfg i (tr ++ [e]) = spent cfg i tr + if e.hart = some i then cost cfg e else 0 := by
  rw [spent, spent, List.filter_append, List.map_append, List.sum_append]
  by_cases own : e.hart = some i
  · simp [own]
  · simp [own]

theorem ticks_append (tr : List (Event ι X)) (e : Event ι X) (i : ι) :
    ticks i (tr ++ [e]) = ticks i tr + ticks i [e] := by
  rw [ticks, ticks, ticks, List.filterMap_append, List.count_append]

/-- A step of hart i keeps its time, and everyone else's. -/
theorem OnTime.moved (ont : OnTime cfg tr s) (own : e.hart = some i) (silent : e.poller = none)
    (spike : s'.spike = Function.update s.spike i m) (now : s'.now = s.now)
    (bitbang : s'.bitbang = s.bitbang)
    (mine : HartTime m.pc s.now (spent cfg i tr + cost cfg e)) : OnTime cfg (tr ++ [e]) s' := by
  constructor
  · intro j
    rw [spike, now, spent_append, own]
    by_cases same : j = i
    · subst same
      rw [Function.update_self, if_pos rfl]
      exact mine
    · rw [Function.update_of_ne same, if_neg fun tag => same (Option.some.inj tag).symm]
      exact ont.harts j
  · intro j wake waits
    have unpolled : ticks j [e] = 0 := by cases e <;> first | rfl | cases own
    rw [now, ticks_append, unpolled]
    rw [bitbang] at waits
    exact ont.polls j wake waits

/-- An event that no thread of hart i or of its debugger makes. -/
theorem OnTime.still (ont : OnTime cfg tr s) (nobody : e.hart = none) (silent : e.poller = none)
    (spike : s'.spike = s.spike) (now : s'.now = s.now) (bitbang : s'.bitbang = s.bitbang) :
    OnTime cfg (tr ++ [e]) s' := by
  constructor
  · intro j
    rw [spike, now, spent_append, nobody, if_neg (by simp), Nat.add_zero]
    exact ont.harts j
  · intro j wake waits
    have unpolled : ticks j [e] = 0 := by cases e <;> first | rfl | cases silent
    rw [now, ticks_append, unpolled]
    rw [bitbang] at waits
    exact ont.polls j wake waits

omit [DecidableEq ι] in
/-- Time passes no wait that has not ended. -/
theorem HartTime.advance {t later : Nat} (own : HartTime (s.spike i).pc s.now t)
    (blocked : s.Blocked later i) (after : s.now ≤ later) : HartTime (s.spike i).pc later t := by
  have held := blocked.1
  cases pc : (s.spike i).pc with
  | loop h =>
    rw [pc] at held
    exact held.elim
  | step rest =>
    rw [pc] at held
    exact held.elim
  | transport a k =>
    rw [pc] at held
    exact held.elim
  | delayed a k wake =>
    rw [pc] at own held
    exact ⟨held, own.2⟩
  | paused h wake =>
    rw [pc] at own held
    exact ⟨held, own.2⟩
  | finished =>
    rw [pc] at own
    exact Nat.le_trans own after

theorem OnTime.next (ont : OnTime cfg tr s) (he : s.Enabled cfg e) :
    OnTime cfg (tr ++ [e]) (s.next cfg e) := by
  obtain ⟨_, possible⟩ := he
  cases e with
  | scStart => exact ont.still rfl rfl rfl rfl rfl
  | fail i r => exact ont.still rfl rfl rfl rfl rfl
  | advance t =>
    obtain ⟨later, _, blocked⟩ := possible
    constructor
    · intro j
      rw [spent_append]
      exact (ont.harts j).advance (blocked j) (Nat.le_of_lt later)
    · intro j wake waits
      have unpolled : ticks j [(Event.advance t : Event ι X)] = 0 := rfl
      have held := (blocked j).2
      have before : s.bitbang j = .waiting wake := waits
      rw [before] at held
      obtain ⟨_, soon, due⟩ := ont.polls j wake before
      rw [ticks_append, unpolled]
      exact ⟨held, Nat.le_trans soon (Nat.add_le_add_right (Nat.le_of_lt later) _), due⟩
  | step i =>
    obtain ⟨h, pc, _⟩ := possible
    have here := ont.harts i
    rw [pc] at here
    rw [next_step pc]
    exact ont.moved rfl rfl rfl rfl rfl here
  | leave i =>
    obtain ⟨h, pc, _⟩ := possible
    have here := ont.harts i
    rw [pc] at here
    exact ont.moved rfl rfl rfl rfl rfl (Nat.le_of_eq here.symm)
  | pause i =>
    obtain ⟨h, pc⟩ := possible
    have here : s.now = spent cfg i tr := by simpa only [pc, HartTime] using ont.harts i
    rw [next_pause pc]
    exact ont.moved rfl rfl rfl rfl rfl
      ⟨Nat.le_add_right _ _, congrArg (· + cfg.quantum i) here⟩
  | wake i =>
    obtain ⟨h, pc⟩ := possible
    have here := ont.harts i
    rw [pc] at here
    rw [next_wake pc]
    exact ont.moved rfl rfl rfl rfl rfl here.2
  | inside i a =>
    obtain ⟨after, pc, _⟩ := possible
    have here := ont.harts i
    rw [pc] at here
    rw [next_inside pc]
    exact ont.moved rfl rfl rfl rfl rfl here
  | access i a =>
    obtain ⟨after, reply, delay, bus, mem, pc, _, served⟩ := possible
    have here : s.now = spent cfg i tr := by simpa only [pc, HartTime] using ont.harts i
    have annotated : delay = Uncore.latency cfg.ucfg cfg.spikeBus a := by
      have total := Uncore.transportModel_delay (a := a) rfl rfl served
      exact total.trans (Nat.zero_add _)
    rw [next_access pc served]
    refine ont.moved rfl rfl rfl rfl rfl ⟨Nat.le_add_right _ _, ?_⟩
    rw [here, annotated]
    rfl
  | respond i a r =>
    obtain ⟨after, keepSim, pc, response⟩ := possible
    have here := ont.harts i
    rw [pc] at here
    rw [next_respond pc response]
    exact ont.moved rfl rfl rfl rfl rfl here.2
  | tick i x =>
    obtain ⟨waits, _⟩ := possible
    obtain ⟨_, _, due⟩ := ont.polls i s.now waits
    constructor
    · intro j
      rw [spent_append]
      exact ont.harts j
    · intro j wake asleep
      have before : Function.update s.bitbang i (.waiting (s.now + cfg.bitbangDelay)) j =
          .waiting wake := asleep
      by_cases same : j = i
      · subst same
        rw [Function.update_self] at before
        cases before
        have once : ticks j [(Event.tick j x : Event ι X)] = 1 := by simp [ticks]
        rw [ticks_append, once, Nat.mul_succ, ← due]
        exact ⟨Nat.le_add_right _ _, Nat.le_refl _, rfl⟩
      · rw [Function.update_of_ne same] at before
        have none : ticks j [(Event.tick i x : Event ι X)] = 0 := by
          simp [ticks, Ne.symm same]
        rw [ticks_append, none]
        exact ont.polls j wake before
  | detach i =>
    constructor
    · intro j
      rw [spent_append]
      exact ont.harts j
    · intro j wake asleep
      have before : Function.update s.bitbang i .finished j = .waiting wake := asleep
      have none : ticks j [(Event.detach i : Event ι X)] = 0 := rfl
      rw [ticks_append, none]
      by_cases same : j = i
      · subst same
        rw [Function.update_self] at before
        cases before
      · rw [Function.update_of_ne same] at before
        exact ont.polls j wake before

end Steps

theorem powerOn_onTime [Fintype ι] (cfg : ModelConfig ι H B D X) (bus : B) (proc : ι → H)
    (debug : ι → D) : OnTime cfg [] (powerOn cfg bus proc debug) := by
  constructor
  · intro i
    exact rfl
  · intro i wake waits
    simp only [powerOn] at waits
    split at waits
    · cases waits
      exact ⟨Nat.le_refl _, Nat.zero_le _, rfl⟩
    · cases waits

theorem run_onTime [Fintype ι] {cfg : ModelConfig ι H B D X} {bus : B} {proc : ι → H}
    {debug : ι → D} {tr : List (Event ι X)} {s : ModelPlatform ι H B D}
    (run : (machine cfg).Run (powerOn cfg bus proc debug) tr s) : OnTime cfg tr s :=
  run.invariant (OnTime cfg) (powerOn_onTime cfg bus proc debug) fun _ _ _ ont he => ont.next he

section Runs
variable {cfg : ModelConfig ι H B D X} {tr : List (Event ι X)} {s : ModelPlatform ι H B D}
  {e : Event ι X} {i : ι}

/-- A hart moves when all its waits are over. -/
theorem OnTime.hart_moves (ont : OnTime cfg tr s) (possible : s.Possible cfg e)
    (own : e.hart = some i) : s.now = spent cfg i tr := by
  have here := ont.harts i
  cases e with
  | step j =>
    cases own
    obtain ⟨h, pc, _⟩ := possible
    rw [pc] at here
    exact here
  | leave j =>
    cases own
    obtain ⟨h, pc, _⟩ := possible
    rw [pc] at here
    exact here
  | pause j =>
    cases own
    obtain ⟨h, pc⟩ := possible
    rw [pc] at here
    exact here
  | wake j =>
    cases own
    obtain ⟨h, pc⟩ := possible
    rw [pc] at here
    exact here.2
  | inside j a =>
    cases own
    obtain ⟨after, pc, _⟩ := possible
    rw [pc] at here
    exact here
  | access j a =>
    cases own
    obtain ⟨after, _, _, _, _, pc, _⟩ := possible
    rw [pc] at here
    exact here
  | respond j a r =>
    cases own
    obtain ⟨after, _, pc, _⟩ := possible
    rw [pc] at here
    exact here.2
  | advance t => cases own
  | scStart => cases own
  | tick j x => cases own
  | detach j => cases own
  | fail j r => cases own

theorem OnTime.poller_moves (ont : OnTime cfg tr s) (possible : s.Possible cfg e)
    (own : e.poller = some i) : s.now = cfg.bitbangDelay * ticks i tr := by
  cases e with
  | tick j x =>
    cases own
    exact (ont.polls i s.now possible.1).2.2
  | detach j =>
    cases own
    exact (ont.polls i s.now possible.1).2.2
  | _ => cases own

/-- Whatever the other threads do, a hart that moves does so at the sum of its
own waits, and the debugger of hart i polls for the n-th time, or gives up
polling, at n times its delay. -/
theorem keeps_time [Fintype ι] {bus : B} {proc : ι → H} {debug : ι → D}
    (run : (machine cfg).Run (powerOn cfg bus proc debug) tr s) (he : s.Enabled cfg e) :
    (∀ i, e.hart = some i → s.now = spent cfg i tr) ∧
      (∀ i, e.poller = some i → s.now = cfg.bitbangDelay * ticks i tr) ∧
      ∀ i wake, s.bitbang i = .waiting wake → wake = cfg.bitbangDelay * ticks i tr ∧
        s.now ≤ wake ∧ wake ≤ s.now + cfg.bitbangDelay := by
  have ont := run_onTime run
  refine ⟨fun i => ont.hart_moves he.2, fun i => ont.poller_moves he.2, fun i wake waits => ?_⟩
  obtain ⟨ahead, soon, due⟩ := ont.polls i wake waits
  exact ⟨due, ahead, soon⟩

end Runs

/-- The store takes 7 ns, the wait of the loop 2 and the load 7. -/
theorem keeps_time_twoIssRbb : ∃ s,
    (machine exampleModelCfg).Run twoIssRbb_start twoIssRbb s ∧ s.now = 7000 + 2000 + 7000 := by
  have moves := (keeps_time twoIssRbb_run (e := .pause .spike1) ⟨⟨_, rfl⟩, _, rfl⟩).1 .spike1 rfl
  exact ⟨_, twoIssRbb_run, moves.trans rfl⟩

end ModelPlatform
