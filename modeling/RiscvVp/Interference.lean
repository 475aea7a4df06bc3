import RiscvVp.Liveness

/-!
# What one hart costs the other

A hart on the RTL memory has its own clock as long as it stays out of the
window: it moves at the sum of its own waits. Each access to the window may come
on top with two bursts at most, the rival's and its own.
-/

namespace Uncore

variable {B : Type} {ucfg : Ucfg} {S : SpikeBus B} {bus bus' : B} {t reply : Payload}
  {delay delay' : Nat} {a : Mmio}

theorem transport_delay (address : t.address = a.paddr)
    (command : t.command = if a.store then .write else .read)
    (out : transport ucfg S bus t delay = .answered reply delay' bus') :
    delay' = delay + latency ucfg S a := by
  rw [transport] at out
  cases hop : bTransport ucfg S bus t delay with
  | answered t' d b =>
    rw [hop] at out
    cases out
    exact latency_of_answered address command hop
  | raised r =>
    rw [hop] at out
    cases out
  | forwarded t' d =>
    obtain ⟨window, annotated⟩ := latency_of_forwarded address command hop
    simp only [hop, Activation.bTransport] at out
    split at out
    · rename_i call
      split at call
      · cases call
        cases out
        rw [annotated, window]
      · split at call <;> cases call
    · cases out
    · cases out

theorem transport_window {act : Activation} (address : t.address = a.paddr)
    (command : t.command = if a.store then .write else .read)
    (out : transport ucfg S bus t delay = .queued act) : latency ucfg S a = scNs 7 := by
  rw [transport] at out
  cases hop : bTransport ucfg S bus t delay with
  | answered t' d b =>
    rw [hop] at out
    cases out
  | raised r =>
    rw [hop] at out
    cases out
  | forwarded t' d => exact (latency_of_forwarded address command hop).1

end Uncore

/-- How far the thread is in the three steps of a round that it takes by itself. -/
def SpikePc.turn {H : Type} : SpikePc H → Nat
  | .loop _ => 0
  | .paused _ _ => 2
  | _ => 1

namespace IssPlatform

variable {ι H B : Type} [DecidableEq ι]

section Traces
variable (cfg : IssConfig H B) (i : ι) (tr ur : List (Event ι))

/-- How often the thread of hart i went on by itself. -/
def works : Nat := (tr.filterMap (fun | .work j => some j | _ => none)).count i

/-- The instructions that hart i has ended. For each it goes on by itself three
times: to begin it, to end it, and after the wait of its loop. -/
def rounds : Nat := (works i tr + 1) / 3

/-- The waits that hart i has begun so far, but for those in the memory. -/
def spent : Nat := SpikeModule.quantum * rounds i tr +
  (((issued tr).filter (·.1 = i)).map fun c => Uncore.latency cfg.ucfg cfg.spikeBus c.2).sum

/-- The calls of hart i that had to queue for the memory. -/
def calls : Nat := (tr.filterMap (fun | .enter j _ => some j | _ => none)).count i

/-- What these calls may cost, with n bytes in a burst: the end of reset once, and
two bursts for each. -/
def blocking (n : Nat) : Nat :=
  if calls i tr = 0 then 0 else cfg.rstTimeout + 6 * n * cfg.clkPeriod * calls i tr

variable {cfg i tr ur}

theorem works_append : works i (tr ++ ur) = works i tr + works i ur := by
  rw [works, works, works, List.filterMap_append, List.count_append]

theorem calls_append : calls i (tr ++ ur) = calls i tr + calls i ur := by
  rw [calls, calls, calls, List.filterMap_append, List.count_append]

/-- An event that begins no wait of hart i. -/
theorem spent_of_quiet {e : Event ι} (rounds_ : rounds i (tr ++ [e]) = rounds i tr)
    (silent : ∀ c ∈ issued [e], c.1 ≠ i) : spent cfg i (tr ++ [e]) = spent cfg i tr := by
  rw [spent, spent, rounds_, issued_append, List.filter_append, filter_of_ne silent,
    List.append_nil]

theorem spent_of_issued {e : Event ι} {a : Mmio} (rounds_ : rounds i (tr ++ [e]) = rounds i tr)
    (issues : issued [e] = [(i, a)]) : spent cfg i (tr ++ [e]) =
      spent cfg i tr + Uncore.latency cfg.ucfg cfg.spikeBus a := by
  rw [spent, spent, rounds_, issued_append, issues]
  simp [Nat.add_assoc]

variable (cfg i tr) in
theorem blocking_le (n : Nat) : blocking cfg i tr n ≤
    cfg.rstTimeout + 6 * n * cfg.clkPeriod * calls i tr := by
  rw [blocking]
  split
  · exact Nat.zero_le _
  · exact Nat.le_refl _

end Traces

omit [DecidableEq ι] in
/-- The time up to which the waits of hart i are known. -/
def accounted (s : IssPlatform ι H B) (i : ι) : Nat :=
  match (s.spike i).pc with
  | .delayed _ _ wake => wake
  | .paused _ wake => wake
  | _ => s.now

/-- How the clock of hart i stands to its own waits, with bursts of n bytes. -/
inductive Pace (cfg : IssConfig H B) (n : Nat) (tr : List (Event ι)) (s : IssPlatform ι H B)
    (i : ι) : Prop
  | outside (apart : ∀ a next, (s.spike i).pc ≠ .transport a next)
      (lower : spent cfg i tr ≤ s.accounted i)
      (upper : s.accounted i ≤ spent cfg i tr + blocking cfg i tr n)
  | inside {a : Mmio} {next : Reply → Ask Mmio Reply H} {base grid : Nat}
      (pc : (s.spike i).pc = .transport a next) (lower : spent cfg i tr ≤ s.now + scNs 7)
      (delay : ∀ act, s.act i = some act → act.delay = scNs 7)
      (clocked : Kernel.Clocked cfg.clkPeriod base grid s.toPlatform) (waits : Waits cfg n base s i)
      (upper : base + 6 * n * cfg.clkPeriod + scNs 7 ≤ spent cfg i tr + blocking cfg i tr n)
  | gone (pc : (s.spike i).pc = .finished)

section Steps
variable {cfg : IssConfig H B} {m₀ : Ram} {flat₀ : Nat → Byte} {tr : List (Event ι)}
  {s s' : IssPlatform ι H B} {vr : List (Initiators.Event ι)} {c : Initiators ι}
  {ur : List (SharedObject.Event ι (Hart H) Mmio)} {u : SharedObject ι (Nat → Byte) (Hart H)}
  {e : Event ι} {i : ι} {n : Nat}

theorem quiet_of_other (other : e.hart ≠ some i) :
    works i [e] = 0 ∧ (∀ c ∈ issued [e], c.1 ≠ i) ∧ calls i [e] = 0 := by
  have apart {j : ι} (own : e.hart = some j) : j ≠ i := by
    rintro rfl
    exact other own
  cases e with
  | work j => exact ⟨by simp [works, apart rfl], by rintro _ ⟨⟩, rfl⟩
  | enter j a =>
    refine ⟨rfl, fun c hc => ?_, by simp [calls, apart rfl]⟩
    cases List.mem_singleton.mp hc
    exact apart rfl
  | answer j a =>
    refine ⟨rfl, fun c hc => ?_, rfl⟩
    cases List.mem_singleton.mp hc
    exact apart rfl
  | _ => exact ⟨rfl, by rintro _ ⟨⟩, rfl⟩

variable (cfg tr n) in
/-- Nothing that hart i counts changes with such an event. -/
theorem counts_of_quiet (quiet : works i [e] = 0 ∧ (∀ c ∈ issued [e], c.1 ≠ i) ∧ calls i [e] = 0) :
    spent cfg i (tr ++ [e]) = spent cfg i tr ∧
      blocking cfg i (tr ++ [e]) n = blocking cfg i tr n := by
  obtain ⟨noWork, noIssue, noCall⟩ := quiet
  refine ⟨spent_of_quiet (by rw [rounds, rounds, works_append, noWork, Nat.add_zero]) noIssue, ?_⟩
  rw [blocking, blocking, calls_append, noCall, Nat.add_zero]

theorem now_le_next (he : s.Possible cfg e) : s.now ≤ (s.next cfg e).now := by
  by_cases moves : ∃ t, e = .advance t
  · obtain ⟨t, rfl⟩ := moves
    exact he.1.le
  · exact (next_now he fun t is => moves ⟨t, is⟩).ge

/-- The reset that is pending is the one of the start. -/
theorem next_release (he : s.Possible cfg e) {r : Nat} (pending : (s.next cfg e).release = some r) :
    s.release = some r := by
  cases own : e.hart with
  | some j =>
    rw [← (next_of_hart he own).2.2.1]
    exact pending
  | none =>
    cases e with
    | release => cases pending
    | edge => exact pending
    | advance t => exact pending
    | scStart => exact pending
    | fail j r => exact pending
    | _ => cases own

/-- What the others and the kernel do keeps the pace of hart i. -/
theorem Pace.other (pace : Pace cfg n tr s i) (rising : 0 < cfg.clkPeriod) (maps : cfg.Maps)
    (rival : ∀ j k, j ≠ i → k ≠ i → j = k) (fol : Follows cfg m₀ flat₀ tr s vr c ur u)
    (short : ∀ c ∈ issued tr, c.2.bytes.bytes.length ≤ n) (he : s.Possible cfg e)
    (other : e.hart ≠ some i) : Pace cfg n (tr ++ [e]) (s.next cfg e) i := by
  obtain ⟨spike, act⟩ := next_other he other
  obtain ⟨spent', blocking'⟩ :=
    counts_of_quiet cfg tr n (quiet_of_other other)
  cases pace with
  | outside apart lower upper =>
    by_cases finished : (s.spike i).pc = .finished
    · exact .gone (by rw [spike]; exact finished)
    have same : (s.next cfg e).accounted i = s.accounted i := by
      rw [accounted, accounted, spike]
      by_cases moves : ∃ t, e = .advance t
      · obtain ⟨t, rfl⟩ := moves
        have blocked := he.2.2.2.2 i
        rw [Blocked] at blocked
        cases pc : (s.spike i).pc with
        | loop h =>
          rw [pc] at blocked
          exact blocked.elim
        | step rest =>
          rw [pc] at blocked
          exact blocked.elim
        | transport a next => exact absurd pc (apart a next)
        | delayed a next wake => rfl
        | paused h wake => rfl
        | finished => exact absurd pc finished
      · rw [next_now he fun t is => moves ⟨t, is⟩]
    refine .outside ?_ ?_ ?_
    · rw [spike]
      exact apart
    · rw [same, spent']
      exact lower
    · rw [same, spent', blocking']
      exact upper
  | inside pc lower delay clocked waits upper =>
    have stays : e ≠ .ret i := by
      rintro rfl
      exact other rfl
    refine .inside (by rw [spike]; exact pc) ?_ (by rw [act]; exact delay)
      (next_clocked clocked he) (waits.next rising maps rival fol clocked short he stays) ?_
    · rw [spent']
      exact lower.trans (Nat.add_le_add_right (now_le_next he) _)
    · rw [spent', blocking']
      exact upper
  | gone pc => exact .gone (by rw [spike]; exact pc)

/-- Every event of the loop takes the thread on in its round. -/
theorem next_turn (he : s.Possible cfg e) (turn : works i tr % 3 = (s.spike i).pc.turn) :
    works i (tr ++ [e]) % 3 = ((s.next cfg e).spike i).pc.turn := by
  by_cases own : e.hart = some i
  · cases e with
    | work k =>
      cases own
      have one : works i [(.work i : Event ι)] = 1 := by simp [works]
      obtain ⟨m, work⟩ := Option.isSome_iff_exists.mp he
      rw [works_append, one, next_work work]
      simp only [withSpike, Function.update_self]
      simp only [SpikeModule.work] at work
      split at work
      · rename_i h pc
        cases work
        have before : works i tr % 3 = 0 := by rw [turn, pc]; rfl
        cases (s.spike i).keepSim with
        | true => change (works i tr + 1) % 3 = 1; omega
        | false => change (works i tr + 1) % 3 = 1; omega
      · rename_i h pc
        cases work
        have before : works i tr % 3 = 1 := by rw [turn, pc]; rfl
        change (works i tr + 1) % 3 = 2
        omega
      · rename_i h wake pc
        split at work
        · cases work
          have before : works i tr % 3 = 2 := by rw [turn, pc]; rfl
          change (works i tr + 1) % 3 = 0
          omega
        · cases work
      · cases work
    | answer k a =>
      cases own
      obtain ⟨_, _, _, _, pc, out⟩ := he
      rw [next_answer pc out, works_append]
      simp only [withSpike, Function.update_self]
      rw [pc] at turn
      exact turn
    | enter k a =>
      cases own
      obtain ⟨_, _, pc, out⟩ := he
      rw [next_enter pc out, works_append]
      simp only [withSpike, Function.update_self]
      rw [pc] at turn
      exact turn
    | acquire k a =>
      rw [show s.next cfg (.acquire k a) = s.step k from rfl, (s.step_frame k).1, works_append]
      exact turn
    | go k =>
      rw [show s.next cfg (.go k) = s.step k from rfl, (s.step_frame k).1, works_append]
      exact turn
    | ret k =>
      cases own
      obtain ⟨_, _, _, pc, here, unlock⟩ := he
      rw [next_ret pc (resumed_of_unlock here unlock), works_append]
      simp only [withSpike, Function.update_self]
      rw [pc] at turn
      exact turn
    | respond k a r =>
      cases own
      obtain ⟨next, keepSim, pc, response⟩ := he
      rw [next_respond pc response, works_append]
      simp only [withSpike, Function.update_self]
      rw [pc] at turn
      exact turn
    | _ => cases own
  · rw [works_append, (quiet_of_other own).1, Nat.add_zero, (next_other he own).1]
    exact turn

theorem Pace.of_outside (pace : Pace cfg n tr s i)
    (apart : ∀ a next, (s.spike i).pc ≠ .transport a next)
    (goes : (s.spike i).pc ≠ .finished) : spent cfg i tr ≤ s.accounted i ∧
      s.accounted i ≤ spent cfg i tr + blocking cfg i tr n := by
  cases pace with
  | outside _ lower upper => exact ⟨lower, upper⟩
  | inside pc => exact absurd pc (apart _ _)
  | gone pc => exact absurd pc goes

/-- The hart goes on by itself: its clock moves by the wait that it begins. -/
theorem Pace.work (pace : Pace cfg n tr s i) (turn : works i tr % 3 = (s.spike i).pc.turn)
    (he : s.Possible cfg (.work i)) :
    Pace cfg n (tr ++ [.work i]) (s.next cfg (.work i)) i := by
  have one : works i [(.work i : Event ι)] = 1 := by simp [works]
  have blocking' : blocking cfg i (tr ++ [.work i]) n = blocking cfg i tr n := by
    rw [blocking, blocking, calls_append]
    rfl
  have same (between : works i tr % 3 ≠ 1) :
      spent cfg i (tr ++ [.work i]) = spent cfg i tr := by
    refine spent_of_quiet ?_ (by rintro _ ⟨⟩)
    rw [rounds, rounds, works_append, one]
    omega
  obtain ⟨m, work⟩ := Option.isSome_iff_exists.mp he
  rw [next_work work]
  simp only [SpikeModule.work] at work
  split at work
  · rename_i h pc
    cases work
    have before : works i tr % 3 = 0 := by rw [turn, pc]; rfl
    obtain ⟨lower, upper⟩ := pace.of_outside (by rw [pc]; rintro _ _ ⟨⟩) (by rw [pc]; rintro ⟨⟩)
    simp only [accounted, pc] at lower upper
    cases keep : (s.spike i).keepSim with
    | true =>
      refine .outside ?_ ?_ ?_
      · simp [withSpike]
      · rw [same (by omega)]
        simpa [accounted, withSpike] using lower
      · rw [same (by omega), blocking']
        simpa [accounted, withSpike] using upper
    | false => exact .gone (by simp [withSpike])
  · rename_i h pc
    cases work
    have before : works i tr % 3 = 1 := by rw [turn, pc]; rfl
    obtain ⟨lower, upper⟩ := pace.of_outside (by rw [pc]; rintro _ _ ⟨⟩) (by rw [pc]; rintro ⟨⟩)
    simp only [accounted, pc] at lower upper
    have more : spent cfg i (tr ++ [.work i]) = spent cfg i tr + SpikeModule.quantum := by
      have round : rounds i (tr ++ [.work i]) = rounds i tr + 1 := by
        rw [rounds, rounds, works_append, one]
        omega
      have issues : issued (tr ++ [.work i]) = issued tr := by
        rw [issued_append]
        exact List.append_nil _
      rw [spent, spent, round, issues, Nat.mul_succ]
      omega
    have wake : accounted (s.withSpike i
        { s.spike i with pc := .paused h (s.now + SpikeModule.quantum) }) i =
          s.now + SpikeModule.quantum := by
      simp [accounted, withSpike]
    refine .outside ?_ ?_ ?_
    · simp [withSpike]
    · change _ ≤ accounted (s.withSpike i _) i
      rw [more, wake]
      exact Nat.add_le_add_right lower _
    · change accounted (s.withSpike i _) i ≤ _
      rw [more, blocking', wake]
      omega
  · rename_i h wake pc
    split at work
    · rename_i now
      cases work
      have before : works i tr % 3 = 2 := by rw [turn, pc]; rfl
      obtain ⟨lower, upper⟩ := pace.of_outside (by rw [pc]; rintro _ _ ⟨⟩) (by rw [pc]; rintro ⟨⟩)
      simp only [accounted, pc, ← now] at lower upper
      refine .outside ?_ ?_ ?_
      · simp [withSpike]
      · rw [same (by omega)]
        simpa [accounted, withSpike] using lower
      · rw [same (by omega), blocking']
        simpa [accounted, withSpike] using upper
    · cases work
  · cases work

/-- The uncore answers: the clock moves by what it annotates. -/
theorem Pace.answer {a : Mmio} (pace : Pace cfg n tr s i) (he : s.Possible cfg (.answer i a)) :
    Pace cfg n (tr ++ [.answer i a]) (s.next cfg (.answer i a)) i := by
  obtain ⟨next, trans, delay, bus, pc, out⟩ := he
  obtain ⟨lower, upper⟩ := pace.of_outside (by rw [pc]; rintro _ _ ⟨⟩) (by rw [pc]; rintro ⟨⟩)
  simp only [accounted, pc] at lower upper
  have annotated : delay = Uncore.latency cfg.ucfg cfg.spikeBus a := by
    have total := Uncore.transport_delay (a := a) rfl rfl out
    exact total.trans (Nat.zero_add _)
  have more : spent cfg i (tr ++ [.answer i a]) = spent cfg i tr + delay := by
    rw [annotated]
    refine spent_of_issued ?_ rfl
    rw [rounds, rounds, works_append]
    rfl
  have blocking' : blocking cfg i (tr ++ [.answer i a]) n = blocking cfg i tr n := by
    rw [blocking, blocking, calls_append]
    rfl
  rw [next_answer pc out]
  refine .outside ?_ ?_ ?_
  · simp [withSpike, SpikeModule.returned]
  · rw [more]
    simpa [accounted, withSpike, SpikeModule.returned] using lower
  · rw [more, blocking']
    simp only [accounted, withSpike, SpikeModule.returned, Function.update_self]
    omega

/-- The call queues. From here on two bursts are enough. -/
theorem Pace.enter {a : Mmio} (pace : Pace cfg n tr s i) (maps : cfg.Maps)
    (fol : Follows cfg m₀ flat₀ tr s vr c ur u)
    (reset : ∀ r, s.release = some r → r = cfg.rstTimeout)
    (he : s.Possible cfg (.enter i a))
    (waits : Waits cfg n (Kernel.ready s.toPlatform) (s.next cfg (.enter i a)) i) :
    Pace cfg n (tr ++ [.enter i a]) (s.next cfg (.enter i a)) i := by
  obtain ⟨next, act, pc, out⟩ := id he
  obtain ⟨lower, upper⟩ := pace.of_outside (by rw [pc]; rintro _ _ ⟨⟩) (by rw [pc]; rintro ⟨⟩)
  simp only [accounted, pc] at lower upper
  have more : spent cfg i (tr ++ [.enter i a]) = spent cfg i tr + scNs 7 := by
    rw [← Uncore.transport_window (a := a) rfl rfl out]
    refine spent_of_issued ?_ rfl
    rw [rounds, rounds, works_append]
    rfl
  have one : calls i [(.enter i a : Event ι)] = 1 := by simp [calls]
  have blocking' : blocking cfg i (tr ++ [.enter i a]) n =
      cfg.rstTimeout + 6 * n * cfg.clkPeriod * calls i tr + 6 * n * cfg.clkPeriod := by
    rw [blocking, calls_append, one, if_neg (Nat.succ_ne_zero _), Nat.mul_succ, Nat.add_assoc]
  have below := blocking_le cfg i tr n
  have base : Kernel.ready s.toPlatform ≤
      spent cfg i tr + (cfg.rstTimeout + 6 * n * cfg.clkPeriod * calls i tr) := by
    cases pending : s.release with
    | none =>
      rw [Kernel.ready, pending]
      exact upper.trans (Nat.add_le_add_left below _)
    | some r =>
      rw [Kernel.ready, pending, Option.getD_some, reset r pending]
      omega
  have calling : ((s.next cfg (.enter i a)).spike i).pc = .transport a next := by
    rw [next_enter pc out]
    simp [withSpike]
  refine .inside calling ?_ ?_ (next_clocked (Kernel.clocked_start s.toPlatform) he) waits ?_
  · rw [more, next_now he (by rintro _ ⟨⟩)]
    exact Nat.add_le_add_right lower _
  · intro act' here
    rw [next_enter pc out] at here
    simp only [Function.update_self, Option.some.injEq] at here
    rcases fol.transport_cases maps i a with ⟨queues, _⟩ | ⟨_, _, _, answered, _⟩
    · rw [out] at queues
      cases queues
      rw [← here]
    · rw [out] at answered
      cases answered
  · rw [more, blocking']
    omega

/-- The call goes on and keeps its delay. -/
theorem Pace.step (pace : Pace cfg n tr s i) (fol : Follows cfg m₀ flat₀ tr s vr c ur u)
    (quiet : works i [e] = 0 ∧ (∀ c ∈ issued [e], c.1 ≠ i) ∧ calls i [e] = 0) {act : Activation}
    (here : s.act i = some act) (moves : (s.resumed i).isSome)
    (next : ∀ base grid, Kernel.Clocked cfg.clkPeriod base grid s.toPlatform →
      Waits cfg n base s i → Kernel.Clocked cfg.clkPeriod base grid (s.step i).toPlatform ∧
        Waits cfg n base (s.step i) i) : Pace cfg n (tr ++ [e]) (s.step i) i := by
  obtain ⟨_, _, stands, _⟩ := fol.attends i
  obtain ⟨a, after, pc⟩ := stands.transport_of_act here
  obtain ⟨spent', blocking'⟩ := counts_of_quiet cfg tr n quiet
  obtain ⟨spike, now, _, _⟩ := s.step_frame i
  cases pace with
  | outside apart => exact absurd pc (apart a after)
  | gone pc' => rw [pc] at pc'; cases pc'
  | @inside b after' base grid pc' lower delay clocked waits upper =>
    obtain ⟨clocked', waits'⟩ := next base grid clocked waits
    refine .inside (by rw [spike]; exact pc) ?_ ?_ clocked' waits' ?_
    · rw [spent', now]
      exact lower
    · intro act' here'
      obtain ⟨⟨act'', mem⟩, resumed⟩ := Option.isSome_iff_exists.mp moves
      rw [step_of_resumed resumed] at here'
      simp only [Function.update_self, Option.some.injEq] at here'
      obtain ⟨untimed, asleep⟩ := fol.untimed here
      rw [resumed_of_act here] at resumed
      rw [← here', Activation.resume_delay resumed untimed asleep]
      exact delay act here
    · rw [spent', blocking']
      exact upper

/-- The call is back within two bursts, and its delay begins. -/
theorem Pace.ret (pace : Pace cfg n tr s i) (he : s.Possible cfg (.ret i)) :
    Pace cfg n (tr ++ [.ret i]) (s.next cfg (.ret i)) i := by
  obtain ⟨a, after, act, pc, here, unlock⟩ := he
  obtain ⟨spent', blocking'⟩ := counts_of_quiet cfg tr n (e := .ret i) (i := i)
    ⟨rfl, by rintro _ ⟨⟩, rfl⟩
  cases pace with
  | outside apart => exact absurd pc (apart a after)
  | gone pc' => rw [pc] at pc'; cases pc'
  | inside pc' lower delay clocked waits upper =>
    have bound := waits.now_le
    have seven := delay act here
    rw [next_ret pc (resumed_of_unlock here unlock)]
    refine .outside ?_ ?_ ?_
    · simp [withSpike, SpikeModule.returned]
    · rw [spent']
      simpa [accounted, withSpike, SpikeModule.returned, seven] using lower
    · rw [spent', blocking']
      simp only [accounted, withSpike, SpikeModule.returned, Function.update_self, seven]
      omega

/-- The wait for the delay is over. -/
theorem Pace.respond {a : Mmio} {r : Reply} (pace : Pace cfg n tr s i)
    (he : s.Possible cfg (.respond i a r)) :
    Pace cfg n (tr ++ [.respond i a r]) (s.next cfg (.respond i a r)) i := by
  obtain ⟨after, keepSim, pc, response⟩ := he
  obtain ⟨spent', blocking'⟩ := counts_of_quiet cfg tr n (e := .respond i a r) (i := i)
    ⟨rfl, by rintro _ ⟨⟩, rfl⟩
  obtain ⟨lower, upper⟩ := pace.of_outside (by rw [pc]; rintro _ _ ⟨⟩) (by rw [pc]; rintro ⟨⟩)
  simp only [accounted, pc] at lower upper
  rw [next_respond pc response]
  refine .outside ?_ ?_ ?_
  · simp [withSpike]
  · rw [spent']
    simpa [accounted, withSpike] using lower
  · rw [spent', blocking']
    simpa [accounted, withSpike] using upper

end Steps

section Runs
variable [Fintype ι] {cfg : IssConfig H B} {io : IoBlock top0} {bus : B} {proc : ι → H}
  {tr : List (Event ι)} {s : IssPlatform ι H B} {e : Event ι} {i : ι} {n : Nat}

theorem run_turn_of_round (run : (machine cfg).Run (powerOn cfg io bus proc) tr s) (i : ι) :
    works i tr % 3 = (s.spike i).pc.turn :=
  run.invariant (fun tr s => works i tr % 3 = (s.spike i).pc.turn) rfl (by
    rintro tr s e turn ⟨_, possible⟩
    exact next_turn possible turn)

theorem run_release (run : (machine cfg).Run (powerOn cfg io bus proc) tr s) :
    ∀ r, s.release = some r → r = cfg.rstTimeout :=
  run.invariant (fun _ s => ∀ r, s.release = some r → r = cfg.rstTimeout)
    (fun _ pending => (Option.some.inj pending).symm) (by
      rintro tr s e reset ⟨_, possible⟩ r pending
      exact reset r (next_release possible pending))

theorem run_pace (maps : cfg.Maps) (later : 0 < cfg.rstTimeout) (rising : 0 < cfg.clkPeriod)
    (rival : ∀ j k, j ≠ i → k ≠ i → j = k)
    (wide : ∀ h, (cfg.proc h).All fun a => a.bytes.bytes.length ≤ n)
    (run : (machine cfg).Run (powerOn cfg io bus proc) tr s) : Pace cfg n tr s i := by
  have nothing : spent cfg i ([] : List (Event ι)) = 0 := by simp [spent, rounds, works, issued]
  have all := run.invariant (fun tr s => (machine cfg).Run (powerOn cfg io bus proc) tr s ∧
    Pace cfg n tr s i)
    ⟨.refl, .outside (by rintro _ _ ⟨⟩) (by rw [nothing]; exact Nat.zero_le _) (Nat.zero_le _)⟩ (by
      rintro tr s e ⟨run, pace⟩ he
      obtain ⟨_, _, _, _, _, fol⟩ := run_follows maps later run
      obtain ⟨short, _⟩ := run_asks wide maps later run
      refine ⟨run.snoc he, ?_⟩
      obtain ⟨_, possible⟩ := he
      by_cases own : e.hart = some i
      · -- while the call goes on hart i waits in one of the ways that are bounded
        have next (stays : e ≠ .ret i) (base grid : Nat)
            (clocked : Kernel.Clocked cfg.clkPeriod base grid s.toPlatform)
            (waits : Waits cfg n base s i) :
            Kernel.Clocked cfg.clkPeriod base grid (s.next cfg e).toPlatform ∧
              Waits cfg n base (s.next cfg e) i :=
          ⟨next_clocked clocked possible,
            waits.next rising maps rival fol clocked short possible stays⟩
        cases e with
        | work k =>
          cases own
          exact pace.work (run_turn_of_round run i) possible
        | answer k a =>
          cases own
          exact pace.answer possible
        | enter k a =>
          cases own
          exact pace.enter maps fol (run_release run) possible
            (enter_waits maps later rising run possible short)
        | acquire k a =>
          cases own
          obtain ⟨_, act, _, here, _, moves⟩ := id possible
          exact pace.step fol ⟨rfl, by rintro _ ⟨⟩, rfl⟩ here moves (next (by rintro ⟨⟩))
        | go k =>
          cases own
          obtain ⟨act, here, _, _, moves⟩ := id possible
          exact pace.step fol ⟨rfl, by rintro _ ⟨⟩, rfl⟩ here moves (next (by rintro ⟨⟩))
        | ret k =>
          cases own
          exact pace.ret possible
        | respond k a r =>
          cases own
          exact pace.respond possible
        | _ => cases own
      · exact pace.other rising maps rival fol short possible own)
  exact all.2

/-- With at most two harts and bursts of at most n bytes: whenever hart i moves
outside the memory, the time is the sum of its own waits, later by two bursts at
most for each call that had to queue, and once by the end of reset. A hart that
has made no such call is exactly on its own time. -/
theorem interference_bounded (maps : cfg.Maps) (later : 0 < cfg.rstTimeout)
    (rising : 0 < cfg.clkPeriod) (two : Fintype.card ι ≤ 2)
    (wide : ∀ h, (cfg.proc h).All fun a => a.bytes.bytes.length ≤ n)
    (run : (machine cfg).Run (powerOn cfg io bus proc) tr s) (he : s.Enabled cfg e)
    (own : e.hart = some i) (apart : s.act i = none) :
    spent cfg i tr ≤ s.now ∧ s.now ≤ spent cfg i tr + blocking cfg i tr n := by
  have rival (j k : ι) (hj : j ≠ i) (hk : k ≠ i) : j = k := by
    by_contra ne
    have three := Fintype.two_lt_card_iff.mpr ⟨i, j, k, hj.symm, hk.symm, ne⟩
    omega
  have pace := run_pace maps later rising rival wide run
  have outside (pc : ∀ a next, (s.spike i).pc ≠ .transport a next)
      (goes : (s.spike i).pc ≠ .finished) (now : s.accounted i = s.now) :
      spent cfg i tr ≤ s.now ∧ s.now ≤ spent cfg i tr + blocking cfg i tr n := by
    rw [← now]
    exact pace.of_outside pc goes
  obtain ⟨_, possible⟩ := he
  cases e with
  | work k =>
    cases own
    obtain ⟨m, work⟩ := Option.isSome_iff_exists.mp possible
    simp only [SpikeModule.work] at work
    split at work
    · rename_i h pc
      exact outside (by rw [pc]; rintro _ _ ⟨⟩) (by rw [pc]; rintro ⟨⟩) (by rw [accounted, pc])
    · rename_i h pc
      exact outside (by rw [pc]; rintro _ _ ⟨⟩) (by rw [pc]; rintro ⟨⟩) (by rw [accounted, pc])
    · rename_i h wake pc
      split at work
      · rename_i now
        exact outside (by rw [pc]; rintro _ _ ⟨⟩) (by rw [pc]; rintro ⟨⟩)
          (by rw [accounted, pc]; exact now.symm)
      · cases work
    · cases work
  | answer k a =>
    cases own
    obtain ⟨_, _, _, _, pc, _⟩ := possible
    exact outside (by rw [pc]; rintro _ _ ⟨⟩) (by rw [pc]; rintro ⟨⟩) (by rw [accounted, pc])
  | enter k a =>
    cases own
    obtain ⟨_, _, pc, _⟩ := possible
    exact outside (by rw [pc]; rintro _ _ ⟨⟩) (by rw [pc]; rintro ⟨⟩) (by rw [accounted, pc])
  | acquire k a =>
    cases own
    obtain ⟨_, _, _, here, _⟩ := possible
    rw [apart] at here
    cases here
  | go k =>
    cases own
    obtain ⟨_, here, _⟩ := possible
    rw [apart] at here
    cases here
  | ret k =>
    cases own
    obtain ⟨_, _, _, _, here, _⟩ := possible
    rw [apart] at here
    cases here
  | respond k a r =>
    cases own
    obtain ⟨_, _, pc, _⟩ := possible
    exact outside (by rw [pc]; rintro _ _ ⟨⟩) (by rw [pc]; rintro ⟨⟩) (by rw [accounted, pc])
  | _ => cases own

end Runs

/-- The second hart queues behind the first. -/
def spinOne : List (Event Iss) := callOne ++ .enter .spike1 loadByte :: waitOne

def spinOne_start : IssPlatform Iss Iss (Nat → Byte) :=
  powerOn spinCfg Bench.staleBlock (fun _ => 0) id

theorem spinOne_run : (machine spinCfg).Run spinOne_start spinOne
    ((machine spinCfg).after spinOne_start spinOne) := by
  apply EventMachine.run_of_admits
  refine ⟨⟨⟨_, rfl⟩, rfl⟩, ⟨⟨_, rfl⟩, rfl⟩, ⟨⟨_, rfl⟩, _, _, rfl, rfl⟩, ⟨⟨_, rfl⟩, _, _, rfl, rfl⟩,
    ⟨⟨_, rfl⟩, _, _, rfl, rfl, rfl, rfl⟩, ⟨⟨_, rfl⟩, _, rfl, by rintro ⟨⟩, by rintro ⟨⟩, rfl⟩,
    ⟨⟨_, rfl⟩, rfl⟩,
    ⟨⟨_, rfl⟩, by decide, by decide, by rintro _ ⟨⟩; decide, by rintro _ ⟨⟩; decide, ?_⟩,
    ⟨⟨_, rfl⟩, rfl⟩,
    ⟨⟨_, rfl⟩, by decide, by decide, by rintro _ ⟨⟩; decide, by rintro _ ⟨⟩; decide, ?_⟩,
    ⟨⟨_, rfl⟩, rfl⟩,
    ⟨⟨_, rfl⟩, by decide, by decide, by rintro _ ⟨⟩; decide, by rintro _ ⟨⟩; decide, ?_⟩,
    ⟨⟨_, rfl⟩, rfl⟩,
    ⟨⟨_, rfl⟩, by decide, by decide, by rintro _ ⟨⟩, by rintro _ ⟨⟩; decide, ?_⟩,
    ⟨⟨_, rfl⟩, rfl⟩,
    ⟨⟨_, rfl⟩, by decide, by decide, by rintro _ ⟨⟩, by rintro _ ⟨⟩; decide, ?_⟩,
    ⟨⟨_, rfl⟩, rfl⟩,
    ⟨⟨_, rfl⟩, by decide, by decide, by rintro _ ⟨⟩, by rintro _ ⟨⟩; decide, ?_⟩,
    ⟨⟨_, rfl⟩, rfl⟩, ⟨⟨_, rfl⟩, _, rfl, by rintro ⟨⟩, by rintro ⟨⟩, rfl⟩,
    ⟨⟨_, rfl⟩, _, _, _, rfl, rfl, rfl⟩, ⟨⟨_, rfl⟩, _, _, rfl, rfl, rfl, rfl⟩,
    ⟨⟨_, rfl⟩, _, rfl, by rintro ⟨⟩, by rintro ⟨⟩, rfl⟩,
    ⟨⟨_, rfl⟩, by decide, by decide, by rintro _ ⟨⟩, by rintro _ ⟨⟩; decide, ?_⟩, trivial⟩
  iterate 6 exact Iss.forall_iss ⟨rfl, by rintro _ ⟨⟩ _ ⟨⟩⟩ ⟨rfl, by rintro _ ⟨⟩ _ ⟨⟩⟩
  exact Iss.forall_iss (Nat.le_refl _) ⟨rfl, by rintro _ ⟨⟩ _ ⟨⟩⟩

/-- The store of the first is back at 47 ns. By its own waits it would be at 7. -/
theorem interference_bounded_spinOne : ∃ s,
    (machine spinCfg).Run spinOne_start spinOne s ∧ spent spinCfg .spike0 spinOne = scNs 7 ∧
      s.now = scNs 47 ∧
      scNs 47 ≤ scNs 7 + (scNs 17 + 6 * 1 * scNs 10 * 1) := by
  have wide (h : Iss) : (spinCfg.proc h).All fun a => a.bytes.bytes.length ≤ 1 := by
    cases h with
    | spike0 => exact ⟨Nat.le_refl 1, fun _ => trivial⟩
    | spike1 => exact ⟨Nat.le_refl 1, fun _ => trivial⟩
  have own : spent spinCfg .spike0 spinOne = scNs 7 := by decide
  have cost : blocking spinCfg .spike0 spinOne 1 = scNs 17 + 6 * 1 * scNs 10 * 1 := by decide
  have now : ((machine spinCfg).after spinOne_start spinOne).now = scNs 47 := rfl
  obtain ⟨_, upper⟩ := interference_bounded (i := .spike0)
    (e := .respond .spike0 storeSeven ⟨true, ⟨[7], DataBuffer.one_fits⟩⟩) spinCfg_maps (by decide)
    (by decide) (by decide) wide spinOne_run ⟨⟨_, rfl⟩, _, _, rfl, rfl⟩ rfl rfl
  rw [now, own, cost] at upper
  exact ⟨_, spinOne_run, own, now, upper⟩

end IssPlatform
