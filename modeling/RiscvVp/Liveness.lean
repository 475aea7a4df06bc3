import RiscvVp.BoundedWait
import RiscvVp.Shutdown

/-!
# No hart is held up

No schedule of the threads keeps time from passing, and since what blocks a
hart ends at a time, no schedule keeps one of two harts from its instructions.
-/

namespace IssPlatform

variable {ι H B : Type} [DecidableEq ι]

/-- With this event hart i is past the end of an instruction. -/
def Completes (s : IssPlatform ι H B) (i : ι) (e : Event ι) : Prop :=
  e.hart = some i ∧ ∃ h, (s.spike i).pc = .step (.done h)

section Steps
variable {cfg : IssConfig H B} {m₀ : Ram} {flat₀ : Nat → Byte} {tr : List (Event ι)}
  {s s' : IssPlatform ι H B} {vr : List (Initiators.Event ι)} {c : Initiators ι}
  {ur : List (SharedObject.Event ι (Hart H) Mmio)} {u : SharedObject ι (Nat → Byte) (Hart H)}
  {e : Event ι} {i j : ι} {due : Nat → Bool}

/-- Only `advance` moves time. -/
theorem next_now (he : s.Possible cfg e) (still : ∀ t, e ≠ .advance t) :
    (s.next cfg e).now = s.now := by
  cases own : e.hart with
  | some i => exact (next_of_hart he own).1
  | none =>
    cases e with
    | advance t => exact absurd rfl (still t)
    | edge => rfl
    | release => rfl
    | scStart => rfl
    | fail i r => rfl
    | _ => cases own

/-- The harts ask for no more than their instructions do. -/
theorem next_asks {P : Mmio → Prop} (procs : ∀ h, (cfg.proc h).All P) (maps : cfg.Maps)
    (fol : Follows cfg m₀ flat₀ tr s vr c ur u) (he : s.Possible cfg e)
    (asks : ∀ i, (s.spike i).pc.Asks P) :
    (∀ c ∈ issued [e], P c.2) ∧ ∀ i, ((s.next cfg e).spike i).pc.Asks P := by
  constructor
  · intro c hc
    cases e with
    | answer k a =>
      obtain ⟨next, _, _, _, pc, _⟩ := he
      have mine := asks k
      rw [pc] at mine
      cases List.mem_singleton.mp hc
      exact mine.1
    | enter k a =>
      obtain ⟨next, _, pc, _⟩ := he
      have mine := asks k
      rw [pc] at mine
      cases List.mem_singleton.mp hc
      exact mine.1
    | _ => cases hc
  · intro i
    by_cases own : e.hart = some i
    · refine (next_moves maps fol he own).asks ?_ (asks i)
      rintro h rest rfl
      exact procs h
    · rw [(next_other he own).1]
      exact asks i

/-- A hart is in the memory because it has called it or was there before. -/
theorem transport_of_next (he : s.Possible cfg e) {a : Mmio} {next : Reply → Ask Mmio Reply H}
    (pc : ((s.next cfg e).spike i).pc = .transport a next) :
    (∃ a, e = .enter i a) ∨ e ≠ .ret i ∧ ∃ a next, (s.spike i).pc = .transport a next := by
  by_cases own : e.hart = some i
  · cases e with
    | work k =>
      cases own
      obtain ⟨m, work⟩ := Option.isSome_iff_exists.mp he
      rw [next_work work] at pc
      simp only [withSpike, Function.update_self] at pc
      simp only [SpikeModule.work] at work
      split at work
      · cases work
        cases keep : (s.spike i).keepSim <;> simp [keep] at pc
      · cases work
        cases pc
      · split at work
        · cases work
          cases pc
        · cases work
      · cases work
    | answer k b =>
      cases own
      obtain ⟨_, _, _, _, pc', out⟩ := he
      rw [next_answer pc' out] at pc
      simp only [withSpike, Function.update_self] at pc
      cases pc
    | enter k b =>
      cases own
      exact Or.inl ⟨b, rfl⟩
    | acquire k b =>
      cases own
      rw [show s.next cfg (.acquire i b) = s.step i from rfl, (s.step_frame i).1] at pc
      exact Or.inr ⟨by rintro ⟨⟩, a, next, pc⟩
    | go k =>
      cases own
      rw [show s.next cfg (.go i) = s.step i from rfl, (s.step_frame i).1] at pc
      exact Or.inr ⟨by rintro ⟨⟩, a, next, pc⟩
    | ret k =>
      cases own
      obtain ⟨_, _, _, pc', here, unlock⟩ := he
      rw [next_ret pc' (resumed_of_unlock here unlock)] at pc
      simp only [withSpike, Function.update_self] at pc
      cases pc
    | respond k b r =>
      cases own
      obtain ⟨after, keepSim, pc', response⟩ := he
      rw [next_respond pc' response] at pc
      simp only [withSpike, Function.update_self] at pc
      cases pc
    | _ => cases own
  · rw [(next_other he own).1] at pc
    refine Or.inr ⟨?_, a, next, pc⟩
    rintro rfl
    exact own rfl

end Steps

section Runs
variable [Fintype ι] {cfg : IssConfig H B} {io : IoBlock top0} {bus : B} {proc : ι → H}
  {tr : List (Event ι)} {s : IssPlatform ι H B} {i : ι} {n : Nat}

/-- The harts issue only what their processors ask for. -/
theorem run_asks {P : Mmio → Prop} (procs : ∀ h, (cfg.proc h).All P) (maps : cfg.Maps)
    (later : 0 < cfg.rstTimeout) (run : (machine cfg).Run (powerOn cfg io bus proc) tr s) :
    (∀ c ∈ issued tr, P c.2) ∧ ∀ i, (s.spike i).pc.Asks P := by
  have all := run.invariant (fun tr s => (machine cfg).Run (powerOn cfg io bus proc) tr s ∧
    (∀ c ∈ issued tr, P c.2) ∧ ∀ i, (s.spike i).pc.Asks P)
    ⟨.refl, by rintro _ ⟨⟩, fun _ => trivial⟩ (by
      rintro tr s e ⟨run, issues, asks⟩ he
      obtain ⟨_, _, _, _, _, fol⟩ := run_follows maps later run
      obtain ⟨more, asks'⟩ := next_asks procs maps fol he.2 asks
      refine ⟨run.snoc he, fun c hc => ?_, asks'⟩
      rw [issued_append] at hc
      exact (List.mem_append.mp hc).elim (issues c) (more c))
  exact all.2

/-- A hart that is in the memory waits in one of the ways that are bounded. -/
theorem run_waiting (maps : cfg.Maps) (later : 0 < cfg.rstTimeout) (rising : 0 < cfg.clkPeriod)
    (rival : ∀ j k, j ≠ i → k ≠ i → j = k)
    (wide : ∀ h, (cfg.proc h).All fun a => a.bytes.bytes.length ≤ n)
    (run : (machine cfg).Run (powerOn cfg io bus proc) tr s) {a : Mmio}
    {next : Reply → Ask Mmio Reply H} (pc : (s.spike i).pc = .transport a next) :
    ∃ base grid, Kernel.Clocked cfg.clkPeriod base grid s.toPlatform ∧ Waits cfg n base s i := by
  have all := run.invariant (fun tr s => (machine cfg).Run (powerOn cfg io bus proc) tr s ∧
    ∀ a next, (s.spike i).pc = .transport a next → ∃ base grid,
      Kernel.Clocked cfg.clkPeriod base grid s.toPlatform ∧ Waits cfg n base s i)
    ⟨.refl, fun _ _ => by rintro ⟨⟩⟩ (by
      rintro tr s e ⟨run, waiting⟩ he
      obtain ⟨short, _⟩ := run_asks wide maps later run
      obtain ⟨_, _, _, _, _, fol⟩ := run_follows maps later run
      refine ⟨run.snoc he, fun a next pc => ?_⟩
      rcases transport_of_next he.2 pc with ⟨b, rfl⟩ | ⟨stays, b, after, before⟩
      · exact ⟨_, _, next_clocked (Kernel.clocked_start s.toPlatform) he.2,
          enter_waits maps later rising run he.2 short⟩
      · obtain ⟨base, grid, clocked, waits⟩ := waiting b after before
        exact ⟨base, grid, next_clocked clocked he.2,
          waits.next rising maps rival fol clocked short he.2 stays⟩)
  exact all.2 a next pc

section Endless
variable {r : EndlessRun (machine cfg) (powerOn cfg io bus proc)} {last : Nat}

/-- A hart that makes no event stays where it is. -/
theorem endless_frozen (quiet : ∀ m, last ≤ m → (r.event m).hart ≠ some i) (k : Nat) :
    (r.state (last + k)).spike i = (r.state last).spike i := by
  induction k with
  | zero => rfl
  | succ k ih =>
    rw [← Nat.add_assoc, r.next]
    exact (next_other (r.enabled _).2 (quiet _ (Nat.le_add_right _ _))).1.trans ih

/-- Nobody but a hart that has left its loop makes no event any more. -/
theorem finished_of_quiet (maps : cfg.Maps) (later : 0 < cfg.rstTimeout)
    (rising : 0 < cfg.clkPeriod) (rival : ∀ j k, j ≠ i → k ≠ i → j = k)
    (wide : ∀ h, (cfg.proc h).All fun a => a.bytes.bytes.length ≤ n)
    (quiet : ∀ m, last ≤ m → (r.event m).hart ≠ some i) :
    ((r.state last).spike i).pc = .finished := by
  have frozen := endless_frozen quiet
  have wakes (k wake : Nat) (waits : ((r.state last).spike i).wake = some wake) :
      (r.state (last + k)).now ≤ wake := by
    refine (run_orderly maps later (r.run (last + k))).wakes i wake ?_
    rw [frozen]
    exact waits
  -- a hart that can go on at once lets no time pass
  have busy (ready : ∀ k t, ¬ (r.state (last + k)).Blocked t i) : False := by
    have same (k : Nat) : (r.state (last + k)).now = (r.state last).now := by
      induction k with
      | zero => rfl
      | succ k ih =>
        rw [← Nat.add_assoc, r.next]
        refine (next_now (r.enabled _).2 fun t is => ?_).trans ih
        have possible := (r.enabled (last + k)).2
        rw [is] at possible
        exact ready k t (possible.2.2.2.2 i)
    obtain ⟨m, after, passed⟩ :=
      endless_clock maps later rising .refl r ((r.state last).now + 1) last
    obtain ⟨k, rfl⟩ := Nat.exists_eq_add_of_le after
    rw [same k] at passed
    omega
  have late (wake : Nat) (waits : ((r.state last).spike i).wake = some wake) : False := by
    obtain ⟨m, after, passed⟩ := endless_clock maps later rising .refl r (wake + 1) last
    obtain ⟨k, rfl⟩ := Nat.exists_eq_add_of_le after
    have := wakes k wake waits
    omega
  cases pc : ((r.state last).spike i).pc with
  | loop h => exact (busy fun k t => by simp [Blocked, frozen k, pc]).elim
  | step rest => exact (busy fun k t => by simp [Blocked, frozen k, pc]).elim
  | delayed a next wake => exact (late wake (by rw [SpikeModule.wake, pc])).elim
  | paused h wake => exact (late wake (by rw [SpikeModule.wake, pc])).elim
  | transport a next =>
    obtain ⟨base, grid, clocked, waits⟩ :=
      run_waiting maps later rising rival wide (r.run last) pc
    obtain ⟨m, after, passed⟩ :=
      endless_clock maps later rising .refl r (base + 6 * n * cfg.clkPeriod + 1) last
    obtain ⟨k, rfl⟩ := Nat.exists_eq_add_of_le after
    have rest := (r.drop last).run k
    have inside : .ret i ∉ (r.drop last).trace k := by
      intro back
      obtain ⟨l, _, is⟩ := List.mem_map.mp back
      refine quiet (last + l) (Nat.le_add_right _ _) ?_
      rw [show r.event (last + l) = .ret i from is]
      rfl
    have bound := (run_waits maps later rising rival (r.run last) clocked waits rest inside
      (run_asks wide maps later ((r.run last).trans rest)).1).now_le
    have there : (r.state (last + k)).now ≤ base + 6 * n * cfg.clkPeriod := bound
    omega
  | finished => rfl

/-- Time passes every bound, however the threads are scheduled and however many
harts there are. With two, each leaves its loop after an access outside the
memory map or comes to the end of instructions for ever. -/
theorem keeps_going (maps : cfg.Maps) (later : 0 < cfg.rstTimeout) (rising : 0 < cfg.clkPeriod)
    (r : EndlessRun (machine cfg) (powerOn cfg io bus proc)) :
    (∀ t, ∃ m, t ≤ (r.state m).now) ∧
    (Fintype.card ι ≤ 2 → ∀ i,
      (∃ m a, ((r.state m).spike i).pc = .finished ∧ (i, a) ∈ taken (r.trace m) ∧
        ¬ Uncore.Inside cfg.ucfg a.payload) ∨
      ∀ first, ∃ m, first ≤ m ∧ (r.state m).Completes i (r.event m)) := by
  refine ⟨fun t => ?_, fun two i => ?_⟩
  · obtain ⟨m, _, passed⟩ := endless_clock maps later rising .refl r t 0
    exact ⟨m, passed⟩
  have rival (j k : ι) (hj : j ≠ i) (hk : k ≠ i) : j = k := by
    by_contra ne
    have three := Fintype.two_lt_card_iff.mpr ⟨i, j, k, hj.symm, hk.symm, ne⟩
    omega
  by_contra neither
  obtain ⟨loops, never⟩ := not_or.mp neither
  push Not at never
  obtain ⟨first, none⟩ := never
  -- without another end of an instruction hart i comes to rest
  have falls (m : Nat) (after : first ≤ m) (own : (r.event m).hart = some i) :
      hartRank cfg (fun _ => true) (r.state (m + 1)) i <
        hartRank cfg (fun _ => true) (r.state m) i := by
    obtain ⟨_, _, _, _, _, fol⟩ := run_follows maps later (r.run m)
    rw [r.next]
    exact next_rank maps fol (r.enabled m).2 own rfl fun done => absurd ⟨own, done⟩ (none m after)
  obtain ⟨last, _, quiet⟩ := EndlessRun.eventually_still
    (fun m => hartRank cfg (fun _ => true) (r.state m) i) (fun m => (r.event m).hart = some i)
    (fun m after => by
      by_cases own : (r.event m).hart = some i
      · exact (falls m after own).le
      · rw [r.next]
        exact (hartRank_of_other (r.enabled m).2 own).le)
    falls
  have wide (h : H) : (cfg.proc h).All fun a => a.bytes.bytes.length ≤ 2 ^ 32 :=
    Ask.all_of_forall (fun a => a.bytes.fits.le) _
  have finished := finished_of_quiet maps later rising rival wide quiet
  obtain ⟨a, took, outside⟩ := outside_of_left maps later (r.run last)
    (SpikeModule.ended_eq_true.mpr finished)
  exact loops ⟨last, a, finished, took, outside⟩

end Endless

/-- Harts whose accesses are all inside the memory map run for ever. -/
theorem exists_endless [Nonempty ι] (maps : cfg.Maps) (later : 0 < cfg.rstTimeout)
    (inside : ∀ h, (cfg.proc h).All fun a => Uncore.Inside cfg.ucfg a.payload) (io : IoBlock top0)
    (bus : B) (proc : ι → H) : Nonempty (EndlessRun (machine cfg) (powerOn cfg io bus proc)) := by
  refine (EndlessRun.exists_of_moves
    (fun s => ∃ tr, (machine cfg).Run (powerOn cfg io bus proc) tr s) ?_ ⟨[], .refl⟩).nonempty
  rintro s ⟨tr, run⟩
  have ord := run_orderly maps later run
  obtain ⟨_, _, _, _, _, fol⟩ := run_follows maps later run
  obtain ⟨e, he⟩ : ∃ e, s.Enabled cfg e := by
    cases main : s.main with
    | simulating stop => exact fol.moves maps ord main
    | exited code =>
      have left := (ord.exited code main).2 (Classical.arbitrary ι)
      obtain ⟨a, took, outside⟩ := outside_of_left maps later run left
      exact absurd ((run_asks inside maps later run).1 _ (fol.issued_of_taken took)) outside
  exact ⟨e, he, _, run.snoc he⟩

end Runs

/-- Each hart makes the same access for ever. -/
def spinAccess : Iss → Mmio
  | .spike0 => storeSeven
  | .spike1 => loadByte

def spinCfg : IssConfig Iss (Nat → Byte) where
  ucfg := exampleCfg.ucfg
  spikeBus := exampleCfg.spikeBus
  proc i := .ask (spinAccess i) fun _ => .done i
  clkPeriod := exampleCfg.clkPeriod
  rstTimeout := exampleCfg.rstTimeout

theorem spinCfg_maps : spinCfg.Maps :=
  ⟨exampleCfg_maps.laid, exampleCfg_maps.roomy, exampleCfg_maps.serves, exampleCfg_maps.keeps⟩

theorem spinCfg_inside (i : Iss) :
    (spinCfg.proc i).All fun a => Uncore.Inside spinCfg.ucfg a.payload := by
  cases i with
  | spike0 => exact ⟨by decide, fun _ => trivial⟩
  | spike1 => exact ⟨by decide, fun _ => trivial⟩

/-- There is such a run of the two, and both go on in it for ever. -/
theorem keeps_going_spin :
    ∃ r : EndlessRun (machine spinCfg) (powerOn spinCfg Bench.staleBlock (fun _ => 0) id),
      (∀ t, ∃ m, t ≤ (r.state m).now) ∧
      ∀ i first, ∃ m, first ≤ m ∧ (r.state m).Completes i (r.event m) := by
  have : Nonempty Iss := ⟨.spike0⟩
  obtain ⟨r⟩ := exists_endless spinCfg_maps (by decide) spinCfg_inside Bench.staleBlock
    (fun _ => 0) id
  obtain ⟨passes, harts⟩ := keeps_going spinCfg_maps (by decide) (by decide) r
  refine ⟨r, passes, fun i => (harts (by decide) i).resolve_left ?_⟩
  rintro ⟨m, a, _, took, outside⟩
  obtain ⟨_, _, _, _, _, fol⟩ := run_follows spinCfg_maps (by decide) (r.run m)
  exact outside ((run_asks spinCfg_inside spinCfg_maps (by decide) (r.run m)).1 _
    (fol.issued_of_taken took))

end IssPlatform
