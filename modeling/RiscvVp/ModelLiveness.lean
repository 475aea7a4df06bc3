import RiscvVp.ModelShutdown

/-!
# No thread is held up on the reference platforms

However many harts share the reference memory, none waits for another. So every
schedule lets each of them execute, and each debugger poll, for ever.
-/

namespace ModelPlatform

variable {ι H B D X : Type} [DecidableEq ι]

/-- With this event hart i is past the end of an instruction. -/
def Completes (s : ModelPlatform ι H B D) (i : ι) (e : Event ι X) : Prop :=
  e.hart = some i ∧ ∃ h, (s.spike i).pc = .step (.done h)

section Steps
variable {cfg : ModelConfig ι H B D X} {tr : List (Event ι X)} {s : ModelPlatform ι H B D}
  {e : Event ι X} {i : ι} {due : Nat → Bool}

/-- Only `advance` moves time. -/
theorem next_now (he : s.Possible cfg e) (still : ∀ t, e ≠ .advance t) :
    (s.next cfg e).now = s.now := by
  cases own : e.hart with
  | some i => exact (next_of_hart he own).1
  | none =>
    cases e with
    | advance t => exact absurd rfl (still t)
    | scStart => rfl
    | tick i x => rfl
    | detach i => rfl
    | fail i r => rfl
    | _ => cases own

/-- The uncore serves only what the processors ask for beyond their debug modules. -/
theorem next_asks {P : ι → Mmio → Prop} (procs : ∀ i d h, (cfg.begins i d h).2.All (P i))
    (he : s.Possible cfg e) (asks : ∀ i, (s.spike i).pc.Asks (P i)) :
    (∀ c ∈ taken [e], P c.1 c.2 ∧ ¬ cfg.Stays c.1 c.2) ∧
      ∀ i, ((s.next cfg e).spike i).pc.Asks (P i) := by
  constructor
  · intro c hc
    cases e with
    | access k a =>
      obtain ⟨after, _, _, _, _, pc, goes, _⟩ := he
      have mine := asks k
      rw [pc] at mine
      cases List.mem_singleton.mp hc
      exact ⟨mine.1, goes⟩
    | _ => cases hc
  · intro i
    by_cases own : e.hart = some i
    · refine (next_moves he own).asks ?_ (asks i)
      rintro h _ ⟨d, rfl⟩
      exact procs i d h
    · rw [next_other he own]
      exact asks i

end Steps

section Runs
variable [Fintype ι] {cfg : ModelConfig ι H B D X} {bus : B} {proc : ι → H} {debug : ι → D}
  {tr : List (Event ι X)} {s : ModelPlatform ι H B D} {i : ι}

theorem run_asks {P : ι → Mmio → Prop} (procs : ∀ i d h, (cfg.begins i d h).2.All (P i))
    (run : (machine cfg).Run (powerOn cfg bus proc debug) tr s) :
    ∀ c ∈ taken tr, P c.1 c.2 ∧ ¬ cfg.Stays c.1 c.2 := by
  have all := run.invariant (fun tr s => (∀ c ∈ taken tr, P c.1 c.2 ∧ ¬ cfg.Stays c.1 c.2) ∧
    ∀ i, (s.spike i).pc.Asks (P i)) ⟨by rintro _ ⟨⟩, fun _ => trivial⟩ (by
      rintro tr s e ⟨takes, asks⟩ he
      obtain ⟨more, asks'⟩ := next_asks procs he.2 asks
      refine ⟨fun c hc => ?_, asks'⟩
      rw [taken_append] at hc
      exact (List.mem_append.mp hc).elim (takes c) (more c))
  exact all.1

section Endless
variable {r : EndlessRun (machine cfg) (powerOn cfg bus proc debug)} {last : Nat}

/-- Nobody but a hart that has left its loop makes no event any more. -/
theorem finished_of_quiet (maps : cfg.Maps) (polls : 0 < cfg.bitbangDelay)
    (quiet : ∀ m, last ≤ m → (r.event m).hart ≠ some i) :
    ((r.state last).spike i).pc = .finished := by
  have frozen (k : Nat) : (r.state (last + k)).spike i = (r.state last).spike i := by
    induction k with
    | zero => rfl
    | succ k ih =>
      rw [← Nat.add_assoc, r.next]
      exact (next_other (r.enabled _).2 (quiet _ (Nat.le_add_right _ _))).trans ih
  have time (k : Nat) := (run_onTime (r.run (last + k))).harts i
  -- a hart that can go on at once lets no time pass
  have busy (ready : ∀ k t, ¬ (r.state (last + k)).Blocked t i) : False := by
    have same (k : Nat) : (r.state (last + k)).now = (r.state last).now := by
      induction k with
      | zero => rfl
      | succ k ih =>
        rw [← Nat.add_assoc, r.next]
        refine (next_now (r.enabled _).2 fun t is => ?_).trans ih
        have possible := (r.enabled (last + k)).2
        rw [is] at possible
        exact ready k t (possible.2.2 i)
    obtain ⟨m, after, passed⟩ := endless_clock maps polls .refl r ((r.state last).now + 1) last
    obtain ⟨k, rfl⟩ := Nat.exists_eq_add_of_le after
    rw [same k] at passed
    omega
  have late (wake : Nat) (asleep : ∀ k, (r.state (last + k)).now ≤ wake) : False := by
    obtain ⟨m, after, passed⟩ := endless_clock maps polls .refl r (wake + 1) last
    obtain ⟨k, rfl⟩ := Nat.exists_eq_add_of_le after
    have := asleep k
    omega
  cases pc : ((r.state last).spike i).pc with
  | loop h => exact (busy fun k t => by simp [Blocked, frozen k, pc]).elim
  | step rest => exact (busy fun k t => by simp [Blocked, frozen k, pc]).elim
  | transport a next =>
    have here := time 0
    rw [frozen, pc] at here
    exact here.elim
  | delayed a next wake =>
    refine (late wake fun k => ?_).elim
    have here := time k
    rw [frozen, pc] at here
    exact here.1
  | paused h wake =>
    refine (late wake fun k => ?_).elim
    have here := time k
    rw [frozen, pc] at here
    exact here.1
  | finished => rfl

/-- A debugger that polls no more has given up. -/
theorem silent_of_unpolled (maps : cfg.Maps) (polls : 0 < cfg.bitbangDelay)
    (unpolled : ∀ m, last ≤ m → ∀ x, r.event m ≠ .tick i x) :
    ∃ m, (r.state m).bitbang i = .finished := by
  by_contra never
  have asleep (m : Nat) : ∃ wake, (r.state m).bitbang i = .waiting wake := by
    cases waits : (r.state m).bitbang i with
    | waiting wake => exact ⟨wake, rfl⟩
    | finished => exact absurd ⟨m, waits⟩ never
  obtain ⟨wake, waits⟩ := asleep last
  have frozen (k : Nat) : (r.state (last + k)).bitbang i = .waiting wake := by
    induction k with
    | zero => exact waits
    | succ k ih =>
      obtain ⟨wake', waits'⟩ := asleep (last + (k + 1))
      rw [← Nat.add_assoc, r.next] at waits' ⊢
      have before := asleep_of_next (r.enabled _).2 (unpolled _ (Nat.le_add_right _ _)) waits'
      rw [ih] at before
      cases before
      exact waits'
  obtain ⟨m, after, passed⟩ := endless_clock maps polls .refl r (wake + 1) last
  obtain ⟨k, rfl⟩ := Nat.exists_eq_add_of_le after
  obtain ⟨ahead, _⟩ := (run_onTime (r.run (last + k))).polls i wake (frozen k)
  omega

/-- However the threads of however many harts are scheduled, time passes every
bound, and a hart that makes no access outside the memory map comes to the end
of instructions for ever, with its socket polled for ever. -/
theorem keeps_running (maps : cfg.Maps) (polls : 0 < cfg.bitbangDelay)
    (r : EndlessRun (machine cfg) (powerOn cfg bus proc debug)) :
    (∀ t, ∃ m, t ≤ (r.state m).now) ∧
    ∀ i, (∃ m a, (i, a) ∈ taken (r.trace m) ∧ ¬ Uncore.Inside cfg.ucfg a.payload) ∨
      (∀ first, ∃ m, first ≤ m ∧ (r.state m).Completes i (r.event m)) ∧
      (cfg.rbb i = true → ∀ first, ∃ m x, first ≤ m ∧ r.event m = .tick i x) := by
  refine ⟨fun t => ?_, fun i => ?_⟩
  · obtain ⟨m, _, passed⟩ := endless_clock maps polls .refl r t 0
    exact ⟨m, passed⟩
  refine or_iff_not_imp_left.mpr fun inside => ⟨fun first => ?_, fun dbg first => ?_⟩
  · by_contra none
    push Not at none
    have falls (m : Nat) (after : first ≤ m) (own : (r.event m).hart = some i) :
        hartRank cfg (fun _ => true) (r.state (m + 1)) i <
          hartRank cfg (fun _ => true) (r.state m) i := by
      rw [r.next]
      exact next_rank (r.enabled m).2 own rfl fun done => absurd ⟨own, done⟩ (none m after)
    obtain ⟨last, _, quiet⟩ := EndlessRun.eventually_still
      (fun m => hartRank cfg (fun _ => true) (r.state m) i) (fun m => (r.event m).hart = some i)
      (fun m after => by
        by_cases own : (r.event m).hart = some i
        · exact (falls m after own).le
        · rw [r.next]
          exact (hartRank_of_other (r.enabled m).2 own).le)
      falls
    have left := SpikeModule.ended_eq_true.mpr (finished_of_quiet maps polls quiet)
    obtain ⟨a, took, outside⟩ := outside_of_gone maps (r.run last) (Or.inl left)
    exact inside ⟨last, a, took, outside⟩
  · by_contra none
    have unpolled (m : Nat) (after : first ≤ m) (x : X) : r.event m ≠ .tick i x :=
      fun is => none ⟨m, x, after, is⟩
    obtain ⟨m, silent⟩ := silent_of_unpolled maps polls unpolled
    obtain ⟨a, took, outside⟩ := outside_of_gone maps (r.run m) (Or.inr ⟨dbg, silent⟩)
    exact inside ⟨m, a, took, outside⟩

end Endless

/-- Harts that leave the memory map only for their debug modules run for ever. -/
theorem exists_endless [Nonempty ι] [Nonempty X] (maps : cfg.Maps)
    (inside : ∀ i d h, (cfg.begins i d h).2.All fun a =>
      cfg.Stays i a ∨ Uncore.Inside cfg.ucfg a.payload) (bus : B) (proc : ι → H) (debug : ι → D) :
    Nonempty (EndlessRun (machine cfg) (powerOn cfg bus proc debug)) := by
  refine (EndlessRun.exists_of_moves
    (fun s => ∃ tr, (machine cfg).Run (powerOn cfg bus proc debug) tr s) ?_ ⟨[], .refl⟩).nonempty
  rintro s ⟨tr, run⟩
  have cnt := run_counted maps run
  obtain ⟨_, _, _, fol⟩ := run_follows maps run
  obtain ⟨e, he⟩ : ∃ e, s.Enabled cfg e := by
    cases main : s.main with
    | simulating stop => exact fol.moves maps (run_onTime run) cnt main
    | exited code =>
      have i := Classical.arbitrary ι
      have gone : i ∉ s.unfinished := by
        rw [(cnt.exited code main).2.1]
        exact Finset.notMem_empty i
      obtain ⟨a, took, outside⟩ := outside_of_gone maps run
        (Or.inl (by simpa [unfinished] using gone))
      obtain ⟨stays | here, goes⟩ := run_asks inside run _ took
      · exact absurd stays goes
      · exact absurd here outside
  exact ⟨e, he, _, run.snoc he⟩

end Runs

open IssPlatform (Iss storeSeven)

/-- The first hart reads its debug module for ever, the second stores a byte. -/
def spinCfg : ModelConfig Iss Iss (Nat → Byte) Nat Unit where
  ucfg := exampleModelCfg.ucfg
  spikeBus := exampleModelCfg.spikeBus
  rbb := exampleModelCfg.rbb
  proc _ := .ask storeSeven fun _ => .done .spike1
  debugged polls _ := (polls, .ask loadDebug fun _ => .done .spike0)
  chain := countingChain
  bitbangDelay := exampleModelCfg.bitbangDelay

theorem spinCfg_maps : spinCfg.Maps :=
  ⟨exampleModelCfg_maps.laid, exampleModelCfg_maps.roomy, exampleModelCfg_maps.serves,
    exampleModelCfg_maps.keeps⟩

theorem spinCfg_inside (i : Iss) (d : Nat) (h : Iss) : (spinCfg.begins i d h).2.All fun a =>
    spinCfg.Stays i a ∨ Uncore.Inside spinCfg.ucfg a.payload := by
  cases i with
  | spike0 => exact ⟨Or.inl ⟨rfl, rfl⟩, fun _ => trivial⟩
  | spike1 => exact ⟨Or.inr (by decide), fun _ => trivial⟩

/-- There is such a run of the two, both go on in it for ever, and so do the polls. -/
theorem keeps_running_spin :
    ∃ r : EndlessRun (machine spinCfg) (powerOn spinCfg (fun _ => 0) id fun _ => 0),
      (∀ t, ∃ m, t ≤ (r.state m).now) ∧
      (∀ i first, ∃ m, first ≤ m ∧ (r.state m).Completes i (r.event m)) ∧
      ∀ first, ∃ m x, first ≤ m ∧ r.event m = .tick .spike0 x := by
  have : Nonempty Iss := ⟨.spike0⟩
  obtain ⟨r⟩ := exists_endless spinCfg_maps spinCfg_inside (fun _ => 0) id fun _ => 0
  obtain ⟨passes, harts⟩ := keeps_running spinCfg_maps (by decide) r
  have goes (i : Iss) := (harts i).resolve_left (by
    rintro ⟨m, a, took, outside⟩
    obtain ⟨stays | here, leaves⟩ := run_asks spinCfg_inside (r.run m) _ took
    · exact leaves stays
    · exact outside here)
  exact ⟨r, passes, fun i => (goes i).1, (goes .spike0).2 rfl⟩

end ModelPlatform
