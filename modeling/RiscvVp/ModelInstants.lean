import RiscvVp.ModelClocks
import RiscvVp.Shutdown

/-!
# What can happen at one instant on the reference platforms

As on the RTL platform, every event moves the clock or uses up some of what can
still happen at this time. Here a poll of a debugger is one more thing that can.
-/

namespace ModelPlatform

variable {ι H B D X : Type} [DecidableEq ι]

section Steps
variable {cfg : ModelConfig ι H B D X} {tr : List (Event ι X)} {s : ModelPlatform ι H B D}
  {e : Event ι X} {i : ι} {due : Nat → Bool}

/-- The instructions that can begin, whatever the debug module says. -/
def Begins (cfg : ModelConfig ι H B D X) (i : ι) (h : H) (rest : Ask Mmio Reply H) : Prop :=
  ∃ d, rest = (cfg.begins i d h).2

omit [DecidableEq ι] in
theorem quantum_pos (cfg : ModelConfig ι H B D X) (i : ι) : 0 < cfg.quantum i := by
  rw [ModelConfig.quantum]
  split <;> decide

/-- What an event of hart i does with its place. -/
theorem next_moves (he : s.Possible cfg e) (own : e.hart = some i) :
    (s.spike i).pc.Moves (Begins cfg i) s.now 0 0 ((s.next cfg e).spike i).pc := by
  cases e with
  | step k =>
    cases own
    obtain ⟨h, pc, _⟩ := he
    rw [next_step pc, pc]
    simp only [withPc, withSpike, Function.update_self]
    exact .begins ⟨_, rfl⟩
  | leave k =>
    cases own
    obtain ⟨h, pc, _⟩ := he
    rw [pc]
    simp only [next, withPc, withSpike, Function.update_self]
    exact .leaves
  | pause k =>
    cases own
    obtain ⟨h, pc⟩ := he
    rw [next_pause pc, pc]
    simp only [withPc, withSpike, Function.update_self]
    exact .pauses (Nat.lt_add_of_pos_right (quantum_pos cfg i))
  | wake k =>
    cases own
    obtain ⟨h, pc⟩ := he
    rw [next_wake pc, pc]
    simp only [withPc, withSpike, Function.update_self]
    exact .wakes
  | inside k a =>
    cases own
    obtain ⟨after, pc, _⟩ := he
    rw [next_inside pc, pc]
    simp only [withPc, withSpike, Function.update_self]
    exact .stays
  | access k a =>
    cases own
    obtain ⟨after, _, _, _, _, pc, _, served⟩ := he
    rw [next_access pc served, pc]
    simp only [withSpike, Function.update_self]
    exact .answered
  | respond k a r =>
    cases own
    obtain ⟨after, _, pc, response⟩ := he
    rw [next_respond pc response, pc]
    simp only [withSpike, Function.update_self]
    exact .replied
  | advance t => cases own
  | scStart => cases own
  | tick k x => cases own
  | detach k => cases own
  | fail k r => cases own

omit [DecidableEq ι] in
/-- Either switch clears `keep_sim` exactly with the reply it refuses. -/
theorem respond_keepSim {m : SpikeModule H} {r : Reply} {keepSim : Bool}
    (response : cfg.respond i m = .ok (r, keepSim)) : keepSim = (m.keepSim && r.done) := by
  simp only [ModelConfig.respond] at response
  split at response
  · simp only [RbbspikeModule.respond] at response
    split at response <;> cases response <;> simp
  · exact SpikeModule.respond_keepSim response

/-- What an event of hart i does to its module. -/
theorem next_hart (he : s.Possible cfg e) (own : e.hart = some i) : ∃ m,
    (s.next cfg e).spike = Function.update s.spike i m ∧
      m.keepSim = ((s.spike i).keepSim && (got [e]).all (·.2.done)) ∧
      (s.spike i).ended = false ∧ (m.ended = true ↔ e = .leave i) := by
  cases e with
  | step j =>
    cases own
    obtain ⟨h, pc, _⟩ := he
    rw [next_step pc]
    exact ⟨_, rfl, (Bool.and_true _).symm, by rw [SpikeModule.ended, pc],
      by simp [SpikeModule.ended]⟩
  | leave j =>
    cases own
    obtain ⟨h, pc, _⟩ := he
    exact ⟨_, rfl, (Bool.and_true _).symm, by rw [SpikeModule.ended, pc],
      by simp [SpikeModule.ended]⟩
  | pause j =>
    cases own
    obtain ⟨h, pc⟩ := he
    rw [next_pause pc]
    exact ⟨_, rfl, (Bool.and_true _).symm, by rw [SpikeModule.ended, pc],
      by simp [SpikeModule.ended]⟩
  | wake j =>
    cases own
    obtain ⟨h, pc⟩ := he
    rw [next_wake pc]
    exact ⟨_, rfl, (Bool.and_true _).symm, by rw [SpikeModule.ended, pc],
      by simp [SpikeModule.ended]⟩
  | inside j a =>
    cases own
    obtain ⟨after, pc, _⟩ := he
    rw [next_inside pc]
    exact ⟨_, rfl, (Bool.and_true _).symm, by rw [SpikeModule.ended, pc],
      by simp [SpikeModule.ended]⟩
  | access j a =>
    cases own
    obtain ⟨after, _, _, _, _, pc, _, served⟩ := he
    rw [next_access pc served]
    exact ⟨_, rfl, (Bool.and_true _).symm, by rw [SpikeModule.ended, pc],
      by simp [SpikeModule.ended, SpikeModule.returned]⟩
  | respond j a r =>
    cases own
    obtain ⟨after, keepSim, pc, response⟩ := he
    rw [next_respond pc response]
    exact ⟨_, rfl, by simp [respond_keepSim response, got], by rw [SpikeModule.ended, pc],
      by simp [SpikeModule.ended]⟩
  | advance t => cases own
  | scStart => cases own
  | tick j x => cases own
  | detach j => cases own
  | fail j r => cases own

theorem next_spike_of_none (nobody : e.hart = none) : (s.next cfg e).spike = s.spike := by
  cases e <;> first | rfl | cases nobody

theorem next_other {j : ι} (he : s.Possible cfg e) (other : e.hart ≠ some j) :
    (s.next cfg e).spike j = s.spike j := by
  cases own : e.hart with
  | none => rw [next_spike_of_none own]
  | some k =>
    obtain ⟨m, spike, _⟩ := next_hart he own
    rw [spike, Function.update_of_ne]
    rintro rfl
    exact other own

/-- How far hart i is. There are no calls that could be under way. -/
noncomputable def hartRank (cfg : ModelConfig ι H B D X) (due : Nat → Bool)
    (s : ModelPlatform ι H B D) (i : ι) : HartRank :=
  (s.spike i).pc.rank (fun h => (⨆ d, (cfg.begins i d h).2.rank) + 1) due 0

theorem hartRank_of_other (he : s.Possible cfg e) (other : e.hart ≠ some i) :
    hartRank cfg due (s.next cfg e) i = hartRank cfg due s i := by
  rw [hartRank, hartRank, next_other he other]

theorem next_rank (he : s.Possible cfg e) (own : e.hart = some i) (begins : due s.now = true)
    (ends : (∃ h, (s.spike i).pc = .step (.done h)) → ∀ wake, s.now < wake → due wake = false) :
    hartRank cfg due (s.next cfg e) i < hartRank cfg due s i := by
  refine (next_moves he own).rank_lt ?_ (fun h => by simp) begins ends
  rintro h _ ⟨d, rfl⟩
  exact (Ordinal.le_iSup (fun d => (cfg.begins i d h).2.rank) d).trans_lt (lt_add_one _)

/-- What `sc_main` and the polls still have to do at this instant. -/
def kernelRank (s : ModelPlatform ι H B D) : Nat × (ι → Nat) :=
  ((s.main == .simulating s.now).toNat, fun i => (s.bitbang i == .waiting s.now).toNat)

/-- All that can still happen before time passes. -/
noncomputable def instantRank (cfg : ModelConfig ι H B D X) (s : ModelPlatform ι H B D) :
    (Nat × (ι → Nat)) × (ι → HartRank) :=
  (s.kernelRank, hartRank cfg (· = s.now) s)

/-- A hart leaves time, the polls and `sc_main` alone. -/
theorem next_of_hart (he : s.Possible cfg e) (own : e.hart = some i) :
    (s.next cfg e).now = s.now ∧ (s.next cfg e).bitbang = s.bitbang ∧
      (s.next cfg e).main = s.main := by
  cases e with
  | leave k => exact ⟨rfl, rfl, rfl⟩
  | advance t => cases own
  | scStart => cases own
  | tick k x => cases own
  | detach k => cases own
  | fail k r => cases own
  | _ =>
    obtain ⟨now, bitbang, _, main⟩ := next_frame he rfl
    exact ⟨now, bitbang, main⟩

/-- A poller that is not due any more is one less. -/
theorem polled_rank {pc : BitbangPc} (due : s.bitbang i = .waiting s.now)
    (later : pc ≠ .waiting s.now) :
    (fun j => (Function.update s.bitbang i pc j == .waiting s.now).toNat) <
      fun j => (s.bitbang j == .waiting s.now).toNat := by
  refine ranks_lt (i := i) (fun j other => ?_) ?_
  · rw [Function.update_of_ne other]
  · have was : (s.bitbang i == .waiting s.now) = true := beq_iff_eq.mpr due
    have is : (pc == .waiting s.now) = false := beq_eq_false_iff_ne.mpr later
    rw [Function.update_self, was, is]
    exact Nat.zero_lt_one

/-- Time passes, or there is less to do before it does. -/
theorem next_instant (polls : 0 < cfg.bitbangDelay) (noReport : ∀ i r, ¬ s.Possible cfg (.fail i r))
    (he : s.Enabled cfg e) : s.now < (s.next cfg e).now ∨ (s.next cfg e).now = s.now ∧
      instantRank cfg (s.next cfg e) < instantRank cfg s := by
  obtain ⟨_, possible⟩ := he
  have kernel (harts : hartRank cfg (· = s.now) (s.next cfg e) = hartRank cfg (· = s.now) s)
      (now : (s.next cfg e).now = s.now) (less : (s.next cfg e).kernelRank < s.kernelRank) :
      s.now < (s.next cfg e).now ∨ (s.next cfg e).now = s.now ∧
        instantRank cfg (s.next cfg e) < instantRank cfg s := by
    refine Or.inr ⟨now, Prod.lt_iff.mpr (Or.inl ⟨less, ?_⟩)⟩
    rw [instantRank, instantRank, now, harts]
  cases own : e.hart with
  | some i =>
    obtain ⟨now, bitbang, main⟩ := next_of_hart possible own
    refine Or.inr ⟨now, Prod.lt_iff.mpr (Or.inr ⟨?_, ?_⟩)⟩
    · simp only [instantRank, kernelRank, now, bitbang, main, le_refl]
    · rw [instantRank, instantRank, now]
      refine ranks_lt (fun j other => hartRank_of_other possible ?_)
        (next_rank possible own (decide_eq_true rfl) fun _ wake later => ?_)
      · rw [own]
        rintro ⟨⟩
        exact other rfl
      · exact decide_eq_false (Nat.ne_of_gt later)
  | none =>
    cases e with
    | advance t => exact Or.inl possible.1
    | scStart =>
      have due : (s.main == .simulating s.now) = true := beq_iff_eq.mpr possible
      have later : ((s.next cfg .scStart).main == .simulating s.now) = false := by
        refine beq_eq_false_iff_ne.mpr ?_
        simp only [next]
        split
        · intro same
          have far : s.now + scNs 50 = s.now := ScMain.simulating.inj same
          simp [scNs] at far
        · rintro ⟨⟩
      refine kernel rfl rfl (Prod.lt_iff.mpr (Or.inl ⟨?_, le_refl _⟩))
      change ((s.next cfg .scStart).main == .simulating s.now).toNat <
        (s.main == .simulating s.now).toNat
      rw [later, due]
      exact Nat.zero_lt_one
    | tick i x =>
      refine kernel rfl rfl (Prod.lt_iff.mpr (Or.inr ⟨le_refl _, polled_rank possible.1 ?_⟩))
      intro same
      have far : s.now + cfg.bitbangDelay = s.now := BitbangPc.waiting.inj same
      omega
    | detach i =>
      refine kernel rfl rfl (Prod.lt_iff.mpr (Or.inr ⟨le_refl _, polled_rank possible.1 ?_⟩))
      rintro ⟨⟩
    | fail i r => exact absurd possible (noReport i r)
    | step i => cases own
    | leave i => cases own
    | pause i => cases own
    | wake i => cases own
    | inside i a => cases own
    | access i a => cases own
    | respond i a r => cases own

end Steps

/-- From any state that a run reaches, time passes whatever happens. -/
theorem endless_clock [Fintype ι] {cfg : ModelConfig ι H B D X} {bus : B} {proc : ι → H}
    {debug : ι → D} {tr : List (Event ι X)} {s : ModelPlatform ι H B D} (maps : cfg.Maps)
    (polls : 0 < cfg.bitbangDelay) (run : (machine cfg).Run (powerOn cfg bus proc debug) tr s)
    (r : EndlessRun (machine cfg) s) (t first : Nat) : ∃ m, first ≤ m ∧ t ≤ (r.state m).now := by
  refine r.clock_passes (fun s => s.now) (instantRank cfg) (fun m => ?_) t first
  obtain ⟨_, _, _, fol⟩ := run_follows maps (run.trans (r.run m))
  rw [r.next]
  exact next_instant polls (fun i _ => fol.no_report maps i) (r.enabled m)

end ModelPlatform
