import RiscvVp.HartProgress
import RiscvVp.SequentialConsistency

/-!
# What can happen at one instant

Every event of the RTL platform moves the clock or uses up some of what can
still happen at this time: a turn of the kernel, a step of a call, a part of an
instruction. So no schedule keeps time from passing.
-/

namespace Activation

variable {ι : Type} [DecidableEq ι] {a b : Activation} {me : ι} {now : Nat} {m n : Memrtl ι}

/-- How often a call without the extension may still go on. -/
def hops (a : Activation) : Nat :=
  match a.pc with
  | .lock => 2 * a.trans.dataLength + 4
  | .write i _ => 2 * (a.trans.dataLength - i) + 3
  | .read i => 2 * (a.trans.dataLength - i) + 2
  | .unlock => 1
  | _ => 0

omit [DecidableEq ι] in
theorem hops_blockingHead (a : Activation) (i : Nat) :
    (a.blockingHead i).hops ≤ 2 * (a.trans.dataLength - i) + 3 := by
  rw [blockingHead]
  split
  · exact Nat.le_refl _
  · change 1 ≤ _
    omega

theorem resume_hops (step : a.resume me now m = some (b, n))
    (untimed : a.trans.extension = none) (waits : a.pc.wake = none) : b.hops < a.hops := by
  cases pc : a.pc with
  | lock =>
    simp only [resume, pc, Option.ite_none_right_eq_some, Option.some.injEq, Prod.mk.injEq] at step
    obtain ⟨_, rfl, _⟩ := step
    have head := a.hops_blockingHead 0
    have whole : a.hops = 2 * a.trans.dataLength + 4 := by rw [hops, pc]
    simp only [burst, untimed]
    omega
  | write i reqVec =>
    simp only [resume, pc, Option.map_eq_some_iff, Prod.mk.injEq] at step
    obtain ⟨_, _, rfl, _⟩ := step
    simp only [hops, pc]
    omega
  | read i =>
    simp only [resume, pc, Option.map_eq_some_iff, Prod.mk.injEq] at step
    obtain ⟨r, _, rfl, _⟩ := step
    have same : a.hops = 2 * (a.trans.dataLength - i) + 2 := by rw [hops, pc]
    simp only [blockingHead, Payload.acceptResp_dataLength]
    split
    · simp only [hops, Payload.acceptResp_dataLength] at same ⊢
      omega
    · change 1 < _
      omega
  | wait ext l wake => rw [pc] at waits; cases waits
  | unlock =>
    simp only [resume, pc, Option.some.injEq, Prod.mk.injEq] at step
    obtain ⟨rfl, _⟩ := step
    simp only [hops, pc]
    omega
  | returned => simp [resume, pc] at step
  | raised r => simp [resume, pc] at step

end Activation

namespace IssPlatform

variable {ι H B : Type}

/-- The hart whose thread makes the event. -/
def Event.hart : Event ι → Option ι
  | .work i => some i
  | .answer i _ => some i
  | .enter i _ => some i
  | .acquire i _ => some i
  | .go i => some i
  | .ret i => some i
  | .respond i _ _ => some i
  | _ => none

variable [DecidableEq ι]

section Steps
variable {cfg : IssConfig H B} {m₀ : Ram} {flat₀ : Nat → Byte} {tr : List (Event ι)}
  {s s' : IssPlatform ι H B} {vr : List (Initiators.Event ι)} {c : Initiators ι}
  {ur : List (SharedObject.Event ι (Hart H) Mmio)} {u : SharedObject ι (Nat → Byte) (Hart H)}
  {e : Event ι} {i j : ι} {due : Nat → Bool}

/-- An event of one hart leaves the others where they are. -/
theorem next_other (he : s.Possible cfg e) (other : e.hart ≠ some j) :
    (s.next cfg e).spike j = s.spike j ∧ (s.next cfg e).act j = s.act j := by
  have moved (k : ι) (ne : j ≠ k) :
      (s.step k).spike j = s.spike j ∧ (s.step k).act j = s.act j := by
    rw [step]
    split
    · exact ⟨rfl, Function.update_of_ne ne ..⟩
    · exact ⟨rfl, rfl⟩
  have apart {k : ι} (own : e.hart = some k) : j ≠ k := by
    rintro rfl
    exact other own
  cases e with
  | work k =>
    obtain ⟨m, work⟩ := Option.isSome_iff_exists.mp he
    rw [next_work work]
    exact ⟨Function.update_of_ne (apart rfl) .., rfl⟩
  | answer k a =>
    obtain ⟨_, _, _, _, pc, out⟩ := he
    rw [next_answer pc out]
    exact ⟨Function.update_of_ne (apart rfl) .., rfl⟩
  | enter k a =>
    obtain ⟨_, _, pc, out⟩ := he
    rw [next_enter pc out]
    exact ⟨Function.update_of_ne (apart rfl) .., Function.update_of_ne (apart rfl) ..⟩
  | acquire k a => exact moved k (apart rfl)
  | go k => exact moved k (apart rfl)
  | ret k =>
    obtain ⟨_, _, _, pc, here, unlock⟩ := he
    rw [next_ret pc (resumed_of_unlock here unlock)]
    exact ⟨Function.update_of_ne (apart rfl) .., Function.update_of_ne (apart rfl) ..⟩
  | respond k a r => exact ⟨Function.update_of_ne (apart rfl) .., rfl⟩
  | _ => exact ⟨rfl, rfl⟩

/-- A hart leaves the clock, the end of reset, time and `sc_main` alone. -/
theorem next_of_hart (he : s.Possible cfg e) (own : e.hart = some i) :
    (s.next cfg e).now = s.now ∧ (s.next cfg e).nextEdge = s.nextEdge ∧
      (s.next cfg e).release = s.release ∧ (s.next cfg e).main = s.main := by
  have moved (k : ι) : (s.step k).now = s.now ∧ (s.step k).nextEdge = s.nextEdge ∧
      (s.step k).release = s.release ∧ (s.step k).main = s.main := by
    rw [step]
    split <;> exact ⟨rfl, rfl, rfl, rfl⟩
  cases e with
  | work k =>
    obtain ⟨m, work⟩ := Option.isSome_iff_exists.mp he
    rw [next_work work]
    exact ⟨rfl, rfl, rfl, rfl⟩
  | answer k a =>
    obtain ⟨_, _, _, _, pc, out⟩ := he
    rw [next_answer pc out]
    exact ⟨rfl, rfl, rfl, rfl⟩
  | enter k a =>
    obtain ⟨_, _, pc, out⟩ := he
    rw [next_enter pc out]
    exact ⟨rfl, rfl, rfl, rfl⟩
  | acquire k a => exact moved k
  | go k => exact moved k
  | ret k =>
    obtain ⟨_, _, _, pc, here, unlock⟩ := he
    rw [next_ret pc (resumed_of_unlock here unlock)]
    exact ⟨rfl, rfl, rfl, rfl⟩
  | respond k a r => exact ⟨rfl, rfl, rfl, rfl⟩
  | edge => cases own
  | release => cases own
  | advance t => cases own
  | scStart => cases own
  | fail k r => cases own

theorem Follows.issued_of_taken (fol : Follows cfg m₀ flat₀ tr s vr c ur u) {a : Mmio}
    (took : (i, a) ∈ taken tr) : (i, a) ∈ issued tr := by
  obtain ⟨waiting, _, _, issues, _⟩ := fol.attends i
  have mine : (i, a) ∈ (taken tr).filter (·.1 = i) := List.mem_filter.mpr ⟨took, by simp⟩
  have both := List.mem_append_left (waiting.map (i, ·)) mine
  rw [← issues] at both
  exact List.mem_of_mem_filter both

/-- The calls of the harts carry no extension and wait for no time. -/
theorem Follows.untimed (fol : Follows cfg m₀ flat₀ tr s vr c ur u) {act : Activation}
    (here : s.act i = some act) : act.trans.extension = none ∧ act.pc.wake = none := by
  obtain ⟨_, _, stands, _⟩ := fol.attends i
  by_cases lock : act.pc = .lock
  · obtain ⟨_, _, pc⟩ := stands.transport_of_act here
    obtain ⟨_, _, _, rfl, _⟩ := stands.of_lock pc here lock
    exact ⟨rfl, rfl⟩
  · obtain ⟨a, next, before, _, _, _, last, _⟩ := stands.of_entered here lock
    obtain ⟨t, before', last', _, holding⟩ := fol.inv.session_of (by rw [fol.act]; exact here) lock
    rw [last] at last'
    obtain ⟨_, same⟩ := List.append_inj' last' rfl
    cases same
    obtain ⟨_, _, beats, _⟩ := id holding
    exact ⟨beats.extension, holding.wake_eq_none rfl⟩

/-- What is left of the call of hart i. -/
def callHops (s : IssPlatform ι H B) (i : ι) : Nat := (s.act i).elim 0 Activation.hops

theorem step_moves {may : H → Ask Mmio Reply H → Prop} (fol : Follows cfg m₀ flat₀ tr s vr c ur u)
    {act : Activation} (here : s.act i = some act) (moves : (s.resumed i).isSome) :
    (s.spike i).pc.Moves may s.now (s.callHops i) ((s.step i).callHops i)
      ((s.step i).spike i).pc := by
  obtain ⟨⟨act', mem⟩, resumed⟩ := Option.isSome_iff_exists.mp moves
  obtain ⟨_, _, stands, _⟩ := fol.attends i
  obtain ⟨a, next, pc⟩ := stands.transport_of_act here
  obtain ⟨untimed, waits⟩ := fol.untimed here
  have less : act'.hops < act.hops := by
    rw [resumed_of_act here] at resumed
    exact Activation.resume_hops resumed untimed waits
  rw [step_of_resumed resumed, callHops, callHops, here, pc]
  simp only [Function.update_self, Option.elim_some]
  exact .resumed less

/-- What an event of hart i does with its place. -/
theorem next_moves (maps : cfg.Maps) (fol : Follows cfg m₀ flat₀ tr s vr c ur u)
    (he : s.Possible cfg e) (own : e.hart = some i) :
    (s.spike i).pc.Moves (fun h rest => rest = cfg.proc h) s.now (s.callHops i)
      ((s.next cfg e).callHops i) ((s.next cfg e).spike i).pc := by
  cases e with
  | work k =>
    cases own
    obtain ⟨m, work⟩ := Option.isSome_iff_exists.mp he
    rw [next_work work]
    simp only [withSpike, Function.update_self]
    simp only [SpikeModule.work] at work
    split at work
    · rename_i h pc
      cases work
      rw [pc]
      cases (s.spike i).keepSim with
      | true => exact .begins rfl
      | false => exact .leaves
    · rename_i h pc
      cases work
      rw [pc]
      exact .pauses (Nat.lt_add_of_pos_right (by decide))
    · rename_i h wake pc
      split at work
      · rename_i now
        cases work
        rw [pc, ← now]
        exact .wakes
      · cases work
    · cases work
  | answer k a =>
    cases own
    obtain ⟨_, _, _, _, pc, out⟩ := he
    rw [next_answer pc out, pc]
    simp only [withSpike, Function.update_self]
    exact .answered
  | enter k a =>
    cases own
    obtain ⟨next, act, pc, out⟩ := he
    rcases fol.transport_cases maps i a with ⟨queues, _⟩ | ⟨_, _, _, answered, _⟩
    · rw [out] at queues
      cases queues
      rw [next_enter pc out, pc, callHops, callHops]
      simp only [withSpike, Function.update_self, Option.elim_some]
      exact .called (Nat.lt_succ_self _)
    · rw [out] at answered
      cases answered
  | acquire k a =>
    cases own
    obtain ⟨_, act, _, here, _, moves⟩ := he
    exact step_moves fol here moves
  | go k =>
    cases own
    obtain ⟨act, here, _, _, moves⟩ := he
    exact step_moves fol here moves
  | ret k =>
    cases own
    obtain ⟨_, _, _, pc, here, unlock⟩ := he
    rw [next_ret pc (resumed_of_unlock here unlock), pc]
    simp only [withSpike, Function.update_self]
    exact .returned
  | respond k a r =>
    cases own
    obtain ⟨next, keepSim, pc, response⟩ := he
    rw [next_respond pc response, pc]
    simp only [withSpike, Function.update_self]
    exact .replied
  | edge => cases own
  | release => cases own
  | advance t => cases own
  | scStart => cases own
  | fail k r => cases own

/-- How far hart i is, with the waits of the loop that are due at once. -/
noncomputable def hartRank (cfg : IssConfig H B) (due : Nat → Bool) (s : IssPlatform ι H B)
    (i : ι) : HartRank :=
  (s.spike i).pc.rank (fun h => (cfg.proc h).rank + 1) due (s.callHops i)

theorem hartRank_of_other (he : s.Possible cfg e) (other : e.hart ≠ some i) :
    hartRank cfg due (s.next cfg e) i = hartRank cfg due s i := by
  obtain ⟨spike, act⟩ := next_other he other
  rw [hartRank, hartRank, callHops, callHops, spike, act]

theorem next_rank (maps : cfg.Maps) (fol : Follows cfg m₀ flat₀ tr s vr c ur u)
    (he : s.Possible cfg e) (own : e.hart = some i) (begins : due s.now = true)
    (ends : (∃ h, (s.spike i).pc = .step (.done h)) → ∀ wake, s.now < wake → due wake = false) :
    hartRank cfg due (s.next cfg e) i < hartRank cfg due s i := by
  refine (next_moves maps fol he own).rank_lt ?_ (fun h => by simp) begins ends
  rintro h rest rfl
  exact lt_add_one _

/-- What the kernel and `sc_main` still have to do at this instant. -/
def kernelRank (s : IssPlatform ι H B) : Nat :=
  (s.nextEdge == s.now).toNat + (s.release == some s.now).toNat +
    (s.main == .simulating s.now).toNat

/-- All that can still happen before time passes. -/
noncomputable def instantRank (cfg : IssConfig H B) (s : IssPlatform ι H B) :
    Nat × (ι → HartRank) :=
  (s.kernelRank, hartRank cfg (· = s.now) s)

/-- Time passes, or there is less to do before it does. -/
theorem next_instant (maps : cfg.Maps) (rising : 0 < cfg.clkPeriod)
    (fol : Follows cfg m₀ flat₀ tr s vr c ur u) (he : s.Enabled cfg e) :
    s.now < (s.next cfg e).now ∨ (s.next cfg e).now = s.now ∧
      instantRank cfg (s.next cfg e) < instantRank cfg s := by
  obtain ⟨_, possible⟩ := he
  -- The kernel takes one of its turns, and no hart moves.
  have kernel (harts : hartRank cfg (· = s.now) (s.next cfg e) = hartRank cfg (· = s.now) s)
      (now : (s.next cfg e).now = s.now) (less : (s.next cfg e).kernelRank < s.kernelRank) :
      s.now < (s.next cfg e).now ∨ (s.next cfg e).now = s.now ∧
        instantRank cfg (s.next cfg e) < instantRank cfg s := by
    refine Or.inr ⟨now, Prod.lt_iff.mpr (Or.inl ⟨less, ?_⟩)⟩
    rw [instantRank, instantRank, now, harts]
  cases own : e.hart with
  | some i =>
    obtain ⟨now, edge, release, main⟩ := next_of_hart possible own
    refine Or.inr ⟨now, Prod.lt_iff.mpr (Or.inr ⟨?_, ?_⟩)⟩
    · simp only [instantRank, kernelRank, now, edge, release, main, le_refl]
    · rw [instantRank, instantRank, now]
      refine ranks_lt (fun j other => hartRank_of_other possible ?_)
        (next_rank maps fol possible own (decide_eq_true rfl) fun _ wake later => ?_)
      · rw [own]
        rintro ⟨⟩
        exact other rfl
      · exact decide_eq_false (Nat.ne_of_gt later)
  | none =>
    cases e with
    | advance t => exact Or.inl possible.1
    | edge =>
      have due : (s.nextEdge == s.now) = true := beq_iff_eq.mpr (Eq.symm possible)
      have later : (s.nextEdge + cfg.clkPeriod == s.now) = false := by
        have now : s.now = s.nextEdge := possible
        exact beq_eq_false_iff_ne.mpr (by omega)
      refine kernel rfl rfl ?_
      simp only [kernelRank, IssPlatform.next, later, due]
      exact Nat.add_lt_add_right (Nat.add_lt_add_right Nat.zero_lt_one _) _
    | release =>
      have due : (s.release == some s.now) = true := beq_iff_eq.mpr possible
      have gone : ((none : Option Nat) == some s.now) = false := rfl
      refine kernel rfl rfl ?_
      simp only [kernelRank, IssPlatform.next, gone, due]
      exact Nat.add_lt_add_right (Nat.add_lt_add_left Nat.zero_lt_one _) _
    | scStart =>
      have due : (s.main == .simulating s.now) = true := beq_iff_eq.mpr possible
      have later : ((s.next cfg .scStart).main == .simulating s.now) = false := by
        refine beq_eq_false_iff_ne.mpr ?_
        simp only [IssPlatform.next]
        split
        · intro same
          have far : s.now + scNs 50 = s.now := ScMain.simulating.inj same
          simp [scNs] at far
        · rintro ⟨⟩
      refine kernel rfl rfl ?_
      change (s.nextEdge == s.now).toNat + (s.release == some s.now).toNat +
        ((s.next cfg .scStart).main == .simulating s.now).toNat < s.kernelRank
      rw [kernelRank, later, due]
      exact Nat.add_lt_add_left Nat.zero_lt_one _
    | fail i r => exact absurd possible (fol.no_report maps i)
    | work i => cases own
    | answer i a => cases own
    | enter i a => cases own
    | acquire i a => cases own
    | go i => cases own
    | ret i => cases own
    | respond i a r => cases own

end Steps

/-- From any state that a run reaches, time passes whatever happens. -/
theorem endless_clock [Fintype ι] {cfg : IssConfig H B} {io : IoBlock top0} {bus : B}
    {proc : ι → H} {tr : List (Event ι)} {s : IssPlatform ι H B} (maps : cfg.Maps)
    (later : 0 < cfg.rstTimeout) (rising : 0 < cfg.clkPeriod)
    (run : (machine cfg).Run (powerOn cfg io bus proc) tr s) (r : EndlessRun (machine cfg) s)
    (t first : Nat) : ∃ m, first ≤ m ∧ t ≤ (r.state m).now := by
  refine r.clock_passes (fun s => s.now) (instantRank cfg) (fun m => ?_) t first
  obtain ⟨_, _, _, _, _, fol⟩ := run_follows maps later (run.trans (r.run m))
  rw [r.next]
  exact next_instant maps rising fol (r.enabled m)

end IssPlatform
