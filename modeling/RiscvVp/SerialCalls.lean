import RiscvVp.Initiators

/-!
# Concurrent calls against calls one after another

A call alone under the simulation kernel is also a run of the initiators in
which only its thread moves. Chaining such runs gives, for any order of taking
the mutex, a run that makes the calls in that order, each after the return of
the one before. It hands back the same payloads and leaves the same memory.
-/

namespace Initiators

open StreamServer (replies settle)

variable {ι : Type} [DecidableEq ι] {period : Nat}

/-- Each call is made after the call before it has returned. -/
inductive Serial : List (Event ι) → Prop
  | nil : Serial []
  | call {before : List (Event ι)} (i : ι) (t : Payload) (delay : Nat) (rest : List (Event ι))
      (first : Serial before) (alone : called rest = []) (ended : (returned rest).length = 1) :
      Serial (before ++ .call i t delay :: rest)

/-- Clock, mutex, pipeline and time are those of the platform; an edge comes
before the end of reset. -/
structure Shares (k : Platform ι) (s : Initiators ι) : Prop where
  now : s.now = k.now
  mem : s.mem = k.mem
  edges : ∀ r, k.release = some r → 0 < s.edges ∨ k.nextEdge < r

/-- No thread is inside `b_transport`. -/
structure Resting (period : Nat) (k : Platform ι) (s : Initiators ι) : Prop
    extends Shares k s where
  idle : k.Idle period
  outside : ∀ i, s.act i = none

/-- Thread i makes the call of the kernel. The others stay where they are, and
none of them is in a timed wait. -/
structure Alone (away : ι → Option Activation) (taken : List (ι × Payload)) (i : ι) (t : Payload)
    (ur : List (Event ι)) (k : Kernel ι) (s : Initiators ι) : Prop
    extends Shares k.toPlatform s where
  others : ∀ j, j ≠ i → s.act j = away j
  untimed : ∀ j a, j ≠ i → away j = some a → a.pc.wake = none
  silent : called ur = []
  waiting : k.act.pc = .lock → acquired ur = [] ∧ taken = [(i, t)]
  entered : k.act.pc ≠ .lock → acquired ur = taken
  inside : k.act.pc ≠ .returned → s.act i = some k.act ∧ returned ur = []
  ended : k.act.pc = .returned → s.act i = none ∧ (returned ur).length = 1

variable {i : ι} {t : Payload} {m : Ram} {ur : List (Event ι)} {k : Kernel ι} {s : Initiators ι}
  {away : ι → Option Activation} {taken : List (ι × Payload)}

theorem Alone.others_update (alone : Alone away taken i t ur k s) (o : Option Activation) :
    ∀ j, j ≠ i → Function.update s.act i o j = away j := by
  intro j other
  rw [Function.update_of_ne other]
  exact alone.others j other

omit [DecidableEq ι] in
/-- Events of the clock and of time do not touch the call. -/
theorem Alone.pass {k' : Kernel ι} {s' : Initiators ι} {e : Event ι}
    (alone : Alone away taken i t ur k s) (shares : Shares k'.toPlatform s')
    (called : called [e] = []) (acquired : acquired [e] = []) (returned : returned [e] = [])
    (act : s'.act = s.act) (kept : k'.act = k.act) :
    Alone away taken i t (ur ++ [e]) k' s' := by
  refine ⟨shares, ?_, alone.untimed, ?_, ?_, ?_, ?_, ?_⟩
  · rw [act]
    exact alone.others
  · rw [called_append, called, alone.silent]
    rfl
  · rw [kept, acquired_append, acquired, List.append_nil]
    exact alone.waiting
  · rw [kept, acquired_append, acquired, List.append_nil]
    exact alone.entered
  · rw [kept, act, returned_append, returned, List.append_nil]
    exact alone.inside
  · rw [kept, act, returned_append, returned, List.append_nil]
    exact alone.ended

/-- A step of the thread after which it owns the pipeline. -/
theorem Alone.stays {act : Activation} {mem : Memrtl ι} {e : Event ι}
    (alone : Alone away taken i t ur k s) (unfinished : k.act.pc ≠ .returned)
    (moved : s.next e = { s with mem := mem, act := Function.update s.act i (some act) })
    (called : called [e] = []) (acquired : acquired (ur ++ [e]) = taken)
    (returned : returned [e] = []) (holding : act.Holding t m mem.pipe) :
    Alone away taken i t (ur ++ [e]) { k with act := act, mem := mem } (s.next e) := by
  rw [moved]
  refine ⟨⟨alone.now, rfl, alone.edges⟩, alone.others_update _, alone.untimed, ?_, ?_,
    fun _ => acquired, ?_, ?_⟩
  · rw [called_append, called, alone.silent]
    rfl
  · exact fun lock => absurd lock holding.pc_ne.1
  · intro _
    rw [returned_append, returned, (alone.inside unfinished).2]
    exact ⟨Function.update_self .., rfl⟩
  · exact fun ret => absurd ret holding.pc_ne.2

theorem Alone.resume (alone : Alone away taken i t ur k s) (phase : Kernel.Phase t m i k)
    (he : k.Enabled i .resume) : ∃ e, s.Enabled e ∧
      Alone away taken i t (ur ++ [e]) (k.next period i .resume) (s.next e) := by
  obtain ⟨⟨act, mem⟩, hstep⟩ := Option.isSome_iff_exists.mp he
  have unfinished : k.act.pc ≠ .returned := by
    intro returned
    change k.act.resume i k.now k.mem = _ at hstep
    simp [Activation.resume, returned] at hstep
  obtain ⟨hact, hret⟩ := alone.inside unfinished
  have hresumed : s.resumed i = some (act, mem) := by
    rw [resumed_of_act hact, alone.now, alone.mem]
    exact hstep
  have moved := step_of_resumed hresumed
  rw [Kernel.next_resume hstep]
  cases phase with
  | locking pc trans free idle settled =>
    have holding : act.Holding t m mem.pipe := by
      simp only [Kernel.resumed, Activation.resume, pc, free, if_true, Option.some.injEq,
        Prod.mk.injEq] at hstep
      obtain ⟨rfl, rfl⟩ := hstep
      exact trans ▸ Activation.burst_holding idle settled
    refine ⟨.acquire i t, ⟨k.act, hact, pc, trans, by rw [hresumed]; rfl⟩, ?_⟩
    refine alone.stays unfinished moved rfl ?_ rfl holding
    obtain ⟨none, all⟩ := alone.waiting pc
    rw [acquired_append, none, all]
    rfl
  | holding owner holding =>
    have entered := alone.entered holding.pc_ne.1
    by_cases pc : k.act.pc = .unlock
    · simp only [Kernel.resumed, Activation.resume, pc, Option.some.injEq, Prod.mk.injEq] at hstep
      obtain ⟨rfl, rfl⟩ := hstep
      refine ⟨.ret i k.act.trans, ⟨k.act, hact, pc, rfl⟩, ?_⟩
      rw [Initiators.next, moved]
      refine ⟨⟨alone.now, rfl, alone.edges⟩, alone.others_update _, alone.untimed, ?_, ?_, ?_, ?_,
        ?_⟩
      · rw [called_append, alone.silent]
        rfl
      · rintro ⟨⟩
      · intro _
        rw [acquired_append, entered]
        exact List.append_nil _
      · exact fun busy => absurd rfl busy
      · intro _
        rw [returned_append, hret]
        exact ⟨Function.update_self .., rfl⟩
    · obtain ⟨holding', _⟩ := Activation.resume_holding holding hstep pc
      refine ⟨.go i, ⟨k.act, hact, holding.pc_ne.1, pc, by rw [hresumed]; rfl⟩, ?_⟩
      refine alone.stays unfinished moved rfl ?_ rfl holding'
      rw [acquired_append, entered]
      exact List.append_nil _
  | returned pc => exact absurd pc unfinished

/-- Every event of the kernel is answered by one of the initiators. -/
theorem Alone.next {e : Kernel.Event} (alone : Alone away taken i t ur k s)
    (phase : Kernel.Phase t m i k) (timed : k.Timed period) (he : k.Enabled i e) :
    ∃ e', s.Enabled e' ∧ Alone away taken i t (ur ++ [e']) (k.next period i e) (s.next e') := by
  have soon := timed.edge_due
  cases e with
  | edge =>
    refine ⟨.edge, trivial, alone.pass ⟨alone.now, ?_, ?_⟩ rfl rfl rfl rfl rfl⟩
    · rw [Initiators.next, alone.mem]
      rfl
    · exact fun _ _ => Or.inl (Nat.succ_pos _)
  | release =>
    have due : k.release = some k.now := he
    have reset := timed.reset
    simp only [Platform.ResetPending, due] at reset
    have edges : 0 < s.edges := by
      rcases alone.edges _ due with seen | later
      · exact seen
      · omega
    refine ⟨.release, ⟨by rw [alone.mem]; exact reset.1, edges⟩,
      alone.pass ⟨alone.now, ?_, by rintro _ ⟨⟩⟩ rfl rfl rfl rfl rfl⟩
    rw [Initiators.next, alone.mem]
    rfl
  | resume => exact alone.resume phase he
  | advance d =>
    obtain ⟨_, later, _, _, wake⟩ := he
    refine ⟨.advance d, ⟨alone.now ▸ later, ?_⟩,
      alone.pass ⟨rfl, alone.mem, alone.edges⟩ rfl rfl rfl rfl rfl⟩
    intro j a act
    by_cases same : j = i
    · subst same
      by_cases unfinished : k.act.pc = .returned
      · rw [(alone.ended unfinished).1] at act
        cases act
      · rw [(alone.inside unfinished).1] at act
        cases act
        exact wake
    · rw [alone.others j same] at act
      intro w hw
      rw [alone.untimed j a same act] at hw
      cases hw

variable {k₀ : Platform ι}

/-- With nobody inside, a call can be made, served and returned by its thread alone. -/
theorem Resting.serve (resting : Resting period k₀ s) (rising : 0 < period) (proper : Proper t) :
    ∃ rest s' k', machine.Run s (.call i t 0 :: rest) s' ∧ Resting period k' s' ∧
      called rest = [] ∧ acquired rest = [(i, t.setResponseStatus .ok)] ∧
      (returned rest).length = 1 := by
  have accepted : t.beyond Payload.rtlMaxRamAddress = false :=
    proper.range.beyond_eq_false proper.nonempty
  have entry := Kernel.bTransport_accepted 0 proper.serviceable accepted
  have start := Kernel.call_running 0 i resting.idle proper.serviceable accepted
  have positive : (t.setResponseStatus .ok).PositiveDelays := proper.positive
  obtain ⟨tr, k', run, ret⟩ := (start.returns rising positive).2
  have alone : Alone (fun _ => none) [(i, t.setResponseStatus .ok)] i (t.setResponseStatus .ok) []
      (k₀.call t 0) (s.next (.call i t 0)) := by
    have pc : (k₀.call t 0).act.pc = .lock := congrArg Activation.pc entry
    refine ⟨⟨resting.now, resting.mem, resting.edges⟩, ?_, ?_, rfl, fun _ => ⟨rfl, rfl⟩, ?_, ?_, ?_⟩
    · intro j other
      exact (Function.update_of_ne other ..).trans (resting.outside j)
    · rintro _ _ _ ⟨⟩
    · exact fun entered => absurd pc entered
    · exact fun _ => ⟨Function.update_self .., rfl⟩
    · intro ended
      rw [pc] at ended
      cases ended
  obtain ⟨rest, s', run', _, alone'⟩ := run.simulate (N := machine)
    (fun _ ur k s => Kernel.Running period (t.setResponseStatus .ok) k₀.pipe.ram i k ∧
      Alone (fun _ => none) [(i, t.setResponseStatus .ok)] i (t.setResponseStatus .ok) ur k s)
    (by
      rintro _ ur k s e ⟨running, alone⟩ he
      obtain ⟨e', he', alone'⟩ := alone.next running.phase running.timed he
      exact ⟨[e'], _, .single he', running.next positive he, alone'⟩)
    ⟨start, alone⟩
  have enabled : s.Enabled (.call i t 0) := ⟨resting.outside i, proper⟩
  have idle := (Kernel.returned_serve resting.idle proper.serviceable accepted run ret).2
  obtain ⟨outside, back⟩ := alone'.ended ret
  refine ⟨rest, s', k'.toPlatform, .cons enabled run', ⟨alone'.toShares, idle, ?_⟩,
    alone'.silent, alone'.entered (by rw [ret]; rintro ⟨⟩), back⟩
  intro j
  by_cases same : j = i
  · rw [same]
    exact outside
  · exact alone'.others j same

/-- Any list of calls can be made one after another. -/
theorem exists_serial {s₀ : Initiators ι} {before : List (Event ι)} (rising : 0 < period)
    (calls : List (ι × Payload)) (proper : ∀ c ∈ calls, Proper c.2)
    (run : machine.Run s₀ before s) (serial : Serial before) (resting : Resting period k₀ s) :
    ∃ ur u k, machine.Run s₀ ur u ∧ Serial ur ∧ Resting period k u ∧
      acquired ur = acquired before ++ calls.map fun c => (c.1, c.2.setResponseStatus .ok) := by
  induction calls generalizing before s k₀ with
  | nil => exact ⟨before, s, k₀, run, serial, resting, by simp⟩
  | cons c calls ih =>
    obtain ⟨rest, s', k', served, resting', silent, taken, back⟩ :=
      resting.serve (i := c.1) rising (proper c (List.mem_cons_self ..))
    have taken' : acquired (before ++ .call c.1 c.2 0 :: rest) =
        acquired before ++ [(c.1, c.2.setResponseStatus .ok)] := by
      rw [acquired_append, ← taken]
      rfl
    obtain ⟨ur, u, k, run', serial', resting'', all⟩ := ih
      (fun d hd => proper d (List.mem_cons_of_mem _ hd)) (run.trans served)
      (.call c.1 c.2 0 rest serial silent back) resting'
    refine ⟨ur, u, k, run', serial', resting'', ?_⟩
    rw [all, taken', List.append_assoc]
    rfl

/-- A call that took the mutex is one that was made. -/
theorem acquired_proper {io : IoBlock top0} {tr : List (Event ι)}
    (run : machine.Run (powerOn io) tr s) (c : ι × Payload) (hc : c ∈ acquired tr) :
    Proper c.2 ∧ c.2.setResponseStatus .ok = c.2 := by
  have made : ∀ c ∈ called tr, Proper c.2 ∧ c.2.setResponseStatus .ok = c.2 := by
    refine run.invariant (fun tr _ => ∀ c ∈ called tr, Proper c.2 ∧
      c.2.setResponseStatus .ok = c.2) (by rintro _ ⟨⟩) ?_
    intro tr s e ih he c hc
    rw [called_append, List.mem_append] at hc
    rcases hc with hc | hc
    · exact ih c hc
    · cases e with
      | call i t delay =>
        obtain ⟨_, proper⟩ := he
        cases List.mem_singleton.mp hc
        exact ⟨⟨proper.serviceable, proper.nonempty, proper.range, proper.positive⟩, rfl⟩
      | _ => cases hc
  have mine : c ∈ (acquired tr).filter (·.1 = c.1) := by simp [hc]
  have queue := (run_inv run).queue c.1
  have both : c ∈ (called tr).filter (·.1 = c.1) := by
    rw [queue]
    exact List.mem_append_left _ mine
  exact made c (List.mem_of_mem_filter both)

end Initiators
