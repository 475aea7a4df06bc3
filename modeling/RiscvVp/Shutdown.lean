import RiscvVp.Instants

/-!
# How the platform ends

A hart leaves its loop after an access outside the memory map, and `sc_main`
leaves its own when every hart has left. Until then something can always
happen: no hart, clock or wait holds up the simulation.
-/

namespace SpikeModule

variable {H : Type}

/-- The thread has left its loop. -/
def ended (m : SpikeModule H) : Bool :=
  match m.pc with
  | .finished => true
  | _ => false

theorem ended_eq_true {m : SpikeModule H} : m.ended = true ↔ m.pc = .finished := by
  cases pc : m.pc <;> simp [ended, pc]

/-- The switch clears `keep_sim` exactly with the reply it refuses. -/
theorem respond_keepSim {m : SpikeModule H} {r : Reply} {keepSim : Bool}
    (response : m.respond = .ok (r, keepSim)) : keepSim = (m.keepSim && r.done) := by
  simp only [respond] at response
  split at response <;> cases response <;> simp

/-- A step of the loop keeps `keep_sim` and the threads that have ended, but for
the one that leaves because `keep_sim` is false. -/
theorem work_cases {proc : Processor H} {now : Nat} {m m' : SpikeModule H}
    (work : m.work proc now = some m') : m.ended = false ∧ m'.keepSim = m.keepSim ∧
      (∀ w ∈ m'.wake, now ≤ w) ∧ (m'.ended = true → m.keepSim = false) := by
  simp only [SpikeModule.work] at work
  split at work
  · rename_i h pc
    cases work
    cases m.keepSim <;> simp [ended, pc, SpikeModule.wake]
  · rename_i h pc
    cases work
    simp [ended, pc, SpikeModule.wake]
  · rename_i h wake pc
    split at work
    · cases work
      simp [ended, pc, SpikeModule.wake]
    · cases work
  · cases work

end SpikeModule

namespace IssPlatform

open Initiators (acquired)

variable {ι H B : Type} [DecidableEq ι] [Fintype ι]

/-- The harts whose threads are still in their loops. -/
def unfinished (s : IssPlatform ι H B) : Finset ι := Finset.univ.filter fun i => !(s.spike i).ended

/-- Counter, waits, `keep_sim` and `sc_main` in any state that can be reached. -/
structure Orderly (tr : List (Event ι)) (s : IssPlatform ι H B) : Prop where
  counter : s.runningThreadsCounter = (s.unfinished.card : Int)
  wakes : ∀ i, ∀ w ∈ (s.spike i).wake, s.now ≤ w
  keeps : ∀ i, (s.spike i).keepSim = ((got tr).filter (·.1 = i)).all (·.2.done)
  left : ∀ i, (s.spike i).ended = true → (s.spike i).keepSim = false
  simulating : ∀ stop, s.main = .simulating stop → s.now ≤ stop ∧ stop ≤ s.now + scNs 50
  exited : ∀ code, s.main = .exited code → code = 0 ∧ ∀ i, (s.spike i).ended = true

section Steps
variable {cfg : IssConfig H B} {tr : List (Event ι)} {s s' : IssPlatform ι H B} {e : Event ι}
  {i : ι} {m : SpikeModule H}

omit [DecidableEq ι] in
theorem unfinished_of_same (same : ∀ i, (s'.spike i).ended = (s.spike i).ended) :
    s'.unfinished = s.unfinished := by
  simp only [unfinished, same]

/-- An event that leaves the threads as they are and the time too. -/
theorem Orderly.still (ord : Orderly tr s) (silent : got [e] = []) (spike : s'.spike = s.spike)
    (now : s'.now = s.now) (counter : s'.runningThreadsCounter = s.runningThreadsCounter)
    (main : s'.main = s.main) : Orderly (tr ++ [e]) s' := by
  refine ⟨?_, ?_, ?_, ?_, ?_, ?_⟩
  · rw [counter, ord.counter, unfinished_of_same fun i => by rw [spike]]
  · rw [spike, now]
    exact ord.wakes
  · rw [spike, got_append, silent, List.append_nil]
    exact ord.keeps
  · rw [spike]
    exact ord.left
  · rw [main, now]
    exact ord.simulating
  · rw [main, spike]
    exact ord.exited

/-- A hart that leaves its loop is taken off the count. -/
theorem card_unfinished (spike : s'.spike = Function.update s.spike i m)
    (inside : (s.spike i).ended = false) :
    s'.unfinished.card + m.ended.toNat = s.unfinished.card := by
  have here : i ∈ s.unfinished := by simp [unfinished, inside]
  have others (j : ι) (other : j ≠ i) : j ∈ s'.unfinished ↔ j ∈ s.unfinished := by
    simp [unfinished, spike, Function.update_of_ne other]
  cases ends : m.ended with
  | false =>
    have same : s'.unfinished = s.unfinished := by
      ext j
      by_cases other : j = i
      · subst other
        simp [unfinished, spike, ends, inside]
      · exact others j other
    rw [same, Bool.toNat_false, Nat.add_zero]
  | true =>
    have fewer : s'.unfinished = s.unfinished.erase i := by
      ext j
      by_cases other : j = i
      · subst other
        simp [unfinished, spike, ends]
      · simp [others j other, other]
    have positive : 0 < s.unfinished.card := Finset.card_pos.mpr ⟨i, here⟩
    rw [fewer, Finset.card_erase_of_mem here, Bool.toNat_true]
    omega

/-- What a step of hart i has to keep. -/
theorem Orderly.moved (ord : Orderly tr s) (spike : s'.spike = Function.update s.spike i m)
    (now : s'.now = s.now) (main : s'.main = s.main) (inside : (s.spike i).ended = false)
    (counter : s'.runningThreadsCounter = s.runningThreadsCounter - m.ended.toNat)
    (wakes : ∀ w ∈ m.wake, s.now ≤ w) (mine : ∀ r ∈ got [e], r.1 = i)
    (keeps : m.keepSim = ((s.spike i).keepSim && (got [e]).all (·.2.done)))
    (left : m.ended = true → m.keepSim = false) : Orderly (tr ++ [e]) s' := by
  have others (j : ι) (other : j ≠ i) : s'.spike j = s.spike j := by
    rw [spike, Function.update_of_ne other]
  have here : s'.spike i = m := by rw [spike, Function.update_self]
  refine ⟨?_, fun j => ?_, fun j => ?_, fun j => ?_, ?_, fun code gone => ?_⟩
  · have count := card_unfinished spike inside
    rw [counter, ord.counter]
    omega
  · rw [now]
    by_cases other : j = i
    · subst other
      rw [here]
      exact wakes
    · rw [others j other]
      exact ord.wakes j
  · rw [got_append, List.filter_append, List.all_append, ← ord.keeps]
    by_cases other : j = i
    · subst other
      have all : (got [e]).filter (·.1 = j) = got [e] :=
        List.filter_eq_self.mpr fun r hr => by simpa using mine r hr
      rw [here, keeps, all]
    · have nothing : (got [e]).filter (·.1 = j) = [] :=
        filter_of_ne fun r hr tag => other (tag.symm.trans (mine r hr))
      rw [others j other, nothing, List.all_nil, Bool.and_true]
  · by_cases other : j = i
    · subst other
      rw [here]
      exact left
    · rw [others j other]
      exact ord.left j
  · rw [main, now]
    exact ord.simulating
  · rw [main] at gone
    have all := (ord.exited code gone).2 i
    rw [inside] at all
    cases all

omit [DecidableEq ι] [Fintype ι] in
theorem wake_of_blocked [DecidableEq ι] {t : Nat} (blocked : s.Blocked t i) :
    ∀ w ∈ (s.spike i).wake, t ≤ w := by
  intro w wakes
  simp only [SpikeModule.wake] at wakes
  simp only [Blocked] at blocked
  split at wakes
  · rename_i pc
    cases wakes
    rw [pc] at blocked
    exact blocked
  · rename_i pc
    cases wakes
    rw [pc] at blocked
    exact blocked
  · cases wakes

theorem Orderly.next (ord : Orderly tr s) (silent : ∀ i r, ¬ s.Possible cfg (.fail i r))
    (he : s.Enabled cfg e) : Orderly (tr ++ [e]) (s.next cfg e) := by
  obtain ⟨⟨stop, main⟩, possible⟩ := he
  cases e with
  | edge => exact ord.still rfl rfl rfl rfl rfl
  | release => exact ord.still rfl rfl rfl rfl rfl
  | advance t =>
    obtain ⟨later, _, _, stops, blocked⟩ := possible
    refine ⟨ord.counter, ?_, ?_, ord.left, ?_, ord.exited⟩
    · exact fun i => wake_of_blocked (s := s) (blocked i)
    · rw [got_append]
      exact (List.append_nil (got tr)).symm ▸ ord.keeps
    · intro stop main
      have before := ord.simulating stop main
      have within := stops stop main
      change t ≤ stop ∧ stop ≤ t + scNs 50
      omega
  | scStart =>
    have kept : got (tr ++ [Event.scStart]) = got tr := by
      rw [got_append]
      exact List.append_nil _
    refine ⟨ord.counter, ord.wakes, kept.symm ▸ ord.keeps, ord.left, ?_, ?_⟩
    · intro stop main'
      simp only [IssPlatform.next] at main'
      split at main'
      · cases main'
        exact ⟨Nat.le_add_right _ _, Nat.le_refl _⟩
      · cases main'
    · intro code main'
      simp only [IssPlatform.next] at main'
      split at main'
      · cases main'
      · rename_i drained
        cases main'
        rw [ord.counter] at drained
        have none : s.unfinished = ∅ := Finset.card_eq_zero.mp (by omega)
        refine ⟨rfl, fun i => ?_⟩
        change (s.spike i).ended = true
        by_contra inside
        have here : i ∈ s.unfinished := by simpa [unfinished] using inside
        rw [none] at here
        cases here
  | work i =>
    obtain ⟨m, work⟩ := Option.isSome_iff_exists.mp possible
    obtain ⟨inside, kept, wakes, left⟩ := SpikeModule.work_cases work
    rw [next_work work]
    refine ord.moved rfl rfl rfl inside ?_ wakes (by rintro _ ⟨⟩) ?_ ?_
    · cases pc : m.pc <;> simp [SpikeModule.ended, pc]
    · rw [kept]
      exact (Bool.and_true _).symm
    · rw [kept]
      exact left
  | answer i a =>
    obtain ⟨next, trans, delay, bus, pc, out⟩ := possible
    have inside : (s.spike i).ended = false := by rw [SpikeModule.ended, pc]
    rw [next_answer pc out]
    refine ord.moved rfl rfl rfl inside (Int.sub_zero _).symm ?_ (by rintro _ ⟨⟩)
      (Bool.and_true _).symm (by rintro ⟨⟩)
    rintro _ ⟨⟩
    exact Nat.le_add_right _ _
  | enter i a =>
    obtain ⟨next, act, pc, out⟩ := possible
    have inside : (s.spike i).ended = false := by rw [SpikeModule.ended, pc]
    rw [next_enter pc out]
    exact ord.moved rfl rfl rfl inside (Int.sub_zero _).symm (by rintro _ ⟨⟩) (by rintro _ ⟨⟩)
      (Bool.and_true _).symm (by rintro ⟨⟩)
  | acquire i a =>
    obtain ⟨spike, now, counter, main⟩ := s.step_frame i
    exact ord.still rfl spike now counter main
  | go i =>
    obtain ⟨spike, now, counter, main⟩ := s.step_frame i
    exact ord.still rfl spike now counter main
  | ret i =>
    obtain ⟨a, next, act, pc, here, unlock⟩ := possible
    have inside : (s.spike i).ended = false := by rw [SpikeModule.ended, pc]
    have resumed := resumed_of_unlock here unlock
    rw [next_ret pc resumed]
    refine ord.moved rfl rfl rfl inside (Int.sub_zero _).symm ?_ (by rintro _ ⟨⟩)
      (Bool.and_true _).symm (by rintro ⟨⟩)
    rintro _ ⟨⟩
    exact Nat.le_add_right _ _
  | respond i a r =>
    obtain ⟨next, keepSim, pc, response⟩ := possible
    have inside : (s.spike i).ended = false := by rw [SpikeModule.ended, pc]
    rw [next_respond pc response]
    refine ord.moved rfl rfl rfl inside (Int.sub_zero _).symm (by rintro _ ⟨⟩) ?_ ?_
      (by rintro ⟨⟩)
    · rintro _ hr
      cases List.mem_singleton.mp hr
      rfl
    · rw [SpikeModule.respond_keepSim response]
      simp [got]
  | fail i r => exact absurd possible (silent i r)

section Progress
variable {m₀ : Ram} {flat₀ : Nat → Byte} {vr : List (Initiators.Event ι)} {c : Initiators ι}
  {ur : List (SharedObject.Event ι (Hart H) Mmio)} {u : SharedObject ι (Nat → Byte) (Hart H)}

/-- A hart can go on, or waits for the mutex, a queue or a later time. -/
theorem Follows.hart_moves (maps : cfg.Maps) (fol : Follows cfg m₀ flat₀ tr s vr c ur u)
    (ord : Orderly tr s) (i : ι) : (∃ e, s.Possible cfg e) ∨ s.Blocked (s.now + 1) i := by
  obtain ⟨waiting, owed, stands, _⟩ := fol.attends i
  cases stands with
  | loop pc =>
    refine Or.inl ⟨.work i, ?_⟩
    simp [Possible, SpikeModule.work, pc]
  | @paused proc wake pc outside hart =>
    have later : s.now ≤ wake := ord.wakes i wake (by rw [SpikeModule.wake, pc]; rfl)
    by_cases due : s.now = wake
    · refine Or.inl ⟨.work i, ?_⟩
      simp [Possible, SpikeModule.work, pc, due]
    · refine Or.inr ?_
      rw [Blocked, pc]
      change s.now + 1 ≤ wake
      omega
  | @step rest pc outside hart =>
    left
    cases rest with
    | done proc => exact ⟨.work i, by simp [Possible, SpikeModule.work, pc]⟩
    | ask a next =>
      rcases fol.transport_cases maps i a with ⟨queues, _⟩ | ⟨trans, delay, bus, answered, _⟩
      · exact ⟨.enter i a, next, _, pc, queues⟩
      · exact ⟨.answer i a, next, trans, delay, bus, pc, answered⟩
  | waiting pc queues call hart =>
    cases moves : s.resumed i with
    | some r => exact Or.inl ⟨.acquire i _, _, _, pc, call, rfl, by rw [moves]; rfl⟩
    | none =>
      refine Or.inr ?_
      rw [Blocked, pc]
      refine ⟨moves, fun act here => ?_⟩
      rw [call] at here
      cases here
      rintro _ ⟨⟩
  | @inside a next act before r pc call entered last reply hart =>
    by_cases unlock : act.pc = .unlock
    · exact Or.inl ⟨.ret i, a, next, act, pc, call, unlock⟩
    · cases moves : s.resumed i with
      | some r => exact Or.inl ⟨.go i, act, call, entered, unlock, by rw [moves]; rfl⟩
      | none =>
        obtain ⟨t, before', last', _, holding⟩ :=
          fol.inv.session_of (by rw [fol.act]; exact call) entered
        rw [last] at last'
        obtain ⟨_, same⟩ := List.append_inj' last' rfl
        cases same
        refine Or.inr ?_
        rw [Blocked, pc]
        refine ⟨moves, fun act' here => ?_⟩
        rw [call] at here
        cases here
        rw [holding.wake_eq_none rfl]
        rintro _ ⟨⟩
  | @delayed a next wake r pc outside expected reply hart =>
    have later : s.now ≤ wake := ord.wakes i wake (by rw [SpikeModule.wake, pc]; rfl)
    by_cases due : s.now = wake
    · subst due
      left
      rcases expected with ok | error
      · exact ⟨.respond i a _, next, _, pc, SpikeModule.respond_ok ok⟩
      · exact ⟨.respond i a _, next, _, pc, SpikeModule.respond_error error⟩
    · refine Or.inr ?_
      rw [Blocked, pc]
      change s.now + 1 ≤ wake
      omega
  | finished pc =>
    refine Or.inr ?_
    rw [Blocked, pc]
    trivial

/-- No deadlock: inside `sc_start` something can always happen. -/
theorem Follows.moves (maps : cfg.Maps) (fol : Follows cfg m₀ flat₀ tr s vr c ur u)
    (ord : Orderly tr s) {stop : Nat} (main : s.main = .simulating stop) :
    ∃ e, s.Enabled cfg e := by
  suffices possible : ∃ e, s.Possible cfg e from possible.imp fun _ he => ⟨⟨stop, main⟩, he⟩
  by_cases waits : ∀ i, s.Blocked (s.now + 1) i
  · have edge := fol.timed.edge_due
    have reset := fol.timed.reset
    have ends := ord.simulating stop main
    by_cases rise : s.now = s.nextEdge
    · exact ⟨.edge, rise⟩
    by_cases released : s.release = some s.now
    · exact ⟨.release, released⟩
    by_cases due : s.now = stop
    · exact ⟨.scStart, main.trans (by rw [due])⟩
    refine ⟨.advance (s.now + 1), Nat.lt_succ_self _, by omega, fun r due => ?_, ?_, waits⟩
    · have due' : s.release = some r := due
      simp only [Platform.ResetPending, due'] at reset
      have later : s.now ≠ r := by
        rintro rfl
        exact released due
      omega
    · intro stop' main'
      rw [main] at main'
      cases main'
      omega
  · obtain ⟨i, moves⟩ := not_forall.mp waits
    exact (fol.hart_moves maps ord i).resolve_right moves

end Progress

omit [Fintype ι] in
/-- With every thread gone only clock, reset, time and `sc_main` move. -/
theorem next_of_ended (gone : ∀ i, (s.spike i).pc = .finished) (he : s.Possible cfg e) :
    (s.next cfg e).spike = s.spike ∧
      (s.next cfg e).runningThreadsCounter = s.runningThreadsCounter ∧
      ((s.next cfg e).main = s.main ∧ ((s.next cfg e).now = s.now ∨
          ∀ stop, s.main = .simulating stop → (s.next cfg e).now ≤ stop) ∨
        (s.next cfg e).now = s.now ∧
          (s.runningThreadsCounter ≤ 0 → (s.next cfg e).main = .exited 0)) := by
  cases e with
  | edge => exact ⟨rfl, rfl, Or.inl ⟨rfl, Or.inl rfl⟩⟩
  | release => exact ⟨rfl, rfl, Or.inl ⟨rfl, Or.inl rfl⟩⟩
  | advance t => exact ⟨rfl, rfl, Or.inl ⟨rfl, Or.inr he.2.2.2.1⟩⟩
  | scStart => exact ⟨rfl, rfl, Or.inr ⟨rfl, fun none => if_neg (by omega)⟩⟩
  | work i => simp [Possible, SpikeModule.work, gone i] at he
  | answer i a => simp [Possible, gone i] at he
  | enter i a => simp [Possible, gone i] at he
  | acquire i a => simp [Possible, gone i] at he
  | go i =>
    obtain ⟨spike, now, counter, main⟩ := s.step_frame i
    exact ⟨spike, counter, Or.inl ⟨main, Or.inl now⟩⟩
  | ret i => simp [Possible, gone i] at he
  | respond i a r => simp [Possible, gone i] at he
  | fail i r => simp [Possible, gone i] at he

end Steps

section Runs
variable {cfg : IssConfig H B} {io : IoBlock top0} {bus : B} {proc : ι → H}
  {tr : List (Event ι)} {s : IssPlatform ι H B}

theorem powerOn_orderly (io : IoBlock top0) (bus : B) (proc : ι → H) :
    Orderly [] (powerOn cfg io bus proc) where
  counter := by simp [powerOn, unfinished, SpikeModule.ended, SpikeModule.constructed]
  wakes _ := by rintro _ ⟨⟩
  keeps _ := rfl
  left _ := by rintro ⟨⟩
  simulating stop main := by
    cases main
    exact ⟨Nat.zero_le _, show scNs 1 ≤ 0 + scNs 50 by decide⟩
  exited _ := by rintro ⟨⟩

theorem run_orderly (maps : cfg.Maps) (later : 0 < cfg.rstTimeout)
    (run : (machine cfg).Run (powerOn cfg io bus proc) tr s) : Orderly tr s := by
  have both : Orderly tr s ∧ (machine cfg).Run (powerOn cfg io bus proc) tr s := by
    refine run.invariant
      (fun tr s => Orderly tr s ∧ (machine cfg).Run (powerOn cfg io bus proc) tr s)
      ⟨powerOn_orderly io bus proc, .refl⟩ ?_
    rintro tr s e ⟨ord, before⟩ he
    obtain ⟨vr, c, ur, u, _, fol⟩ := run_follows maps later before
    exact ⟨ord.next (fun i r => fol.no_report maps i) he, before.snoc he⟩
  exact both.1

omit [DecidableEq ι] in
theorem ended_of_unfinished (none : s.unfinished = ∅) (i : ι) : (s.spike i).pc = .finished := by
  apply SpikeModule.ended_eq_true.mp
  by_contra inside
  have here : i ∈ s.unfinished := by simpa [unfinished] using inside
  rw [none] at here
  cases here

/-- Once every thread is gone the run ends within one `sc_start`. -/
theorem Orderly.last_start (ord : Orderly tr s) (none : s.unfinished = ∅) {tr' : List (Event ι)}
    {s' : IssPlatform ι H B} (run : (machine cfg).Run s tr' s') : s'.now ≤ s.now + scNs 50 := by
  have counter : s.runningThreadsCounter = 0 := by rw [ord.counter, none]; rfl
  have all := run.invariant (fun _ s' => s'.spike = s.spike ∧ s'.runningThreadsCounter = 0 ∧
      s'.now ≤ s.now + scNs 50 ∧ ∀ stop, s'.main = .simulating stop → stop ≤ s.now + scNs 50)
    ⟨rfl, counter, Nat.le_add_right _ _, fun stop main => (ord.simulating stop main).2⟩ (by
      rintro _ t e ⟨spike, count, now, ends⟩ ⟨⟨stop, main⟩, he⟩
      have gone : ∀ i, (t.spike i).pc = .finished := by
        rw [spike]
        exact ended_of_unfinished none
      obtain ⟨spike', count', moved⟩ := next_of_ended gone he
      refine ⟨spike'.trans spike, count'.trans count, ?_⟩
      rcases moved with ⟨main', same | within⟩ | ⟨same, exits⟩
      · exact ⟨same.le.trans now, fun stop' here => ends stop' (main'.symm.trans here)⟩
      · exact ⟨(within stop main).trans (ends stop main),
          fun stop' here => ends stop' (main'.symm.trans here)⟩
      · refine ⟨same.le.trans now, fun stop' here => ?_⟩
        have gone' := (exits (by omega)).symm.trans here
        cases gone')
  exact all.2.2.1

/-- A hart leaves its loop only after an access outside the memory map. -/
theorem outside_of_left (maps : cfg.Maps) (later : 0 < cfg.rstTimeout)
    (run : (machine cfg).Run (powerOn cfg io bus proc) tr s) {i : ι}
    (left : (s.spike i).ended = true) :
    ∃ a, (i, a) ∈ taken tr ∧ ¬ Uncore.Inside cfg.ucfg a.payload := by
  have ord := run_orderly maps later run
  obtain ⟨vr, c, ur, u, _, fol⟩ := run_follows maps later run
  have refused : ¬ ∀ r ∈ (got tr).filter (·.1 = i), r.2.done = true := by
    rw [← List.all_eq_true, ← ord.keeps i, ord.left i left]
    exact Bool.false_ne_true
  obtain ⟨r, hr⟩ := not_forall.mp refused
  obtain ⟨mine, fails⟩ := Classical.not_imp.mp hr
  obtain ⟨_, owed, _, _, replies⟩ := fol.attends i
  have answered : r ∈ SharedObject.answers (FlatMemory.access cfg.ucfg)
      (FlatMemory.flatten cfg.ucfg cfg.spikeBus bus io.ram) (taken tr) := by
    have both := List.mem_append_left (owed.map (i, ·)) mine
    rw [← replies] at both
    exact List.mem_of_mem_filter both
  obtain ⟨⟨j, a⟩, took, m, rfl⟩ := SharedObject.served_of_mem_answers answered
  have tag : j = i := by simpa using (List.mem_filter.mp mine).2
  subst tag
  exact ⟨a, took, fun inside => fails ((FlatMemory.access_done m).mpr inside)⟩

/-- The counter of running threads is right in every state, no report ends the
simulation, and inside `sc_start` something can always happen. `sc_main`
returns 0 and only when every hart has left its loop; none leaves it before an
access of its own outside the memory map, and when all have left the run is
over: nothing happens after the next 50 ns, and nothing goes on for ever. -/
theorem shutdown (maps : cfg.Maps) (later : 0 < cfg.rstTimeout)
    (run : (machine cfg).Run (powerOn cfg io bus proc) tr s) :
    s.runningThreadsCounter = (s.unfinished.card : Int) ∧
    (∀ stop, s.main = .simulating stop → ∃ e, s.Enabled cfg e) ∧
    (∀ code, s.main = .exited code → code = 0 ∧ s.unfinished = ∅) ∧
    (∀ i, i ∉ s.unfinished → ∃ a, (i, a) ∈ taken tr ∧ ¬ Uncore.Inside cfg.ucfg a.payload) ∧
    (s.unfinished = ∅ → (∀ tr' s', (machine cfg).Run s tr' s' → s'.now ≤ s.now + scNs 50) ∧
      (0 < cfg.clkPeriod → IsEmpty (EndlessRun (machine cfg) s))) := by
  have ord := run_orderly maps later run
  obtain ⟨vr, c, ur, u, _, fol⟩ := run_follows maps later run
  refine ⟨ord.counter, fun stop main => fol.moves maps ord main, fun code gone => ?_,
    fun i out => ?_, fun none => ⟨fun tr' s' => ord.last_start none, fun rising => ⟨fun r => ?_⟩⟩⟩
  · obtain ⟨zero, all⟩ := ord.exited code gone
    refine ⟨zero, ?_⟩
    ext i
    simp [unfinished, all i]
  · exact outside_of_left maps later run (by simpa [unfinished] using out)
  · obtain ⟨m, _, passed⟩ := endless_clock maps later rising run r (s.now + scNs 50 + 1) 0
    have within := ord.last_start none (r.run m)
    omega

end Runs

/-- A load that no device answers. -/
def loadUnknown : Mmio := ⟨false, 0x82000000, ⟨[0], DataBuffer.one_fits⟩, Nat.one_pos⟩

/-- The only hart makes it, and `sc_main` sees the end at its second call. -/
def oneIss : List (Event (Fin 1)) :=
  [.edge, .work 0, .answer 0 loadUnknown,
    .respond 0 loadUnknown ⟨false, ⟨[0], DataBuffer.one_fits⟩⟩, .work 0, .advance (scNs 1),
    .scStart, .advance (scNs 2), .work 0, .work 0, .advance (scNs 10), .edge,
    .advance (scNs 17), .release, .advance (scNs 20), .edge, .advance (scNs 30), .edge,
    .advance (scNs 40), .edge, .advance (scNs 50), .edge, .advance (scNs 51), .scStart]

def oneIss_start : IssPlatform (Fin 1) (List Mmio) (Nat → Byte) :=
  powerOn exampleCfg Bench.staleBlock (fun _ => 0) fun _ => [loadUnknown]

theorem oneIss_run : (machine exampleCfg).Run oneIss_start oneIss
    ((machine exampleCfg).after oneIss_start oneIss) := by
  apply EventMachine.run_of_admits
  refine ⟨⟨⟨_, rfl⟩, rfl⟩, ⟨⟨_, rfl⟩, rfl⟩, ⟨⟨_, rfl⟩, _, _, _, _, rfl, rfl⟩,
    ⟨⟨_, rfl⟩, _, _, rfl, rfl⟩, ⟨⟨_, rfl⟩, rfl⟩,
    ⟨⟨_, rfl⟩, by decide, by decide, by rintro _ ⟨⟩; decide, by rintro _ ⟨⟩; decide, ?_⟩,
    ⟨⟨_, rfl⟩, rfl⟩,
    ⟨⟨_, rfl⟩, by decide, by decide, by rintro _ ⟨⟩; decide, by rintro _ ⟨⟩; decide, ?_⟩,
    ⟨⟨_, rfl⟩, rfl⟩, ⟨⟨_, rfl⟩, rfl⟩,
    ⟨⟨_, rfl⟩, by decide, by decide, by rintro _ ⟨⟩; decide, by rintro _ ⟨⟩; decide, ?_⟩,
    ⟨⟨_, rfl⟩, rfl⟩,
    ⟨⟨_, rfl⟩, by decide, by decide, by rintro _ ⟨⟩; decide, by rintro _ ⟨⟩; decide, ?_⟩,
    ⟨⟨_, rfl⟩, rfl⟩,
    ⟨⟨_, rfl⟩, by decide, by decide, by rintro _ ⟨⟩, by rintro _ ⟨⟩; decide, ?_⟩,
    ⟨⟨_, rfl⟩, rfl⟩,
    ⟨⟨_, rfl⟩, by decide, by decide, by rintro _ ⟨⟩, by rintro _ ⟨⟩; decide, ?_⟩,
    ⟨⟨_, rfl⟩, rfl⟩,
    ⟨⟨_, rfl⟩, by decide, by decide, by rintro _ ⟨⟩, by rintro _ ⟨⟩; decide, ?_⟩,
    ⟨⟨_, rfl⟩, rfl⟩,
    ⟨⟨_, rfl⟩, by decide, by decide, by rintro _ ⟨⟩, by rintro _ ⟨⟩; decide, ?_⟩,
    ⟨⟨_, rfl⟩, rfl⟩,
    ⟨⟨_, rfl⟩, by decide, by decide, by rintro _ ⟨⟩, by rintro _ ⟨⟩; decide, ?_⟩,
    ⟨⟨_, rfl⟩, rfl⟩, trivial⟩
  -- The hart waits 2 ns and is gone from then on.
  · exact fun i => Subsingleton.elim 0 i ▸ Nat.le_of_lt (show scNs 1 < scNs 2 by decide)
  · exact fun i => Subsingleton.elim 0 i ▸ Nat.le_refl (scNs 2)
  all_goals exact fun i => Subsingleton.elim 0 i ▸ trivial

theorem shutdown_oneIss :
    (machine exampleCfg).Run oneIss_start oneIss ((machine exampleCfg).after oneIss_start oneIss) ∧
      ((machine exampleCfg).after oneIss_start oneIss).main = .exited 0 ∧
      ((machine exampleCfg).after oneIss_start oneIss).unfinished = ∅ ∧
      ∃ a, ((0 : Fin 1), a) ∈ taken oneIss ∧ ¬ Uncore.Inside exampleCfg.ucfg a.payload := by
  obtain ⟨_, _, exited, outside, _⟩ := shutdown exampleCfg_maps (by decide) oneIss_run
  obtain ⟨_, none⟩ := exited 0 rfl
  exact ⟨oneIss_run, rfl, none, outside 0 (by rw [none]; exact Finset.notMem_empty 0)⟩

end IssPlatform
