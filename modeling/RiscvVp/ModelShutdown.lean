import RiscvVp.ModelInstants

/-!
# How the reference platforms end

Here `sc_main` counts two kinds of threads. A hart leaves its loop after an
access outside the memory map, and its `bitbang_thread` sees the same flag when
it would next poll the socket.
-/

namespace ModelPlatform

open SharedObject (answers)

variable {ι H B D X : Type} [DecidableEq ι]

section Steps
variable {cfg : ModelConfig ι H B D X} {tr : List (Event ι X)} {s : ModelPlatform ι H B D}
  {e : Event ι X} {i : ι}

/-- A thread that waits for its next poll has waited for it before. -/
theorem asleep_of_next {wake : Nat} (he : s.Possible cfg e) (unpolled : ∀ x, e ≠ .tick i x)
    (waits : (s.next cfg e).bitbang i = .waiting wake) : s.bitbang i = .waiting wake := by
  cases e with
  | tick j x =>
    have other : i ≠ j := by
      rintro rfl
      exact unpolled x rfl
    have asleep : Function.update s.bitbang j (.waiting (s.now + cfg.bitbangDelay)) i =
        .waiting wake := waits
    rwa [Function.update_of_ne other] at asleep
  | detach j =>
    have asleep : Function.update s.bitbang j .finished i = .waiting wake := waits
    by_cases same : i = j
    · subst same
      rw [Function.update_self] at asleep
      cases asleep
    · rwa [Function.update_of_ne same] at asleep
  | advance t => exact waits
  | scStart => exact waits
  | leave j => exact waits
  | fail j r => exact waits
  | _ => rwa [(next_frame he rfl).2.1] at waits

omit [DecidableEq ι] in
theorem got_tagged {j : ι} (own : e.hart = some j) : ∀ r ∈ got [e], r.1 = j := by
  intro r hr
  cases e with
  | respond k a reply =>
    cases own
    cases List.mem_singleton.mp hr
    rfl
  | _ => cases hr

/-- `keep_sim` falls with a refused access and never rises. -/
theorem next_keepSim (he : s.Possible cfg e) (i : ι) : ((s.next cfg e).spike i).keepSim =
    ((s.spike i).keepSim && ((got [e]).filter (·.1 = i)).all (·.2.done)) := by
  cases own : e.hart with
  | none =>
    have silent : got [e] = [] := by cases e <;> first | rfl | cases own
    rw [next_spike_of_none own, silent, List.filter_nil, List.all_nil, Bool.and_true]
  | some j =>
    obtain ⟨m, spike, keeps, _⟩ := next_hart he own
    rw [spike]
    by_cases same : i = j
    · subst same
      have all : (got [e]).filter (·.1 = i) = got [e] :=
        List.filter_eq_self.mpr fun r hr => by simpa using got_tagged own r hr
      rw [Function.update_self, keeps, all]
    · have nothing : (got [e]).filter (·.1 = i) = [] :=
        IssPlatform.filter_of_ne fun r hr tag => same (tag.symm.trans (got_tagged own r hr))
      rw [Function.update_of_ne same, nothing, List.all_nil, Bool.and_true]

theorem next_ended (he : s.Possible cfg e) (i : ι) :
    ((s.next cfg e).spike i).ended = true ↔ (s.spike i).ended = true ∨ e = .leave i := by
  cases own : e.hart with
  | none =>
    rw [next_spike_of_none own]
    refine ⟨Or.inl, fun or => or.resolve_right ?_⟩
    rintro rfl
    cases own
  | some j =>
    obtain ⟨m, spike, _, inside, leaves⟩ := next_hart he own
    rw [spike]
    by_cases same : i = j
    · subst same
      rw [Function.update_self, leaves, inside]
      simp
    · rw [Function.update_of_ne same]
      refine ⟨Or.inl, fun or => or.resolve_right ?_⟩
      rintro rfl
      cases own
      exact same rfl

theorem next_silent (he : s.Possible cfg e) (i : ι) :
    (s.next cfg e).bitbang i = .finished ↔ s.bitbang i = .finished ∨ e = .detach i := by
  cases e with
  | tick j x =>
    change Function.update s.bitbang j (.waiting (s.now + cfg.bitbangDelay)) i = .finished ↔ _
    by_cases same : i = j
    · subst same
      simp [he.1]
    · simp [Function.update_of_ne same]
  | detach j =>
    change Function.update s.bitbang j .finished i = .finished ↔ _
    by_cases same : i = j
    · subst same
      simp
    · simp [Function.update_of_ne same, Ne.symm same]
  | advance t => exact (or_iff_left (by rintro ⟨⟩)).symm
  | scStart => exact (or_iff_left (by rintro ⟨⟩)).symm
  | leave j => exact (or_iff_left (by rintro ⟨⟩)).symm
  | fail j r => exact (or_iff_left (by rintro ⟨⟩)).symm
  | _ =>
    rw [(next_frame he rfl).2.1]
    exact (or_iff_left (by rintro ⟨⟩)).symm

end Steps

/-- The harts whose `spike_thread` is still in its loop. -/
def unfinished [Fintype ι] (s : ModelPlatform ι H B D) : Finset ι :=
  Finset.univ.filter fun i => (s.spike i).ended = false

/-- The harts whose `bitbang_thread` is. -/
def polling [Fintype ι] (s : ModelPlatform ι H B D) : Finset ι :=
  Finset.univ.filter fun i => s.bitbang i ≠ .finished

/-- Counter, `keep_sim` and `sc_main` in any state that can be reached. -/
structure Counted [Fintype ι] (cfg : ModelConfig ι H B D X) (tr : List (Event ι X))
    (s : ModelPlatform ι H B D) : Prop where
  counter : s.runningThreadsCounter = (s.unfinished.card : Int) + s.polling.card
  keeps : ∀ i, (s.spike i).keepSim = ((got tr).filter (·.1 = i)).all (·.2.done)
  left : ∀ i, (s.spike i).ended = true → (s.spike i).keepSim = false
  silent : ∀ i, cfg.rbb i = true → s.bitbang i = .finished → (s.spike i).keepSim = false
  simulating : ∀ stop, s.main = .simulating stop → s.now ≤ stop ∧ stop ≤ s.now + scNs 50
  exited : ∀ code, s.main = .exited code → code = 0 ∧ s.unfinished = ∅ ∧ s.polling = ∅

section Count
variable [Fintype ι] {cfg : ModelConfig ι H B D X} {tr : List (Event ι X)}
  {s : ModelPlatform ι H B D} {e : Event ι X} {i : ι}

theorem mem_unfinished_next (he : s.Possible cfg e) :
    i ∈ (s.next cfg e).unfinished ↔ i ∈ s.unfinished ∧ e ≠ .leave i := by
  have ends := next_ended he i
  simp only [unfinished, Finset.mem_filter, Finset.mem_univ, true_and, ← Bool.not_eq_true]
  rw [ends, not_or]

theorem mem_polling_next (he : s.Possible cfg e) :
    i ∈ (s.next cfg e).polling ↔ i ∈ s.polling ∧ e ≠ .detach i := by
  simp only [polling, Finset.mem_filter, Finset.mem_univ, true_and, ne_eq]
  rw [next_silent he i, not_or]

/-- A thread that ends is taken off the count. -/
theorem next_counter (he : s.Possible cfg e)
    (counter : s.runningThreadsCounter = (s.unfinished.card : Int) + s.polling.card) :
    (s.next cfg e).runningThreadsCounter =
      ((s.next cfg e).unfinished.card : Int) + (s.next cfg e).polling.card := by
  have stay (nobody : ∀ i, e ≠ .leave i) : (s.next cfg e).unfinished = s.unfinished := by
    ext i
    rw [mem_unfinished_next he]
    exact and_iff_left (nobody i)
  have poll (nobody : ∀ i, e ≠ .detach i) : (s.next cfg e).polling = s.polling := by
    ext i
    rw [mem_polling_next he]
    exact and_iff_left (nobody i)
  cases e with
  | leave j =>
    have fewer : (s.next cfg (.leave j)).unfinished = s.unfinished.erase j := by
      ext i
      rw [mem_unfinished_next he, Finset.mem_erase, and_comm]
      simp [eq_comm]
    have here : j ∈ s.unfinished := by
      obtain ⟨h, pc, _⟩ := he
      have inside : (s.spike j).ended = false := by rw [SpikeModule.ended, pc]
      simp [unfinished, inside]
    have positive : 0 < s.unfinished.card := Finset.card_pos.mpr ⟨j, here⟩
    rw [fewer, Finset.card_erase_of_mem here, poll (by rintro _ ⟨⟩)]
    change s.runningThreadsCounter - 1 = _
    omega
  | detach j =>
    have fewer : (s.next cfg (.detach j)).polling = s.polling.erase j := by
      ext i
      rw [mem_polling_next he, Finset.mem_erase, and_comm]
      simp [eq_comm]
    have here : j ∈ s.polling := by simp [polling, he.1]
    have positive : 0 < s.polling.card := Finset.card_pos.mpr ⟨j, here⟩
    rw [fewer, Finset.card_erase_of_mem here, stay (by rintro _ ⟨⟩)]
    change s.runningThreadsCounter - 1 = _
    omega
  | advance t => exact counter
  | scStart => exact counter
  | fail j r => exact counter
  | tick j x =>
    rw [stay (by rintro _ ⟨⟩), poll (by rintro _ ⟨⟩)]
    exact counter
  | _ =>
    rw [stay (by rintro _ ⟨⟩), poll (by rintro _ ⟨⟩), (next_frame he rfl).2.2.1]
    exact counter

theorem Counted.next (cnt : Counted cfg tr s) (noReport : ∀ i r, ¬ s.Possible cfg (.fail i r))
    (he : s.Enabled cfg e) : Counted cfg (tr ++ [e]) (s.next cfg e) := by
  obtain ⟨⟨stop, main⟩, possible⟩ := he
  have falls (j : ι) (down : (s.spike j).keepSim = false) :
      ((s.next cfg e).spike j).keepSim = false := by
    rw [next_keepSim possible, down, Bool.false_and]
  have still (same : (s.next cfg e).main = s.main) (stop' : Nat)
      (there : (s.next cfg e).main = .simulating stop') : stop' = stop := by
    rw [same, main] at there
    exact (ScMain.simulating.inj there).symm
  refine ⟨next_counter possible cnt.counter, fun j => ?_, fun j gone => ?_, fun j dbg gone => ?_,
    fun stop' there => ?_, fun code there => ?_⟩
  · rw [next_keepSim possible, cnt.keeps, got_append, List.filter_append, List.all_append]
  · rcases (next_ended possible j).mp gone with before | rfl
    · exact falls j (cnt.left j before)
    · obtain ⟨h, _, down⟩ := possible
      exact falls j down
  · rcases (next_silent possible j).mp gone with before | rfl
    · exact falls j (cnt.silent j dbg before)
    · exact falls j possible.2
  · have before := cnt.simulating stop main
    cases e with
    | advance t =>
      have within := possible.2.1 stop main
      have later := possible.1
      cases still rfl stop' there
      change t ≤ stop ∧ stop ≤ t + scNs 50
      omega
    | scStart =>
      simp only [ModelPlatform.next] at there
      split at there
      · cases there
        exact ⟨Nat.le_add_right _ _, Nat.le_refl _⟩
      · cases there
    | fail j r => exact absurd possible (noReport j r)
    | leave j =>
      cases still rfl stop' there
      exact before
    | tick j x =>
      cases still rfl stop' there
      exact before
    | detach j =>
      cases still rfl stop' there
      exact before
    | _ =>
      cases still (next_frame possible rfl).2.2.2 stop' there
      rw [(next_frame possible rfl).1]
      exact before
  · have running (same : (s.next cfg e).main = s.main) : False := by
      rw [same, main] at there
      cases there
    cases e with
    | scStart =>
      simp only [ModelPlatform.next] at there
      split at there
      · cases there
      · rename_i drained
        cases there
        have count := cnt.counter
        exact ⟨rfl, Finset.card_eq_zero.mp (show s.unfinished.card = 0 by omega),
          Finset.card_eq_zero.mp (show s.polling.card = 0 by omega)⟩
    | fail j r => exact absurd possible (noReport j r)
    | advance t => exact (running rfl).elim
    | leave j => exact (running rfl).elim
    | tick j x => exact (running rfl).elim
    | detach j => exact (running rfl).elim
    | _ => exact (running (next_frame possible rfl).2.2.2).elim

end Count

section Progress
variable {cfg : ModelConfig ι H B D X} {tr : List (Event ι X)} {s : ModelPlatform ι H B D}
  {p₀ : PositionMemory} {ur : List (SharedObject.Event ι (DebugHart D H) Mmio)}
  {u : SharedObject ι PositionMemory (DebugHart D H)}

/-- A hart can go on, or waits for a later time. -/
theorem Follows.hart_moves (maps : cfg.Maps) (fol : Follows cfg p₀ tr s ur u)
    (ont : OnTime cfg tr s) (i : ι) : (∃ e, s.Possible cfg e) ∨
      match (s.spike i).pc with
      | .delayed _ _ wake => s.now + 1 ≤ wake
      | .paused _ wake => s.now + 1 ≤ wake
      | .finished => True
      | _ => False := by
  obtain ⟨_, _, stands, _⟩ := fol.harts i
  have time := ont.harts i
  cases pc : (s.spike i).pc with
  | loop h =>
    left
    cases keep : (s.spike i).keepSim with
    | true => exact ⟨.step i, h, pc, keep⟩
    | false => exact ⟨.leave i, h, pc, keep⟩
  | step rest =>
    left
    cases rest with
    | done h => exact ⟨.pause i, h, pc⟩
    | ask a next =>
      by_cases stays : cfg.Stays i a
      · exact ⟨.inside i a, next, pc, stays⟩
      · obtain ⟨reply, delay, bus, mem, served, _⟩ := fol.served maps i a
        exact ⟨.access i a, next, reply, delay, bus, mem, pc, stays, served⟩
  | transport a next =>
    rw [Stands, pc] at stands
    exact stands.elim
  | delayed a next wake =>
    rw [Stands, pc] at stands
    rw [pc] at time
    by_cases due : s.now = wake
    · subst due
      exact Or.inl ⟨.respond i a _, next, _, pc, respond_eq cfg i stands.1⟩
    · exact Or.inr (Nat.lt_of_le_of_ne time.1 due)
  | paused h wake =>
    rw [pc] at time
    by_cases due : s.now = wake
    · subst due
      exact Or.inl ⟨.wake i, h, pc⟩
    · exact Or.inr (Nat.lt_of_le_of_ne time.1 due)
  | finished => exact Or.inr trivial

/-- A poll is due, or is at a later time. -/
theorem OnTime.poll_moves [Nonempty X] (ont : OnTime cfg tr s) (i : ι) :
    (∃ e, s.Possible cfg e) ∨
      match s.bitbang i with
      | .waiting wake => s.now + 1 ≤ wake
      | .finished => True := by
  cases waits : s.bitbang i with
  | waiting wake =>
    obtain ⟨ahead, _⟩ := ont.polls i wake waits
    by_cases due : s.now = wake
    · subst due
      left
      cases keep : (s.spike i).keepSim with
      | true => exact ⟨.tick i (Classical.arbitrary X), waits, keep⟩
      | false => exact ⟨.detach i, waits, keep⟩
    · exact Or.inr (Nat.lt_of_le_of_ne ahead due)
  | finished => exact Or.inr trivial

/-- No deadlock here either. -/
theorem Follows.moves [Fintype ι] [Nonempty X] (maps : cfg.Maps) (fol : Follows cfg p₀ tr s ur u)
    (ont : OnTime cfg tr s) (cnt : Counted cfg tr s) {stop : Nat}
    (main : s.main = .simulating stop) :
    ∃ e, s.Enabled cfg e := by
  suffices possible : ∃ e, s.Possible cfg e from possible.imp fun _ he => ⟨⟨stop, main⟩, he⟩
  by_contra stuck
  have blocked (i : ι) : s.Blocked (s.now + 1) i :=
    ⟨(fol.hart_moves maps ont i).resolve_left stuck, (ont.poll_moves i).resolve_left stuck⟩
  obtain ⟨ends, _⟩ := cnt.simulating stop main
  by_cases due : s.now = stop
  · exact stuck ⟨.scStart, main.trans (by rw [due])⟩
  · refine stuck ⟨.advance (s.now + 1), Nat.lt_succ_self _, fun stop' main' => ?_, blocked⟩
    rw [main] at main'
    cases main'
    omega

end Progress

section Runs
variable {cfg : ModelConfig ι H B D X} {bus : B} {proc : ι → H} {debug : ι → D}
  {tr tr' : List (Event ι X)} {s s' : ModelPlatform ι H B D} {i : ι}

theorem powerOn_counted [Fintype ι] (cfg : ModelConfig ι H B D X) (bus : B) (proc : ι → H)
    (debug : ι → D) : Counted cfg [] (powerOn cfg bus proc debug) where
  counter := by
    have polls (i : ι) : (if cfg.rbb i then BitbangPc.waiting 0 else .finished) ≠ .finished ↔
        cfg.rbb i = true := by
      split <;> simp_all
    simp [powerOn, unfinished, polling, SpikeModule.ended, SpikeModule.constructed, polls]
  keeps _ := rfl
  left _ := by rintro ⟨⟩
  silent i dbg gone := by
    simp only [powerOn, dbg, if_true] at gone
    cases gone
  simulating stop main := by
    simp only [powerOn] at main
    split at main
    · cases main
      exact ⟨Nat.zero_le _, Nat.le_add_left _ _⟩
    · cases main
  exited code main := by
    simp only [powerOn] at main
    split at main
    · cases main
    · rename_i none
      cases main
      have nobody : Fintype.card ι = 0 := by omega
      have empty := Fintype.card_eq_zero_iff.mp nobody
      exact ⟨rfl, Finset.eq_empty_of_isEmpty _, Finset.eq_empty_of_isEmpty _⟩

theorem run_counted [Fintype ι] (maps : cfg.Maps)
    (run : (machine cfg).Run (powerOn cfg bus proc debug) tr s) : Counted cfg tr s := by
  have both : Counted cfg tr s ∧ (machine cfg).Run (powerOn cfg bus proc debug) tr s := by
    refine run.invariant (fun tr s => Counted cfg tr s ∧
      (machine cfg).Run (powerOn cfg bus proc debug) tr s) ⟨powerOn_counted .., .refl⟩ ?_
    rintro tr s e ⟨cnt, before⟩ he
    obtain ⟨ur, u, _, fol⟩ := run_follows maps before
    exact ⟨cnt.next (fun i r => fol.no_report maps i) he, before.snoc he⟩
  exact both.1

/-- Once `keep_sim` is false the socket is not polled again. -/
theorem last_poll (down : (s.spike i).keepSim = false) (run : (machine cfg).Run s tr' s') :
    (∀ x, .tick i x ∉ tr') ∧
      ∀ wake, s'.bitbang i = .waiting wake → s.bitbang i = .waiting wake := by
  have all := run.invariant (fun tr t => (t.spike i).keepSim = false ∧ (∀ x, .tick i x ∉ tr) ∧
    ∀ wake, t.bitbang i = .waiting wake → s.bitbang i = .waiting wake)
    ⟨down, fun _ => List.not_mem_nil, fun _ => id⟩ (by
      rintro tr t e ⟨down, never, asleep⟩ ⟨_, possible⟩
      have unpolled (x : X) : e ≠ .tick i x := by
        rintro rfl
        exact absurd possible.2 (by simp [down])
      refine ⟨?_, fun x => ?_,
        fun wake waits => asleep wake (asleep_of_next possible unpolled waits)⟩
      · exact (next_keepSim possible i).trans (by rw [down, Bool.false_and])
      · rw [List.mem_append, List.mem_singleton, not_or]
        exact ⟨never x, (unpolled x).symm⟩)
  exact all.2

/-- Once every thread is gone the run ends within one `sc_start`. -/
theorem Counted.last_start [Fintype ι] (cnt : Counted cfg tr s) (gone : s.unfinished = ∅)
    (silent : s.polling = ∅) (run : (machine cfg).Run s tr' s') : s'.now ≤ s.now + scNs 50 := by
  have none : s.runningThreadsCounter = 0 := by rw [cnt.counter, gone, silent]; rfl
  have all := run.invariant (fun _ t => t.unfinished = ∅ ∧ t.polling = ∅ ∧
      t.runningThreadsCounter = 0 ∧ t.now ≤ s.now + scNs 50 ∧
      ∀ stop, t.main = .simulating stop → stop ≤ s.now + scNs 50)
    ⟨gone, silent, none, Nat.le_add_right _ _, fun stop main => (cnt.simulating stop main).2⟩ (by
      rintro _ t e ⟨gone, silent, none, now, ends⟩ ⟨⟨stop, main⟩, he⟩
      have gone' : (t.next cfg e).unfinished = ∅ := by
        ext i
        rw [mem_unfinished_next he, gone]
        simp
      have silent' : (t.next cfg e).polling = ∅ := by
        ext i
        rw [mem_polling_next he, silent]
        simp
      have none' : (t.next cfg e).runningThreadsCounter = 0 := by
        rw [next_counter he (by rw [none, gone, silent]; rfl), gone', silent']
        rfl
      refine ⟨gone', silent', none', ?_⟩
      cases e with
      | advance t' => exact ⟨(he.2.1 stop main).trans (ends stop main), ends⟩
      | scStart =>
        have exits : (t.next cfg .scStart).main = .exited 0 := if_neg (by omega)
        refine ⟨now, fun stop' there => ?_⟩
        have there' := exits.symm.trans there
        cases there'
      | leave j =>
        exact ⟨now, ends⟩
      | tick j x => exact ⟨now, ends⟩
      | detach j => exact ⟨now, ends⟩
      | fail j r =>
        refine ⟨now, fun stop' there => ?_⟩
        cases there
      | _ =>
        obtain ⟨same, _, _, main'⟩ := next_frame he rfl
        exact ⟨same.le.trans now, fun stop' there => ends stop' (main'.symm.trans there)⟩)
  exact all.2.2.2.1

/-- A thread of hart i goes only after an access of the hart outside the memory map. -/
theorem outside_of_gone [Fintype ι] (maps : cfg.Maps)
    (run : (machine cfg).Run (powerOn cfg bus proc debug) tr s)
    (gone : (s.spike i).ended = true ∨ cfg.rbb i = true ∧ s.bitbang i = .finished) :
    ∃ a, (i, a) ∈ taken tr ∧ ¬ Uncore.Inside cfg.ucfg a.payload := by
  have cnt := run_counted maps run
  obtain ⟨ur, u, _, fol⟩ := run_follows maps run
  have down : (s.spike i).keepSim = false := by
    rcases gone with left | ⟨dbg, silent⟩
    · exact cnt.left i left
    · exact cnt.silent i dbg silent
  have refused : ¬ ∀ r ∈ (got tr).filter (·.1 = i), r.2.done = true := by
    rw [← List.all_eq_true, ← cnt.keeps i, down]
    exact Bool.false_ne_true
  obtain ⟨r, hr⟩ := not_forall.mp refused
  obtain ⟨mine, fails⟩ := Classical.not_imp.mp hr
  obtain ⟨_, _, _, replies⟩ := fol.harts i
  have answered : r ∈ answers (PositionMemory.access cfg.ucfg)
      (cfg.powerOnAtomic bus proc debug).mem (taken tr) := by
    have both := List.mem_append_left ((owed (s.spike i)).map (i, ·)) mine
    rw [← replies] at both
    exact List.mem_of_mem_filter both
  obtain ⟨⟨j, a⟩, took, m, rfl⟩ := SharedObject.served_of_mem_answers answered
  have tag : j = i := by simpa using (List.mem_filter.mp mine).2
  subst tag
  exact ⟨a, took, fun inside => fails (PositionMemory.access_done.mpr inside)⟩

/-- The counter counts the threads of both kinds that are still in their loops,
no report ends the simulation, and inside `sc_start` something can always
happen. `sc_main` returns 0 and only when all are gone. A thread of hart i goes
only after an access of the hart through the uncore that is outside the memory
map; what the debug module refuses ends nothing. From then on the socket is not
polled, and the `bitbang_thread` is gone within its delay; when all threads are
gone the run is over: nothing happens after the next 50 ns, and nothing goes on
for ever. -/
theorem halts [Fintype ι] [Nonempty X] (maps : cfg.Maps)
    (run : (machine cfg).Run (powerOn cfg bus proc debug) tr s) :
    s.runningThreadsCounter = (s.unfinished.card : Int) + s.polling.card ∧
    (∀ stop, s.main = .simulating stop → ∃ e, s.Enabled cfg e) ∧
    (∀ code, s.main = .exited code → code = 0 ∧ s.unfinished = ∅ ∧ s.polling = ∅) ∧
    (∀ i, i ∉ s.unfinished ∨ cfg.rbb i = true ∧ i ∉ s.polling →
      ∃ a, (i, a) ∈ taken tr ∧ ¬ Uncore.Inside cfg.ucfg a.payload) ∧
    (∀ i, (s.spike i).keepSim = false → ∀ tr' s', (machine cfg).Run s tr' s' →
      (∀ x, .tick i x ∉ tr') ∧ (i ∈ s'.polling → s'.now ≤ s.now + cfg.bitbangDelay)) ∧
    (s.unfinished = ∅ → s.polling = ∅ →
      (∀ tr' s', (machine cfg).Run s tr' s' → s'.now ≤ s.now + scNs 50) ∧
      (0 < cfg.bitbangDelay → IsEmpty (EndlessRun (machine cfg) s))) := by
  have cnt := run_counted maps run
  have ont := run_onTime run
  obtain ⟨ur, u, _, fol⟩ := run_follows maps run
  refine ⟨cnt.counter, fun stop main => fol.moves maps ont cnt main, cnt.exited,
    fun i out => ?_, fun i down tr' s' more => ?_,
    fun gone silent => ⟨fun tr' s' => cnt.last_start gone silent, fun polls => ⟨fun r => ?_⟩⟩⟩
  · refine outside_of_gone maps run (out.imp (fun gone => ?_) (And.imp_right fun gone => ?_))
    · simpa [unfinished] using gone
    · simpa [polling] using gone
  · obtain ⟨never, asleep⟩ := last_poll down more
    refine ⟨never, fun here => ?_⟩
    cases waits : s'.bitbang i with
    | waiting wake =>
      obtain ⟨ahead, _⟩ := (run_onTime (run.trans more)).polls i wake waits
      obtain ⟨_, soon, _⟩ := ont.polls i wake (asleep wake waits)
      exact ahead.trans soon
    | finished => simp [polling, waits] at here
  · obtain ⟨m, _, passed⟩ := endless_clock maps polls run r (s.now + scNs 50 + 1) 0
    have within := cnt.last_start gone silent (r.run m)
    omega

end Runs

open IssPlatform (Iss loadUnknown)

/-- Both harts load from nowhere. The second is gone after 2 ns, the debugger of
the first after 20, and the first itself is still in the wait of its loop. -/
def strandedRbb : List (Event Iss Unit) :=
  [.tick .spike0 (), .step .spike0, .access .spike0 loadUnknown,
    .respond .spike0 loadUnknown ⟨false, ⟨[0], DataBuffer.one_fits⟩⟩, .pause .spike0,
    .step .spike1, .access .spike1 loadUnknown,
    .respond .spike1 loadUnknown ⟨false, ⟨[0], DataBuffer.one_fits⟩⟩, .pause .spike1,
    .advance (scNs 2), .wake .spike1, .leave .spike1, .advance (scNs 20), .detach .spike0]

def strandedRbb_start : ModelPlatform Iss (List Mmio) (Nat → Byte) Nat :=
  powerOn exampleModelCfg (fun _ => 0) (fun _ => [loadUnknown]) fun _ => 0

theorem strandedRbb_run : (machine exampleModelCfg).Run strandedRbb_start strandedRbb
    ((machine exampleModelCfg).after strandedRbb_start strandedRbb) := by
  apply EventMachine.run_of_admits
  refine ⟨⟨⟨_, rfl⟩, rfl, rfl⟩, ⟨⟨_, rfl⟩, _, rfl, rfl⟩,
    ⟨⟨_, rfl⟩, _, _, _, _, _, rfl, by rintro ⟨_, ⟨⟩⟩, rfl⟩, ⟨⟨_, rfl⟩, _, _, rfl, rfl⟩,
    ⟨⟨_, rfl⟩, _, rfl⟩, ⟨⟨_, rfl⟩, _, rfl, rfl⟩,
    ⟨⟨_, rfl⟩, _, _, _, _, _, rfl, by rintro ⟨⟨⟩, _⟩, rfl⟩, ⟨⟨_, rfl⟩, _, _, rfl, rfl⟩,
    ⟨⟨_, rfl⟩, _, rfl⟩, ⟨⟨_, rfl⟩, by decide, by rintro _ ⟨⟩; decide, ?_⟩, ⟨⟨_, rfl⟩, _, rfl⟩,
    ⟨⟨_, rfl⟩, _, rfl, rfl⟩, ⟨⟨_, rfl⟩, by decide, by rintro _ ⟨⟩; decide, ?_⟩,
    ⟨⟨_, rfl⟩, rfl, rfl⟩, trivial⟩
  · exact Iss.forall_iss ⟨Nat.le_of_ble_eq_true rfl, Nat.le_of_ble_eq_true rfl⟩
      ⟨Nat.le_of_ble_eq_true rfl, trivial⟩
  · exact Iss.forall_iss ⟨Nat.le_of_ble_eq_true rfl, Nat.le_of_ble_eq_true rfl⟩ ⟨trivial, trivial⟩

theorem halts_strandedRbb :
    (machine exampleModelCfg).Run strandedRbb_start strandedRbb
      ((machine exampleModelCfg).after strandedRbb_start strandedRbb) ∧
    ((machine exampleModelCfg).after strandedRbb_start strandedRbb).unfinished.card +
      ((machine exampleModelCfg).after strandedRbb_start strandedRbb).polling.card = 1 ∧
    (∃ a, (Iss.spike0, a) ∈ taken strandedRbb ∧ ¬ Uncore.Inside exampleModelCfg.ucfg a.payload) ∧
    ∀ tr' s', (machine exampleModelCfg).Run
      ((machine exampleModelCfg).after strandedRbb_start strandedRbb) tr' s' →
        .tick .spike0 () ∉ tr' := by
  obtain ⟨counter, _, _, outside, silent, _⟩ := halts exampleModelCfg_maps strandedRbb_run
  have one : ((machine exampleModelCfg).after strandedRbb_start strandedRbb).runningThreadsCounter
      = 1 := rfl
  have gone : ((machine exampleModelCfg).after strandedRbb_start strandedRbb).bitbang .spike0 =
      .finished := rfl
  refine ⟨strandedRbb_run, by omega, outside .spike0 (Or.inr ⟨rfl, by simp [polling, gone]⟩),
    fun tr' s' more => (silent .spike0 rfl tr' s' more).1 ()⟩

end ModelPlatform
