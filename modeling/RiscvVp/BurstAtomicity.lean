import RiscvVp.SerialCalls

/-!
# Concurrent calls come back as if made in turn

The owner of the mutex can finish its burst with the other threads waiting, just
as a call alone under the simulation kernel does: they sleep at the mutex and
keep no time from passing. Then the mutex is free and the next thread can take
it. So from every state a run can reach, all calls that were made can still be
brought back, and what comes back is what calls one after another bring.
-/

namespace Initiators

open StreamServer (replies settle)

variable {ι : Type} [DecidableEq ι] {m : Ram} {tr : List (Event ι)} {s : Initiators ι} {i : ι}
  {a : Activation}

/-- The kernel with the call a of this state, an edge due now and reset to be
released right after it. -/
def kernel (s : Initiators ι) (a : Activation) : Kernel ι where
  now := s.now
  nextEdge := s.now
  release := if s.mem.pipe.rstn then none else some (s.now + 1)
  mem := s.mem
  act := a

/-- No timed wait is late, and each ends where its loop polls next. -/
def Punctual (s : Initiators ι) : Prop := ∀ i a, s.act i = some a → (s.kernel a).Paced

omit [DecidableEq ι] in
theorem kernel_shares (s : Initiators ι) (a : Activation) :
    Shares (s.kernel a).toPlatform s := by
  refine ⟨rfl, rfl, fun r pending => Or.inr ?_⟩
  simp only [kernel] at pending ⊢
  split at pending
  · cases pending
  · cases pending
    exact Nat.lt_succ_self _

omit [DecidableEq ι] in
theorem kernel_timed (a : Activation) (valid : s.mem.pipe.Valid) : (s.kernel a).Timed 1 := by
  refine ⟨valid, Nat.le_refl _, Nat.le_succ _, ?_⟩
  cases live : s.mem.pipe.rstn with
  | true =>
    simp only [Platform.ResetPending, kernel, live, if_true]
    exact live
  | false =>
    simp only [Platform.ResetPending, kernel, live, Bool.false_eq_true, if_false]
    exact ⟨live, Nat.le_succ _, Or.inr (Nat.lt_succ_self _)⟩

/-- The kernel takes over the owner's call in the middle of its burst. -/
theorem Inv.running_of_held (inv : Inv m tr s) (punctual : s.Punctual) (act : s.act i = some a)
    (entered : a.pc ≠ .lock) : ∃ t m', (i, t) ∈ acquired tr ∧
      Kernel.Running 1 t m' i (s.kernel a) := by
  obtain ⟨t, before, last, _, holding⟩ := inv.session_of act entered
  refine ⟨t, settle serveCall m before, ?_, kernel_timed a inv.valid,
    .holding (inv.owner_of act entered) holding, punctual i a act⟩
  rw [last]
  exact List.mem_append_right _ (List.mem_singleton_self _)

/-- With the mutex free, the kernel takes over any call that waits for it. -/
theorem Inv.running_of_free (inv : Inv m tr s) (punctual : s.Punctual) (act : s.act i = some a)
    (pc : a.pc = .lock) (free : s.mem.rtlAccess = none) : ∃ m',
      Kernel.Running 1 a.trans m' i (s.kernel a) := by
  cases inv.session with
  | held _ _ _ _ has => rw [free] at has; cases has
  | free _ _ idle settled =>
    exact ⟨_, kernel_timed a inv.valid, .locking pc rfl free idle settled, punctual i a act⟩

/-- A change of thread i alone that leaves its call paced, or none. -/
theorem Punctual.moved {s' : Initiators ι} {o : Option Activation} (punctual : s.Punctual)
    (now : s'.now = s.now) (act : s'.act = Function.update s.act i o)
    (paced : ∀ b ∈ o, (s.kernel b).Paced) : s'.Punctual := by
  intro j b hb
  have same : (s.kernel b).Paced → (s'.kernel b).Paced := by
    simp only [Kernel.Paced, kernel, now]
    exact id
  by_cases mine : j = i
  · rw [act, mine, Function.update_self] at hb
    exact same (paced b hb)
  · rw [act, Function.update_of_ne mine] at hb
    exact same (punctual j b hb)

/-- A call the kernel could go on with goes on here, and stays paced. -/
theorem Punctual.goes_on {t : Payload} (punctual : s.Punctual)
    (running : Kernel.Running 1 t m i (s.kernel a)) (positive : t.PositiveDelays)
    (act : s.act i = some a) (moves : (s.resumed i).isSome) : (s.step i).Punctual := by
  obtain ⟨⟨b, mem⟩, resumed⟩ := Option.isSome_iff_exists.mp moves
  rw [step_of_resumed resumed]
  rw [resumed_of_act act] at resumed
  refine punctual.moved rfl rfl fun c hc => ?_
  cases hc
  exact (running.advanced positive (Nat.le_refl _) resumed).paced

/-- Every event keeps the waits in time. -/
theorem Punctual.next {e : Event ι} (punctual : s.Punctual) (inv : Inv m tr s)
    (positive : ∀ c ∈ acquired (tr ++ [e]), c.2.PositiveDelays) (he : s.Enabled e) :
    (s.next e).Punctual := by
  cases e with
  | call i t delay =>
    refine punctual.moved rfl rfl fun b hb => ?_
    cases hb
    have accepted := he.2.range.beyond_eq_false he.2.nonempty
    rw [Kernel.bTransport_accepted delay he.2.serviceable accepted]
    trivial
  | acquire i t =>
    obtain ⟨a, act, pc, rfl, moves⟩ := he
    have free : s.mem.rtlAccess = none := by
      by_contra taken
      rw [resumed_of_act act] at moves
      simp [Activation.resume, pc, taken] at moves
    obtain ⟨m', running⟩ := inv.running_of_free punctual act pc free
    exact punctual.goes_on running (positive (i, a.trans) (by simp [acquired])) act moves
  | go i =>
    obtain ⟨a, act, entered, _, moves⟩ := he
    obtain ⟨t, m', taken, running⟩ := inv.running_of_held punctual act entered
    exact punctual.goes_on running (positive (i, t) (by simp [taken])) act moves
  | ret i t =>
    refine punctual.moved (i := i) (o := none) ?_ rfl (by rintro _ ⟨⟩)
    simp only [Initiators.next, step]
    split <;> rfl
  | edge => exact punctual
  | release => exact punctual
  | advance d =>
    intro i a act
    have paced := punctual i a act
    have due := he.2 i a act
    cases pc : a.pc with
    | wait ext l wake =>
      have upto := due wake (by rw [pc]; rfl)
      have later := he.1
      simp only [Kernel.Paced, kernel, pc, Initiators.next] at paced ⊢
      omega
    | _ => simp only [Kernel.Paced, kernel, pc]

theorem run_punctual {io : IoBlock top0} (run : machine.Run (powerOn io) tr s) : s.Punctual := by
  induction run with
  | refl => rintro i a ⟨⟩
  | snoc run he ih =>
    exact ih.next (run_inv run) (fun c hc => (acquired_proper (run.snoc he) c hc).1.positive) he

/-- What is known of a run stays known when it goes on. -/
theorem Inv.run {ur : List (Event ι)} {s' : Initiators ι} (inv : Inv m tr s)
    (run : machine.Run s ur s') : Inv m (tr ++ ur) s' := by
  refine run.invariant (fun ur s' => Inv m (tr ++ ur) s') (by rwa [List.append_nil]) ?_
  intro ur s' e ih he
  rw [← List.append_assoc]
  exact ih.next he

/-- A thread inside `b_transport` is one whose call was made. -/
theorem Inv.called_of_act (inv : Inv m tr s) (act : s.act i = some a) :
    i ∈ (called tr).map Prod.fst := by
  have mine : (called tr).filter (·.1 = i) ≠ [] := by
    rw [inv.queue i]
    by_cases pc : a.pc = .lock
    · rw [queued_of_lock act pc]
      simp
    · obtain ⟨t, before, last, _⟩ := inv.session_of act pc
      rw [last]
      simp
  obtain ⟨c, hc⟩ := List.exists_mem_of_ne_nil _ mine
  obtain ⟨made, same⟩ := List.mem_filter.mp hc
  exact List.mem_map.mpr ⟨c, made, by simpa using same⟩

variable {io : IoBlock top0}

/-- The owner of the mutex can return, with everyone else staying where he is. -/
theorem owner_returns (run : machine.Run (powerOn io) tr s) (owner : s.mem.rtlAccess = some i) :
    ∃ ur s', machine.Run s ur s' ∧ called ur = [] ∧ s'.mem.rtlAccess = none ∧
      s'.act i = none ∧ ∀ j, j ≠ i → s'.act j = s.act j := by
  have inv := run_inv run
  obtain ⟨a, act, entered, unfinished⟩ :
      ∃ a, s.act i = some a ∧ a.pc ≠ .lock ∧ a.pc ≠ .returned := by
    cases inv.session with
    | free free => rw [owner] at free; cases free
    | held j a t before has act last served holding =>
      rw [owner] at has
      cases has
      exact ⟨a, act, holding.pc_ne⟩
  obtain ⟨t, m', taken, start⟩ := inv.running_of_held (run_punctual run) act entered
  have positive : t.PositiveDelays := (acquired_proper run (i, t) taken).1.positive
  obtain ⟨kr, k', returns, ret⟩ := (start.returns Nat.one_pos positive).2
  have alone : Alone s.act [] i t [] (s.kernel a) s := by
    refine ⟨kernel_shares s a, fun _ _ => rfl, ?_, rfl, fun lock => absurd lock entered,
      fun _ => rfl, fun _ => ⟨act, rfl⟩, fun ended => absurd ended unfinished⟩
    intro j b other hb
    have waits : b.pc = .lock := inv.outside j b hb (by
      rw [owner]
      exact fun eq => other (Option.some.inj eq).symm)
    rw [waits]
    rfl
  obtain ⟨ur, s', run', running', alone'⟩ := returns.simulate (N := machine)
    (fun _ ur k s' => Kernel.Running 1 t m' i k ∧ Alone s.act [] i t ur k s')
    (by
      rintro _ ur k s' e ⟨running, alone⟩ he
      obtain ⟨e', he', alone'⟩ := alone.next running.phase running.timed he
      exact ⟨[e'], _, .single he', running.next positive he, alone'⟩)
    ⟨start, alone⟩
  refine ⟨ur, s', run', alone'.silent, ?_, (alone'.ended ret).1, alone'.others⟩
  rw [alone'.mem]
  cases running'.phase with
  | locking pc => rw [ret] at pc; cases pc
  | holding _ holding => exact absurd ret holding.pc_ne.2
  | returned _ free => exact free

/-- With the mutex free, any thread inside can take it and return. -/
theorem waiter_returns (run : machine.Run (powerOn io) tr s) (free : s.mem.rtlAccess = none)
    (act : s.act i = some a) :
    ∃ ur s', machine.Run s ur s' ∧ called ur = [] ∧ s'.mem.rtlAccess = none ∧
      s'.act i = none ∧ ∀ j, j ≠ i → s'.act j = s.act j := by
  have pc : a.pc = .lock := (run_inv run).outside i a act (by rw [free]; rintro ⟨⟩)
  have resumed : s.resumed i = some (a.burst s.now, { s.mem with rtlAccess := some i }) := by
    rw [resumed_of_act act]
    simp [Activation.resume, pc, free]
  have takes : machine.Enabled s (.acquire i a.trans) := ⟨a, act, pc, rfl, by rw [resumed]; rfl⟩
  have moved : machine.next s (.acquire i a.trans) = _ := step_of_resumed resumed
  obtain ⟨ur, s', returns, silent, free', mine, others⟩ :=
    owner_returns (i := i) (run.snoc takes) (by rw [moved])
  refine ⟨.acquire i a.trans :: ur, s', .cons takes returns, ?_, free', mine, fun j other => ?_⟩
  · change called ([.acquire i a.trans] ++ ur) = []
    rw [called_append, silent]
    rfl
  · rw [others j other, moved]
    exact Function.update_of_ne other ..

/-- With the mutex free, all threads inside can return, one after the other. The
list is of all that may be inside. -/
theorem waiters_return (busy : List ι) (run : machine.Run (powerOn io) tr s)
    (free : s.mem.rtlAccess = none) (covers : ∀ i, s.act i ≠ none → i ∈ busy) :
    ∃ ur s', machine.Run s ur s' ∧ called ur = [] ∧ s'.mem.rtlAccess = none ∧
      ∀ i, s'.act i = none := by
  induction busy generalizing tr s with
  | nil =>
    refine ⟨[], s, .refl, rfl, free, fun i => ?_⟩
    by_contra inside
    cases covers i inside
  | cons i busy ih =>
    cases act : s.act i with
    | none =>
      refine ih run free fun j inside => ?_
      rcases List.mem_cons.mp (covers j inside) with rfl | rest
      · exact absurd act inside
      · exact rest
    | some a =>
      obtain ⟨ur, s', back, silent, free', mine, others⟩ := waiter_returns run free act
      obtain ⟨vr, s'', rest, silent', free'', outside⟩ := ih (run.trans back) free' (by
        intro j inside
        have other : j ≠ i := by
          rintro rfl
          exact inside mine
        rw [others j other] at inside
        exact (List.mem_cons.mp (covers j inside)).resolve_left other)
      refine ⟨ur ++ vr, s'', back.trans rest, ?_, free'', outside⟩
      rw [called_append, silent, silent']
      rfl

/-- From every state a run reaches, all calls under way can come back. -/
theorem all_return (run : machine.Run (powerOn io) tr s) :
    ∃ ur s', machine.Run s ur s' ∧ called ur = [] ∧ s'.mem.rtlAccess = none ∧
      ∀ i, s'.act i = none := by
  have listed {tr : List (Event ι)} {s : Initiators ι} (run : machine.Run (powerOn io) tr s)
      (i : ι) (inside : s.act i ≠ none) : i ∈ (called tr).map Prod.fst := by
    obtain ⟨a, act⟩ := Option.ne_none_iff_exists'.mp inside
    exact (run_inv run).called_of_act act
  cases owner : s.mem.rtlAccess with
  | none => exact waiters_return _ run owner (listed run)
  | some i =>
    obtain ⟨ur, s', back, silent, free, _⟩ := owner_returns run owner
    have run' := run.trans back
    obtain ⟨vr, s'', rest, silent', free', outside⟩ := waiters_return _ run' free (listed run')
    refine ⟨ur ++ vr, s'', back.trans rest, ?_, free', outside⟩
    rw [called_append, silent, silent']
    rfl

/-- Whenever the mutex is free the memory and the pipeline are as the calls that
took it leave them, one after another. -/
theorem Inv.served_of_free (inv : Inv m tr s) (free : s.mem.rtlAccess = none) :
    returned tr = replies serveCall m (acquired tr) ∧
      s.mem.pipe.ram = settle serveCall m (acquired tr) ∧ (0 < s.edges → s.mem.pipe.Drained) := by
  cases inv.session with
  | held _ _ _ _ has => rw [free] at has; cases has
  | free _ served idle settled =>
    obtain ⟨quiet, mem⟩ := Pipe.quiet_of_answers idle
    exact ⟨served, mem.trans settled, fun edge => quiet.drained (inv.cleared edge)⟩

/-- The calls that took the mutex have come back, but for the one of the owner. -/
theorem Inv.served_or_held (inv : Inv m tr s) : ∃ ended held, acquired tr = ended ++ held ∧
    held.map Prod.fst = s.mem.rtlAccess.toList ∧ returned tr = replies serveCall m ended := by
  cases inv.session with
  | free free served =>
    exact ⟨acquired tr, [], (List.append_nil _).symm, by rw [free]; rfl, served⟩
  | held i a t before owner _ last served =>
    exact ⟨before, [(i, t)], last, by rw [owner]; rfl, served⟩

/-- The calls of a run made one after another, in the order in which they took the mutex. -/
theorem run_serialised (run : machine.Run (powerOn io) tr s) :
    ∃ ur u, machine.Run (powerOn io) ur u ∧ Serial ur ∧ acquired ur = acquired tr ∧
      u.mem.rtlAccess = none := by
  have resting : Resting 1 (Platform.powerOn io 1) (powerOn io : Initiators ι) := by
    refine ⟨⟨rfl, rfl, ?_⟩, Platform.powerOn_idle io (Or.inl Nat.one_pos), fun _ => rfl⟩
    intro r pending
    cases pending
    exact Or.inr Nat.one_pos
  obtain ⟨ur, u, k, run', serial, resting', all⟩ := exists_serial Nat.one_pos (acquired tr)
    (fun c hc => (acquired_proper run c hc).1) .refl .nil resting
  have kept : (acquired tr).map (fun c => (c.1, c.2.setResponseStatus .ok)) = acquired tr := by
    refine (List.map_congr_left fun c hc => ?_).trans (List.map_id _)
    rw [(acquired_proper run c hc).2]
    rfl
  refine ⟨ur, u, run', serial, ?_, ?_⟩
  · rw [all, kept]
    rfl
  · rw [resting'.mem]
    exact resting'.idle.free

/-- What a run owes to the order in which the mutex was taken. Each call made is
queued for the mutex, is the owner's, or has come back with what it would have
brought alone. Whenever the mutex is free the memory and the pipeline are as such
calls leave them. Calls made one after another in that order give the same
results. And without any further call, all that were made can come back. -/
theorem burst_atomicity (io : IoBlock top0) {tr : List (Event ι)}
    (run : machine.Run (powerOn io) tr s) :
    (∀ i, (called tr).filter (·.1 = i) = (acquired tr).filter (·.1 = i) ++ s.queued i) ∧
    (∃ ended held, acquired tr = ended ++ held ∧ held.map Prod.fst = s.mem.rtlAccess.toList ∧
      returned tr = replies serveCall io.ram ended) ∧
    (s.mem.rtlAccess = none → returned tr = replies serveCall io.ram (acquired tr) ∧
      s.mem.pipe.ram = settle serveCall io.ram (acquired tr) ∧
      (0 < s.edges → s.mem.pipe.Drained)) ∧
    (∃ ur u, machine.Run (powerOn io) ur u ∧ Serial ur ∧ acquired ur = acquired tr ∧
      returned tr <+: returned ur ∧
      (s.mem.rtlAccess = none → returned ur = returned tr ∧ u.mem.pipe.ram = s.mem.pipe.ram)) ∧
    ∃ ur s', machine.Run s ur s' ∧ called ur = [] ∧ s'.mem.rtlAccess = none ∧
      (∀ i, s'.act i = none) ∧
      (∀ i, (called tr).filter (·.1 = i) = (acquired (tr ++ ur)).filter (·.1 = i)) ∧
      returned (tr ++ ur) = replies serveCall io.ram (acquired (tr ++ ur)) ∧
      s'.mem.pipe.ram = settle serveCall io.ram (acquired (tr ++ ur)) := by
  have inv := run_inv run
  refine ⟨inv.queue, inv.served_or_held, inv.served_of_free, ?_, ?_⟩
  · obtain ⟨ur, u, run', serial, same, ended⟩ := run_serialised run
    obtain ⟨served, mem, _⟩ := (run_inv run').served_of_free ended
    rw [same] at served mem
    refine ⟨ur, u, run', serial, same, ?_, fun owner => ?_⟩
    · obtain ⟨ended, held, last, _, served'⟩ := inv.served_or_held
      rw [served, served', last, StreamServer.replies_append]
      exact List.prefix_append ..
    · obtain ⟨served', mem', _⟩ := inv.served_of_free owner
      exact ⟨served.trans served'.symm, mem.trans mem'.symm⟩
  · obtain ⟨ur, s', run', silent, free, outside⟩ := all_return run
    have inv' := inv.run run'
    obtain ⟨served, mem, _⟩ := inv'.served_of_free free
    refine ⟨ur, s', run', silent, free, outside, fun i => ?_, served, mem⟩
    have queue := inv'.queue i
    have empty : s'.queued i = [] := by rw [queued, outside i]
    rwa [called_append, silent, List.append_nil, empty, List.append_nil] at queue

/-- Two harts at one byte: a store of hart 0 and a load of hart 1. -/
def storeByte : Payload := ⟨.write, 5, ⟨[7], DataBuffer.one_fits⟩, .incomplete, none⟩

def loadByte : Payload := ⟨.read, 5, ⟨[0], DataBuffer.one_fits⟩, .incomplete, none⟩

/-- Both harts call before the first edge; hart 1 waits for the mutex. -/
def twoHarts : List (Event (Fin 2)) :=
  [.call 0 storeByte 0, .call 1 loadByte 0, .acquire 0 (storeByte.setResponseStatus .ok), .edge,
    .release, .go 0, .edge, .edge, .edge, .go 0, .ret 0 (storeByte.setResponseStatus .ok),
    .acquire 1 (loadByte.setResponseStatus .ok), .go 1, .edge, .edge, .edge, .go 1,
    .ret 1 { loadByte with data := ⟨[7], DataBuffer.one_fits⟩, responseStatus := .ok }]

theorem storeByte_proper : Proper storeByte := by
  refine ⟨Or.inr rfl, by decide, ?_, by rintro _ ⟨⟩⟩
  unfold Payload.InRange
  decide

theorem loadByte_proper : Proper loadByte := by
  refine ⟨Or.inl rfl, by decide, ?_, by rintro _ ⟨⟩⟩
  unfold Payload.InRange
  decide

theorem twoHarts_run : machine.Run (powerOn Bench.staleBlock) twoHarts
    (machine.after (powerOn Bench.staleBlock) twoHarts) := by
  apply EventMachine.run_of_admits
  refine ⟨⟨rfl, storeByte_proper⟩, ⟨rfl, loadByte_proper⟩, ⟨_, rfl, rfl, rfl, rfl⟩, trivial,
    ⟨rfl, by decide⟩, ⟨_, rfl, by rintro ⟨⟩, by rintro ⟨⟩, rfl⟩, trivial, trivial, trivial,
    ⟨_, rfl, by rintro ⟨⟩, by rintro ⟨⟩, rfl⟩, ⟨_, rfl, rfl, rfl⟩, ⟨_, rfl, rfl, rfl, rfl⟩,
    ⟨_, rfl, by rintro ⟨⟩, by rintro ⟨⟩, rfl⟩, trivial, trivial, trivial,
    ⟨_, rfl, by rintro ⟨⟩, by rintro ⟨⟩, rfl⟩, ⟨_, rfl, rfl, rfl⟩, trivial⟩

theorem burst_atomicity_twoHarts :
    machine.Run (powerOn Bench.staleBlock) twoHarts
        (machine.after (powerOn Bench.staleBlock) twoHarts) ∧
      returned twoHarts = replies serveCall Bench.staleBlock.ram (acquired twoHarts) ∧
      (returned twoHarts).map (fun c => (c.1, c.2.data.bytes, c.2.responseStatus)) =
        [(0, [7], .ok), (1, [7], .ok)] ∧
      (machine.after (powerOn Bench.staleBlock) twoHarts).mem.pipe.ram 5 = 7 ∧
      (machine.after (powerOn Bench.staleBlock) twoHarts).mem.pipe.Drained := by
  have atomic := burst_atomicity Bench.staleBlock twoHarts_run
  obtain ⟨served, mem, drained⟩ := atomic.2.2.1 rfl
  refine ⟨twoHarts_run, served, rfl, ?_, drained (by decide)⟩
  rw [mem]
  rfl

end Initiators
