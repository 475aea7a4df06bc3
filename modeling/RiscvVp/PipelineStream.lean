import RiscvVp.PipelineServer

/-!
# Runs of the pipeline

A producer and a consumer try the two queues between clock edges, as the
threads inside `b_transport` do. Attempts may fail and may be made under
reset; reset is released once, after at least one edge.
-/

/-- The pipeline and the number of rising edges it has seen. -/
structure Bench where
  pipe : Pipe
  edges : Nat

namespace Bench

open StreamServer (replies settle)

inductive Event where
  | nbWrite (w : Word) (accepted : Bool)
  | nbRead (r : Option Word)
  | posedge
  | release

def powerOn (io : IoBlock top0) : Bench := ⟨.powerOn io, 0⟩

def Enabled (b : Bench) : Event → Prop
  | .nbWrite w accepted => (b.pipe.nbWrite w).isSome = accepted
  | .nbRead r => b.pipe.nbRead.map Prod.fst = r
  | .posedge => True
  | .release => b.pipe.rstn = false ∧ 0 < b.edges

instance (b : Bench) : (e : Event) → Decidable (b.Enabled e)
  | .nbWrite _ _ => inferInstanceAs (Decidable (_ = _))
  | .nbRead _ => inferInstanceAs (Decidable (_ = _))
  | .posedge => inferInstanceAs (Decidable True)
  | .release => inferInstanceAs (Decidable (_ ∧ _))

def next (b : Bench) : Event → Bench
  | .nbWrite w _ => { b with pipe := (b.pipe.nbWrite w).getD b.pipe }
  | .nbRead _ => { b with pipe := (b.pipe.nbRead.map Prod.snd).getD b.pipe }
  | .posedge => ⟨b.pipe.posedge, b.edges + 1⟩
  | .release => { b with pipe := b.pipe.releaseReset }

def machine : EventMachine Bench Event := ⟨Enabled, next⟩

instance (b : Bench) (e : Event) : Decidable (machine.Enabled b e) :=
  inferInstanceAs (Decidable (b.Enabled e))

/-- The words the request queue accepted, in push order. -/
def pushed (tr : List Event) : List Word :=
  tr.filterMap (fun | .nbWrite w true => some w | _ => none)

/-- The words read from the response queue. -/
def popped (tr : List Event) : List Word :=
  tr.filterMap (fun | .nbRead r => r | _ => none)

@[simp] theorem pushed_append (tr ur : List Event) : pushed (tr ++ ur) = pushed tr ++ pushed ur :=
  List.filterMap_append ..

@[simp] theorem popped_append (tr ur : List Event) : popped (tr ++ ur) = popped tr ++ popped ur :=
  List.filterMap_append ..

/-- Signals agree, and after the first edge reset leaves nothing behind. -/
structure Valid (b : Bench) : Prop where
  pipe : b.pipe.Valid
  cleared : 0 < b.edges → b.pipe.Cleared

theorem powerOn_valid (io : IoBlock top0) : (powerOn io).Valid :=
  ⟨Pipe.powerOn_valid io, by rintro ⟨⟩⟩

theorem posedge_cleared {p : Pipe} : p.posedge.Cleared := by
  intro reset
  rw [Pipe.posedge_rstn] at reset
  simp [Pipe.posedge, reset]

theorem next_valid {b : Bench} {e : Event} (valid : b.Valid) (he : b.Enabled e) :
    (b.next e).Valid := by
  cases e with
  | nbWrite w accepted =>
    cases hwrite : b.pipe.nbWrite w with
    | none => simpa [next, hwrite] using valid
    | some q =>
      obtain ⟨more, _, hq⟩ := Pipe.nbWrite_eq_some.mp hwrite
      have cleared : 0 < b.edges → q.Cleared := by
        rw [hq]
        exact valid.cleared
      simpa [next, hwrite] using Valid.mk (Pipe.nbWrite_valid valid.pipe hwrite) cleared
  | nbRead r =>
    cases hread : b.pipe.nbRead with
    | none => simpa [next, hread] using valid
    | some wq =>
      obtain ⟨w, q⟩ := wq
      obtain ⟨rest, _, hq⟩ := Pipe.nbRead_eq_some.mp hread
      have cleared : 0 < b.edges → q.Cleared := by
        rw [hq]
        exact valid.cleared
      simpa [next, hread] using Valid.mk (Pipe.nbRead_valid valid.pipe hread) cleared
  | posedge => exact ⟨Pipe.posedge_valid valid.pipe, fun _ => posedge_cleared⟩
  | release => exact ⟨Pipe.releaseReset_valid valid.pipe, by rintro _ ⟨⟩⟩

theorem run_valid {io : IoBlock top0} {tr : List Event} {b : Bench}
    (run : machine.Run (powerOn io) tr b) : b.Valid :=
  run.invariant (fun _ b => b.Valid) (powerOn_valid io) fun _ _ _ => next_valid

/-- The pipeline refines the server: an edge is one serving step or none. -/
structure Refines (tr : List Event) (ur : List (StreamServer.Event Word Word)) (b : Bench)
    (v : StreamServer Ram Word Word) : Prop where
  valid : b.Valid
  server : b.pipe.server = v
  pushed : Bench.pushed tr = StreamServer.pushed ur
  popped : Bench.popped tr = StreamServer.popped ur

theorem Refines.silent {tr : List Event} {ur vr : List (StreamServer.Event Word Word)}
    {b : Bench} {v v' : StreamServer Ram Word Word} {e : Event} (refines : Refines tr ur b v)
    (he : b.Enabled e) (server : (b.next e).pipe.server = v')
    (pushed : Bench.pushed [e] = StreamServer.pushed vr)
    (popped : Bench.popped [e] = StreamServer.popped vr) :
    Refines (tr ++ [e]) (ur ++ vr) (b.next e) v' where
  valid := next_valid refines.valid he
  server := server
  pushed := by rw [pushed_append, StreamServer.pushed_append, refines.pushed, pushed]
  popped := by rw [popped_append, StreamServer.popped_append, refines.popped, popped]

theorem refines_step (tr : List Event) (ur : List (StreamServer.Event Word Word)) (b : Bench)
    (v : StreamServer Ram Word Word) (e : Event) (refines : Refines tr ur b v)
    (he : machine.Enabled b e) :
    ∃ vr v', (StreamServer.machine Ram.access).Run v vr v' ∧
      Refines (tr ++ [e]) (ur ++ vr) (machine.next b e) v' := by
  obtain rfl := refines.server
  cases e with
  | nbWrite w accepted =>
    obtain rfl : (b.pipe.nbWrite w).isSome = accepted := he
    cases hwrite : b.pipe.nbWrite w with
    | none =>
      exact ⟨[], _, .refl, refines.silent (by simp [Enabled, hwrite])
        (by simp [next, hwrite]) rfl rfl⟩
    | some q =>
      have hnext : (b.next (.nbWrite w true)).pipe = q := by simp [next, hwrite]
      have server := (congrArg Pipe.server hnext).trans (Pipe.nbWrite_server hwrite)
      exact ⟨[.push w], _, .single trivial,
        refines.silent (by simp [Enabled, hwrite]) server rfl rfl⟩
  | nbRead r =>
    obtain rfl : b.pipe.nbRead.map Prod.fst = r := he
    cases hread : b.pipe.nbRead with
    | none =>
      exact ⟨[], _, .refl, refines.silent (by simp [Enabled, hread])
        (by simp [next, hread]) rfl rfl⟩
    | some wq =>
      obtain ⟨head, hq⟩ := Pipe.nbRead_server hread
      have hnext : (b.next (.nbRead (some wq.1))).pipe = wq.2 := by simp [next, hread]
      have server := (congrArg Pipe.server hnext).trans hq
      exact ⟨[.pop wq.1], _, .single head,
        refines.silent (by simp [Enabled, hread]) server rfl rfl⟩
  | posedge =>
    have server := Pipe.posedge_server refines.valid.pipe
    cases serves : b.pipe.serves with
    | false =>
      rw [serves, if_neg (by simp)] at server
      exact ⟨[], _, .refl, refines.silent he server rfl rfl⟩
    | true =>
      rw [serves, if_pos rfl] at server
      have pending : b.pipe.server.pend ≠ [] := by
        simp only [Pipe.serves, Bool.and_eq_true] at serves
        simp [Pipe.server, Pipe.reqBeats, serves.2]
      exact ⟨[.serve], _, .single pending, refines.silent he server rfl rfl⟩
  | release =>
    exact ⟨[], _, .refl, refines.silent he
      (Pipe.releaseReset_server (refines.valid.cleared he.2)) rfl rfl⟩

/-- Words read and words still owed are the answers to the words pushed. -/
theorem run_answers {io : IoBlock top0} {tr : List Event} {b : Bench}
    (run : machine.Run (powerOn io) tr b) :
    popped tr ++ b.pipe.answers = replies Ram.access io.ram (pushed tr) ∧
      b.pipe.settled = settle Ram.access io.ram (pushed tr) := by
  have start : Refines [] [] (powerOn io) (.idle io.ram) := ⟨powerOn_valid io, rfl, rfl, rfl⟩
  obtain ⟨ur, v, hrun, refines⟩ := run.simulate Refines refines_step start
  rw [refines.pushed, refines.popped, Pipe.answers, Pipe.settled, refines.server]
  exact StreamServer.run_answers Ram.access hrun

theorem replies_header (m : Ram) (reqs : List Word) :
    (replies Ram.access m reqs).map Word.header = reqs.map Word.header := by
  induction reqs generalizing m with
  | nil => rfl
  | cons w reqs ih => simp [ih, Ram.access_header]

/-- The consumer reads a prefix of the answers to the accepted requests, in
order, and no answer differs from its request above the data byte. -/
theorem popped_prefix_replies (io : IoBlock top0) {tr : List Event} {b : Bench}
    (run : machine.Run (powerOn io) tr b) :
    popped tr <+: replies Ram.access io.ram (pushed tr) ∧
      (popped tr).map Word.header <+: (pushed tr).map Word.header := by
  have ordered : popped tr <+: replies Ram.access io.ram (pushed tr) :=
    ⟨b.pipe.answers, (run_answers run).1⟩
  refine ⟨ordered, ?_⟩
  rw [← replies_header io.ram (pushed tr)]
  exact ordered.map Word.header

/-- Power-on content with a stale word in the output register. -/
def staleBlock : IoBlock top0 := ⟨true, 1, 1, 0, 7, 9, fun _ => 5⟩

/-- A store pushed under reset, then a load of the same address. -/
def storeThenLoad : List Event :=
  [.nbWrite 0x80000207#32 true, .posedge, .release, .posedge, .nbWrite 0x00000200#32 true,
    .posedge, .nbRead none, .posedge, .nbRead (some 0x80000207#32), .posedge,
    .nbRead (some 0x00000207#32)]

theorem storeThenLoad_run :
    machine.Run (powerOn staleBlock) storeThenLoad
      (machine.after (powerOn staleBlock) storeThenLoad) :=
  EventMachine.run_of_admits (by decide)

theorem popped_prefix_replies_storeThenLoad :
    machine.Run (powerOn staleBlock) storeThenLoad
        (machine.after (powerOn staleBlock) storeThenLoad) ∧
      popped storeThenLoad = [0x80000207#32, 0x00000207#32] ∧
      popped storeThenLoad <+: replies Ram.access staleBlock.ram (pushed storeThenLoad) :=
  ⟨storeThenLoad_run, rfl, (popped_prefix_replies staleBlock storeThenLoad_run).1⟩

end Bench
