import RiscvVp.FlatMemory
import RiscvVp.IssPlatform

/-!
# The platform as harts on one memory

Every run of the platform is answered by a run of untimed harts on the flat
memory, each access in one step. An access takes effect where the uncore answers
it or where its call takes the mutex, between its issue and its reply. The
replies come from the atomic run, whatever the clock, the reset and the other
harts do.
-/

namespace Activation

/-- A call leaves the mutex behind when it enters its loop. -/
theorem burst_entered (a : Activation) (now : Nat) : (a.burst now).pc ≠ .lock := by
  rw [burst]
  cases a.trans.extension with
  | none =>
    simp only [blockingHead]
    split <;> rintro ⟨⟩
  | some ext =>
    simp only [pollingHead]
    split <;> rintro ⟨⟩

/-- A burst without the extension never waits for a time. -/
theorem Holding.wake_eq_none {t : Payload} {m : Ram} {p : Pipe} {a : Activation}
    (holding : a.Holding t m p) (plain : t.extension = none) : a.pc.wake = none := by
  obtain ⟨k, j, _, stands⟩ := holding
  cases pc : a.pc with
  | wait ext l wake =>
    rw [pc] at stands
    obtain ⟨paced, _⟩ := stands
    rw [plain] at paced
    cases paced
  | _ => rfl

end Activation

/-- A hart without time, payload and transport. -/
inductive Hart (H : Type) where
  | loop (keepSim : Bool) (proc : H)
  | step (keepSim : Bool) (rest : Ask Mmio Reply H)
  | finished

/-- A refused access lets the instruction end and the loop with it. -/
def Hart.client {H : Type} (proc : Processor H) : Client (Hart H) Mmio Reply where
  request
    | .step _ (.ask a _) => some a
    | _ => none
  receive
    | .step keepSim (.ask _ next), r => .step (keepSim && r.done) (next r)
    | h, _ => h
  work
    | .loop true h, t => t = .step true (proc h)
    | .loop false _, t => t = .finished
    | .step keepSim (.done h), t => t = .loop keepSim h
    | _, _ => False

/-- Harts at the heads of their loops. -/
def Hart.powerOn {ι H : Type} (m : Nat → Byte) (proc : ι → H) :
    SharedObject ι (Nat → Byte) (Hart H) :=
  ⟨m, fun i => .loop true (proc i)⟩

/-- The hart in a thread that is not accessing the memory. -/
def Hart.of {H : Type} (m : SpikeModule H) : Option (Hart H) :=
  match m.pc with
  | .loop proc => some (.loop m.keepSim proc)
  | .step rest => some (.step m.keepSim rest)
  | .transport _ _ => none
  | .delayed _ _ _ => none
  | .paused proc _ => some (.loop m.keepSim proc)
  | .finished => some .finished

/-- The address map has no overlap, and the Spike bus serves its two devices. -/
structure IssConfig.Maps {H B : Type} (cfg : IssConfig H B) : Prop where
  laid : Uncore.Laid cfg.ucfg
  roomy : Uncore.Roomy cfg.ucfg
  serves : cfg.spikeBus.Serves (Uncore.bootRom cfg.ucfg) (Uncore.spikeRam cfg.ucfg)
  keeps : cfg.spikeBus.KeepsLength

/-- The harts without time on the flat memory. -/
abbrev IssConfig.atomic {ι H B : Type} [DecidableEq ι] (cfg : IssConfig H B) :
    EventMachine (SharedObject ι (Nat → Byte) (Hart H)) (SharedObject.Event ι (Hart H) Mmio) :=
  SharedObject.machine (fun _ => Hart.client cfg.proc) (FlatMemory.access cfg.ucfg)

namespace IssPlatform

open StreamServer (settle)
open Initiators (serveCall acquired)
open SharedObject (accesses answers)
open FlatMemory (flatten queued Queues)

variable {ι H B : Type} [DecidableEq ι]

section Relation
variable (ucfg : Ucfg) (m₀ : Ram)

/-- Hart i and its atomic counterpart, which is past an access as soon as the
access took effect. The lists hold the accesses that have not taken effect and
the replies that have not reached the processor. -/
inductive Stands (calls : List (ι × Payload)) (i : ι) (m : SpikeModule H) (o : Option Activation)
    (h : Hart H) : List Mmio → List Reply → Prop
  | loop {proc : H} (pc : m.pc = .loop proc) (outside : o = none)
      (hart : h = .loop m.keepSim proc) : Stands calls i m o h [] []
  | paused {proc : H} {wake : Nat} (pc : m.pc = .paused proc wake) (outside : o = none)
      (hart : h = .loop m.keepSim proc) : Stands calls i m o h [] []
  | step {rest : Ask Mmio Reply H} (pc : m.pc = .step rest) (outside : o = none)
      (hart : h = .step m.keepSim rest) : Stands calls i m o h [] []
  | waiting {a : Mmio} {next : Reply → Ask Mmio Reply H} (pc : m.pc = .transport a next)
      (queues : Queues ucfg a) (call : o = some ⟨queued ucfg a, scNs 7, .lock⟩)
      (hart : h = .step m.keepSim (.ask a next)) : Stands calls i m o h [a] []
  | inside {a : Mmio} {next : Reply → Ask Mmio Reply H} {act : Activation}
      {before : List (ι × Payload)} {r : Reply} (pc : m.pc = .transport a next)
      (call : o = some act) (entered : act.pc ≠ .lock)
      (last : calls = before ++ [(i, queued ucfg a)])
      (reply : r = ⟨true, ((queued ucfg a).serve (settle serveCall m₀ before)).1.data⟩)
      (hart : h = .step m.keepSim (next r)) : Stands calls i m o h [] [r]
  | delayed {a : Mmio} {next : Reply → Ask Mmio Reply H} {wake : Nat} {r : Reply}
      (pc : m.pc = .delayed a next wake) (outside : o = none)
      (expected : m.trans.responseStatus = .ok ∨ m.trans.responseStatus = .genericError)
      (reply : r = ⟨m.trans.responseStatus == .ok, m.trans.data⟩)
      (hart : h = .step (m.keepSim && r.done) (next r)) : Stands calls i m o h [] [r]
  | finished (pc : m.pc = .finished) (outside : o = none) (hart : h = .finished) :
      Stands calls i m o h [] []

/-- The access for which hart i waits at the mutex. -/
def queueing (s : IssPlatform ι H B) (i : ι) : List Mmio :=
  match (s.spike i).pc, s.act i with
  | .transport a _, some ⟨_, _, .lock⟩ => [a]
  | _, _ => []

/-- How many replies are on their way to hart i. -/
def unanswered (s : IssPlatform ι H B) (i : ι) : Nat :=
  match (s.spike i).pc, s.act i with
  | .transport _ _, some ⟨_, _, .lock⟩ => 0
  | .transport _ _, _ => 1
  | .delayed _ _ _, _ => 1
  | _, _ => 0

/-- Hart i in the traces: what it issued has taken effect but for what waits,
and what took effect has been answered but for what is owed. -/
def Attends (flat₀ : Nat → Byte) (calls : List (ι × Payload)) (tr : List (Event ι)) (i : ι)
    (m : SpikeModule H) (o : Option Activation) (h : Hart H) : Prop :=
  ∃ waiting owed, Stands ucfg m₀ calls i m o h waiting owed ∧
    (issued tr).filter (·.1 = i) = (taken tr).filter (·.1 = i) ++ waiting.map (i, ·) ∧
    (answers (FlatMemory.access ucfg) flat₀ (taken tr)).filter (·.1 = i) =
      (got tr).filter (·.1 = i) ++ owed.map (i, ·)

end Relation

/-- The run of the platform, with the calls of its RTL memory, and the atomic run. -/
structure Follows (cfg : IssConfig H B) (m₀ : Ram) (flat₀ : Nat → Byte) (tr : List (Event ι))
    (s : IssPlatform ι H B) (vr : List (Initiators.Event ι)) (c : Initiators ι)
    (ur : List (SharedObject.Event ι (Hart H) Mmio))
    (u : SharedObject ι (Nat → Byte) (Hart H)) : Prop
    extends Initiators.Shares s.toPlatform c where
  act : c.act = s.act
  inv : Initiators.Inv m₀ vr c
  timed : s.toPlatform.Timed cfg.clkPeriod
  plain : ∀ i, (s.spike i).trans.extension = none
  bytes : u.mem = flatten cfg.ucfg cfg.spikeBus s.bus (settle serveCall m₀ (acquired vr))
  stream : u.mem = settle (SharedObject.serve (FlatMemory.access cfg.ucfg)) flat₀ (taken tr)
  order : accesses ur = taken tr
  harts : ∀ i, Attends cfg.ucfg m₀ flat₀ (acquired vr) tr i (s.spike i) (s.act i) (u.client i)

section Steps
variable {cfg : IssConfig H B} {m₀ : Ram} {flat₀ : Nat → Byte} {tr : List (Event ι)}
  {s s' : IssPlatform ι H B} {vr vr' : List (Initiators.Event ι)} {c c' : Initiators ι}
  {ur ur' : List (SharedObject.Event ι (Hart H) Mmio)} {u u' : SharedObject ι (Nat → Byte) (Hart H)}
  {e : Event ι} {i : ι}

/-- The event is none of hart i's. -/
def Spares (i : ι) (e : Event ι) : Prop :=
  (∀ c ∈ issued [e], c.1 ≠ i) ∧ (∀ c ∈ taken [e], c.1 ≠ i) ∧ ∀ c ∈ got [e], c.1 ≠ i

/-- The event is hart i's, or nobody's. -/
def Owned (i : ι) (e : Event ι) : Prop :=
  (∀ c ∈ issued [e], c.1 = i) ∧ (∀ c ∈ taken [e], c.1 = i) ∧ ∀ c ∈ got [e], c.1 = i

omit [DecidableEq ι] in
theorem Owned.spares {j : ι} (owned : Owned i e) (other : j ≠ i) : Spares j e := by
  obtain ⟨issue, take, reply⟩ := owned
  refine ⟨fun c hc tag => ?_, fun c hc tag => ?_, fun c hc tag => ?_⟩
  · exact other (tag.symm.trans (issue c hc))
  · exact other (tag.symm.trans (take c hc))
  · exact other (tag.symm.trans (reply c hc))

theorem filter_of_ne {α : Type} {l : List (ι × α)} (others : ∀ c ∈ l, c.1 ≠ i) :
    l.filter (·.1 = i) = [] := by
  apply List.filter_eq_nil_iff.mpr
  intro c hc
  simpa using others c hc

theorem Attends.pass {calls : List (ι × Payload)} {m : SpikeModule H} {o : Option Activation}
    {h : Hart H} (att : Attends cfg.ucfg m₀ flat₀ calls tr i m o h) (spares : Spares i e) :
    Attends cfg.ucfg m₀ flat₀ calls (tr ++ [e]) i m o h := by
  obtain ⟨waiting, owed, stands, issues, replies⟩ := att
  obtain ⟨noIssue, noTake, noReply⟩ := spares
  refine ⟨waiting, owed, stands, ?_, ?_⟩
  · rw [issued_append, taken_append, List.filter_append, List.filter_append, filter_of_ne noIssue,
      filter_of_ne noTake, List.append_nil, List.append_nil, issues]
  · have unasked (m : Nat → Byte) :
        ∀ r ∈ answers (FlatMemory.access cfg.ucfg) m (taken [e]), r.1 ≠ i := by
      intro r hr same
      obtain ⟨c, hc, _, rfl⟩ := SharedObject.served_of_mem_answers hr
      exact noTake c hc same
    rw [taken_append, got_append, SharedObject.answers_append, List.filter_append,
      List.filter_append, filter_of_ne (unasked _), filter_of_ne noReply, List.append_nil,
      List.append_nil, replies]

omit [DecidableEq ι] in
/-- A hart with a call inside the memory is in its transport. -/
theorem Stands.transport_of_act {calls : List (ι × Payload)} {m : SpikeModule H}
    {o : Option Activation} {h : Hart H} {waiting : List Mmio} {owed : List Reply}
    {act : Activation} (stands : Stands cfg.ucfg m₀ calls i m o h waiting owed)
    (here : o = some act) : ∃ a next, m.pc = .transport a next := by
  cases stands with
  | waiting pc => exact ⟨_, _, pc⟩
  | inside pc => exact ⟨_, _, pc⟩
  | loop _ outside => rw [outside] at here; cases here
  | paused _ outside => rw [outside] at here; cases here
  | step _ outside => rw [outside] at here; cases here
  | delayed _ outside => rw [outside] at here; cases here
  | finished _ outside => rw [outside] at here; cases here

omit [DecidableEq ι] in
/-- The lists hold what is under way, as the state shows it. -/
theorem Stands.under_way {calls : List (ι × Payload)} {h : Hart H} {waiting : List Mmio}
    {owed : List Reply}
    (stands : Stands cfg.ucfg m₀ calls i (s.spike i) (s.act i) h waiting owed) :
    waiting = s.queueing i ∧ owed.length = s.unanswered i := by
  rw [queueing, unanswered]
  cases stands with
  | loop pc => simp [pc]
  | paused pc => simp [pc]
  | step pc => simp [pc]
  | waiting pc _ call => simp [pc, call]
  | @inside a next act before r pc call entered =>
    obtain ⟨trans, delay, apc⟩ := act
    rw [pc, call]
    cases apc with
    | lock => exact absurd rfl entered
    | _ => exact ⟨rfl, rfl⟩
  | delayed pc outside => simp [pc, outside]
  | finished pc => simp [pc]

omit [DecidableEq ι] in
/-- A hart about to access the memory stands still. -/
theorem Stands.of_ask {calls : List (ι × Payload)} {m : SpikeModule H} {o : Option Activation}
    {h : Hart H} {waiting : List Mmio} {owed : List Reply} {a : Mmio}
    {next : Reply → Ask Mmio Reply H} (stands : Stands cfg.ucfg m₀ calls i m o h waiting owed)
    (pc : m.pc = .step (.ask a next)) :
    waiting = [] ∧ owed = [] ∧ o = none ∧ h = .step m.keepSim (.ask a next) := by
  cases stands with
  | step pc' outside hart =>
    rw [pc] at pc'
    cases pc'
    exact ⟨rfl, rfl, outside, hart⟩
  | loop pc' => rw [pc] at pc'; cases pc'
  | paused pc' => rw [pc] at pc'; cases pc'
  | waiting pc' => rw [pc] at pc'; cases pc'
  | inside pc' => rw [pc] at pc'; cases pc'
  | delayed pc' => rw [pc] at pc'; cases pc'
  | finished pc' => rw [pc] at pc'; cases pc'

omit [DecidableEq ι] in
/-- A call that queues for the mutex is the one its hart waits for. -/
theorem Stands.of_lock {calls : List (ι × Payload)} {m : SpikeModule H} {o : Option Activation}
    {h : Hart H} {waiting : List Mmio} {owed : List Reply} {a : Mmio}
    {next : Reply → Ask Mmio Reply H} {act : Activation}
    (stands : Stands cfg.ucfg m₀ calls i m o h waiting owed) (pc : m.pc = .transport a next)
    (here : o = some act) (lock : act.pc = .lock) :
    waiting = [a] ∧ owed = [] ∧ Queues cfg.ucfg a ∧ act = ⟨queued cfg.ucfg a, scNs 7, .lock⟩ ∧
      h = .step m.keepSim (.ask a next) := by
  cases stands with
  | waiting pc' queues call hart =>
    rw [pc] at pc'
    cases pc'
    rw [here, Option.some.injEq] at call
    exact ⟨rfl, rfl, queues, call, hart⟩
  | inside _ call entered =>
    rw [here, Option.some.injEq] at call
    subst call
    exact absurd lock entered
  | loop _ outside => rw [outside] at here; cases here
  | paused _ outside => rw [outside] at here; cases here
  | step _ outside => rw [outside] at here; cases here
  | delayed _ outside => rw [outside] at here; cases here
  | finished _ outside => rw [outside] at here; cases here

omit [DecidableEq ι] in
/-- A call past the mutex is the last one that took it. -/
theorem Stands.of_entered {calls : List (ι × Payload)} {m : SpikeModule H} {o : Option Activation}
    {h : Hart H} {waiting : List Mmio} {owed : List Reply} {act : Activation}
    (stands : Stands cfg.ucfg m₀ calls i m o h waiting owed) (here : o = some act)
    (entered : act.pc ≠ .lock) : ∃ a next before, m.pc = .transport a next ∧ waiting = [] ∧
      owed = [⟨true, ((queued cfg.ucfg a).serve (settle serveCall m₀ before)).1.data⟩] ∧
      calls = before ++ [(i, queued cfg.ucfg a)] ∧ h = .step m.keepSim
        (next ⟨true, ((queued cfg.ucfg a).serve (settle serveCall m₀ before)).1.data⟩) := by
  cases stands with
  | waiting _ _ call =>
    rw [here, Option.some.injEq] at call
    subst call
    exact absurd rfl entered
  | inside pc _ _ last reply hart =>
    subst reply
    exact ⟨_, _, _, pc, rfl, rfl, last, hart⟩
  | loop _ outside => rw [outside] at here; cases here
  | paused _ outside => rw [outside] at here; cases here
  | step _ outside => rw [outside] at here; cases here
  | delayed _ outside => rw [outside] at here; cases here
  | finished _ outside => rw [outside] at here; cases here

omit [DecidableEq ι] in
/-- A hart whose call is not past the mutex does not depend on the calls that took it. -/
theorem Stands.recall {calls calls' : List (ι × Payload)} {m : SpikeModule H}
    {o : Option Activation} {h : Hart H} {waiting : List Mmio} {owed : List Reply}
    (stands : Stands cfg.ucfg m₀ calls i m o h waiting owed)
    (queues : ∀ act, o = some act → act.pc = .lock) :
    Stands cfg.ucfg m₀ calls' i m o h waiting owed := by
  cases stands with
  | inside _ call entered => exact absurd (queues _ call) entered
  | loop pc outside hart => exact .loop pc outside hart
  | paused pc outside hart => exact .paused pc outside hart
  | step pc outside hart => exact .step pc outside hart
  | waiting pc takes call hart => exact .waiting pc takes call hart
  | delayed pc outside expected reply hart => exact .delayed pc outside expected reply hart
  | finished pc outside hart => exact .finished pc outside hart

omit [DecidableEq ι] in
/-- A reply has one of the two statuses that the switch knows. -/
theorem Stands.expected_of_delayed {calls : List (ι × Payload)} {m : SpikeModule H}
    {o : Option Activation} {h : Hart H} {waiting : List Mmio} {owed : List Reply} {a : Mmio}
    {next : Reply → Ask Mmio Reply H} {wake : Nat}
    (stands : Stands cfg.ucfg m₀ calls i m o h waiting owed) (pc : m.pc = .delayed a next wake) :
    m.trans.responseStatus = .ok ∨ m.trans.responseStatus = .genericError := by
  cases stands with
  | delayed _ _ expected => exact expected
  | loop pc' => rw [pc] at pc'; cases pc'
  | paused pc' => rw [pc] at pc'; cases pc'
  | step pc' => rw [pc] at pc'; cases pc'
  | waiting pc' => rw [pc] at pc'; cases pc'
  | inside pc' => rw [pc] at pc'; cases pc'
  | finished pc' => rw [pc] at pc'; cases pc'

omit [DecidableEq ι] in
theorem Stands.client_of_apart {calls : List (ι × Payload)} {m : SpikeModule H}
    {o : Option Activation} {h h' : Hart H} {waiting : List Mmio} {owed : List Reply}
    (stands : Stands cfg.ucfg m₀ calls i m o h waiting owed) (apart : Hart.of m = some h') :
    h = h' := by
  cases stands with
  | loop pc _ hart => simpa only [Hart.of, pc, ← hart, Option.some.injEq] using apart
  | paused pc _ hart => simpa only [Hart.of, pc, ← hart, Option.some.injEq] using apart
  | step pc _ hart => simpa only [Hart.of, pc, ← hart, Option.some.injEq] using apart
  | finished pc _ hart => simpa only [Hart.of, pc, ← hart, Option.some.injEq] using apart
  | waiting pc => simp only [Hart.of, pc] at apart; cases apart
  | inside pc => simp only [Hart.of, pc] at apart; cases apart
  | delayed pc => simp only [Hart.of, pc] at apart; cases apart

theorem Follows.resumed (fol : Follows cfg m₀ flat₀ tr s vr c ur u) (i : ι) :
    c.resumed i = s.resumed i := by
  rw [Initiators.resumed, IssPlatform.resumed, fol.act, fol.now, fol.mem]

/-- What the uncore makes of an access is what the flat memory does. -/
theorem Follows.transport_cases (maps : cfg.Maps) (fol : Follows cfg m₀ flat₀ tr s vr c ur u)
    (i : ι) (a : Mmio) :
    (s.outcome cfg i a = .queued ⟨queued cfg.ucfg a, scNs 7, .lock⟩ ∧ Queues cfg.ucfg a) ∨
      ∃ trans delay bus, s.outcome cfg i a = .answered trans delay bus ∧
        FlatMemory.Answers cfg.ucfg cfg.spikeBus a s.bus bus trans := by
  have payload : s.outcome cfg i a =
      Uncore.transport cfg.ucfg cfg.spikeBus s.bus a.payload 0 := by
    rw [outcome, SpikeModule.request, Mmio.setOn_eq_payload a (fol.plain i)]
  rw [payload]
  exact FlatMemory.transport_cases maps.laid maps.roomy maps.serves maps.keeps s.bus a

/-- A step of hart i leaves the others where they stand. -/
theorem Follows.moved {m : SpikeModule H} {o : Option Activation} {h : Hart H}
    (fol : Follows cfg m₀ flat₀ tr s vr c ur u) (owned : Owned i e)
    (shares : Initiators.Shares s'.toPlatform c') (act : c'.act = s'.act)
    (inv : Initiators.Inv m₀ vr' c') (timed : s'.toPlatform.Timed cfg.clkPeriod)
    (spike : s'.spike = Function.update s.spike i m) (acts : s'.act = Function.update s.act i o)
    (client : u'.client = Function.update u.client i h) (plain : m.trans.extension = none)
    (bytes : u'.mem = flatten cfg.ucfg cfg.spikeBus s'.bus (settle serveCall m₀ (acquired vr')))
    (stream : u'.mem =
      settle (SharedObject.serve (FlatMemory.access cfg.ucfg)) flat₀ (taken (tr ++ [e])))
    (order : accesses ur' = taken (tr ++ [e]))
    (calls : ∀ j, j ≠ i → ∀ waiting owed,
      Stands cfg.ucfg m₀ (acquired vr) j (s.spike j) (s.act j) (u.client j) waiting owed →
      Stands cfg.ucfg m₀ (acquired vr') j (s.spike j) (s.act j) (u.client j) waiting owed)
    (mine : Attends cfg.ucfg m₀ flat₀ (acquired vr') (tr ++ [e]) i m o h) :
    Follows cfg m₀ flat₀ (tr ++ [e]) s' vr' c' ur' u' := by
  refine ⟨shares, act, inv, timed, fun j => ?_, bytes, stream, order, fun j => ?_⟩
  · rw [spike]
    by_cases same : j = i
    · subst same
      rw [Function.update_self]
      exact plain
    · rw [Function.update_of_ne same]
      exact fol.plain j
  · rw [spike, acts, client]
    by_cases same : j = i
    · subst same
      rw [Function.update_self, Function.update_self, Function.update_self]
      exact mine
    · obtain ⟨waiting, owed, stands, traces⟩ := fol.harts j
      rw [Function.update_of_ne same, Function.update_of_ne same, Function.update_of_ne same]
      exact Attends.pass ⟨waiting, owed, calls j same _ _ stands, traces⟩ (owned.spares same)

/-- An event of the clock, of reset or of time. -/
theorem Follows.quiet (fol : Follows cfg m₀ flat₀ tr s vr c ur u) {v : Initiators.Event ι}
    (he : c.Enabled v) (shares : Initiators.Shares s'.toPlatform (c.next v))
    (timed : s'.toPlatform.Timed cfg.clkPeriod) (act : s'.act = s.act) (spike : s'.spike = s.spike)
    (bus : s'.bus = s.bus) (kept : (c.next v).act = c.act) (silent : acquired [v] = [])
    (spares : ∀ i, Spares i e) (untaken : taken [e] = []) :
    Follows cfg m₀ flat₀ (tr ++ [e]) s' (vr ++ [v]) (c.next v) ur u := by
  have calls : acquired (vr ++ [v]) = acquired vr := by
    rw [Initiators.acquired_append, silent, List.append_nil]
  have same : taken (tr ++ [e]) = taken tr := by rw [taken_append, untaken, List.append_nil]
  refine ⟨shares, ?_, fol.inv.next he, timed, ?_, ?_, ?_, ?_, fun i => ?_⟩
  · rw [kept, act]
    exact fol.act
  · rw [spike]
    exact fol.plain
  · rw [bus, calls]
    exact fol.bytes
  · rw [same]
    exact fol.stream
  · rw [same]
    exact fol.order
  · rw [spike, act, calls]
    exact (fol.harts i).pass (spares i)

theorem Follows.edge (fol : Follows cfg m₀ flat₀ tr s vr c ur u) (he : s.Possible cfg .edge) :
    Follows cfg m₀ flat₀ (tr ++ [.edge]) (s.next cfg .edge) (vr ++ [.edge]) (c.next .edge)
      ur u := by
  refine fol.quiet (v := .edge) trivial ⟨fol.now, ?_, fun _ _ => Or.inl (Nat.succ_pos _)⟩
    (next_timed fol.timed he) rfl rfl rfl rfl rfl (fun i => ⟨?_, ?_, ?_⟩) rfl
  · rw [Initiators.next, fol.mem]
    rfl
  all_goals rintro _ ⟨⟩

theorem Follows.release (fol : Follows cfg m₀ flat₀ tr s vr c ur u)
    (he : s.Possible cfg .release) :
    Follows cfg m₀ flat₀ (tr ++ [.release]) (s.next cfg .release) (vr ++ [.release])
      (c.next .release) ur u := by
  have due : s.release = some s.now := he
  have reset := fol.timed.reset
  have soon := fol.timed.edge_due
  simp only [Platform.ResetPending, due] at reset
  have edges : 0 < c.edges := by
    rcases fol.edges _ due with seen | later
    · exact seen
    · omega
  refine fol.quiet (v := .release) ⟨by rw [fol.mem]; exact reset.1, edges⟩
    ⟨fol.now, ?_, by rintro _ ⟨⟩⟩ (next_timed fol.timed he) rfl rfl rfl rfl rfl
    (fun i => ⟨?_, ?_, ?_⟩) rfl
  · rw [Initiators.next, fol.mem]
    rfl
  all_goals rintro _ ⟨⟩

theorem Follows.advance {t : Nat} (fol : Follows cfg m₀ flat₀ tr s vr c ur u)
    (he : s.Possible cfg (.advance t)) :
    Follows cfg m₀ flat₀ (tr ++ [.advance t]) (s.next cfg (.advance t)) (vr ++ [.advance t])
      (c.next (.advance t)) ur u := by
  obtain ⟨later, _, _, _, blocked⟩ := id he
  refine fol.quiet (v := .advance t) ⟨fol.now ▸ later, ?_⟩ ⟨rfl, fol.mem, fol.edges⟩
    (next_timed fol.timed he) rfl rfl rfl rfl rfl (fun i => ⟨?_, ?_, ?_⟩) rfl
  · intro j act here
    rw [fol.act] at here
    obtain ⟨_, _, stands, _⟩ := fol.harts j
    obtain ⟨_, _, pc⟩ := stands.transport_of_act here
    have waits := blocked j
    simp only [Blocked, pc] at waits
    exact waits.2 act here
  all_goals rintro _ ⟨⟩

theorem Follows.scStart (fol : Follows cfg m₀ flat₀ tr s vr c ur u) :
    Follows cfg m₀ flat₀ (tr ++ [.scStart]) (s.next cfg .scStart) vr c ur u := by
  have same : taken (tr ++ [Event.scStart]) = taken tr := by
    rw [taken_append]
    exact List.append_nil _
  refine ⟨⟨fol.now, fol.mem, fol.edges⟩, fol.act, fol.inv, fol.timed, fol.plain, fol.bytes, ?_, ?_,
    fun i => (fol.harts i).pass ⟨?_, ?_, ?_⟩⟩
  · rw [same]
    exact fol.stream
  · rw [same]
    exact fol.order
  all_goals rintro _ ⟨⟩

/-- The position of a hart decides how it stands. -/
theorem Follows.attends (fol : Follows cfg m₀ flat₀ tr s vr c ur u) (i : ι) :
    ∃ waiting owed, Stands cfg.ucfg m₀ (acquired vr) i (s.spike i) (s.act i) (u.client i)
        waiting owed ∧
      (issued tr).filter (·.1 = i) = (taken tr).filter (·.1 = i) ++ waiting.map (i, ·) ∧
      (answers (FlatMemory.access cfg.ucfg) flat₀ (taken tr)).filter (·.1 = i) =
        (got tr).filter (·.1 = i) ++ owed.map (i, ·) := fol.harts i

/-- What hart i does without the memory: a step of its own, or the end of a wait. -/
theorem Follows.own {m : SpikeModule H} {h : Hart H}
    (fol : Follows cfg m₀ flat₀ tr s vr c ur u) (platform : s'.toPlatform = s.toPlatform)
    (bus : s'.bus = s.bus) (acts : s'.act = s.act)
    (spike : s'.spike = Function.update s.spike i m) (trans : m.trans = (s.spike i).trans)
    (silent : issued [e] = [] ∧ taken [e] = []) (mine : ∀ r ∈ got [e], r.1 = i)
    (mem : u'.mem = u.mem) (client : u'.client = Function.update u.client i h)
    (order : accesses ur' = accesses ur)
    (att : Attends cfg.ucfg m₀ flat₀ (acquired vr) (tr ++ [e]) i m (s.act i) h) :
    Follows cfg m₀ flat₀ (tr ++ [e]) s' vr c ur' u' := by
  obtain ⟨noIssue, noTake⟩ := silent
  have same : taken (tr ++ [e]) = taken tr := by rw [taken_append, noTake, List.append_nil]
  have owned : Owned i e := by
    refine ⟨?_, ?_, mine⟩
    · rw [noIssue]
      rintro _ ⟨⟩
    · rw [noTake]
      rintro _ ⟨⟩
  refine fol.moved owned ?_ (by rw [acts]; exact fol.act) fol.inv ?_ spike ?_ client ?_ ?_ ?_ ?_
    (fun _ _ _ _ stands => stands) att
  · rw [platform]
    exact fol.toShares
  · rw [platform]
    exact fol.timed
  · rw [acts, Function.update_eq_self]
  · rw [trans]
    exact fol.plain i
  · rw [mem, bus]
    exact fol.bytes
  · rw [mem, same]
    exact fol.stream
  · rw [order, same]
    exact fol.order

theorem Attends.keep {calls : List (ι × Payload)} {waiting : List Mmio} {owed : List Reply}
    {m : SpikeModule H} {o : Option Activation} {h : Hart H}
    (silent : issued [e] = [] ∧ taken [e] = [] ∧ got [e] = [])
    (issues : (issued tr).filter (·.1 = i) = (taken tr).filter (·.1 = i) ++ waiting.map (i, ·))
    (replies : (answers (FlatMemory.access cfg.ucfg) flat₀ (taken tr)).filter (·.1 = i) =
      (got tr).filter (·.1 = i) ++ owed.map (i, ·))
    (stands : Stands cfg.ucfg m₀ calls i m o h waiting owed) :
    Attends cfg.ucfg m₀ flat₀ calls (tr ++ [e]) i m o h := by
  obtain ⟨noIssue, noTake, noReply⟩ := silent
  refine ⟨waiting, owed, stands, ?_, ?_⟩
  · rw [issued_append, taken_append, noIssue, noTake, List.append_nil, List.append_nil]
    exact issues
  · rw [taken_append, got_append, noTake, noReply, List.append_nil, List.append_nil]
    exact replies

theorem Follows.work (fol : Follows cfg m₀ flat₀ tr s vr c ur u)
    (he : s.Possible cfg (.work i)) : ∃ wr u', cfg.atomic.Run u wr u' ∧
      Follows cfg m₀ flat₀ (tr ++ [.work i]) (s.next cfg (.work i)) vr c (ur ++ wr) u' := by
  obtain ⟨m, work⟩ := Option.isSome_iff_exists.mp he
  obtain ⟨waiting, owed, stands, issues, replies⟩ := fol.attends i
  have step {h : Hart H} (worked : (Hart.client cfg.proc).work (u.client i) h) :
      ∃ u', cfg.atomic.Run u [.work i h] u' ∧ u'.mem = u.mem ∧
        u'.client = Function.update u.client i h := ⟨_, .single worked, rfl, rfl⟩
  have silent (h : Hart H) : accesses (ur ++ [.work i h]) = accesses ur := by
    rw [SharedObject.accesses_append]
    exact List.append_nil _
  rw [next_work work]
  simp only [SpikeModule.work] at work
  cases stands with
  | loop pc outside hart =>
    rw [pc, Option.some.injEq] at work
    cases keep : (s.spike i).keepSim with
    | true =>
      rw [keep, if_pos rfl] at work
      obtain ⟨u', run, mem, client⟩ := step (h := .step true (cfg.proc _)) (by rw [hart, keep]; rfl)
      subst work
      exact ⟨_, u', run, fol.own rfl rfl rfl rfl rfl ⟨rfl, rfl⟩ (by rintro _ ⟨⟩) mem client
        (silent _) (.keep ⟨rfl, rfl, rfl⟩ issues replies (.step rfl outside rfl))⟩
    | false =>
      rw [keep, if_neg Bool.false_ne_true] at work
      obtain ⟨u', run, mem, client⟩ := step (h := .finished) (by rw [hart, keep]; rfl)
      subst work
      exact ⟨_, u', run, fol.own rfl rfl rfl rfl rfl ⟨rfl, rfl⟩ (by rintro _ ⟨⟩) mem client
        (silent _) (.keep ⟨rfl, rfl, rfl⟩ issues replies (.finished rfl outside rfl))⟩
  | paused pc outside hart =>
    rw [pc, Option.ite_none_right_eq_some, Option.some.injEq] at work
    obtain ⟨_, rfl⟩ := work
    refine ⟨[], u, .refl, fol.own rfl rfl rfl rfl rfl ⟨rfl, rfl⟩ (by rintro _ ⟨⟩) rfl
      (Function.update_eq_self i u.client).symm (by rw [List.append_nil])
      (.keep ⟨rfl, rfl, rfl⟩ issues replies (.loop rfl outside hart))⟩
  | @step rest pc outside hart =>
    rw [pc] at work
    cases rest with
    | ask a next => cases work
    | done proc =>
      rw [Option.some.injEq] at work
      obtain ⟨u', run, mem, client⟩ := step (h := .loop _ proc) (by rw [hart]; rfl)
      subst work
      exact ⟨_, u', run, fol.own rfl rfl rfl rfl rfl ⟨rfl, rfl⟩ (by rintro _ ⟨⟩) mem client
        (silent _) (.keep ⟨rfl, rfl, rfl⟩ issues replies (.paused rfl outside rfl))⟩
  | waiting pc => rw [pc] at work; cases work
  | inside pc => rw [pc] at work; cases work
  | delayed pc => rw [pc] at work; cases work
  | finished pc => rw [pc] at work; cases work

theorem Follows.respond {a : Mmio} {r : Reply} (fol : Follows cfg m₀ flat₀ tr s vr c ur u)
    (he : s.Possible cfg (.respond i a r)) :
    Follows cfg m₀ flat₀ (tr ++ [.respond i a r]) (s.next cfg (.respond i a r)) vr c ur u := by
  obtain ⟨next, keepSim, pc, response⟩ := he
  obtain ⟨waiting, owed, stands, issues, replies⟩ := fol.attends i
  cases stands with
  | @delayed b after wake r' pc' outside expected reply hart =>
    rw [pc] at pc'
    cases pc'
    have answer : r' = r ∧ keepSim = ((s.spike i).keepSim && r'.done) := by
      rw [reply]
      rcases expected with ok | error
      · rw [SpikeModule.respond_ok ok] at response
        cases response
        simp [ok]
      · rw [SpikeModule.respond_error error] at response
        cases response
        simp [error]
    obtain ⟨rfl, keep⟩ := answer
    have replied : (s.spike i).replied =
        { s.spike i with keepSim := keepSim, pc := .step (next r') } := by
      simp only [SpikeModule.replied, pc, response]
    have after : Stands cfg.ucfg m₀ (acquired vr) i (s.spike i).replied (s.act i) (u.client i)
        [] [] := by
      rw [replied]
      exact .step rfl outside (by rw [hart, keep])
    refine fol.own (i := i) rfl rfl rfl rfl (by rw [replied]) ⟨rfl, rfl⟩ ?_ rfl
      (Function.update_eq_self i u.client).symm rfl ⟨[], [], after, ?_, ?_⟩
    · rintro _ hr
      cases List.mem_singleton.mp hr
      rfl
    · rw [issued_append, taken_append]
      simpa [issued, taken] using issues
    · rw [taken_append, got_append]
      simpa [taken, got] using replies
  | loop pc' => rw [pc] at pc'; cases pc'
  | paused pc' => rw [pc] at pc'; cases pc'
  | step pc' => rw [pc] at pc'; cases pc'
  | waiting pc' => rw [pc] at pc'; cases pc'
  | inside pc' => rw [pc] at pc'; cases pc'
  | finished pc' => rw [pc] at pc'; cases pc'

/-- An access of hart i takes effect, and the atomic run answers it. -/
structure Took (cfg : IssConfig H B) (flat₀ : Nat → Byte) (tr tr' : List (Event ι))
    (ur : List (SharedObject.Event ι (Hart H) Mmio)) (u u' : SharedObject ι (Nat → Byte) (Hart H))
    (i : ι) (a : Mmio) (m : Nat → Byte) (r : Reply) (h : Hart H) : Prop where
  run : cfg.atomic.Run u [.access i a] u'
  mem : u'.mem = m
  client : u'.client = Function.update u.client i h
  stream : u'.mem = settle (SharedObject.serve (FlatMemory.access cfg.ucfg)) flat₀ (taken tr')
  order : accesses (ur ++ [.access i a]) = taken tr'
  replies : (answers (FlatMemory.access cfg.ucfg) flat₀ (taken tr')).filter (·.1 = i) =
    (answers (FlatMemory.access cfg.ucfg) flat₀ (taken tr)).filter (·.1 = i) ++ [(i, r)]

theorem Follows.took {a : Mmio} {next : Reply → Ask Mmio Reply H} {b : Bool} {r : Reply}
    {m : Nat → Byte} (fol : Follows cfg m₀ flat₀ tr s vr c ur u)
    (hart : u.client i = .step b (.ask a next)) (takes : taken [e] = [(i, a)])
    (flat : FlatMemory.access cfg.ucfg u.mem a = (m, r)) :
    ∃ u', Took cfg flat₀ tr (tr ++ [e]) ur u u' i a m r (.step (b && r.done) (next r)) := by
  have request : (Hart.client cfg.proc).request (u.client i) = some a := by rw [hart]; rfl
  have taken' : taken (tr ++ [e]) = taken tr ++ [(i, a)] := by rw [taken_append, takes]
  have mem : (cfg.atomic.next u (.access i a)).mem = m := congrArg Prod.fst flat
  refine ⟨_, .single request, mem, ?_, ?_, ?_, ?_⟩
  · change Function.update u.client i
      ((Hart.client cfg.proc).receive (u.client i) (FlatMemory.access cfg.ucfg u.mem a).2) = _
    rw [hart, flat]
    rfl
  · rw [mem, taken', StreamServer.settle_append, ← fol.stream]
    exact (congrArg Prod.fst flat).symm
  · rw [SharedObject.accesses_append, fol.order, taken']
    rfl
  · rw [taken', SharedObject.answers_append, List.filter_append, ← fol.stream]
    change _ ++ List.filter (·.1 = i) [(i, (FlatMemory.access cfg.ucfg u.mem a).2)] = _
    rw [flat]
    simp

theorem Follows.answer {a : Mmio} (maps : cfg.Maps) (fol : Follows cfg m₀ flat₀ tr s vr c ur u)
    (he : s.Possible cfg (.answer i a)) : ∃ wr u', cfg.atomic.Run u wr u' ∧
      Follows cfg m₀ flat₀ (tr ++ [.answer i a]) (s.next cfg (.answer i a)) vr c (ur ++ wr) u' := by
  obtain ⟨next, trans, delay, bus, pc, out⟩ := id he
  obtain ⟨waiting, owed, stands, issues, replies⟩ := fol.attends i
  obtain ⟨rfl, rfl, outside, hart⟩ := stands.of_ask pc
  rcases fol.transport_cases maps i a with ⟨queued, _⟩ | ⟨trans', delay', bus', answered, answers⟩
  · rw [out] at queued
    cases queued
  · rw [out] at answered
    cases answered
    have timed := next_timed fol.timed he
    have flat := fol.bytes ▸ answers.flat (settle serveCall m₀ (acquired vr))
    obtain ⟨u', took⟩ := fol.took (e := .answer i a) hart rfl flat
    rw [next_answer pc out] at timed ⊢
    have owned : Owned i (.answer i a) := by simp [Owned, issued, taken, got]
    refine ⟨_, u', took.run, fol.moved owned ⟨fol.now, fol.mem, fol.edges⟩ fol.act fol.inv timed rfl
      (Function.update_eq_self i s.act).symm took.client answers.plain took.mem took.stream
      took.order (fun _ _ _ _ stands => stands)
      ⟨[], [_], .delayed rfl outside answers.expected rfl rfl, ?_, ?_⟩⟩
    · rw [issued_append, taken_append, List.filter_append, List.filter_append, issues]
      simp [issued, taken]
    · rw [took.replies, replies, got_append]
      simp [got, SpikeModule.returned]

theorem Follows.enter {a : Mmio} (maps : cfg.Maps) (fol : Follows cfg m₀ flat₀ tr s vr c ur u)
    (he : s.Possible cfg (.enter i a)) : ∃ e', c.Enabled e' ∧
      Follows cfg m₀ flat₀ (tr ++ [.enter i a]) (s.next cfg (.enter i a)) (vr ++ [e']) (c.next e')
        ur u := by
  obtain ⟨next, act, pc, out⟩ := id he
  obtain ⟨waiting, owed, stands, issues, replies⟩ := fol.attends i
  obtain ⟨rfl, rfl, outside, hart⟩ := stands.of_ask pc
  rcases fol.transport_cases maps i a with ⟨queues, takes⟩ | ⟨_, _, _, answered, _⟩
  · rw [out] at queues
    cases queues
    have proper : Initiators.Proper (Uncore.translate cfg.ucfg a.payload) :=
      ⟨a.payload_serviceable, a.nonempty, takes.range, by rintro _ ⟨⟩⟩
    have entry : Activation.bTransport (Uncore.translate cfg.ucfg a.payload) (scNs 7) =
        ⟨queued cfg.ucfg a, scNs 7, .lock⟩ :=
      Kernel.bTransport_accepted _ proper.serviceable
        (proper.range.beyond_eq_false proper.nonempty)
    have enabled : c.Enabled (.call i (Uncore.translate cfg.ucfg a.payload) (scNs 7)) :=
      ⟨by rw [fol.act]; exact outside, proper⟩
    have timed := next_timed fol.timed he
    have calls : acquired (vr ++ [.call i (Uncore.translate cfg.ucfg a.payload) (scNs 7)]) =
        acquired vr := by
      rw [Initiators.acquired_append]
      exact List.append_nil _
    have same : taken (tr ++ [.enter i a]) = taken tr := by
      rw [taken_append]
      exact List.append_nil _
    have owned : Owned i (.enter i a) := by simp [Owned, issued, taken, got]
    rw [next_enter pc out] at timed ⊢
    refine ⟨_, enabled, fol.moved owned ⟨fol.now, fol.mem, fol.edges⟩ ?_ (fol.inv.next enabled)
      timed rfl rfl (Function.update_eq_self i u.client).symm (fol.plain i) ?_ ?_ ?_ ?_
      ⟨[a], [], .waiting rfl takes rfl hart, ?_, ?_⟩⟩
    · change Function.update c.act i _ = Function.update s.act i _
      rw [fol.act, entry]
    · rw [calls]
      exact fol.bytes
    · rw [same]
      exact fol.stream
    · rw [same]
      exact fol.order
    · intro j _ waiting owed stands
      rw [calls]
      exact stands
    · rw [issued_append, taken_append, List.filter_append, List.filter_append, issues]
      simp [issued, taken]
    · rw [same, replies, got_append]
      simp [got]
  · rw [out] at answered
    cases answered

theorem Follows.acquire {a : Mmio} (fol : Follows cfg m₀ flat₀ tr s vr c ur u)
    (he : s.Possible cfg (.acquire i a)) : ∃ e' wr u', c.Enabled e' ∧
      cfg.atomic.Run u wr u' ∧
      Follows cfg m₀ flat₀ (tr ++ [.acquire i a]) (s.next cfg (.acquire i a)) (vr ++ [e'])
        (c.next e') (ur ++ wr) u' := by
  obtain ⟨next, act, pc, here, lock, moves⟩ := id he
  obtain ⟨waiting, owed, stands, issues, replies⟩ := fol.attends i
  obtain ⟨rfl, rfl, queues, call, hart⟩ := stands.of_lock pc here lock
  obtain ⟨⟨act', mem⟩, resumed⟩ := Option.isSome_iff_exists.mp moves
  have enabled : c.Enabled (.acquire i (queued cfg.ucfg a)) :=
    ⟨act, by rw [fol.act]; exact here, lock, by rw [call], by rw [fol.resumed]; exact moves⟩
  have calls : acquired (vr ++ [.acquire i (queued cfg.ucfg a)]) =
      acquired vr ++ [(i, queued cfg.ucfg a)] := by
    rw [Initiators.acquired_append]
    rfl
  have free : s.mem.rtlAccess = none ∧ act' = act.burst s.now := by
    rw [resumed_of_act here] at resumed
    simp only [Activation.resume, lock, Option.ite_none_right_eq_some, Option.some.injEq,
      Prod.mk.injEq] at resumed
    exact ⟨resumed.1, resumed.2.1.symm⟩
  have timed := next_timed fol.timed he
  have flat : FlatMemory.access cfg.ucfg
      (flatten cfg.ucfg cfg.spikeBus s.bus (settle serveCall m₀ (acquired vr))) a = _ :=
    FlatMemory.access_queued queues
  rw [← fol.bytes] at flat
  obtain ⟨u', took⟩ := fol.took (e := .acquire i a) hart rfl flat
  have owned : Owned i (.acquire i a) := by simp [Owned, issued, taken, got]
  have step : s.next cfg (.acquire i a) = s.step i := rfl
  have step' : c.next (.acquire i (queued cfg.ucfg a)) = c.step i := rfl
  rw [step, step_of_resumed resumed] at timed ⊢
  refine ⟨_, _, u', enabled, took.run, fol.moved owned ?_ ?_ (fol.inv.next enabled) timed
    (Function.update_eq_self i s.spike).symm rfl took.client (fol.plain i) ?_ took.stream took.order
    ?_ ⟨[], [_], .inside pc rfl ?_ calls rfl ?_, ?_, ?_⟩⟩
  · rw [step', Initiators.step_of_resumed (by rw [fol.resumed]; exact resumed)]
    exact ⟨fol.now, rfl, fol.edges⟩
  · rw [step', Initiators.step_of_resumed (by rw [fol.resumed]; exact resumed), fol.act]
  · rw [took.mem, calls, StreamServer.settle_append]
    rfl
  · intro j other waiting owed others
    refine others.recall fun b hb => ?_
    by_contra entered
    have owner := fol.inv.owner_of (i := j) (by rw [fol.act]; exact hb) entered
    rw [fol.mem, free.1] at owner
    cases owner
  · rw [free.2]
    exact Activation.burst_entered act s.now
  · rw [Bool.and_true]
  · rw [issued_append, taken_append, List.filter_append, List.filter_append, issues]
    simp [issued, taken]
  · rw [took.replies, replies, got_append]
    simp [got]

theorem Follows.go (fol : Follows cfg m₀ flat₀ tr s vr c ur u) (he : s.Possible cfg (.go i)) :
    ∃ e', c.Enabled e' ∧
      Follows cfg m₀ flat₀ (tr ++ [.go i]) (s.next cfg (.go i)) (vr ++ [e']) (c.next e') ur u := by
  obtain ⟨act, here, entered, busy, moves⟩ := id he
  obtain ⟨waiting, owed, stands, issues, replies⟩ := fol.attends i
  obtain ⟨a, next, before, pc, rfl, rfl, last, hart⟩ := stands.of_entered here entered
  obtain ⟨⟨act', mem⟩, resumed⟩ := Option.isSome_iff_exists.mp moves
  have here' : c.act i = some act := by rw [fol.act]; exact here
  have enabled : c.Enabled (.go i) :=
    ⟨act, here', entered, busy, by rw [fol.resumed]; exact moves⟩
  have calls : acquired (vr ++ [.go i]) = acquired vr := by
    rw [Initiators.acquired_append]
    exact List.append_nil _
  have entered' : act'.pc ≠ .lock := by
    obtain ⟨_, _, _, _, holding⟩ := fol.inv.session_of here' entered
    rw [fol.mem] at holding
    rw [resumed_of_act here] at resumed
    exact (Activation.resume_holding holding resumed busy).1.pc_ne.1
  have same : taken (tr ++ [.go i]) = taken tr := by
    rw [taken_append]
    exact List.append_nil _
  have timed := next_timed fol.timed he
  have owned : Owned i (.go i) := by simp [Owned, issued, taken, got]
  have step : s.next cfg (.go i) = s.step i := rfl
  have step' : c.next (.go i) = c.step i := rfl
  rw [step, step_of_resumed resumed] at timed ⊢
  refine ⟨_, enabled, fol.moved owned ?_ ?_ (fol.inv.next enabled) timed
    (Function.update_eq_self i s.spike).symm rfl (Function.update_eq_self i u.client).symm
    (fol.plain i) ?_ ?_ ?_ ?_ (.keep ⟨rfl, rfl, rfl⟩ issues replies ?_)⟩
  · rw [step', Initiators.step_of_resumed (by rw [fol.resumed]; exact resumed)]
    exact ⟨fol.now, rfl, fol.edges⟩
  · rw [step', Initiators.step_of_resumed (by rw [fol.resumed]; exact resumed), fol.act]
  · rw [calls]
    exact fol.bytes
  · rw [same]
    exact fol.stream
  · rw [same]
    exact fol.order
  · intro j _ waiting owed others
    rw [calls]
    exact others
  · rw [calls]
    exact .inside pc rfl entered' last rfl hart

theorem Follows.ret (fol : Follows cfg m₀ flat₀ tr s vr c ur u) (he : s.Possible cfg (.ret i)) :
    ∃ e', c.Enabled e' ∧
      Follows cfg m₀ flat₀ (tr ++ [.ret i]) (s.next cfg (.ret i)) (vr ++ [e']) (c.next e')
        ur u := by
  obtain ⟨a, next, act, pc, here, unlock⟩ := id he
  obtain ⟨waiting, owed, stands, issues, replies⟩ := fol.attends i
  have entered : act.pc ≠ .lock := by
    rw [unlock]
    rintro ⟨⟩
  obtain ⟨b, after, before, pc', rfl, rfl, last, hart⟩ := stands.of_entered here entered
  rw [pc] at pc'
  cases pc'
  have here' : c.act i = some act := by rw [fol.act]; exact here
  have enabled : c.Enabled (.ret i act.trans) := ⟨act, here', unlock, rfl⟩
  have served : act.trans = ((queued cfg.ucfg a).serve (settle serveCall m₀ before)).1 := by
    obtain ⟨t, before', last', _, holding⟩ := fol.inv.session_of here' entered
    rw [last] at last'
    obtain ⟨rfl, calls⟩ := List.append_inj' last' rfl
    cases calls
    exact congrArg Prod.fst (holding.finished unlock).2
  have resumed := resumed_of_unlock here unlock
  have status : act.trans.responseStatus = .ok := by
    rw [served, Payload.serve_status]
    rfl
  have plain : act.trans.extension = none := by
    rw [served]
    exact (Payload.serve_frame _ _).2.2.1
  have calls : acquired (vr ++ [.ret i act.trans]) = acquired vr := by
    rw [Initiators.acquired_append]
    exact List.append_nil _
  have same : taken (tr ++ [.ret i]) = taken tr := by
    rw [taken_append]
    exact List.append_nil _
  have timed := next_timed fol.timed he
  have owned : Owned i (.ret i) := by simp [Owned, issued, taken, got]
  have step' : c.next (.ret i act.trans) =
      { c.step i with act := Function.update c.act i none } := by
    rfl
  rw [next_ret pc resumed] at timed ⊢
  refine ⟨_, enabled, fol.moved owned ?_ ?_ (fol.inv.next enabled) timed rfl rfl
    (Function.update_eq_self i u.client).symm plain ?_ ?_ ?_ ?_
    (.keep ⟨rfl, rfl, rfl⟩ issues replies (.delayed rfl rfl (Or.inl status) ?_ ?_))⟩
  · rw [step', Initiators.step_of_resumed (by rw [fol.resumed]; exact resumed)]
    exact ⟨fol.now, rfl, fol.edges⟩
  · rw [step', fol.act]
  · rw [calls]
    exact fol.bytes
  · rw [same]
    exact fol.stream
  · rw [same]
    exact fol.order
  · intro j _ waiting owed others
    rw [calls]
    exact others
  · change _ = Reply.mk (act.trans.responseStatus == .ok) act.trans.data
    rw [status, served]
    rfl
  · rw [hart]
    change _ = Hart.step ((s.spike i).keepSim && true) _
    rw [Bool.and_true]

/-- Neither the uncore nor the switch on the status ever raises a report. -/
theorem Follows.no_report {r : Report} (maps : cfg.Maps) (fol : Follows cfg m₀ flat₀ tr s vr c ur u)
    (i : ι) : ¬ s.Possible cfg (.fail i r) := by
  rintro (⟨a, next, pc, response⟩ | ⟨a, next, pc, out⟩)
  · obtain ⟨waiting, owed, stands, _⟩ := fol.attends i
    rcases stands.expected_of_delayed pc with ok | error
    · rw [SpikeModule.respond_ok ok] at response
      cases response
    · rw [SpikeModule.respond_error error] at response
      cases response
  · rcases fol.transport_cases maps i a with ⟨queues, _⟩ | ⟨_, _, _, answered, _⟩
    · rw [out] at queues
      cases queues
    · rw [out] at answered
      cases answered

/-- Every event of the platform is answered by a run of the initiators and one
of the harts on the flat memory. -/
theorem Follows.next (maps : cfg.Maps) (fol : Follows cfg m₀ flat₀ tr s vr c ur u)
    (he : s.Possible cfg e) : ∃ vr' c' wr u', cfg.atomic.Run u wr u' ∧
      Follows cfg m₀ flat₀ (tr ++ [e]) (s.next cfg e) vr' c' (ur ++ wr) u' := by
  have quiet {vr' : List (Initiators.Event ι)} {c' : Initiators ι}
      (fol' : Follows cfg m₀ flat₀ (tr ++ [e]) (s.next cfg e) vr' c' ur u) :
      ∃ vr' c' wr u', cfg.atomic.Run u wr u' ∧
        Follows cfg m₀ flat₀ (tr ++ [e]) (s.next cfg e) vr' c' (ur ++ wr) u' :=
    ⟨vr', c', [], u, .refl, by rw [List.append_nil]; exact fol'⟩
  cases e with
  | edge => exact quiet (fol.edge he)
  | release => exact quiet (fol.release he)
  | advance t => exact quiet (fol.advance he)
  | scStart => exact quiet fol.scStart
  | work i =>
    obtain ⟨wr, u', run, fol'⟩ := fol.work he
    exact ⟨_, _, wr, u', run, fol'⟩
  | answer i a =>
    obtain ⟨wr, u', run, fol'⟩ := fol.answer maps he
    exact ⟨_, _, wr, u', run, fol'⟩
  | enter i a =>
    obtain ⟨_, _, fol'⟩ := fol.enter maps he
    exact quiet fol'
  | acquire i a =>
    obtain ⟨_, wr, u', _, run, fol'⟩ := fol.acquire he
    exact ⟨_, _, wr, u', run, fol'⟩
  | go i =>
    obtain ⟨_, _, fol'⟩ := fol.go he
    exact quiet fol'
  | ret i =>
    obtain ⟨_, _, fol'⟩ := fol.ret he
    exact quiet fol'
  | respond i a r => exact quiet (fol.respond he)
  | fail i r => exact absurd he (fol.no_report maps i)

end Steps

section Runs
variable [Fintype ι] {cfg : IssConfig H B} {io : IoBlock top0} {bus : B} {proc : ι → H}
  {tr : List (Event ι)} {s : IssPlatform ι H B}

theorem powerOn_follows (later : 0 < cfg.rstTimeout) (io : IoBlock top0) (bus : B) (proc : ι → H) :
    Follows cfg io.ram (flatten cfg.ucfg cfg.spikeBus bus io.ram) [] (powerOn cfg io bus proc) []
      (Initiators.powerOn io) []
      (Hart.powerOn (flatten cfg.ucfg cfg.spikeBus bus io.ram) proc) where
  now := rfl
  mem := rfl
  edges r pending := by
    cases pending
    exact Or.inr later
  act := rfl
  inv := Initiators.powerOn_inv io
  timed := (Platform.powerOn_idle io (Or.inl later)).toTimed
  plain _ := rfl
  bytes := rfl
  stream := rfl
  order := rfl
  harts _ := ⟨[], [], .loop rfl rfl rfl, rfl, rfl⟩

theorem run_follows (maps : cfg.Maps) (later : 0 < cfg.rstTimeout)
    (run : (machine cfg).Run (powerOn cfg io bus proc) tr s) : ∃ vr c ur u,
      cfg.atomic.Run (Hart.powerOn (flatten cfg.ucfg cfg.spikeBus bus io.ram) proc) ur u ∧
      Follows cfg io.ram (flatten cfg.ucfg cfg.spikeBus bus io.ram) tr s vr c ur u := by
  obtain ⟨ur, u, run', vr, c, fol⟩ := run.simulate (N := cfg.atomic)
    (fun tr ur s u => ∃ vr c,
      Follows cfg io.ram (flatten cfg.ucfg cfg.spikeBus bus io.ram) tr s vr c ur u)
    (by
      rintro tr ur s u e ⟨vr, c, fol⟩ he
      obtain ⟨vr', c', wr, u', run', fol'⟩ := fol.next maps he.2
      exact ⟨wr, u', run', vr', c', fol'⟩)
    ⟨_, _, powerOn_follows later io bus proc⟩
  exact ⟨vr, c, ur, u, run', fol⟩

/-- Whatever the harts execute and however their threads interleave, the
platform does what harts without time do that share one flat memory, with the
accesses in the order of their effect. Each hart's accesses take effect in the
order it issued them, all but one that waits for the mutex; its replies are the
atomic ones in that order, all but one still on its way. The hart is where the
atomic hart is whenever no access of its own is under way, and the memories
agree whenever the mutex is free. -/
theorem sequentially_consistent (maps : cfg.Maps) (later : 0 < cfg.rstTimeout)
    (run : (machine cfg).Run (powerOn cfg io bus proc) tr s) : ∃ ur u,
      cfg.atomic.Run (Hart.powerOn (flatten cfg.ucfg cfg.spikeBus bus io.ram) proc) ur u ∧
      accesses ur = taken tr ∧
      (∀ i, (issued tr).filter (·.1 = i) =
        (taken tr).filter (·.1 = i) ++ (s.queueing i).map (i, ·)) ∧
      (∀ i, ∃ owed : List Reply, (answers (FlatMemory.access cfg.ucfg)
        (flatten cfg.ucfg cfg.spikeBus bus io.ram) (accesses ur)).filter (·.1 = i) =
          (got tr).filter (·.1 = i) ++ owed.map (i, ·) ∧ owed.length = s.unanswered i) ∧
      (∀ i h, Hart.of (s.spike i) = some h → u.client i = h) ∧
      (s.mem.rtlAccess = none →
        u.mem = flatten cfg.ucfg cfg.spikeBus s.bus s.mem.pipe.ram) := by
  obtain ⟨vr, c, ur, u, run', fol⟩ := run_follows maps later run
  refine ⟨ur, u, run', fol.order, fun i => ?_, fun i => ?_, fun i h at_ => ?_, fun free => ?_⟩
  · obtain ⟨_, _, stands, issues, _⟩ := fol.attends i
    rw [issues, stands.under_way.1]
  · obtain ⟨_, owed, stands, _, replies⟩ := fol.attends i
    rw [fol.order]
    exact ⟨owed, replies, stands.under_way.2⟩
  · obtain ⟨_, _, stands, _⟩ := fol.attends i
    exact stands.client_of_apart at_
  · have free' : c.mem.rtlAccess = none := by rw [fol.mem]; exact free
    cases fol.inv.session with
    | held _ _ _ _ has => rw [free'] at has; cases has
    | free _ _ idle settled =>
      obtain ⟨_, ram⟩ := Pipe.quiet_of_answers idle
      rw [fol.bytes, ← settled, ← ram, fol.mem]

end Runs

/-- A processor that makes a list of accesses, one an instruction, and then idles. -/
def script : Processor (List Mmio)
  | [] => .done []
  | a :: rest => .ask a fun _ => .done rest

def exampleCfg : IssConfig (List Mmio) (Nat → Byte) where
  ucfg := Uncore.exampleUcfg
  spikeBus :=
    Uncore.plainBus (Uncore.bootRom Uncore.exampleUcfg) (Uncore.spikeRam Uncore.exampleUcfg)
  proc := script
  clkPeriod := scNs 10
  rstTimeout := scNs 17

theorem exampleCfg_maps : exampleCfg.Maps where
  laid := Uncore.exampleUcfg_laid
  roomy := ⟨by decide, by decide⟩
  serves := Uncore.plainBus_serves _ _
  keeps _ _ _ := by
    simp only [exampleCfg, Uncore.plainBus]
    split
    · simp
    · rfl

def storeSeven : Mmio := ⟨true, 0x81000005, ⟨[7], DataBuffer.one_fits⟩, Nat.one_pos⟩

def loadByte : Mmio := ⟨false, 0x81000005, ⟨[0], DataBuffer.one_fits⟩, Nat.one_pos⟩

/-- The two harts of `sc_main`. -/
inductive Iss where
  | spike0
  | spike1
deriving DecidableEq

instance : Fintype Iss where
  elems := {.spike0, .spike1}
  complete i := by cases i <;> decide

theorem Iss.forall_iss {p : Iss → Prop} (first : p .spike0) (second : p .spike1) (i : Iss) :
    p i := by
  cases i with
  | spike0 => exact first
  | spike1 => exact second

/-- The first stores a byte in the window and the second loads it. -/
def programs : Iss → List Mmio
  | .spike0 => [storeSeven]
  | .spike1 => [loadByte]

/-- Both harts queue during reset, and the first takes the mutex. -/
def twoIss : List (Event Iss) :=
  [.work .spike0, .work .spike1, .enter .spike0 storeSeven, .enter .spike1 loadByte,
    .acquire .spike0 storeSeven, .go .spike0, .edge, .advance (scNs 1), .scStart,
    .advance (scNs 10), .edge, .advance (scNs 17), .release, .advance (scNs 20), .edge,
    .advance (scNs 30), .edge, .advance (scNs 40), .edge, .go .spike0, .ret .spike0,
    .acquire .spike1 loadByte, .go .spike1, .advance (scNs 47),
    .respond .spike0 storeSeven ⟨true, ⟨[7], DataBuffer.one_fits⟩⟩]

def twoIss_start : IssPlatform Iss (List Mmio) (Nat → Byte) :=
  powerOn exampleCfg Bench.staleBlock (fun _ => 0) programs

theorem twoIss_run : (machine exampleCfg).Run twoIss_start twoIss
    ((machine exampleCfg).after twoIss_start twoIss) := by
  apply EventMachine.run_of_admits
  refine ⟨⟨⟨_, rfl⟩, rfl⟩, ⟨⟨_, rfl⟩, rfl⟩, ⟨⟨_, rfl⟩, _, _, rfl, rfl⟩, ⟨⟨_, rfl⟩, _, _, rfl, rfl⟩,
    ⟨⟨_, rfl⟩, _, _, rfl, rfl, rfl, rfl⟩, ⟨⟨_, rfl⟩, _, rfl, by rintro ⟨⟩, by rintro ⟨⟩, rfl⟩,
    ⟨⟨_, rfl⟩, rfl⟩,
    ⟨⟨_, rfl⟩, by decide, by decide, by rintro _ ⟨⟩; decide, by rintro _ ⟨⟩; decide, ?_⟩,
    ⟨⟨_, rfl⟩, rfl⟩,
    ⟨⟨_, rfl⟩, by decide, by decide, by rintro _ ⟨⟩; decide, by rintro _ ⟨⟩; decide, ?_⟩,
    ⟨⟨_, rfl⟩, rfl⟩,
    ⟨⟨_, rfl⟩, by decide, by decide, by rintro _ ⟨⟩; decide, by rintro _ ⟨⟩; decide, ?_⟩,
    ⟨⟨_, rfl⟩, rfl⟩,
    ⟨⟨_, rfl⟩, by decide, by decide, by rintro _ ⟨⟩, by rintro _ ⟨⟩; decide, ?_⟩,
    ⟨⟨_, rfl⟩, rfl⟩,
    ⟨⟨_, rfl⟩, by decide, by decide, by rintro _ ⟨⟩, by rintro _ ⟨⟩; decide, ?_⟩,
    ⟨⟨_, rfl⟩, rfl⟩,
    ⟨⟨_, rfl⟩, by decide, by decide, by rintro _ ⟨⟩, by rintro _ ⟨⟩; decide, ?_⟩,
    ⟨⟨_, rfl⟩, rfl⟩, ⟨⟨_, rfl⟩, _, rfl, by rintro ⟨⟩, by rintro ⟨⟩, rfl⟩,
    ⟨⟨_, rfl⟩, _, _, _, rfl, rfl, rfl⟩, ⟨⟨_, rfl⟩, _, _, rfl, rfl, rfl, rfl⟩,
    ⟨⟨_, rfl⟩, _, rfl, by rintro ⟨⟩, by rintro ⟨⟩, rfl⟩,
    ⟨⟨_, rfl⟩, by decide, by decide, by rintro _ ⟨⟩, by rintro _ ⟨⟩; decide, ?_⟩,
    ⟨⟨_, rfl⟩, _, _, rfl, rfl⟩, trivial⟩
  -- Both calls are inside the memory until the first hart is back.
  iterate 6 exact Iss.forall_iss ⟨rfl, by rintro _ ⟨⟩ _ ⟨⟩⟩ ⟨rfl, by rintro _ ⟨⟩ _ ⟨⟩⟩
  exact Iss.forall_iss (Nat.le_refl _) ⟨rfl, by rintro _ ⟨⟩ _ ⟨⟩⟩

theorem sequentially_consistent_twoIss : ∃ ur u,
    exampleCfg.atomic.Run (Hart.powerOn (flatten Uncore.exampleUcfg exampleCfg.spikeBus
      (fun _ => 0) Bench.staleBlock.ram) programs) ur u ∧
    accesses ur = [(.spike0, storeSeven), (.spike1, loadByte)] ∧
    u.client .spike0 = .step true (.done []) := by
  obtain ⟨ur, u, run, order, _, _, apart, _⟩ :=
    sequentially_consistent exampleCfg_maps (by decide) twoIss_run
  exact ⟨ur, u, run, order, apart .spike0 _ rfl⟩

end IssPlatform
