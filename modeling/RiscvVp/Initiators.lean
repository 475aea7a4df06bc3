import RiscvVp.Termination

/-!
# Many initiators on one RTL memory

Any number of threads call `b_transport`, directly or through `uncore`, which
hands a call on without suspending it. A thread goes on whenever what it waits
for has come; edges come at any time, and which of several threads goes on is
not fixed. Beats carry no owner, so only the mutex keeps the bursts apart.
-/

structure Initiators (ι : Type) where
  now : Nat
  edges : Nat
  mem : Memrtl ι
  act : ι → Option Activation

namespace Initiators

open StreamServer (replies settle)

variable {ι : Type} [DecidableEq ι]

/-- Taking the mutex and giving it back carry the payload at that moment. -/
inductive Event (ι : Type) where
  | call (i : ι) (trans : Payload) (delay : Nat)
  | acquire (i : ι) (trans : Payload)
  | go (i : ι)
  | ret (i : ι) (trans : Payload)
  | edge
  | release
  | advance (t : Nat)

/-- Loads and stores in range, with no zero delay. -/
structure Proper (t : Payload) : Prop where
  serviceable : t.Serviceable
  nonempty : 0 < t.dataLength
  range : t.InRange
  positive : t.PositiveDelays

def powerOn (io : IoBlock top0) : Initiators ι := ⟨0, 0, ⟨.powerOn io, none⟩, fun _ => none⟩

def resumed (s : Initiators ι) (i : ι) : Option (Activation × Memrtl ι) :=
  (s.act i).bind fun a => a.resume i s.now s.mem

def Enabled (s : Initiators ι) : Event ι → Prop
  | .call i t _ => s.act i = none ∧ Proper t
  | .acquire i t => ∃ a, s.act i = some a ∧ a.pc = .lock ∧ a.trans = t ∧ (s.resumed i).isSome
  | .go i => ∃ a, s.act i = some a ∧ a.pc ≠ .lock ∧ a.pc ≠ .unlock ∧ (s.resumed i).isSome
  | .ret i t => ∃ a, s.act i = some a ∧ a.pc = .unlock ∧ a.trans = t
  | .edge => True
  | .release => s.mem.pipe.rstn = false ∧ 0 < s.edges
  | .advance t => s.now < t ∧ ∀ i a, s.act i = some a → ∀ w ∈ a.pc.wake, t ≤ w

def step (s : Initiators ι) (i : ι) : Initiators ι :=
  match s.resumed i with
  | some (a, mem) => { s with mem := mem, act := Function.update s.act i (some a) }
  | none => s

def next (s : Initiators ι) : Event ι → Initiators ι
  | .call i t delay => { s with act := Function.update s.act i (some (.bTransport t delay)) }
  | .acquire i _ => s.step i
  | .go i => s.step i
  | .ret i _ => { s.step i with act := Function.update s.act i none }
  | .edge => { s with edges := s.edges + 1, mem := { s.mem with pipe := s.mem.pipe.posedge } }
  | .release => { s with mem := { s.mem with pipe := s.mem.pipe.releaseReset } }
  | .advance t => { s with now := t }

def machine : EventMachine (Initiators ι) (Event ι) := ⟨Enabled, next⟩

/-- The calls in the order they were made, as the target takes them on. -/
def called (tr : List (Event ι)) : List (ι × Payload) :=
  tr.filterMap (fun | .call i t _ => some (i, t.setResponseStatus .ok) | _ => none)

/-- The calls in the order they took the mutex. -/
def acquired (tr : List (Event ι)) : List (ι × Payload) :=
  tr.filterMap (fun | .acquire i t => some (i, t) | _ => none)

/-- The payloads handed back, in the order of the returns. -/
def returned (tr : List (Event ι)) : List (ι × Payload) :=
  tr.filterMap (fun | .ret i t => some (i, t) | _ => none)

/-- One call served by a memory that nobody else uses. -/
def serveCall (m : Ram) (c : ι × Payload) : Ram × (ι × Payload) :=
  ((c.2.serve m).2, (c.1, (c.2.serve m).1))

/-- The call with which a thread queues for the mutex. -/
def queued (s : Initiators ι) (i : ι) : List (ι × Payload) :=
  match s.act i with
  | some ⟨t, _, .lock⟩ => [(i, t)]
  | _ => []

/-- The mutex is free and all calls that took it are served, or one thread has
it and is in the middle of its burst. -/
inductive Session (m : Ram) (tr : List (Event ι)) (s : Initiators ι) : Prop where
  | free (owner : s.mem.rtlAccess = none)
      (served : returned tr = replies serveCall m (acquired tr))
      (idle : s.mem.pipe.answers = [])
      (settled : s.mem.pipe.settled = settle serveCall m (acquired tr))
  | held (i : ι) (a : Activation) (t : Payload) (before : List (ι × Payload))
      (owner : s.mem.rtlAccess = some i) (act : s.act i = some a)
      (last : acquired tr = before ++ [(i, t)])
      (served : returned tr = replies serveCall m before)
      (holding : a.Holding t (settle serveCall m before) s.mem.pipe)

structure Inv (m : Ram) (tr : List (Event ι)) (s : Initiators ι) : Prop where
  valid : s.mem.pipe.Valid
  cleared : 0 < s.edges → s.mem.pipe.Cleared
  queue : ∀ i, (called tr).filter (·.1 = i) = (acquired tr).filter (·.1 = i) ++ s.queued i
  outside : ∀ i a, s.act i = some a → s.mem.rtlAccess ≠ some i → a.pc = .lock
  session : Session m tr s

theorem powerOn_inv (io : IoBlock top0) : Inv io.ram [] (powerOn io : Initiators ι) := by
  have quiet : (Pipe.powerOn io).Quiet := ⟨rfl, rfl, by rintro ⟨⟩, rfl, rfl⟩
  constructor
  · exact Pipe.powerOn_valid io
  · intro edge
    exact absurd edge (Nat.lt_irrefl 0)
  · intro i
    rfl
  · intro i a act
    cases act
  · exact .free rfl rfl quiet.answers_eq_nil quiet.settled_eq_ram

section Traces
variable (tr ur : List (Event ι))

omit [DecidableEq ι] in
@[simp] theorem called_append : called (tr ++ ur) = called tr ++ called ur :=
  List.filterMap_append ..

omit [DecidableEq ι] in
@[simp] theorem acquired_append : acquired (tr ++ ur) = acquired tr ++ acquired ur :=
  List.filterMap_append ..

omit [DecidableEq ι] in
@[simp] theorem returned_append : returned (tr ++ ur) = returned tr ++ returned ur :=
  List.filterMap_append ..

end Traces

variable {m : Ram} {tr : List (Event ι)} {s : Initiators ι} {e : Event ι} {i : ι}

theorem Inv.queue_next {s' : Initiators ι} (inv : Inv m tr s)
    (moved : ∀ j, s.queued j ++ (called [e]).filter (·.1 = j) =
      (acquired [e]).filter (·.1 = j) ++ s'.queued j) (j : ι) :
    (called (tr ++ [e])).filter (·.1 = j) =
      (acquired (tr ++ [e])).filter (·.1 = j) ++ s'.queued j := by
  rw [called_append, acquired_append, List.filter_append, List.filter_append, inv.queue,
    List.append_assoc, moved, List.append_assoc]

/-- An event that no thread sees leaves the calls and the sessions as they are. -/
theorem Inv.silent {s' : Initiators ι} (inv : Inv m tr s) (called : called [e] = [])
    (acquired : acquired [e] = []) (returned : returned [e] = []) (act : s'.act = s.act)
    (owner : s'.mem.rtlAccess = s.mem.rtlAccess) (valid : s'.mem.pipe.Valid)
    (cleared : 0 < s'.edges → s'.mem.pipe.Cleared)
    (answers : s'.mem.pipe.answers = s.mem.pipe.answers)
    (settled : s'.mem.pipe.settled = s.mem.pipe.settled)
    (holding : ∀ a t m, Activation.Holding t m s.mem.pipe a →
      Activation.Holding t m s'.mem.pipe a) : Inv m (tr ++ [e]) s' := by
  have taken : Initiators.acquired (tr ++ [e]) = Initiators.acquired tr := by
    rw [acquired_append, acquired, List.append_nil]
  have back : Initiators.returned (tr ++ [e]) = Initiators.returned tr := by
    rw [returned_append, returned, List.append_nil]
  refine ⟨valid, cleared, inv.queue_next fun j => ?_, ?_, ?_⟩
  · have queued : s'.queued j = s.queued j := by rw [Initiators.queued, act]; rfl
    rw [called, acquired, queued]
    simp
  · rw [act, owner]
    exact inv.outside
  · cases inv.session with
    | free free served idle mem =>
      exact .free (owner.trans free) (by rw [back, taken]; exact served) (answers.trans idle)
        (by rw [taken]; exact settled.trans mem)
    | held i a t before has act' last served hold =>
      exact .held i a t before (owner.trans has) (by rw [act]; exact act') (taken.trans last)
        (back.trans served) (holding _ _ _ hold)

theorem step_of_resumed {a : Activation} {mem : Memrtl ι} (resumed : s.resumed i = some (a, mem)) :
    s.step i = { s with mem := mem, act := Function.update s.act i (some a) } := by
  rw [step, resumed]

theorem resumed_of_act {a : Activation} (act : s.act i = some a) :
    s.resumed i = a.resume i s.now s.mem := by
  rw [resumed, act]
  rfl

theorem queued_of_ne {s' : Initiators ι} {j : ι} {o : Option Activation}
    (act : s'.act = Function.update s.act i o) (other : j ≠ i) : s'.queued j = s.queued j := by
  rw [queued, act, Function.update_of_ne other]
  rfl

omit [DecidableEq ι] in
theorem queued_of_lock {a : Activation} (act : s.act i = some a) (pc : a.pc = .lock) :
    s.queued i = [(i, a.trans)] := by
  obtain ⟨trans, delay, apc⟩ := a
  subst pc
  rw [queued, act]

omit [DecidableEq ι] in
theorem queued_of_entered {a : Activation} (act : s.act i = some a) (entered : a.pc ≠ .lock) :
    s.queued i = [] := by
  obtain ⟨trans, delay, pc⟩ := a
  rw [queued, act]
  cases pc with
  | lock => exact absurd rfl entered
  | _ => rfl

/-- A thread that is past the mutex owns it. -/
theorem Inv.owner_of (inv : Inv m tr s) {a : Activation} (act : s.act i = some a)
    (entered : a.pc ≠ .lock) : s.mem.rtlAccess = some i := by
  by_contra free
  exact entered (inv.outside i a act free)

/-- The session of the owner, seen from its own thread. -/
theorem Inv.session_of (inv : Inv m tr s) {a : Activation} (act : s.act i = some a)
    (entered : a.pc ≠ .lock) : ∃ t before, acquired tr = before ++ [(i, t)] ∧
      returned tr = replies serveCall m before ∧
      a.Holding t (settle serveCall m before) s.mem.pipe := by
  have owner := inv.owner_of act entered
  cases inv.session with
  | free free => rw [owner] at free; cases free
  | held j b t before has act' last served holding =>
    rw [owner] at has
    cases has
    rw [act] at act'
    cases act'
    exact ⟨t, before, last, served, holding⟩

theorem Inv.call {t : Payload} {delay : Nat} (inv : Inv m tr s)
    (he : s.Enabled (.call i t delay)) :
    Inv m (tr ++ [.call i t delay]) (s.next (.call i t delay)) := by
  obtain ⟨outside, proper⟩ := he
  have entry : Activation.bTransport t delay = ⟨t.setResponseStatus .ok, delay, .lock⟩ :=
    Kernel.bTransport_accepted delay proper.serviceable
      (proper.range.beyond_eq_false proper.nonempty)
  have act' : (s.next (.call i t delay)).act =
    Function.update s.act i (some (.bTransport t delay)) := rfl
  have taken : acquired (tr ++ [.call i t delay]) = acquired tr := by
    rw [acquired_append]
    exact List.append_nil _
  have back : returned (tr ++ [.call i t delay]) = returned tr := by
    rw [returned_append]
    exact List.append_nil _
  refine ⟨inv.valid, inv.cleared, inv.queue_next fun j => ?_, ?_, ?_⟩
  · by_cases same : j = i
    · subst same
      simp [queued, act', outside, entry, called, acquired]
    · rw [queued_of_ne act' same]
      simp [called, acquired, Ne.symm same]
  · intro j a act free
    by_cases same : j = i
    · subst same
      rw [act', Function.update_self, entry, Option.some.injEq] at act
      rw [← act]
    · rw [act', Function.update_of_ne same] at act
      exact inv.outside j a act free
  · cases inv.session with
    | free free served idle mem =>
      exact .free free (by rw [back, taken]; exact served) idle (by rw [taken]; exact mem)
    | held j a t' before has act last served hold =>
      have other : j ≠ i := by
        rintro rfl
        rw [outside] at act
        cases act
      exact .held j a t' before has (by rw [act', Function.update_of_ne other]; exact act)
        (taken.trans last) (back.trans served) hold

theorem Inv.acquire {t : Payload} (inv : Inv m tr s) (he : s.Enabled (.acquire i t)) :
    Inv m (tr ++ [.acquire i t]) (s.next (.acquire i t)) := by
  obtain ⟨a, act, pc, rfl, hstep⟩ := he
  obtain ⟨⟨b, mem⟩, hresumed⟩ := Option.isSome_iff_exists.mp hstep
  have next : s.next (.acquire i a.trans) = _ := step_of_resumed hresumed
  rw [resumed_of_act act] at hresumed
  simp only [Activation.resume, pc, Option.ite_none_right_eq_some, Option.some.injEq,
    Prod.mk.injEq] at hresumed
  obtain ⟨free, rfl, rfl⟩ := hresumed
  have act' : (s.next (.acquire i a.trans)).act =
    Function.update s.act i (some (a.burst s.now)) := by rw [next]
  have owner' : (s.next (.acquire i a.trans)).mem.rtlAccess = some i := by rw [next]
  have pipe' : (s.next (.acquire i a.trans)).mem.pipe = s.mem.pipe := by rw [next]
  have edges' : (s.next (.acquire i a.trans)).edges = s.edges := by rw [next]
  have taken : acquired (tr ++ [.acquire i a.trans]) = acquired tr ++ [(i, a.trans)] := by
    rw [acquired_append]
    rfl
  have back : returned (tr ++ [.acquire i a.trans]) = returned tr := by
    rw [returned_append]
    exact List.append_nil _
  cases inv.session with
  | held _ _ _ _ has => rw [free] at has; cases has
  | free _ served idle settled =>
    have holding : (a.burst s.now).Holding a.trans (settle serveCall m (acquired tr))
      s.mem.pipe := Activation.burst_holding idle settled
    have entered := holding.pc_ne.1
    refine ⟨pipe' ▸ inv.valid, ?_, inv.queue_next fun j => ?_, ?_, ?_⟩
    · rw [edges', pipe']
      exact inv.cleared
    · by_cases same : j = i
      · subst same
        rw [queued_of_lock act pc, queued_of_entered (by rw [act', Function.update_self]) entered]
        simp [called, acquired]
      · rw [queued_of_ne act' same]
        simp [called, acquired, Ne.symm same]
    · intro j b act'' other
      by_cases same : j = i
      · subst same
        exact absurd owner' other
      · rw [act', Function.update_of_ne same] at act''
        exact inv.outside j b act'' (by rw [free]; rintro ⟨⟩)
    · exact .held i _ a.trans (acquired tr) owner' (by rw [act', Function.update_self]) taken
        (back.trans served) (pipe' ▸ holding)

theorem Inv.go (inv : Inv m tr s) (he : s.Enabled (.go i)) :
    Inv m (tr ++ [.go i]) (s.next (.go i)) := by
  obtain ⟨a, act, entered, busy, hstep⟩ := he
  obtain ⟨⟨b, mem⟩, hresumed⟩ := Option.isSome_iff_exists.mp hstep
  have next : s.next (.go i) = _ := step_of_resumed hresumed
  rw [resumed_of_act act] at hresumed
  obtain ⟨t, before, last, served, holding⟩ := inv.session_of act entered
  obtain ⟨holding', same⟩ := Activation.resume_holding holding hresumed busy
  obtain ⟨hrstn, hblock⟩ := Activation.resume_block hresumed
  have act' : (s.next (.go i)).act = Function.update s.act i (some b) := by rw [next]
  have mem' : (s.next (.go i)).mem = mem := by rw [next]
  have edges' : (s.next (.go i)).edges = s.edges := by rw [next]
  have owner : s.mem.rtlAccess = some i := inv.owner_of act entered
  have entered' := holding'.pc_ne.1
  have taken : acquired (tr ++ [.go i]) = acquired tr := by
    rw [acquired_append]
    exact List.append_nil _
  have back : returned (tr ++ [.go i]) = returned tr := by
    rw [returned_append]
    exact List.append_nil _
  refine ⟨?_, ?_, inv.queue_next fun j => ?_, ?_, ?_⟩
  · rw [mem']
    exact Activation.resume_valid inv.valid hresumed
  · rw [edges', mem', Pipe.Cleared, hrstn, hblock]
    exact inv.cleared
  · by_cases other : j = i
    · subst other
      rw [queued_of_entered act entered,
        queued_of_entered (by rw [act', Function.update_self]) entered']
      simp [called, acquired]
    · rw [queued_of_ne act' other]
      simp [called, acquired]
  · intro j c act'' free
    rw [mem', same, owner] at free
    have other : j ≠ i := fun eq => free (by rw [eq])
    rw [act', Function.update_of_ne other] at act''
    exact inv.outside j c act'' (by rw [owner]; exact fun eq => other (Option.some.inj eq).symm)
  · exact .held i b t before (by rw [mem', same, owner]) (by rw [act', Function.update_self])
      (taken.trans last) (back.trans served) (by rw [mem']; exact holding')

theorem Inv.ret {t : Payload} (inv : Inv m tr s) (he : s.Enabled (.ret i t)) :
    Inv m (tr ++ [.ret i t]) (s.next (.ret i t)) := by
  obtain ⟨a, act, pc, rfl⟩ := he
  have entered : a.pc ≠ .lock := by rw [pc]; rintro ⟨⟩
  have owner : s.mem.rtlAccess = some i := inv.owner_of act entered
  obtain ⟨t, before, last, served, holding⟩ := inv.session_of act entered
  obtain ⟨idle, result⟩ := holding.finished pc
  have hresumed : s.resumed i = some ({ a with pc := .returned }, ⟨s.mem.pipe, none⟩) := by
    rw [resumed_of_act act]
    simp [Activation.resume, pc, owner]
  have act' : (s.next (.ret i a.trans)).act = Function.update s.act i none := by
    rw [next, step_of_resumed hresumed]
  have mem' : (s.next (.ret i a.trans)).mem = ⟨s.mem.pipe, none⟩ := by
    rw [next, step_of_resumed hresumed]
  have edges' : (s.next (.ret i a.trans)).edges = s.edges := by
    rw [next, step_of_resumed hresumed]
  have taken : acquired (tr ++ [.ret i a.trans]) = acquired tr := by
    rw [acquired_append]
    exact List.append_nil _
  have back : returned (tr ++ [.ret i a.trans]) = returned tr ++ [(i, a.trans)] := by
    rw [returned_append]
    rfl
  obtain ⟨htrans, hram⟩ := Prod.mk.inj result
  refine ⟨?_, ?_, inv.queue_next fun j => ?_, ?_, ?_⟩
  · rw [mem']
    exact inv.valid
  · rw [edges', mem']
    exact inv.cleared
  · by_cases other : j = i
    · subst other
      rw [queued_of_entered act entered]
      simp [called, acquired, queued, act']
    · rw [queued_of_ne act' other]
      simp [called, acquired]
  · intro j c act'' _
    have other : j ≠ i := by
      rintro rfl
      rw [act', Function.update_self] at act''
      cases act''
    rw [act', Function.update_of_ne other] at act''
    exact inv.outside j c act'' (by rw [owner]; exact fun eq => other (Option.some.inj eq).symm)
  · refine .free (by rw [mem']) ?_ (by rw [mem']; exact idle) ?_
    · rw [back, taken, last, StreamServer.replies_append, served, htrans]
      rfl
    · rw [mem', taken, last, StreamServer.settle_append]
      exact hram

theorem Inv.next (inv : Inv m tr s) (he : s.Enabled e) : Inv m (tr ++ [e]) (s.next e) := by
  cases e with
  | call i t delay => exact inv.call he
  | acquire i t => exact inv.acquire he
  | go i => exact inv.go he
  | ret i t => exact inv.ret he
  | edge =>
    exact inv.silent rfl rfl rfl rfl rfl (Pipe.posedge_valid inv.valid)
      (fun _ => Bench.posedge_cleared) (Pipe.posedge_answers inv.valid)
      (Pipe.posedge_settled inv.valid) fun _ _ _ holding => holding.posedge inv.valid
  | release =>
    have cleared := inv.cleared he.2
    obtain ⟨answers, settled⟩ := Pipe.releaseReset_answers cleared
    exact inv.silent rfl rfl rfl rfl rfl (Pipe.releaseReset_valid inv.valid) (fun _ => by rintro ⟨⟩)
      answers settled fun _ _ _ holding => holding.releaseReset cleared
  | advance t =>
    exact inv.silent rfl rfl rfl rfl rfl inv.valid inv.cleared rfl rfl fun _ _ _ holding => holding

theorem run_inv {io : IoBlock top0} (run : machine.Run (powerOn io) tr s) : Inv io.ram tr s :=
  run.invariant (Inv io.ram) (powerOn_inv io) fun _ _ _ => Inv.next

end Initiators
