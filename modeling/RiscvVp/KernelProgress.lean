import RiscvVp.Kernel
import RiscvVp.PipelineProgress

/-!
# Every call returns

Work counts the beats to push and the charge of those under way. Every wait of
a call ends by a time at which some work is done, and all that can be done
before is bounded. So the time of return has a deadline that no event moves
back, and what may still happen within one instant is counted on top of it.
-/

/-- Both delays of the extension together; a call without one has none. -/
def Payload.pace (t : Payload) : Nat :=
  match t.extension with
  | none => 0
  | some ext => ext.reqDelay + ext.respDelay

/-- Beats the call has not pushed yet. -/
def Pc.unsent (length : Nat) : Pc → Nat
  | .lock => length
  | .write i _ => length - i
  | .read i => length - (i + 1)
  | .wait _ l _ => length - l.currReq
  | _ => 0

namespace Poll

variable {l l' : Poll} {t t' : Payload} {ext : RtlcontrolTlmExtension} {now : Nat} {p q : Pipe}

/-- The request slot pushes one beat or leaves the queues alone. -/
theorem requestSlot_outcome (slot : l.requestSlot t ext now p = (l', q)) :
    l'.currResp = l.currResp ∧ l'.nextresptime = l.nextresptime ∧
      l'.nextreqtime = (if l.nextreqtime ≤ now then l.nextreqtime + ext.reqDelay
        else l.nextreqtime) ∧
      ((l.currReq < t.dataLength ∧ l'.currReq = l.currReq + 1 ∧ ∃ w, p.nbWrite w = some q) ∨
        (q = p ∧ l'.currReq = l.currReq ∧
          (l.nextreqtime ≤ now → l.currReq < t.dataLength → p.reqPipe.items.length = 4))) := by
  have packed := l.packed_locals t
  rw [Poll.requestSlot] at slot
  split at slot
  · rename_i due
    rw [if_pos due]
    simp only [Poll.tryRequest] at slot
    split at slot
    · rename_i more
      cases hwrite : p.nbWrite (l.packed t).reqVec with
      | none =>
        rw [hwrite] at slot
        cases slot
        exact ⟨packed.2.1, packed.2.2, rfl,
          Or.inr ⟨rfl, packed.1, fun _ _ => Pipe.nbWrite_eq_none.mp hwrite⟩⟩
      | some r =>
        rw [hwrite] at slot
        cases slot
        exact ⟨packed.2.1, packed.2.2, rfl, Or.inl ⟨more, rfl, _, hwrite⟩⟩
    · rename_i sent
      cases slot
      exact ⟨rfl, rfl, rfl, Or.inr ⟨rfl, rfl, fun _ more => absurd more sent⟩⟩
  · rename_i early
    cases slot
    rw [if_neg early]
    exact ⟨rfl, rfl, rfl, Or.inr ⟨rfl, rfl, fun due => absurd due early⟩⟩

/-- The response slot pops one answer or leaves the queues alone. -/
theorem responseSlot_outcome (slot : l.responseSlot t ext now p = (l', t', q)) :
    l'.currReq = l.currReq ∧ l'.nextreqtime = l.nextreqtime ∧
      l'.nextresptime = (if l.nextresptime ≤ now then l.nextresptime + ext.respDelay
        else l.nextresptime) ∧
      ((∃ w, p.nbRead = some (w, q)) ∨
        (q = p ∧ l'.currResp = l.currResp ∧
          (l.nextresptime ≤ now → p.respPipe.items = []))) := by
  rw [Poll.responseSlot] at slot
  split at slot
  · rename_i due
    rw [if_pos due]
    simp only [Poll.tryResponse] at slot
    cases hread : p.nbRead with
    | none =>
      rw [hread] at slot
      cases slot
      exact ⟨rfl, rfl, rfl, Or.inr ⟨rfl, rfl, fun _ => Pipe.nbRead_eq_none.mp hread⟩⟩
    | some r =>
      rw [hread] at slot
      cases slot
      exact ⟨rfl, rfl, rfl, Or.inl ⟨_, rfl⟩⟩
  · rename_i early
    cases slot
    rw [if_neg early]
    exact ⟨rfl, rfl, rfl, Or.inr ⟨rfl, rfl, fun due => absurd due early⟩⟩

end Poll

namespace Kernel

variable {ι : Type} [DecidableEq ι] {period : Nat} {me : ι} {k : Kernel ι} {t : Payload} {m : Ram}

/-- The thread polls on two grids and wakes up at the next point of either. -/
def Paced (k : Kernel ι) : Prop :=
  match k.act.pc with
  | .wait ext l wake => wake = min l.nextreqtime l.nextresptime ∧ k.now ≤ wake ∧
      l.nextreqtime ≤ k.now + ext.reqDelay ∧ l.nextresptime ≤ k.now + ext.respDelay
  | _ => True

/-- A state on the way from the call with payload t on the memory m. -/
structure Running (period : Nat) (t : Payload) (m : Ram) (me : ι) (k : Kernel ι) : Prop where
  timed : k.Timed period
  phase : Phase t m me k
  paced : k.Paced

def work (length : Nat) (k : Kernel ι) : Nat := 6 * k.act.pc.unsent length + k.pipe.work

/-- Out of reset some work is done by this time, or the call goes on at it. -/
def due (window : Nat) (k : Kernel ι) : Nat :=
  match k.act.pc with
  | .lock => k.now + window
  | .read _ => if k.pipe.respPipe.items = [] then k.nextEdge else k.now
  | .wait _ l _ =>
    if k.pipe.respPipe.items = [] then if k.pipe.Outside then k.nextEdge else l.nextreqtime
    else l.nextresptime
  | _ => k.now

def deadline (window length : Nat) (k : Kernel ι) : Nat :=
  match k.release with
  | none => k.due window + k.work length * window
  | some r => r + (k.work length + 1) * window

/-- A wait entered at a polling instant ends at a later one. -/
theorem pollingHead_paced {a : Activation} {now : Nat} {ext : RtlcontrolTlmExtension} {l : Poll}
    (req : now < l.nextreqtime) (resp : now < l.nextresptime) :
    a.pollingHead now ext l = { a with pc :=
      if l.currResp < a.trans.dataLength then .wait ext l (min l.nextreqtime l.nextresptime)
      else .unlock } := by
  have wake : now + scTimeSub (min l.nextreqtime l.nextresptime) now =
      min l.nextreqtime l.nextresptime := by
    rw [scTimeSub_of_le (by omega)]
    omega
  rw [Activation.pollingHead, wake]
  split <;> rfl

/-- What one iteration of the polling loop can do: some beat moves, or neither
slot that was due could move one. Both slots are due again at a later time. -/
theorem poll_outcome {a : Activation} {now : Nat} {ext : RtlcontrolTlmExtension} {l : Poll}
    {p : Pipe} (instant : now = min l.nextreqtime l.nextresptime)
    (positive : 0 < ext.reqDelay ∧ 0 < ext.respDelay)
    (req : l.nextreqtime ≤ now + ext.reqDelay) (resp : l.nextresptime ≤ now + ext.respDelay) :
    ∃ l', (a.poll now ext l p).1.pc = (if l'.currResp < a.trans.dataLength then
        .wait ext l' (min l'.nextreqtime l'.nextresptime) else .unlock) ∧
      (now < l'.nextreqtime ∧ l'.nextreqtime ≤ now + ext.reqDelay) ∧
      (now < l'.nextresptime ∧ l'.nextresptime ≤ now + ext.respDelay) ∧
      (6 * (a.trans.dataLength - l'.currReq) + (a.poll now ext l p).2.work <
          6 * (a.trans.dataLength - l.currReq) + p.work ∨
        ((a.poll now ext l p).2 = p ∧ l'.currReq = l.currReq ∧ l'.currResp = l.currResp ∧
          (l'.nextreqtime = l.nextreqtime ∨
            (l.currReq < a.trans.dataLength → p.reqPipe.items.length = 4)) ∧
          (l'.nextresptime = l.nextresptime ∨ p.respPipe.items = []))) := by
  cases hreq : l.requestSlot a.trans ext now p with | mk l₁ q =>
  cases hresp : l₁.responseSlot a.trans ext now q with | mk l₂ r =>
  obtain ⟨trans, r⟩ := r
  obtain ⟨before, kept, nextreq, pushed⟩ := Poll.requestSlot_outcome hreq
  obtain ⟨sent, kept', nextresp, popped⟩ := Poll.responseSlot_outcome hresp
  have length : trans.dataLength = a.trans.dataLength := by
    have touched := congrArg (fun s => s.2.1.dataLength) hresp
    simp only [Poll.responseSlot, Poll.tryResponse] at touched
    split at touched
    · split at touched <;> simpa using touched.symm
    · exact touched.symm
  have reqgrid : now < l₂.nextreqtime ∧ l₂.nextreqtime ≤ now + ext.reqDelay := by
    rw [kept', nextreq]
    split <;> omega
  have respgrid : now < l₂.nextresptime ∧ l₂.nextresptime ≤ now + ext.respDelay := by
    rw [nextresp, kept]
    split <;> omega
  simp only [Activation.poll, hreq, hresp, pollingHead_paced reqgrid.1 respgrid.1]
  refine ⟨l₂, by rw [length], reqgrid, respgrid, ?_⟩
  rcases pushed with ⟨more, hcurr, w, hwrite⟩ | ⟨rfl, hcurr, full⟩
  · left
    have charge := Pipe.nbWrite_work hwrite
    rcases popped with ⟨w, hread⟩ | ⟨rfl, _, _⟩
    · have := Pipe.nbRead_work hread
      omega
    · omega
  · rcases popped with ⟨w, hread⟩ | ⟨rfl, got, empty⟩
    · left
      have := Pipe.nbRead_work hread
      omega
    · right
      refine ⟨rfl, sent.trans hcurr, got.trans before, ?_, ?_⟩
      · by_cases early : l.nextreqtime ≤ now
        · exact Or.inr (full early)
        · rw [kept', nextreq, if_neg early]
          exact Or.inl rfl
      · by_cases early : l.nextresptime ≤ now
        · exact Or.inr (empty (by omega))
        · rw [nextresp, kept, if_neg early]
          exact Or.inl rfl

/-- Where a burst starts. -/
theorem burst_outcome {a : Activation} (now : Nat) (positive : a.trans.PositiveDelays) :
    (a.burst now).pc = .unlock ∨ (0 < a.trans.dataLength ∧
      ((a.burst now).pc = .write 0 (a.trans.reqBeat 0) ∨
        ∃ ext l, a.trans.extension = some ext ∧
          (a.burst now).pc = .wait ext l (min l.nextreqtime l.nextresptime) ∧ l.currReq = 0 ∧
          l.nextreqtime = now + ext.reqDelay ∧ l.nextresptime = now + ext.respDelay)) := by
  rw [Activation.burst]
  cases hext : a.trans.extension with
  | none =>
    simp only [Activation.blockingHead]
    split
    · rename_i more
      exact Or.inr ⟨more, Or.inl rfl⟩
    · exact Or.inl rfl
  | some ext =>
    have pos := positive ext hext
    simp only
    rw [pollingHead_paced (by simpa using pos.1) (by simpa using pos.2)]
    simp only
    split
    · rename_i more
      exact Or.inr ⟨more, Or.inr ⟨ext, _, rfl, rfl, rfl, rfl, rfl⟩⟩
    · exact Or.inl rfl

/-- Resumptions still possible without time passing. -/
def ops (length : Nat) (k : Kernel ι) : Nat :=
  match k.act.pc with
  | .lock => 2 * length + 4
  | .write i _ => 2 * (length - i) + 1
  | .read i => 2 * (length - i)
  | .wait _ _ wake => if k.now = wake then 3 else 2
  | .unlock => 1
  | _ => 0

/-- What a resumption achieves: it uses up one of those possible at this
instant, and either does some work or keeps what the call waits for. -/
structure Advanced (length window : Nat) (k k' : Kernel ι) : Prop where
  paced : k'.Paced
  ops : k'.ops length < k.ops length
  work : k'.work length ≤ k.work length
  due : k'.work length < k.work length ∨ (k.release = none → k'.due window ≤ k.due window)

variable {window : Nat} {act : Activation} {mem : Memrtl ι}

omit [DecidableEq ι] in
theorem Advanced.of_lighter {length : Nat} {k k' : Kernel ι} (paced : k'.Paced)
    (ops : k'.ops length < k.ops length) (lighter : k'.work length < k.work length) :
    Advanced length window k k' :=
  ⟨paced, ops, Nat.le_of_lt lighter, Or.inl lighter⟩

theorem advanced_of_lock (pc : k.act.pc = .lock) (trans : k.act.trans = t)
    (positive : t.PositiveDelays) (timed : k.Timed period) (wide : period + t.pace ≤ window)
    (step : k.resumed me = some (act, mem)) :
    Advanced t.dataLength window k { k with act := act, mem := mem } := by
  simp only [resumed, Activation.resume, pc, Option.ite_none_right_eq_some, Option.some.injEq,
    Prod.mk.injEq] at step
  obtain ⟨_, rfl, rfl⟩ := step
  subst trans
  have soon := timed.edge_soon
  have outcome := burst_outcome k.now positive
  rcases outcome with idle | ⟨more, blocking | ⟨ext, l, hext, wait, curr, req, resp⟩⟩
  · constructor <;> simp [Paced, Kernel.ops, Kernel.work, Kernel.due, Pc.unsent, pc, idle,
      Platform.pipe]
  · constructor <;> simp [Paced, Kernel.ops, Kernel.work, Kernel.due, Pc.unsent, pc, blocking,
      Platform.pipe]
  · have pos := positive ext hext
    simp only [Payload.pace, hext] at wide
    constructor
    · simp only [Paced, wait, true_and]
      omega
    · simp only [Kernel.ops, pc, wait]
      split <;> omega
    · simp [Kernel.work, Pc.unsent, pc, wait, curr, Platform.pipe]
    · right
      intro _
      simp only [Kernel.due, pc, wait]
      split
      · split <;> omega
      · omega

/-- Nothing in the response queue and nothing outside: no beat is owed. -/
theorem owes_nothing {p : Pipe} (empty : p.respPipe.items = []) (inside : ¬ p.Outside) :
    p.answers = [] :=
  Pipe.answers_eq_nil_of_work (Pipe.work_eq_zero_iff.mpr ⟨empty, inside⟩)

omit [DecidableEq ι] in
/-- A polling instant that moves no beat leaves the slot the call waits for where it was. -/
theorem due_of_poll {ext : RtlcontrolTlmExtension} {l l' : Poll} {wake : Nat}
    (stage : t.Stage m k.pipe k.act.trans l.currReq l.currResp) (more : l.currResp < t.dataLength)
    (pc : k.act.pc = .wait ext l wake)
    (next : act.pc = .wait ext l' (min l'.nextreqtime l'.nextresptime))
    (same : mem.pipe = k.pipe)
    (req : l'.nextreqtime = l.nextreqtime ∨
      (l.currReq < t.dataLength → k.pipe.reqPipe.items.length = 4))
    (resp : l'.nextresptime = l.nextresptime ∨ k.pipe.respPipe.items = []) :
    Kernel.due window { k with act := act, mem := mem } ≤ k.due window := by
  simp only [Kernel.due, pc, next]
  rw [show Platform.pipe ⟨k.now, k.nextEdge, k.release, mem⟩ = k.pipe from same]
  split
  · rename_i empty
    split
    · exact Nat.le_refl _
    · rename_i inside
      -- nothing is under way, so a beat is left to push and the queue is empty
      have owed := stage.answers_length
      rw [owes_nothing empty inside, List.length_nil] at owed
      have popped := stage.popped_le
      have room : k.pipe.reqPipe.items = [] := by
        by_contra waiting
        exact inside (Or.inl waiting)
      rcases req with kept | full
      · exact Nat.le_of_eq kept
      · have := full (by omega)
        simp [room] at this
  · rename_i waiting
    rcases resp with kept | empty
    · exact Nat.le_of_eq kept
    · exact absurd empty waiting

theorem advanced_of_wait {ext : RtlcontrolTlmExtension} {l : Poll} {wake : Nat}
    (stage : t.Stage m k.pipe k.act.trans l.currReq l.currResp) (more : l.currResp < t.dataLength)
    (pc : k.act.pc = .wait ext l wake) (paced : k.Paced)
    (positive : 0 < ext.reqDelay ∧ 0 < ext.respDelay)
    (step : k.resumed me = some (act, mem)) :
    Advanced t.dataLength window k { k with act := act, mem := mem } := by
  simp only [Paced, pc] at paced
  obtain ⟨wakes, _, reqsoon, respsoon⟩ := paced
  simp only [resumed, Activation.resume, pc, Option.ite_none_right_eq_some, Option.some.injEq,
    Prod.mk.injEq] at step
  obtain ⟨instant, rfl, hmem⟩ := step
  obtain ⟨l', hnext, reqgrid, respgrid, outcome⟩ := poll_outcome (a := k.act) (p := k.mem.pipe)
    (instant.trans wakes) positive reqsoon respsoon
  rw [show (k.act.poll k.now ext l k.mem.pipe).2 = mem.pipe by rw [← hmem], stage.dataLength]
    at outcome
  rw [stage.dataLength] at hnext
  by_cases unfinished : l'.currResp < t.dataLength
  · rw [if_pos unfinished] at hnext
    constructor
    · simp only [Paced, hnext, true_and]
      omega
    · simp only [Kernel.ops, pc, hnext]
      rw [if_pos instant, if_neg (by omega)]
      exact Nat.lt_succ_self 2
    · simp only [Kernel.work, Pc.unsent, pc, hnext, Platform.pipe]
      rcases outcome with lighter | ⟨same, curr, _⟩
      · exact Nat.le_of_lt lighter
      · exact Nat.le_of_eq (by rw [curr, same])
    · rcases outcome with lighter | ⟨same, _, _, req, resp⟩
      · left
        simpa only [Kernel.work, Pc.unsent, pc, hnext, Platform.pipe] using lighter
      · exact Or.inr fun _ => due_of_poll stage more pc hnext same req resp
  · rw [if_neg unfinished] at hnext
    refine .of_lighter (by simp only [Paced, hnext]) ?_ ?_
    · simp only [Kernel.ops, pc, hnext]
      split <;> omega
    · simp only [Kernel.work, Pc.unsent, pc, hnext, Platform.pipe]
      rcases outcome with lighter | ⟨_, _, got, _⟩ <;> omega

theorem advanced_of_holding (holding : k.act.Holding t m k.pipe) (paced : k.Paced)
    (positive : t.PositiveDelays) (step : k.resumed me = some (act, mem)) :
    Advanced t.dataLength window k { k with act := act, mem := mem } := by
  obtain ⟨sent, got, stage, hpc⟩ := holding
  have pushed := stage.pushed_le
  have length := stage.dataLength
  cases pc : k.act.pc with
  | write i reqVec =>
    rw [pc] at hpc
    obtain ⟨rfl, rfl, more, _⟩ := hpc
    simp only [resumed, Activation.resume, pc, Option.map_eq_some_iff, Prod.mk.injEq] at step
    obtain ⟨q, hwrite, rfl, rfl⟩ := step
    have charge := Pipe.nbWrite_work hwrite
    refine .of_lighter trivial ?_ ?_
    · simp only [Kernel.ops, pc]
      omega
    · simp only [Kernel.work, Pc.unsent, pc, Platform.pipe]
      omega
  | read i =>
    rw [pc] at hpc
    obtain ⟨rfl, rfl⟩ := hpc
    simp only [resumed, Activation.resume, pc, Option.map_eq_some_iff, Prod.mk.injEq] at step
    obtain ⟨⟨w, q⟩, hread, rfl, rfl⟩ := step
    have charge := Pipe.nbRead_work hread
    simp only [Activation.blockingHead, Payload.acceptResp_dataLength, length]
    split
    · refine .of_lighter trivial ?_ ?_
      · simp only [Kernel.ops, pc]
        omega
      · simp only [Kernel.work, Pc.unsent, pc, Platform.pipe]
        omega
    · refine .of_lighter trivial ?_ ?_
      · simp only [Kernel.ops, pc]
        omega
      · simp only [Kernel.work, Pc.unsent, pc, Platform.pipe]
        omega
  | wait ext l wake =>
    rw [pc] at hpc
    obtain ⟨hext, rfl, rfl, more, _⟩ := hpc
    exact advanced_of_wait stage more pc paced (positive ext hext) step
  | unlock =>
    simp only [resumed, Activation.resume, pc, Option.some.injEq, Prod.mk.injEq] at step
    obtain ⟨rfl, rfl⟩ := step
    constructor <;> simp [Paced, Kernel.ops, Kernel.work, Kernel.due, Pc.unsent, pc, Platform.pipe]
  | lock => rw [pc] at hpc; exact hpc.elim
  | returned => rw [pc] at hpc; exact hpc.elim
  | raised r => rw [pc] at hpc; exact hpc.elim

theorem Running.advanced (running : Running period t m me k) (positive : t.PositiveDelays)
    (wide : period + t.pace ≤ window) (step : k.resumed me = some (act, mem)) :
    Advanced t.dataLength window k { k with act := act, mem := mem } := by
  cases running.phase with
  | locking pc trans => exact advanced_of_lock pc trans positive running.timed wide step
  | holding _ holding => exact advanced_of_holding holding running.paced positive step
  | returned pc => simp [resumed, Activation.resume, pc] at step

theorem Running.next {e : Event} (running : Running period t m me k)
    (positive : t.PositiveDelays) (he : k.Enabled me e) :
    Running period t m me (k.next period me e) := by
  refine ⟨next_timed running.timed he, running.phase.next running.timed he, ?_⟩
  cases e with
  | edge => exact running.paced
  | release => exact running.paced
  | resume =>
    obtain ⟨⟨act, mem⟩, step⟩ := Option.isSome_iff_exists.mp he
    rw [next_resume step]
    exact (running.advanced positive (Nat.le_refl _) step).paced
  | advance d =>
    obtain ⟨_, later, _, _, wake⟩ := he
    have paced := running.paced
    cases pc : k.act.pc with
    | wait ext l w =>
      have := wake w (by simp [Pc.wake, pc])
      simp only [Paced, pc, Kernel.next] at paced ⊢
      omega
    | _ => simp only [Paced, pc, Kernel.next]

omit [DecidableEq ι] in
theorem Running.holding_of (running : Running period t m me k) (entered : k.act.pc ≠ .lock)
    (unfinished : k.act.pc ≠ .returned) : k.act.Holding t m k.pipe := by
  cases running.phase with
  | locking pc => exact absurd pc entered
  | holding _ holding => exact holding
  | returned pc => exact absurd pc unfinished

omit [DecidableEq ι] in
/-- What a call waits for comes neither before now nor after one window. -/
theorem Running.due_bounds (running : Running period t m me k)
    (wide : period + t.pace ≤ window) : k.now ≤ k.due window ∧ k.due window ≤ k.now + window := by
  have edge := running.timed.edge_due
  have soon := running.timed.edge_soon
  have paced := running.paced
  cases pc : k.act.pc with
  | wait ext l wake =>
    obtain ⟨_, _, _, hpc⟩ := running.holding_of (by rw [pc]; rintro ⟨⟩) (by rw [pc]; rintro ⟨⟩)
    rw [pc] at hpc
    have hext := hpc.1
    simp only [Payload.pace, hext] at wide
    simp only [Paced, pc] at paced
    simp only [Kernel.due, pc]
    split
    · split <;> omega
    · omega
  | read i =>
    simp only [Kernel.due, pc]
    split <;> omega
  | _ =>
    simp only [Kernel.due, pc]
    omega

/-- An edge moves the beat the call waits for, or the call does not wait for an edge. -/
theorem Running.edge_advanced (window : Nat) (running : Running period t m me k) :
    (k.next period me .edge).work t.dataLength ≤ k.work t.dataLength ∧
      (k.release = none → (k.next period me .edge).work t.dataLength < k.work t.dataLength ∨
        (k.next period me .edge).due window ≤ k.due window) := by
  have valid := running.timed.valid
  have reset := running.timed.reset
  have edge : (k.next period me .edge).pipe = k.pipe.posedge := rfl
  constructor
  · simp only [Kernel.work, edge]
    have heavier : k.pipe.posedge.work ≤ k.pipe.work := by
      cases live : k.pipe.rstn with
      | false => exact Pipe.posedge_work_le_of_reset valid live
      | true => exact Pipe.posedge_work_le valid live
    exact Nat.add_le_add_left heavier _
  · intro released
    have live : k.pipe.rstn = true := by
      simpa only [Platform.ResetPending, released] using reset
    have moves (outside : k.pipe.Outside) (empty : k.pipe.respPipe.items = []) :
        (k.next period me .edge).work t.dataLength < k.work t.dataLength :=
      Nat.add_lt_add_left (Pipe.posedge_work_lt valid live outside (by simp [empty])) _
    have still (inside : ¬ k.pipe.Outside) (empty : k.pipe.respPipe.items = []) :
        k.pipe.posedge.respPipe.items = [] ∧ ¬ k.pipe.posedge.Outside := by
      have lighter : k.pipe.posedge.work ≤ 0 := by
        rw [← Pipe.work_eq_zero_iff.mpr ⟨empty, inside⟩]
        exact Pipe.posedge_work_le valid live
      exact Pipe.work_eq_zero_iff.mp (Nat.le_zero.mp lighter)
    have act : (k.next period me .edge).act = k.act := rfl
    have now : (k.next period me .edge).now = k.now := rfl
    by_cases empty : k.pipe.respPipe.items = []
    · by_cases outside : k.pipe.Outside
      · exact Or.inl (moves outside empty)
      · right
        obtain ⟨empty', inside'⟩ := still outside empty
        cases pc : k.act.pc with
        | read i =>
          -- the beat being read is somewhere in the pipeline
          obtain ⟨_, _, stage, hpc⟩ :=
            running.holding_of (by rw [pc]; rintro ⟨⟩) (by rw [pc]; rintro ⟨⟩)
          rw [pc] at hpc
          obtain ⟨rfl, rfl⟩ := hpc
          have owed := stage.answers_length
          rw [owes_nothing empty outside, List.length_nil] at owed
          omega
        | wait ext l wake =>
          simp only [Kernel.due, act, pc, edge, if_pos empty, if_pos empty', if_neg outside,
            if_neg inside', Nat.le_refl]
        | _ => simp only [Kernel.due, act, pc, now, Nat.le_refl]
    · right
      have waiting := Pipe.posedge_response_ne_nil valid empty
      cases pc : k.act.pc with
      | _ => simp only [Kernel.due, act, pc, now, edge, if_neg empty, if_neg waiting, Nat.le_refl]

/-- Time passes only towards the deadline, and what the call waits for stays put. -/
theorem Running.advance_due {d : Nat} (window : Nat) (running : Running period t m me k)
    (unfinished : k.act.pc ≠ .returned) (he : k.Enabled me (.advance d)) :
    (k.next period me (.advance d)).due window ≤ k.due window ∧ d ≤ k.due window := by
  obtain ⟨blocked, _, edge, _, wake⟩ := he
  have act : (k.next period me (.advance d)).act = k.act := rfl
  have pipe : (k.next period me (.advance d)).pipe = k.pipe := rfl
  have nextEdge : (k.next period me (.advance d)).nextEdge = k.nextEdge := rfl
  cases pc : k.act.pc with
  | lock =>
    cases running.phase with
    | locking _ _ free => simp [resumed, Activation.resume, pc, free] at blocked
    | holding _ holding =>
      obtain ⟨_, _, _, hpc⟩ := holding
      rw [pc] at hpc
      exact hpc.elim
    | returned pc' => rw [pc] at pc'; cases pc'
  | write i reqVec =>
    obtain ⟨_, _, stage, hpc⟩ := running.holding_of (by rw [pc]; rintro ⟨⟩) unfinished
    rw [pc] at hpc
    obtain ⟨rfl, rfl, _, _⟩ := hpc
    have owed := stage.answers_length
    have idle : k.pipe.answers = [] := List.eq_nil_of_length_eq_zero (by omega)
    simp only [resumed, Activation.resume, pc, Option.map_eq_none_iff, Pipe.nbWrite_eq_none]
      at blocked
    rw [show k.mem.pipe.reqPipe.items = [] from (Pipe.quiet_of_answers idle).1.request] at blocked
    cases blocked
  | read i =>
    simp only [resumed, Activation.resume, pc, Option.map_eq_none_iff, Pipe.nbRead_eq_none]
      at blocked
    have empty : k.pipe.respPipe.items = [] := blocked
    simp only [Kernel.due, act, pc, pipe, nextEdge, if_pos empty]
    exact ⟨Nat.le_refl _, edge⟩
  | wait ext l w =>
    have paced := running.paced
    have upto := wake w (by simp [Pc.wake, pc])
    simp only [Paced, pc] at paced
    simp only [Kernel.due, act, pc, pipe, nextEdge]
    refine ⟨Nat.le_refl _, ?_⟩
    split
    · split <;> omega
    · omega
  | unlock => simp [resumed, Activation.resume, pc] at blocked
  | returned => exact absurd pc unfinished
  | raised r =>
    obtain ⟨_, _, _, hpc⟩ := running.holding_of (by rw [pc]; rintro ⟨⟩) unfinished
    rw [pc] at hpc
    exact hpc.elim

omit [DecidableEq ι] in
/-- Work that is done buys one window of waiting for the next. -/
theorem deadline_le {k k' : Kernel ι} {length : Nat} (same : k'.release = k.release)
    (work : k'.work length ≤ k.work length)
    (due : k.release = none → (k'.work length < k.work length ∧
      k'.due window ≤ k.due window + window) ∨ k'.due window ≤ k.due window) :
    k'.deadline window length ≤ k.deadline window length := by
  simp only [deadline, same]
  split
  · rename_i released
    rcases due released with ⟨lighter, soon⟩ | sooner
    · have paid := Nat.mul_le_mul_right window (Nat.succ_le_of_lt lighter)
      rw [Nat.succ_mul] at paid
      omega
    · have paid := Nat.mul_le_mul_right window work
      omega
  · exact Nat.add_le_add_left (Nat.mul_le_mul_right _ (Nat.succ_le_succ work)) _

theorem Running.deadline_next {e : Event} (running : Running period t m me k)
    (positive : t.PositiveDelays) (wide : period + t.pace ≤ window)
    (unfinished : k.act.pc ≠ .returned) (he : k.Enabled me e) :
    (k.next period me e).deadline window t.dataLength ≤ k.deadline window t.dataLength := by
  have next := running.next positive he
  have bounds := running.due_bounds wide
  have bounds' := next.due_bounds wide
  cases e with
  | edge =>
    have moved := running.edge_advanced window
    refine deadline_le rfl moved.1 fun released => ?_
    rcases moved.2 released with lighter | sooner
    · have now : (k.next period me .edge).now = k.now := rfl
      exact Or.inl ⟨lighter, by omega⟩
    · exact Or.inr sooner
  | release =>
    have due : k.release = some k.now := he
    have released : (k.next period me .release).release = none := rfl
    have now : (k.next period me .release).now = k.now := rfl
    have work : (k.next period me .release).work t.dataLength = k.work t.dataLength := rfl
    simp only [deadline, due, released, work, Nat.succ_mul]
    omega
  | resume =>
    obtain ⟨⟨act, mem⟩, step⟩ := Option.isSome_iff_exists.mp he
    have advanced := running.advanced positive wide step
    rw [next_resume step] at bounds' ⊢
    refine deadline_le rfl advanced.work fun released => ?_
    rcases advanced.due with lighter | sooner
    · exact Or.inl ⟨lighter, Nat.le_trans bounds'.2 (Nat.add_le_add_right bounds.1 _)⟩
    · exact Or.inr (sooner released)
  | advance d =>
    exact deadline_le rfl (Nat.le_refl _) fun _ =>
        Or.inr (running.advance_due window unfinished he).1

theorem Running.advance_le_deadline {d : Nat} (window : Nat) (running : Running period t m me k)
    (unfinished : k.act.pc ≠ .returned) (he : k.Enabled me (.advance d)) :
    d ≤ k.deadline window t.dataLength := by
  have upto := (running.advance_due window unfinished he).2
  obtain ⟨_, _, _, release, _⟩ := he
  simp only [deadline]
  split
  · exact Nat.le_trans upto (Nat.le_add_right _ _)
  · rename_i r pending
    exact Nat.le_trans (release r pending) (Nat.le_add_right _ _)

end Kernel
