import RiscvVp.PipelineStream

/-!
# Backpressure and progress of the pipeline

A beat is charged for the stages it still has to pass. Out of reset no edge
raises the total charge, and every edge lowers it while some beat stands
before a response queue that has room.
-/

namespace Pipe

/-- The charge of a beat is 5 in the request queue and 1 in the response queue. -/
def work (p : Pipe) : Nat :=
  5 * p.reqPipe.items.length + 4 * p.queue2pinsDownValid.toNat +
    3 * p.pins2queueUpValid.toNat + 2 * (decide (p.state = .skid)).toNat +
    p.respPipe.items.length

/-- Some beat has not reached the response queue. -/
def Outside (p : Pipe) : Prop :=
  p.reqPipe.items ≠ [] ∨ p.queue2pinsDownValid = true ∨ p.pins2queueUpValid = true ∨
    p.state = .skid

/-- Both queues, the valid and ready signals, the skid state and the content of
every occupied register are the same. -/
structure Unchanged (p q : Pipe) : Prop where
  request : q.reqPipe = p.reqPipe
  response : q.respPipe = p.respPipe
  downValid : q.queue2pinsDownValid = p.queue2pinsDownValid
  upValid : q.pins2queueUpValid = p.pins2queueUpValid
  downReady : q.queue2pinsDownReady = p.queue2pinsDownReady
  upReady : q.pins2queueUpReady = p.pins2queueUpReady
  state : q.state = p.state
  downData : p.queue2pinsDownValid = true → q.queue2pinsDownData = p.queue2pinsDownData
  upData : p.pins2queueUpValid = true → q.pins2queueUpData = p.pins2queueUpData
  reg : p.state = .skid → q.reg = p.reg

theorem Unchanged.work_eq {p q : Pipe} (same : Unchanged p q) : q.work = p.work := by
  simp only [work, same.request, same.response, same.downValid, same.upValid, same.state]

variable {p : Pipe}

/-- What an advancing edge leaves of the charge on the request side. -/
theorem work_of_advance (live : p.rstn = true)
    (advance : p.queue2pinsDownValid = false ∨ p.queue2pinsDownReady = true) :
    5 * p.posedge.reqPipe.items.length + 4 * p.posedge.queue2pinsDownValid.toNat +
      min 1 p.reqPipe.items.length = 5 * p.reqPipe.items.length := by
  change 5 * p.queue2pinsMethod.reqPipe.items.length +
    4 * p.queue2pinsMethod.queue2pinsDownValid.toNat + _ = _
  rw [queue2pinsMethod, if_neg (by simp [live]), if_pos advance]
  cases hread : p.reqPipe.nbRead with
  | none => simp [BoundedFifo.nbRead_eq_none.mp hread]
  | some r =>
    simp only [BoundedFifo.nbRead_eq_some.mp hread, List.length_cons, Bool.toNat_true]
    omega

theorem work_of_stall (live : p.rstn = true) (full : p.queue2pinsDownValid = true)
    (stall : p.queue2pinsDownReady = false) :
    p.posedge.reqPipe = p.reqPipe ∧ p.posedge.queue2pinsDownValid = true := by
  change p.queue2pinsMethod.reqPipe = _ ∧ p.queue2pinsMethod.queue2pinsDownValid = true
  rw [queue2pinsMethod, if_neg (by simp [live]), if_neg (by simp [full, stall])]
  exact ⟨rfl, full⟩

/-- In bypass an offered word costs the skid register if the queue is full. -/
theorem work_of_bypass (valid : p.Valid) (live : p.rstn = true) (bypass : p.state = .bypass) :
    2 * (decide (p.posedge.state = .skid)).toNat + p.posedge.respPipe.items.length ≤
      p.respPipe.items.length + 2 * p.pins2queueUpValid.toNat := by
  have step := valid.skidStep live
  by_cases moves : p.respPipe.items.length < 4 ∧ (p.state = .skid ∨ p.pins2queueUpValid = true)
  · obtain ⟨empty, items⟩ := step.pushed moves
    have offered : p.pins2queueUpValid = true := by simpa [bypass] using moves.2
    simp [empty, items, offered]
  · obtain ⟨items, _, catches, idles⟩ := step.unmoved moves
    rw [items]
    cases offered : p.pins2queueUpValid with
    | true => simp [(catches bypass offered).1, Nat.add_comm]
    | false => simp [idles bypass offered]

theorem work_of_skid (valid : p.Valid) (live : p.rstn = true) (skid : p.state = .skid) :
    2 * (decide (p.posedge.state = .skid)).toNat + p.posedge.respPipe.items.length =
      if p.respPipe.items.length < 4 then p.respPipe.items.length + 1
      else p.respPipe.items.length + 2 := by
  have step := valid.skidStep live
  by_cases room : p.respPipe.items.length < 4
  · obtain ⟨empty, items⟩ := step.pushed ⟨room, Or.inl skid⟩
    simp [empty, items, room]
  · obtain ⟨items, waits, _⟩ := step.unmoved fun moves => room moves.1
    simp [(waits skid).1, items, room, Nat.add_comm]

theorem posedge_work_of_bypass (valid : p.Valid) (live : p.rstn = true)
    (bypass : p.state = .bypass) : p.posedge.work + min 1 p.reqPipe.items.length +
      p.queue2pinsDownValid.toNat + p.pins2queueUpValid.toNat ≤ p.work := by
  have ready : p.pins2queueUpReady = true := by simp [valid.ready, bypass]
  have front := work_of_advance live (Or.inr ready)
  have back := work_of_bypass valid live bypass
  have offered : p.posedge.pins2queueUpValid = p.queue2pinsDownValid := by
    simp [pins2queueUpValid, posedge, live, ready, IoBlock.downValid]
  have idle : decide (p.state = .skid) = false := by simp [bypass]
  simp only [work, offered, idle, Bool.toNat_false]
  omega

theorem posedge_work_of_skid (valid : p.Valid) (live : p.rstn = true) (skid : p.state = .skid) :
    p.posedge.work + (if p.respPipe.items.length < 4 then 1 else 0) ≤ p.work := by
  have stall : p.pins2queueUpReady = false := by simp [valid.ready, skid]
  have back := work_of_skid valid live skid
  have offered : p.posedge.pins2queueUpValid = p.pins2queueUpValid := by
    simp [pins2queueUpValid, posedge, live, stall, IoBlock.downValid, IoBlock.posedge]
  have kept : (decide (p.state = .skid)).toNat = 1 := by simp [skid]
  have front : 5 * p.posedge.reqPipe.items.length + 4 * p.posedge.queue2pinsDownValid.toNat ≤
      5 * p.reqPipe.items.length + 4 * p.queue2pinsDownValid.toNat := by
    cases full : p.queue2pinsDownValid with
    | false => have := work_of_advance live (Or.inl full); omega
    | true =>
      obtain ⟨hreq, hvalid⟩ := work_of_stall live full stall
      exact Nat.le_of_eq (by rw [hreq, hvalid])
  simp only [work, offered, kept]
  split at back <;> split <;> omega

theorem posedge_work_le (valid : p.Valid) (live : p.rstn = true) : p.posedge.work ≤ p.work := by
  cases state : p.state with
  | bypass => have := posedge_work_of_bypass valid live state; omega
  | skid => have := posedge_work_of_skid valid live state; omega

/-- In bypass every edge moves whatever is not in the response queue, full or not. -/
theorem posedge_work_lt_of_bypass (valid : p.Valid) (live : p.rstn = true)
    (bypass : p.state = .bypass) (outside : p.Outside) : p.posedge.work < p.work := by
  have charge := posedge_work_of_bypass valid live bypass
  rcases outside with hreq | hfront | hblock | hskid
  · have := List.length_pos_iff.mpr hreq
    omega
  · rw [hfront, Bool.toNat_true] at charge
    omega
  · rw [hblock, Bool.toNat_true] at charge
    omega
  · rw [bypass] at hskid
    cases hskid

/-- While the response queue has room, an edge moves some beat that is not in it. -/
theorem posedge_work_lt (valid : p.Valid) (live : p.rstn = true) (outside : p.Outside)
    (room : p.respPipe.items.length < 4) : p.posedge.work < p.work := by
  cases state : p.state with
  | bypass => exact posedge_work_lt_of_bypass valid live state outside
  | skid =>
    have charge := posedge_work_of_skid valid live state
    rw [if_pos room] at charge
    omega

theorem posedge_work_le_of_reset (valid : p.Valid) (reset : p.rstn = false) :
    p.posedge.work ≤ p.work := by
  obtain ⟨same, cleared, _⟩ := posedge_of_reset valid reset
  have offered : p.posedge.pins2queueUpValid = false := cleared
  have request : p.posedge.reqPipe = p.reqPipe := by rw [same]
  have front : p.posedge.queue2pinsDownValid = p.queue2pinsDownValid := by rw [same]
  have state : p.posedge.state = p.state := by rw [same]
  have response : p.posedge.respPipe = p.respPipe := by rw [same]
  simp only [work, request, front, state, response, offered, Bool.toNat_false]
  omega

/-- An edge takes nothing from the response queue. -/
theorem posedge_response_ne_nil (valid : p.Valid) (waiting : p.respPipe.items ≠ []) :
    p.posedge.respPipe.items ≠ [] := by
  cases live : p.rstn with
  | false => exact absurd (valid.response_of_reset live) waiting
  | true =>
    have step := valid.skidStep live
    by_cases moves : p.respPipe.items.length < 4 ∧ (p.state = .skid ∨ p.pins2queueUpValid = true)
    · rw [(step.pushed moves).2]
      exact List.append_ne_nil_of_left_ne_nil waiting _
    · rw [(step.unmoved moves).1]
      exact waiting

theorem nbWrite_work {q : Pipe} {w : Word} (h : p.nbWrite w = some q) : q.work = p.work + 5 := by
  obtain ⟨more, hwrite, rfl⟩ := nbWrite_eq_some.mp h
  simp only [work, (BoundedFifo.nbWrite_eq_some.mp hwrite).2, List.length_append,
    List.length_singleton, pins2queueUpValid]
  omega

theorem nbRead_work {q : Pipe} {w : Word} (h : p.nbRead = some (w, q)) : p.work = q.work + 1 := by
  obtain ⟨rest, hread, rfl⟩ := nbRead_eq_some.mp h
  simp only [work, BoundedFifo.nbRead_eq_some.mp hread, List.length_cons, pins2queueUpValid]
  omega

instance (p : Pipe) : Decidable p.Outside := inferInstanceAs (Decidable (_ ∨ _ ∨ _ ∨ _))

theorem work_eq_zero_iff : p.work = 0 ↔ p.respPipe.items = [] ∧ ¬ p.Outside := by
  simp only [work, Outside, not_or, Nat.add_eq_zero_iff, Nat.mul_eq_zero, List.length_eq_zero_iff]
  constructor
  · rintro ⟨⟨⟨⟨hreq, hfront⟩, hblock⟩, hskid⟩, hresp⟩
    simp_all
  · rintro ⟨hresp, hreq, hfront, hblock, hskid⟩
    simp_all

/-- Nothing outside and nothing to read: nothing is owed. -/
theorem answers_eq_nil_of_work (idle : p.work = 0) : p.answers = [] := by
  obtain ⟨hresp, outside⟩ := work_eq_zero_iff.mp idle
  simp only [Outside, not_or, not_not, Bool.not_eq_true] at outside
  obtain ⟨hreq, hfront, hblock, hskid⟩ := outside
  refine Quiet.answers_eq_nil ⟨hreq, hfront, fun _ => hblock, ?_, hresp⟩
  cases state : p.state with
  | bypass => rfl
  | skid => exact absurd state hskid

/-- An edge that changes nothing while a beat waits outside met a full response queue. -/
theorem full_of_unchanged (valid : p.Valid) (live : p.rstn = true) (outside : p.Outside)
    (same : Unchanged p p.posedge) : p.respPipe.items.length = 4 := by
  have fits := p.respPipe.fits
  by_cases room : p.respPipe.items.length < 4
  · have moved := posedge_work_lt valid live outside room
    rw [same.work_eq] at moved
    exact absurd moved (Nat.lt_irrefl _)
  · omega

end Pipe

namespace Bench

/-- At most eleven accepted requests are unanswered, and once reset is released
only a consumer that does not read can hold the pipeline still. -/
theorem backpressure (io : IoBlock top0) {tr : List Event} {b : Bench}
    (run : machine.Run (powerOn io) tr b) :
    (pushed tr).length ≤ (popped tr).length + 11 ∧
      (b.pipe.rstn = true → b.pipe.Outside → Pipe.Unchanged b.pipe b.pipe.posedge →
        b.pipe.respPipe.items.length = 4) := by
  constructor
  · have owed := congrArg List.length (run_answers run).1
    have held := b.pipe.answers_length_le
    rw [List.length_append, StreamServer.replies_length] at owed
    omega
  · exact Pipe.full_of_unchanged (run_valid run).pipe

/-- Eleven pushes and no read fill every stage; then an edge changes nothing. -/
def fillUp : List Event :=
  [.posedge, .release] ++ (List.replicate 7 [.nbWrite 1#32 true, .posedge]).flatten ++
    List.replicate 2 .posedge ++ List.replicate 4 (.nbWrite 1#32 true)

theorem fillUp_run : machine.Run (powerOn staleBlock) fillUp
    (machine.after (powerOn staleBlock) fillUp) :=
  EventMachine.run_of_admits (by decide)

theorem backpressure_fillUp :
    machine.Run (powerOn staleBlock) fillUp (machine.after (powerOn staleBlock) fillUp) ∧
      (pushed fillUp).length = (popped fillUp).length + 11 ∧
      (machine.after (powerOn staleBlock) fillUp).pipe.respPipe.items.length = 4 := by
  have held := backpressure staleBlock fillUp_run
  refine ⟨fillUp_run, by decide, held.2 (by decide) (Or.inr (Or.inr (Or.inr (by decide)))) ?_⟩
  constructor <;> decide

end Bench
