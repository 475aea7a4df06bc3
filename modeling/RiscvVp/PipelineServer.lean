import RiscvVp.Pipeline
import RiscvVp.Base.StreamServer

/-!
# The pipeline answers requests in order

Forgetting where a beat stands turns the pipeline into a server on the register
file: answers wait from the output register of the block on, requests up to the
register in front of it. An edge serves one request when the block takes one
and otherwise only moves beats inside the two queues.
-/

namespace Pipe

open StreamServer

def server (p : Pipe) : StreamServer Ram Word Word := ⟨p.ram, p.respBeats, p.reqBeats⟩

/-- The block takes the word in front of it at this edge. -/
def serves (p : Pipe) : Bool := p.rstn && p.pins2queueUpReady && p.queue2pinsDownValid

theorem server_of_bypass {p : Pipe} (valid : p.Valid) (live : p.rstn = true)
    (bypass : p.state = .bypass) : p.posedge.server =
      if p.queue2pinsDownValid then p.server.serve Ram.access else p.server := by
  have ready : p.pins2queueUpReady = true := by simp [valid.ready, bypass]
  have requests := reqBeats_of_advance live (Or.inr ready)
  have block : p.posedge.veritop0 =
      p.veritop0.posedge true p.queue2pinsDownValid p.queue2pinsDownData true := by
    simp only [posedge, live, ready]
  have offered : p.posedge.pins2queueUpValid = p.queue2pinsDownValid := by
    rw [pins2queueUpValid, block]
    rfl
  have answer : p.posedge.pins2queueUpData = (Ram.access p.ram p.queue2pinsDownData).2 := by
    rw [pins2queueUpData, block]
    exact IoBlock.posedge_downData ..
  have answers : p.posedge.respBeats = p.respBeats ++
      held p.queue2pinsDownValid (Ram.access p.ram p.queue2pinsDownData).2 := by
    rw [respBeats, skidBeats_of_bypass valid live bypass, respBeats, posedge_rstn, live, offered,
      answer]
    simp [bypass]
  rw [server, answers, requests, ram, block]
  cases taken : p.queue2pinsDownValid with
  | false => simp [server, reqBeats, taken, ram]
  | true => simp [server, serve, reqBeats, taken, ram, IoBlock.posedge_ram]

theorem server_of_skid {p : Pipe} (valid : p.Valid) (live : p.rstn = true)
    (skid : p.state = .skid) : p.posedge.server = p.server := by
  have stall : p.pins2queueUpReady = false := by simp [valid.ready, skid]
  have block : p.posedge.veritop0 = p.veritop0 := by
    simp only [posedge, live, stall]
    exact IoBlock.posedge_stalled ..
  have requests : p.posedge.reqBeats = p.reqBeats := by
    cases full : p.queue2pinsDownValid with
    | false => rw [reqBeats_of_advance live (Or.inl full), reqBeats, full]; rfl
    | true => exact reqBeats_of_stall live full stall
  have answers : p.posedge.respBeats = p.respBeats := by
    rw [respBeats, skidBeats_of_skid valid live skid, respBeats, posedge_rstn, pins2queueUpValid,
      pins2queueUpData, block]
    simp [skid, pins2queueUpValid, pins2queueUpData]
  rw [server, answers, requests, ram, block]
  rfl

/-- What one rising edge does to the beats in flight and to the register file. -/
theorem posedge_server {p : Pipe} (valid : p.Valid) : p.posedge.server =
    if p.serves then p.server.serve Ram.access else p.server := by
  cases live : p.rstn with
  | false =>
    obtain ⟨same, _, mem⟩ := posedge_of_reset valid live
    have idle : p.serves = false := by simp [serves, live]
    have answers : p.posedge.respBeats = p.respBeats := by
      rw [same]
      simp [respBeats, live]
    have requests : p.posedge.reqBeats = p.reqBeats := by
      rw [same]
      rfl
    rw [idle, server, answers, requests, mem]
    rfl
  | true =>
    cases state : p.state with
    | bypass =>
      have ready : p.pins2queueUpReady = true := by simp [valid.ready, state]
      simpa [serves, live, ready] using server_of_bypass valid live state
    | skid =>
      have stall : p.pins2queueUpReady = false := by simp [valid.ready, state]
      simpa [serves, stall] using server_of_skid valid live state

/-- Nothing stands in the output register that reset should have cleared. -/
def Cleared (p : Pipe) : Prop := p.rstn = false → p.veritop0.downValidQ = false

theorem releaseReset_server {p : Pipe} (cleared : p.Cleared) :
    p.releaseReset.server = p.server := by
  have answers : p.releaseReset.respBeats = p.respBeats := by
    cases live : p.rstn with
    | false =>
      have empty : p.releaseReset.pins2queueUpValid = false := cleared live
      rw [respBeats, respBeats, live, empty]
      rfl
    | true =>
      rw [respBeats, respBeats, live]
      rfl
  rw [server, answers]
  rfl

theorem nbWrite_server {p q : Pipe} {w : Word} (h : p.nbWrite w = some q) :
    q.server = p.server.push w := by
  obtain ⟨more, hwrite, rfl⟩ := nbWrite_eq_some.mp h
  simp only [server, push, reqBeats, (BoundedFifo.nbWrite_eq_some.mp hwrite).2,
    List.append_assoc]
  rfl

theorem nbRead_server {p q : Pipe} {w : Word} (h : p.nbRead = some (w, q)) :
    p.server.done.head? = some w ∧ q.server = p.server.pop := by
  obtain ⟨rest, hread, rfl⟩ := nbRead_eq_some.mp h
  have items := BoundedFifo.nbRead_eq_some.mp hread
  simp only [server, pop, respBeats, items]
  exact ⟨rfl, rfl⟩

/-- Answers owed to the requests accepted so far, read or not. -/
def answers (p : Pipe) : List Word := p.server.answers Ram.access

/-- The register file once every accepted request has been executed. -/
def settled (p : Pipe) : Ram := p.server.settled Ram.access

@[simp] theorem posedge_answers {p : Pipe} (valid : p.Valid) : p.posedge.answers = p.answers := by
  rw [answers, posedge_server valid]
  split
  · exact answers_serve ..
  · rfl

@[simp] theorem posedge_settled {p : Pipe} (valid : p.Valid) : p.posedge.settled = p.settled := by
  rw [settled, posedge_server valid]
  split
  · exact settled_serve ..
  · rfl

theorem releaseReset_answers {p : Pipe} (cleared : p.Cleared) :
    p.releaseReset.answers = p.answers ∧ p.releaseReset.settled = p.settled := by
  rw [answers, settled, releaseReset_server cleared]
  exact ⟨rfl, rfl⟩

theorem nbWrite_answers {p q : Pipe} {w : Word} (h : p.nbWrite w = some q) :
    q.answers = p.answers ++ [(Ram.access p.settled w).2] ∧
      q.settled = (Ram.access p.settled w).1 := by
  simp only [answers, settled, nbWrite_server h]
  exact ⟨answers_push .., settled_push ..⟩

theorem nbRead_answers {p q : Pipe} {w : Word} (h : p.nbRead = some (w, q)) :
    p.answers = w :: q.answers ∧ q.settled = p.settled := by
  obtain ⟨head, hq⟩ := nbRead_server h
  simp only [answers, settled, hq]
  exact ⟨answers_pop _ _ head, rfl⟩

/-- Two queues of four and three registers hold every beat in flight. -/
theorem answers_length_le (p : Pipe) : p.answers.length ≤ 11 := by
  have hreq := p.reqPipe.fits
  have hresp := p.respPipe.fits
  have reg (v : Bool) (w : Word) : (held v w).length ≤ 1 := by cases v <;> simp
  have hq := reg p.queue2pinsDownValid p.queue2pinsDownData
  have hs := reg (p.state = .skid) p.reg
  have ho := reg (p.rstn && p.pins2queueUpValid) p.pins2queueUpData
  simp only [answers, StreamServer.answers, server, respBeats, reqBeats, List.length_append,
    replies_length]
  omega

/-- No queue and no register holds a beat. -/
structure Drained (p : Pipe) : Prop where
  request : p.reqPipe.items = []
  front : p.queue2pinsDownValid = false
  block : p.veritop0.downValidQ = false
  skid : p.state = .bypass
  response : p.respPipe.items = []

/-- No beat is under way; under reset the output register is void. -/
structure Quiet (p : Pipe) : Prop where
  request : p.reqPipe.items = []
  front : p.queue2pinsDownValid = false
  block : p.rstn = true → p.veritop0.downValidQ = false
  skid : p.state = .bypass
  response : p.respPipe.items = []

/-- With nothing owed the pipeline is empty and the register file is settled. -/
theorem quiet_of_answers {p : Pipe} (none : p.answers = []) : p.Quiet ∧ p.ram = p.settled := by
  obtain ⟨hdone, hpend⟩ := pend_eq_nil_of_answers Ram.access none
  have mem : p.settled = p.ram := by
    rw [settled, StreamServer.settled, hpend]
    rfl
  have unheld {v : Bool} {w : Word} (h : held v w = []) : v = false := by
    cases v with
    | false => rfl
    | true => cases h
  obtain ⟨hfront, hreq⟩ := List.append_eq_nil_iff.mp hpend
  obtain ⟨hqueue, hout⟩ := List.append_eq_nil_iff.mp hdone
  obtain ⟨hresp, hskid⟩ := List.append_eq_nil_iff.mp hqueue
  refine ⟨⟨hreq, unheld hfront, fun live => ?_, ?_, hresp⟩, mem.symm⟩
  · simpa [live, pins2queueUpValid, IoBlock.downValid] using unheld hout
  · have bypass := unheld hskid
    cases state : p.state with
    | bypass => rfl
    | skid => simp [state] at bypass

theorem Quiet.answers_eq_nil {p : Pipe} (quiet : p.Quiet) : p.answers = [] := by
  have out : (p.rstn && p.pins2queueUpValid) = false := by
    cases live : p.rstn with
    | false => rfl
    | true => exact quiet.block live
  simp [answers, StreamServer.answers, server, respBeats, reqBeats, quiet.request, quiet.front,
    quiet.skid, quiet.response, out]

theorem Quiet.settled_eq_ram {p : Pipe} (quiet : p.Quiet) : p.settled = p.ram := by
  simp [settled, StreamServer.settled, server, reqBeats, quiet.request, quiet.front]

theorem Quiet.drained {p : Pipe} (quiet : p.Quiet) (cleared : p.Cleared) : p.Drained := by
  refine ⟨quiet.request, quiet.front, ?_, quiet.skid, quiet.response⟩
  cases live : p.rstn with
  | false => exact cleared live
  | true => exact quiet.block live

end Pipe
