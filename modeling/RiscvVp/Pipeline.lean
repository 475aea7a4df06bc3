import RiscvVp.IoBlock
import RiscvVp.Base.BoundedFifo

/-!
# The clocked half of the RTL memory module

The signals, registers and FIFOs of `memrtl_module` around the block, its two
clocked methods and the rising edge that runs both of them together with the
always blocks. All three read what stood on the signals before the edge.
-/

inductive BufState where
  | bypass
  | skid
deriving DecidableEq, Repr

/-- The request and response queues are `sc_fifo`s of depth 4. -/
structure Pipe where
  rstn : Bool
  reqPipe : BoundedFifo Word 4
  queue2pinsDownValid : Bool
  queue2pinsDownData : Word
  veritop0 : IoBlock top0
  state : BufState
  reg : Word
  pins2queueUpReady : Bool
  respPipe : BoundedFifo Word 4

namespace Pipe

/-- The block passes `down_ready` through as its `up_ready`. -/
def queue2pinsDownReady (p : Pipe) : Bool := IoBlock.upReady p.pins2queueUpReady

def pins2queueUpValid (p : Pipe) : Bool := p.veritop0.downValid

def pins2queueUpData (p : Pipe) : Word := p.veritop0.downData

def ram (p : Pipe) : Ram := p.veritop0.ram

def queue2pinsMethod (p : Pipe) : Pipe :=
  if p.rstn = false then
    { p with queue2pinsDownValid := false }
  else if p.queue2pinsDownValid = false ∨ p.queue2pinsDownReady = true then
    match p.reqPipe.nbRead with
    | some (readValue, rest) =>
      { p with
        reqPipe := rest
        queue2pinsDownValid := true
        queue2pinsDownData := readValue }
    | none => { p with queue2pinsDownValid := false }
  else p

def pins2queueMethod (p : Pipe) : Pipe :=
  if p.rstn = false then
    { p with state := .bypass, pins2queueUpReady := true }
  else
    match p.state with
    | .bypass =>
      if p.pins2queueUpValid = true ∧ p.pins2queueUpReady = true then
        match p.respPipe.nbWrite p.pins2queueUpData with
        | some more => { p with respPipe := more }
        | none =>
          { p with reg := p.pins2queueUpData, state := .skid, pins2queueUpReady := false }
      else p
    | .skid =>
      match p.respPipe.nbWrite p.reg with
      | some more => { p with respPipe := more, state := .bypass, pins2queueUpReady := true }
      | none => p

/-- Both methods run on the same old signals; they write disjoint ones. -/
def methods (p : Pipe) : Pipe :=
  { p with
    reqPipe := p.queue2pinsMethod.reqPipe
    queue2pinsDownValid := p.queue2pinsMethod.queue2pinsDownValid
    queue2pinsDownData := p.queue2pinsMethod.queue2pinsDownData
    state := p.pins2queueMethod.state
    reg := p.pins2queueMethod.reg
    pins2queueUpReady := p.pins2queueMethod.pins2queueUpReady
    respPipe := p.pins2queueMethod.respPipe }

def posedge (p : Pipe) : Pipe :=
  { p.methods with
    veritop0 := p.veritop0.posedge p.rstn p.queue2pinsDownValid p.queue2pinsDownData
      p.pins2queueUpReady }

/-- Signals start as zero and the kernel runs both methods once before any
event; the registers and the memory of the block start as they please. -/
def powerOn (io : IoBlock top0) : Pipe :=
  methods
    { rstn := false
      reqPipe := .empty
      queue2pinsDownValid := false
      queue2pinsDownData := 0
      veritop0 := io
      state := .bypass
      reg := 0
      pins2queueUpReady := false
      respPipe := .empty }

/-- What `reset_thread` does when its timeout has passed. -/
def releaseReset (p : Pipe) : Pipe := { p with rstn := true }

def nbWrite (p : Pipe) (w : Word) : Option Pipe :=
  (p.reqPipe.nbWrite w).map fun more => { p with reqPipe := more }

def nbRead (p : Pipe) : Option (Word × Pipe) :=
  p.respPipe.nbRead.map fun (w, rest) => (w, { p with respPipe := rest })

theorem nbWrite_eq_some {p q : Pipe} {w : Word} : p.nbWrite w = some q ↔
    ∃ more, p.reqPipe.nbWrite w = some more ∧ q = { p with reqPipe := more } := by
  rw [nbWrite, Option.map_eq_some_iff]
  exact exists_congr fun more => and_congr_right' eq_comm

theorem nbWrite_eq_none {p : Pipe} {w : Word} :
    p.nbWrite w = none ↔ p.reqPipe.items.length = 4 := by
  rw [nbWrite, Option.map_eq_none_iff, BoundedFifo.nbWrite_eq_none]

theorem nbRead_eq_some {p q : Pipe} {w : Word} : p.nbRead = some (w, q) ↔
    ∃ rest, p.respPipe.nbRead = some (w, rest) ∧ q = { p with respPipe := rest } := by
  simp only [nbRead, Option.map_eq_some_iff, Prod.exists, Prod.mk.injEq]
  constructor
  · rintro ⟨_, rest, h, rfl, rfl⟩
    exact ⟨rest, h, rfl⟩
  · rintro ⟨rest, h, rfl⟩
    exact ⟨w, rest, h, rfl, rfl⟩

theorem nbRead_eq_none {p : Pipe} : p.nbRead = none ↔ p.respPipe.items = [] := by
  rw [nbRead, Option.map_eq_none_iff, BoundedFifo.nbRead_eq_none]

/-- The word in a register, if the register is occupied. -/
def held (occupied : Bool) (w : Word) : List Word := if occupied then [w] else []

@[simp] theorem held_true (w : Word) : held true w = [w] := rfl

@[simp] theorem held_false (w : Word) : held false w = [] := rfl

/-- Requests the register file has not executed yet, oldest first. -/
def reqBeats (p : Pipe) : List Word :=
  held p.queue2pinsDownValid p.queue2pinsDownData ++ p.reqPipe.items

/-- Answers not read yet, oldest first. Under reset the output register of the
block is void: the next edge clears it. -/
def respBeats (p : Pipe) : List Word :=
  p.respPipe.items ++ held (p.state = .skid) p.reg ++
    held (p.rstn && p.pins2queueUpValid) p.pins2queueUpData

/-- The handshake signals and the skid state agree, and reset keeps the
registers on the request side and the response queue empty. -/
structure Valid (p : Pipe) : Prop where
  ready : p.pins2queueUpReady = decide (p.state = .bypass)
  bypass_of_reset : p.rstn = false → p.state = .bypass
  request_of_reset : p.rstn = false → p.queue2pinsDownValid = false
  response_of_reset : p.rstn = false → p.respPipe.items = []

theorem powerOn_valid (io : IoBlock top0) : (powerOn io).Valid :=
  ⟨rfl, fun _ => rfl, fun _ => rfl, fun _ => rfl⟩

@[simp] theorem posedge_rstn (p : Pipe) : p.posedge.rstn = p.rstn := rfl

/-- Beats move from the request queue to the register in front of the block. -/
theorem reqBeats_of_advance {p : Pipe} (live : p.rstn = true)
    (advance : p.queue2pinsDownValid = false ∨ p.queue2pinsDownReady = true) :
    p.posedge.reqBeats = p.reqPipe.items := by
  change held p.queue2pinsMethod.queue2pinsDownValid p.queue2pinsMethod.queue2pinsDownData ++
    p.queue2pinsMethod.reqPipe.items = _
  rw [queue2pinsMethod, if_neg (by simp [live]), if_pos advance]
  cases hread : p.reqPipe.nbRead with
  | none => simp
  | some r => exact (BoundedFifo.nbRead_eq_some.mp hread).symm

theorem reqBeats_of_stall {p : Pipe} (live : p.rstn = true)
    (full : p.queue2pinsDownValid = true) (stall : p.queue2pinsDownReady = false) :
    p.posedge.reqBeats = p.reqBeats := by
  have method : p.queue2pinsMethod = p := by
    rw [queue2pinsMethod, if_neg (by simp [live]), if_neg (by simp [full, stall])]
  change held p.queue2pinsMethod.queue2pinsDownValid p.queue2pinsMethod.queue2pinsDownData ++
    p.queue2pinsMethod.reqPipe.items = _
  rw [method]
  rfl

/-- What `pins2queue_method` does out of reset: a word goes to the queue exactly if there is
room and one to go, a word that finds no room is kept, a kept word stays till
it goes. -/
structure SkidStep (p : Pipe) (upValid : Bool) (upData : Word) (q : Pipe) : Prop where
  rstn : q.rstn = p.rstn
  ready : q.pins2queueUpReady = decide (q.state = .bypass)
  pushed : p.respPipe.items.length < 4 ∧ (p.state = .skid ∨ upValid = true) →
    q.state = .bypass ∧
      q.respPipe.items = p.respPipe.items ++ [if p.state = .skid then p.reg else upData]
  unmoved : ¬ (p.respPipe.items.length < 4 ∧ (p.state = .skid ∨ upValid = true)) →
    q.respPipe.items = p.respPipe.items ∧
      (p.state = .skid → q.state = .skid ∧ q.reg = p.reg) ∧
      (p.state = .bypass → upValid = true → q.state = .skid ∧ q.reg = upData) ∧
      (p.state = .bypass → upValid = false → q.state = .bypass)

theorem pins2queueMethod_step {p : Pipe} (live : p.rstn = true)
    (ready : p.pins2queueUpReady = decide (p.state = .bypass)) :
    SkidStep p p.pins2queueUpValid p.pins2queueUpData p.pins2queueMethod := by
  have room {w : Word} {more : BoundedFifo Word 4} (taken : p.respPipe.nbWrite w = some more) :
      p.respPipe.items.length < 4 ∧ more.items = p.respPipe.items ++ [w] :=
    BoundedFifo.nbWrite_eq_some.mp taken
  have full {w : Word} (refused : p.respPipe.nbWrite w = none) :
      ¬ p.respPipe.items.length < 4 := by
    rw [BoundedFifo.nbWrite_eq_none.mp refused]
    decide
  rw [pins2queueMethod, if_neg (by simp [live])]
  cases hstate : p.state with
  | bypass =>
    rw [hstate] at ready
    cases hvalid : p.pins2queueUpValid with
    | false =>
      simp only [Bool.false_eq_true, false_and, if_false]
      constructor <;> simp [ready, hstate]
    | true =>
      simp only [ready, decide_true, and_self, if_true]
      cases taken : p.respPipe.nbWrite p.pins2queueUpData with
      | some more =>
        obtain ⟨fits, items⟩ := room taken
        constructor <;> simp [hstate, fits, items]
      | none =>
        have := full taken
        constructor <;> simp [hstate, this]
  | skid =>
    rw [hstate] at ready
    cases taken : p.respPipe.nbWrite p.reg with
    | some more =>
      obtain ⟨fits, items⟩ := room taken
      constructor <;> simp [hstate, fits, items]
    | none =>
      have := full taken
      constructor <;> simp [ready, hstate, this]

/-- A word accepted at the edge goes behind those held, and none of them is lost. -/
theorem SkidStep.conserves {p q : Pipe} {upValid : Bool} {upData : Word}
    (step : SkidStep p upValid upData q)
    (ready : p.pins2queueUpReady = decide (p.state = .bypass)) :
    p.respPipe.items ++ held (p.state = .skid) p.reg ++
        (if upValid && p.pins2queueUpReady then [upData] else []) =
      q.respPipe.items ++ held (q.state = .skid) q.reg := by
  by_cases moves : p.respPipe.items.length < 4 ∧ (p.state = .skid ∨ upValid = true)
  · obtain ⟨bypass, items⟩ := step.pushed moves
    rw [bypass, items]
    cases state : p.state with
    | skid => simp [ready, state]
    | bypass =>
      have valid : upValid = true := by simpa [state] using moves.2
      simp [ready, state, valid]
  · obtain ⟨items, waits, catches, idles⟩ := step.unmoved moves
    rw [items]
    cases state : p.state with
    | skid =>
      obtain ⟨still, kept⟩ := waits state
      simp [ready, state, still, kept]
    | bypass =>
      cases upValid with
      | true =>
        obtain ⟨skid, caught⟩ := catches state rfl
        simp [ready, state, skid, caught]
      | false =>
        have bypass := idles state rfl
        simp [bypass]

theorem Valid.skidStep {p : Pipe} (valid : p.Valid) (live : p.rstn = true) :
    SkidStep p p.pins2queueUpValid p.pins2queueUpData p.posedge := by
  have step := pins2queueMethod_step live valid.ready
  exact ⟨rfl, step.ready, step.pushed, step.unmoved⟩

/-- In bypass the word offered by the block ends in the queue or in the skid register. -/
theorem skidBeats_of_bypass {p : Pipe} (valid : p.Valid) (live : p.rstn = true)
    (bypass : p.state = .bypass) :
    p.posedge.respPipe.items ++ held (p.posedge.state = .skid) p.posedge.reg =
      p.respPipe.items ++ held p.pins2queueUpValid p.pins2queueUpData := by
  rw [← (valid.skidStep live).conserves valid.ready, valid.ready, bypass]
  simp [held]

/-- In skid the kept word ends in the queue as soon as there is room. -/
theorem skidBeats_of_skid {p : Pipe} (valid : p.Valid) (live : p.rstn = true)
    (skid : p.state = .skid) :
    p.posedge.respPipe.items ++ held (p.posedge.state = .skid) p.posedge.reg =
      p.respPipe.items ++ [p.reg] := by
  rw [← (valid.skidStep live).conserves valid.ready, valid.ready, skid]
  simp

/-- An edge under reset empties the output register and touches nothing else of value. -/
theorem posedge_of_reset {p : Pipe} (valid : p.Valid) (reset : p.rstn = false) :
    p.posedge = { p with
      pins2queueUpReady := true
      veritop0 := p.posedge.veritop0 } ∧
      p.posedge.veritop0.downValidQ = false ∧ p.posedge.ram = p.ram := by
  have hstate := valid.bypass_of_reset reset
  have hvalid := valid.request_of_reset reset
  refine ⟨?_, by simp [posedge, reset], by simp [posedge, hvalid, ram]⟩
  simp [posedge, methods, queue2pinsMethod, pins2queueMethod, reset, hvalid, hstate]

theorem posedge_valid {p : Pipe} (valid : p.Valid) : p.posedge.Valid := by
  cases hrstn : p.rstn with
  | false =>
    have same := (posedge_of_reset valid hrstn).1
    have hstate := valid.bypass_of_reset hrstn
    rw [same]
    exact ⟨by simp [hstate], fun _ => hstate, valid.request_of_reset, valid.response_of_reset⟩
  | true =>
    refine ⟨(valid.skidStep hrstn).ready, ?_, ?_, ?_⟩ <;>
      intro h <;> rw [posedge_rstn, hrstn] at h <;> cases h

theorem releaseReset_valid {p : Pipe} (valid : p.Valid) : p.releaseReset.Valid :=
  ⟨valid.ready, by rintro ⟨⟩, by rintro ⟨⟩, by rintro ⟨⟩⟩

theorem nbWrite_valid {p q : Pipe} {w : Word} (valid : p.Valid) (h : p.nbWrite w = some q) :
    q.Valid := by
  obtain ⟨more, _, rfl⟩ := nbWrite_eq_some.mp h
  exact ⟨valid.ready, valid.bypass_of_reset, valid.request_of_reset, valid.response_of_reset⟩

theorem nbRead_valid {p q : Pipe} {w : Word} (valid : p.Valid) (h : p.nbRead = some (w, q)) :
    q.Valid := by
  obtain ⟨rest, hread, rfl⟩ := nbRead_eq_some.mp h
  refine ⟨valid.ready, valid.bypass_of_reset, valid.request_of_reset, fun reset => ?_⟩
  have items := valid.response_of_reset reset
  rw [BoundedFifo.nbRead_eq_some.mp hread] at items
  cases items

end Pipe
