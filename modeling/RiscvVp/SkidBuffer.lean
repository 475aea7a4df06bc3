import RiscvVp.Pipeline
import RiscvVp.Base.EventMachine

/-!
# The skid buffer

`pins2queue_method` stands between the block and the response queue. Here both
sides are free: the pins that the block drives take any values at every edge,
and a consumer pops whenever it likes between the edges.
-/

namespace Pipe

/-- The pins at the edge, with a block that drives just these. -/
def offer (p : Pipe) (upValid : Bool) (upData : Word) : Pipe :=
  { p with veritop0 := { p.veritop0 with
    downValidQ := upValid
    operationBusOutQ := IoBlock.operationBusIn upData
    lastBusOutQ := IoBlock.lastBusIn upData
    unusedBusOutQ := IoBlock.unusedBusIn upData
    addrBusOutQ := IoBlock.addrBusIn upData
    dataBusOutQ := IoBlock.dataBusIn upData } }

variable (p : Pipe) (upValid : Bool) (upData : Word)

@[simp] theorem offer_upValid : (p.offer upValid upData).pins2queueUpValid = upValid := rfl

@[simp] theorem offer_upData : (p.offer upValid upData).pins2queueUpData = upData := by
  have whole : (p.offer upValid upData).pins2queueUpData =
      (upData.extractLsb' 31 1 ++ upData.extractLsb' 30 1 ++ upData.extractLsb' 24 6 ++
        upData.extractLsb' 8 16 ++ upData.extractLsb' 0 8 : BitVec (1 + 1 + 6 + 16 + 8)) :=
    BitVec.setWidth_eq _
  rw [whole, IoBlock.header_slices]
  exact IoBlock.header_append_byte upData

@[simp] theorem offer_rstn : (p.offer upValid upData).rstn = p.rstn := rfl

@[simp] theorem offer_state : (p.offer upValid upData).state = p.state := rfl

@[simp] theorem offer_reg : (p.offer upValid upData).reg = p.reg := rfl

@[simp] theorem offer_upReady :
    (p.offer upValid upData).pins2queueUpReady = p.pins2queueUpReady := rfl

@[simp] theorem offer_respPipe : (p.offer upValid upData).respPipe = p.respPipe := rfl

/-- One edge of the method under these pins. -/
def skidEdge : Pipe := (p.offer upValid upData).pins2queueMethod

/-- In the pipeline the pins are those of the block. -/
theorem posedge_skidEdge {edge : Pipe}
    (pins : p.skidEdge p.pins2queueUpValid p.pins2queueUpData = edge) :
    p.posedge.state = edge.state ∧ p.posedge.reg = edge.reg ∧
      p.posedge.pins2queueUpReady = edge.pins2queueUpReady ∧
      p.posedge.respPipe = edge.respPipe := by
  subst pins
  change p.pins2queueMethod.state = _ ∧ p.pins2queueMethod.reg = _ ∧
    p.pins2queueMethod.pins2queueUpReady = _ ∧ p.pins2queueMethod.respPipe = _
  simp only [skidEdge, pins2queueMethod, offer_upValid, offer_upData, offer_rstn, offer_state,
    offer_reg, offer_upReady, offer_respPipe]
  repeat' split
  all_goals exact ⟨rfl, rfl, rfl, rfl⟩

theorem skidEdge_step {p : Pipe} (live : p.rstn = true)
    (ready : p.pins2queueUpReady = decide (p.state = .bypass)) (upValid : Bool) (upData : Word) :
    SkidStep p upValid upData (p.skidEdge upValid upData) := by
  have step := pins2queueMethod_step (p := p.offer upValid upData) live ready
  rw [offer_upValid, offer_upData] at step
  exact ⟨step.rstn, step.ready, step.pushed, step.unmoved⟩

/-- Edges one after the other. -/
def skidEdges (p : Pipe) (edges : List (Bool × Word)) : Pipe :=
  edges.foldl (fun p (e : Bool × Word) => p.skidEdge e.1 e.2) p

theorem skidEdges_of_reset (edges : List (Bool × Word)) {p : Pipe} (reset : p.rstn = false)
    (ready : p.pins2queueUpReady = true) (state : p.state = .bypass) :
    (p.skidEdges edges).pins2queueUpReady = true ∧ (p.skidEdges edges).state = .bypass ∧
      (p.skidEdges edges).respPipe = p.respPipe := by
  induction edges generalizing p with
  | nil => exact ⟨ready, state, rfl⟩
  | cons e edges ih =>
    have edge : p.skidEdge e.1 e.2 =
        { p.offer e.1 e.2 with state := .bypass, pins2queueUpReady := true } := if_pos reset
    have queue : (p.skidEdge e.1 e.2).respPipe = p.respPipe := by rw [edge]; rfl
    obtain ⟨ready, state, rest⟩ :=
      ih (p := p.skidEdge e.1 e.2) (by rw [edge]; exact reset) (by rw [edge]) (by rw [edge])
    exact ⟨ready, state, rest.trans queue⟩

end Pipe

/-- The method's part of the module, with the words accepted from the pins and
those popped from the queue. -/
structure SkidBuffer where
  pipe : Pipe
  accepted : List Word
  popped : List Word

namespace SkidBuffer

inductive Event where
  | posedge (upValid : Bool) (upData : Word)
  | pop

def machine : EventMachine SkidBuffer Event where
  Enabled _ _ := True
  next s
  | .posedge upValid upData =>
    { pipe := s.pipe.skidEdge upValid upData
      accepted := s.accepted ++ if upValid && s.pipe.pins2queueUpReady then [upData] else []
      popped := s.popped }
  | .pop =>
    match s.pipe.nbRead with
    | some (w, q) => { s with pipe := q, popped := s.popped ++ [w] }
    | none => s

/-- The module when reset is released, after any edges under it. -/
def released (io : IoBlock top0) (edges : List (Bool × Word)) : SkidBuffer :=
  ⟨((Pipe.powerOn io).skidEdges edges).releaseReset, [], []⟩

open Pipe (held)

/-- What the buffer holds, oldest first. -/
def contents (s : SkidBuffer) : List Word :=
  s.pipe.respPipe.items ++ held (s.pipe.state = .skid) s.pipe.reg

structure Inv (s : SkidBuffer) : Prop where
  live : s.pipe.rstn = true
  ready : s.pipe.pins2queueUpReady = decide (s.pipe.state = .bypass)
  conserved : s.accepted = s.popped ++ s.contents

variable {s : SkidBuffer} {e : Event} {tr : List Event} {io : IoBlock top0}
  {edges : List (Bool × Word)}

theorem released_inv (io : IoBlock top0) (edges : List (Bool × Word)) :
    Inv (released io edges) := by
  obtain ⟨ready, state, empty⟩ :=
    Pipe.skidEdges_of_reset edges (p := Pipe.powerOn io) rfl rfl rfl
  have contents : (released io edges).contents = [] := by
    change ((Pipe.powerOn io).skidEdges edges).respPipe.items ++
      held (((Pipe.powerOn io).skidEdges edges).state = .skid) _ = []
    rw [empty, state]
    rfl
  refine ⟨rfl, ?_, ?_⟩
  · change ((Pipe.powerOn io).skidEdges edges).pins2queueUpReady =
      decide (((Pipe.powerOn io).skidEdges edges).state = .bypass)
    rw [state]
    exact ready
  · rw [contents]
    rfl

theorem Inv.next (inv : Inv s) : Inv (machine.next s e) := by
  cases e with
  | posedge upValid upData =>
    have step := Pipe.skidEdge_step inv.live inv.ready upValid upData
    refine ⟨step.rstn.trans inv.live, step.ready, ?_⟩
    change s.accepted ++ _ = s.popped ++ _
    rw [inv.conserved, List.append_assoc]
    exact congrArg (s.popped ++ ·) (step.conserves inv.ready)
  | pop =>
    cases popped : s.pipe.nbRead with
    | none =>
      have still : machine.next s .pop = s := by simp only [machine, popped]
      rw [still]
      exact inv
    | some r =>
      obtain ⟨w, q⟩ := r
      obtain ⟨rest, front, rfl⟩ := Pipe.nbRead_eq_some.mp popped
      have next : machine.next s .pop =
          { s with pipe := { s.pipe with respPipe := rest }, popped := s.popped ++ [w] } := by
        simp only [machine, popped]
      have items := BoundedFifo.nbRead_eq_some.mp front
      rw [next]
      refine ⟨inv.live, inv.ready, ?_⟩
      rw [inv.conserved, contents, items, List.append_assoc]
      rfl

/-- After any edges with any words offered and any pops between them: the pins are
ready exactly in bypass, nothing accepted is lost, doubled or overtaken, and an
edge pushes one word exactly if there is room and one to push. -/
theorem skid_buffer (run : machine.Run (released io edges) tr s) :
    (s.pipe.pins2queueUpReady = true ↔ s.pipe.state = .bypass) ∧
      s.accepted = s.popped ++ s.pipe.respPipe.items ++ held (s.pipe.state = .skid) s.pipe.reg ∧
      ∀ upValid upData,
        ((∃ w, (s.pipe.skidEdge upValid upData).respPipe.items = s.pipe.respPipe.items ++ [w]) ↔
          s.pipe.respPipe.items.length < 4 ∧ (s.pipe.state = .skid ∨ upValid = true)) ∧
        (¬ (s.pipe.respPipe.items.length < 4 ∧ (s.pipe.state = .skid ∨ upValid = true)) →
          (s.pipe.skidEdge upValid upData).respPipe.items = s.pipe.respPipe.items ∧
          (s.pipe.state = .skid → (s.pipe.skidEdge upValid upData).state = .skid ∧
            (s.pipe.skidEdge upValid upData).reg = s.pipe.reg)) := by
  have inv : Inv s := run.invariant (fun _ s => Inv s) (released_inv io edges)
    fun _ _ _ inv _ => inv.next
  refine ⟨?_, ?_, fun upValid upData => ?_⟩
  · rw [inv.ready, decide_eq_true_iff]
  · rw [inv.conserved, contents, List.append_assoc]
  · have step := Pipe.skidEdge_step inv.live inv.ready upValid upData
    refine ⟨⟨?_, fun moves => ⟨_, (step.pushed moves).2⟩⟩, fun stays => ?_⟩
    · rintro ⟨w, items⟩
      by_contra stays
      rw [(step.unmoved stays).1] at items
      exact absurd (congrArg List.length items) (by simp)
    · exact ⟨(step.unmoved stays).1, (step.unmoved stays).2.1⟩

instance (s : SkidBuffer) (e : Event) : Decidable (machine.Enabled s e) :=
  inferInstanceAs (Decidable True)

/-- Four words fill the queue, the fifth is caught, the sixth finds the pins not
ready, and the first pop lets the fifth in. -/
def fillAndDrain : List Event :=
  [.posedge true 1, .posedge true 2, .posedge true 3, .posedge true 4, .posedge true 5,
    .posedge true 6, .pop, .posedge true 6]

theorem skid_buffer_fillAndDrain : ∃ s : SkidBuffer,
    machine.Run (released ⟨false, 0, 0, 0, 0, 0, fun _ => 0⟩ [(true, 7)]) fillAndDrain s ∧
      s.accepted = [1, 2, 3, 4, 5] ∧ s.popped = [1] ∧
      s.pipe.respPipe.items = [2, 3, 4, 5] ∧ s.pipe.pins2queueUpReady = true ∧
      s.accepted = s.popped ++ s.pipe.respPipe.items ++ held (s.pipe.state = .skid) s.pipe.reg := by
  have admits : machine.Admits (released ⟨false, 0, 0, 0, 0, 0, fun _ => 0⟩ [(true, 7)])
      fillAndDrain := by
    decide
  have run := EventMachine.run_of_admits admits
  have result := skid_buffer run
  exact ⟨_, run, rfl, rfl, rfl, rfl, result.2.1⟩

end SkidBuffer
