import RiscvVp.IoBlock
import RiscvVp.Base.EventMachine
import RiscvVp.Base.LatestWrite

/-!
# The words through the register-file block

The block stands in any environment: at every edge its inputs are what they
please. For any widths that fill the data bus, the words that leave are those
that entered, in order, each answered from the words before it.
-/

namespace IoBlock

variable {P : IoBlockParams}

/-- The five fields fill the bus. -/
def FillsBus (P : IoBlockParams) : Prop :=
  P.operationWidth + P.lastWidth + P.unusedWidth + P.addrWidth + P.dataWidth = P.dw

theorem field_above {v w start len : Nat} (x : BitVec v) (y : BitVec w) (above : Nat)
    (split : start = w + above) : (x ++ y).extractLsb' start len = x.extractLsb' above len := by
  rw [BitVec.extractLsb'_append_eq_of_le (by omega), split, Nat.add_sub_cancel_left]

theorem field_next {v w len : Nat} (x : BitVec v) (y : BitVec len) (z : BitVec w) :
    (x ++ y ++ z).extractLsb' w len = y :=
  (field_above (x ++ y) z 0 rfl).trans BitVec.extractLsb'_append_eq_right

/-- The fields stand in the output word where they stood in the input word. -/
theorem downData_fields (fills : FillsBus P) (b : IoBlock P) :
    operationBusIn b.downData = b.operationBusOutQ ∧ lastBusIn b.downData = b.lastBusOutQ ∧
      unusedBusIn b.downData = b.unusedBusOutQ ∧ addrBusIn b.downData = b.addrBusOutQ ∧
      dataBusIn b.downData = b.dataBusOutQ := by
  have widths : P.operationWidth + P.lastWidth + P.unusedWidth + P.addrWidth + P.dataWidth =
    P.dw := fills
  simp only [operationBusIn, lastBusIn, unusedBusIn, addrBusIn, dataBusIn, downData]
  refine ⟨?_, ?_, ?_, ?_, ?_⟩ <;> rw [BitVec.extractLsb'_setWidth_of_le (by omega)]
  · rw [field_above _ _ (P.addrWidth + P.unusedWidth + P.lastWidth) (by omega),
      field_above _ _ (P.unusedWidth + P.lastWidth) (by omega), field_above _ _ P.lastWidth rfl,
      BitVec.extractLsb'_append_eq_left]
  · rw [field_above _ _ (P.addrWidth + P.unusedWidth) (by omega),
      field_above _ _ P.unusedWidth rfl, field_next]
  · rw [field_above _ _ P.addrWidth rfl, field_next]
  · rw [field_next]
  · rw [BitVec.extractLsb'_append_eq_right]

/-- What a word stored at an address, if it did. -/
def stored (a : BitVec P.addrWidth) (w : BitVec P.dw) : Option (BitVec P.dataWidth) :=
  if writeOrRead w ∧ addrBusIn w = a then some (dataBusIn w) else none

/-- The answer to a word after the words `older`, on the power-on contents `ram₀`. -/
structure Answer (ram₀ : BitVec P.addrWidth → BitVec P.dataWidth) (older : List (BitVec P.dw))
    (w reply : BitVec P.dw) : Prop where
  operation : operationBusIn reply = operationBusIn w
  last : lastBusIn reply = lastBusIn w
  unused : unusedBusIn reply = unusedBusIn w
  addr : addrBusIn reply = addrBusIn w
  data : dataBusIn reply = if writeOrRead w then dataBusIn w else
    LatestWrite.latest (stored (addrBusIn w)) (ram₀ (addrBusIn w)) older.reverse

/-- One reply for each word, in order, each from the words before its own. -/
structure Answers (ram₀ : BitVec P.addrWidth → BitVec P.dataWidth)
    (entered replies : List (BitVec P.dw)) : Prop where
  length : replies.length = entered.length
  each : ∀ k w reply, entered[k]? = some w → replies[k]? = some reply →
    Answer ram₀ (entered.take k) w reply

variable {ram₀ : BitVec P.addrWidth → BitVec P.dataWidth} {entered replies : List (BitVec P.dw)}
  {w reply : BitVec P.dw}

theorem Answers.snoc (answers : Answers ram₀ entered replies)
    (answer : Answer ram₀ entered w reply) :
    Answers ram₀ (entered ++ [w]) (replies ++ [reply]) := by
  refine ⟨by simp [answers.length], ?_⟩
  intro k w' reply' hw hreply
  rcases Nat.lt_trichotomy k entered.length with before | rfl | after
  · rw [List.getElem?_append_left before] at hw
    rw [List.getElem?_append_left (answers.length ▸ before)] at hreply
    rw [List.take_append_of_le_length (Nat.le_of_lt before)]
    exact answers.each k w' reply' hw hreply
  · rw [List.getElem?_concat_length] at hw
    rw [← answers.length, List.getElem?_concat_length] at hreply
    cases hw
    cases hreply
    rw [List.take_left]
    exact answer
  · rw [List.getElem?_eq_none (by simp; omega)] at hw
    cases hw

/-- Edges under reset, with `up_valid` low. -/
def resetEdges (b : IoBlock P) (edges : List (BitVec P.dw × Bool)) : IoBlock P :=
  edges.foldl (fun b (upData, downReady) => b.posedge false false upData downReady) b

theorem resetEdges_spec (b : IoBlock P) {edges : List (BitVec P.dw × Bool)} (some : edges ≠ []) :
    (b.resetEdges edges).downValidQ = false ∧ (b.resetEdges edges).ram = b.ram := by
  have ram : ∀ b : IoBlock P, (b.resetEdges edges).ram = b.ram := by
    clear some
    induction edges with
    | nil => exact fun _ => rfl
    | cons e edges ih => exact fun b => (ih _).trans (posedge_ram_idle ..)
  refine ⟨?_, ram b⟩
  obtain rfl | ⟨edges, e, rfl⟩ := List.eq_nil_or_concat edges
  · exact absurd rfl some
  · rw [List.concat_eq_append, resetEdges, List.foldl_append]
    rfl

end IoBlock

/-- The inputs at one edge. -/
structure BlockInput (P : IoBlockParams) where
  upValid : Bool
  upData : BitVec P.dw
  downReady : Bool

/-- The block with the words that went in and out of it. -/
structure BlockStream (P : IoBlockParams) where
  block : IoBlock P
  entered : List (BitVec P.dw)
  left : List (BitVec P.dw)

namespace BlockStream

open IoBlock (FillsBus Answer Answers stored)

variable {P : IoBlockParams}

/-- Out of reset every input is possible at every edge. Both handshakes are those
of the signals before the edge. -/
def machine (P : IoBlockParams) : EventMachine (BlockStream P) (BlockInput P) where
  Enabled _ _ := True
  next s e :=
    { block := s.block.posedge true e.upValid e.upData e.downReady
      entered := s.entered ++ if e.upValid && IoBlock.upReady e.downReady then [e.upData] else []
      left := s.left ++ if s.block.downValid && e.downReady then [s.block.downData] else [] }

/-- The word at the output, if there is one. -/
def held (s : BlockStream P) : List (BitVec P.dw) :=
  if s.block.downValid then [s.block.downData] else []

/-- The block as reset leaves it. -/
def released (b : IoBlock P) (edges : List (BitVec P.dw × Bool)) : BlockStream P :=
  ⟨b.resetEdges edges, [], []⟩

/-- The words that left and the one at the output answer those that entered, which
have left their bytes in the RAM. -/
structure Inv (ram₀ : BitVec P.addrWidth → BitVec P.dataWidth) (s : BlockStream P) : Prop where
  answers : Answers ram₀ s.entered (s.left ++ s.held)
  ram : ∀ a, s.block.ram a = LatestWrite.latest (stored a) (ram₀ a) s.entered.reverse

variable {ram₀ : BitVec P.addrWidth → BitVec P.dataWidth} {s : BlockStream P} {e : BlockInput P}

theorem released_inv (b : IoBlock P) {edges : List (BitVec P.dw × Bool)} (some : edges ≠ []) :
    Inv b.ram (released b edges) := by
  obtain ⟨empty, ram⟩ := b.resetEdges_spec some
  have nothing : (released b edges).held = [] := if_neg (by
    change ¬ (b.resetEdges edges).downValidQ = true
    rw [empty]
    exact Bool.false_ne_true)
  refine ⟨⟨?_, ?_⟩, fun a => congrFun ram a⟩
  · rw [nothing]
    rfl
  · intro k w reply hw
    cases hw

/-- A word taken in goes to the output with its answer. -/
theorem answer_posedge (fills : FillsBus P) (inv : Inv ram₀ s) (upValid : Bool)
    (w : BitVec P.dw) :
    Answer ram₀ s.entered w (s.block.posedge true upValid w true).downData := by
  obtain ⟨operation, last, unused, addr, data⟩ :=
    IoBlock.downData_fields fills (s.block.posedge true upValid w true)
  refine ⟨operation, last, unused, addr, data.trans ?_⟩
  change s.block.dataBusOutD w = _
  rw [IoBlock.dataBusOutD, IoBlock.dataMemread, inv.ram]

theorem Inv.next (fills : FillsBus P) (inv : Inv ram₀ s) : Inv ram₀ ((machine P).next s e) := by
  obtain ⟨upValid, w, downReady⟩ := e
  cases downReady with
  | false =>
    -- a stalled block takes no word and gives none away
    have still : (machine P).next s ⟨upValid, w, false⟩ = s := by
      simp [machine, IoBlock.posedge_stalled, IoBlock.upReady]
    rw [still]
    exact inv
  | true =>
    have left : ((machine P).next s ⟨upValid, w, true⟩).left = s.left ++ s.held := by
      simp [machine, held]
    cases upValid with
    | false =>
      have empty : ((machine P).next s ⟨false, w, true⟩).held = [] := rfl
      have entered : ((machine P).next s ⟨false, w, true⟩).entered = s.entered :=
        List.append_nil _
      refine ⟨?_, fun a => ?_⟩
      · rw [left, empty, entered, List.append_nil]
        exact inv.answers
      · rw [entered, ← inv.ram]
        exact congrFun (IoBlock.posedge_ram_idle ..) a
    | true =>
      have full : ((machine P).next s ⟨true, w, true⟩).held =
        [(s.block.posedge true true w true).downData] := rfl
      have entered : ((machine P).next s ⟨true, w, true⟩).entered = s.entered ++ [w] := rfl
      refine ⟨?_, fun a => ?_⟩
      · rw [left, full, entered]
        exact inv.answers.snoc (answer_posedge fills inv true w)
      · rw [entered, List.reverse_append, List.reverse_singleton, List.singleton_append,
          LatestWrite.latest_cons, ← inv.ram]
        change (if IoBlock.ramWe true w true then _ else _ : BitVec P.addrWidth → _) a = _
        simp only [IoBlock.ramWe, IoBlock.en, stored, Bool.and_self, Bool.true_and]
        by_cases store : IoBlock.writeOrRead w
        · by_cases here : IoBlock.addrBusIn w = a
          · subst here
            simp [store]
          · simp [store, here, Function.update_of_ne (Ne.symm here)]
        · simp [store]

variable {tr : List (BlockInput P)} {b : IoBlock P} {edges : List (BitVec P.dw × Bool)}

/-- From reset on, in any environment: what has left and what is at the output
answers, in order, what has entered, and a word that waits at the output stays
there unchanged, with the RAM. -/
theorem left_answers_entered (fills : FillsBus P) (b : IoBlock P) (some : edges ≠ [])
    (run : (machine P).Run (released b edges) tr s) :
    Answers b.ram s.entered (s.left ++ s.held) ∧
      (s.block.downValid = true → ∀ upValid upData,
        (s.block.posedge true upValid upData false).downValid = true ∧
          (s.block.posedge true upValid upData false).downData = s.block.downData ∧
          (s.block.posedge true upValid upData false).ram = s.block.ram) := by
  constructor
  · have inv := run.invariant (fun _ s => Inv b.ram s) (released_inv b some)
      fun _ _ _ inv _ => inv.next fills
    exact inv.answers
  · intro waiting upValid upData
    rw [IoBlock.posedge_stalled]
    exact ⟨waiting, rfl, rfl⟩

instance (s : BlockStream P) (e : BlockInput P) : Decidable ((machine P).Enabled s e) :=
  inferInstanceAs (Decidable True)

/-- A bus of one operation, one last, one unused, two address and three data bits. -/
def eightBits : IoBlockParams := ⟨8, 1, 1, 1, 2, 3⟩

/-- Power-on with a stale word at the output and fives in the RAM. -/
def fives : IoBlock eightBits := ⟨true, 1, 1, 1, 3, 7, fun _ => 5⟩

/-- A store of 6 at address 1, a load of it that has to wait, and a load of address 2. -/
def storeAndLoads : List (BlockInput eightBits) :=
  [⟨true, 0b10001110#8, true⟩, ⟨true, 0b01001000#8, true⟩, ⟨true, 0b00110000#8, false⟩,
    ⟨true, 0b00110000#8, true⟩]

theorem left_answers_entered_storeAndLoads : ∃ s,
    (machine eightBits).Run (released fives [(0#8, true)]) storeAndLoads s ∧
      s.left = [0b10001110#8, 0b01001110#8] ∧ s.held = [0b00110101#8] ∧
      Answers (fun _ => 5) s.entered (s.left ++ s.held) := by
  have admits : (machine eightBits).Admits (released fives [(0#8, true)]) storeAndLoads := by
    decide
  have run := EventMachine.run_of_admits admits
  have result := left_answers_entered (P := eightBits) rfl fives (List.cons_ne_nil _ _) run
  exact ⟨_, run, rfl, rfl, result.1⟩

end BlockStream
