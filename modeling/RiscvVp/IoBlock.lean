import Mathlib.Algebra.Order.Ring.Nat
import Mathlib.Logic.Function.Basic
import Mathlib.Data.List.Induction

/-!
# The register-file block

`io_block` of io_block.v with every width a parameter, and the instance that
`top0` makes of it. Assignments to registers take the values the wires have
before the clock edge, so one edge is one function of the old state.
-/

abbrev Byte := BitVec 8

structure IoBlockParams where
  dw : Nat
  operationWidth : Nat
  lastWidth : Nat
  unusedWidth : Nat
  addrWidth : Nat
  dataWidth : Nat

/-- The registers of the block and its register file. -/
structure IoBlock (P : IoBlockParams) where
  downValidQ : Bool
  operationBusOutQ : BitVec P.operationWidth
  lastBusOutQ : BitVec P.lastWidth
  unusedBusOutQ : BitVec P.unusedWidth
  addrBusOutQ : BitVec P.addrWidth
  dataBusOutQ : BitVec P.dataWidth
  ram : BitVec P.addrWidth → BitVec P.dataWidth

namespace IoBlock

variable {P : IoBlockParams}

section Wires
variable (upData : BitVec P.dw)

def operationBusIn : BitVec P.operationWidth :=
  upData.extractLsb' (P.dataWidth + P.addrWidth + P.unusedWidth + P.lastWidth) P.operationWidth

def lastBusIn : BitVec P.lastWidth :=
  upData.extractLsb' (P.dataWidth + P.addrWidth + P.unusedWidth) P.lastWidth

def unusedBusIn : BitVec P.unusedWidth :=
  upData.extractLsb' (P.dataWidth + P.addrWidth) P.unusedWidth

def addrBusIn : BitVec P.addrWidth := upData.extractLsb' P.dataWidth P.addrWidth

def dataBusIn : BitVec P.dataWidth := upData.extractLsb' 0 P.dataWidth

def writeOrRead : Bool := (operationBusIn upData).getLsbD 0

end Wires

variable (b : IoBlock P) (rstN upValid : Bool) (upData : BitVec P.dw) (downReady : Bool)

/-- The register file is read without a clock, so the old byte is seen. -/
def dataMemread : BitVec P.dataWidth := b.ram (addrBusIn upData)

def dataBusOutD : BitVec P.dataWidth :=
  if writeOrRead upData then dataBusIn upData else b.dataMemread upData

def en : Bool := upValid && downReady

def ramWe : Bool := en upValid downReady && writeOrRead upData

def posedge : IoBlock P where
  downValidQ := if rstN = false then false else if downReady then upValid else b.downValidQ
  operationBusOutQ := if downReady then operationBusIn upData else b.operationBusOutQ
  lastBusOutQ := if downReady then lastBusIn upData else b.lastBusOutQ
  unusedBusOutQ := if downReady then unusedBusIn upData else b.unusedBusOutQ
  addrBusOutQ := if downReady then addrBusIn upData else b.addrBusOutQ
  dataBusOutQ := if downReady then b.dataBusOutD upData else b.dataBusOutQ
  ram := if ramWe upValid upData downReady then
      Function.update b.ram (addrBusIn upData) (dataBusIn upData)
    else b.ram

def downValid : Bool := b.downValidQ

def downData : BitVec P.dw :=
  (b.operationBusOutQ ++ b.lastBusOutQ ++ b.unusedBusOutQ ++ b.addrBusOutQ ++
    b.dataBusOutQ).setWidth P.dw

def upReady : Bool := downReady

/-- A stalled block keeps its word and its register file. -/
theorem posedge_stalled : (b.posedge true upValid upData false) = b := by
  simp [posedge, ramWe, en]

@[simp] theorem posedge_downValidQ_reset :
    (b.posedge false upValid upData downReady).downValidQ = false := rfl

@[simp] theorem posedge_downValidQ_ready :
    (b.posedge true upValid upData true).downValidQ = upValid := rfl

@[simp] theorem posedge_ram_idle : (b.posedge rstN false upData downReady).ram = b.ram := by
  simp [posedge, ramWe, en]

end IoBlock

/-- The widths `top0` instantiates the block with. -/
abbrev top0 : IoBlockParams := ⟨32, 1, 1, 6, 16, 8⟩

abbrev Word := BitVec 32

abbrev Ram := BitVec 16 → Byte

/-- One request word executed on a memory of 65536 bytes. A store echoes the
word, a load returns it with bits 7:0 replaced; bits 31:8 never change. -/
def Ram.access (m : Ram) (w : Word) : Ram × Word :=
  if w.getLsbD 31 then (Function.update m (w.extractLsb' 8 16) (w.extractLsb' 0 8), w)
  else (m, (w.extractLsb' 8 24 ++ m (w.extractLsb' 8 16) : BitVec (24 + 8)))

/-- Operation, last, unused and address: the bits no execution touches. -/
def Word.header (w : Word) : BitVec 24 := w.extractLsb' 8 24

namespace IoBlock

variable (b : IoBlock top0) (rstN upValid : Bool) (w : Word)

theorem writeOrRead_top0 : writeOrRead (P := top0) w = w.getLsbD 31 := by
  simp [writeOrRead, operationBusIn]

theorem slices_append (low a c : Nat) : (w.extractLsb' (low + a) c ++ w.extractLsb' low a) =
    w.extractLsb' low (c + a) :=
  BitVec.extractLsb'_append_extractLsb'_eq_extractLsb' rfl

/-- The four fields above the data byte are consecutive slices of bits 31:8. -/
theorem header_slices : (w.extractLsb' 31 1 ++ w.extractLsb' 30 1 ++ w.extractLsb' 24 6 ++
    w.extractLsb' 8 16 : BitVec (1 + 1 + 6 + 16)) = w.extractLsb' 8 24 := by
  have flags := slices_append w 30 1 1
  have unused := slices_append w 24 6 2
  have addr := slices_append w 8 16 8
  have upper := (congrArg (· ++ w.extractLsb' 24 6) flags).trans unused
  exact (congrArg (· ++ w.extractLsb' 8 16) upper).trans addr

theorem header_append_byte : (w.extractLsb' 8 24 ++ w.extractLsb' 0 8 : BitVec (24 + 8)) = w :=
  (slices_append w 0 8 24).trans BitVec.extractLsb'_eq_self

/-- The word leaving the block is the answer to the word that entered. -/
theorem posedge_downData : (b.posedge rstN upValid w true).downData = (Ram.access b.ram w).2 := by
  have whole : (b.posedge rstN upValid w true).downData =
      (w.extractLsb' 31 1 ++ w.extractLsb' 30 1 ++ w.extractLsb' 24 6 ++ w.extractLsb' 8 16 ++
        b.dataBusOutD w : BitVec (1 + 1 + 6 + 16 + 8)) := BitVec.setWidth_eq _
  rw [whole, header_slices, dataBusOutD, writeOrRead_top0, Ram.access]
  split
  · exact header_append_byte w
  · rfl

/-- The register file changes only when a store word is taken. -/
theorem posedge_ram : (b.posedge rstN true w true).ram = (Ram.access b.ram w).1 := by
  have taken : ramWe (P := top0) true w true = w.getLsbD 31 := by
    rw [ramWe, writeOrRead_top0]
    rfl
  simp only [posedge, taken, Ram.access]
  split <;> rfl

end IoBlock

theorem Ram.access_header (m : Ram) (w : Word) : Word.header (Ram.access m w).2 = w.header := by
  rw [Ram.access]
  split
  · rfl
  · exact BitVec.extractLsb'_append_eq_left
