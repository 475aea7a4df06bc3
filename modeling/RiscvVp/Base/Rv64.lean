import Mathlib.Algebra.Order.Ring.Nat
import Mathlib.Logic.Function.Basic
import Mathlib.Data.List.Basic

/-!
# Some instructions of RV64

Memory is partial, so an execution that succeeds has read nothing but bytes that
are there. The instructions are those that a boot loader jumps with: auipc,
addi, csrr, ld and jalr. An access out of alignment fails, as does any other
instruction. Jump targets are even, as where compressed instructions exist.
-/

namespace Rv64

abbrev Memory := BitVec 64 → Option (BitVec 8)

/-- Four bytes, the lowest first. -/
def read32 (mem : Memory) (a : BitVec 64) : Option (BitVec 32) := do
  let b0 ← mem (a + BitVec.ofNat 64 0)
  let b1 ← mem (a + BitVec.ofNat 64 1)
  let b2 ← mem (a + BitVec.ofNat 64 2)
  let b3 ← mem (a + BitVec.ofNat 64 3)
  some (b3 ++ b2 ++ b1 ++ b0 : BitVec (8 + 8 + 8 + 8))

/-- Two words, the lower one first. -/
def read64 (mem : Memory) (a : BitVec 64) : Option (BitVec 64) :=
  if a.toNat % 8 = 0 then do
    let lower ← read32 mem a
    let upper ← read32 mem (a + 4)
    some (upper ++ lower : BitVec (32 + 32))
  else none

structure Hart where
  pc : BitVec 64
  x : BitVec 5 → BitVec 64
  mhartid : BitVec 64

namespace Hart
variable (h : Hart) (r : BitVec 5) (v : BitVec 64)

/-- x0 reads as zero whatever has been written to it. -/
def get : BitVec 64 := if r = 0 then 0 else h.x r

def set : Hart := { h with x := Function.update h.x r v }

def jump (target : BitVec 64) : Hart := { h with pc := target }

/-- Write a register and go on behind the instruction. -/
def write : Hart := (h.set r v).jump (h.pc + 4)

@[simp] theorem jump_get : (h.jump v).get r = h.get r := rfl

@[simp] theorem write_pc : (h.write r v).pc = h.pc + 4 := rfl

@[simp] theorem write_mhartid : (h.write r v).mhartid = h.mhartid := rfl

variable {h r v}

theorem write_get_self (real : r ≠ 0) : (h.write r v).get r = v := by
  rw [get, if_neg real]
  exact Function.update_self r v h.x

theorem write_get_of_ne {q : BitVec 5} (other : q ≠ r) : (h.write r v).get q = h.get q := by
  have same : (h.write r v).x q = h.x q := Function.update_of_ne other _ _
  rw [get, get, same]

end Hart

inductive Instr where
  | auipc (rd : BitVec 5) (imm : BitVec 20)
  | addi (rd rs1 : BitVec 5) (imm : BitVec 12)
  | csrr (rd : BitVec 5) (csr : BitVec 12)
  | ld (rd rs1 : BitVec 5) (imm : BitVec 12)
  | jalr (rd rs1 : BitVec 5) (imm : BitVec 12)
deriving DecidableEq, Repr

/-- `csrr` is `csrrs` with x0 for its operand. -/
def decode (w : BitVec 32) : Option Instr :=
  let opcode := w.extractLsb' 0 7
  let rd := w.extractLsb' 7 5
  let funct3 := w.extractLsb' 12 3
  let rs1 := w.extractLsb' 15 5
  let imm := w.extractLsb' 20 12
  if opcode = 0x17 then some (.auipc rd (w.extractLsb' 12 20))
  else if opcode = 0x13 ∧ funct3 = 0 then some (.addi rd rs1 imm)
  else if opcode = 0x73 ∧ funct3 = 2 ∧ rs1 = 0 then some (.csrr rd imm)
  else if opcode = 0x03 ∧ funct3 = 3 then some (.ld rd rs1 imm)
  else if opcode = 0x67 ∧ funct3 = 0 then some (.jalr rd rs1 imm)
  else none

/-- Of the control and status registers there is `mhartid`. Immediates are signed. -/
def execute (mem : Memory) (h : Hart) : Instr → Option Hart
  | .auipc rd imm => some (h.write rd (h.pc + (imm ++ 0#12).signExtend 64))
  | .addi rd rs1 imm => some (h.write rd (h.get rs1 + imm.signExtend 64))
  | .csrr rd csr => if csr = 0xf14 then some (h.write rd h.mhartid) else none
  | .ld rd rs1 imm => (read64 mem (h.get rs1 + imm.signExtend 64)).map (h.write rd)
  | .jalr rd rs1 imm =>
    some ((h.write rd (h.pc + 4)).jump ((h.get rs1 + imm.signExtend 64) &&& ~~~1#64))

def step (mem : Memory) (h : Hart) : Option Hart :=
  if h.pc.toNat % 2 = 0 then do
    let w ← read32 mem h.pc
    let i ← decode w
    execute mem h i
  else none

def steps (mem : Memory) : Nat → Hart → Option Hart
  | 0, h => some h
  | n + 1, h => (step mem h).bind (steps mem n)

section Rules
variable {mem mem' : Memory} {h h' : Hart} {w : BitVec 32} {i : Instr} {n : Nat}
  {a : BitVec 64}

theorem step_eq_execute (even : h.pc.toNat % 2 = 0) (fetched : read32 mem h.pc = some w)
    (decoded : decode w = some i) : step mem h = execute mem h i := by
  rw [step, if_pos even, fetched]
  change (decode w).bind (execute mem h) = _
  rw [decoded]
  rfl

theorem steps_succ (first : step mem h = some h') : steps mem (n + 1) h = steps mem n h' := by
  rw [steps, first]
  rfl

theorem read64_of_words {lower upper : BitVec 32} (aligned : a.toNat % 8 = 0)
    (low : read32 mem a = some lower) (high : read32 mem (a + 4) = some upper) :
    read64 mem a = some (upper ++ lower : BitVec (32 + 32)) := by
  rw [read64, if_pos aligned, low, high]
  rfl

/-- An even jump target is reached as it is. -/
theorem clear_lowest {v : BitVec 64} (even : v.toNat % 2 = 0) : v &&& ~~~1#64 = v := by
  apply BitVec.eq_of_getLsbD_eq
  intro i hi
  rw [BitVec.getLsbD_and, BitVec.getLsbD_not, BitVec.getLsbD_one]
  cases i with
  | zero =>
    have lowest : v.getLsbD 0 = false := by
      rw [BitVec.getLsbD, Nat.testBit_zero, even]
      rfl
    rw [lowest]
    rfl
  | succ i => simp [hi]

end Rules

section Placement

/-- The bytes stand in memory from this address on. -/
def Holds (mem : Memory) (a : BitVec 64) (bytes : List (BitVec 8)) : Prop :=
  ∀ i b, bytes[i]? = some b → mem (a + BitVec.ofNat 64 i) = some b

/-- The memory in which nothing else is. -/
def only (a : BitVec 64) (bytes : List (BitVec 8)) : Memory := fun q => bytes[(q - a).toNat]?

variable {mem : Memory} {a : BitVec 64} {bytes : List (BitVec 8)}

theorem only_holds (fits : bytes.length ≤ 2 ^ 64) : Holds (only a bytes) a bytes := by
  intro i b at_i
  have index : i < bytes.length := (List.getElem?_eq_some_iff.mp at_i).1
  rw [only, BitVec.add_comm, BitVec.add_sub_cancel, BitVec.toNat_ofNat,
    Nat.mod_eq_of_lt (by omega)]
  exact at_i

def littleEndian (w : BitVec 32) : List (BitVec 8) :=
  [w.extractLsb' 0 8, w.extractLsb' 8 8, w.extractLsb' 16 8, w.extractLsb' 24 8]

theorem littleEndian_append (w : BitVec 32) : (w.extractLsb' 24 8 ++ w.extractLsb' 16 8 ++
    w.extractLsb' 8 8 ++ w.extractLsb' 0 8 : BitVec (8 + 8 + 8 + 8)) = w := by
  have slices (low n m : Nat) : w.extractLsb' (low + n) m ++ w.extractLsb' low n =
      w.extractLsb' low (m + n) :=
    BitVec.extractLsb'_append_extractLsb'_eq_extractLsb' rfl
  have upper := (congrArg (· ++ w.extractLsb' 8 8) (slices 16 8 8)).trans (slices 8 8 16)
  exact (congrArg (· ++ w.extractLsb' 0 8) upper).trans
    ((slices 0 8 24).trans BitVec.extractLsb'_eq_self)

/-- Byte j of word k is at 4k + j. -/
theorem words_getElem? {words : List (BitVec 32)} {k j : Nat} {w : BitVec 32}
    (word : words[k]? = some w) (hj : j < 4) :
    (words.flatMap littleEndian)[4 * k + j]? = (littleEndian w)[j]? := by
  induction words generalizing k with
  | nil => simp at word
  | cons v words ih =>
    rw [List.flatMap_cons]
    cases k with
    | zero =>
      obtain rfl : v = w := by simpa using word
      rw [Nat.mul_zero, Nat.zero_add]
      exact List.getElem?_append_left hj
    | succ k =>
      rw [List.getElem?_append_right (by simp [littleEndian]; omega)]
      have index : 4 * (k + 1) + j - (littleEndian v).length = 4 * k + j := by
        simp [littleEndian]
        omega
      rw [index]
      exact ih (by simpa using word)

/-- A word is read from where it was put. -/
theorem Holds.read32 {words : List (BitVec 32)} {rest : List (BitVec 8)}
    (holds : Holds mem a (words.flatMap littleEndian ++ rest)) {k : Nat} {w : BitVec 32}
    (word : words[k]? = some w) : read32 mem (a + BitVec.ofNat 64 (4 * k)) = some w := by
  have byte (j : Nat) (b : BitVec 8) (hj : (littleEndian w)[j]? = some b) :
      mem (a + BitVec.ofNat 64 (4 * k) + BitVec.ofNat 64 j) = some b := by
    have index : j < 4 := (List.getElem?_eq_some_iff.mp hj).1
    have there := (words_getElem? word index).trans hj
    rw [BitVec.add_assoc, ← BitVec.ofNat_add]
    apply holds
    rw [List.getElem?_append_left (List.getElem?_eq_some_iff.mp there).1]
    exact there
  rw [Rv64.read32, byte 0 _ rfl, byte 1 _ rfl, byte 2 _ rfl, byte 3 _ rfl]
  exact congrArg some (littleEndian_append w)

end Placement

end Rv64
