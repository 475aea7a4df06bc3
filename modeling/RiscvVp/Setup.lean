import RiscvVp.Uncore
import RiscvVp.Base.StepLoop
import RiscvVp.Base.CellMemory

/-!
# Setting up the uncore

`setup` makes the boot ROM out of the reset vector, copies the firmware file to
the start of the RAM, and then adds both devices to the Spike bus. The copying
is a loop with a 32-bit index, so it is run with a budget of turns.
-/

inductive Endianness where
  | little
  | big
deriving DecidableEq, Repr

/-- What `setup` reads of Spike's configuration. -/
structure Cfg where
  startPc : Option (BitVec 64)
  endianness : Endianness

/-- Spike's `mem_t`. `contents` designates any byte of it, however far from the start. -/
structure MemT where
  contents : BitVec 64 → Byte

/-- How far the system calls come with the name of the firmware file. -/
inductive FileAccess where
  | notOpened
  | noStatus
  | notMapped
  | mapped
deriving DecidableEq, Repr

/-- The file as it is mapped; `off_t` holds its size. -/
structure Firmware where
  bytes : List Byte
  fits : bytes.length < 2 ^ 63

inductive SetupError where
  | report (r : Report)
  | abort
  | assertion (expr : String)
deriving DecidableEq

/-- The devices that `setup` adds to the bus. -/
structure SpikeDevices where
  bootRom : List Byte
  ram : MemT

/-- The locals of the copying loop. -/
structure CopyLoop where
  i : BitVec 32
  memory : MemT

namespace Uncore

/-- `i < size` compares as 64-bit numbers, and so does `i + offset` add. -/
def copyByte (fw : Firmware) (offset : BitVec 64) (l : CopyLoop) : Option CopyLoop :=
  if l.i.setWidth 64 < BitVec.ofNat 64 fw.bytes.length then
    some {
      i := l.i + 1
      memory := ⟨Function.update l.memory.contents (l.i.setWidth 64 + offset)
        (fw.bytes.getD l.i.toNat 0)⟩ }
  else none

def readBinOnMemory (budget : Nat) (access : FileAccess) (fw : Firmware) (memory : MemT)
    (offset : BitVec 64) : Option (Except SetupError MemT) :=
  match access with
  | .notOpened =>
    some (.error (.report ⟨"Uncore_Module", "ERROR: Binary file cannot be opened."⟩))
  | .noStatus => some (.error .abort)
  | .notMapped => some (.error (.assertion "buf != MAP_FAILED"))
  | .mapped =>
    (StepLoop.run (copyByte fw offset) budget ⟨0, memory⟩).map fun l => .ok l.memory

def resetVec (startPc : BitVec 64) : List (BitVec 32) :=
  [0x297, -- auipc t0,0x0
    0x28593 + BitVec.ofNat 32 ((resetVecSize * 4) <<< 20), -- addi a1, t0, &dtb
    0xf1402573, -- csrr a0, mhartid
    0x0182b283, -- ld t0,24(t0)
    0x28067, -- jr t0
    0,
    (startPc &&& 0xffffffff).setWidth 32,
    (startPc >>> 32).setWidth 32]

/-- The bytes of a word in memory after `to_le`. -/
def leBytes (w : BitVec 32) : List Byte :=
  [w.extractLsb' 0 8, w.extractLsb' 8 8, w.extractLsb' 16 8, w.extractLsb' 24 8]

/-- The reset vector, filled up with zeros to whole pages. -/
def romBytes (startPc : BitVec 64) : List Byte :=
  let rom := (resetVec startPc).flatMap leBytes
  rom ++ List.replicate ((rom.length + 0x1000 - 1) / 0x1000 * 0x1000 - rom.length) 0

def setup (budget : Nat) (cfg : Cfg) (access : FileAccess) (fw : Firmware) :
    Option (Except SetupError SpikeDevices) :=
  match cfg.startPc with
  | none => some (.error (.assertion "cfg->start_pc.has_value()"))
  | some startPc =>
    if cfg.endianness = .little then
      (readBinOnMemory budget access fw ⟨fun _ => 0⟩ 0).map fun memory =>
        memory.map fun ram => ⟨romBytes startPc, ram⟩
    else some (.error (.assertion "cfg->endianness == endianness_little"))

theorem resetVec_bytes_length (startPc : BitVec 64) :
    ((resetVec startPc).flatMap leBytes).length = 4 * resetVecSize := rfl

theorem romBytes_length (ucfg : Ucfg) (startPc : BitVec 64) :
    (romBytes startPc).length = (bootRom ucfg).size := by
  rw [romBytes, List.length_append, List.length_replicate, resetVec_bytes_length]
  rfl

section Copy
variable (fw : Firmware) (offset : BitVec 64) (memory : MemT)

/-- The place of byte i of the file. -/
def place (i : Nat) : BitVec 64 := (BitVec.ofNat 32 i).setWidth 64 + offset

/-- The loop after i turns. -/
def copied (i : Nat) : CopyLoop :=
  ⟨BitVec.ofNat 32 i,
    ⟨CellMemory.writeBurst memory.contents (place offset) (fun j => fw.bytes.getD j 0) i⟩⟩

variable {fw offset memory}

theorem size_toNat : (BitVec.ofNat 64 fw.bytes.length).toNat = fw.bytes.length := by
  have := fw.fits
  rw [BitVec.toNat_ofNat]
  omega

theorem copyByte_copied {i : Nat} (index : i < 2 ^ 32) :
    copyByte fw offset (copied fw offset memory i) =
      if i < fw.bytes.length then some (copied fw offset memory (i + 1)) else none := by
  have small : (BitVec.ofNat 32 i).toNat = i := by
    rw [BitVec.toNat_ofNat, Nat.mod_eq_of_lt index]
  have less : (BitVec.ofNat 32 i).setWidth 64 < BitVec.ofNat 64 fw.bytes.length ↔
      i < fw.bytes.length := by
    rw [BitVec.lt_def, size_toNat, BitVec.toNat_setWidth, small]
    omega
  simp only [copyByte, copied, less, small]
  rw [CellMemory.writeBurst_succ, BitVec.ofNat_add]
  rfl

/-- A file below 4 GiB is copied in as many turns as it has bytes. -/
theorem run_copyByte (short : fw.bytes.length < 2 ^ 32) :
    StepLoop.run (copyByte fw offset) (fw.bytes.length + 1) ⟨0, memory⟩ =
      some (copied fw offset memory fw.bytes.length) := by
  have goes : ∀ i l, i < fw.bytes.length → l = copied fw offset memory i →
      ∃ l', copyByte fw offset l = some l' ∧ l' = copied fw offset memory (i + 1) := by
    rintro i l more rfl
    rw [copyByte_copied (by omega), if_pos more]
    exact ⟨_, rfl, rfl⟩
  have left : ∀ l, l = copied fw offset memory fw.bytes.length → copyByte fw offset l = none := by
    rintro l rfl
    rw [copyByte_copied short, if_neg (Nat.lt_irrefl _)]
  obtain ⟨l, ends, rfl⟩ := StepLoop.run_of_count goes left (Nat.zero_add _)
    (show (⟨0, memory⟩ : CopyLoop) = copied fw offset memory 0 from rfl)
  exact ends

/-- From 4 GiB on the index starts over before it reaches the size. -/
theorem run_copyByte_eq_none (long : 2 ^ 32 ≤ fw.bytes.length) (budget : Nat) (l : CopyLoop) :
    StepLoop.run (copyByte fw offset) budget l = none := by
  apply StepLoop.run_eq_none (I := fun _ => True) _ trivial
  intro l _
  have less : l.i.setWidth 64 < BitVec.ofNat 64 fw.bytes.length := by
    have := l.i.isLt
    rw [BitVec.lt_def, size_toNat, BitVec.toNat_setWidth]
    omega
  exact ⟨_, if_pos less, trivial⟩

theorem copied_contents (short : fw.bytes.length < 2 ^ 32) {i : Nat} (hi : i < fw.bytes.length) :
    (copied fw offset memory fw.bytes.length).memory.contents (place offset i) =
      fw.bytes.getD i 0 := by
  apply CellMemory.writeBurst_of_last _ _ _ hi
  intro j hij hj same
  have values := congrArg BitVec.toNat ((BitVec.add_left_inj _).mp same)
  rw [BitVec.toNat_setWidth, BitVec.toNat_setWidth, BitVec.toNat_ofNat, BitVec.toNat_ofNat]
    at values
  omega

end Copy

section Outcome
variable {budget budget' : Nat} {cfg : Cfg} {access : FileAccess} {fw : Firmware}

theorem readBinOnMemory_unique {memory : MemT} {offset : BitVec 64} {r r' : Except SetupError MemT}
    (ends : readBinOnMemory budget access fw memory offset = some r)
    (ends' : readBinOnMemory budget' access fw memory offset = some r') : r = r' := by
  cases access with
  | mapped =>
    simp only [readBinOnMemory, Option.map_eq_some_iff] at ends ends'
    obtain ⟨l, left, rfl⟩ := ends
    obtain ⟨l', left', rfl⟩ := ends'
    rw [StepLoop.run_unique left left']
  | notOpened | noStatus | notMapped => exact Option.some.inj (ends.symm.trans ends')

/-- The budget decides whether `setup` is seen to return, not what it returns. -/
theorem setup_unique {r r' : Except SetupError SpikeDevices}
    (returned : setup budget cfg access fw = some r)
    (returned' : setup budget' cfg access fw = some r') : r = r' := by
  rw [setup] at returned returned'
  cases start : cfg.startPc with
  | none =>
    rw [start] at returned returned'
    exact Option.some.inj (returned.symm.trans returned')
  | some startPc =>
    simp only [start] at returned returned'
    by_cases little : cfg.endianness = .little
    · rw [if_pos little, Option.map_eq_some_iff] at returned returned'
      obtain ⟨memory, ends, rfl⟩ := returned
      obtain ⟨memory', ends', rfl⟩ := returned'
      rw [readBinOnMemory_unique ends ends']
    · rw [if_neg little] at returned returned'
      exact Option.some.inj (returned.symm.trans returned')

/-- `setup` stops with an error before it copies anything. -/
def Raises (cfg : Cfg) (access : FileAccess) : Prop :=
  cfg.startPc = none ∨ cfg.endianness ≠ .little ∨ access ≠ .mapped

theorem setup_of_raises (raises : Raises cfg access) (budget : Nat) (fw : Firmware) :
    ∃ e, setup budget cfg access fw = some (.error e) := by
  rw [setup]
  cases start : cfg.startPc with
  | none => exact ⟨_, rfl⟩
  | some startPc =>
    by_cases little : cfg.endianness = .little
    · simp only [if_pos little, readBinOnMemory]
      rcases raises with none | big | unmapped
      · rw [start] at none
        cases none
      · exact absurd little big
      · cases access with
        | notOpened => exact ⟨_, rfl⟩
        | noStatus => exact ⟨_, rfl⟩
        | notMapped => exact ⟨_, rfl⟩
        | mapped => exact absurd rfl unmapped
    · exact ⟨_, if_neg little⟩

/-- Otherwise it returns when the copying does. -/
theorem setup_of_not_raises (sound : ¬ Raises cfg access) : ∃ startPc, cfg.startPc = some startPc ∧
    ∀ budget fw, setup budget cfg access fw =
      (StepLoop.run (copyByte fw 0) budget ⟨0, ⟨fun _ => 0⟩⟩).map fun l =>
        .ok ⟨romBytes startPc, l.memory⟩ := by
  simp only [Raises, not_or, ne_eq, not_not] at sound
  obtain ⟨given, little, rfl⟩ := sound
  obtain ⟨startPc, start⟩ := Option.ne_none_iff_exists'.mp given
  refine ⟨startPc, start, fun budget fw => ?_⟩
  simp only [setup, start, if_pos little, readBinOnMemory, Option.map_map]
  rfl

/-- What `setup` leaves depends on the start address in the ROM only. -/
theorem setup_bootRom {d : SpikeDevices} (returned : setup budget cfg access fw = some (.ok d)) :
    ∃ startPc, cfg.startPc = some startPc ∧ d.bootRom = romBytes startPc := by
  by_cases raises : Raises cfg access
  · obtain ⟨e, error⟩ := setup_of_raises raises budget fw
    rw [returned] at error
    cases error
  · obtain ⟨startPc, start, copies⟩ := setup_of_not_raises raises
    rw [copies, Option.map_eq_some_iff] at returned
    obtain ⟨l, _, same⟩ := returned
    cases same
    exact ⟨startPc, start, rfl⟩

end Outcome

end Uncore
