import RiscvVp.Setup
import RiscvVp.Base.Rv64

/-!
# The reset vector

The words that `setup` writes by hand are run here as the program they are: in a
memory that holds the bytes of the boot ROM and nothing else.
-/

namespace Uncore

open Rv64

/-- The program that the comments beside the words of `resetVec` name. -/
def bootCode : List Instr :=
  [.auipc 5 0, .addi 11 5 32, .csrr 10 0xf14, .ld 5 5 24, .jalr 0 5 0]

theorem decode_resetVec (startPc : BitVec 64) :
    ((resetVec startPc).take 5).map decode = bootCode.map some := rfl

theorem resetVec_of_bootCode (startPc : BitVec 64) {k : Nat} {i : Instr}
    (code : bootCode[k]? = some i) :
    ∃ w, (resetVec startPc)[k]? = some w ∧ decode w = some i := by
  have listed : (((resetVec startPc).take 5).map decode)[k]? = some (some i) := by
    rw [decode_resetVec, List.getElem?_map, code]
    rfl
  rw [List.getElem?_map, Option.map_eq_some_iff] at listed
  obtain ⟨w, word, decoded⟩ := listed
  have index : k < 5 := (List.getElem?_eq_some_iff.mp code).1
  rw [List.getElem?_take_of_lt index] at word
  exact ⟨w, word, decoded⟩

/-- The two words of the start address are its halves. -/
theorem halves_append (startPc : BitVec 64) :
    ((startPc >>> 32).setWidth 32 ++ (startPc &&& 0xffffffff).setWidth 32 : BitVec (32 + 32)) =
      startPc := by
  have upper : (startPc >>> 32).setWidth 32 = startPc.extractLsb' 32 32 := rfl
  have lower : (startPc &&& 0xffffffff).setWidth 32 = startPc.extractLsb' 0 32 := by
    apply BitVec.eq_of_toNat_eq
    have mask : startPc.toNat &&& 0xffffffff = startPc.toNat % 2 ^ 32 :=
      Nat.and_two_pow_sub_one_eq_mod _ 32
    rw [BitVec.toNat_setWidth, BitVec.toNat_and]
    change (startPc.toNat &&& 0xffffffff) % 2 ^ 32 = startPc.toNat >>> 0 % 2 ^ 32
    rw [mask, Nat.mod_mod, Nat.shiftRight_zero]
  have whole : (startPc.extractLsb' 32 32 ++ startPc.extractLsb' 0 32 : BitVec (32 + 32)) =
      startPc.extractLsb' 0 (32 + 32) :=
    BitVec.extractLsb'_append_extractLsb'_eq_extractLsb' rfl
  rw [upper, lower, whole]
  exact BitVec.extractLsb'_eq_self

section Boot
variable {mem : Memory} {base startPc : BitVec 64} {h : Hart}

theorem word_at (holds : Holds mem base (romBytes startPc)) {k : Nat} {w : BitVec 32}
    (word : (resetVec startPc)[k]? = some w) :
    read32 mem (base + BitVec.ofNat 64 (4 * k)) = some w := by
  have words : romBytes startPc = (resetVec startPc).flatMap littleEndian ++ _ := rfl
  rw [words] at holds
  exact holds.read32 word

theorem step_at (holds : Holds mem base (romBytes startPc)) (aligned : base.toNat % 4096 = 0)
    {k : Nat} {i : Instr} (code : bootCode[k]? = some i)
    (here : h.pc = base + BitVec.ofNat 64 (4 * k)) : step mem h = execute mem h i := by
  obtain ⟨w, word, decoded⟩ := resetVec_of_bootCode startPc code
  refine step_eq_execute ?_ (here ▸ word_at holds word) decoded
  rw [here, BitVec.toNat_add, BitVec.toNat_ofNat]
  omega

theorem startPc_at (holds : Holds mem base (romBytes startPc)) (aligned : base.toNat % 4096 = 0) :
    read64 mem (base + 24) = some startPc := by
  have lower : read32 mem (base + 24) = some ((startPc &&& 0xffffffff).setWidth 32) :=
    word_at holds (k := 6) rfl
  have upper : read32 mem (base + 24 + 4) = some ((startPc >>> 32).setWidth 32) := by
    rw [BitVec.add_assoc]
    exact word_at holds (k := 7) rfl
  have place : (base + 24).toNat % 8 = 0 := by
    rw [BitVec.toNat_add]
    change (base.toNat + 24) % 2 ^ 64 % 8 = 0
    omega
  rw [read64_of_words place lower upper, halves_append]

/-- A hart behind the first two words, with its place in t0 and a1. -/
def addressed (h : Hart) : Hart := (h.write 5 h.pc).write 11 (h.pc + 32)

theorem steps_addressed (holds : Holds mem base (romBytes startPc))
    (aligned : base.toNat % 4096 = 0) (here : h.pc = base) (n : Nat) :
    steps mem (n + 2) h = steps mem n (addressed h) := by
  have auipc : step mem h = some (h.write 5 h.pc) := by
    rw [step_at holds aligned (k := 0) rfl (here.trans (BitVec.add_zero base).symm)]
    exact congrArg (fun v => some (h.write 5 v)) (BitVec.add_zero h.pc)
  have addi : step mem (h.write 5 h.pc) = some (addressed h) := by
    rw [step_at holds aligned (k := 1) rfl (by rw [Hart.write_pc, here]; rfl), execute,
      Hart.write_get_self (by decide)]
    rfl
  rw [steps_succ auipc, steps_succ addi]

/-- A hart behind the other three, which leave it at the start address. -/
def entered (startPc : BitVec 64) (h : Hart) : Hart :=
  (((h.write 10 h.mhartid).write 5 startPc).write 0 (h.pc + 12)).jump startPc

theorem steps_entered (holds : Holds mem base (romBytes startPc))
    (aligned : base.toNat % 4096 = 0) (even : startPc.toNat % 2 = 0) (pc : h.pc = base + 8)
    (t0 : h.get 5 = base) : steps mem 3 h = some (entered startPc h) := by
  have csrr : step mem h = some (h.write 10 h.mhartid) :=
    step_at holds aligned (k := 2) rfl pc
  have ld : step mem (h.write 10 h.mhartid) =
      some ((h.write 10 h.mhartid).write 5 startPc) := by
    rw [step_at holds aligned (k := 3) rfl (by rw [Hart.write_pc, pc, BitVec.add_assoc]; rfl),
      execute, Hart.write_get_of_ne (by decide), t0]
    change (read64 mem (base + 24)).map _ = _
    rw [startPc_at holds aligned]
    rfl
  have link : ((h.write 10 h.mhartid).write 5 startPc).pc + 4 = h.pc + 12 := by
    rw [Hart.write_pc, Hart.write_pc, BitVec.add_assoc, BitVec.add_assoc]
    rfl
  have target : startPc + (0 : BitVec 12).signExtend 64 &&& ~~~1#64 = startPc := by
    rw [show (0 : BitVec 12).signExtend 64 = 0#64 from rfl, BitVec.add_zero, clear_lowest even]
  have jalr : step mem ((h.write 10 h.mhartid).write 5 startPc) = some (entered startPc h) := by
    rw [step_at holds aligned (k := 4) rfl
        (by rw [Hart.write_pc, Hart.write_pc, pc, BitVec.add_assoc, BitVec.add_assoc]; rfl),
      execute, Hart.write_get_self (by decide), link, target]
    rfl
  rw [steps_succ csrr, steps_succ ld, steps_succ jalr]
  rfl

theorem addressed_pc (here : h.pc = base) : (addressed h).pc = base + 8 := by
  rw [addressed, Hart.write_pc, Hart.write_pc, here, BitVec.add_assoc]
  rfl

theorem addressed_get_t0 : (addressed h).get 5 = h.pc := by
  rw [addressed, Hart.write_get_of_ne (by decide), Hart.write_get_self (by decide)]

theorem steps_boot (holds : Holds mem base (romBytes startPc)) (aligned : base.toNat % 4096 = 0)
    (even : startPc.toNat % 2 = 0) (here : h.pc = base) :
    steps mem 5 h = some (entered startPc (addressed h)) := by
  rw [steps_addressed holds aligned here 3]
  exact steps_entered holds aligned even (addressed_pc here) (addressed_get_t0.trans here)

theorem entered_get_a0 : (entered startPc (addressed h)).get 10 = h.mhartid := by
  rw [entered, Hart.jump_get, Hart.write_get_of_ne (by decide), Hart.write_get_of_ne (by decide),
    Hart.write_get_self (by decide), addressed, Hart.write_mhartid, Hart.write_mhartid]

theorem entered_get_a1 : (entered startPc (addressed h)).get 11 = h.pc + 32 := by
  rw [entered, Hart.jump_get, Hart.write_get_of_ne (by decide), Hart.write_get_of_ne (by decide),
    Hart.write_get_of_ne (by decide), addressed, Hart.write_get_self (by decide)]

end Boot

/-- The ROM that `setup` leaves holds these bytes whatever else it is given, and a
hart that starts there needs nothing but them to reach the start address with
its number in a0 and the place behind the vector in a1. -/
theorem boots_from_rom {startPc : BitVec 64} {h : Hart} (ucfg : Ucfg)
    (even : startPc.toNat % 2 = 0) (aligned : ucfg.defaultRstvec.toNat % 4096 = 0)
    (here : h.pc = ucfg.defaultRstvec) :
    (∀ budget cfg access fw d, cfg.startPc = some startPc →
      setup budget cfg access fw = some (.ok d) → d.bootRom = romBytes startPc) ∧
    ∃ h', steps (only ucfg.defaultRstvec (romBytes startPc)) 5 h = some h' ∧
      (∀ mem, Holds mem ucfg.defaultRstvec (romBytes startPc) → steps mem 5 h = some h') ∧
      h'.pc = startPc ∧ h'.get 10 = h.mhartid ∧ h'.get 11 = ucfg.defaultRstvec + 32 := by
  constructor
  · intro budget cfg access fw d start returned
    obtain ⟨given, same, rom⟩ := setup_bootRom returned
    obtain rfl : startPc = given := Option.some.inj (start.symm.trans same)
    exact rom
  · have fits : (romBytes startPc).length ≤ 2 ^ 64 := by
      rw [romBytes_length ucfg]
      exact (by decide : 0x1000 ≤ 2 ^ 64)
    exact ⟨_, steps_boot (only_holds fits) aligned even here,
      fun _ holds => steps_boot holds aligned even here, rfl, entered_get_a0,
      entered_get_a1.trans (congrArg (· + 32) here)⟩

/-- A start address both of whose halves have their highest bit set. -/
def highCfg : Cfg := ⟨some 0xFFFFFFFF80000000, .little⟩

/-- Hart 3 out of reset, with sevens in its registers. -/
def hart3 : Hart := ⟨0x1000, fun _ => 7, 3⟩

theorem boots_from_rom_highStart : ∃ d h',
    setup 2 highCfg .mapped ⟨[0x13], by decide⟩ = some (.ok d) ∧
      steps (only 0x1000 d.bootRom) 5 hart3 = some h' ∧
      h'.pc = 0xFFFFFFFF80000000 ∧ h'.get 10 = 3 ∧ h'.get 11 = 0x1020 := by
  obtain ⟨d, returned⟩ : ∃ d, setup 2 highCfg .mapped ⟨[0x13], by decide⟩ = some (.ok d) :=
    ⟨_, rfl⟩
  obtain ⟨rom, h', boots, _, pc, a0, a1⟩ :=
    boots_from_rom (h := hart3) ⟨0x1000, 0x80000000, 0x81000000, 0x81FFFFFF⟩
      (show (0xFFFFFFFF80000000#64).toNat % 2 = 0 by decide) (by decide) rfl
  rw [← rom 2 highCfg _ _ d rfl returned] at boots
  exact ⟨d, h', returned, boots, pc, a0, a1⟩

end Uncore
