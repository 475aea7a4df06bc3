import RiscvVp.Setup
import RiscvVp.MemoryMap

/-!
# The firmware in the RAM

`setup` copies the whole file, however long, to a memory that takes every
address. A READ then sees what the Spike bus shows of that memory, which is its
declared size and no more.
-/

namespace Uncore

variable {ι : Type} [DecidableEq ι] {B : Type}

/-- What is relied on of the bus once the two devices are added to it: it serves
their regions and shows their bytes. -/
structure Attaches (ucfg : Ucfg) (S : SpikeBus B) (attach : SpikeDevices → B) : Prop where
  serves : S.Serves (bootRom ucfg) (spikeRam ucfg)
  rom : ∀ d i, i < (bootRom ucfg).size →
    S.byte (attach d) ((bootRom ucfg).base + i) = d.bootRom.getD i 0
  ram : ∀ d i, i < (spikeRam ucfg).size →
    S.byte (attach d) ((spikeRam ucfg).base + i) = d.ram.contents (BitVec.ofNat 64 i)

section Reads
variable (period : Nat) (me : ι) (ucfg : Ucfg) (S : SpikeBus B) (bus : B) (mem : ExtMem ι)

/-- Every READ of one byte at the address comes back well and with this byte. -/
def Reads (a : BitVec 64) (v : Byte) : Prop :=
  ∀ t delay, t.command = .read → t.address = a → t.dataLength = 1 →
    (∃ trans bus' mem', Returns period me ucfg S bus mem t delay trans bus' mem') ∧
      ∀ trans bus' mem', Returns period me ucfg S bus mem t delay trans bus' mem' →
        trans.responseStatus = .ok ∧ trans.data.get 0 = v

variable {period me ucfg S bus mem} {a : BitVec 64} {v v' : Byte}

/-- A READ of a device on the bus brings the byte of the device. -/
theorem reads_device (laid : Laid ucfg) (serves : S.Serves (bootRom ucfg) (spikeRam ucfg))
    (inside : (bootRom ucfg).Contains a.toNat 1 ∨ (spikeRam ucfg).Contains a.toNat 1) :
    Reads period me ucfg S bus mem a (S.byte bus a.toNat) := by
  rintro t delay read rfl one
  have range : (bootRom ucfg).Contains t.address.toNat t.data.bytes.length ∨
      (spikeRam ucfg).Contains t.address.toNat t.data.bytes.length := by
    rwa [show t.data.bytes.length = 1 from one]
  obtain ⟨done, loaded⟩ := serves.load_inside bus t.address t.data range
  rcases bTransport_device laid serves (Or.inl read) inside bus delay with
    ⟨_, hop⟩ | ⟨write, _⟩
  · refine ⟨⟨_, _, _, .answered hop⟩, ?_⟩
    intro trans bus' mem' returns
    obtain ⟨rfl, _, _⟩ := (returns_of_answered hop).mp returns
    refine ⟨?_, loaded 0 (Nat.lt_of_lt_of_eq Nat.one_pos one.symm)⟩
    change answer (S.load bus t.address t.data).1 = .ok
    rw [done]
    rfl
  · rw [read] at write
    cases write

/-- A READ of one byte, without an extension. -/
def byteRead (a : BitVec 64) : Payload := ⟨.read, a, ⟨[0], DataBuffer.one_fits⟩, .incomplete, none⟩

theorem Reads.unique (reads : Reads period me ucfg S bus mem a v)
    (reads' : Reads period me ucfg S bus mem a v') : v = v' := by
  obtain ⟨⟨trans, bus', mem', returns⟩, well⟩ := reads (byteRead a) 0 rfl rfl rfl
  have well' := (reads' (byteRead a) 0 rfl rfl rfl).2
  exact (well _ _ _ returns).2.symm.trans (well' _ _ _ returns).2

/-- Where nothing is mapped no READ comes back well. -/
theorem not_reads_unknown (laid : Laid ucfg) (serves : S.Serves (bootRom ucfg) (spikeRam ucfg))
    (device : ¬ ((bootRom ucfg).Contains a.toNat 1 ∨ (spikeRam ucfg).Contains a.toNat 1))
    (window : ¬ (extram ucfg).Contains a.toNat 1) : ¬ Reads period me ucfg S bus mem a v := by
  intro reads
  have hop := bTransport_unknown (t := byteRead a) laid serves device window bus 0
  have well := (reads (byteRead a) 0 rfl rfl rfl).2 _ _ _ (.answered hop)
  cases well.1

/-- Outside the RAM a READ does not depend on what the RAM holds. -/
theorem Reads.outside {bus' : B} (laid : Laid ucfg)
    (serves : S.Serves (bootRom ucfg) (spikeRam ucfg))
    (outside : ¬ (spikeRam ucfg).Contains a.toNat 1)
    (same : (bootRom ucfg).Contains a.toNat 1 → S.byte bus a.toNat = S.byte bus' a.toNat)
    (reads : Reads period me ucfg S bus mem a v) (reads' : Reads period me ucfg S bus' mem a v') :
    v = v' := by
  by_cases rom : (bootRom ucfg).Contains a.toNat 1
  · calc v = S.byte bus a.toNat := reads.unique (reads_device laid serves (Or.inl rom))
      _ = S.byte bus' a.toNat := same rom
      _ = v' := (reads_device laid serves (Or.inl rom)).unique reads'
  · have device : ¬ ((bootRom ucfg).Contains a.toNat 1 ∨ (spikeRam ucfg).Contains a.toNat 1) :=
      not_or.mpr ⟨rom, outside⟩
    by_cases window : (extram ucfg).Contains a.toNat 1
    · -- the same call of the external memory answers both
      have hop := bTransport_extram (t := byteRead a) laid serves window bus 0
      have hop' := bTransport_extram (t := byteRead a) laid serves window bus' 0
      obtain ⟨⟨trans, bus₂, mem', returns⟩, well⟩ := reads (byteRead a) 0 rfl rfl rfl
      have well' := (reads' (byteRead a) 0 rfl rfl rfl).2
      obtain ⟨rfl, forwarded⟩ := (returns_of_forwarded hop).mp returns
      exact (well _ _ _ returns).2.symm.trans
        (well' _ _ _ ((returns_of_forwarded hop').mpr ⟨rfl, forwarded⟩)).2
    · exact absurd reads (not_reads_unknown laid serves device window)

end Reads

section Loads
variable (period : Nat) (me : ι) (ucfg : Ucfg) (S : SpikeBus B) (attach : SpikeDevices → B)
  (mem : ExtMem ι) (cfg : Cfg) (access : FileAccess)

/-- The claim on one file: `setup` reports an error, or it comes to an end and
every byte of the file can then be read at its place. -/
def Loads (fw : Firmware) : Prop :=
  (∃ budget e, setup budget cfg access fw = some (.error e)) ∨
    ∃ budget d, setup budget cfg access fw = some (.ok d) ∧
      ∀ i, i < fw.bytes.length → Reads period me ucfg S (attach d) mem
        (ucfg.spikeRamMemoryAddress + BitVec.ofNat 64 i) (fw.bytes.getD i 0)

/-- The file ends within the declared size of the RAM and within the address space. -/
def Fits (fw : Firmware) : Prop :=
  fw.bytes.length ≤ 16384 ∧ ucfg.spikeRamMemoryAddress.toNat + fw.bytes.length ≤ 2 ^ 64

variable {period me ucfg S attach mem cfg access} {fw : Firmware}

/-- Within the RAM a READ brings the byte of `mem_t`. -/
theorem reads_ram (laid : Laid ucfg) (attaches : Attaches ucfg S attach) (d : SpikeDevices)
    {i : Nat} (hi : i < 16384) (inSpace : ucfg.spikeRamMemoryAddress.toNat + i < 2 ^ 64) :
    Reads period me ucfg S (attach d) mem (ucfg.spikeRamMemoryAddress + BitVec.ofNat 64 i)
      (d.ram.contents (BitVec.ofNat 64 i)) := by
  have address : (ucfg.spikeRamMemoryAddress + BitVec.ofNat 64 i).toNat =
      (spikeRam ucfg).base + i := by
    rw [BitVec.toNat_add, BitVec.toNat_ofNat]
    change _ = ucfg.spikeRamMemoryAddress.toNat + i
    omega
  have inside : (spikeRam ucfg).Contains
      (ucfg.spikeRamMemoryAddress + BitVec.ofNat 64 i).toNat 1 := by
    rw [address]
    exact ⟨Nat.le_add_right _ _, by
      rw [Nat.add_assoc]
      exact Nat.add_le_add_left hi _⟩
  rw [← attaches.ram d i hi, ← address]
  exact reads_device laid attaches.serves (Or.inr inside)

theorem loads_of_fits (laid : Laid ucfg) (attaches : Attaches ucfg S attach)
    (sound : ¬ Raises cfg access) (fits : Fits ucfg fw) :
    Loads period me ucfg S attach mem cfg access fw := by
  obtain ⟨small, inSpace⟩ := fits
  have short : fw.bytes.length < 2 ^ 32 := by omega
  obtain ⟨startPc, _, copies⟩ := setup_of_not_raises sound
  have returned := copies (fw.bytes.length + 1) fw
  rw [run_copyByte short] at returned
  refine Or.inr ⟨_, _, returned, fun i hi => ?_⟩
  have place : place 0 i = BitVec.ofNat 64 i := by
    apply BitVec.eq_of_toNat_eq
    rw [Uncore.place, BitVec.toNat_add, BitVec.toNat_setWidth, BitVec.toNat_ofNat,
      BitVec.toNat_ofNat]
    change (_ + 0) % 2 ^ 64 = _
    omega
  rw [← copied_contents short hi, place]
  exact reads_ram laid attaches _ (by omega) (by omega)

/-- A byte past the RAM is seen at its place in no file, or in every file. -/
theorem not_fits_outside (not : ¬ Fits ucfg fw) : 0 < fw.bytes.length ∧ ¬ (spikeRam ucfg).Contains
    (ucfg.spikeRamMemoryAddress + BitVec.ofNat 64 (fw.bytes.length - 1)).toNat 1 := by
  have size := fw.fits
  have base := ucfg.spikeRamMemoryAddress.isLt
  simp only [Fits] at not
  refine ⟨by omega, ?_⟩
  rintro ⟨lower, upper⟩
  change ucfg.spikeRamMemoryAddress.toNat ≤ _ at lower
  change _ ≤ ucfg.spikeRamMemoryAddress.toNat + 16384 at upper
  rw [BitVec.toNat_add, BitVec.toNat_ofNat] at lower upper
  omega

/-- Only the devices that a run of `setup` has made can be read. -/
theorem Loads.returns (sound : ¬ Raises cfg access)
    (loads : Loads period me ucfg S attach mem cfg access fw) : ∃ startPc d,
      cfg.startPc = some startPc ∧ d.bootRom = romBytes startPc ∧
      ∀ i, i < fw.bytes.length → Reads period me ucfg S (attach d) mem
        (ucfg.spikeRamMemoryAddress + BitVec.ofNat 64 i) (fw.bytes.getD i 0) := by
  rcases loads with ⟨budget, e, error⟩ | ⟨budget, d, returned, reads⟩
  · obtain ⟨_, _, copies⟩ := setup_of_not_raises sound
    rw [copies, Option.map_eq_some_iff] at error
    obtain ⟨_, _, same⟩ := error
    cases same
  · obtain ⟨startPc, start, rom⟩ := setup_bootRom returned
    exact ⟨startPc, d, start, rom, reads⟩

/-- Without an error of its own `setup` comes to an end below 4 GiB only. -/
theorem setup_returns_iff (sound : ¬ Raises cfg access) :
    (∃ budget r, setup budget cfg access fw = some r) ↔ fw.bytes.length < 2 ^ 32 := by
  obtain ⟨_, _, copies⟩ := setup_of_not_raises sound
  constructor
  · rintro ⟨budget, r, returned⟩
    by_contra long
    rw [copies, run_copyByte_eq_none (by omega)] at returned
    cases returned
  · intro short
    have returned := copies (fw.bytes.length + 1) fw
    rw [run_copyByte short] at returned
    exact ⟨_, _, returned⟩

/-- A file of the same size, of equal bytes. -/
def constant (fw : Firmware) (v : Byte) : Firmware :=
  ⟨List.replicate fw.bytes.length v, by simpa using fw.fits⟩

/-- Files of a size are all loaded or reported exactly if the size fits or `setup`
stops at an error of its own: it makes none about the size. -/
theorem loads_iff (laid : Laid ucfg) (attaches : Attaches ucfg S attach) (fw₀ : Firmware) :
    (∀ fw, fw.bytes.length = fw₀.bytes.length →
      Loads period me ucfg S attach mem cfg access fw) ↔
        Raises cfg access ∨ Fits ucfg fw₀ := by
  constructor
  · intro loads
    by_contra neither
    obtain ⟨sound, large⟩ := not_or.mp neither
    obtain ⟨positive, outside⟩ := not_fits_outside large
    obtain ⟨startPc, d, start, rom, reads⟩ :=
      (loads (constant fw₀ 0) List.length_replicate).returns sound
    obtain ⟨startPc', d', start', rom', reads'⟩ :=
      (loads (constant fw₀ 1) List.length_replicate).returns sound
    rw [start] at start'
    cases start'
    have last (v : Byte) : (constant fw₀ v).bytes.length = fw₀.bytes.length ∧
        (constant fw₀ v).bytes.getD (fw₀.bytes.length - 1) 0 = v := by
      refine ⟨List.length_replicate, ?_⟩
      rw [constant, List.getD_eq_getElem?_getD, List.getElem?_replicate, if_pos (by omega)]
      rfl
    have zero := reads (fw₀.bytes.length - 1) (by rw [(last 0).1]; omega)
    have one := reads' (fw₀.bytes.length - 1) (by rw [(last 1).1]; omega)
    rw [(last 0).2] at zero
    rw [(last 1).2] at one
    have same := zero.outside laid attaches.serves outside ?_ one
    · exact absurd same (by decide)
    · rintro ⟨lower, upper⟩
      obtain ⟨k, hk⟩ := Nat.exists_eq_add_of_le lower
      rw [hk, attaches.rom d k (by omega), attaches.rom d' k (by omega), rom, rom']
  · rintro (raises | fits) fw same
    · exact Or.inl ⟨0, setup_of_raises raises 0 fw⟩
    · by_cases sound : Raises cfg access
      · exact Or.inl ⟨0, setup_of_raises sound 0 fw⟩
      · exact loads_of_fits laid attaches sound (by rwa [Fits, same])

end Loads

/-- The two devices added to the plain bus. -/
def plainAttach (ucfg : Ucfg) (d : SpikeDevices) (x : Nat) : Byte :=
  if (bootRom ucfg).Contains x 1 then d.bootRom.getD (x - (bootRom ucfg).base) 0
  else d.ram.contents (BitVec.ofNat 64 (x - (spikeRam ucfg).base))

theorem plainAttach_attaches {ucfg : Ucfg} (laid : Laid ucfg) :
    Attaches ucfg (plainBus (bootRom ucfg) (spikeRam ucfg)) (plainAttach ucfg) := by
  refine ⟨plainBus_serves _ _, ?_, ?_⟩
  · intro d i hi
    have inside : (bootRom ucfg).Contains ((bootRom ucfg).base + i) 1 :=
      ⟨Nat.le_add_right _ _, by omega⟩
    change (if _ then _ else _) = _
    rw [if_pos inside, Nat.add_sub_cancel_left]
  · intro d i hi
    have inside : (spikeRam ucfg).Contains ((spikeRam ucfg).base + i) 1 :=
      ⟨Nat.le_add_right _ _, by omega⟩
    change (if _ then _ else _) = _
    rw [if_neg fun rom => laid.rom_ram _ rom inside, Nat.add_sub_cancel_left]

def exampleCfg : Cfg := ⟨some 0x80000000, .little⟩

/-- A file of two bytes. -/
def twoBytes : Firmware := ⟨[1, 2], by decide⟩

theorem loads_iff_twoBytes :
    Loads 10 () exampleUcfg (plainBus (bootRom exampleUcfg) (spikeRam exampleUcfg))
      (plainAttach exampleUcfg) (.memmodel .empty) exampleCfg .mapped twoBytes :=
  (loads_iff exampleUcfg_laid (plainAttach_attaches exampleUcfg_laid) twoBytes).mpr
    (Or.inr ⟨by decide, by decide⟩) twoBytes rfl

/-- One byte more than the RAM has. -/
def ramAndOne : Firmware := ⟨List.replicate 16385 0, by
  rw [List.length_replicate]
  decide⟩

/-- It is copied without an error, but its last byte cannot be read. -/
theorem not_loads_ramAndOne : ¬ Loads 10 () exampleUcfg
    (plainBus (bootRom exampleUcfg) (spikeRam exampleUcfg)) (plainAttach exampleUcfg)
    (.memmodel .empty) exampleCfg .mapped ramAndOne := by
  intro loads
  have sound : ¬ Raises exampleCfg .mapped := by simp [Raises, exampleCfg]
  obtain ⟨_, d, _, _, reads⟩ := loads.returns sound
  have last := reads 16384 (by rw [ramAndOne, List.length_replicate]; decide)
  exact not_reads_unknown exampleUcfg_laid (plainBus_serves _ _) (by decide) (by decide) last

end Uncore
