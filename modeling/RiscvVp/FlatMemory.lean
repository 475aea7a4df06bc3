import RiscvVp.MemoryMap
import RiscvVp.Spike

/-!
# The memory that the harts see

One byte for each physical address, each access in one step. What the uncore,
the Spike bus and the RTL memory do for an access is what this memory does, on
the bytes that the bus and the register file hold.
-/

namespace CellMemory

/-- A burst over consecutive natural addresses. -/
theorem writeBurst_consecutive {V : Type} (m : Nat → V) (a : Nat) (val : Nat → V) (n x : Nat) :
    writeBurst m (a + ·) val n x = if a ≤ x ∧ x < a + n then val (x - a) else m x := by
  split
  · rename_i inside
    have last := writeBurst_of_last m (a + ·) val (n := n) (i := x - a) (by omega)
      fun j hij _ same => by omega
    simpa only [Nat.add_sub_cancel' inside.1] using last
  · rename_i outside
    exact writeBurst_of_ne m _ val fun i hi same => outside (by omega)

end CellMemory

namespace Uncore

instance (ucfg : Ucfg) (t : Payload) : Decidable (Inside ucfg t) :=
  inferInstanceAs (Decidable (_ ∨ _ ∨ _))

/-- The window holds the whole memory, and no range from it on wraps into it. -/
structure Roomy (ucfg : Ucfg) : Prop where
  whole : 65536 ≤ (extram ucfg).size
  low : (extram ucfg).size + 2 ^ 32 ≤ 2 ^ 64

variable {ucfg : Ucfg} {t : Payload}

theorem Roomy.not_overruns (roomy : Roomy ucfg) : ¬ Overruns ucfg t := by
  rintro ⟨first, ⟨range, leaves⟩ | ⟨wraps, _⟩⟩
  · have start := translate_address first
    have whole := roomy.whole
    have lower := first.1
    apply leaves
    simp only [Payload.InRange] at range
    have same : (translate ucfg t).dataLength = t.dataLength := rfl
    exact ⟨lower, by omega⟩
  · have start := translate_address first
    have low := roomy.low
    have upper := first.2
    have short := t.dataLength_lt
    have same : (translate ucfg t).dataLength = t.dataLength := rfl
    omega

end Uncore

/-- `bus_t::load` writes as many bytes as it was given. -/
def SpikeBus.KeepsLength {B : Type} (S : SpikeBus B) : Prop :=
  ∀ b a d, (S.load b a d).2.bytes.length = d.bytes.length

namespace FlatMemory

open Uncore (bootRom spikeRam extram translate Inside Laid Roomy)

/-- What the bus and the register file hold, by physical address. -/
def flatten {B : Type} (ucfg : Ucfg) (S : SpikeBus B) (bus : B) (m : Ram) (x : Nat) : Byte :=
  if (extram ucfg).base ≤ x ∧ x < (extram ucfg).base + 65536 then
    m (BitVec.ofNat 16 (x - (extram ucfg).base))
  else S.byte bus x

/-- The bytes at an access, in a buffer as long as the caller's. -/
def bytesAt (m : Nat → Byte) (a : Mmio) : DataBuffer :=
  ⟨(List.range a.bytes.bytes.length).map fun i => m (a.paddr.toNat + i), by
    rw [List.length_map, List.length_range]
    exact a.bytes.fits⟩

/-- One access in one step: inside a region it loads or stores its bytes, and
anywhere else it fails without effect. -/
def access (ucfg : Ucfg) (m : Nat → Byte) (a : Mmio) : (Nat → Byte) × Reply :=
  if Inside ucfg a.payload then
    if a.store then
      (CellMemory.writeBurst m (a.paddr.toNat + ·) a.bytes.get a.bytes.bytes.length,
        ⟨true, a.bytes⟩)
    else (m, ⟨true, bytesAt m a⟩)
  else (m, ⟨false, a.bytes⟩)

variable {ucfg : Ucfg} {a : Mmio}

theorem access_outside (m : Nat → Byte) (outside : ¬ Inside ucfg a.payload) :
    access ucfg m a = (m, ⟨false, a.bytes⟩) := if_neg outside

theorem access_load (m : Nat → Byte) (inside : Inside ucfg a.payload) (load : a.store = false) :
    access ucfg m a = (m, ⟨true, bytesAt m a⟩) := by
  rw [access, if_pos inside, load]
  rfl

theorem access_store (m : Nat → Byte) (inside : Inside ucfg a.payload) (store : a.store = true) :
    access ucfg m a =
      (CellMemory.writeBurst m (a.paddr.toNat + ·) a.bytes.get a.bytes.bytes.length,
        ⟨true, a.bytes⟩) := by
  rw [access, if_pos inside, if_pos store]

/-- The reply tells whether the access was inside. -/
theorem access_done (m : Nat → Byte) :
    (access ucfg m a).2.done = true ↔ Inside ucfg a.payload := by
  by_cases inside : Inside ucfg a.payload
  · cases store : a.store with
    | true => simp [access_store m inside store, inside]
    | false => simp [access_load m inside store, inside]
  · simp [access_outside m inside, inside]

section Window
variable {B : Type} {S : SpikeBus B} {bus : B} {m : Ram}

theorem flatten_window {x : Nat} (inside : x < 65536) :
    flatten ucfg S bus m ((extram ucfg).base + x) = m (BitVec.ofNat 16 x) := by
  rw [flatten, if_pos (by omega), Nat.add_sub_cancel_left]

theorem flatten_of_device (laid : Laid ucfg) (roomy : Roomy ucfg) {x : Nat}
    (device : (bootRom ucfg).Contains x 1 ∨ (spikeRam ucfg).Contains x 1) :
    flatten ucfg S bus m x = S.byte bus x := by
  have apart := Uncore.not_window_of_device laid device
  have whole := roomy.whole
  rw [flatten, if_neg]
  intro inside
  exact apart ⟨inside.1, by omega⟩

/-- The payload with which an access queues at the RTL memory. -/
def queued (ucfg : Ucfg) (a : Mmio) : Payload := (translate ucfg a.payload).setResponseStatus .ok

/-- An access that the RTL memory takes, under its own addresses. -/
structure Queues (ucfg : Ucfg) (a : Mmio) : Prop where
  inside : Inside ucfg a.payload
  first : (extram ucfg).Contains a.paddr.toNat 1
  range : (translate ucfg a.payload).InRange

/-- A burst that has the memory to itself is one step of the flat memory. -/
theorem access_queued (queues : Queues ucfg a) : access ucfg (flatten ucfg S bus m) a =
    (flatten ucfg S bus ((queued ucfg a).serve m).2,
      ⟨true, ((queued ucfg a).serve m).1.data⟩) := by
  obtain ⟨inside, first, range⟩ := queues
  have performs : Kernel.Performs (translate ucfg a.payload) m ((queued ucfg a).serve m).1
      ((queued ucfg a).serve m).2 := Kernel.serve_performs range m
  have start : (translate ucfg a.payload).address.toNat + (extram ucfg).base = a.paddr.toNat :=
    Uncore.translate_address (t := a.payload) first
  have fits : (translate ucfg a.payload).address.toNat + a.bytes.bytes.length ≤ 65536 := range
  have framed : ((queued ucfg a).serve m).1.data.bytes.length = a.bytes.bytes.length :=
    (Payload.serve_frame _ m).2.2.2
  cases store : a.store with
  | false =>
    have read : (translate ucfg a.payload).command = .read := by
      simp [Uncore.translate, Mmio.payload, store]
    obtain ⟨loaded, same⟩ := performs.loaded read
    rw [access_load _ inside store, same]
    refine Prod.ext rfl (congrArg (Reply.mk true) (DataBuffer.ext ?_))
    rw [DataBuffer.bytes_eq_map framed loaded]
    refine List.map_congr_left fun i hi => ?_
    have below : i < a.bytes.bytes.length := List.mem_range.mp hi
    rw [show a.paddr.toNat + i = (extram ucfg).base +
      ((translate ucfg a.payload).address.toNat + i) by omega, flatten_window (by omega)]
  | true =>
    have write : (translate ucfg a.payload).command = .write := by
      simp [Uncore.translate, Mmio.payload, store]
    obtain ⟨stored, elsewhere, kept⟩ := performs.stored write
    rw [access_store _ inside store, kept]
    refine Prod.ext (funext fun x => (CellMemory.writeBurst_consecutive ..).trans ?_) rfl
    change _ = flatten ucfg S bus _ x
    split
    · rename_i within
      obtain ⟨i, hi, rfl⟩ : ∃ i, i < a.bytes.bytes.length ∧ x = a.paddr.toNat + i :=
        ⟨x - a.paddr.toNat, by omega, by omega⟩
      rw [Nat.add_sub_cancel_left, show a.paddr.toNat + i = (extram ucfg).base +
        ((translate ucfg a.payload).address.toNat + i) by omega, flatten_window (by omega)]
      exact (stored i hi).symm
    · rename_i outside
      rw [flatten, flatten]
      split
      · refine (elsewhere _ ?_).symm
        have length : (translate ucfg a.payload).dataLength = a.bytes.bytes.length := rfl
        rw [BitVec.toNat_ofNat, Nat.mod_eq_of_lt (by omega)]
        omega
      · rfl

/-- The uncore's answer, which its device or a refusal gives at once. -/
structure Answers (ucfg : Ucfg) (S : SpikeBus B) (a : Mmio) (bus bus' : B) (trans : Payload) :
    Prop where
  expected : trans.responseStatus = .ok ∨ trans.responseStatus = .genericError
  plain : trans.extension = none
  flat : ∀ m, access ucfg (flatten ucfg S bus m) a =
    (flatten ucfg S bus' m, ⟨trans.responseStatus == .ok, trans.data⟩)

theorem Answers.refused (outside : ¬ Inside ucfg a.payload) {trans : Payload}
    (error : trans.responseStatus = .genericError) (plain : trans.extension = none)
    (data : trans.data = a.bytes) : Answers ucfg S a bus bus trans := by
  refine ⟨Or.inr error, plain, fun m => ?_⟩
  rw [access_outside _ outside, error, data]
  rfl

theorem inside_iff_of_device (laid : Laid ucfg)
    (device : (bootRom ucfg).Contains a.paddr.toNat 1 ∨ (spikeRam ucfg).Contains a.paddr.toNat 1) :
    Inside ucfg a.payload ↔
      a.store = false ∧ (bootRom ucfg).Contains a.paddr.toNat a.bytes.bytes.length ∨
        (spikeRam ucfg).Contains a.paddr.toNat a.bytes.bytes.length := by
  have apart := Uncore.not_window_of_device laid device
  have read : a.payload.command = .read ↔ a.store = false := by
    cases store : a.store <;> simp [Mmio.payload, store]
  constructor
  · rintro (⟨load, rom⟩ | ram | ⟨window, _⟩)
    · exact Or.inl ⟨read.mp load, rom⟩
    · exact Or.inr ram
    · exact absurd (window.first a.nonempty) apart
  · rintro (⟨load, rom⟩ | ram)
    · exact Or.inl ⟨read.mpr load, rom⟩
    · exact Or.inr (Or.inl ram)

/-- A load from a device of the bus. -/
theorem answers_load (laid : Laid ucfg) (roomy : Roomy ucfg)
    (serves : S.Serves (bootRom ucfg) (spikeRam ucfg)) (keeps : S.KeepsLength)
    (device : (bootRom ucfg).Contains a.paddr.toNat 1 ∨ (spikeRam ucfg).Contains a.paddr.toNat 1)
    (load : a.store = false) :
    Answers ucfg S a bus bus { a.payload with
      data := (S.load bus a.paddr a.bytes).2
      responseStatus := Uncore.answer (S.load bus a.paddr a.bytes).1 } := by
  have map := inside_iff_of_device laid device
  by_cases inside : Inside ucfg a.payload
  · have region : (bootRom ucfg).Contains a.paddr.toNat a.bytes.bytes.length ∨
        (spikeRam ucfg).Contains a.paddr.toNat a.bytes.bytes.length :=
      (map.mp inside).imp_left And.right
    obtain ⟨done, loaded⟩ := serves.load_inside bus a.paddr a.bytes region
    refine ⟨Or.inl (by simp [done, Uncore.answer]), rfl, fun m => ?_⟩
    rw [access_load _ inside load, done]
    refine Prod.ext rfl (congrArg (Reply.mk true) (DataBuffer.ext ?_))
    rw [DataBuffer.bytes_eq_map (keeps bus a.paddr a.bytes) loaded]
    refine List.map_congr_left fun i hi => flatten_of_device laid roomy ?_
    have below : i < a.bytes.bytes.length := List.mem_range.mp hi
    have near {r : Region} (contained : r.Contains a.paddr.toNat a.bytes.bytes.length) :
        r.Contains (a.paddr.toNat + i) 1 := by
      obtain ⟨lower, upper⟩ := contained
      exact ⟨by omega, by omega⟩
    exact region.imp near near
  · have none : S.load bus a.paddr a.bytes = (false, a.bytes) :=
      serves.load_outside bus a.paddr a.bytes
        (fun rom => inside (map.mpr (Or.inl ⟨load, rom⟩)))
        fun ram => inside (map.mpr (Or.inr ram))
    rw [none]
    exact .refused inside rfl rfl rfl

/-- A store to a device of the bus; the boot ROM takes none. -/
theorem answers_store (laid : Laid ucfg) (roomy : Roomy ucfg)
    (serves : S.Serves (bootRom ucfg) (spikeRam ucfg))
    (device : (bootRom ucfg).Contains a.paddr.toNat 1 ∨ (spikeRam ucfg).Contains a.paddr.toNat 1)
    (store : a.store = true) :
    Answers ucfg S a bus (S.store bus a.paddr a.bytes).2
      (a.payload.setResponseStatus (Uncore.answer (S.store bus a.paddr a.bytes).1)) := by
  have map := inside_iff_of_device laid device
  by_cases inside : Inside ucfg a.payload
  · have ram : (spikeRam ucfg).Contains a.paddr.toNat a.bytes.bytes.length := by
      rcases map.mp inside with ⟨load, _⟩ | ram
      · rw [store] at load
        cases load
      · exact ram
    obtain ⟨done, stored, elsewhere⟩ := serves.store_inside bus a.paddr a.bytes ram
    refine ⟨Or.inl (by simp [done, Uncore.answer, Payload.setResponseStatus]), rfl, fun m => ?_⟩
    rw [access_store _ inside store, done]
    refine Prod.ext (funext fun x => (CellMemory.writeBurst_consecutive ..).trans ?_) rfl
    change _ = flatten ucfg S _ m x
    split
    · rename_i within
      have here : (spikeRam ucfg).Contains x 1 := by
        obtain ⟨lower, upper⟩ := ram
        exact ⟨by omega, by omega⟩
      rw [flatten_of_device laid roomy (Or.inr here), ← stored (x - a.paddr.toNat) (by omega),
        Nat.add_sub_cancel' within.1]
    · rename_i outside
      rw [flatten, flatten, elsewhere x (by omega)]
  · have none : S.store bus a.paddr a.bytes = (false, bus) :=
      serves.store_outside bus a.paddr a.bytes fun ram => inside (map.mpr (Or.inr ram))
    rw [none]
    exact .refused inside rfl rfl rfl

/-- An access queues at the RTL memory exactly if it is inside the window, with
a call in range; all others are answered as the flat memory answers them. -/
theorem transport_cases (laid : Laid ucfg) (roomy : Roomy ucfg)
    (serves : S.Serves (bootRom ucfg) (spikeRam ucfg)) (keeps : S.KeepsLength) (bus : B)
    (a : Mmio) :
    (Uncore.transport ucfg S bus a.payload 0 = .queued ⟨queued ucfg a, scNs 7, .lock⟩ ∧
      Queues ucfg a) ∨
    ∃ trans delay bus', Uncore.transport ucfg S bus a.payload 0 = .answered trans delay bus' ∧
      Answers ucfg S a bus bus' trans := by
  by_cases device : (bootRom ucfg).Contains a.paddr.toNat 1 ∨
      (spikeRam ucfg).Contains a.paddr.toNat 1
  · right
    rcases Uncore.bTransport_device laid serves a.payload_serviceable device bus 0 with
      ⟨read, hop⟩ | ⟨write, hop⟩
    · have load : a.store = false := by
        cases store : a.store with
        | false => rfl
        | true => simp [Mmio.payload, store] at read
      exact ⟨_, _, _, Uncore.transport_of_answered hop,
        answers_load laid roomy serves keeps device load⟩
    · have store : a.store = true := by
        cases store : a.store with
        | true => rfl
        | false => simp [Mmio.payload, store] at write
      exact ⟨_, _, _, Uncore.transport_of_answered hop,
        answers_store laid roomy serves device store⟩
  · by_cases first : (extram ucfg).Contains a.paddr.toNat 1
    · have hop := Uncore.bTransport_extram (t := a.payload) laid serves first bus 0
      have accepts := Uncore.accepts_iff_of_window (t := a.payload) laid a.nonempty first
      by_cases inside : Inside ucfg a.payload
      · left
        have accepted := accepts.mpr (Or.inl inside)
        have range := ((Uncore.inside_iff_of_window (t := a.payload) laid a.nonempty first).mp
          inside).2
        have entry := Kernel.bTransport_accepted (t := translate ucfg a.payload) (0 + scNs 7)
          a.payload_serviceable accepted
        refine ⟨?_, inside, first, range⟩
        rw [Uncore.transport, hop]
        simp only [entry]
        rfl
      · right
        have refused : (translate ucfg a.payload).beyond Payload.rtlMaxRamAddress = true := by
          by_contra accepted
          rcases accepts.mp (Bool.not_eq_true _ ▸ accepted) with here | overruns
          · exact inside here
          · exact roomy.not_overruns overruns
        have entry := Kernel.bTransport_refused (0 + scNs 7) refused
        refine ⟨(translate ucfg a.payload).setResponseStatus .genericError, 0 + scNs 7, bus, ?_,
          .refused inside rfl rfl rfl⟩
        rw [Uncore.transport, hop]
        simp only [entry]
    · right
      have hop := Uncore.bTransport_unknown (t := a.payload) laid serves device first bus 0
      refine ⟨_, _, _, Uncore.transport_of_answered hop, .refused ?_ rfl rfl rfl⟩
      rintro (⟨_, rom⟩ | ram | ⟨window, _⟩)
      · exact device (Or.inl (rom.first a.nonempty))
      · exact device (Or.inr (ram.first a.nonempty))
      · exact first (window.first a.nonempty)

end Window

end FlatMemory
