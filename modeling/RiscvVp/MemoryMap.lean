import RiscvVp.Uncore

/-!
# The memory map

Which transactions succeed at the uncore, seen from the regions that the
configuration names. The decode looks at the first byte; the Spike bus then
checks the whole range, the way to the external memory does not.
-/

/-- The external memory behind the initiator socket of the uncore. -/
inductive ExtMem (ι : Type) where
  | memrtl (k : Platform ι)
  | memmodel (s : Memmodel)

namespace ExtMem

variable {ι : Type} [DecidableEq ι]

/-- A call of the memory's `b_transport` by thread `me` comes back with a payload. -/
inductive Returns (period : Nat) (me : ι) :
    ExtMem ι → Payload → Nat → Payload → ExtMem ι → Prop
  | memrtl {k₀ k : Platform ι} {trans trans' : Payload} {delay delay' : Nat}
      (returns : Kernel.Returns period me k₀ trans delay trans' delay' k) :
      Returns period me (.memrtl k₀) trans delay trans' (.memrtl k)
  | memmodel {s s' : Memmodel} {trans trans' : Payload} {delay delay' : Nat}
      (answer : s.bTransport trans delay = .ok (trans', delay', s')) :
      Returns period me (.memmodel s) trans delay trans' (.memmodel s')

/-- The byte that the memory holds at an address. -/
def byte : ExtMem ι → BitVec 64 → Byte
  | .memrtl k, a => k.pipe.ram (a.setWidth 16)
  | .memmodel s, a => s.sparseArray a

/-- No call is under way. -/
def Ready (period : Nat) : ExtMem ι → Prop
  | .memrtl k => k.Idle period
  | .memmodel _ => True

variable {period : Nat} {me : ι} {mem mem' : ExtMem ι} {t trans : Payload} {delay : Nat}

theorem exists_returns (me : ι) (delay : Nat) (rising : 0 < period) (ready : mem.Ready period)
    (serviceable : t.Serviceable) (positive : t.PositiveDelays) :
    ∃ trans mem', Returns period me mem t delay trans mem' := by
  cases mem with
  | memrtl k₀ =>
    obtain ⟨_, _, _, returns⟩ :=
      Kernel.exists_returns me delay rising ready serviceable positive
    exact ⟨_, _, .memrtl returns⟩
  | memmodel s =>
    obtain ⟨trans, s', answer, _⟩ := Memmodel.bTransport_status s delay serviceable
    exact ⟨_, _, .memmodel answer⟩

/-- The status tells whether the bound test was passed, and a refused
transaction leaves every byte and the caller's buffer alone. -/
theorem Returns.status (returns : Returns period me mem t delay trans mem')
    (ready : mem.Ready period) (serviceable : t.Serviceable) :
    (t.beyond 65535 = false → trans.responseStatus = .ok) ∧
      (t.beyond 65535 = true → trans = t.setResponseStatus .genericError ∧
        ∀ a, mem'.byte a = mem.byte a) := by
  cases returns with
  | memrtl returns =>
    obtain ⟨run, ret⟩ := returns
    constructor
    · intro accepted
      exact Kernel.returned_status ready serviceable accepted run ret
    · intro refused
      obtain ⟨act, ram, _⟩ := Kernel.refused_run ready refused run
      refine ⟨congrArg Activation.trans act, fun a => ?_⟩
      exact congrFun ram _
  | memmodel answer =>
    constructor
    · intro accepted
      obtain ⟨_, _, answer', status⟩ := Memmodel.bTransport_status _ _ serviceable
      rw [answer] at answer'
      cases answer'
      rw [status, if_neg]
      rw [show t.beyond Memmodel.modelMaxRamAddress = false from accepted]
      exact Bool.false_ne_true
    · intro refused
      rw [Memmodel.bTransport_refused refused] at answer
      cases answer
      exact ⟨rfl, fun _ => rfl⟩

end ExtMem

/-- What is relied on of the Spike bus, given its ROM and its RAM: it finds a
device exactly for a range inside one, loads and stores such a range, and
fails without effect otherwise. The ROM takes no stores. -/
structure SpikeBus.Serves {B : Type} (S : SpikeBus B) (rom ram : Region) : Prop where
  find : ∀ a n, S.findDevice a n = true ↔ rom.Contains a.toNat n ∨ ram.Contains a.toNat n
  load_inside : ∀ b a d, rom.Contains a.toNat d.bytes.length ∨ ram.Contains a.toNat d.bytes.length →
    (S.load b a d).1 = true ∧
      ∀ i, i < d.bytes.length → (S.load b a d).2.get i = S.byte b (a.toNat + i)
  load_outside : ∀ b a d, ¬ rom.Contains a.toNat d.bytes.length →
    ¬ ram.Contains a.toNat d.bytes.length → S.load b a d = (false, d)
  store_inside : ∀ b a d, ram.Contains a.toNat d.bytes.length → (S.store b a d).1 = true ∧
    (∀ i, i < d.bytes.length → S.byte (S.store b a d).2 (a.toNat + i) = d.get i) ∧
    ∀ x, x < a.toNat ∨ a.toNat + d.bytes.length ≤ x → S.byte (S.store b a d).2 x = S.byte b x
  store_outside : ∀ b a d, ¬ ram.Contains a.toNat d.bytes.length → S.store b a d = (false, b)

namespace Uncore

variable {ι : Type} [DecidableEq ι] {B : Type}

/-- A call of the uncore's `b_transport`, with the forwarded call inside it. -/
inductive Returns (period : Nat) (me : ι) (ucfg : Ucfg) (S : SpikeBus B) :
    B → ExtMem ι → Payload → Nat → Payload → B → ExtMem ι → Prop
  | answered {bus bus' : B} {mem : ExtMem ι} {t trans : Payload} {delay delay' : Nat}
      (hop : bTransport ucfg S bus t delay = .answered trans delay' bus') :
      Returns period me ucfg S bus mem t delay trans bus' mem
  | forwarded {bus : B} {mem mem' : ExtMem ι} {t t' trans : Payload} {delay delay' : Nat}
      (hop : bTransport ucfg S bus t delay = .forwarded t' delay')
      (returns : ExtMem.Returns period me mem t' delay' trans mem') :
      Returns period me ucfg S bus mem t delay trans bus mem'

/-- Boot ROM, RAM and window consist of whole pages and keep apart. -/
structure Laid (ucfg : Ucfg) : Prop where
  rom : (bootRom ucfg).Paged 4096
  ram : (spikeRam ucfg).Paged 4096
  window : (extram ucfg).Paged 4096
  rom_ram : (bootRom ucfg).Disjoint (spikeRam ucfg)
  rom_window : (bootRom ucfg).Disjoint (extram ucfg)
  ram_window : (spikeRam ucfg).Disjoint (extram ucfg)

/-- The whole range lies in one region that can serve the command. -/
def Inside (ucfg : Ucfg) (t : Payload) : Prop :=
  (t.command = .read ∧ (bootRom ucfg).Contains t.address.toNat t.dataLength) ∨
    (spikeRam ucfg).Contains t.address.toNat t.dataLength ∨
    ((extram ucfg).Contains t.address.toNat t.dataLength ∧
      t.address.toNat + t.dataLength ≤ (extram ucfg).base + 65536)

/-- A served transaction that starts in a device of the bus stays in it. -/
structure InDevice (S : SpikeBus B) (r : Region) (t trans : Payload) (bus bus' : B) : Prop where
  range : r.Contains t.address.toNat t.dataLength
  elsewhere : ∀ x, ¬ r.Contains x 1 → S.byte bus' x = S.byte bus x
  loaded : t.command = .read →
    ∀ i, i < t.dataLength → trans.data.get i = S.byte bus (t.address.toNat + i)

/-- The claim on one transaction: which ranges succeed, that a failure has no
effect, and that a success touches the region of its first byte only. What is
not read is shown by putting something else in its place. -/
structure Mapped (period : Nat) (me : ι) (ucfg : Ucfg) (S : SpikeBus B) (bus : B)
    (mem : ExtMem ι) (t : Payload) (delay : Nat) : Prop where
  returns : ∃ trans bus' mem', Returns period me ucfg S bus mem t delay trans bus' mem'
  served : ∀ trans bus' mem', Returns period me ucfg S bus mem t delay trans bus' mem' →
    (trans.responseStatus = .ok ↔ Inside ucfg t) ∧
      (trans.responseStatus = .ok ∨ trans.responseStatus = .genericError)
  failed : ∀ trans bus' mem', Returns period me ucfg S bus mem t delay trans bus' mem' →
    trans.responseStatus = .genericError →
      (∀ x, S.byte bus' x = S.byte bus x) ∧ ∀ a, mem'.byte a = mem.byte a
  device : ∀ trans bus' mem', Returns period me ucfg S bus mem t delay trans bus' mem' →
    trans.responseStatus = .ok → ∀ r, r = bootRom ucfg ∨ r = spikeRam ucfg →
      r.Contains t.address.toNat 1 → InDevice S r t trans bus bus' ∧ mem' = mem ∧
        ∀ other : ExtMem ι, Returns period me ucfg S bus other t delay trans bus' other
  external : ∀ trans bus' mem', Returns period me ucfg S bus mem t delay trans bus' mem' →
    trans.responseStatus = .ok → (extram ucfg).Contains t.address.toNat 1 →
      bus' = bus ∧ ∀ other : B, Returns period me ucfg S other mem t delay trans other mem'

/-- The first byte is in the window and the translated range is accepted, but it
passes the end of the window or wraps at 2^64. -/
def Overruns (ucfg : Ucfg) (t : Payload) : Prop :=
  (extram ucfg).Contains t.address.toNat 1 ∧
    (((translate ucfg t).InRange ∧ ¬ (extram ucfg).Contains t.address.toNat t.dataLength) ∨
      (translate ucfg t).WrapsIntoRange)

variable {ucfg : Ucfg} {S : SpikeBus B} {t : Payload}

theorem extram_contains_first (a : BitVec 64) : (extram ucfg).Contains a.toNat 1 ↔
    ucfg.extramStartAddress ≤ a ∧ a ≤ ucfg.extramEndAddress := by
  simp only [extram, Region.Contains, BitVec.le_def]
  constructor <;> rintro ⟨lower, upper⟩ <;> constructor <;> omega

theorem translate_address (inside : (extram ucfg).Contains t.address.toNat 1) :
    (translate ucfg t).address.toNat + (extram ucfg).base = t.address.toNat := by
  have bounds := (extram_contains_first t.address).mp inside
  have lower : ucfg.extramStartAddress.toNat ≤ t.address.toNat := BitVec.le_def.mp bounds.1
  have := t.address.isLt
  change (t.address - ucfg.extramStartAddress).toNat + ucfg.extramStartAddress.toNat = _
  rw [BitVec.toNat_sub]
  omega

theorem page_toNat (a : BitVec 64) : (a >>> 12 <<< 12).toNat = a.toNat / 4096 * 4096 := by
  rw [BitVec.toNat_shiftLeft, BitVec.toNat_ushiftRight, Nat.shiftRight_eq_div_pow,
    Nat.shiftLeft_eq]
  have := a.isLt
  have := Nat.div_mul_le_self a.toNat 4096
  omega

/-- The page-rounded lookup of the first byte decides as the regions do. -/
theorem tlmAddressDecode_eq (laid : Laid ucfg) (bus : S.Serves (bootRom ucfg) (spikeRam ucfg))
    (a : BitVec 64) : tlmAddressDecode ucfg S a =
      if (bootRom ucfg).Contains a.toNat 1 ∨ (spikeRam ucfg).Contains a.toNat 1 then .spikeBus
      else if (extram ucfg).Contains a.toNat 1 then .extram else .unknownDevice := by
  have found : S.findDevice (a >>> 12 <<< 12) 4096 = true ↔
      (bootRom ucfg).Contains a.toNat 1 ∨ (spikeRam ucfg).Contains a.toNat 1 := by
    rw [bus.find, page_toNat, laid.rom.contains_page (by decide),
      laid.ram.contains_page (by decide)]
  simp only [tlmAddressDecode, found, extram_contains_first]

variable {period delay : Nat} {me : ι} {bus bus' bus₂ : B} {mem mem' : ExtMem ι} {trans : Payload}

/-- An answer of the uncore itself is the only thing a call can return. -/
theorem returns_of_answered {trans' : Payload} {delay' : Nat}
    (hop : bTransport ucfg S bus t delay = .answered trans' delay' bus') :
    Returns period me ucfg S bus mem t delay trans bus₂ mem' ↔
      trans = trans' ∧ bus₂ = bus' ∧ mem' = mem := by
  constructor
  · intro returns
    cases returns with
    | answered hop' =>
      rw [hop] at hop'
      cases hop'
      exact ⟨rfl, rfl, rfl⟩
    | forwarded hop' => rw [hop] at hop'; cases hop'
  · rintro ⟨rfl, rfl, rfl⟩
    exact .answered hop

theorem returns_of_forwarded {t' : Payload} {delay' : Nat}
    (hop : bTransport ucfg S bus t delay = .forwarded t' delay') :
    Returns period me ucfg S bus mem t delay trans bus' mem' ↔
      bus' = bus ∧ ExtMem.Returns period me mem t' delay' trans mem' := by
  constructor
  · intro returns
    cases returns with
    | answered hop' => rw [hop] at hop'; cases hop'
    | forwarded hop' inner =>
      rw [hop] at hop'
      cases hop'
      exact ⟨rfl, inner⟩
  · rintro ⟨rfl, inner⟩
    exact .forwarded hop inner

/-- What the uncore answers when the first byte is in a device of the bus. -/
theorem bTransport_device (laid : Laid ucfg) (serves : S.Serves (bootRom ucfg) (spikeRam ucfg))
    (serviceable : t.Serviceable)
    (first : (bootRom ucfg).Contains t.address.toNat 1 ∨
      (spikeRam ucfg).Contains t.address.toNat 1) (bus : B) (delay : Nat) :
    (t.command = .read ∧ bTransport ucfg S bus t delay = .answered { t with
        data := (S.load bus t.address t.data).2
        responseStatus := answer (S.load bus t.address t.data).1 } (delay + scNs 10) bus) ∨
      (t.command = .write ∧ bTransport ucfg S bus t delay =
        .answered (t.setResponseStatus (answer (S.store bus t.address t.data).1))
          (delay + scNs 50) (S.store bus t.address t.data).2) := by
  have decode := tlmAddressDecode_eq laid serves t.address
  rw [if_pos first] at decode
  rcases serviceable with read | write
  · exact Or.inl ⟨read, by simp [bTransport, decode, read]⟩
  · exact Or.inr ⟨write, by simp [bTransport, decode, write]⟩

theorem bTransport_extram (laid : Laid ucfg) (serves : S.Serves (bootRom ucfg) (spikeRam ucfg))
    (first : (extram ucfg).Contains t.address.toNat 1) (bus : B) (delay : Nat) :
    bTransport ucfg S bus t delay = .forwarded (translate ucfg t) (delay + scNs 7) := by
  have decode := tlmAddressDecode_eq laid serves t.address
  have outside : ¬ ((bootRom ucfg).Contains t.address.toNat 1 ∨
      (spikeRam ucfg).Contains t.address.toNat 1) := by
    rintro (rom | ram)
    · exact laid.rom_window _ rom first
    · exact laid.ram_window _ ram first
  rw [if_neg outside, if_pos first] at decode
  simp [bTransport, decode]

theorem bTransport_unknown (laid : Laid ucfg) (serves : S.Serves (bootRom ucfg) (spikeRam ucfg))
    (device : ¬ ((bootRom ucfg).Contains t.address.toNat 1 ∨
      (spikeRam ucfg).Contains t.address.toNat 1))
    (window : ¬ (extram ucfg).Contains t.address.toNat 1) (bus : B) (delay : Nat) :
    bTransport ucfg S bus t delay = .answered (t.setResponseStatus .genericError) delay bus := by
  have decode := tlmAddressDecode_eq laid serves t.address
  rw [if_neg device, if_neg window] at decode
  simp [bTransport, decode]

/-- The claim for a transaction that the uncore answers itself. -/
theorem mapped_of_answered {trans₀ : Payload} {bus₀ : B} {delay' : Nat}
    (hop : bTransport ucfg S bus t delay = .answered trans₀ delay' bus₀)
    (window : ¬ (extram ucfg).Contains t.address.toNat 1)
    (status : trans₀.responseStatus = .ok ∨ trans₀.responseStatus = .genericError)
    (served : trans₀.responseStatus = .ok ↔ Inside ucfg t)
    (failed : trans₀.responseStatus = .genericError → ∀ x, S.byte bus₀ x = S.byte bus x)
    (device : trans₀.responseStatus = .ok → ∀ r, r = bootRom ucfg ∨ r = spikeRam ucfg →
      r.Contains t.address.toNat 1 → InDevice S r t trans₀ bus bus₀) :
    Mapped period me ucfg S bus mem t delay := by
  constructor
  · exact ⟨trans₀, bus₀, mem, .answered hop⟩
  · intro trans bus' mem' returns
    obtain ⟨rfl, rfl, rfl⟩ := (returns_of_answered hop).mp returns
    exact ⟨served, status⟩
  · intro trans bus' mem' returns error
    obtain ⟨rfl, rfl, rfl⟩ := (returns_of_answered hop).mp returns
    exact ⟨failed error, fun _ => rfl⟩
  · intro trans bus' mem' returns ok r region first
    obtain ⟨rfl, rfl, rfl⟩ := (returns_of_answered hop).mp returns
    exact ⟨device ok r region first, rfl, fun _ => .answered hop⟩
  · intro trans bus' mem' _ _ first
    exact absurd first window

theorem not_window_of_device (laid : Laid ucfg) {a : Nat}
    (first : (bootRom ucfg).Contains a 1 ∨ (spikeRam ucfg).Contains a 1) :
    ¬ (extram ucfg).Contains a 1 := by
  rcases first with rom | ram
  · exact laid.rom_window _ rom
  · exact laid.ram_window _ ram

theorem mapped_of_load (laid : Laid ucfg) (serves : S.Serves (bootRom ucfg) (spikeRam ucfg))
    (nonempty : 0 < t.dataLength) (read : t.command = .read)
    (first : (bootRom ucfg).Contains t.address.toNat 1 ∨
      (spikeRam ucfg).Contains t.address.toNat 1)
    (hop : bTransport ucfg S bus t delay = .answered { t with
        data := (S.load bus t.address t.data).2
        responseStatus := answer (S.load bus t.address t.data).1 } (delay + scNs 10) bus) :
    Mapped period me ucfg S bus mem t delay := by
  have window := not_window_of_device laid first
  by_cases inside : (bootRom ucfg).Contains t.address.toNat t.dataLength ∨
      (spikeRam ucfg).Contains t.address.toNat t.dataLength
  · obtain ⟨done, loaded⟩ := serves.load_inside bus t.address t.data inside
    refine mapped_of_answered hop window ?_ ?_ ?_ ?_
    · exact Or.inl (by simp [done, answer])
    · refine ⟨fun _ => ?_, fun _ => by simp [done, answer]⟩
      rcases inside with rom | ram
      · exact Or.inl ⟨read, rom⟩
      · exact Or.inr (Or.inl ram)
    · intro error
      simp [done, answer] at error
    · intro _ r region here
      refine ⟨?_, fun _ _ => rfl, fun _ i hi => loaded i hi⟩
      rcases region with rfl | rfl <;> rcases inside with rom | ram
      · exact rom
      · exact absurd (ram.first nonempty) (laid.rom_ram _ here)
      · exact absurd here (laid.rom_ram _ (rom.first nonempty))
      · exact ram
  · have none : S.load bus t.address t.data = (false, t.data) :=
      serves.load_outside bus t.address t.data (fun rom => inside (Or.inl rom))
        (fun ram => inside (Or.inr ram))
    refine mapped_of_answered hop window ?_ ?_ ?_ ?_
    · exact Or.inr (by simp [none, answer])
    · refine ⟨fun ok => by simp [none, answer] at ok, ?_⟩
      rintro (⟨_, rom⟩ | ram | ⟨range, _⟩)
      · exact absurd (Or.inl rom) inside
      · exact absurd (Or.inr ram) inside
      · exact absurd (range.first nonempty) window
    · exact fun _ _ => rfl
    · intro ok
      simp [none, answer] at ok

theorem mapped_of_store (laid : Laid ucfg) (serves : S.Serves (bootRom ucfg) (spikeRam ucfg))
    (nonempty : 0 < t.dataLength) (write : t.command = .write)
    (first : (bootRom ucfg).Contains t.address.toNat 1 ∨
      (spikeRam ucfg).Contains t.address.toNat 1)
    (hop : bTransport ucfg S bus t delay =
      .answered (t.setResponseStatus (answer (S.store bus t.address t.data).1))
        (delay + scNs 50) (S.store bus t.address t.data).2) :
    Mapped period me ucfg S bus mem t delay := by
  have window := not_window_of_device laid first
  by_cases inside : (spikeRam ucfg).Contains t.address.toNat t.dataLength
  · obtain ⟨done, _, elsewhere⟩ := serves.store_inside bus t.address t.data inside
    refine mapped_of_answered hop window ?_ ?_ ?_ ?_
    · exact Or.inl (by simp [done, answer, Payload.setResponseStatus])
    · exact ⟨fun _ => Or.inr (Or.inl inside), fun _ => by
        simp [done, answer, Payload.setResponseStatus]⟩
    · intro error
      simp [done, answer, Payload.setResponseStatus] at error
    · intro _ r region here
      rcases region with rfl | rfl
      · exact absurd (inside.first nonempty) (laid.rom_ram _ here)
      · refine ⟨inside, fun x out => elsewhere x ?_, fun read => ?_⟩
        · by_contra within
          obtain ⟨lower, upper⟩ := inside
          refine out ⟨?_, ?_⟩ <;> simp only [Payload.dataLength] at upper <;> omega
        · rw [write] at read
          cases read
  · have none : S.store bus t.address t.data = (false, bus) :=
      serves.store_outside bus t.address t.data inside
    refine mapped_of_answered hop window ?_ ?_ ?_ ?_
    · exact Or.inr (by simp [none, answer, Payload.setResponseStatus])
    · refine ⟨fun ok => by simp [none, answer, Payload.setResponseStatus] at ok, ?_⟩
      rintro (⟨read, _⟩ | ram | ⟨range, _⟩)
      · rw [write] at read
        cases read
      · exact absurd ram inside
      · exact absurd (range.first nonempty) window
    · intro _ x
      rw [none]
    · intro ok
      simp [none, answer, Payload.setResponseStatus] at ok

theorem mapped_of_unknown (laid : Laid ucfg) (serves : S.Serves (bootRom ucfg) (spikeRam ucfg))
    (nonempty : 0 < t.dataLength)
    (device : ¬ ((bootRom ucfg).Contains t.address.toNat 1 ∨
      (spikeRam ucfg).Contains t.address.toNat 1))
    (window : ¬ (extram ucfg).Contains t.address.toNat 1) :
    Mapped period me ucfg S bus mem t delay := by
  refine mapped_of_answered (bTransport_unknown laid serves device window bus delay) window
    (Or.inr rfl) ⟨by rintro ⟨⟩, ?_⟩ (fun _ _ => rfl) (by rintro ⟨⟩)
  rintro (⟨_, rom⟩ | ram | ⟨range, _⟩)
  · exact absurd (Or.inl (rom.first nonempty)) device
  · exact absurd (Or.inr (ram.first nonempty)) device
  · exact absurd (range.first nonempty) window

section Window
variable (laid : Laid ucfg) (nonempty : 0 < t.dataLength)
  (first : (extram ucfg).Contains t.address.toNat 1)
include laid nonempty first

theorem inside_iff_of_window : Inside ucfg t ↔
    (extram ucfg).Contains t.address.toNat t.dataLength ∧ (translate ucfg t).InRange := by
  have start := translate_address first
  have device : ¬ ((bootRom ucfg).Contains t.address.toNat 1 ∨
      (spikeRam ucfg).Contains t.address.toNat 1) :=
    fun here => not_window_of_device laid here first
  have length : (translate ucfg t).dataLength = t.dataLength := rfl
  simp only [Inside, Payload.InRange, length]
  constructor
  · rintro (⟨_, rom⟩ | ram | ⟨range, fits⟩)
    · exact absurd (Or.inl (rom.first nonempty)) device
    · exact absurd (Or.inr (ram.first nonempty)) device
    · exact ⟨range, by omega⟩
  · rintro ⟨range, fits⟩
    exact Or.inr (Or.inr ⟨range, by omega⟩)

/-- The memory behind the window accepts what lies inside and what overruns. -/
theorem accepts_iff_of_window : (translate ucfg t).beyond 65535 = false ↔
    Inside ucfg t ∨ Overruns ucfg t := by
  rw [(translate ucfg t).beyond_eq_false_iff nonempty, inside_iff_of_window laid nonempty first]
  constructor
  · rintro (range | wraps)
    · by_cases here : (extram ucfg).Contains t.address.toNat t.dataLength
      · exact Or.inl ⟨here, range⟩
      · exact Or.inr ⟨first, Or.inl ⟨range, here⟩⟩
    · exact Or.inr ⟨first, Or.inr wraps⟩
  · rintro (⟨_, range⟩ | ⟨_, ⟨range, _⟩ | wraps⟩)
    · exact Or.inl range
    · exact Or.inl range
    · exact Or.inr wraps

theorem not_inside_of_overruns (overruns : Overruns ucfg t) : ¬ Inside ucfg t := by
  rw [inside_iff_of_window laid nonempty first]
  rintro ⟨range, fits⟩
  rcases overruns.2 with ⟨_, leaves⟩ | wraps
  · exact leaves range
  · exact fits.not_wraps wraps

end Window

/-- In the window the whole claim hangs on the range the memory accepts. -/
theorem mapped_of_window (laid : Laid ucfg) (serves : S.Serves (bootRom ucfg) (spikeRam ucfg))
    (rising : 0 < period) (ready : mem.Ready period) (serviceable : t.Serviceable)
    (nonempty : 0 < t.dataLength) (positive : t.PositiveDelays)
    (first : (extram ucfg).Contains t.address.toNat 1) :
    Mapped period me ucfg S bus mem t delay ↔ ¬ Overruns ucfg t := by
  have hop (bus : B) := bTransport_extram laid serves first bus delay
  have positive' : (translate ucfg t).PositiveDelays := positive
  have serviceable' : (translate ucfg t).Serviceable := serviceable
  have accepts := accepts_iff_of_window laid nonempty first
  constructor
  · intro mapped overruns
    obtain ⟨trans, bus', mem', returns⟩ := mapped.returns
    obtain ⟨_, inner⟩ := (returns_of_forwarded (hop bus)).mp returns
    have ok := (inner.status ready serviceable).1 (accepts.mpr (Or.inr overruns))
    exact not_inside_of_overruns laid nonempty first overruns
      ((mapped.served _ _ _ returns).1.mp ok)
  · intro sound
    have outcome {trans : Payload} {bus' : B} {mem' : ExtMem ι}
        (returns : Returns period me ucfg S bus mem t delay trans bus' mem') : bus' = bus ∧
          ((trans.responseStatus = .ok ∧ Inside ucfg t) ∨
            (trans.responseStatus = .genericError ∧ ¬ Inside ucfg t ∧
              ∀ a, mem'.byte a = mem.byte a)) := by
      obtain ⟨same, inner⟩ := (returns_of_forwarded (hop bus)).mp returns
      obtain ⟨served, refused⟩ := inner.status ready serviceable
      refine ⟨same, ?_⟩
      cases outside : (translate ucfg t).beyond 65535 with
      | true =>
        obtain ⟨rfl, still⟩ := refused outside
        refine Or.inr ⟨rfl, fun here => ?_, still⟩
        rw [accepts.mpr (Or.inl here)] at outside
        cases outside
      | false => exact Or.inl ⟨served outside, (accepts.mp outside).resolve_right sound⟩
    constructor
    · obtain ⟨trans, mem', inner⟩ := ExtMem.exists_returns me (delay + scNs 7)
        rising ready serviceable' positive'
      exact ⟨trans, bus, mem', .forwarded (hop bus) inner⟩
    · intro trans bus' mem' returns
      rcases (outcome returns).2 with ⟨ok, here⟩ | ⟨error, away, _⟩
      · exact ⟨⟨fun _ => here, fun _ => ok⟩, Or.inl ok⟩
      · rw [error]
        exact ⟨⟨by rintro ⟨⟩, fun here => absurd here away⟩, Or.inr rfl⟩
    · intro trans bus' mem' returns error
      obtain ⟨rfl, ⟨ok, _⟩ | ⟨_, _, still⟩⟩ := outcome returns
      · rw [ok] at error
        cases error
      · exact ⟨fun _ => rfl, still⟩
    · intro trans bus' mem' _ _ r region here
      have device : (bootRom ucfg).Contains t.address.toNat 1 ∨
          (spikeRam ucfg).Contains t.address.toNat 1 := by
        rcases region with rfl | rfl
        · exact Or.inl here
        · exact Or.inr here
      exact absurd first (not_window_of_device laid device)
    · intro trans bus' mem' returns _ _
      obtain ⟨same, inner⟩ := (returns_of_forwarded (hop bus)).mp returns
      exact ⟨same, fun other => .forwarded (hop other) inner⟩

/-- The memory map holds for a transaction exactly when it does not overrun the window. -/
theorem mapped_iff (me : ι) (bus : B) (mem : ExtMem ι) (delay : Nat) (laid : Laid ucfg)
    (serves : S.Serves (bootRom ucfg) (spikeRam ucfg)) (rising : 0 < period)
    (ready : mem.Ready period) (serviceable : t.Serviceable) (nonempty : 0 < t.dataLength)
    (positive : t.PositiveDelays) :
    Mapped period me ucfg S bus mem t delay ↔ ¬ Overruns ucfg t := by
  by_cases device : (bootRom ucfg).Contains t.address.toNat 1 ∨
      (spikeRam ucfg).Contains t.address.toNat 1
  · refine ⟨fun _ overruns => not_window_of_device laid device overruns.1, fun _ => ?_⟩
    rcases bTransport_device laid serves serviceable device bus delay with
      ⟨read, hop⟩ | ⟨write, hop⟩
    · exact mapped_of_load laid serves nonempty read device hop
    · exact mapped_of_store laid serves nonempty write device hop
  · by_cases window : (extram ucfg).Contains t.address.toNat 1
    · exact mapped_of_window laid serves rising ready serviceable nonempty positive window
    · exact ⟨fun _ overruns => window overruns.1,
        fun _ => mapped_of_unknown laid serves nonempty device window⟩

/-- A bus with one byte per address that does what is relied on of Spike's. -/
def plainBus (rom ram : Region) : SpikeBus (Nat → Byte) where
  findDevice a n := decide (rom.Contains a.toNat n ∨ ram.Contains a.toNat n)
  load b a d :=
    if rom.Contains a.toNat d.bytes.length ∨ ram.Contains a.toNat d.bytes.length then
      (true, ⟨(List.range d.bytes.length).map fun i => b (a.toNat + i), by simpa using d.fits⟩)
    else (false, d)
  store b a d :=
    if ram.Contains a.toNat d.bytes.length then
      (true, CellMemory.writeBurst b (a.toNat + ·) d.get d.bytes.length)
    else (false, b)
  byte b x := b x

theorem plainBus_serves (rom ram : Region) : (plainBus rom ram).Serves rom ram := by
  constructor
  · intro a n
    exact decide_eq_true_iff
  · intro b a d inside
    simp only [plainBus, if_pos inside, true_and]
    intro i hi
    rw [DataBuffer.get_eq_getElem _ (by simpa using hi)]
    simp
  · intro b a d rom ram
    exact if_neg (not_or.mpr ⟨rom, ram⟩)
  · intro b a d inside
    simp only [plainBus, if_pos inside, true_and]
    constructor
    · intro i hi
      exact CellMemory.writeBurst_of_last _ _ _ hi fun j hij _ same => by omega
    · intro x out
      exact CellMemory.writeBurst_of_ne _ _ _ fun i hi same => by omega
  · intro b a d outside
    exact if_neg outside

/-- The addresses of the example platforms. -/
def exampleUcfg : Ucfg := ⟨0x00001000, 0x80000000, 0x81000000, 0x81FFFFFF⟩

/-- The same with a window of one page. -/
def onePage : Ucfg := { exampleUcfg with extramEndAddress := 0x81000FFF }

/-- Wherever the window ends, only its size is in question. -/
theorem laid_of_window {last : BitVec 64}
    (window : (extram { exampleUcfg with extramEndAddress := last }).Paged 4096) :
    Laid { exampleUcfg with extramEndAddress := last } := by
  have rom : (bootRom exampleUcfg).Paged 4096 := ⟨by decide, by decide⟩
  have ram : (spikeRam exampleUcfg).Paged 4096 := ⟨by decide, by decide⟩
  refine ⟨rom, ram, window, ?_, ?_, ?_⟩
  all_goals
    intro a inside outside
    simp [Region.Contains, bootRom, spikeRam, extram, exampleUcfg, resetVecSize] at inside outside
    omega

theorem exampleUcfg_laid : Laid exampleUcfg :=
  laid_of_window (show (extram exampleUcfg).Paged 4096 from ⟨by decide, by decide⟩)

theorem onePage_laid : Laid onePage := laid_of_window ⟨by decide, by decide⟩

/-- Two bytes from the last address of the one-page window on. -/
def pageEnd : Payload := ⟨.read, 0x81000FFF, ⟨[0, 0], DataBuffer.two_fits⟩, .incomplete, none⟩

theorem pageEnd_positive : pageEnd.PositiveDelays := by
  intro mem none
  cases none

theorem powerOn_ready :
    (ExtMem.memrtl (Platform.powerOn Bench.staleBlock 25) : ExtMem Unit).Ready 10 :=
  Platform.powerOn_idle _ (Or.inl (by decide))

theorem mapped_iff_pageEnd : Mapped 10 () exampleUcfg
    (plainBus (bootRom exampleUcfg) (spikeRam exampleUcfg)) (fun _ => 0)
    (.memrtl (Platform.powerOn Bench.staleBlock 25)) pageEnd 0 := by
  refine (mapped_iff () (fun _ => 0) _ 0 exampleUcfg_laid (plainBus_serves _ _) (by decide)
    powerOn_ready (Or.inl rfl) (by decide) pageEnd_positive).mpr ?_
  rintro ⟨_, ⟨_, leaves⟩ | wraps⟩
  · exact leaves (by decide)
  · exact absurd wraps.1 (by decide)

theorem not_mapped_pageEnd {mem : ExtMem Unit} (ready : mem.Ready 10) : ¬ Mapped 10 () onePage
    (plainBus (bootRom onePage) (spikeRam onePage)) (fun _ => 0) mem pageEnd 0 := by
  intro mapped
  have window : (extram onePage).Contains pageEnd.address.toNat 1 := by decide
  refine (mapped_of_window onePage_laid (plainBus_serves _ _) (by decide) ready (Or.inl rfl)
    (by decide) pageEnd_positive window).mp mapped ⟨window, Or.inl ⟨?_, by decide⟩⟩
  unfold Payload.InRange
  decide

theorem not_mapped_onePage :
    ¬ Mapped 10 () onePage (plainBus (bootRom onePage) (spikeRam onePage)) (fun _ => 0)
        (.memmodel .empty) pageEnd 0 ∧
      ¬ Mapped 10 () onePage (plainBus (bootRom onePage) (spikeRam onePage)) (fun _ => 0)
        (.memrtl (Platform.powerOn Bench.staleBlock 25)) pageEnd 0 :=
  ⟨not_mapped_pageEnd trivial, not_mapped_pageEnd powerOn_ready⟩

end Uncore
