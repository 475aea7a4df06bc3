import RiscvVp.Termination

/-!
# What a call returns

Both burst loops carry out one memory operation on consecutive bytes. Neither
the extension nor its delays, the clock or the time of the call show in it.
-/

namespace Payload

/-- Delays belong to the schedule of a burst and not to its result. -/
theorem serve_extension (t : Payload) (ext : Option RtlcontrolTlmExtension) (m : Ram) :
    (({ t with extension := ext } : Payload).serve m).1.data = (t.serve m).1.data ∧
      (({ t with extension := ext } : Payload).serve m).1.responseStatus =
        (t.serve m).1.responseStatus ∧
      (({ t with extension := ext } : Payload).serve m).2 = (t.serve m).2 := by
  refine ⟨DataBuffer.ext ?_, ?_, rfl⟩
  · rw [serve_bytes, serve_bytes]
    rfl
  · rw [serve_status, serve_status]

theorem InRange.beatAddr {t : Payload} (range : t.InRange) {i : Nat} (hi : i < t.dataLength) :
    t.beatAddr i = BitVec.ofNat 16 (t.address.toNat + i) := by
  apply BitVec.eq_of_toNat_eq
  have room : t.address.toNat + i < 2 ^ 16 := by
    simp only [InRange] at range
    omega
  rw [range.beatAddr_toNat hi, BitVec.toNat_ofNat, Nat.mod_eq_of_lt room]

end Payload

namespace Kernel

variable {ι : Type} [DecidableEq ι] {period : Nat} {me : ι} {t : Payload} {k₀ : Platform ι}
  {delay : Nat}

/-- One memory operation from one RAM to another: what the caller gets back and what is stored. -/
structure Performs (t : Payload) (m : Ram) (trans : Payload) (m' : Ram) : Prop where
  status : trans.responseStatus = .ok
  loaded : t.command = .read → (∀ i, i < t.dataLength →
    trans.data.get i = m (BitVec.ofNat 16 (t.address.toNat + i))) ∧ m' = m
  stored : t.command = .write → (∀ i, i < t.dataLength →
      m' (BitVec.ofNat 16 (t.address.toNat + i)) = t.data.get i) ∧
    (∀ x : BitVec 16, x.toNat < t.address.toNat ∨ t.address.toNat + t.dataLength ≤ x.toNat →
      m' x = m x) ∧ trans.data = t.data

theorem serve_performs (range : t.InRange) (m : Ram) :
    Performs t m ((t.setResponseStatus .ok).serve m).1 ((t.setResponseStatus .ok).serve m).2 := by
  have range' : (t.setResponseStatus .ok).InRange := range
  refine ⟨Payload.serve_status _ m, fun read => ?_, fun write => ?_⟩
  · obtain ⟨still, loaded⟩ := (t.setResponseStatus .ok).serve_read read m
    refine ⟨fun i hi => ?_, still⟩
    rw [loaded i hi, range'.beatAddr hi]
    rfl
  · obtain ⟨stored, elsewhere⟩ := range'.serve_write write m
    refine ⟨fun i hi => ?_, elsewhere, ((t.setResponseStatus .ok).serve_write write m).1⟩
    have beat := range'.beatAddr hi
    rw [show t.address.toNat = (t.setResponseStatus .ok).address.toNat from rfl, ← beat]
    exact stored i hi

/-- Whichever loop serves it and whatever the delays, the clock and the reset
time, a call in range returns, and returns with its memory operation done. Two
calls that differ only in their extension cannot be told apart by their results. -/
theorem bTransport_performs (me : ι) (delay : Nat) (rising : 0 < period) (idle : k₀.Idle period)
    (serviceable : t.Serviceable) (nonempty : 0 < t.dataLength) (range : t.InRange)
    (positive : t.PositiveDelays) :
    (∃ tr k, (machine period me).Run (k₀.call t delay) tr k ∧ k.act.pc = .returned) ∧
    ∀ tr k, (machine period me).Run (k₀.call t delay) tr k → k.act.pc = .returned →
      Performs t k₀.pipe.ram k.act.trans k.pipe.ram ∧ k.Idle period ∧
      ∀ (ext : Option RtlcontrolTlmExtension) (period' : Nat) (k₀' : Platform ι) (delay' : Nat)
        tr' k', k₀'.Idle period' → k₀'.pipe.ram = k₀.pipe.ram →
        (machine period' me).Run (k₀'.call { t with extension := ext } delay') tr' k' →
        k'.act.pc = .returned → k'.act.trans.data = k.act.trans.data ∧
          k'.act.trans.responseStatus = k.act.trans.responseStatus ∧ k'.pipe.ram = k.pipe.ram := by
  have accepted : t.beyond Payload.rtlMaxRamAddress = false := range.beyond_eq_false nonempty
  refine ⟨((call_running delay me idle serviceable accepted).returns rising positive).2, ?_⟩
  intro tr k run ret
  obtain ⟨served, idle'⟩ := returned_serve idle serviceable accepted run ret
  obtain ⟨htrans, hram⟩ := Prod.mk.inj served
  refine ⟨?_, idle', ?_⟩
  · rw [htrans, hram]
    exact serve_performs range _
  · intro ext period' k₀' delay' tr' k' idle₂ same run' ret'
    have again := (returned_serve (t := { t with extension := ext }) idle₂ serviceable accepted
      run' ret').1
    obtain ⟨htrans', hram'⟩ := Prod.mk.inj again
    rw [htrans, hram, htrans', hram', same]
    exact (t.setResponseStatus .ok).serve_extension ext k₀.pipe.ram

/-- A call of `b_transport` by thread `me` comes back. The clock may go on after
that, up to the next call. -/
inductive Returns (period : Nat) (me : ι) (k₀ : Platform ι) (trans : Payload) (delay : Nat) :
    Payload → Nat → Platform ι → Prop
  | mk {tr : List Event} {k : Kernel ι}
      (run : (machine period me).Run (k₀.call trans delay) tr k) (ret : k.act.pc = .returned) :
      Returns period me k₀ trans delay k.act.trans k.act.delay k.toPlatform

/-- Accepted or refused, a call comes back. -/
theorem exists_returns (me : ι) (delay : Nat) (rising : 0 < period) (idle : k₀.Idle period)
    (serviceable : t.Serviceable) (positive : t.PositiveDelays) :
    ∃ trans delay' k, Returns period me k₀ t delay trans delay' k := by
  cases outside : t.beyond Payload.rtlMaxRamAddress with
  | true =>
    have ended : (k₀.call t delay).act.pc = .returned :=
      congrArg Activation.pc (bTransport_refused delay outside)
    exact ⟨_, _, _, .mk .refl ended⟩
  | false =>
    obtain ⟨tr, k, run, ret⟩ :=
      ((call_running delay me idle serviceable outside).returns rising positive).2
    exact ⟨_, _, _, .mk run ret⟩

/-- A store of two bytes at addresses 5 and 6. -/
def pacedStore : Payload := ⟨.write, 5, ⟨[7, 9], DataBuffer.two_fits⟩, .incomplete, some ⟨1, 100⟩⟩

theorem bTransport_performs_pacedStore : ∃ tr k,
    (machine 10 ()).Run ((Platform.powerOn Bench.staleBlock 25).call pacedStore 0) tr k ∧
      k.act.pc = .returned ∧ k.act.trans.responseStatus = .ok ∧
      k.pipe.ram 4 = 5 ∧ k.pipe.ram 5 = 7 ∧ k.pipe.ram 6 = 9 := by
  have idle : (Platform.powerOn Bench.staleBlock 25 : Platform Unit).Idle 10 :=
    Platform.powerOn_idle _ (Or.inl (by decide))
  have result := bTransport_performs (t := pacedStore) () 0 (by decide) idle (Or.inr rfl)
    (by decide) (by unfold Payload.InRange; decide) (fun ext h => by cases h; decide)
  obtain ⟨tr, k, run, ret⟩ := result.1
  have performs := (result.2 tr k run ret).1
  obtain ⟨stored, elsewhere, _⟩ := performs.stored rfl
  exact ⟨tr, k, run, ret, performs.status, elsewhere 4 (Or.inl (by decide)),
    stored 0 (by decide), stored 1 (by decide)⟩

end Kernel
