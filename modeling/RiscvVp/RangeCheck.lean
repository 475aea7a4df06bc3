import RiscvVp.CallResult
import RiscvVp.MemModel

/-!
# The range check of both memories

Both targets compute the address of the last byte in 64 bits. The sum wraps for
ranges that pass 2^64, and those that come out low again are accepted.
-/

namespace Payload

/-- No byte address was cut when the beats of the burst were packed. -/
def Untruncated (t : Payload) : Prop :=
  ∀ i, i < t.dataLength → (t.beatAddr i).toNat = t.address.toNat + i

end Payload

/-- The RTL memory accepts exactly the calls in range, hands the others back at
once with nothing but the status changed, and truncates no accepted address. -/
def Kernel.ChecksRange {ι : Type} [DecidableEq ι] (period : Nat) (me : ι) (k₀ : Platform ι)
    (t : Payload) (delay : Nat) : Prop :=
  (∃ tr k, (machine period me).Run (k₀.call t delay) tr k ∧ k.act.pc = .returned) ∧
  (∀ tr k, (machine period me).Run (k₀.call t delay) tr k → k.act.pc = .returned →
    (k.act.trans.responseStatus = .ok ↔ t.InRange) ∧
    (k.act.trans.responseStatus = .ok → t.Untruncated)) ∧
  (¬ t.InRange → k₀.call t delay =
    { k₀ with act := ⟨t.setResponseStatus .genericError, delay, .returned⟩ })

/-- The same of the reference memory. -/
def Memmodel.ChecksRange (s : Memmodel) (t : Payload) (delay : Nat) : Prop :=
  (∃ trans s', s.bTransport t delay = .ok (trans, delay, s') ∧
    (trans.responseStatus = .ok ↔ t.InRange) ∧
    (trans.responseStatus = .ok → t.Untruncated)) ∧
  (¬ t.InRange →
    s.bTransport t delay = .ok (t.setResponseStatus .genericError, delay, s))

section Exactness

variable {ι : Type} [DecidableEq ι] {period delay : Nat} {me : ι} {k₀ : Platform ι} {t : Payload}
  {s : Memmodel}

theorem Payload.accepted_iff (nonempty : 0 < t.dataLength) (straight : ¬ t.WrapsIntoRange) :
    t.beyond 65535 = false ↔ t.InRange := by
  rw [t.beyond_eq_false_iff nonempty]
  constructor
  · rintro (range | wraps)
    · exact range
    · exact absurd wraps straight
  · exact Or.inl

theorem Kernel.returned_status (idle : k₀.Idle period) (serviceable : t.Serviceable)
    (accepted : t.beyond Payload.rtlMaxRamAddress = false) {tr : List Event} {k : Kernel ι}
    (run : (machine period me).Run (k₀.call t delay) tr k) (ret : k.act.pc = .returned) :
    k.act.trans.responseStatus = .ok := by
  have served := (returned_serve idle serviceable accepted run ret).1
  rw [(Prod.mk.inj served).1]
  exact (t.setResponseStatus .ok).serve_status k₀.pipe.ram

theorem Payload.InRange.untruncated (range : t.InRange) : t.Untruncated :=
  fun _ => range.beatAddr_toNat

/-- A range that wraps is accepted, and its call ends with an OK status. -/
theorem Kernel.not_checksRange (idle : k₀.Idle period) (serviceable : t.Serviceable)
    (nonempty : 0 < t.dataLength) (wraps : t.WrapsIntoRange) :
    ¬ Kernel.ChecksRange period me k₀ t delay := by
  rintro ⟨⟨tr, k, run, ret⟩, answers, _⟩
  have accepted := (t.beyond_eq_false_iff nonempty).mpr (Or.inr wraps)
  have ok := returned_status idle serviceable accepted run ret
  exact ((answers tr k run ret).1.mp ok).not_wraps wraps

theorem Kernel.checksRange (rising : 0 < period) (idle : k₀.Idle period)
    (serviceable : t.Serviceable) (nonempty : 0 < t.dataLength) (positive : t.PositiveDelays)
    (straight : ¬ t.WrapsIntoRange) : Kernel.ChecksRange period me k₀ t delay := by
  have exact_check := Payload.accepted_iff nonempty straight
  by_cases range : t.InRange
  · have accepted : t.beyond Payload.rtlMaxRamAddress = false := exact_check.mpr range
    refine ⟨((call_running delay me idle serviceable accepted).returns rising positive).2, ?_,
      fun outside => absurd range outside⟩
    intro tr k run ret
    have ok := returned_status idle serviceable accepted run ret
    exact ⟨⟨fun _ => range, fun _ => ok⟩, fun _ => range.untruncated⟩
  · have refused : t.beyond Payload.rtlMaxRamAddress = true := by
      by_contra accepted
      exact range (exact_check.mp (Bool.not_eq_true _ ▸ accepted))
    have entry := bTransport_refused delay refused
    have ended : (k₀.call t delay).act.pc = .returned := congrArg Activation.pc entry
    refine ⟨⟨[], _, .refl, ended⟩, ?_, fun _ => by rw [Platform.call, entry]⟩
    intro tr k run _
    have status : k.act.trans.responseStatus = .genericError := by
      rw [(refused_run idle refused run).1]
      rfl
    rw [status]
    exact ⟨⟨by rintro ⟨⟩, fun inside => absurd inside range⟩, by rintro ⟨⟩⟩

theorem Memmodel.not_checksRange (serviceable : t.Serviceable) (nonempty : 0 < t.dataLength)
    (wraps : t.WrapsIntoRange) : ¬ s.ChecksRange t delay := by
  rintro ⟨⟨trans, s', answer, answers, _⟩, _⟩
  have accepted : t.beyond modelMaxRamAddress = false :=
    (t.beyond_eq_false_iff nonempty).mpr (Or.inr wraps)
  obtain ⟨trans', s'', answer', status⟩ := bTransport_status s delay serviceable
  rw [answer'] at answer
  cases answer
  rw [accepted] at status
  exact (answers.mp status).not_wraps wraps

theorem Memmodel.checksRange (serviceable : t.Serviceable) (nonempty : 0 < t.dataLength)
    (straight : ¬ t.WrapsIntoRange) : s.ChecksRange t delay := by
  have exact_check := Payload.accepted_iff nonempty straight
  obtain ⟨trans, s', answer, status⟩ := bTransport_status s delay serviceable
  cases outside : t.beyond modelMaxRamAddress with
  | true =>
    have range : ¬ t.InRange := fun inside => by
      have accepted : t.beyond modelMaxRamAddress = false := exact_check.mpr inside
      rw [outside] at accepted
      cases accepted
    rw [outside] at status
    refine ⟨⟨trans, s', answer, ?_, ?_⟩, fun _ => bTransport_refused outside⟩
    · rw [status]
      exact ⟨by rintro ⟨⟩, fun inside => absurd inside range⟩
    · rw [status]
      rintro ⟨⟩
  | false =>
    have range : t.InRange := exact_check.mp outside
    rw [outside] at status
    refine ⟨⟨trans, s', answer, ?_, fun _ => range.untruncated⟩, fun no => absurd range no⟩
    rw [status]
    exact ⟨fun _ => range, fun _ => rfl⟩

/-- Either memory checks the range exactly when the range does not wrap into it. -/
theorem checksRange_iff (me : ι) (delay : Nat) (s : Memmodel) (rising : 0 < period)
    (idle : k₀.Idle period) (serviceable : t.Serviceable) (nonempty : 0 < t.dataLength)
    (positive : t.PositiveDelays) :
    (Kernel.ChecksRange period me k₀ t delay ↔ ¬ t.WrapsIntoRange) ∧
      (s.ChecksRange t delay ↔ ¬ t.WrapsIntoRange) := by
  refine ⟨⟨?_, ?_⟩, ⟨?_, ?_⟩⟩
  · intro checks wraps
    exact Kernel.not_checksRange idle serviceable nonempty wraps checks
  · exact Kernel.checksRange rising idle serviceable nonempty positive
  · intro checks wraps
    exact Memmodel.not_checksRange serviceable nonempty wraps checks
  · exact Memmodel.checksRange serviceable nonempty

/-- Two bytes at the last address: the second one would lie at 2^64. -/
def topLoad : Payload := ⟨.read, -1, ⟨[0, 0], DataBuffer.two_fits⟩, .incomplete, none⟩

theorem topLoad_wraps : topLoad.WrapsIntoRange := by
  unfold Payload.WrapsIntoRange
  decide

theorem checksRange_iff_pacedStore :
    (Kernel.ChecksRange 10 () (Platform.powerOn Bench.staleBlock 25) Kernel.pacedStore 0 ↔
        ¬ Kernel.pacedStore.WrapsIntoRange) ∧
      (Memmodel.empty.ChecksRange Kernel.pacedStore 0 ↔ ¬ Kernel.pacedStore.WrapsIntoRange) :=
  checksRange_iff () 0 .empty (by decide) (Platform.powerOn_idle _ (Or.inl (by decide)))
    (Or.inr rfl) (by decide) (fun ext h => by cases h; decide)

theorem not_checksRange_topLoad :
    ¬ Kernel.ChecksRange 10 () (Platform.powerOn Bench.staleBlock 25) topLoad 0 ∧
      ¬ Memmodel.empty.ChecksRange topLoad 0 :=
  ⟨Kernel.not_checksRange (Platform.powerOn_idle _ (Or.inl (by decide))) (Or.inl rfl) (by decide)
      topLoad_wraps,
    Memmodel.not_checksRange (Or.inl rfl) (by decide) topLoad_wraps⟩

end Exactness
