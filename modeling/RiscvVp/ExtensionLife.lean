import RiscvVp.PairedHistory

/-!
# The life of the delay extension

All driver calls reuse one payload. `drivertl` hangs its delays at the payload
before the call and has a clean-up after it, but the clean-up looks at an outer
`ext` that was never set. The extension of a delayed call therefore stays until
the next delayed call replaces it.
-/

/-- A call of `drivertl`, in the form that its two wrappers pass on, or of `drivemodel`. -/
inductive DriverCall where
  | drivertl (dataVec : List Byte) (address : BitVec 64) (store usedelay : Bool)
      (reqDelay respDelay : Nat)
  | drivemodel (dataVec : List Byte) (address : BitVec 64) (store : Bool)

namespace DriverCall

/-- The delays that the call asks for. -/
def delays : DriverCall → Option RtlcontrolTlmExtension
  | .drivertl _ _ _ true reqDelay respDelay => some ⟨reqDelay, respDelay⟩
  | _ => none

def Positive (c : DriverCall) : Prop :=
  ∀ ext ∈ c.delays, 0 < ext.reqDelay ∧ 0 < ext.respDelay

/-- The extension at the payload from this call on, given the one it finds there. -/
def carried (c : DriverCall) (found : Option RtlcontrolTlmExtension) :
    Option RtlcontrolTlmExtension := c.delays.or found

/-- The extension at the payload after the calls: that of the latest delayed one. -/
def standing (found : Option RtlcontrolTlmExtension) (calls : List DriverCall) :
    Option RtlcontrolTlmExtension :=
  calls.foldl (fun found c => c.carried found) found

variable {found : Option RtlcontrolTlmExtension} {calls : List DriverCall} {c : DriverCall}

@[simp] theorem standing_append_singleton :
    standing found (calls ++ [c]) = c.carried (standing found calls) := by
  simp [standing]

theorem carried_of_delayed {ext : RtlcontrolTlmExtension} (delayed : c.delays = some ext) :
    c.carried found = some ext := by
  rw [carried, delayed]
  rfl

theorem standing_of_plain (plain : ∀ c ∈ calls, c.delays = none) :
    standing found calls = found := by
  induction calls using List.reverseRecOn with
  | nil => rfl
  | append_singleton calls c ih =>
    rw [standing_append_singleton, carried, plain c (by simp)]
    exact ih fun c hc => plain c (List.mem_append_left _ hc)

end DriverCall

/-- A call with the payload that reached its target and the one it left behind. -/
structure CallRecord where
  call : DriverCall
  sent : Payload
  left : Payload

/-- The claim on one call: nothing is left at the payload, a `drivertl` without
delays reaches its target with nothing, one with delays with exactly its own. -/
structure CallRecord.Clean (r : CallRecord) : Prop where
  cleared : r.left.extension = none
  plain : ∀ dataVec address store reqDelay respDelay,
    r.call = .drivertl dataVec address store false reqDelay respDelay → r.sent.extension = none
  delayed : ∀ dataVec address store reqDelay respDelay,
    r.call = .drivertl dataVec address store true reqDelay respDelay →
      r.sent.extension = some ⟨reqDelay, respDelay⟩

namespace Tb

variable {σ : Type} {tb : Tb} {dataVec : List Byte} {address : BitVec 64} {store : Bool}

/-- The target with the payload it was called with noted beside its world. -/
def reached (call : Call σ) : Call (σ × Payload) := fun sent delay =>
  (call sent delay).map fun (trans, delay', s) => (trans, delay', s, sent)

/-- Both wrappers, and the form they pass on, call the target with one payload. -/
theorem drivertl_eq_bind {usedelay : Bool} {reqDelay respDelay : Nat}
    (positive : (DriverCall.drivertl dataVec address store usedelay reqDelay respDelay).Positive)
    (call : Call σ) :
    tb.drivertl call dataVec address store usedelay reqDelay respDelay =
      call (request ((DriverCall.drivertl dataVec address store usedelay reqDelay
        respDelay).carried tb.trans.extension) dataVec address store) 0 >>= tb.settled dataVec := by
  cases usedelay with
  | false => rfl
  | true =>
    have given : ∀ d ∈ some (reqDelay, respDelay), 0 < d.1 ∧ 0 < d.2 := by
      rintro d hd
      cases hd
      exact positive _ rfl
    exact drivertlOverload_eq_bind given

/-- What a driver returns with: the answer of its target, to the payload that it sent. -/
theorem reached_bind_eq {t sent : Payload} {call : Call σ} {done : Bool} {vec : List Byte}
    {tb' : Tb} {s : σ}
    (returned : (reached call t 0 >>= tb.settled dataVec) = .ok (done, vec, tb', s, sent)) :
    ∃ trans delay, call t 0 = .ok (trans, delay, s) ∧ sent = t ∧ tb' = tb.finished trans delay := by
  rw [reached] at returned
  cases called : call t 0 with
  | error r =>
    rw [called] at returned
    cases returned
  | ok answer =>
    obtain ⟨trans, delay, s'⟩ := answer
    rw [called] at returned
    change tb.settled dataVec (trans, delay, s', t) = _ at returned
    cases status : trans.responseStatus with
    | ok =>
      rw [settled_eq (Or.inl status)] at returned
      cases returned
      exact ⟨trans, delay, rfl, rfl, rfl⟩
    | genericError =>
      rw [settled_eq (Or.inr status)] at returned
      cases returned
      exact ⟨trans, delay, rfl, rfl, rfl⟩
    | incomplete | addressError | commandError | burstError | byteEnableError =>
      simp only [settled, responded, status] at returned
      cases returned

theorem reached_bind_ok {t trans : Payload} {call : Call σ} {delay : Nat} {s : σ}
    (answer : call t 0 = .ok (trans, delay, s)) (expected : Expected trans) :
    (reached call t 0 >>= tb.settled dataVec) =
      .ok (trans.responseStatus == .ok, writtenBack trans dataVec, tb.finished trans delay, s,
        t) := by
  rw [reached, answer]
  exact settled_eq expected

end Tb

section Targets
variable {ι : Type} [DecidableEq ι] {period : Nat} {me : ι} {k₀ k : Platform ι}
  {t trans : Payload} {delay delay' : Nat}

/-- The RTL memory answers with an expected status and the extension it was given. -/
theorem Kernel.Returns.reply (idle : k₀.Idle period) (serviceable : t.Serviceable)
    (returns : Kernel.Returns period me k₀ t delay trans delay' k) :
    Tb.Expected trans ∧ trans.extension = t.extension ∧ k.Idle period := by
  obtain ⟨run, ret⟩ := returns
  cases outside : t.beyond Payload.rtlMaxRamAddress with
  | true =>
    obtain ⟨act, _, idle'⟩ := Kernel.refused_run idle outside run
    rw [act]
    exact ⟨Or.inr rfl, rfl, idle'⟩
  | false =>
    obtain ⟨served, idle'⟩ := Kernel.returned_serve idle serviceable outside run ret
    have same := congrArg Prod.fst served
    simp only at same
    rw [same]
    exact ⟨Or.inl (Payload.serve_status _ _), (Payload.serve_frame _ _).2.2.1, idle'⟩

/-- So does the reference memory. -/
theorem Memmodel.bTransport_reply (s : Memmodel) (delay : Nat) (serviceable : t.Serviceable) :
    ∃ trans s', s.bTransport t delay = .ok (trans, delay, s') ∧ Tb.Expected trans ∧
      trans.extension = t.extension := by
  cases outside : t.beyond Memmodel.modelMaxRamAddress with
  | true => exact ⟨_, _, Memmodel.bTransport_refused outside, Or.inr rfl, rfl⟩
  | false =>
    rcases serviceable with read | write
    · exact ⟨_, _, Memmodel.bTransport_read outside read, Or.inl rfl, rfl⟩
    · exact ⟨_, _, Memmodel.bTransport_write outside write, Or.inl rfl, rfl⟩

end Targets

namespace PairedState

variable {ι : Type} [DecidableEq ι]

/-- One driver call on the module and the memories behind its sockets, whatever
of its possible answers the RTL memory gives. -/
inductive Drives (period : Nat) (me : ι) :
    PairedState ι → CallRecord → PairedState ι → Prop
  | drivertl {st : PairedState ι} {dataVec vec : List Byte} {address : BitVec 64}
      {store usedelay done : Bool} {reqDelay respDelay : Nat} {tb : Tb} {k : Platform ι}
      {sent : Payload} (call : Call (Platform ι))
      (allowed : ∀ t delay trans delay' k', call t delay = .ok (trans, delay', k') →
        Kernel.Returns period me st.platform t delay trans delay' k')
      (rtl : st.tb.drivertl (Tb.reached call) dataVec address store usedelay reqDelay respDelay =
        .ok (done, vec, tb, k, sent)) :
      Drives period me st
        ⟨.drivertl dataVec address store usedelay reqDelay respDelay, sent, tb.trans⟩
        ⟨tb, k, st.model⟩
  | drivemodel {st : PairedState ι} {dataVec vec : List Byte} {address : BitVec 64}
      {store done : Bool} {tb : Tb} {s : Memmodel} {sent : Payload}
      (model : st.tb.drivemodel (Tb.reached st.model.bTransport) dataVec address store =
        .ok (done, vec, tb, s, sent)) :
      Drives period me st ⟨.drivemodel dataVec address store, sent, tb.trans⟩
        ⟨tb, st.platform, s⟩

/-- One driver call after the other. -/
inductive Driven (period : Nat) (me : ι) (st₀ : PairedState ι) :
    List CallRecord → PairedState ι → Prop
  | nil : Driven period me st₀ [] st₀
  | snoc {hist : List CallRecord} {st st' : PairedState ι} {r : CallRecord}
      (run : Driven period me st₀ hist st) (step : Drives period me st r st') :
      Driven period me st₀ (hist ++ [r]) st'

variable {period : Nat} {me : ι} {st₀ st st' : PairedState ι} {r : CallRecord}
  {hist pre post : List CallRecord}

/-- What a call does to the extension: it goes out with its own or the one found,
and comes back with the same. -/
structure Carries (st : PairedState ι) (r : CallRecord) (st' : PairedState ι) : Prop where
  sent : r.sent.extension = r.call.carried st.tb.trans.extension
  left : r.left.extension = r.sent.extension
  kept : st'.tb.trans = r.left

omit [DecidableEq ι] in
theorem Ready.carried_positive (ready : st.Ready period) {c : DriverCall} (positive : c.Positive) :
    ∀ ext, c.carried st.tb.trans.extension = some ext → 0 < ext.reqDelay ∧ 0 < ext.respDelay := by
  intro ext found
  rw [DriverCall.carried, Option.or_eq_some_iff] at found
  rcases found with own | ⟨_, earlier⟩
  · exact positive ext own
  · exact ready.positive ext earlier

theorem Drives.carries (ready : st.Ready period) (positive : r.call.Positive)
    (step : Drives period me st r st') : Carries st r st' ∧ st'.Ready period := by
  have sound := ready.carried_positive positive
  cases step with
  | @drivertl dataVec _ address store usedelay _ reqDelay respDelay _ _ _ call allowed rtl =>
    rw [Tb.drivertl_eq_bind positive] at rtl
    obtain ⟨trans, delay, answer, rfl, rfl⟩ := Tb.reached_bind_eq rtl
    obtain ⟨_, same, idle⟩ :=
      (allowed _ _ _ _ _ answer).reply ready.idle (Tb.request_serviceable _ _ _ _)
    refine ⟨⟨rfl, same, rfl⟩, idle, ?_⟩
    intro ext found
    exact sound ext (same.symm.trans found)
  | @drivemodel dataVec _ address store _ _ _ _ model =>
    rw [Tb.drivemodel_eq_bind] at model
    obtain ⟨trans, delay, answer, rfl, rfl⟩ := Tb.reached_bind_eq model
    obtain ⟨_, _, answer', _, same⟩ := Memmodel.bTransport_reply
      (t := Tb.request st.tb.trans.extension dataVec address store) st.model 0
      (Tb.request_serviceable _ _ _ _)
    rw [answer] at answer'
    cases answer'
    refine ⟨⟨rfl, same, rfl⟩, ready.idle, ?_⟩
    intro ext found
    exact sound ext (same.symm.trans found)

theorem exists_drives (me : ι) (rising : 0 < period) (ready : st.Ready period) {c : DriverCall}
    (positive : c.Positive) : ∃ r st', r.call = c ∧ Drives period me st r st' := by
  have sound := ready.carried_positive positive
  cases c with
  | drivertl dataVec address store usedelay reqDelay respDelay =>
    let t := Tb.request ((DriverCall.drivertl dataVec address store usedelay reqDelay
      respDelay).carried st.tb.trans.extension) dataVec address store
    have serviceable : t.Serviceable := Tb.request_serviceable _ _ _ _
    obtain ⟨trans, delay, k, returns⟩ :=
      Kernel.exists_returns me 0 rising ready.idle serviceable sound
    let call : Call (Platform ι) := fun t' delay' =>
      if t' = t ∧ delay' = 0 then .ok (trans, delay, k) else .error ⟨"", ""⟩
    refine ⟨_, _, rfl, .drivertl call ?_ ((Tb.drivertl_eq_bind positive _).trans
      (Tb.reached_bind_ok (if_pos ⟨rfl, rfl⟩) (returns.reply ready.idle serviceable).1))⟩
    intro t' delay' trans' delay'' k' answered
    by_cases here : t' = t ∧ delay' = 0
    · rw [show call t' delay' = _ from if_pos here] at answered
      cases answered
      rw [here.1, here.2]
      exact returns
    · rw [show call t' delay' = _ from if_neg here] at answered
      cases answered
  | drivemodel dataVec address store =>
    obtain ⟨trans, s', answer, expected, _⟩ := Memmodel.bTransport_reply
      (t := Tb.request st.tb.trans.extension dataVec address store) st.model 0
      (Tb.request_serviceable _ _ _ _)
    exact ⟨_, _, rfl, .drivemodel (Tb.drivemodel_eq_bind.trans
      (Tb.reached_bind_ok answer expected))⟩

/-- After any order of calls the module is ready for more, with the extension of the
latest delayed call at its payload. -/
theorem Driven.standing (ready : st₀.Ready period) (run : Driven period me st₀ hist st)
    (positive : ∀ r ∈ hist, r.call.Positive) : st.Ready period ∧
      st.tb.trans.extension =
        DriverCall.standing st₀.tb.trans.extension (hist.map CallRecord.call) := by
  induction run with
  | nil => exact ⟨ready, rfl⟩
  | @snoc hist st st' r run step ih =>
    obtain ⟨before, standing⟩ := ih fun r hr => positive r (List.mem_append_left _ hr)
    obtain ⟨carries, after⟩ := step.carries before (positive r (by simp))
    refine ⟨after, ?_⟩
    rw [List.map_append, List.map_singleton, DriverCall.standing_append_singleton, ← standing,
      ← carries.sent, ← carries.left, carries.kept]

theorem exists_driven (me : ι) (rising : 0 < period) (ready : st₀.Ready period)
    (calls : List DriverCall) (positive : ∀ c ∈ calls, c.Positive) :
    ∃ hist st, Driven period me st₀ hist st ∧ hist.map CallRecord.call = calls := by
  induction calls using List.reverseRecOn with
  | nil => exact ⟨[], st₀, .nil, rfl⟩
  | append_singleton calls c ih =>
    obtain ⟨hist, st, run, rfl⟩ := ih fun c hc => positive c (List.mem_append_left _ hc)
    have before := (run.standing ready fun r hr =>
      positive _ (List.mem_append_left _ (List.mem_map_of_mem hr))).1
    obtain ⟨r, st', rfl, step⟩ := exists_drives me rising before (positive c (by simp))
    exact ⟨hist ++ [r], st', run.snoc step, by simp⟩

theorem Driven.split (run : Driven period me st₀ hist st) (split : hist = pre ++ r :: post) :
    ∃ st₁ st₂, Driven period me st₀ pre st₁ ∧ Drives period me st₁ r st₂ := by
  induction run generalizing post with
  | nil => exact absurd (congrArg List.length split) (by simp)
  | @snoc hist st₁ st₂ r' run step ih =>
    obtain ⟨rfl, rfl⟩ | ⟨_, earlier⟩ := snoc_eq_append_cons split
    · exact ⟨st₁, st₂, run, step⟩
    · exact ih earlier

/-- Each call goes out with the extension of the latest delayed call up to itself,
and leaves it at the payload. -/
theorem Driven.sent_extension (ready : st₀.Ready period) (run : Driven period me st₀ hist st)
    (positive : ∀ r ∈ hist, r.call.Positive) (split : hist = pre ++ r :: post) :
    r.sent.extension = r.call.carried
        (DriverCall.standing st₀.tb.trans.extension (pre.map CallRecord.call)) ∧
      r.left.extension = r.sent.extension := by
  obtain ⟨st₁, st₂, before, step⟩ := run.split split
  subst split
  obtain ⟨ready₁, standing⟩ := before.standing ready fun r hr =>
    positive r (List.mem_append_left _ hr)
  obtain ⟨carries, _⟩ := step.carries ready₁ (positive r (by simp))
  exact ⟨standing ▸ carries.sent, carries.left⟩

/-- The calls of a sequence are all clean exactly if none of them uses delays.
Its delayed calls go out with their own delays in any case. -/
theorem driven_clean_iff (me : ι) (rising : 0 < period) (ready : st₀.Ready period)
    (fresh : st₀.tb.trans.extension = none) (calls : List DriverCall)
    (positive : ∀ c ∈ calls, c.Positive) :
    (∃ hist st, Driven period me st₀ hist st ∧ hist.map CallRecord.call = calls) ∧
      ∀ hist st, Driven period me st₀ hist st → hist.map CallRecord.call = calls →
        ((∀ r ∈ hist, r.Clean) ↔ ∀ c ∈ calls, c.delays = none) ∧
          ∀ r ∈ hist, ∀ ext, r.call.delays = some ext → r.sent.extension = some ext := by
  refine ⟨exists_driven me rising ready calls positive, ?_⟩
  rintro hist st run rfl
  have carried {r : CallRecord} (hr : r ∈ hist) : ∃ pre post, hist = pre ++ r :: post ∧
      r.sent.extension = r.call.carried
        (DriverCall.standing st₀.tb.trans.extension (pre.map CallRecord.call)) ∧
      r.left.extension = r.sent.extension := by
    obtain ⟨pre, post, split⟩ := List.append_of_mem hr
    exact ⟨pre, post, split, run.sent_extension ready
      (fun r hr => positive _ (List.mem_map_of_mem hr)) split⟩
  refine ⟨⟨fun clean c hc => ?_, fun plain r hr => ?_⟩, fun r hr ext delayed => ?_⟩
  · obtain ⟨r, hr, rfl⟩ := List.mem_map.mp hc
    obtain ⟨_, _, _, sent, left⟩ := carried hr
    -- what the call carries is still there when it returns
    have cleared := left.symm.trans (clean r hr).cleared
    rw [sent, DriverCall.carried, Option.or_eq_none_iff] at cleared
    exact cleared.1
  · obtain ⟨pre, post, rfl, sent, left⟩ := carried hr
    have own : r.call.delays = none := plain _ (List.mem_map_of_mem hr)
    have earlier : ∀ c ∈ pre.map CallRecord.call, c.delays = none := by
      rw [List.map_append] at plain
      exact fun c hc => plain c (List.mem_append_left _ hc)
    have nothing : r.sent.extension = none := by
      rw [sent, DriverCall.standing_of_plain earlier, fresh, DriverCall.carried, own]
      rfl
    refine ⟨left.trans nothing, fun _ _ _ _ _ _ => nothing, ?_⟩
    intro dataVec address store reqDelay respDelay delayed
    rw [delayed] at own
    cases own
  · obtain ⟨_, _, _, sent, _⟩ := carried hr
    rw [sent, DriverCall.carried_of_delayed delayed]

/-- A store and a load of two bytes, without delays. -/
def plainCalls : List DriverCall :=
  [.drivertl [7, 9] 5 true false 0 0, .drivemodel [7, 9] 5 true, .drivertl [0, 0] 5 false false 0 0]

theorem plainCalls_positive : ∀ c ∈ plainCalls, c.Positive := by
  intro c hc ext found
  simp only [plainCalls, List.mem_cons, List.not_mem_nil, or_false] at hc
  rcases hc with rfl | rfl | rfl <;> cases found

theorem driven_clean_iff_plainCalls : ∃ hist st, Driven 10 () start hist st ∧
    hist.map CallRecord.call = plainCalls ∧ ∀ r ∈ hist, r.Clean := by
  obtain ⟨⟨hist, st, run, calls⟩, clean⟩ :=
    driven_clean_iff () (by decide) start_ready rfl plainCalls plainCalls_positive
  refine ⟨hist, st, run, calls, (clean hist st run calls).1.mpr ?_⟩
  intro c hc
  simp only [plainCalls, List.mem_cons, List.not_mem_nil, or_false] at hc
  rcases hc with rfl | rfl | rfl <;> rfl

/-- A load with delays of one nanosecond, and the same load without delays. -/
def pacedThenPlain : List DriverCall :=
  [.drivertl [0] 0 false true (scNs 1) (scNs 1), .drivertl [0] 0 false false 0 0]

/-- The second load reaches the RTL memory with the extension of the first. -/
theorem not_clean_pacedThenPlain : ∃ hist st, Driven 10 () start hist st ∧
    hist.map CallRecord.call = pacedThenPlain ∧ (¬ ∀ r ∈ hist, r.Clean) ∧
    ∃ r ∈ hist, r.call = .drivertl [0] 0 false false 0 0 ∧
      r.sent.extension = some ⟨scNs 1, scNs 1⟩ := by
  have positive : ∀ c ∈ pacedThenPlain, c.Positive := by
    intro c hc ext found
    simp only [pacedThenPlain, List.mem_cons, List.not_mem_nil, or_false] at hc
    rcases hc with rfl | rfl <;> cases found
    decide
  obtain ⟨hist, st, run, calls⟩ := exists_driven () (by decide) start_ready _ positive
  obtain ⟨first, rest, rfl, delayed, calls'⟩ := List.map_eq_cons_iff.mp calls
  obtain ⟨second, rest, rfl, plain, ended⟩ := List.map_eq_cons_iff.mp calls'
  obtain rfl := List.map_eq_nil_iff.mp ended
  have sound : ∀ r ∈ [first, second], r.call.Positive := fun r hr =>
    positive _ (calls ▸ List.mem_map_of_mem hr)
  have sent : second.sent.extension = some ⟨scNs 1, scNs 1⟩ := by
    have standing := (run.sent_extension start_ready sound
      (show [first, second] = [first] ++ second :: [] from rfl)).1
    rw [standing, List.map_singleton, plain, delayed]
    rfl
  refine ⟨_, st, run, calls, fun clean => ?_, second, by simp, plain, sent⟩
  have expected := (clean second (by simp)).plain _ _ _ _ _ plain
  rw [sent] at expected
  cases expected

end PairedState
