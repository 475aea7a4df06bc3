import RiscvVp.MemModel
import RiscvVp.Testbench

/-!
# The verdict of the testbench

A world that keeps a transcript shows what the two targets were asked and what
they answered. The verdict follows the bytes of the loads and nothing else: the
return values of the drivers and `keep_sim` do not reach it.
-/

/-- A transaction as it went to its target and as it came back. -/
structure Exchange where
  request : Payload
  reply : Payload

structure Transcript where
  rtl : List Exchange
  model : List Exchange

namespace Transcript

def blank : Transcript := ⟨[], []⟩

def add (tr : Transcript) (rtl model : Exchange) : Transcript :=
  ⟨tr.rtl ++ [rtl], tr.model ++ [model]⟩

/-- Every transaction was answered with the OK status. -/
def AllOk (tr : Transcript) : Prop :=
  (∀ e ∈ tr.rtl, e.reply.responseStatus = .ok) ∧ ∀ e ∈ tr.model, e.reply.responseStatus = .ok

/-- Both targets returned the same bytes for every pair of loads. -/
def LoadsEqual (tr : Transcript) : Prop :=
  ∀ p ∈ tr.rtl.zip tr.model, p.1.request.command = .read → p.1.reply.data = p.2.reply.data

theorem blank_loadsEqual : blank.LoadsEqual := by
  intro p hp
  rw [blank, List.zip_nil_left] at hp
  exact absurd hp List.not_mem_nil

theorem loadsEqual_add {tr : Transcript} (paired : tr.rtl.length = tr.model.length)
    (rtl model : Exchange) : (tr.add rtl model).LoadsEqual ↔
      tr.LoadsEqual ∧ (rtl.request.command = .read → rtl.reply.data = model.reply.data) := by
  rw [LoadsEqual, LoadsEqual, add, List.zip_append paired]
  constructor
  · intro equal
    refine ⟨fun p hp => equal p (List.mem_append_left _ hp), ?_⟩
    exact equal (rtl, model) (List.mem_append_right _ List.mem_cons_self)
  · rintro ⟨earlier, last⟩ p hp
    rcases List.mem_append.mp hp with hp | hp
    · exact earlier p hp
    · obtain rfl := List.mem_singleton.mp hp
      exact last

end Transcript

/-- The reference memory is a target that the thread can be run against. -/
def Memmodel.target : Target Memmodel where
  bTransport := Memmodel.bTransport
  answers := by
    intro s t delay serviceable
    cases outside : t.beyond Memmodel.modelMaxRamAddress with
    | true => exact ⟨_, _, _, Memmodel.bTransport_refused outside, Or.inr rfl, rfl⟩
    | false =>
      rcases serviceable with read | write
      · refine ⟨_, _, _, Memmodel.bTransport_read outside read, Or.inl rfl, ?_⟩
        change (s.load t.data).bytes.length = t.data.bytes.length
        rw [Memmodel.load_bytes, List.length_map, List.length_range]
      · exact ⟨_, _, _, Memmodel.bTransport_write outside write, Or.inl rfl, rfl⟩

namespace World

variable {σ : Type}

/-- The same world, with what goes over the sockets written down. -/
def recorded (W : World σ) : World (σ × Transcript) where
  socket0 :=
    { bTransport := fun (s, tr) t delay =>
        (W.socket0.bTransport s t delay).map fun (reply, delay', s') =>
          (reply, delay', s', { tr with rtl := tr.rtl ++ [⟨t, reply⟩] })
      answers := by
        rintro ⟨s, tr⟩ t delay serviceable
        obtain ⟨trans, delay', s', answer, expected⟩ := W.socket0.answers s t delay serviceable
        exact ⟨trans, delay', _, congrArg (Except.map _) answer, expected⟩ }
  socket1 :=
    { bTransport := fun (s, tr) t delay =>
        (W.socket1.bTransport s t delay).map fun (reply, delay', s') =>
          (reply, delay', s', { tr with model := tr.model ++ [⟨t, reply⟩] })
      answers := by
        rintro ⟨s, tr⟩ t delay serviceable
        obtain ⟨trans, delay', s', answer, expected⟩ := W.socket1.answers s t delay serviceable
        exact ⟨trans, delay', _, congrArg (Except.map _) answer, expected⟩ }
  rand := fun (s, tr) => ((W.rand s).1, (W.rand s).2, tr)

/-- Two exchanges of a pair: answers of the two targets to requests of one length. -/
structure Answered (W : World σ) (rtl model : Exchange) : Prop where
  first : ∃ s delay delay' s',
    W.socket0.bTransport s rtl.request delay = .ok (rtl.reply, delay', s')
  second : ∃ s delay delay' s',
    W.socket1.bTransport s model.request delay = .ok (model.reply, delay', s')
  length : rtl.request.dataLength = model.request.dataLength

end World

namespace Transcript

variable {σ : Type} {W : World σ} {tr : Transcript} {rtl model : Exchange}

/-- The exchanges pair up, and the replies are the targets' own. -/
structure Genuine (W : World σ) (tr : Transcript) : Prop where
  paired : tr.rtl.length = tr.model.length
  answered : ∀ p ∈ tr.rtl.zip tr.model, W.Answered p.1 p.2

theorem blank_genuine : blank.Genuine W := by
  constructor
  · rfl
  · intro p hp
    rw [blank, List.zip_nil_left] at hp
    exact absurd hp List.not_mem_nil

theorem Genuine.add (genuine : tr.Genuine W) (answered : W.Answered rtl model) :
    (tr.add rtl model).Genuine W := by
  constructor
  · simp [Transcript.add, genuine.paired]
  · intro p hp
    rw [Transcript.add, List.zip_append genuine.paired] at hp
    rcases List.mem_append.mp hp with hp | hp
    · exact genuine.answered p hp
    · obtain rfl := List.mem_singleton.mp hp
      exact answered

end Transcript

namespace Tb

variable {σ : Type} (W : World σ)

theorem fillVecWithRandom_length (rand : σ → Nat × σ) (minVal maxVal : Byte)
    (dataVec : List Byte) (s : σ) :
    (fillVecWithRandom rand minVal maxVal dataVec s).1.length = dataVec.length := by
  induction dataVec generalizing s with
  | nil => rfl
  | cons x dataVec ih => exact congrArg (· + 1) (ih (rand s).2)

theorem fillVecWithRandom_recorded (minVal maxVal : Byte) (dataVec : List Byte) (s : σ)
    (tr : Transcript) : fillVecWithRandom W.recorded.rand minVal maxVal dataVec (s, tr) =
      ((fillVecWithRandom W.rand minVal maxVal dataVec s).1,
        (fillVecWithRandom W.rand minVal maxVal dataVec s).2, tr) := by
  induction dataVec generalizing s with
  | nil => rfl
  | cons x dataVec ih =>
    rw [fillVecWithRandom, fillVecWithRandom, show W.recorded.rand (s, tr) =
      ((W.rand s).1, (W.rand s).2, tr) from rfl, ih]

theorem resize_length (dataVec : List Byte) (size : Nat) :
    (resize dataVec size).length = size := by
  rw [resize, List.length_append, List.length_take, List.length_replicate]
  omega

/-- A bind goes on with what a successful first part returned. -/
theorem bind_of_ok {α β : Type} {x : Except Report α} {f : α → Except Report β} {a : α}
    (done : x = .ok a) : x >>= f = f a := by
  rw [done]
  rfl

section Exchanges
variable (tb : Tb) (s : σ) (tr : Transcript) (dataVec : List Byte) (address : BitVec 64)
  (store : Bool) {delays : Option (Nat × Nat)} (positive : ∀ d ∈ delays, 0 < d.1 ∧ 0 < d.2)

include positive in
/-- A `drivertl` is one exchange with the first target, recorded or not. -/
theorem drivertl_exchange : ∃ e : Exchange, ∃ delay s',
      e.request = request (tb.attached delays) dataVec address store ∧
      W.socket0.bTransport s e.request 0 = .ok (e.reply, delay, s') ∧
      tb.drivertlOverload (W.socket0.bTransport s) dataVec address store delays =
        .ok (e.reply.responseStatus == .ok, writtenBack e.reply dataVec,
          tb.finished e.reply delay, s') ∧
      tb.drivertlOverload (W.recorded.socket0.bTransport (s, tr)) dataVec address store delays =
        .ok (e.reply.responseStatus == .ok, writtenBack e.reply dataVec,
          tb.finished e.reply delay, s', { tr with rtl := tr.rtl ++ [e] }) := by
  obtain ⟨reply, delay, s', answer, expected, _⟩ := W.socket0.answers s
    (request (tb.attached delays) dataVec address store) 0 (request_serviceable _ _ _ _)
  refine ⟨⟨_, reply⟩, delay, s', rfl, answer, drivertlOverload_eq positive answer expected, ?_⟩
  refine drivertlOverload_eq positive ?_ expected
  change Except.map _ (W.socket0.bTransport s _ 0) = _
  rw [answer]
  rfl

theorem drivemodel_exchange : ∃ e : Exchange, ∃ delay s',
      e.request = request tb.trans.extension dataVec address store ∧
      W.socket1.bTransport s e.request 0 = .ok (e.reply, delay, s') ∧
      tb.drivemodel (W.socket1.bTransport s) dataVec address store =
        .ok (e.reply.responseStatus == .ok, writtenBack e.reply dataVec,
          tb.finished e.reply delay, s') ∧
      tb.drivemodel (W.recorded.socket1.bTransport (s, tr)) dataVec address store =
        .ok (e.reply.responseStatus == .ok, writtenBack e.reply dataVec,
          tb.finished e.reply delay, s', { tr with model := tr.model ++ [e] }) := by
  obtain ⟨reply, delay, s', answer, expected, _⟩ := W.socket1.answers s
    (request tb.trans.extension dataVec address store) 0 (request_serviceable _ _ _ _)
  refine ⟨⟨_, reply⟩, delay, s', rfl, answer, drivemodel_eq answer expected, ?_⟩
  refine drivemodel_eq ?_ expected
  change Except.map _ (W.socket1.bTransport s _ 0) = _
  rw [answer]
  rfl

include positive in
/-- A pair of calls is one exchange with each target. -/
theorem driveBoth_exchange (alike : tb.dataArray0.length = tb.dataArray1.length) :
    ∃ rtl model : Exchange, ∃ tb' s',
      (rtl.request.command = .read ↔ store = false) ∧ W.Answered rtl model ∧
      tb'.dataArray0 = writtenBack rtl.reply tb.dataArray0 ∧
      tb'.dataArray1 = writtenBack model.reply tb.dataArray1 ∧
      tb.driveBoth W s store delays = .ok (tb', s') ∧
      tb.driveBoth W.recorded (s, tr) store delays = .ok (tb', s', tr.add rtl model) := by
  obtain ⟨rtl, delay₀, s₀, sent₀, answer₀, drive₀, record₀⟩ :=
    drivertl_exchange W tb s tr tb.dataArray0 0 store positive
  obtain ⟨model, delay₁, s₁, sent₁, answer₁, drive₁, record₁⟩ := drivemodel_exchange W
    { tb.finished rtl.reply delay₀ with dataArray0 := writtenBack rtl.reply tb.dataArray0 }
    s₀ { tr with rtl := tr.rtl ++ [rtl] } tb.dataArray1 0 store
  refine ⟨rtl, model, _, s₁, ?_, ⟨⟨_, _, _, _, answer₀⟩, ⟨_, _, _, _, answer₁⟩, ?_⟩, ?_, ?_,
    (bind_of_ok drive₀).trans (bind_of_ok drive₁), (bind_of_ok record₀).trans (bind_of_ok record₁)⟩
  · rw [sent₀]
    cases store
    · exact ⟨fun _ => rfl, fun _ => rfl⟩
    · exact ⟨by rintro ⟨⟩, by rintro ⟨⟩⟩
  · rw [sent₀, sent₁]
    change (dataPtr tb.dataArray0).bytes.length = (dataPtr tb.dataArray1).bytes.length
    rw [dataPtr_length, dataPtr_length, alike]
  · rfl
  · rfl

end Exchanges

theorem storeBoth_exchange (tb : Tb) (s : σ) (tr : Transcript) :
    ∃ rtl model : Exchange, ∃ tb' s', rtl.request.command ≠ .read ∧ W.Answered rtl model ∧
      tb.storeBoth W s = .ok (tb', s') ∧
      tb.storeBoth W.recorded (s, tr) = .ok (tb', s', tr.add rtl model) := by
  rcases h : fillVecWithRandom W.rand 0 254 (resize tb.dataArray0 22256) s with ⟨random, s₁⟩
  obtain ⟨rtl, model, tb', s', load, answered, _, _, drive, record⟩ := driveBoth_exchange W
    { tb with dataArray0 := random, dataArray1 := random } s₁ tr true undelayed rfl
  refine ⟨rtl, model, tb', s', fun read => Bool.noConfusion (load.mp read), answered, ?_, ?_⟩
  · rw [storeBoth, h]
    exact drive
  · rw [storeBoth, fillVecWithRandom_recorded, h]
    exact record

/-- A pair of loads clears the flag exactly when the targets returned different bytes. -/
theorem loadBoth_exchange (ok : Bool) (tb : Tb) (s : σ) (tr : Transcript) (test : LoadTest) :
    ∃ rtl model : Exchange, ∃ ok' tb' s', rtl.request.command = .read ∧ W.Answered rtl model ∧
      (ok' = true ↔ ok = true ∧ rtl.reply.data = model.reply.data) ∧
      tb.loadBoth W ok s test = .ok (ok', tb', s') ∧
      tb.loadBoth W.recorded ok (s, tr) test = .ok (ok', tb', s', tr.add rtl model) := by
  rcases h₀ : fillVecWithRandom W.rand 0 254 (resize [] test.size) s with ⟨random0, s₀⟩
  rcases h₁ : fillVecWithRandom W.rand 0 254 (resize [] test.size) s₀ with ⟨random1, s₁⟩
  have length₀ : random0.length = test.size := by
    rw [show random0 = _ from (congrArg Prod.fst h₀).symm, fillVecWithRandom_length, resize_length]
  have length₁ : random1.length = test.size := by
    rw [show random1 = _ from (congrArg Prod.fst h₁).symm, fillVecWithRandom_length, resize_length]
  obtain ⟨rtl, model, tb', s', load, answered, vec₀, vec₁, drive, record⟩ := driveBoth_exchange W
    { tb with dataArray0 := random0, dataArray1 := random1 } s₁ tr false test.positive
    (length₀.trans length₁.symm)
  have same : tb'.dataArray1 = tb'.dataArray0 ↔ rtl.reply.data = model.reply.data := by
    rw [vec₀, vec₁]
    exact writtenBack_eq_iff (length₀ ▸ test.fits) (length₁.trans length₀.symm)
  refine ⟨rtl, model, if tb'.dataArray1 = tb'.dataArray0 then ok else false, tb', s',
    load.mpr rfl, answered, ?_, ?_, ?_⟩
  · rw [← same]
    by_cases equal : tb'.dataArray1 = tb'.dataArray0
    · rw [if_pos equal, and_iff_left equal]
    · rw [if_neg equal]
      exact ⟨by rintro ⟨⟩, fun both => absurd both.2 equal⟩
  · rw [loadBoth, h₀]
    simp only [h₁]
    exact bind_of_ok drive
  · rw [loadBoth, fillVecWithRandom_recorded, h₀]
    simp only [fillVecWithRandom_recorded, h₁]
    exact bind_of_ok record

/-- Over any list of tests the flag says whether all loads so far were equal. -/
theorem loads_exchange (tests : List LoadTest) (ok : Bool) (tb : Tb) (s : σ) (tr : Transcript)
    (genuine : tr.Genuine W) (equal : ok = true ↔ tr.LoadsEqual) :
    ∃ ok' tb' s' tr', tr'.rtl.length = tr.rtl.length + tests.length ∧
      tr'.Genuine W ∧ (ok' = true ↔ tr'.LoadsEqual) ∧
      loadAll W tests (ok, tb, s) = .ok (ok', tb', s') ∧
      loadAll W.recorded tests (ok, tb, s, tr) = .ok (ok', tb', s', tr') := by
  induction tests generalizing ok tb s tr with
  | nil => exact ⟨ok, tb, s, tr, rfl, genuine, equal, rfl, rfl⟩
  | cons test tests ih =>
    obtain ⟨rtl, model, ok₁, tb₁, s₁, read, answered, flag, drive, record⟩ :=
      loadBoth_exchange W ok tb s tr test
    have equal₁ : ok₁ = true ↔ (tr.add rtl model).LoadsEqual := by
      rw [flag, equal, Transcript.loadsEqual_add genuine.paired]
      exact and_congr_right fun _ => ⟨fun same _ => same, fun same => same read⟩
    obtain ⟨ok', tb', s', tr', count, genuine', equal', drive', record'⟩ :=
      ih ok₁ tb₁ s₁ (tr.add rtl model) (genuine.add answered) equal₁
    refine ⟨ok', tb', s', tr', ?_, genuine', equal', ?_, ?_⟩
    · rw [count, Transcript.add, List.length_append, List.length_cons]
      simp
      omega
    · rw [loadAll, List.foldlM_cons]
      exact (bind_of_ok drive).trans drive'
    · rw [loadAll, List.foldlM_cons]
      exact (bind_of_ok record).trans record'

/-- The thread always ends; it has exchanged seven transactions with each target
and passes exactly when the bytes of every pair of loads agree. -/
theorem tbThread_verdict (tb : Tb) (s : σ) : ∃ verdict tb' s' tr,
    tb.tbThread W s = .ok (verdict, tb', s') ∧
    tb.tbThread W.recorded (s, .blank) = .ok (verdict, tb', s', tr) ∧
    tr.rtl.length = 7 ∧ tr.Genuine W ∧ (verdict = .simulationPass ↔ tr.LoadsEqual) := by
  obtain ⟨rtl, model, tb₀, s₀, store, answered, drive, record⟩ := storeBoth_exchange W tb s .blank
  have equal : true = true ↔ (Transcript.blank.add rtl model).LoadsEqual := by
    rw [Transcript.loadsEqual_add rfl]
    exact iff_of_true rfl ⟨Transcript.blank_loadsEqual, fun read => absurd read store⟩
  obtain ⟨ok, tb₁, s₁, tr, count, genuine, equal', drive', record'⟩ :=
    loads_exchange W loadTests true tb₀ s₀ (Transcript.blank.add rtl model)
      (Transcript.blank_genuine.add answered) equal
  refine ⟨if ok then .simulationPass else .simulationFail,
    { tb₁ with runningThreadsCounter := tb₁.runningThreadsCounter - 1 }, s₁, tr, ?_, ?_, count,
    genuine, ?_⟩
  · rw [tbThread]
    exact (bind_of_ok drive).trans (bind_of_ok drive')
  · rw [tbThread]
    exact (bind_of_ok record).trans (bind_of_ok record')
  rw [← equal']
  cases ok
  · exact ⟨by rintro ⟨⟩, by rintro ⟨⟩⟩
  · exact ⟨fun _ => rfl, fun _ => rfl⟩

/-- The verdict is sound exactly in the runs without an error response and in
those where some pair of loads returned different bytes. -/
theorem tbThread_sound_iff (tb : Tb) (s : σ) : ∃ verdict tb' s' tr,
    tb.tbThread W s = .ok (verdict, tb', s') ∧
    tb.tbThread W.recorded (s, .blank) = .ok (verdict, tb', s', tr) ∧
    tr.rtl.length = 7 ∧ tr.model.length = 7 ∧
    ((verdict = .simulationPass ↔ tr.AllOk ∧ tr.LoadsEqual) ↔ (tr.AllOk ∨ ¬ tr.LoadsEqual)) := by
  obtain ⟨verdict, tb', s', tr, run, record, seven, genuine, pass⟩ := tbThread_verdict W tb s
  refine ⟨verdict, tb', s', tr, run, record, seven, genuine.paired.symm.trans seven, ?_⟩
  rw [pass]
  by_cases equal : tr.LoadsEqual
  · exact ⟨fun sound => Or.inl (sound.mp equal).1, fun always =>
      iff_of_true equal ⟨always.resolve_right (not_not_intro equal), equal⟩⟩
  · exact ⟨fun _ => Or.inr equal, fun _ => iff_of_false equal fun both => equal both.2⟩

/-- A target that fills the buffer with zeros and answers with one status. -/
def zeroing (status : TlmResponseStatus) (expected : status = .ok ∨ status = .genericError) :
    Target Unit where
  bTransport _ t delay :=
    .ok ({ t with
      data := ⟨List.replicate t.dataLength 0, by simpa using t.dataLength_lt⟩
      responseStatus := status }, delay, ())
  answers _ t delay _ := ⟨_, delay, (), rfl, expected, by simp [Payload.dataLength]⟩

/-- The first target reports an error each time. -/
def errorWorld : World Unit := ⟨zeroing .genericError (Or.inr rfl), zeroing .ok (Or.inl rfl),
  fun _ => (0, ())⟩

/-- Seven error responses of the first target, and the test passes. -/
theorem not_tbThread_sound_errorWorld : ∃ tb' s' tr,
    (constructed 1).tbThread errorWorld () = .ok (.simulationPass, tb', s') ∧
    (constructed 1).tbThread errorWorld.recorded ((), .blank) =
      .ok (.simulationPass, tb', s', tr) ∧
    tr.rtl.length = 7 ∧ (∀ e ∈ tr.rtl, e.reply.responseStatus = .genericError) ∧
    ¬ (Verdict.simulationPass = .simulationPass ↔ tr.AllOk ∧ tr.LoadsEqual) := by
  obtain ⟨verdict, tb', s', tr, run, record, seven, genuine, pass⟩ :=
    tbThread_verdict errorWorld (constructed 1) ()
  have equal : tr.LoadsEqual := by
    intro p hp _
    obtain ⟨⟨_, _, _, _, rtl⟩, ⟨_, _, _, _, model⟩, length⟩ := genuine.answered p hp
    rw [← (Prod.mk.inj (Except.ok.inj rtl)).1, ← (Prod.mk.inj (Except.ok.inj model)).1]
    exact DataBuffer.ext (congrArg (List.replicate · 0) length)
  have error : ∀ e ∈ tr.rtl, e.reply.responseStatus = .genericError := by
    intro e he
    rw [← List.map_fst_zip (Nat.le_of_eq genuine.paired)] at he
    obtain ⟨p, hp, rfl⟩ := List.mem_map.mp he
    obtain ⟨_, _, _, _, rtl⟩ := (genuine.answered p hp).first
    rw [← (Prod.mk.inj (Except.ok.inj rtl)).1]
  obtain rfl := pass.mpr equal
  refine ⟨tb', s', tr, run, record, seven, error, fun sound => ?_⟩
  obtain ⟨e, he⟩ := List.exists_mem_of_length_pos (seven ▸ Nat.succ_pos 6 : 0 < tr.rtl.length)
  exact absurd ((sound.mp rfl).1.1 e he) (by rw [error e he]; decide)

end Tb
