import RiscvVp.Verdict
import RiscvVp.ExtensionLife

/-!
# The test on the two memories

`tb_thread` stores and loads from address 0 only, where a position in the buffer
is an address. Against the RTL memory and the reference memory it passes,
whatever the memories hold at power-on, the random bytes and the schedule.
-/

/-- The first target answers as the RTL memory in its platform can, the second
as the reference memory does. Of calls with a delay of zero nothing is asked. -/
structure World.Memories {σ ι : Type} [DecidableEq ι] (W : World σ) (period : Nat) (me : ι)
    (platform : σ → Platform ι) (model : σ → Memmodel) : Prop where
  rtl : ∀ s t trans delay s', (platform s).Idle period → t.Serviceable → t.PositiveDelays →
    W.socket0.bTransport s t 0 = .ok (trans, delay, s') →
    Kernel.Returns period me (platform s) t 0 trans delay (platform s') ∧ model s' = model s
  reference : ∀ s t trans delay s', W.socket1.bTransport s t 0 = .ok (trans, delay, s') →
    (model s).bTransport t 0 = .ok (trans, delay, model s') ∧ platform s' = platform s
  random : ∀ s, platform (W.rand s).2 = platform s ∧ model (W.rand s).2 = model s

namespace Payload

/-- A transaction at address 0 on a memory seen as bytes at positions. -/
structure ServesZero (t : Payload) (f : Nat → Byte) (reply : Payload) (f' : Nat → Byte) :
    Prop where
  status : reply.responseStatus = .ok
  extension : reply.extension = t.extension
  length : reply.dataLength = t.dataLength
  loaded : t.command = .read →
    (∀ i, i < t.dataLength → reply.data.get i = f i) ∧ ∀ i, i < 65536 → f' i = f i
  stored : t.command = .write → ∀ i, i < t.dataLength → f' i = t.data.get i

variable {t : Payload}

theorem inRange_of_zero (zero : t.address = 0) (short : t.dataLength ≤ 65536) : t.InRange := by
  rw [InRange, zero]
  exact (Nat.zero_add _).trans_le short

/-- The RTL memory adds the position to the address. -/
theorem servesZero_of_returns {ι : Type} [DecidableEq ι] {period : Nat} {me : ι}
    {k₀ k : Platform ι} {reply : Payload} {delay : Nat} (idle : k₀.Idle period)
    (serviceable : t.Serviceable) (zero : t.address = 0) (nonempty : 0 < t.dataLength)
    (short : t.dataLength ≤ 65536) (returns : Kernel.Returns period me k₀ t 0 reply delay k) :
    k.Idle period ∧ t.ServesZero (fun i => k₀.pipe.ram (BitVec.ofNat 16 i)) reply
      fun i => k.pipe.ram (BitVec.ofNat 16 i) := by
  have range := inRange_of_zero zero short
  obtain ⟨run, ret⟩ := returns
  obtain ⟨served, idle'⟩ :=
    Kernel.returned_serve idle serviceable (range.beyond_eq_false nonempty) run ret
  have trans := congrArg Prod.fst served
  have ram := congrArg Prod.snd served
  simp only at trans ram
  obtain ⟨status, loaded, stored⟩ := Kernel.serve_performs range k₀.pipe.ram
  obtain ⟨_, _, extension, length⟩ := serve_frame (t.setResponseStatus .ok) k₀.pipe.ram
  have here (i : Nat) : t.address.toNat + i = i := by
    rw [zero]
    exact Nat.zero_add i
  simp only [here] at loaded stored
  rw [← trans] at status loaded extension length
  rw [← ram] at loaded stored
  refine ⟨idle', status, extension, length, fun read => ?_, fun write => (stored write).1⟩
  obtain ⟨bytes, same⟩ := loaded read
  exact ⟨bytes, fun i _ => congrFun same _⟩

/-- The reference memory takes the position alone. -/
theorem servesZero_memmodel (serviceable : t.Serviceable) (zero : t.address = 0)
    (nonempty : 0 < t.dataLength) (short : t.dataLength ≤ 65536) (m : Memmodel) :
    ∃ reply m', m.bTransport t 0 = .ok (reply, 0, m') ∧
      t.ServesZero (fun i => m.sparseArray (BitVec.ofNat 64 i)) reply
        fun i => m'.sparseArray (BitVec.ofNat 64 i) := by
  have accepted : t.beyond Memmodel.modelMaxRamAddress = false :=
    (inRange_of_zero zero short).beyond_eq_false nonempty
  rcases serviceable with read | write
  · refine ⟨_, _, Memmodel.bTransport_read accepted read, rfl, rfl, ?_, fun _ => ?_,
      fun write => ?_⟩
    · change (m.load t.data).bytes.length = _
      rw [Memmodel.load_bytes, List.length_map, List.length_range]
      rfl
    · exact ⟨fun i hi => m.load_get t.data hi, fun _ _ => rfl⟩
    · rw [read] at write
      cases write
  · refine ⟨_, _, Memmodel.bTransport_write accepted write, rfl, rfl, rfl, fun read => ?_,
      fun _ i hi => ?_⟩
    · rw [write] at read
      cases read
    · have wide : i < 2 ^ 64 := by omega
      exact (m.store_sparseArray t.data wide).trans (if_pos hi)

end Payload

namespace Tb

variable {σ ι : Type} [DecidableEq ι] {W : World σ} {period : Nat} {me : ι}
  {platform : σ → Platform ι} {model : σ → Memmodel} {tb : Tb} {s : σ}
  {delays : Option (Nat × Nat)}

/-- The positions of the RTL memory. -/
def rtlAt (platform : σ → Platform ι) (s : σ) (i : Nat) : Byte :=
  (platform s).pipe.ram (BitVec.ofNat 16 i)

def modelAt (model : σ → Memmodel) (s : σ) (i : Nat) : Byte :=
  (model s).sparseArray (BitVec.ofNat 64 i)

/-- Between two pairs of calls: no call is under way, the delays at the payload
are positive, and no error has been answered. -/
structure Rests (period : Nat) (platform : σ → Platform ι) (tb : Tb) (s : σ) : Prop where
  idle : (platform s).Idle period
  positive : tb.trans.PositiveDelays
  keepSim : tb.keepSim = true

theorem request_dataLength (ext : Option RtlcontrolTlmExtension) (store : Bool)
    {dataVec : List Byte} (short : dataVec.length ≤ 65536) :
    (request ext dataVec 0 store).dataLength = dataVec.length := by
  change (dataPtr dataVec).bytes.length = _
  rw [dataPtr_length, Nat.mod_eq_of_lt (by omega)]

theorem attached_positive (positive : ∀ d ∈ delays, 0 < d.1 ∧ 0 < d.2)
    (rests : tb.trans.PositiveDelays) (dataVec : List Byte) (store : Bool) :
    (request (tb.attached delays) dataVec 0 store).PositiveDelays := by
  intro ext found
  change tb.attached delays = some ext at found
  cases delays with
  | none => exact rests ext found
  | some d =>
    cases found
    exact positive d rfl

/-- All of the vector is replaced by what came back. -/
theorem writtenBack_of_length {reply : Payload} {old : List Byte} (short : old.length ≤ 65536) :
    writtenBack reply old = reply.data.bytes := by
  rw [writtenBack, Nat.mod_eq_of_lt (by omega), List.drop_length, List.append_nil]

/-- A pair of calls at address 0, with vectors of one length. -/
theorem driveBoth_serves (store : Bool) (mem : W.Memories period me platform model)
    (positive : ∀ d ∈ delays, 0 < d.1 ∧ 0 < d.2) (rests : tb.Rests period platform s)
    (alike : tb.dataArray1.length = tb.dataArray0.length) (nonempty : 0 < tb.dataArray0.length)
    (short : tb.dataArray0.length ≤ 65536) :
    ∃ tb' s' reply₀ reply₁, tb.driveBoth W s store delays = .ok (tb', s') ∧
      tb'.Rests period platform s' ∧ tb'.runningThreadsCounter = tb.runningThreadsCounter ∧
      tb'.dataArray0 = reply₀.data.bytes ∧ tb'.dataArray1 = reply₁.data.bytes ∧
      (request (tb.attached delays) tb.dataArray0 0 store).ServesZero (rtlAt platform s) reply₀
        (rtlAt platform s') ∧
      (request (tb.attached delays) tb.dataArray1 0 store).ServesZero (modelAt model s) reply₁
        (modelAt model s') := by
  have short₁ : tb.dataArray1.length ≤ 65536 := alike.trans_le short
  have paced := attached_positive positive rests.positive tb.dataArray0 store
  have length₀ := request_dataLength (tb.attached delays) store short
  have length₁ := request_dataLength (tb.attached delays) store short₁
  obtain ⟨reply₀, delay₀, s₀, answer₀, _⟩ := W.socket0.answers s
    (request (tb.attached delays) tb.dataArray0 0 store) 0 (request_serviceable _ _ _ _)
  obtain ⟨returns, kept⟩ := mem.rtl _ _ _ _ _ rests.idle (request_serviceable _ _ _ _) paced answer₀
  obtain ⟨idle₀, serves₀⟩ := Payload.servesZero_of_returns rests.idle (request_serviceable _ _ _ _)
    rfl (length₀ ▸ nonempty) (length₀ ▸ short) returns
  have drive₀ := drivertlOverload_eq positive answer₀ (Or.inl serves₀.status)
  have extension₀ : reply₀.extension = tb.attached delays := serves₀.extension
  obtain ⟨reply₁, delay₁, s₁, answer₁, _⟩ := W.socket1.answers s₀
    (request (tb.attached delays) tb.dataArray1 0 store) 0 (request_serviceable _ _ _ _)
  obtain ⟨answered, apart⟩ := mem.reference _ _ _ _ _ answer₁
  obtain ⟨reply, m, answer, serves₁⟩ := Payload.servesZero_memmodel
    (request_serviceable (tb.attached delays) tb.dataArray1 0 store) rfl
    (length₁ ▸ alike ▸ nonempty) (length₁ ▸ short₁) (model s₀)
  obtain ⟨rfl, rfl, rfl⟩ : reply = reply₁ ∧ 0 = delay₁ ∧ m = model s₁ := by
    have same := answer.symm.trans answered
    simpa only [Except.ok.injEq, Prod.mk.injEq] using same
  rw [← extension₀] at answer₁
  have drive₁ : ({ tb.finished reply₀ delay₀ with
      dataArray0 := writtenBack reply₀ tb.dataArray0 } : Tb).drivemodel (W.socket1.bTransport s₀)
        tb.dataArray1 0 store = .ok _ := drivemodel_eq answer₁ (Or.inl serves₁.status)
  refine ⟨_, s₁, reply₀, reply, (bind_of_ok drive₀).trans (bind_of_ok drive₁), ⟨?_, ?_, ?_⟩, rfl,
    writtenBack_of_length short, writtenBack_of_length short₁, ?_, ?_⟩
  · rw [apart]
    exact idle₀
  · intro ext found
    exact paced ext (serves₁.extension.symm.trans found)
  · change (tb.keepSim && _ && _) = true
    rw [rests.keepSim, serves₀.status, serves₁.status]
    rfl
  · have same : rtlAt platform s₁ = rtlAt platform s₀ := by
      funext i
      rw [rtlAt, rtlAt, apart]
    rw [same]
    exact serves₀
  · have same : modelAt model s = modelAt model s₀ := by
      funext i
      rw [modelAt, modelAt, kept]
    rw [same]
    exact serves₁

/-- The first bytes of the two memories are the same. -/
def Alike (platform : σ → Platform ι) (model : σ → Memmodel) (n : Nat) (s : σ) : Prop :=
  ∀ i, i < n → rtlAt platform s i = modelAt model s i

theorem fillVecWithRandom_memories (mem : W.Memories period me platform model)
    (minVal maxVal : Byte) (dataVec : List Byte) (s : σ) :
    platform (fillVecWithRandom W.rand minVal maxVal dataVec s).2 = platform s ∧
      model (fillVecWithRandom W.rand minVal maxVal dataVec s).2 = model s := by
  induction dataVec generalizing s with
  | nil => exact ⟨rfl, rfl⟩
  | cons x dataVec ih =>
    obtain ⟨platform', model'⟩ := mem.random s
    obtain ⟨platform'', model''⟩ := ih (W.rand s).2
    exact ⟨platform''.trans platform', model''.trans model'⟩

theorem storeBoth_alike (mem : W.Memories period me platform model)
    (rests : tb.Rests period platform s) : ∃ tb' s', tb.storeBoth W s = .ok (tb', s') ∧
      tb'.Rests period platform s' ∧ tb'.runningThreadsCounter = tb.runningThreadsCounter ∧
      Alike platform model 22256 s' := by
  rcases h : fillVecWithRandom W.rand 0 254 (resize tb.dataArray0 22256) s with ⟨random, s₁⟩
  obtain ⟨platform₁, _⟩ := fillVecWithRandom_memories mem 0 254 (resize tb.dataArray0 22256) s
  rw [h] at platform₁
  have length : random.length = 22256 := by
    rw [show random = _ from (congrArg Prod.fst h).symm, fillVecWithRandom_length, resize_length]
  have rests₁ : ({ tb with dataArray0 := random, dataArray1 := random } : Tb).Rests period platform
      s₁ := ⟨platform₁ ▸ rests.idle, rests.positive, rests.keepSim⟩
  obtain ⟨tb', s', reply₀, reply₁, drive, rests', counter, _, _, rtl, reference⟩ :=
    driveBoth_serves true mem undelayed rests₁ rfl (show 0 < random.length by omega)
      (show random.length ≤ 65536 by omega)
  refine ⟨tb', s', ?_, rests', counter, fun i hi => ?_⟩
  · rw [storeBoth, h]
    exact drive
  · have inside : i < (request tb.trans.extension random 0 true).dataLength := by
      rw [request_dataLength _ _ (by omega)]
      omega
    rw [rtl.stored rfl i inside, reference.stored rfl i inside]

/-- A pair of loads of stored bytes leaves the flag and the memories as they are. -/
theorem loadBoth_alike (mem : W.Memories period me platform model)
    (rests : tb.Rests period platform s) (alike : Alike platform model 22256 s) (test : LoadTest)
    (stored : test.size ≤ 22256) (nonempty : 0 < test.size) :
    ∃ tb' s', tb.loadBoth W true s test = .ok (true, tb', s') ∧ tb'.Rests period platform s' ∧
      tb'.runningThreadsCounter = tb.runningThreadsCounter ∧ Alike platform model 22256 s' := by
  rcases h₀ : fillVecWithRandom W.rand 0 254 (resize [] test.size) s with ⟨random0, s₀⟩
  rcases h₁ : fillVecWithRandom W.rand 0 254 (resize [] test.size) s₀ with ⟨random1, s₁⟩
  obtain ⟨platform₀, model₀⟩ := fillVecWithRandom_memories mem 0 254 (resize [] test.size) s
  obtain ⟨platform₁, model₁⟩ := fillVecWithRandom_memories mem 0 254 (resize [] test.size) s₀
  rw [h₀] at platform₀ model₀
  rw [h₁] at platform₁ model₁
  have length₀ : random0.length = test.size := by
    rw [show random0 = _ from (congrArg Prod.fst h₀).symm, fillVecWithRandom_length, resize_length]
  have length₁ : random1.length = test.size := by
    rw [show random1 = _ from (congrArg Prod.fst h₁).symm, fillVecWithRandom_length, resize_length]
  have idle₁ : (platform s₁).Idle period := platform₁ ▸ platform₀ ▸ rests.idle
  have rests₁ : ({ tb with dataArray0 := random0, dataArray1 := random1 } : Tb).Rests period
      platform s₁ := ⟨idle₁, rests.positive, rests.keepSim⟩
  have alike₁ : Alike platform model 22256 s₁ := by
    intro i hi
    have same := alike i hi
    simp only [rtlAt, modelAt] at same ⊢
    rw [platform₁, platform₀, model₁, model₀, same]
  have short₀ : random0.length ≤ 65536 := by omega
  have short₁ : random1.length ≤ 65536 := by omega
  obtain ⟨tb', s', reply₀, reply₁, drive, rests', counter, vec₀, vec₁, rtl, reference⟩ :=
    driveBoth_serves false mem test.positive rests₁ (length₁.trans length₀.symm)
      (length₀ ▸ nonempty) short₀
  have all₀ : (request (tb.attached test.delays) random0 0 false).dataLength = random0.length :=
    request_dataLength _ _ short₀
  have all₁ : (request (tb.attached test.delays) random1 0 false).dataLength = random1.length :=
    request_dataLength _ _ short₁
  obtain ⟨bytes₀, kept₀⟩ := rtl.loaded rfl
  obtain ⟨bytes₁, kept₁⟩ := reference.loaded rfl
  have equal : tb'.dataArray1 = tb'.dataArray0 := by
    rw [vec₀, vec₁, DataBuffer.bytes_eq_map (rtl.length.trans (all₀.trans length₀)) fun i hi =>
      bytes₀ i (hi.trans_eq (all₀.trans length₀).symm), DataBuffer.bytes_eq_map
      (reference.length.trans (all₁.trans length₁)) fun i hi =>
      bytes₁ i (hi.trans_eq (all₁.trans length₁).symm)]
    refine List.map_congr_left fun i hi => (alike₁ i ?_).symm
    have below := List.mem_range.mp hi
    omega
  refine ⟨tb', s', ?_, rests', counter, fun i hi => ?_⟩
  · rw [loadBoth, h₀]
    simp only [h₁]
    refine (bind_of_ok drive).trans ?_
    rw [if_pos equal]
    rfl
  · rw [kept₀ i (by omega), kept₁ i (by omega)]
    exact alike₁ i hi

theorem loads_alike (mem : W.Memories period me platform model) (tests : List LoadTest)
    (stored : ∀ test ∈ tests, test.size ≤ 22256 ∧ 0 < test.size)
    (rests : tb.Rests period platform s) (alike : Alike platform model 22256 s) :
    ∃ tb' s', loadAll W tests (true, tb, s) = .ok (true, tb', s') ∧ tb'.Rests period platform s' ∧
      tb'.runningThreadsCounter = tb.runningThreadsCounter ∧ Alike platform model 22256 s' := by
  induction tests generalizing tb s with
  | nil => exact ⟨tb, s, rfl, rests, rfl, alike⟩
  | cons test tests ih =>
    obtain ⟨size, nonempty⟩ := stored test List.mem_cons_self
    obtain ⟨tb₁, s₁, first, rests₁, counter₁, alike₁⟩ :=
      loadBoth_alike mem rests alike test size nonempty
    obtain ⟨tb', s', rest, rests', counter', alike'⟩ :=
      ih (fun later h => stored later (List.mem_cons_of_mem test h)) rests₁ alike₁
    refine ⟨tb', s', ?_, rests', counter'.trans counter₁, alike'⟩
    rw [loadAll, List.foldlM_cons]
    exact (bind_of_ok first).trans rest

/-- From power-on, or whenever no call is under way, the test passes, no call is
answered with an error, and the memories end alike on what was stored. -/
theorem tbThread_passes (mem : W.Memories period me platform model) (n : Int) {s : σ}
    (idle : (platform s).Idle period) : ∃ tb' s',
      (constructed n).tbThread W s = .ok (.simulationPass, tb', s') ∧ tb'.keepSim = true ∧
      tb'.runningThreadsCounter = n - 1 ∧ (platform s').Idle period ∧
      Alike platform model 22256 s' := by
  have rests : (constructed n).Rests period platform s := ⟨idle, by rintro _ ⟨⟩, rfl⟩
  obtain ⟨tb₀, s₀, store, rests₀, counter₀, alike₀⟩ := storeBoth_alike mem rests
  obtain ⟨tb₁, s₁, loads, rests₁, counter₁, alike₁⟩ :=
    loads_alike mem loadTests (by decide) rests₀ alike₀
  refine ⟨{ tb₁ with runningThreadsCounter := tb₁.runningThreadsCounter - 1 }, s₁, ?_,
    rests₁.keepSim, ?_, rests₁.idle, alike₁⟩
  · rw [tbThread]
    exact (bind_of_ok store).trans (bind_of_ok loads)
  · change tb₁.runningThreadsCounter - 1 = n - 1
    rw [counter₁, counter₀]
    rfl

end Tb

section PowerOn

/-- A platform between two calls. -/
abbrev IdlePlatform := { k : Platform Unit // k.Idle (scNs 10) }

theorem Kernel.Returns.dataLength {ι : Type} [DecidableEq ι] {period delay delay' : Nat} {me : ι}
    {k₀ k : Platform ι} {t trans : Payload} (idle : k₀.Idle period) (serviceable : t.Serviceable)
    (returns : Kernel.Returns period me k₀ t delay trans delay' k) :
    trans.dataLength = t.dataLength := by
  obtain ⟨run, ret⟩ := returns
  cases outside : t.beyond Payload.rtlMaxRamAddress with
  | true =>
    obtain ⟨act, _, _⟩ := Kernel.refused_run idle outside run
    rw [act]
    rfl
  | false =>
    have trans' := congrArg Prod.fst (Kernel.returned_serve idle serviceable outside run ret).1
    simp only at trans'
    rw [trans', (Payload.serve_frame _ _).2.2.2]
    rfl

/-- Some answer of the RTL memory to a call. -/
theorem Memrtl.exists_answer (k₀ : IdlePlatform) {t : Payload} (delay : Nat)
    (serviceable : t.Serviceable) (positive : t.PositiveDelays) : ∃ r : Payload × Nat × IdlePlatform,
      Kernel.Returns (scNs 10) () k₀.1 t delay r.1 r.2.1 r.2.2.1 := by
  obtain ⟨trans, delay', k, returns⟩ :=
    Kernel.exists_returns () delay (by decide) k₀.2 serviceable positive
  exact ⟨(trans, delay', ⟨k, (returns.reply k₀.2 serviceable).2.2⟩), returns⟩

open Classical in
/-- The RTL memory, in any one of its runs. A call with a delay of zero would not
come back, and is refused instead. -/
noncomputable def Memrtl.target : Target (IdlePlatform × Memmodel) where
  bTransport s t delay :=
    if h : t.Serviceable ∧ t.PositiveDelays then
      let r := (Memrtl.exists_answer s.1 delay h.1 h.2).choose
      .ok (r.1, r.2.1, r.2.2, s.2)
    else .ok (t.setResponseStatus .genericError, delay, s)
  answers s t delay serviceable := by
    by_cases positive : t.PositiveDelays
    · have returns := (Memrtl.exists_answer s.1 delay serviceable positive).choose_spec
      exact ⟨_, _, _, dif_pos ⟨serviceable, positive⟩, (returns.reply s.1.2 serviceable).1,
        returns.dataLength s.1.2 serviceable⟩
    · exact ⟨_, _, _, dif_neg fun both => positive both.2, Or.inr rfl, rfl⟩

/-- The reference memory beside it. -/
def Memmodel.pairTarget : Target (IdlePlatform × Memmodel) where
  bTransport s t delay :=
    (s.2.bTransport t delay).map fun r => (r.1, r.2.1, s.1, r.2.2)
  answers s t delay serviceable := by
    obtain ⟨trans, delay', m, answer, expected, length⟩ :=
      Memmodel.target.answers s.2 t delay serviceable
    exact ⟨trans, delay', (s.1, m), congrArg (Except.map _) answer, expected, length⟩

noncomputable def twoMemories : World (IdlePlatform × Memmodel) :=
  ⟨Memrtl.target, Memmodel.pairTarget, fun s => (0, s)⟩

theorem twoMemories_memories : twoMemories.Memories (scNs 10) () (·.1.1) (·.2) where
  rtl s t trans delay s' idle serviceable positive answer := by
    have answer' := (dif_pos ⟨serviceable, positive⟩).symm.trans answer
    cases answer'
    exact ⟨(Memrtl.exists_answer s.1 0 serviceable positive).choose_spec, rfl⟩
  reference s t trans delay s' answer := by
    cases called : s.2.bTransport t 0 with
    | error r =>
      have answer' : Except.map _ (s.2.bTransport t 0) = _ := answer
      rw [called] at answer'
      cases answer'
    | ok r =>
      have answer' : Except.map _ (s.2.bTransport t 0) = _ := answer
      rw [called] at answer'
      cases answer'
      exact ⟨rfl, rfl⟩
  random _ := ⟨rfl, rfl⟩

/-- Power-on with the reset time of `sc_main` and a stale block. -/
theorem powerOn_between :
    (Platform.powerOn Bench.staleBlock (scNs 17) : Platform Unit).Idle (scNs 10) :=
  Platform.powerOn_idle _ (Or.inl (by decide))

def powerOnIdle : IdlePlatform := ⟨_, powerOn_between⟩

theorem Tb.tbThread_passes_powerOn : ∃ tb' s',
    (Tb.constructed 1).tbThread twoMemories (powerOnIdle, .empty) =
      .ok (.simulationPass, tb', s') ∧ tb'.keepSim = true ∧ tb'.runningThreadsCounter = 0 := by
  obtain ⟨tb', s', run, keepSim, counter, _⟩ :=
    Tb.tbThread_passes twoMemories_memories 1 (s := (powerOnIdle, .empty)) powerOnIdle.2
  exact ⟨tb', s', run, keepSim, counter⟩

end PowerOn
