import RiscvVp.Transport

/-!
# The testbench

`tb_module` drives both memories with the same transactions, from one payload
object, and compares what the loads bring back. A driver is written over the
call that it makes; the thread runs over any two targets and any generator of
random bytes.
-/

/-- A target's `b_transport` and the wait for its delay: the payload, the delay
and the world that the thread finds when it goes on. -/
abbrev Call (σ : Type) := Payload → Nat → Except Report (Payload × Nat × σ)

structure Tb where
  keepSim : Bool
  runningThreadsCounter : Int
  trans : Payload
  delay : Nat
  dataArray0 : List Byte
  dataArray1 : List Byte

/-- The module as it is constructed, with a fresh payload. -/
def Tb.constructed (runningThreadsCounter : Int) : Tb :=
  { keepSim := true
    runningThreadsCounter := runningThreadsCounter
    trans := ⟨.ignore, 0, ⟨[], by decide⟩, .incomplete, none⟩
    delay := 0
    dataArray0 := [0]
    dataArray1 := [0] }

inductive Verdict where
  | simulationPass
  | simulationFail
deriving DecidableEq, Repr

namespace Tb

/-- The part of a vector that the payload shows; `unsigned int` holds its length. -/
def dataPtr (dataVec : List Byte) : DataBuffer :=
  ⟨dataVec.take (dataVec.length % 2 ^ 32), by
    rw [List.length_take]
    exact Nat.lt_of_le_of_lt (Nat.min_le_left _ _) (Nat.mod_lt _ (by decide))⟩

@[simp] theorem dataPtr_length (dataVec : List Byte) :
    (dataPtr dataVec).bytes.length = dataVec.length % 2 ^ 32 := by
  rw [dataPtr, List.length_take]
  exact Nat.min_eq_left (Nat.mod_le _ _)

/-- The vector after the target has written through the pointer. -/
def writtenBack (trans : Payload) (old : List Byte) : List Byte :=
  trans.data.bytes ++ old.drop (old.length % 2 ^ 32)

/-- The fields that both drivers set before the call. -/
def prepare (tb : Tb) (dataVec : List Byte) (address : BitVec 64) (store : Bool) : Tb :=
  { tb with
    delay := 0
    trans := { tb.trans with
      command := if store then .write else .read
      address := address
      data := dataPtr dataVec
      responseStatus := .incomplete } }

/-- The switch on the response status, the same in both drivers. -/
def responded (tb : Tb) : Except Report (Bool × Tb) :=
  match tb.trans.responseStatus with
  | .ok => .ok (true, tb)
  | .genericError => .ok (false, { tb with keepSim := false })
  | _ => .error ⟨"Tb_Module", "Response_status ERROR."⟩

def setExtension (tb : Tb) (ext : Option RtlcontrolTlmExtension) : Tb :=
  { tb with trans := { tb.trans with extension := ext } }

variable {σ : Type}

def drivertl (tb : Tb) (call : Call σ) (dataVec : List Byte) (address : BitVec 64)
    (store usedelay : Bool) (reqDelay respDelay : Nat) :
    Except Report (Bool × List Byte × Tb × σ) := do
  let ext : Option RtlcontrolTlmExtension := none
  -- the extension made here is a second `ext`; the clean-up sees the first one
  let tb ←
    if usedelay then
      if reqDelay = 0 ∨ respDelay = 0 then throw ⟨"Tb_Module", "Zero delay provided."⟩
      else pure (tb.setExtension (some ⟨reqDelay, respDelay⟩))
    else pure tb
  let tb := tb.prepare dataVec address store
  let (trans, delay, s) ← call tb.trans tb.delay
  let tb := { tb with trans := trans, delay := delay }
  let tb := if usedelay ∧ ext.isSome then tb.setExtension none else tb
  let (done, tb) ← tb.responded
  return (done, writtenBack trans dataVec, tb, s)

/-- The two overloads that are called, without delays and with them. -/
def drivertlOverload (tb : Tb) (call : Call σ) (dataVec : List Byte) (address : BitVec 64)
    (store : Bool) : Option (Nat × Nat) → Except Report (Bool × List Byte × Tb × σ)
  | none => tb.drivertl call dataVec address store false 0 0
  | some (reqDelay, respDelay) => tb.drivertl call dataVec address store true reqDelay respDelay

def drivemodel (tb : Tb) (call : Call σ) (dataVec : List Byte) (address : BitVec 64)
    (store : Bool) : Except Report (Bool × List Byte × Tb × σ) := do
  let tb := tb.prepare dataVec address store
  let (trans, delay, s) ← call tb.trans tb.delay
  let tb := { tb with trans := trans, delay := delay }
  let (done, tb) ← tb.responded
  return (done, writtenBack trans dataVec, tb, s)

/-- The delays of a call become its extension; without them the payload keeps the
one it has. -/
def attached (tb : Tb) : Option (Nat × Nat) → Option RtlcontrolTlmExtension
  | none => tb.trans.extension
  | some (reqDelay, respDelay) => some ⟨reqDelay, respDelay⟩

theorem undelayed : ∀ d ∈ (none : Option (Nat × Nat)), 0 < d.1 ∧ 0 < d.2 := by
  rintro _ ⟨⟩

/-- The payload with which a driver calls its target. -/
def request (ext : Option RtlcontrolTlmExtension) (dataVec : List Byte)
    (address : BitVec 64) (store : Bool) : Payload :=
  ⟨if store then .write else .read, address, dataPtr dataVec, .incomplete, ext⟩

theorem request_serviceable (ext : Option RtlcontrolTlmExtension) (dataVec : List Byte)
    (address : BitVec 64) (store : Bool) :
    (request ext dataVec address store).Serviceable := by
  cases store
  · exact Or.inl rfl
  · exact Or.inr rfl

/-- The module after a call that was answered. -/
def finished (tb : Tb) (trans : Payload) (delay : Nat) : Tb :=
  { tb with
    trans := trans
    delay := delay
    keepSim := tb.keepSim && trans.responseStatus == .ok }

/-- The two statuses that the drivers expect. -/
def Expected (trans : Payload) : Prop :=
  trans.responseStatus = .ok ∨ trans.responseStatus = .genericError

variable {tb : Tb} {call : Call σ} {dataVec : List Byte} {address : BitVec 64} {store : Bool}
  {trans : Payload} {delay : Nat} {s : σ}

/-- From the answer of the target on, both drivers do the same. -/
def settled (tb : Tb) (dataVec : List Byte) (r : Payload × Nat × σ) :
    Except Report (Bool × List Byte × Tb × σ) := do
  let (done, tb) ← ({ tb with trans := r.1, delay := r.2.1 } : Tb).responded
  return (done, writtenBack r.1 dataVec, tb, r.2.2)

theorem drivertlOverload_eq_bind {delays : Option (Nat × Nat)}
    (positive : ∀ d ∈ delays, 0 < d.1 ∧ 0 < d.2) :
    tb.drivertlOverload call dataVec address store delays =
      call (request (tb.attached delays) dataVec address store) 0 >>= tb.settled dataVec := by
  cases delays with
  | none => rfl
  | some d =>
    obtain ⟨req, resp⟩ := positive d rfl
    have nonzero : ¬ (d.1 = 0 ∨ d.2 = 0) := by omega
    rw [drivertlOverload, drivertl]
    simp only [if_true, if_neg nonzero, pure_bind, Option.isSome_none, Bool.false_eq_true,
      and_false, if_false]
    rfl

theorem drivemodel_eq_bind : tb.drivemodel call dataVec address store =
    call (request tb.trans.extension dataVec address store) 0 >>= tb.settled dataVec := rfl

theorem settled_eq (expected : Expected trans) : tb.settled dataVec (trans, delay, s) =
    .ok (trans.responseStatus == .ok, writtenBack trans dataVec, tb.finished trans delay, s) := by
  rcases expected with ok | error
  · simp only [settled, responded, finished, ok]
    simp
  · simp only [settled, responded, finished, error]
    simp

theorem drivertlOverload_eq {delays : Option (Nat × Nat)}
    (positive : ∀ d ∈ delays, 0 < d.1 ∧ 0 < d.2)
    (answer : call (request (tb.attached delays) dataVec address store) 0 =
      .ok (trans, delay, s)) (expected : Expected trans) :
    tb.drivertlOverload call dataVec address store delays =
      .ok (trans.responseStatus == .ok, writtenBack trans dataVec, tb.finished trans delay, s) := by
  rw [drivertlOverload_eq_bind positive, answer]
  exact settled_eq expected

theorem drivemodel_eq
    (answer : call (request tb.trans.extension dataVec address store) 0 =
      .ok (trans, delay, s)) (expected : Expected trans) :
    tb.drivemodel call dataVec address store =
      .ok (trans.responseStatus == .ok, writtenBack trans dataVec, tb.finished trans delay, s) := by
  rw [drivemodel_eq_bind, answer]
  exact settled_eq expected

/-- Two payloads that show all of a vector leave it the same exactly if their bytes are. -/
theorem writtenBack_eq_iff {trans' : Payload} {old old' : List Byte}
    (short : old.length < 2 ^ 32) (same : old'.length = old.length) :
    writtenBack trans' old' = writtenBack trans old ↔ trans.data = trans'.data := by
  rw [writtenBack, writtenBack, same, Nat.mod_eq_of_lt short, List.drop_length, ← same,
    List.drop_length, List.append_nil, List.append_nil]
  exact ⟨fun bytes => DataBuffer.ext bytes.symm, fun data => congrArg DataBuffer.bytes data.symm⟩

end Tb

/-- A target that answers every load and every store with one of the two expected
statuses, and keeps to the buffer. -/
structure Target (σ : Type) where
  bTransport : σ → Call σ
  answers : ∀ s t delay, t.Serviceable → ∃ trans delay' s',
    bTransport s t delay = .ok (trans, delay', s') ∧ Tb.Expected trans ∧
      trans.dataLength = t.dataLength

/-- What the thread runs against: two targets and `std::rand`. -/
structure World (σ : Type) where
  socket0 : Target σ
  socket1 : Target σ
  rand : σ → Nat × σ

/-- The size of the vectors of a load and the delays of its `drivertl`. -/
structure LoadTest where
  size : Nat
  delays : Option (Nat × Nat)
  fits : size < 2 ^ 32 := by decide
  positive : ∀ d ∈ delays, 0 < d.1 ∧ 0 < d.2 := by decide

namespace Tb

variable {σ : Type}

def resize (dataVec : List Byte) (size : Nat) : List Byte :=
  dataVec.take size ++ List.replicate (size - dataVec.length) 0

def fillVecWithRandom (rand : σ → Nat × σ) (minVal maxVal : Byte) :
    List Byte → σ → List Byte × σ
  | [], s => ([], s)
  | _ :: dataVec, s =>
    let x := BitVec.ofNat 8 (minVal.toNat + (rand s).1 % (maxVal.toNat - minVal.toNat + 1))
    let (rest, s) := fillVecWithRandom rand minVal maxVal dataVec (rand s).2
    (x :: rest, s)

/-- A `drivertl` and a `drivemodel` at address 0, on the two vectors of the module. -/
def driveBoth (W : World σ) (tb : Tb) (s : σ) (store : Bool) (delays : Option (Nat × Nat)) :
    Except Report (Tb × σ) := do
  let (_, dataArray0, tb, s) ←
    tb.drivertlOverload (W.socket0.bTransport s) tb.dataArray0 0 store delays
  let tb := { tb with dataArray0 := dataArray0 }
  let (_, dataArray1, tb, s) ← tb.drivemodel (W.socket1.bTransport s) tb.dataArray1 0 store
  return ({ tb with dataArray1 := dataArray1 }, s)

/-- The stores at the start of the thread. -/
def storeBoth (W : World σ) (tb : Tb) (s : σ) : Except Report (Tb × σ) :=
  let (random, s) := fillVecWithRandom W.rand 0 254 (resize tb.dataArray0 22256) s
  { tb with dataArray0 := random, dataArray1 := random }.driveBoth W s true none

/-- One pair of loads and the comparison of the vectors. -/
def loadBoth (W : World σ) (simTestOk : Bool) (tb : Tb) (s : σ) (test : LoadTest) :
    Except Report (Bool × Tb × σ) := do
  let (random0, s) := fillVecWithRandom W.rand 0 254 (resize [] test.size) s
  let (random1, s) := fillVecWithRandom W.rand 0 254 (resize [] test.size) s
  let tb := { tb with dataArray0 := random0, dataArray1 := random1 }
  let (tb, s) ← tb.driveBoth W s false test.delays
  return (if tb.dataArray1 = tb.dataArray0 then simTestOk else false, tb, s)

def loadTests : List LoadTest :=
  [{ size := 22256, delays := none },
    { size := 22256, delays := some (scNs 1, scNs 1) },
    { size := 22256, delays := some (scNs 100, scNs 1) },
    { size := 2256, delays := some (scNs 1, scNs 100) },
    { size := 2256, delays := some (scNs 100, scNs 100) },
    { size := 2256, delays := some (scNs 50, scNs 50) }]

def loadAll (W : World σ) (tests : List LoadTest) (st : Bool × Tb × σ) :
    Except Report (Bool × Tb × σ) :=
  tests.foldlM (fun (simTestOk, tb, s) test => tb.loadBoth W simTestOk s test) st

def tbThread (W : World σ) (tb : Tb) (s : σ) : Except Report (Verdict × Tb × σ) := do
  let (tb, s) ← tb.storeBoth W s
  let (simTestOk, tb, s) ← loadAll W loadTests (true, tb, s)
  let verdict := if simTestOk then .simulationPass else .simulationFail
  return (verdict, { tb with runningThreadsCounter := tb.runningThreadsCounter - 1 }, s)

end Tb
