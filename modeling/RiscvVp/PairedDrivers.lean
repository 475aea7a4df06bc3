import RiscvVp.Testbench
import RiscvVp.MemModel
import RiscvVp.CallResult
import RiscvVp.Base.LatestWrite

/-!
# A driver pair on the two memories

`drivertl` and `drivemodel` are called with equal vectors, the RTL memory behind
the first socket and the reference memory behind the second. One pair is
described by what it leaves in each cell and in each entry of the sparse array.
-/

/-- The arguments of a pair. -/
structure PairedCall where
  dataVec : List Byte
  nonempty : dataVec ≠ []
  address : BitVec 64
  store : Bool
  delays : Option (Nat × Nat)
  positive : ∀ d ∈ delays, 0 < d.1 ∧ 0 < d.2

/-- What the two calls return, and the vectors after them. -/
structure PairedResult where
  rtlOk : Bool
  rtlVec : List Byte
  modelOk : Bool
  modelVec : List Byte

/-- The testbench module and the memories behind its sockets. -/
structure PairedState (ι : Type) where
  tb : Tb
  platform : Platform ι
  model : Memmodel

namespace PairedCall

variable (c : PairedCall)

/-- The transaction of the pair, with the extension it happens to carry. -/
def payload (ext : Option RtlcontrolTlmExtension) : Payload :=
  Tb.request ext c.dataVec c.address c.store

/-- The bytes that the transaction transports. -/
def dataLength : Nat := c.dataVec.length % 2 ^ 32

/-- The pair passes the bound test of the memories. -/
def accepted : Bool := !(c.payload none).beyond 65535

/-- The cell of the RTL memory for byte i. -/
def cell (i : Nat) : BitVec 16 := (c.address + BitVec.ofNat 64 i).setWidth 16

/-- The byte of a successful store that ends in the cell, in its order in the vector. -/
def leaves (x : BitVec 16) : Option Nat :=
  if c.accepted && c.store then CellMemory.lastAt c.cell c.dataLength x else none

/-- The vector when its transported bytes have been replaced. -/
def refreshed (bytes : Nat → Byte) : List Byte :=
  (List.range c.dataLength).map bytes ++ c.dataVec.drop c.dataLength

def get (i : Nat) : Byte := c.dataVec.getD i 0

def storedCell (x : BitVec 16) : Option Byte := (c.leaves x).map c.get

/-- The byte of a successful store at a position of the vector. -/
def storedIndex (i : Nat) : Option Byte :=
  if c.accepted && c.store && i < c.dataLength then some (c.get i) else none

end PairedCall

namespace PairedState

variable {ι : Type} [DecidableEq ι]

/-- The pair of calls, whatever of its possible answers the RTL memory gives. -/
inductive Step (period : Nat) (me : ι) (c : PairedCall) :
    PairedState ι → PairedResult → PairedState ι → Prop
  | mk {st : PairedState ι} {rtlOk modelOk : Bool} {rtlVec modelVec : List Byte} {tb₁ tb₂ : Tb}
      {k : Platform ι} {s : Memmodel} (call : Call (Platform ι))
      (allowed : ∀ t delay trans delay' k', call t delay = .ok (trans, delay', k') →
        Kernel.Returns period me st.platform t delay trans delay' k')
      (rtl : st.tb.drivertlOverload call c.dataVec c.address c.store c.delays =
        .ok (rtlOk, rtlVec, tb₁, k))
      (model : tb₁.drivemodel st.model.bTransport c.dataVec c.address c.store =
        .ok (modelOk, modelVec, tb₂, s)) :
      Step period me c st ⟨rtlOk, rtlVec, modelOk, modelVec⟩ ⟨tb₂, k, s⟩

/-- No call is under way, and no zero delay hangs at the payload. -/
structure Ready (period : Nat) (st : PairedState ι) : Prop where
  idle : st.platform.Idle period
  positive : st.tb.trans.PositiveDelays

end PairedState

namespace PairedCall

variable {c : PairedCall} {ext : Option RtlcontrolTlmExtension}

theorem dataPtr_get {dataVec : List Byte} {i : Nat} (hi : i < dataVec.length % 2 ^ 32) :
    (Tb.dataPtr dataVec).get i = dataVec.getD i 0 := by
  change (dataVec.take (dataVec.length % 2 ^ 32)).getD i 0 = _
  rw [List.getD_eq_getElem?_getD, List.getD_eq_getElem?_getD, List.getElem?_take, if_pos hi]

theorem payload_dataLength : (c.payload ext).dataLength = c.dataLength :=
  Tb.dataPtr_length c.dataVec

theorem payload_beyond : (c.payload ext).beyond 65535 = !c.accepted := by
  rw [accepted, Bool.not_not]
  rfl

theorem payload_refused (refused : c.accepted = false) : (c.payload ext).beyond 65535 = true := by
  rw [payload_beyond, refused]
  rfl

theorem payload_inside (inside : c.accepted = true) : (c.payload ext).beyond 65535 = false := by
  rw [payload_beyond, inside]
  rfl

theorem payload_serviceable : (c.payload ext).Serviceable := by
  cases h : c.store
  · exact Or.inl (by simp [payload, Tb.request, h])
  · exact Or.inr (by simp [payload, Tb.request, h])

theorem storedCell_of_not (not : ¬ (c.accepted = true ∧ c.store = true)) (x : BitVec 16) :
    c.storedCell x = none := by
  rw [storedCell, leaves, if_neg (by simpa using not)]
  rfl

theorem storedIndex_of_not (not : ¬ (c.accepted = true ∧ c.store = true)) (i : Nat) :
    c.storedIndex i = none := by
  rw [storedIndex, if_neg]
  intro all
  simp only [Bool.and_eq_true] at all
  exact not all.1

/-- A store of the pair on the cells of the RTL memory. -/
theorem writeBurst_storedCell (ext : Option RtlcontrolTlmExtension)
    (accepted : c.accepted = true) (store : c.store = true) (m : Ram) (x : BitVec 16) :
    CellMemory.writeBurst m (c.payload ext).beatAddr (c.payload ext).data.get
      (c.payload ext).dataLength x = (c.storedCell x).getD (m x) := by
  rw [payload_dataLength, CellMemory.writeBurst_eq_lastAt, storedCell, leaves, accepted, store]
  change ((CellMemory.lastAt c.cell c.dataLength x).map _).getD _ =
    ((CellMemory.lastAt c.cell c.dataLength x).map _).getD _
  cases last : CellMemory.lastAt c.cell c.dataLength x with
  | none => rfl
  | some i => exact dataPtr_get (CellMemory.lt_of_lastAt last)

theorem store_storedIndex (accepted : c.accepted = true) (store : c.store = true) (s : Memmodel)
    {i : Nat} (hi : i < 2 ^ 64) :
    (s.store (c.payload ext).data).sparseArray (BitVec.ofNat 64 i) =
      (c.storedIndex i).getD (s.sparseArray (BitVec.ofNat 64 i)) := by
  have length : (c.payload ext).data.bytes.length = c.dataLength := payload_dataLength
  rw [Memmodel.store_sparseArray _ _ hi, length, storedIndex, accepted, store, Bool.and_self,
    Bool.true_and]
  by_cases short : i < c.dataLength
  · rw [if_pos short, if_pos (decide_eq_true short)]
    exact dataPtr_get short
  · rw [if_neg short, if_neg (by simpa using short)]
    rfl

/-- What a memory answers to the transaction of the pair, given the bytes it
would load. -/
structure Answers (c : PairedCall) (ext : Option RtlcontrolTlmExtension) (bytes : Nat → Byte)
    (reply : Payload) : Prop where
  status : reply.responseStatus = if c.accepted then .ok else .genericError
  extension : reply.extension = ext
  loaded : c.accepted = true → c.store = false →
    Tb.writtenBack reply c.dataVec = c.refreshed bytes

theorem Answers.expected {bytes : Nat → Byte} {reply : Payload}
    (answers : c.Answers ext bytes reply) : Tb.Expected reply := by
  rw [Tb.Expected, answers.status]
  cases c.accepted
  · exact Or.inr rfl
  · exact Or.inl rfl

theorem Answers.ok {bytes : Nat → Byte} {reply : Payload} (answers : c.Answers ext bytes reply) :
    (reply.responseStatus == .ok) = c.accepted := by
  rw [answers.status]
  cases c.accepted <;> rfl

theorem payload_read (store : c.store = false) : (c.payload ext).command = .read := by
  rw [payload, Tb.request, store]
  rfl

theorem payload_write (store : c.store = true) : (c.payload ext).command = .write := by
  rw [payload, Tb.request, store]
  rfl

/-- The reference memory answers at once. -/
theorem memmodel_answers (c : PairedCall) (ext : Option RtlcontrolTlmExtension) (s : Memmodel) :
    ∃ reply s',
    s.bTransport (c.payload ext) 0 = .ok (reply, 0, s') ∧
      c.Answers ext (fun i => s.sparseArray (BitVec.ofNat 64 i)) reply ∧
      ∀ i, i < 2 ^ 64 → s'.sparseArray (BitVec.ofNat 64 i) =
        (c.storedIndex i).getD (s.sparseArray (BitVec.ofNat 64 i)) := by
  cases accepted : c.accepted with
  | false =>
    refine ⟨_, _, Memmodel.bTransport_refused (payload_refused accepted), ⟨?_, rfl, ?_⟩,
      fun i _ => ?_⟩
    · rw [accepted]
      rfl
    · rw [accepted]
      rintro ⟨⟩
    · rw [storedIndex_of_not (by simp [accepted])]
      rfl
  | true =>
    have bound : (c.payload ext).beyond Memmodel.modelMaxRamAddress = false :=
      payload_inside accepted
    cases store : c.store with
    | false =>
      refine ⟨_, _, Memmodel.bTransport_read bound (payload_read store), ⟨?_, rfl, ?_⟩,
        fun i _ => ?_⟩
      · rw [accepted]
        rfl
      · intro _ _
        have length : (c.payload ext).data.bytes.length = c.dataLength := payload_dataLength
        change (s.load (c.payload ext).data).bytes ++ _ = _
        rw [Memmodel.load_bytes, length]
        rfl
      · rw [storedIndex_of_not (by simp [store])]
        rfl
    | true =>
      refine ⟨_, _, Memmodel.bTransport_write bound (payload_write store), ⟨?_, rfl, ?_⟩,
        fun i hi => store_storedIndex accepted store s hi⟩
      · rw [accepted]
        rfl
      · rw [store]
        rintro _ ⟨⟩

section Rtl
variable {ι : Type} [DecidableEq ι] {period : Nat} {me : ι} {k₀ k : Platform ι}
  {reply : Payload} {delay : Nat}

/-- The RTL memory gives the bytes of the cells and leaves the stored ones behind. -/
theorem memrtl_answers (idle : k₀.Idle period)
    (returns : Kernel.Returns period me k₀ (c.payload ext) 0 reply delay k) :
    c.Answers ext (fun i => k₀.pipe.ram (c.cell i)) reply ∧ k.Idle period ∧
      ∀ x, k.pipe.ram x = (c.storedCell x).getD (k₀.pipe.ram x) := by
  obtain ⟨run, ret⟩ := returns
  cases accepted : c.accepted with
  | false =>
    have refused : (c.payload ext).beyond Payload.rtlMaxRamAddress = true :=
      payload_refused accepted
    obtain ⟨act, ram, idle'⟩ := Kernel.refused_run idle refused run
    refine ⟨⟨?_, ?_, ?_⟩, idle', fun x => ?_⟩
    · rw [act, accepted]
      rfl
    · rw [act]
      rfl
    · rw [accepted]
      rintro ⟨⟩
    · rw [storedCell_of_not (by simp [accepted])]
      exact congrFun ram x
  | true =>
    have inside : (c.payload ext).beyond Payload.rtlMaxRamAddress = false :=
      payload_inside accepted
    obtain ⟨served, idle'⟩ := Kernel.returned_serve idle payload_serviceable inside run ret
    have trans := congrArg Prod.fst served
    have ram := congrArg Prod.snd served
    simp only at trans ram
    refine ⟨⟨?_, ?_, ?_⟩, idle', fun x => ?_⟩
    · rw [trans, Payload.serve_status, accepted]
      rfl
    · rw [trans, (Payload.serve_frame _ _).2.2.1]
      rfl
    · intro _ store
      have read : (c.payload ext).command = .read := payload_read store
      have loaded := (((c.payload ext).setResponseStatus .ok).serve_read read k₀.pipe.ram).2
      have length := (Payload.serve_frame ((c.payload ext).setResponseStatus .ok)
        k₀.pipe.ram).2.2.2
      have length' : (c.payload ext).dataLength = c.dataLength := payload_dataLength
      rw [trans, Tb.writtenBack, DataBuffer.bytes_eq_map (length.trans length') fun i hi =>
        loaded i (length' ▸ hi)]
      rfl
    · cases store : c.store with
      | false =>
        rw [storedCell_of_not (by simp [store])]
        have read : (c.payload ext).command = .read := payload_read store
        have still := (((c.payload ext).setResponseStatus .ok).serve_read read k₀.pipe.ram).1
        exact congrFun (ram.trans still) x
      | true =>
        have write : (c.payload ext).command = .write := payload_write store
        have stored := (((c.payload ext).setResponseStatus .ok).serve_write write k₀.pipe.ram).2
        exact (congrFun (ram.trans stored) x).trans (writeBurst_storedCell ext accepted store _ x)

end Rtl

end PairedCall

namespace PairedState

variable {ι : Type} [DecidableEq ι] {period : Nat} {me : ι} {c : PairedCall}
  {st st' : PairedState ι} {r : PairedResult}

/-- A pair in terms of the two memories. -/
structure Effect (c : PairedCall) (st : PairedState ι) (r : PairedResult) (st' : PairedState ι) :
    Prop where
  rtlOk : r.rtlOk = c.accepted
  modelOk : r.modelOk = c.accepted
  rtlVec : c.accepted = true → c.store = false →
    r.rtlVec = c.refreshed fun i => st.platform.pipe.ram (c.cell i)
  modelVec : c.accepted = true → c.store = false →
    r.modelVec = c.refreshed fun i => st.model.sparseArray (BitVec.ofNat 64 i)
  ram : ∀ x, st'.platform.pipe.ram x = (c.storedCell x).getD (st.platform.pipe.ram x)
  sparseArray : ∀ i, i < 2 ^ 64 → st'.model.sparseArray (BitVec.ofNat 64 i) =
    (c.storedIndex i).getD (st.model.sparseArray (BitVec.ofNat 64 i))

omit [DecidableEq ι] in
/-- Whether its own delays or those of an earlier call hang at the payload, they are positive. -/
theorem Ready.attached_positive (ready : st.Ready period) :
    (c.payload (st.tb.attached c.delays)).PositiveDelays := by
  intro ext found
  change st.tb.attached c.delays = some ext at found
  cases given : c.delays with
  | none =>
    rw [given] at found
    exact ready.positive ext found
  | some d =>
    rw [given] at found
    cases found
    exact c.positive d (by rw [given]; rfl)

theorem Step.effect (ready : st.Ready period) (step : Step period me c st r st') :
    Effect c st r st' ∧ st'.Ready period := by
  have positive := ready.attached_positive (c := c)
  cases step with
  | mk call allowed rtl model =>
    rw [Tb.drivertlOverload_eq_bind c.positive] at rtl
    cases called : call (c.payload (st.tb.attached c.delays)) 0 with
    | error report =>
      change call (c.payload (st.tb.attached c.delays)) 0 >>= _ = _ at rtl
      rw [called] at rtl
      cases rtl
    | ok answer =>
      obtain ⟨reply, delay, k⟩ := answer
      obtain ⟨first, idle, ram⟩ :=
        PairedCall.memrtl_answers ready.idle (allowed _ _ _ _ _ called)
      change call (c.payload (st.tb.attached c.delays)) 0 >>= _ = _ at rtl
      rw [called, show (Except.ok (reply, delay, k) >>= st.tb.settled c.dataVec) = _ from
        Tb.settled_eq first.expected] at rtl
      cases rtl
      obtain ⟨reply', s, answer, second, sparse⟩ :=
        c.memmodel_answers reply.extension st.model
      rw [Tb.drivemodel_eq answer second.expected] at model
      cases model
      refine ⟨⟨first.ok, second.ok, first.loaded, second.loaded, ram, sparse⟩, idle, ?_⟩
      intro ext found
      change reply'.extension = some ext at found
      rw [second.extension, first.extension] at found
      exact positive ext found

theorem exists_step (me : ι) (rising : 0 < period) (ready : st.Ready period) (c : PairedCall) :
    ∃ r st', Step period me c st r st' := by
  obtain ⟨reply, delay, k, returns⟩ := Kernel.exists_returns me 0 rising ready.idle
    PairedCall.payload_serviceable (ready.attached_positive (c := c))
  have first := (PairedCall.memrtl_answers ready.idle returns).1
  let call : Call (Platform ι) := fun t delay' =>
    if t = c.payload (st.tb.attached c.delays) ∧ delay' = 0 then .ok (reply, delay, k)
    else .error ⟨"", ""⟩
  obtain ⟨reply', s, answer, second, _⟩ :=
    c.memmodel_answers reply.extension st.model
  refine ⟨_, _, .mk call ?_
    (Tb.drivertlOverload_eq c.positive (if_pos ⟨rfl, rfl⟩) first.expected)
    (Tb.drivemodel_eq answer second.expected)⟩
  intro t delay' trans delay'' k' answered
  by_cases here : t = c.payload (st.tb.attached c.delays) ∧ delay' = 0
  · rw [show call t delay' = _ from if_pos here] at answered
    cases answered
    rw [here.1, here.2]
    exact returns
  · rw [show call t delay' = _ from if_neg here] at answered
    cases answered

end PairedState
