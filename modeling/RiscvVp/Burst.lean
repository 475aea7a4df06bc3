import RiscvVp.Transport
import RiscvVp.PipelineServer

/-!
# One burst between lock and unlock

Between taking and giving back the mutex a call is the only user of the two
queues. The invariant counts the beats it pushed and the responses it popped:
what the pipeline still owes is the part of its own answers in between, and its
buffer holds answers below the second count and the caller's bytes from there on.
-/

namespace Payload

open StreamServer (replies settle)

/-- The request words of the burst, in order. -/
def beats (t : Payload) : List Word := (List.range t.dataLength).map t.reqBeat

@[simp] theorem beats_length (t : Payload) : t.beats.length = t.dataLength := by simp [beats]

theorem beats_getElem (t : Payload) (k : Nat) (hk : k < t.beats.length) :
    t.beats[k] = t.reqBeat k := by simp [beats]

/-- The answers a memory gives to the burst when nothing comes in between. -/
def responses (t : Payload) (m : Ram) : List Word := replies Ram.access m t.beats

@[simp] theorem responses_length (t : Payload) (m : Ram) :
    (t.responses m).length = t.dataLength := by simp [responses]

theorem responses_getElem (t : Payload) (m : Ram) (k : Nat) (hk : k < (t.responses m).length) :
    (t.responses m)[k] = (Ram.access (settle Ram.access m (t.beats.take k)) (t.reqBeat k)).2 := by
  rw [← beats_getElem t k (by simpa using hk)]
  exact StreamServer.replies_getElem ..

/-- The payload after responses i, i+1, ... have been accepted. -/
def receive (t : Payload) : Nat → List Word → Payload
  | _, [] => t
  | i, w :: ws => receive (t.acceptResp i w) (i + 1) ws

section AcceptResp
variable (t : Payload) (i : Nat) (w : Word)

@[simp] theorem acceptResp_command : (t.acceptResp i w).command = t.command := rfl

@[simp] theorem acceptResp_address : (t.acceptResp i w).address = t.address := rfl

@[simp] theorem acceptResp_extension : (t.acceptResp i w).extension = t.extension := rfl

@[simp] theorem acceptResp_dataLength : (t.acceptResp i w).dataLength = t.dataLength := by
  simp [acceptResp, dataLength]

theorem acceptResp_get_of_ne {k : Nat} (h : i ≠ k) :
    (t.acceptResp i w).data.get k = t.data.get k := DataBuffer.get_set_of_ne _ _ h

end AcceptResp

/-- Responses change the buffer and the status only, and the buffer keeps its length. -/
theorem receive_frame (t : Payload) (i : Nat) (ws : List Word) :
    (t.receive i ws).command = t.command ∧ (t.receive i ws).address = t.address ∧
      (t.receive i ws).extension = t.extension ∧
      (t.receive i ws).dataLength = t.dataLength := by
  induction ws generalizing t i with
  | nil => exact ⟨rfl, rfl, rfl, rfl⟩
  | cons w ws ih => simpa [receive] using ih (t.acceptResp i w) (i + 1)

theorem receive_get_of_le (t : Payload) {i k : Nat} (ws : List Word) (h : i + ws.length ≤ k) :
    (t.receive i ws).data.get k = t.data.get k := by
  induction ws generalizing t i with
  | nil => rfl
  | cons w ws ih =>
    simp only [List.length_cons] at h
    rw [receive, ih _ (by omega), acceptResp_get_of_ne _ _ _ (by omega)]

theorem receive_snoc (t : Payload) (i : Nat) (ws : List Word) (w : Word) :
    t.receive i (ws ++ [w]) = (t.receive i ws).acceptResp (i + ws.length) w := by
  induction ws generalizing t i with
  | nil => rfl
  | cons v ws ih =>
    rw [List.cons_append, receive, receive, ih, List.length_cons]
    congr 1
    omega

/-- A beat not answered yet is still packed from the caller's byte. -/
theorem receive_reqBeat (t : Payload) {k : Nat} (ws : List Word) (h : ws.length ≤ k) :
    (t.receive 0 ws).reqBeat k = t.reqBeat k := by
  obtain ⟨hcmd, haddr, _, hlen⟩ := t.receive_frame 0 ws
  have hop : (t.receive 0 ws).operation = t.operation := by rw [operation, hcmd, operation]
  have hlast : (t.receive 0 ws).isLast k = t.isLast k := by rw [isLast, hlen, isLast]
  have hget := t.receive_get_of_le ws (show 0 + ws.length ≤ k by omega)
  rw [reqBeat, hop, hlast, beatAddr, haddr, hget, reqBeat, beatAddr]

/-- What a call returns and leaves in a memory when it runs undisturbed. -/
def serve (t : Payload) (m : Ram) : Payload × Ram :=
  (t.receive 0 (t.responses m), settle Ram.access m t.beats)

/-- The burst t met the memory m, pushed k beats and popped j responses. -/
structure Stage (t : Payload) (m : Ram) (p : Pipe) (trans : Payload) (k j : Nat) : Prop where
  popped_le : j ≤ k
  pushed_le : k ≤ t.dataLength
  settled : p.settled = settle Ram.access m (t.beats.take k)
  answers : p.answers = ((t.responses m).take k).drop j
  trans_eq : trans = t.receive 0 ((t.responses m).take j)

variable {t trans : Payload} {m : Ram} {p q : Pipe} {k j : Nat} {w : Word}

theorem Stage.start (idle : p.answers = []) (settled : p.settled = m) : Stage t m p t 0 0 :=
  ⟨Nat.le_refl 0, Nat.zero_le _, by simpa using settled, by simpa using idle, rfl⟩

theorem Stage.dataLength (stage : Stage t m p trans k j) : trans.dataLength = t.dataLength := by
  rw [stage.trans_eq]
  exact (t.receive_frame 0 _).2.2.2

theorem Stage.extension (stage : Stage t m p trans k j) : trans.extension = t.extension := by
  rw [stage.trans_eq]
  exact (t.receive_frame 0 _).2.2.1

theorem Stage.reqBeat (stage : Stage t m p trans k j) : trans.reqBeat k = t.reqBeat k := by
  rw [stage.trans_eq]
  exact t.receive_reqBeat _ (by have := stage.popped_le; simp; omega)

theorem Stage.posedge (stage : Stage t m p trans k j) (valid : p.Valid) :
    Stage t m p.posedge trans k j :=
  ⟨stage.popped_le, stage.pushed_le, by rw [Pipe.posedge_settled valid, stage.settled],
    by rw [Pipe.posedge_answers valid, stage.answers], stage.trans_eq⟩

theorem Stage.releaseReset (stage : Stage t m p trans k j) (cleared : p.Cleared) :
    Stage t m p.releaseReset trans k j := by
  obtain ⟨hans, hset⟩ := Pipe.releaseReset_answers cleared
  exact ⟨stage.popped_le, stage.pushed_le, by rw [hset, stage.settled],
    by rw [hans, stage.answers], stage.trans_eq⟩

theorem Stage.push (stage : Stage t m p trans k j) (more : k < t.dataLength)
    (h : p.nbWrite (t.reqBeat k) = some q) : Stage t m q trans (k + 1) j := by
  obtain ⟨hans, hset⟩ := Pipe.nbWrite_answers h
  have hle := stage.popped_le
  have beat : t.beats.take (k + 1) = t.beats.take k ++ [t.reqBeat k] := by
    rw [List.take_succ_eq_append_getElem (by simpa using more), beats_getElem]
  refine ⟨by omega, more, ?_, ?_, stage.trans_eq⟩
  · rw [hset, stage.settled, beat, StreamServer.settle_append]
    rfl
  · rw [hans, stage.answers, stage.settled, ← responses_getElem t m k (by simpa using more),
      List.take_succ_eq_append_getElem (by simpa using more),
      List.drop_append_of_le_length (by simp; omega)]

theorem Stage.pop (stage : Stage t m p trans k j) (h : p.nbRead = some (w, q)) :
    j < k ∧ Stage t m q (trans.acceptResp j w) k (j + 1) := by
  obtain ⟨hans, hset⟩ := Pipe.nbRead_answers h
  have hlen := stage.pushed_le
  have hle := stage.popped_le
  rw [stage.answers] at hans
  have hjk : j < k := by
    have owed := congrArg List.length hans
    simp only [List.length_drop, List.length_take, responses_length, List.length_cons] at owed
    omega
  have hj : j < ((t.responses m).take k).length := by simp; omega
  rw [List.drop_eq_getElem_cons hj, List.cons.injEq] at hans
  have received : (t.responses m).take (j + 1) = (t.responses m).take j ++ [w] := by
    rw [List.take_succ_eq_append_getElem (by simp; omega), ← hans.1, List.getElem_take]
  refine ⟨hjk, by omega, hlen, by rw [hset, stage.settled], hans.2.symm, ?_⟩
  rw [received, receive_snoc, stage.trans_eq, List.length_take, responses_length,
    Nat.min_eq_left (by omega), Nat.zero_add]

/-- A beat on its way means an answer owed, and the other way round. -/
theorem Stage.answers_length (stage : Stage t m p trans k j) : p.answers.length = k - j := by
  have := stage.pushed_le
  rw [stage.answers, List.length_drop, List.length_take, responses_length]
  omega

end Payload

open Payload (Stage)

/-- Where the call stands tells how far its burst has come. -/
def Pc.At (t : Payload) (k j : Nat) : Pc → Prop
  | .write i reqVec => i = k ∧ i = j ∧ i < t.dataLength ∧ reqVec = t.reqBeat i
  | .read i => i = j ∧ k = i + 1
  | .wait ext l _ => t.extension = some ext ∧ l.currReq = k ∧ l.currResp = j ∧
      j < t.dataLength ∧ (l.reqDataSet = true → k < t.dataLength ∧ l.reqVec = t.reqBeat k)
  | .unlock => k = t.dataLength ∧ j = t.dataLength
  | _ => False

/-- The call entered with payload t, met the memory m and owns the pipeline. -/
def Activation.Holding (t : Payload) (m : Ram) (p : Pipe) (a : Activation) : Prop :=
  ∃ k j, Stage t m p a.trans k j ∧ a.pc.At t k j

namespace Activation

variable {t : Payload} {m : Ram} {p : Pipe} {a b : Activation}

theorem Holding.pc_ne (h : Holding t m p a) : a.pc ≠ .lock ∧ a.pc ≠ .returned := by
  obtain ⟨_, _, _, hpc⟩ := h
  constructor <;> intro pc <;> rw [pc] at hpc <;> exact hpc

theorem Holding.posedge (h : Holding t m p a) (valid : p.Valid) : Holding t m p.posedge a := by
  obtain ⟨k, j, stage, hpc⟩ := h
  exact ⟨k, j, stage.posedge valid, hpc⟩

theorem Holding.releaseReset (h : Holding t m p a) (cleared : p.Cleared) :
    Holding t m p.releaseReset a := by
  obtain ⟨k, j, stage, hpc⟩ := h
  exact ⟨k, j, stage.releaseReset cleared, hpc⟩

theorem blockingHead_holding {i : Nat} (stage : Stage t m p a.trans i i) :
    Holding t m p (a.blockingHead i) := by
  have hle := stage.pushed_le
  rw [blockingHead, stage.dataLength]
  split
  · rename_i more
    exact ⟨i, i, stage, rfl, rfl, more, stage.reqBeat⟩
  · exact ⟨i, i, stage, by omega, by omega⟩

theorem pollingHead_holding {now : Nat} {ext : RtlcontrolTlmExtension} {l : Poll}
    (stage : Stage t m p a.trans l.currReq l.currResp) (hext : t.extension = some ext)
    (cached : l.reqDataSet = true →
      l.currReq < t.dataLength ∧ l.reqVec = t.reqBeat l.currReq) :
    Holding t m p (a.pollingHead now ext l) := by
  have hle := stage.popped_le
  have hlen := stage.pushed_le
  rw [pollingHead, stage.dataLength]
  split
  · rename_i more
    exact ⟨_, _, stage, hext, rfl, rfl, more, cached⟩
  · exact ⟨_, _, stage, by omega, by omega⟩

theorem burst_holding {now : Nat} (idle : p.answers = []) (settled : p.settled = m) :
    Holding a.trans m p (a.burst now) := by
  have stage : Stage a.trans m p a.trans 0 0 := Stage.start idle settled
  rw [burst]
  cases hext : a.trans.extension with
  | none => exact blockingHead_holding stage
  | some ext => exact pollingHead_holding stage hext (by rintro ⟨⟩)

/-- The request slot pushes the next beat of the burst or leaves it packed. -/
theorem requestSlot_stage {l : Poll} {now : Nat} {ext : RtlcontrolTlmExtension}
    {trans : Payload} (stage : Stage t m p trans l.currReq l.currResp)
    (cached : l.reqDataSet = true → l.currReq < t.dataLength ∧ l.reqVec = t.reqBeat l.currReq)
    {l' : Poll} {q : Pipe} (slot : l.requestSlot trans ext now p = (l', q)) :
    Stage t m q trans l'.currReq l'.currResp ∧
      (l'.reqDataSet = true → l'.currReq < t.dataLength ∧ l'.reqVec = t.reqBeat l'.currReq) ∧
      l'.currResp = l.currResp := by
  have packed : l.packed trans = { l with reqVec := (l.packed trans).reqVec, reqDataSet := true } ∧
      (l.currReq < t.dataLength → (l.packed trans).reqVec = t.reqBeat l.currReq) := by
    rw [Poll.packed]
    split
    · rename_i set
      exact ⟨by rw [← set], fun _ => (cached set).2⟩
    · exact ⟨rfl, fun _ => stage.reqBeat⟩
  rw [Poll.requestSlot] at slot
  split at slot
  · simp only [Poll.tryRequest, stage.dataLength] at slot
    split at slot
    · rename_i more
      cases hwrite : p.nbWrite (l.packed trans).reqVec with
      | none =>
        rw [hwrite] at slot
        cases slot
        rw [packed.1]
        exact ⟨stage, fun _ => ⟨more, packed.2 more⟩, rfl⟩
      | some r =>
        rw [hwrite] at slot
        cases slot
        rw [packed.2 more] at hwrite
        rw [packed.1]
        exact ⟨stage.push more hwrite, by rintro ⟨⟩, rfl⟩
    · cases slot
      exact ⟨stage, cached, rfl⟩
  · cases slot
    exact ⟨stage, cached, rfl⟩

/-- The response slot pops the oldest answer of the burst or finds none. -/
theorem responseSlot_stage {l : Poll} {now : Nat} {ext : RtlcontrolTlmExtension}
    {trans : Payload} (stage : Stage t m p trans l.currReq l.currResp)
    {l' : Poll} {trans' : Payload} {q : Pipe}
    (slot : l.responseSlot trans ext now p = (l', trans', q)) :
    Stage t m q trans' l'.currReq l'.currResp ∧ l'.currReq = l.currReq ∧
      l'.reqDataSet = l.reqDataSet ∧ l'.reqVec = l.reqVec := by
  rw [Poll.responseSlot] at slot
  split at slot
  · simp only [Poll.tryResponse] at slot
    cases hread : p.nbRead with
    | none =>
      rw [hread] at slot
      cases slot
      exact ⟨stage, rfl, rfl, rfl⟩
    | some r =>
      rw [hread] at slot
      cases slot
      exact ⟨(stage.pop hread).2, rfl, rfl, rfl⟩
  · cases slot
    exact ⟨stage, rfl, rfl, rfl⟩

theorem poll_holding {now : Nat} {ext : RtlcontrolTlmExtension} {l : Poll}
    (stage : Stage t m p a.trans l.currReq l.currResp) (hext : t.extension = some ext)
    (cached : l.reqDataSet = true → l.currReq < t.dataLength ∧ l.reqVec = t.reqBeat l.currReq) :
    Holding t m (a.poll now ext l p).2 (a.poll now ext l p).1 := by
  cases hreq : l.requestSlot a.trans ext now p with | mk l' q =>
  cases hresp : l'.responseSlot a.trans ext now q with | mk l'' r =>
  obtain ⟨stage', cached', _⟩ := requestSlot_stage stage cached hreq
  obtain ⟨stage'', hcurr, hset, hvec⟩ := responseSlot_stage stage' hresp
  simp only [poll, hreq, hresp]
  refine pollingHead_holding stage'' hext ?_
  rw [hcurr, hset, hvec]
  exact cached'

variable {ι : Type} [DecidableEq ι] {me : ι} {now : Nat} {M N : Memrtl ι}

/-- A call that goes on still owns the pipeline, unless it was about to unlock. -/
theorem resume_holding (h : Holding t m M.pipe a) (step : a.resume me now M = some (b, N))
    (busy : a.pc ≠ .unlock) : Holding t m N.pipe b ∧ N.rtlAccess = M.rtlAccess := by
  obtain ⟨k, j, stage, hpc⟩ := h
  cases pc : a.pc with
  | lock => rw [pc] at hpc; exact hpc.elim
  | write i reqVec =>
    rw [pc] at hpc
    obtain ⟨rfl, rfl, more, rfl⟩ := hpc
    simp only [resume, pc, Option.map_eq_some_iff, Prod.mk.injEq] at step
    obtain ⟨q, hwrite, rfl, rfl⟩ := step
    exact ⟨⟨_, _, stage.push more hwrite, rfl, rfl⟩, rfl⟩
  | read i =>
    rw [pc] at hpc
    obtain ⟨rfl, rfl⟩ := hpc
    simp only [resume, pc, Option.map_eq_some_iff, Prod.mk.injEq] at step
    obtain ⟨r, hread, rfl, rfl⟩ := step
    exact ⟨blockingHead_holding (stage.pop hread).2, rfl⟩
  | wait ext l wake =>
    rw [pc] at hpc
    obtain ⟨hext, rfl, rfl, _, cached⟩ := hpc
    simp only [resume, pc, Option.ite_none_right_eq_some, Option.some.injEq, Prod.mk.injEq] at step
    obtain ⟨_, rfl, rfl⟩ := step
    exact ⟨poll_holding stage hext cached, rfl⟩
  | unlock => exact absurd pc busy
  | returned => rw [pc] at hpc; exact hpc.elim
  | raised r => rw [pc] at hpc; exact hpc.elim

/-- A call about to unlock has all its answers and leaves none behind. -/
theorem Holding.finished (h : Holding t m p a) (pc : a.pc = .unlock) :
    p.answers = [] ∧ (a.trans, p.settled) = t.serve m := by
  obtain ⟨k, j, stage, hpc⟩ := h
  rw [pc] at hpc
  obtain ⟨rfl, rfl⟩ := hpc
  have all : (t.responses m).take t.dataLength = t.responses m := by
    rw [List.take_of_length_le (by simp)]
  have sent : t.beats.take t.dataLength = t.beats := by rw [List.take_of_length_le (by simp)]
  refine ⟨List.eq_nil_of_length_eq_zero (by rw [stage.answers_length]; omega), ?_⟩
  rw [stage.trans_eq, stage.settled, all, sent]
  rfl

end Activation
