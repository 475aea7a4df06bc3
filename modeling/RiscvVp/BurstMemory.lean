import RiscvVp.Burst
import RiscvVp.Base.CellMemory

/-!
# A burst as an operation on bytes

The C++ packing and the Verilog slicing name the same bits, every response
carries LAST as its request did, and a burst that stays inside the memory
reads or writes one byte per beat at consecutive addresses.
-/

namespace Payload

open StreamServer (replies settle)

section Fields
variable (operation last : BitVec 1) (addr : BitVec 16) (data : Byte)

theorem packReq_getLsbD (n : Nat) : (packReq operation last addr data).getLsbD n =
    if n < 8 then data.getLsbD n else if n - 8 < 16 then addr.getLsbD (n - 8)
    else if n - 24 < 6 then false else if n - 30 < 1 then last.getLsbD (n - 30)
    else operation.getLsbD (n - 31) := by
  change (operation ++ last ++ 0#6 ++ addr ++ data :
    BitVec (1 + 1 + 6 + 16 + 8)).getLsbD n = _
  simp only [BitVec.getLsbD_append, Nat.sub_sub]
  simp

theorem packReq_operation :
    (packReq operation last addr data).getLsbD 31 = operation.getLsbD 0 := by
  rw [packReq_getLsbD]
  simp

theorem packReq_last : (packReq operation last addr data).extractLsb' 30 1 = last := by
  apply BitVec.eq_of_getLsbD_eq
  intro k hk
  obtain rfl : k = 0 := by omega
  rw [BitVec.getLsbD_extractLsb', packReq_getLsbD]
  simp

theorem packReq_addr : (packReq operation last addr data).extractLsb' 8 16 = addr := by
  apply BitVec.eq_of_getLsbD_eq
  intro k hk
  rw [BitVec.getLsbD_extractLsb', packReq_getLsbD, if_neg (by omega), if_pos (by omega),
    Nat.add_sub_cancel_left]
  simp [hk]

theorem packReq_data : (packReq operation last addr data).extractLsb' 0 8 = data :=
  BitVec.extractLsb'_append_eq_right

end Fields

variable {t : Payload} {m : Ram}

theorem reqBeat_write (write : t.command = .write) (m : Ram) (i : Nat) :
    Ram.access m (t.reqBeat i) =
      (Function.update m (t.beatAddr i) (t.data.get i), t.reqBeat i) := by
  have store : (t.reqBeat i).getLsbD 31 = true := by
    rw [reqBeat, packReq_operation]
    simp [operation, write]
  rw [Ram.access, if_pos store]
  simp only [reqBeat, packReq_addr, packReq_data]

theorem reqBeat_read (read : t.command = .read) (m : Ram) (i : Nat) :
    (Ram.access m (t.reqBeat i)).1 = m ∧
      respData (Ram.access m (t.reqBeat i)).2 = m (t.beatAddr i) := by
  have load : ¬ (t.reqBeat i).getLsbD 31 = true := by
    rw [reqBeat, packReq_operation]
    simp [operation, read]
  rw [Ram.access, if_neg load, respData]
  refine ⟨rfl, ?_⟩
  rw [reqBeat, packReq_addr]
  exact BitVec.extractLsb'_append_eq_right

theorem respLast_eq (w : Word) : respLast w = w.header.extractLsb' 22 1 := by
  apply BitVec.eq_of_getLsbD_eq
  intro k hk
  obtain rfl : k = 0 := by omega
  simp [respLast, Word.header]

/-- Every answer of the burst carries the LAST bit of its request. -/
theorem responses_framed (t : Payload) (m : Ram) (k : Nat) (hk : k < (t.responses m).length) :
    t.misframed k (t.responses m)[k] = false := by
  have last : respLast (t.responses m)[k] = if t.isLast k then 1#1 else 0#1 := by
    rw [responses_getElem, respLast_eq, Ram.access_header, ← respLast_eq, respLast, reqBeat,
      packReq_last]
  rw [misframed, last]
  cases t.isLast k <;> decide

theorem receive_status (t : Payload) (i : Nat) (ws : List Word)
    (framed : ∀ k (hk : k < ws.length), t.misframed (i + k) ws[k] = false) :
    (t.receive i ws).responseStatus = t.responseStatus := by
  induction ws generalizing t i with
  | nil => rfl
  | cons w ws ih =>
    have first : t.misframed i w = false := framed 0 (by simp)
    have framing (k : Nat) (v : Word) : (t.acceptResp i w).misframed k v = t.misframed k v := by
      simp [misframed, isLast]
    rw [receive, ih]
    · simp [acceptResp, first]
    · intro k hk
      have next := framed (k + 1) (by simpa using hk)
      rw [framing, show i + 1 + k = i + (k + 1) by omega]
      simpa using next

/-- No LAST check of an undisturbed burst fires. -/
theorem serve_status (t : Payload) (m : Ram) :
    (t.serve m).1.responseStatus = t.responseStatus :=
  t.receive_status 0 _ fun k hk => by
    rw [Nat.zero_add]
    exact t.responses_framed m k hk

theorem receive_bytes (t : Payload) (i : Nat) (ws : List Word)
    (fits : i + ws.length ≤ t.dataLength) :
    (t.receive i ws).data.bytes =
      t.data.bytes.take i ++ ws.map respData ++ t.data.bytes.drop (i + ws.length) := by
  induction ws generalizing t i with
  | nil => simp [receive]
  | cons w ws ih =>
    simp only [List.length_cons] at fits
    have hi : i < t.data.bytes.length := by simp only [dataLength] at fits; omega
    have front : (t.acceptResp i w).data.bytes.take (i + 1) =
        t.data.bytes.take i ++ [respData w] := by
      rw [List.take_succ_eq_append_getElem (by simpa [acceptResp] using hi)]
      simp [acceptResp, List.take_set_of_le (Nat.le_refl i)]
    have back : (t.acceptResp i w).data.bytes.drop (i + 1 + ws.length) =
        t.data.bytes.drop (i + 1 + ws.length) := by
      simp [acceptResp, List.drop_set_of_lt (show i < i + 1 + ws.length by omega)]
    rw [receive, ih _ _ (by rw [acceptResp_dataLength]; omega), front, back]
    simp [Nat.add_assoc, Nat.add_comm 1]

theorem serve_bytes (t : Payload) (m : Ram) :
    (t.serve m).1.data.bytes = (t.responses m).map respData := by
  have all := t.receive_bytes 0 (t.responses m) (by simp)
  rw [serve, all]
  simp [dataLength]

theorem serve_frame (t : Payload) (m : Ram) :
    (t.serve m).1.command = t.command ∧ (t.serve m).1.address = t.address ∧
      (t.serve m).1.extension = t.extension ∧ (t.serve m).1.dataLength = t.dataLength :=
  t.receive_frame 0 _

/-- A read burst leaves the memory alone and returns the byte at each beat's address. -/
theorem serve_read (read : t.command = .read) (m : Ram) : (t.serve m).2 = m ∧
    ∀ i, i < t.dataLength → (t.serve m).1.data.get i = m (t.beatAddr i) := by
  have still (l : List Nat) : settle Ram.access m (l.map t.reqBeat) = m :=
    StreamServer.settle_eq_self _ fun w hw => by
      obtain ⟨i, _, rfl⟩ := List.mem_map.mp hw
      exact (reqBeat_read read m i).1
  refine ⟨still _, fun i hi => ?_⟩
  have hi' : i < (t.responses m).length := by simpa using hi
  have prior : settle Ram.access m (t.beats.take i) = m := by
    rw [beats, ← List.map_take]
    exact still _
  rw [DataBuffer.get_eq_getElem _ (by rw [serve_bytes]; simpa using hi)]
  simp only [serve_bytes, List.getElem_map]
  rw [responses_getElem t m i hi', prior]
  exact (reqBeat_read read m i).2

/-- A write burst returns the caller's bytes and stores each at its beat's address. -/
theorem serve_write (write : t.command = .write) (m : Ram) : (t.serve m).1.data = t.data ∧
    (t.serve m).2 = CellMemory.writeBurst m t.beatAddr t.data.get t.dataLength := by
  constructor
  · refine DataBuffer.ext (List.ext_getElem ?_ fun i hi hi' => ?_)
    · simp [serve_bytes, dataLength]
    · have hlen : i < (t.responses m).length := by simpa [dataLength] using hi'
      simp only [serve_bytes, List.getElem_map]
      rw [responses_getElem t m i hlen, reqBeat_write write, respData, reqBeat, packReq_data,
        DataBuffer.get_eq_getElem _ hi']
  · simp only [serve, settle, beats, CellMemory.writeBurst, List.foldl_map,
      reqBeat_write write]

/-- Inside the memory the address field of beat i is the address itself plus i. -/
theorem InRange.beatAddr_toNat (range : t.InRange) {i : Nat} (hi : i < t.dataLength) :
    (t.beatAddr i).toNat = t.address.toNat + i := by
  simp only [InRange] at range
  rw [beatAddr, BitVec.toNat_setWidth, BitVec.toNat_add, BitVec.toNat_ofNat]
  omega

/-- Inside the memory a write burst stores byte i at the address plus i and nowhere else. -/
theorem InRange.serve_write (range : t.InRange) (write : t.command = .write) (m : Ram) :
    (∀ i, i < t.dataLength → (t.serve m).2 (t.beatAddr i) = t.data.get i) ∧
      ∀ x : BitVec 16, (x.toNat < t.address.toNat ∨ t.address.toNat + t.dataLength ≤ x.toNat) →
        (t.serve m).2 x = m x := by
  rw [(t.serve_write write m).2]
  constructor
  · intro i hi
    refine CellMemory.writeBurst_of_last _ _ _ hi fun j hij hj same => ?_
    have heq := congrArg BitVec.toNat same
    rw [range.beatAddr_toNat hj, range.beatAddr_toNat hi] at heq
    omega
  · intro x hx
    refine CellMemory.writeBurst_of_ne _ _ _ fun i hi same => ?_
    have heq := congrArg BitVec.toNat same
    rw [range.beatAddr_toNat hi] at heq
    omega

end Payload
