import RiscvVp.BurstMemory
import RiscvVp.Transport

/-!
# The reference memory

`memmodel_module` answers a transaction at once from a sparse array. The array
is indexed as the source does it: by the position in the buffer.
-/

/-- Entries that the map does not hold read as zero. -/
structure Memmodel where
  sparseArray : BitVec 64 → Byte

namespace Memmodel

def modelMaxRamAddress : BitVec 64 := 65535

def empty : Memmodel := ⟨fun _ => 0⟩

/-- The loop of a load: `data[i] = sparse_array[i]`. -/
def load (s : Memmodel) (data : DataBuffer) : DataBuffer :=
  (List.range data.bytes.length).foldl
    (fun data i => data.set i (s.sparseArray (BitVec.ofNat 64 i))) data

/-- The loop of a store: `sparse_array[i] = data[i]`. -/
def store (s : Memmodel) (data : DataBuffer) : Memmodel :=
  ⟨CellMemory.writeBurst s.sparseArray (BitVec.ofNat 64) data.get data.bytes.length⟩

def bTransport (s : Memmodel) (trans : Payload) (delay : Nat) :
    Except Report (Payload × Nat × Memmodel) :=
  if trans.beyond modelMaxRamAddress then
    .ok (trans.setResponseStatus .genericError, delay, s)
  else
    match trans.command with
    | .read =>
      .ok ({ trans.setResponseStatus .ok with data := s.load trans.data }, delay + 0, s)
    | .write => .ok (trans.setResponseStatus .ok, delay + 0, s.store trans.data)
    | .ignore => .error ⟨"Memmodel_Module", "Command ERROR."⟩

section Loops
variable (s : Memmodel) (data : DataBuffer)

theorem load_bytes : (s.load data).bytes =
    (List.range data.bytes.length).map fun i => s.sparseArray (BitVec.ofNat 64 i) := by
  have upto (n : Nat) (hn : n ≤ data.bytes.length) :
      ((List.range n).foldl (fun data i => data.set i (s.sparseArray (BitVec.ofNat 64 i)))
        data).bytes =
        (List.range n).map (fun i => s.sparseArray (BitVec.ofNat 64 i)) ++ data.bytes.drop n := by
    induction n with
    | zero => rfl
    | succ n ih =>
      have here : (data.bytes.drop n).set 0 (s.sparseArray (BitVec.ofNat 64 n)) =
          s.sparseArray (BitVec.ofNat 64 n) :: data.bytes.drop (n + 1) := by
        rw [List.drop_eq_getElem_cons hn, List.set_cons_zero]
      simp only [List.range_succ, List.foldl_append, List.map_append, List.foldl_cons,
        List.foldl_nil, List.map_cons, List.map_nil, DataBuffer.set_bytes, ih (by omega)]
      rw [List.set_append_right _ _ (by simp), List.length_map, List.length_range, Nat.sub_self,
        here, List.append_assoc, List.singleton_append]
  rw [load, upto _ (Nat.le_refl _), List.drop_length, List.append_nil]

theorem load_get {i : Nat} (hi : i < data.bytes.length) :
    (s.load data).get i = s.sparseArray (BitVec.ofNat 64 i) := by
  rw [DataBuffer.get_eq_getElem _ (by rw [load_bytes]; simpa using hi)]
  simp [load_bytes]

theorem store_sparseArray {i : Nat} (hi : i < 2 ^ 64) :
    (s.store data).sparseArray (BitVec.ofNat 64 i) =
      if i < data.bytes.length then data.get i else s.sparseArray (BitVec.ofNat 64 i) := by
  have fits := data.fits
  have apart {j k : Nat} (hj : j < 2 ^ 64) (hk : k < 2 ^ 64)
      (same : BitVec.ofNat 64 j = BitVec.ofNat 64 k) : j = k := by
    have values := congrArg BitVec.toNat same
    rwa [BitVec.toNat_ofNat, BitVec.toNat_ofNat, Nat.mod_eq_of_lt hj, Nat.mod_eq_of_lt hk]
      at values
  by_cases covered : i < data.bytes.length
  · rw [if_pos covered]
    apply CellMemory.writeBurst_of_last _ _ _ covered
    intro j hij hj same
    have := apart (by omega) hi same
    omega
  · rw [if_neg covered]
    apply CellMemory.writeBurst_of_ne
    intro j hj same
    have := apart (by omega) hi same
    omega

end Loops

variable {s : Memmodel} {t : Payload} {delay : Nat}

theorem bTransport_refused (refused : t.beyond modelMaxRamAddress = true) :
    s.bTransport t delay = .ok (t.setResponseStatus .genericError, delay, s) := by
  simp [bTransport, refused]

theorem bTransport_read (accepted : t.beyond modelMaxRamAddress = false)
    (read : t.command = .read) : s.bTransport t delay =
      .ok ({ t.setResponseStatus .ok with data := s.load t.data }, delay, s) := by
  simp [bTransport, accepted, read]

theorem bTransport_write (accepted : t.beyond modelMaxRamAddress = false)
    (write : t.command = .write) :
    s.bTransport t delay = .ok (t.setResponseStatus .ok, delay, s.store t.data) := by
  simp [bTransport, accepted, write]

variable (s delay) in
/-- A load or a store always returns, and its status tells whether it passed the bound test. -/
theorem bTransport_status (serviceable : t.Serviceable) :
    ∃ trans s', s.bTransport t delay = .ok (trans, delay, s') ∧
      trans.responseStatus =
        (if t.beyond modelMaxRamAddress then .genericError else .ok) := by
  cases outside : t.beyond modelMaxRamAddress with
  | true => exact ⟨_, _, bTransport_refused outside, rfl⟩
  | false =>
    rcases serviceable with read | write
    · exact ⟨_, _, bTransport_read outside read, rfl⟩
    · exact ⟨_, _, bTransport_write outside write, rfl⟩

end Memmodel
