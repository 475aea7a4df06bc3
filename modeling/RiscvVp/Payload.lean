import RiscvVp.IoBlock

/-!
# Transactions

The part of the TLM generic payload that the targets and initiators read and
write, with the ignorable extension that asks the RTL memory for a paced burst.
-/

/-- Unsigned 64-bit subtraction of two `sc_time`s; times count units of the
time resolution. -/
def scTimeSub (a b : Nat) : Nat := if b ≤ a then a - b else a + 2 ^ 64 - b

theorem scTimeSub_of_le {a b : Nat} (h : b ≤ a) : scTimeSub a b = a - b := if_pos h

/-- Nanoseconds in units of the time resolution, one picosecond. -/
def scNs (n : Nat) : Nat := 1000 * n

inductive TlmCommand where
  | read
  | write
  | ignore
deriving DecidableEq, Repr

inductive TlmResponseStatus where
  | ok
  | incomplete
  | genericError
  | addressError
  | commandError
  | burstError
  | byteEnableError
deriving DecidableEq, Repr

structure RtlcontrolTlmExtension where
  reqDelay : Nat := 0
  respDelay : Nat := 0
deriving DecidableEq, Repr

/-- The buffer behind the data pointer; `unsigned int` holds its length. -/
structure DataBuffer where
  bytes : List Byte
  fits : bytes.length < 2 ^ 32

namespace DataBuffer

@[ext] theorem ext {d e : DataBuffer} (same : d.bytes = e.bytes) : d = e := by
  cases d
  cases e
  cases same
  rfl

instance : DecidableEq DataBuffer := fun d e =>
  decidable_of_iff (d.bytes = e.bytes) ⟨ext, fun h => h ▸ rfl⟩

def get (d : DataBuffer) (i : Nat) : Byte := d.bytes.getD i 0

def set (d : DataBuffer) (i : Nat) (b : Byte) : DataBuffer :=
  ⟨d.bytes.set i b, by simpa using d.fits⟩

@[simp] theorem set_bytes (d : DataBuffer) (i : Nat) (b : Byte) :
    (d.set i b).bytes = d.bytes.set i b := rfl

theorem get_eq_getElem (d : DataBuffer) {i : Nat} (h : i < d.bytes.length) :
    d.get i = d.bytes[i] := by
  simp [get, h]

theorem get_set_of_ne (d : DataBuffer) {i k : Nat} (b : Byte) (h : i ≠ k) :
    (d.set i b).get k = d.get k := by
  simp [get, List.getD_eq_getElem?_getD, List.getElem?_set_ne h]

theorem bytes_eq_map {d : DataBuffer} {n : Nat} {f : Nat → Byte} (length : d.bytes.length = n)
    (get : ∀ i, i < n → d.get i = f i) : d.bytes = (List.range n).map f := by
  subst length
  apply List.ext_getElem
  · simp
  · intro i hi _
    rw [← d.get_eq_getElem hi, get i hi]
    simp

theorem one_fits : 1 < 2 ^ 32 := by decide

theorem two_fits : 2 < 2 ^ 32 := by decide

end DataBuffer

structure Payload where
  command : TlmCommand
  address : BitVec 64
  data : DataBuffer
  responseStatus : TlmResponseStatus
  extension : Option RtlcontrolTlmExtension
deriving DecidableEq

namespace Payload

def dataLength (t : Payload) : Nat := t.data.bytes.length

theorem dataLength_lt (t : Payload) : t.dataLength < 2 ^ 32 := t.data.fits

def setResponseStatus (t : Payload) (s : TlmResponseStatus) : Payload :=
  { t with responseStatus := s }

/-- Reads and writes are the commands the targets serve. -/
def Serviceable (t : Payload) : Prop := t.command = .read ∨ t.command = .write

/-- The delays that the initiator lets through. -/
def PositiveDelays (t : Payload) : Prop :=
  ∀ ext, t.extension = some ext → 0 < ext.reqDelay ∧ 0 < ext.respDelay

/-- The bytes lie below the size of the memories, counted without wrap-around. -/
def InRange (t : Payload) : Prop := t.address.toNat + t.dataLength ≤ 65536

/-- The bound test of both memories, in 64-bit arithmetic. -/
def beyond (t : Payload) (maxRamAddress : BitVec 64) : Bool :=
  maxRamAddress < t.address + BitVec.ofNat 64 t.dataLength - 1

/-- The last byte passes 2^64 and lands inside the memories again. -/
def WrapsIntoRange (t : Payload) : Prop :=
  2 ^ 64 < t.address.toNat + t.dataLength ∧
    t.address.toNat + t.dataLength ≤ 2 ^ 64 + 65536

theorem beyond_eq_false_iff (t : Payload) (nonempty : 0 < t.dataLength) :
    t.beyond 65535 = false ↔ t.InRange ∨ t.WrapsIntoRange := by
  have haddr := t.address.isLt
  have hlen := t.dataLength_lt
  have last : (t.address + BitVec.ofNat 64 t.dataLength - 1).toNat =
      (t.address.toNat + t.dataLength - 1) % 2 ^ 64 := by
    rw [BitVec.toNat_sub, BitVec.toNat_add, BitVec.toNat_ofNat]
    change (2 ^ 64 - 1 + _) % _ = _
    omega
  simp only [beyond, decide_eq_false_iff_not, BitVec.lt_def, last, InRange, WrapsIntoRange]
  change ¬ 65535 < _ ↔ _
  omega

theorem InRange.not_wraps {t : Payload} (h : t.InRange) : ¬ t.WrapsIntoRange := by
  intro wraps
  have := wraps.1
  simp only [InRange] at h
  omega

theorem InRange.beyond_eq_false {t : Payload} (h : t.InRange) (nonempty : 0 < t.dataLength) :
    t.beyond 65535 = false :=
  (t.beyond_eq_false_iff nonempty).mpr (Or.inl h)

end Payload
