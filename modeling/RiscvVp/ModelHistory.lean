import RiscvVp.MemoryMap
import RiscvVp.Base.LatestWrite

/-!
# Histories of the reference memory

What a load returns after any sequence of transactions, compared with a memory
of bytes. The sparse array is indexed by the position in the buffer, so the
address of a transaction decides nothing: a load sees the latest store that is
long enough, wherever it went.
-/

open LatestWrite (latest)

/-- What a transaction shows of itself besides its data. -/
structure Footprint where
  command : TlmCommand
  address : Nat
  length : Nat

namespace Footprint

/-- The store covers the address. -/
def covers (f : Footprint) (x : Nat) : Bool :=
  f.command = .write && f.address ≤ x && x < f.address + f.length

/-- The store has a byte at the position. -/
def reaches (f : Footprint) (i : Nat) : Bool := f.command = .write && i < f.length

theorem covers_iff {f : Footprint} {x : Nat} : f.covers x = true ↔
    f.command = .write ∧ f.address ≤ x ∧ x < f.address + f.length := by
  simp [covers, and_assoc]

theorem reaches_iff {f : Footprint} {i : Nat} :
    f.reaches i = true ↔ f.command = .write ∧ i < f.length := by
  simp [reaches]

/-- For each byte of each load, the latest earlier store that covers its address
or is long enough to have a byte at its position starts at the load's address. -/
def BaseMatched (fs : List Footprint) : Prop :=
  ∀ pre f post, fs = pre ++ f :: post → f.command = .read → ∀ i, i < f.length →
    ∀ w, pre.reverse.find? (fun w => w.covers (f.address + i) || w.reaches i) = some w →
      w.address = f.address

end Footprint

namespace Payload

def footprint (t : Payload) : Footprint := ⟨t.command, t.address.toNat, t.dataLength⟩

/-- The byte a transaction stores at an address, if it is a store that covers it. -/
def storedAt (x : Nat) (t : Payload) : Option Byte :=
  if t.footprint.covers x then some (t.data.get (x - t.address.toNat)) else none

/-- The byte of a store at a position of its buffer. -/
def storedIndex (i : Nat) (t : Payload) : Option Byte :=
  if t.footprint.reaches i then some (t.data.get i) else none

@[simp] theorem storedAt_isSome (x : Nat) (t : Payload) :
    (t.storedAt x).isSome = t.footprint.covers x := by
  rw [storedAt]
  cases t.footprint.covers x <;> rfl

@[simp] theorem storedIndex_isSome (i : Nat) (t : Payload) :
    (t.storedIndex i).isSome = t.footprint.reaches i := by
  rw [storedIndex]
  cases t.footprint.reaches i <;> rfl

end Payload

/-- A transaction on the reference memory, issued at its socket or at the uncore. -/
inductive Access where
  | direct (trans : Payload)
  | window (trans : Payload)

namespace Access

variable {B : Type} (ucfg : Ucfg) (S : SpikeBus B) (bus : B)

/-- The transaction as the memory sees it. -/
def payload : Access → Payload
  | .direct t => t
  | .window t => Uncore.translate ucfg t

def issue (s : Memmodel) : Access → Except Report (Payload × Memmodel)
  | .direct t => (s.bTransport t 0).map fun r => (r.1, r.2.2)
  | .window t =>
    match Uncore.bTransport ucfg S bus t 0 with
    | .answered reply _ _ => .ok (reply, s)
    | .forwarded t delay => (s.bTransport t delay).map fun r => (r.1, r.2.2)
    | .raised r => .error r

/-- The memory after a sequence of transactions, from the start of the simulation. -/
def after (accesses : List Access) : Except Report Memmodel :=
  accesses.foldlM (fun s a => (a.issue ucfg S bus s).map Prod.snd) Memmodel.empty

/-- A load or a store in range; at the uncore its address decodes to the window. -/
structure Fits (a : Access) : Prop where
  serviceable : (a.payload ucfg).Serviceable
  nonempty : 0 < (a.payload ucfg).dataLength
  range : (a.payload ucfg).InRange
  decode : ∀ t, a = .window t → Uncore.tlmAddressDecode ucfg S t.address = .extram

/-- What a transaction leaves at a position of its buffer when it is issued
after the others. -/
def returned (pre : List Access) (a : Access) (i : Nat) : Except Report Byte := do
  let s ← after ucfg S bus pre
  let r ← a.issue ucfg S bus s
  return r.1.data.get i

/-- The address of a byte of the buffer in the memory. -/
def target (a : Access) (i : Nat) : Nat := (a.payload ucfg).address.toNat + i

/-- The memory is one of bytes over the sequence: a load returns what was stored
last at each of its addresses, and two loads of an address differ only when a
store between them covers it. -/
structure ByteAddressed (accesses : List Access) : Prop where
  loads : ∀ pre a post, accesses = pre ++ a :: post → (a.payload ucfg).command = .read →
    ∀ i, i < (a.payload ucfg).dataLength → returned ucfg S bus pre a i =
      .ok (latest (Payload.storedAt (a.target ucfg i)) 0 (pre.map (payload ucfg)).reverse)
  frame : ∀ pre a mid b post, accesses = pre ++ a :: (mid ++ b :: post) →
    (a.payload ucfg).command = .read → (b.payload ucfg).command = .read →
    ∀ i j, i < (a.payload ucfg).dataLength → j < (b.payload ucfg).dataLength →
      a.target ucfg i = b.target ucfg j →
      (∀ w ∈ mid, (w.payload ucfg).footprint.covers (b.target ucfg j) = false) →
      returned ucfg S bus (pre ++ a :: mid) b j = returned ucfg S bus pre a i

variable {ucfg : Ucfg} {S : SpikeBus B} {bus : B} {s : Memmodel} {a : Access}

variable (bus s) in
/-- Both ways lead to the memory's own `b_transport`. -/
theorem issue_eq (fits : a.Fits ucfg S) : ∃ delay, a.issue ucfg S bus s =
    (s.bTransport (a.payload ucfg) delay).map fun r => (r.1, r.2.2) := by
  cases a with
  | direct t => exact ⟨0, rfl⟩
  | window t =>
    refine ⟨0 + scNs 7, ?_⟩
    simp only [issue, Uncore.bTransport, fits.decode t rfl]
    rfl

theorem issue_read (fits : a.Fits ucfg S) (read : (a.payload ucfg).command = .read) :
    a.issue ucfg S bus s = .ok ({ (a.payload ucfg).setResponseStatus .ok with
      data := s.load (a.payload ucfg).data }, s) := by
  obtain ⟨delay, same⟩ := issue_eq bus s fits
  rw [same, Memmodel.bTransport_read (fits.range.beyond_eq_false fits.nonempty) read]
  rfl

theorem issue_write (fits : a.Fits ucfg S) (write : (a.payload ucfg).command = .write) :
    a.issue ucfg S bus s = .ok ((a.payload ucfg).setResponseStatus .ok,
      s.store (a.payload ucfg).data) := by
  obtain ⟨delay, same⟩ := issue_eq bus s fits
  rw [same, Memmodel.bTransport_write (fits.range.beyond_eq_false fits.nonempty) write]
  rfl

variable (bus) in
/-- The array holds, at each position, what the latest store long enough left there. -/
theorem after_sparseArray {accesses : List Access} (fits : ∀ a ∈ accesses, a.Fits ucfg S) :
    ∃ s, after ucfg S bus accesses = .ok s ∧ ∀ i, i < 2 ^ 64 →
      s.sparseArray (BitVec.ofNat 64 i) =
        latest (Payload.storedIndex i) 0 (accesses.map (payload ucfg)).reverse := by
  induction accesses using List.reverseRecOn with
  | nil => exact ⟨.empty, rfl, fun _ _ => rfl⟩
  | append_singleton accesses a ih =>
    obtain ⟨s, hs, holds⟩ := ih fun b hb => fits b (List.mem_append_left _ hb)
    have fit := fits a (List.mem_append_right _ List.mem_cons_self)
    have step : after ucfg S bus (accesses ++ [a]) = (a.issue ucfg S bus s).map Prod.snd := by
      rw [after, List.foldlM_append]
      change (after ucfg S bus accesses >>= _) = _
      rw [hs]
      change (a.issue ucfg S bus s).map Prod.snd >>= pure = _
      cases a.issue ucfg S bus s <;> rfl
    rcases fit.serviceable with read | write
    · refine ⟨s, by rw [step, issue_read fit read]; rfl, fun i hi => ?_⟩
      rw [holds i hi, List.map_append, List.reverse_append]
      simp [LatestWrite.latest_cons, Payload.storedIndex, Footprint.reaches, Payload.footprint,
        read]
    · refine ⟨s.store (a.payload ucfg).data, by rw [step, issue_write fit write]; rfl,
        fun i hi => ?_⟩
      rw [Memmodel.store_sparseArray _ _ hi, holds i hi, List.map_append, List.reverse_append]
      by_cases reached : i < (a.payload ucfg).data.bytes.length
      · simp [LatestWrite.latest_cons, Payload.storedIndex, Footprint.reaches, Payload.footprint,
          Payload.dataLength, write, reached]
      · simp [LatestWrite.latest_cons, Payload.storedIndex, Footprint.reaches, Payload.footprint,
          Payload.dataLength, write, reached]

/-- A load gives back the byte of the latest store with that position, wherever it went. -/
theorem returned_read {pre : List Access} (earlier : ∀ b ∈ pre, b.Fits ucfg S)
    (fits : a.Fits ucfg S) (read : (a.payload ucfg).command = .read) {i : Nat}
    (hi : i < (a.payload ucfg).dataLength) : returned ucfg S bus pre a i =
      .ok (latest (Payload.storedIndex i) 0 (pre.map (payload ucfg)).reverse) := by
  obtain ⟨s, hs, holds⟩ := after_sparseArray bus earlier
  have short := (a.payload ucfg).dataLength_lt
  have answer : returned ucfg S bus pre a i = .ok ((s.load (a.payload ucfg).data).get i) := by
    rw [returned, hs]
    change (a.issue ucfg S bus s >>= fun r => pure (r.1.data.get i)) = _
    rw [issue_read fits read]
    rfl
  rw [answer, Memmodel.load_get _ _ hi, holds i (by omega)]

def footprint (ucfg : Ucfg) (a : Access) : Footprint := (a.payload ucfg).footprint

variable {accesses : List Access}

/-- A store at the load's own address has the same byte at both places. -/
theorem storedAt_eq_storedIndex {t : Payload} {base i : Nat} (same : t.address.toNat = base) :
    t.storedAt (base + i) = t.storedIndex i := by
  subst same
  have agree : t.footprint.covers (t.address.toNat + i) = t.footprint.reaches i := by
    rw [Bool.eq_iff_iff, Footprint.covers_iff, Footprint.reaches_iff]
    exact and_congr_right fun _ => ⟨fun h => Nat.lt_of_add_lt_add_left h.2,
      fun h => ⟨Nat.le_add_right _ _, Nat.add_lt_add_left h _⟩⟩
  rw [Payload.storedAt, Payload.storedIndex, agree, Nat.add_sub_cancel_left]

theorem loads_of_baseMatched (fits : ∀ a ∈ accesses, a.Fits ucfg S)
    (matched : Footprint.BaseMatched (accesses.map (footprint ucfg))) {pre post : List Access}
    (split : accesses = pre ++ a :: post) (read : (a.payload ucfg).command = .read) {i : Nat}
    (hi : i < (a.payload ucfg).dataLength) : returned ucfg S bus pre a i =
      .ok (latest (Payload.storedAt (a.target ucfg i)) 0 (pre.map (payload ucfg)).reverse) := by
  subst split
  rw [returned_read (fun b hb => fits b (List.mem_append_left _ hb))
    (fits a (List.mem_append_right _ List.mem_cons_self)) read hi]
  refine congrArg Except.ok (LatestWrite.latest_congr fun w found => ?_).symm
  apply storedAt_eq_storedIndex
  apply matched (pre.map (footprint ucfg)) (a.footprint ucfg) (post.map (footprint ucfg))
    (by simp) read i hi w.footprint
  simp only [Payload.storedAt_isSome, Payload.storedIndex_isSome] at found
  have prints : pre.map (footprint ucfg) = (pre.map (payload ucfg)).map Payload.footprint := by
    rw [List.map_map]
    rfl
  rw [prints, ← List.map_reverse, List.find?_map]
  exact congrArg (Option.map Payload.footprint) found

theorem byteAddressed_of_baseMatched (fits : ∀ a ∈ accesses, a.Fits ucfg S)
    (matched : Footprint.BaseMatched (accesses.map (footprint ucfg))) :
    ByteAddressed ucfg S bus accesses := by
  constructor
  · intro pre a post split read i hi
    exact loads_of_baseMatched fits matched split read hi
  · intro pre a mid b post split readA readB i j hi hj same untouched
    have later : accesses = (pre ++ a :: mid) ++ b :: post := by simpa using split
    rw [loads_of_baseMatched fits matched split readA hi,
      loads_of_baseMatched fits matched later readB hj, same, List.map_append,
      List.map_cons, List.reverse_append, List.reverse_cons,
      List.append_assoc]
    have silent : ∀ w ∈ (mid.map (payload ucfg)).reverse,
        Payload.storedAt (b.target ucfg j) w = none := by
      intro w hw
      obtain ⟨c, hc, rfl⟩ := List.mem_map.mp (List.mem_reverse.mp hw)
      rw [Payload.storedAt, untouched c hc, if_neg Bool.false_ne_true]
    have load : Payload.storedAt (b.target ucfg j) (a.payload ucfg) = none := by
      rw [Payload.storedAt, if_neg]
      simp [Footprint.covers, Payload.footprint, readA]
    rw [LatestWrite.latest_append silent, List.singleton_append, LatestWrite.latest_cons, load]
    rfl

/-- The same transaction with other bytes in its buffer. -/
def refill (bytes : Nat → Byte) (t : Payload) : Payload :=
  { t with data := ⟨(List.range t.dataLength).map bytes, by simpa using t.dataLength_lt⟩ }

def refilled (bytes : Nat → Byte) : Access → Access
  | .direct t => .direct (refill bytes t)
  | .window t => .window (refill bytes t)

section Refill
variable (bytes : Nat → Byte) (t : Payload)

@[simp] theorem refill_footprint : (refill bytes t).footprint = t.footprint := by
  simp [refill, Payload.footprint, Payload.dataLength]

theorem refill_get {i : Nat} (hi : i < t.dataLength) : (refill bytes t).data.get i = bytes i := by
  rw [DataBuffer.get_eq_getElem _ (by simpa [refill] using hi)]
  simp [refill]

theorem refill_storedAt (x : Nat) : (refill bytes t).storedAt x =
    if t.footprint.covers x then some (bytes (x - t.address.toNat)) else none := by
  rw [Payload.storedAt, refill_footprint]
  cases covered : t.footprint.covers x with
  | false => rfl
  | true =>
    obtain ⟨_, lower, upper⟩ := Footprint.covers_iff.mp covered
    exact congrArg some (refill_get bytes t (Nat.sub_lt_left_of_lt_add lower upper))

theorem refill_storedIndex (i : Nat) : (refill bytes t).storedIndex i =
    if t.footprint.reaches i then some (bytes i) else none := by
  rw [Payload.storedIndex, refill_footprint]
  cases reached : t.footprint.reaches i with
  | false => rfl
  | true =>
    exact congrArg some (refill_get bytes t (Footprint.reaches_iff.mp reached).2)

theorem refilled_payload : (a.refilled bytes).payload ucfg = refill bytes (a.payload ucfg) := by
  cases a <;> rfl

@[simp] theorem refilled_footprint : (a.refilled bytes).footprint ucfg = a.footprint ucfg := by
  rw [footprint, refilled_payload, refill_footprint]
  rfl

theorem refilled_fits (fits : a.Fits ucfg S) : (a.refilled bytes).Fits ucfg S := by
  have length : ((a.refilled bytes).payload ucfg).dataLength = (a.payload ucfg).dataLength := by
    rw [refilled_payload]
    exact congrArg Footprint.length (refill_footprint bytes (a.payload ucfg))
  constructor
  · rw [refilled_payload]
    exact fits.serviceable
  · rw [length]
    exact fits.nonempty
  · rw [Payload.InRange, length, refilled_payload]
    exact fits.range
  · intro t same
    cases a with
    | direct t' => cases same
    | window t' =>
      cases same
      exact fits.decode t' rfl

/-- A store that touches a byte at one place only, or at two positions of its
buffer, has bytes that tell the two questions apart. -/
theorem exists_refill_ne {x i : Nat}
    (touches : (t.footprint.covers x || t.footprint.reaches i) = true)
    (apart : t.address.toNat + i ≠ x) : ∃ bytes,
      ((refill bytes t).storedAt x).getD 0 ≠ ((refill bytes t).storedIndex i).getD 0 := by
  by_cases reached : t.footprint.reaches i = true
  · refine ⟨fun j => if j = i then 1 else 0, ?_⟩
    rw [refill_storedAt, refill_storedIndex, if_pos reached]
    by_cases covered : t.footprint.covers x = true
    · have lower : t.address.toNat ≤ x := (Footprint.covers_iff.mp covered).2.1
      have elsewhere : x - t.address.toNat ≠ i := by omega
      rw [if_pos covered, if_neg elsewhere, if_pos rfl]
      decide
    · rw [if_neg covered, if_pos rfl]
      decide
  · have covered : t.footprint.covers x = true := by
      rcases Bool.or_eq_true_iff.mp touches with covered | reached'
      · exact covered
      · exact absurd reached' reached
    refine ⟨fun _ => 1, ?_⟩
    rw [refill_storedAt, refill_storedIndex, if_pos covered, if_neg reached]
    decide

end Refill

/-- With older stores of zeros and newer ones out of sight, one store decides. -/
theorem latest_single {f : Payload → Option Byte} {older newer : List Access} {w : Access}
    (zeros : ∀ t : Payload, f (refill (fun _ => 0) t) = none ∨ f (refill (fun _ => 0) t) = some 0)
    (silent : ∀ b ∈ newer, f (b.payload ucfg) = none) :
    latest f 0 ((older.map (refilled fun _ => 0) ++ w :: newer).map (payload ucfg)).reverse =
      (f (w.payload ucfg)).getD 0 := by
  have hidden : ∀ t ∈ (newer.map (payload ucfg)).reverse, f t = none := by
    intro t ht
    obtain ⟨b, hb, rfl⟩ := List.mem_map.mp (List.mem_reverse.mp ht)
    exact silent b hb
  have blank : ∀ t ∈ ((older.map (refilled fun _ => 0)).map (payload ucfg)).reverse,
      f t = none ∨ f t = some 0 := by
    intro t ht
    obtain ⟨c, hc, rfl⟩ := List.mem_map.mp (List.mem_reverse.mp ht)
    obtain ⟨b, _, rfl⟩ := List.mem_map.mp hc
    rw [refilled_payload]
    exact zeros _
  rw [List.map_append, List.map_cons, List.reverse_append, List.reverse_cons, List.append_assoc,
    LatestWrite.latest_append hidden, List.singleton_append, LatestWrite.latest_cons,
    LatestWrite.latest_eq_blank blank]

variable (bus) in
/-- Where a load's byte is decided by a store with another base, other bytes in the
stores show it. -/
theorem exists_mismatch {pre post : List Access} (fits : ∀ b ∈ pre ++ a :: post, b.Fits ucfg S)
    (read : (a.payload ucfg).command = .read) {i : Nat} (hi : i < (a.payload ucfg).dataLength)
    {w : Footprint} (found : (pre.map (footprint ucfg)).reverse.find?
      (fun w => w.covers (a.target ucfg i) || w.reaches i) = some w)
    (apart : w.address ≠ (a.footprint ucfg).address) :
    ∃ pre', (∀ b ∈ pre' ++ a :: post, b.Fits ucfg S) ∧
      pre'.map (footprint ucfg) = pre.map (footprint ucfg) ∧
      returned ucfg S bus pre' a i ≠
        .ok (latest (Payload.storedAt (a.target ucfg i)) 0 (pre'.map (payload ucfg)).reverse) := by
  rw [← List.map_reverse, List.find?_map, Option.map_eq_some_iff] at found
  obtain ⟨c, found, rfl⟩ := found
  obtain ⟨touches, newer, older, split, silent⟩ := List.find?_eq_some_iff_append.mp found
  have split' : pre = older.reverse ++ c :: newer.reverse := by
    rw [← List.reverse_reverse pre, split, List.reverse_append, List.reverse_cons,
      List.append_assoc, List.singleton_append]
  subst split'
  obtain ⟨bytes, differ⟩ := exists_refill_ne (c.payload ucfg) touches (x := a.target ucfg i)
    fun same => apart (Nat.add_right_cancel same)
  have fits' : ∀ b ∈ (older.reverse.map (refilled fun _ => 0) ++
      c.refilled bytes :: newer.reverse) ++ a :: post, b.Fits ucfg S := by
    intro b hb
    simp only [List.append_assoc, List.mem_append, List.mem_cons, List.mem_map] at hb
    rcases hb with ⟨b, hb, rfl⟩ | (rfl | hb) | hb
    · exact refilled_fits _ (fits b (by simp [hb]))
    · exact refilled_fits _ (fits c (by simp))
    · exact fits b (by simp [hb])
    · exact fits b (List.mem_append_right _ (List.mem_cons.mpr hb))
  refine ⟨older.reverse.map (refilled fun _ => 0) ++ c.refilled bytes :: newer.reverse,
    fits', ?_, ?_⟩
  · simp [Function.comp_def]
  have quiet : ∀ b ∈ newer.reverse, (b.payload ucfg).footprint.covers (a.target ucfg i) = false ∧
      (b.payload ucfg).footprint.reaches i = false := by
    intro b hb
    have := silent b (List.mem_reverse.mp hb)
    simpa [footprint] using this
  rw [returned_read (fun b hb => fits' b (List.mem_append_left _ hb))
    (fits a (List.mem_append_right _ List.mem_cons_self)) read hi]
  intro same
  rw [latest_single, latest_single, refilled_payload] at same
  · exact differ (Except.ok.inj same).symm
  · intro t
    rw [refill_storedAt]
    cases t.footprint.covers (a.target ucfg i)
    · exact Or.inl rfl
    · exact Or.inr rfl
  · intro b hb
    rw [Payload.storedAt, (quiet b hb).1, if_neg Bool.false_ne_true]
  · intro t
    rw [refill_storedIndex]
    cases t.footprint.reaches i
    · exact Or.inl rfl
    · exact Or.inr rfl
  · intro b hb
    rw [Payload.storedIndex, (quiet b hb).2, if_neg Bool.false_ne_true]

/-- The memory is one of bytes, whatever the stores carry, exactly when every byte
of a load comes from a store with the load's base. -/
theorem byteAddressed_iff (bus : B) (fits : ∀ a ∈ accesses, a.Fits ucfg S) :
    (∀ others : List Access, (∀ b ∈ others, b.Fits ucfg S) →
      others.map (footprint ucfg) = accesses.map (footprint ucfg) →
        ByteAddressed ucfg S bus others) ↔
      Footprint.BaseMatched (accesses.map (footprint ucfg)) := by
  constructor
  · intro always pre f post split read i hi w found
    obtain ⟨before, rest, rfl, rfl, tail⟩ := List.map_eq_append_iff.mp split
    obtain ⟨a, after, rfl, rfl, rfl⟩ := List.map_eq_cons_iff.mp tail
    by_contra apart
    obtain ⟨pre', fits', prints, differ⟩ := exists_mismatch bus fits read hi found apart
    refine differ ((always (pre' ++ a :: after) fits' ?_).loads pre' a after rfl read i hi)
    rw [List.map_append, List.map_append, prints]
  · intro matched others fits' prints
    exact byteAddressed_of_baseMatched fits' (prints ▸ matched)

/-- Two stores to one address, at the memory's socket and through the window, and a load of it. -/
def sameBase : List Access :=
  [.direct ⟨.write, 16, ⟨[5, 6], DataBuffer.two_fits⟩, .incomplete, none⟩,
    .window ⟨.write, 0x81000010, ⟨[7], DataBuffer.one_fits⟩, .incomplete, none⟩,
    .direct ⟨.read, 16, ⟨[0, 0], DataBuffer.two_fits⟩, .incomplete, none⟩]

theorem sameBase_fits : ∀ a ∈ sameBase, a.Fits Uncore.exampleUcfg
    (Uncore.plainBus (Uncore.bootRom Uncore.exampleUcfg) (Uncore.spikeRam Uncore.exampleUcfg)) := by
  rw [sameBase, List.forall_mem_cons, List.forall_mem_cons, List.forall_mem_singleton]
  refine ⟨?_, ?_, ?_⟩
  · exact ⟨Or.inr rfl, by decide, by unfold Payload.InRange; decide, by rintro _ ⟨⟩⟩
  · refine ⟨Or.inr rfl, by decide, by unfold Payload.InRange; decide, fun t same => ?_⟩
    cases same
    decide
  · exact ⟨Or.inl rfl, by decide, by unfold Payload.InRange; decide, by rintro _ ⟨⟩⟩

theorem sameBase_baseMatched :
    Footprint.BaseMatched (sameBase.map (footprint Uncore.exampleUcfg)) := by
  intro pre f post split read i hi w found
  rcases pre with _ | ⟨w₀, _ | ⟨w₁, _ | ⟨w₂, pre⟩⟩⟩
  · cases found
  · cases split
    cases read
  · cases split
    have base := List.mem_of_find?_eq_some found
    simp only [List.reverse_cons, List.reverse_nil, List.nil_append, List.singleton_append,
      List.mem_cons, List.not_mem_nil, or_false] at base
    rcases base with rfl | rfl <;> rfl
  · exact absurd (congrArg List.length split) (by simp [sameBase])

theorem byteAddressed_iff_sameBase : ByteAddressed Uncore.exampleUcfg
    (Uncore.plainBus (Uncore.bootRom Uncore.exampleUcfg) (Uncore.spikeRam Uncore.exampleUcfg))
    (fun _ => 0) sameBase :=
  (byteAddressed_iff (fun _ => 0) sameBase_fits).mpr sameBase_baseMatched sameBase sameBase_fits rfl

/-- Stores to two addresses, then a load of the first. -/
def otherBase : List Access :=
  [.direct ⟨.write, 0, ⟨[1], DataBuffer.one_fits⟩, .incomplete, none⟩,
    .direct ⟨.write, 1, ⟨[2], DataBuffer.one_fits⟩, .incomplete, none⟩,
    .direct ⟨.read, 0, ⟨[0], DataBuffer.one_fits⟩, .incomplete, none⟩]

/-- The same, by the harts. -/
def otherBaseWindow : List Access :=
  [.window ⟨.write, 0x81000000, ⟨[1], DataBuffer.one_fits⟩, .incomplete, none⟩,
    .window ⟨.write, 0x81000001, ⟨[2], DataBuffer.one_fits⟩, .incomplete, none⟩,
    .window ⟨.read, 0x81000000, ⟨[0], DataBuffer.one_fits⟩, .incomplete, none⟩]

theorem otherBase_fits {B : Type} (S : SpikeBus B) :
    ∀ a ∈ otherBase, a.Fits Uncore.exampleUcfg S := by
  rw [otherBase, List.forall_mem_cons, List.forall_mem_cons, List.forall_mem_singleton]
  refine ⟨?_, ?_, ?_⟩
  · exact ⟨Or.inr rfl, by decide, by unfold Payload.InRange; decide, by rintro _ ⟨⟩⟩
  · exact ⟨Or.inr rfl, by decide, by unfold Payload.InRange; decide, by rintro _ ⟨⟩⟩
  · exact ⟨Or.inl rfl, by decide, by unfold Payload.InRange; decide, by rintro _ ⟨⟩⟩

theorem otherBaseWindow_fits : ∀ a ∈ otherBaseWindow, a.Fits Uncore.exampleUcfg
    (Uncore.plainBus (Uncore.bootRom Uncore.exampleUcfg)
      (Uncore.spikeRam Uncore.exampleUcfg)) := by
  rw [otherBaseWindow, List.forall_mem_cons, List.forall_mem_cons, List.forall_mem_singleton]
  refine ⟨?_, ?_, ?_⟩
  · refine ⟨Or.inr rfl, by decide, by unfold Payload.InRange; decide, fun t same => ?_⟩
    cases same
    decide
  · refine ⟨Or.inr rfl, by decide, by unfold Payload.InRange; decide, fun t same => ?_⟩
    cases same
    decide
  · refine ⟨Or.inl rfl, by decide, by unfold Payload.InRange; decide, fun t same => ?_⟩
    cases same
    decide

/-- The load gives 2 where 1 is stored, at the memory's socket and through the window. -/
theorem not_byteAddressed_otherBase :
    (∀ accesses ∈ [otherBase, otherBaseWindow], ∀ a ∈ accesses, a.Fits Uncore.exampleUcfg
      (Uncore.plainBus (Uncore.bootRom Uncore.exampleUcfg)
        (Uncore.spikeRam Uncore.exampleUcfg))) ∧
    ∀ accesses ∈ [otherBase, otherBaseWindow], ¬ ByteAddressed Uncore.exampleUcfg
      (Uncore.plainBus (Uncore.bootRom Uncore.exampleUcfg) (Uncore.spikeRam Uncore.exampleUcfg))
      (fun _ => 0) accesses := by
  constructor
  · rw [List.forall_mem_cons, List.forall_mem_singleton]
    exact ⟨otherBase_fits _, otherBaseWindow_fits⟩
  · rw [List.forall_mem_cons, List.forall_mem_singleton]
    constructor
    · intro memory
      have first := memory.loads (otherBase.take 2) _ [] rfl rfl 0 (by decide)
      exact absurd (Except.ok.inj first) (by decide)
    · intro memory
      have first := memory.loads (otherBaseWindow.take 2) _ [] rfl rfl 0 (by decide)
      exact absurd (Except.ok.inj first) (by decide)

end Access
