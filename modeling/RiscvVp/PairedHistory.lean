import RiscvVp.PairedDrivers

/-!
# Sequences of driver pairs

The RTL memory keeps a byte in the cell of its address, the reference memory at
its place in the vector. Over a sequence of pairs both can be read off the
earlier stores, and a load sees one byte twice as long as the store it goes
back to put its bytes at the same place in both. Where it did not, other bytes
in that store show the difference.
-/

open LatestWrite (latest)

namespace PairedCall

/-- The transaction has a byte at the address. -/
def Covers (c : PairedCall) (a : BitVec 64) : Prop :=
  ∃ i, i < c.dataLength ∧ c.address + BitVec.ofNat 64 i = a

/-- A successful store with a byte at the position. -/
def reaches (c : PairedCall) (i : Nat) : Bool := c.accepted && c.store && i < c.dataLength

/-- For each byte i of each successful load whose addresses were all stored: the
latest earlier store that left a byte in its cell, or that has a byte i, left its
own byte i in that cell. -/
def Matched (calls : List PairedCall) : Prop :=
  ∀ pre c post, calls = pre ++ c :: post → c.accepted = true → c.store = false →
    (∀ i, i < c.dataLength → ∃ w ∈ pre, w.accepted = true ∧ w.store = true ∧
      w.Covers (c.address + BitVec.ofNat 64 i)) →
    ∀ i, i < c.dataLength → ∀ w,
      pre.reverse.find? (fun w => (w.leaves (c.cell i)).isSome || w.reaches i) = some w →
        w.leaves (c.cell i) = some i

theorem storedCell_isSome (c : PairedCall) (x : BitVec 16) :
    (c.storedCell x).isSome = (c.leaves x).isSome := Option.isSome_map

theorem storedIndex_isSome (c : PairedCall) (i : Nat) :
    (c.storedIndex i).isSome = c.reaches i := by
  rw [storedIndex, reaches]
  cases c.accepted && c.store && decide (i < c.dataLength) <;> rfl

theorem leaves_isSome {c : PairedCall} {i : Nat} (accepted : c.accepted = true)
    (store : c.store = true) (hi : i < c.dataLength) : (c.leaves (c.cell i)).isSome = true := by
  rw [leaves, accepted, store]
  exact CellMemory.lastAt_isSome hi

theorem lt_of_reaches {c : PairedCall} {i : Nat} (reached : c.reaches i = true) :
    i < c.dataLength := by
  simp only [reaches, Bool.and_eq_true, decide_eq_true_eq] at reached
  exact reached.2

/-- What a store leaves in a cell is one of its bytes. -/
theorem lastAt_of_leaves {c : PairedCall} {x : BitVec 16} {j : Nat} (left : c.leaves x = some j) :
    (c.accepted && c.store) = true ∧ CellMemory.lastAt c.cell c.dataLength x = some j := by
  rw [leaves] at left
  split at left
  · rename_i successful
    exact ⟨successful, left⟩
  · cases left

/-- A store that left its own byte i in the cell has the same byte at position i. -/
theorem storedCell_eq_storedIndex {c : PairedCall} {x : BitVec 16} {i : Nat}
    (own : c.leaves x = some i) : c.storedCell x = c.storedIndex i := by
  obtain ⟨successful, last⟩ := lastAt_of_leaves own
  rw [storedCell, own, storedIndex, successful, Bool.true_and,
    if_pos (decide_eq_true (CellMemory.lt_of_lastAt last))]
  rfl

theorem refreshed_congr {c : PairedCall} {f g : Nat → Byte}
    (same : ∀ i, i < c.dataLength → f i = g i) : c.refreshed f = c.refreshed g := by
  rw [refreshed, refreshed, List.map_congr_left fun i hi => same i (List.mem_range.mp hi)]

theorem eq_of_refreshed {c : PairedCall} {f g : Nat → Byte} (same : c.refreshed f = c.refreshed g)
    {i : Nat} (hi : i < c.dataLength) : f i = g i := by
  have front := List.append_cancel_right same
  exact List.map_inj_left.mp front i (List.mem_range.mpr hi)

/-- The calls differ in the bytes of their vectors and in their delays only. -/
structure Alike (c d : PairedCall) : Prop where
  length : c.dataVec.length = d.dataVec.length
  address : c.address = d.address
  store : c.store = d.store

section Alike
variable {c d : PairedCall}

theorem Alike.dataLength (alike : Alike c d) : c.dataLength = d.dataLength := by
  rw [PairedCall.dataLength, alike.length]
  rfl

theorem Alike.accepted (alike : Alike c d) : c.accepted = d.accepted := by
  simp only [PairedCall.accepted, Payload.beyond, payload_dataLength, alike.dataLength]
  rw [show (c.payload none).address = (d.payload none).address from alike.address]

theorem Alike.cell (alike : Alike c d) (i : Nat) : c.cell i = d.cell i := by
  rw [PairedCall.cell, alike.address]
  rfl

theorem Alike.leaves (alike : Alike c d) (x : BitVec 16) : c.leaves x = d.leaves x := by
  rw [PairedCall.leaves, PairedCall.leaves, alike.accepted, alike.store, alike.dataLength,
    funext alike.cell]

theorem Alike.reaches (alike : Alike c d) (i : Nat) : c.reaches i = d.reaches i := by
  rw [PairedCall.reaches, PairedCall.reaches, alike.accepted, alike.store, alike.dataLength]

theorem Alike.covers (alike : Alike c d) {a : BitVec 64} (covers : c.Covers a) : d.Covers a := by
  obtain ⟨i, hi, same⟩ := covers
  exact ⟨i, alike.dataLength ▸ hi, alike.address ▸ same⟩

end Alike

/-- A call without delays that stands for all that are like it. -/
def shape (c : PairedCall) : PairedCall where
  dataVec := List.replicate c.dataVec.length 0
  nonempty := by simpa using c.nonempty
  address := c.address
  store := c.store
  delays := none
  positive := Tb.undelayed

theorem shape_alike (c : PairedCall) : Alike c.shape c := ⟨List.length_replicate, rfl, rfl⟩

theorem alike_of_shape {c d : PairedCall} (same : c.shape = d.shape) : Alike c d := by
  have length := congrArg (fun c => c.dataVec.length) same
  simp only [shape, List.length_replicate] at length
  exact ⟨length, congrArg (fun c => c.address) same, congrArg (fun c => c.store) same⟩

/-- The same call with other bytes. -/
def refill (bytes : Nat → Byte) (c : PairedCall) : PairedCall :=
  { c with
    dataVec := (List.range c.dataVec.length).map bytes
    nonempty := by simpa using c.nonempty }

theorem refill_alike (bytes : Nat → Byte) (c : PairedCall) : Alike (c.refill bytes) c :=
  ⟨by simp [refill], rfl, rfl⟩

theorem refill_shape (bytes : Nat → Byte) (c : PairedCall) : (c.refill bytes).shape = c.shape := by
  simp [shape, refill]

theorem refill_get {bytes : Nat → Byte} {c : PairedCall} {i : Nat} (hi : i < c.dataLength) :
    (c.refill bytes).get i = bytes i := by
  have short : i < c.dataVec.length := Nat.lt_of_lt_of_le hi (Nat.mod_le _ _)
  simp [refill, get, short]

/-- The condition does not look at bytes. -/
theorem Matched.of_shapes {calls others : List PairedCall}
    (same : others.map shape = calls.map shape) (matched : Matched calls) : Matched others := by
  intro pre' c' post' split accepted load stored i hi w' found
  subst split
  rw [List.map_append, List.map_cons] at same
  obtain ⟨pre, rest, rfl, before, tail⟩ := List.map_eq_append_iff.mp same.symm
  obtain ⟨c, post, rfl, here, _⟩ := List.map_eq_cons_iff.mp tail
  have alike := alike_of_shape here
  have touches (x : BitVec 16) : (fun w : PairedCall => (w.leaves x).isSome || w.reaches i) =
      (fun w => (w.leaves x).isSome || w.reaches i) ∘ shape := by
    funext w
    simp only [Function.comp, w.shape_alike.leaves, w.shape_alike.reaches]
  have found' := congrArg (Option.map shape) found
  rw [← alike.cell, touches, ← List.find?_map, List.map_reverse, ← before, ← List.map_reverse,
    List.find?_map, ← touches, Option.map_some, Option.map_eq_some_iff] at found'
  obtain ⟨w, found, same'⟩ := found'
  have own := matched pre c post rfl (alike.accepted.trans accepted) (alike.store.trans load) ?_ i
    (alike.dataLength ▸ hi) w found
  · rw [← (alike_of_shape same').leaves, ← alike.cell]
    exact own
  · intro j hj
    obtain ⟨v', hv', ok, store, covers⟩ := stored j (alike.dataLength ▸ hj)
    have mem : v'.shape ∈ pre.map shape := before ▸ List.mem_map_of_mem hv'
    obtain ⟨v, hv, like⟩ := List.mem_map.mp mem
    have alike' := alike_of_shape like
    exact ⟨v, hv, alike'.accepted.trans ok, alike'.store.trans store,
      (alike_of_shape like.symm).covers (alike.address ▸ covers)⟩

/-- A store that did not put its own byte i in the cell can be filled so that the
cell and position i differ after it, whatever they held before. -/
theorem exists_refill_ne {c : PairedCall} {x : BitVec 16} {i : Nat}
    (touches : ((c.leaves x).isSome || c.reaches i) = true) (apart : c.leaves x ≠ some i)
    (p q : Byte) : ∃ bytes,
      ((c.refill bytes).storedCell x).getD p ≠ ((c.refill bytes).storedIndex i).getD q := by
  have cell (bytes : Nat → Byte) : (c.refill bytes).storedCell x =
      (c.leaves x).map (c.refill bytes).get := by
    rw [storedCell, (refill_alike bytes c).leaves]
  have index (bytes : Nat → Byte) : (c.refill bytes).storedIndex i =
      if c.reaches i then some ((c.refill bytes).get i) else none := by
    rw [← (refill_alike bytes c).reaches i]
    rfl
  have other (b : Byte) : b + 1 ≠ b := by
    intro same
    have carried : b + 1 - b = 0#8 := by rw [same, BitVec.sub_self]
    rw [BitVec.add_comm, BitVec.add_sub_cancel] at carried
    exact absurd carried (by decide)
  simp only [cell, index]
  cases left : c.leaves x with
  | none =>
    -- only the sparse array is written
    rw [left] at touches
    have reached : c.reaches i = true := touches
    refine ⟨fun _ => p + 1, ?_⟩
    rw [if_pos reached, refill_get (lt_of_reaches reached)]
    exact (other p).symm
  | some j =>
    have hj : j < c.dataLength := CellMemory.lt_of_lastAt (lastAt_of_leaves left).2
    by_cases reached : c.reaches i = true
    · have ne : j ≠ i := fun same => apart (by rw [left, same])
      refine ⟨fun k => if k = i then 1 else 0, ?_⟩
      rw [if_pos reached, Option.map_some, refill_get hj, refill_get (lt_of_reaches reached),
        if_neg ne, if_pos rfl]
      exact (by decide : (0 : Byte) ≠ 1)
    · refine ⟨fun _ => q + 1, ?_⟩
      rw [if_neg reached, Option.map_some, refill_get hj]
      exact other q

end PairedCall

namespace PairedState

variable {ι : Type} [DecidableEq ι] {period : Nat} {me : ι} {st₀ st st' : PairedState ι}
  {hist pre post : List (PairedCall × PairedResult)} {c : PairedCall} {r : PairedResult}

/-- One pair after the other, with what each returned. -/
inductive Run (period : Nat) (me : ι) (st₀ : PairedState ι) :
    List (PairedCall × PairedResult) → PairedState ι → Prop
  | nil : Run period me st₀ [] st₀
  | snoc {hist : List (PairedCall × PairedResult)} {st st' : PairedState ι} {c : PairedCall}
      {r : PairedResult} (run : Run period me st₀ hist st) (step : Step period me c st r st') :
      Run period me st₀ (hist ++ [(c, r)]) st'

/-- The two calls of a pair return the same, and where every address of a
successful load was stored by an earlier successful pair, the vectors are equal. -/
structure Agree (hist : List (PairedCall × PairedResult)) : Prop where
  booleans : ∀ p ∈ hist, p.2.rtlOk = p.2.modelOk
  loads : ∀ pre c r post, hist = pre ++ (c, r) :: post → c.store = false → r.rtlOk = true →
    (∀ i, i < c.dataLength → ∃ w ∈ pre, w.2.rtlOk = true ∧ w.1.store = true ∧
      w.1.Covers (c.address + BitVec.ofNat 64 i)) → r.rtlVec = r.modelVec

/-- What both memories hold after a sequence of pairs. -/
structure Holds (st₀ : PairedState ι) (hist : List (PairedCall × PairedResult))
    (st : PairedState ι) : Prop where
  ok : ∀ p ∈ hist, p.2.rtlOk = p.1.accepted ∧ p.2.modelOk = p.1.accepted
  ram : ∀ x, st.platform.pipe.ram x = latest (PairedCall.storedCell · x)
    (st₀.platform.pipe.ram x) (hist.map Prod.fst).reverse
  sparseArray : ∀ i, i < 2 ^ 64 → st.model.sparseArray (BitVec.ofNat 64 i) =
    latest (PairedCall.storedIndex · i) (st₀.model.sparseArray (BitVec.ofNat 64 i))
      (hist.map Prod.fst).reverse

omit [DecidableEq ι] in
theorem Holds.snoc (holds : Holds st₀ hist st) (effect : Effect c st r st') :
    Holds st₀ (hist ++ [(c, r)]) st' := by
  constructor
  · intro p hp
    rcases List.mem_append.mp hp with hp | hp
    · exact holds.ok p hp
    · obtain rfl := List.mem_singleton.mp hp
      exact ⟨effect.rtlOk, effect.modelOk⟩
  · intro x
    rw [effect.ram, holds.ram, List.map_append, List.reverse_append]
    exact (LatestWrite.latest_cons (PairedCall.storedCell · x) _ c _).symm
  · intro i hi
    rw [effect.sparseArray i hi, holds.sparseArray i hi, List.map_append, List.reverse_append]
    exact (LatestWrite.latest_cons (PairedCall.storedIndex · i) _ c _).symm

theorem Run.holds (ready : st₀.Ready period) (run : Run period me st₀ hist st) :
    st.Ready period ∧ Holds st₀ hist st := by
  induction run with
  | nil => exact ⟨ready, by rintro _ ⟨⟩, fun _ => rfl, fun _ _ => rfl⟩
  | snoc run step ih =>
    obtain ⟨ready, holds⟩ := ih
    obtain ⟨effect, ready'⟩ := step.effect ready
    exact ⟨ready', holds.snoc effect⟩

omit [DecidableEq ι] in
/-- An entry of a history is its last one or belongs to what came before that. -/
theorem snoc_eq_append_cons {α : Type} {hist pre post : List α} {last entry : α}
    (split : hist ++ [last] = pre ++ entry :: post) :
    (hist = pre ∧ last = entry) ∨ ∃ post', hist = pre ++ entry :: post' := by
  rcases List.eq_nil_or_concat post with rfl | ⟨post, x, rfl⟩
  · obtain ⟨same, entry⟩ := List.append_inj' split rfl
    exact Or.inl ⟨same, List.singleton_inj.mp entry⟩
  · rw [List.concat_eq_append, ← List.cons_append, ← List.append_assoc] at split
    exact Or.inr ⟨post, (List.append_inj' split rfl).1⟩

/-- A pair inside a sequence is a step from what the earlier ones left. -/
theorem Run.split (run : Run period me st₀ hist st) (split : hist = pre ++ (c, r) :: post) :
    ∃ st₁ st₂, Run period me st₀ pre st₁ ∧ Step period me c st₁ r st₂ := by
  induction run generalizing post with
  | nil => exact absurd (congrArg List.length split) (by simp)
  | @snoc hist st₁ st₂ c' r' run step ih =>
    obtain ⟨rfl, last⟩ | ⟨_, earlier⟩ := snoc_eq_append_cons split
    · cases last
      exact ⟨st₁, st₂, run, step⟩
    · exact ih earlier

omit [DecidableEq ι] in
/-- Byte i of a load is the same in both memories when the store it goes back to
has its byte i there. -/
theorem Holds.cell_eq (holds : Holds st₀ pre st) {i : Nat} (hi : i < c.dataLength)
    (stored : ∃ w ∈ pre, w.1.accepted = true ∧ w.1.store = true ∧
      w.1.Covers (c.address + BitVec.ofNat 64 i))
    (matched : ∀ w, (pre.map Prod.fst).reverse.find?
      (fun w => (w.leaves (c.cell i)).isSome || w.reaches i) = some w →
        w.leaves (c.cell i) = some i) :
    st.platform.pipe.ram (c.cell i) = st.model.sparseArray (BitVec.ofNat 64 i) := by
  have short : i < 2 ^ 32 := Nat.lt_trans hi (Nat.mod_lt _ (by decide))
  rw [holds.ram, holds.sparseArray i (by omega)]
  obtain ⟨w, hw, accepted, store, j, hj, same⟩ := stored
  have cell : w.1.cell j = c.cell i := congrArg (BitVec.setWidth 16) same
  cases found : (pre.map Prod.fst).reverse.find?
      (fun w => (w.leaves (c.cell i)).isSome || w.reaches i) with
  | none =>
    have silent := List.find?_eq_none.mp found w.1
      (List.mem_reverse.mpr (List.mem_map_of_mem hw))
    rw [← cell, PairedCall.leaves_isSome accepted store hj] at silent
    exact absurd rfl silent
  | some v =>
    refine LatestWrite.latest_eq_of_find ?_
      (PairedCall.storedCell_eq_storedIndex (matched v found))
    simpa only [PairedCall.storedCell_isSome, PairedCall.storedIndex_isSome] using found

/-- Both memories check the same bound. -/
theorem Run.booleans (ready : st₀.Ready period) (run : Run period me st₀ hist st) :
    ∀ p ∈ hist, p.2.rtlOk = p.2.modelOk := by
  intro p hp
  obtain ⟨rtl, model⟩ := (run.holds ready).2.ok p hp
  exact rtl.trans model.symm

theorem Run.agree (ready : st₀.Ready period) (run : Run period me st₀ hist st)
    (matched : PairedCall.Matched (hist.map Prod.fst)) : Agree hist := by
  constructor
  · exact run.booleans ready
  · intro pre c r post split load done stored
    obtain ⟨st₁, st₂, before, step⟩ := run.split split
    obtain ⟨ready₁, holds⟩ := before.holds ready
    have effect := (step.effect ready₁).1
    have accepted : c.accepted = true := effect.rtlOk.symm.trans done
    have stored' : ∀ i, i < c.dataLength → ∃ w ∈ pre, w.1.accepted = true ∧ w.1.store = true ∧
        w.1.Covers (c.address + BitVec.ofNat 64 i) := by
      intro i hi
      obtain ⟨w, hw, ok, rest⟩ := stored i hi
      exact ⟨w, hw, (holds.ok w hw).1.symm.trans ok, rest⟩
    rw [effect.rtlVec accepted load, effect.modelVec accepted load]
    refine PairedCall.refreshed_congr fun i hi => holds.cell_eq hi (stored' i hi) ?_
    refine matched (pre.map Prod.fst) c (post.map Prod.fst) ?_ accepted load ?_ i hi
    · rw [split, List.map_append, List.map_cons]
    · intro j hj
      obtain ⟨w, hw, rest⟩ := stored' j hj
      exact ⟨w.1, List.mem_map_of_mem hw, rest⟩

theorem exists_run (me : ι) (rising : 0 < period) (ready : st₀.Ready period)
    (calls : List PairedCall) :
    ∃ hist st, Run period me st₀ hist st ∧ hist.map Prod.fst = calls := by
  induction calls using List.reverseRecOn with
  | nil => exact ⟨[], st₀, .nil, rfl⟩
  | append_singleton calls c ih =>
    obtain ⟨hist, st, run, same⟩ := ih
    obtain ⟨r, st', step⟩ := exists_step me rising (run.holds ready).1 c
    exact ⟨hist ++ [(c, r)], st', run.snoc step, by rw [List.map_append, same]; rfl⟩

/-- Where a byte of a covered load goes back to a store that put it elsewhere,
other bytes in that store make the two memories differ. -/
theorem exists_not_agree (me : ι) (rising : 0 < period) (ready : st₀.Ready period)
    {pre : List PairedCall} (post : List PairedCall) {c : PairedCall} (accepted : c.accepted = true)
    (load : c.store = false) (stored : ∀ i, i < c.dataLength → ∃ w ∈ pre, w.accepted = true ∧
      w.store = true ∧ w.Covers (c.address + BitVec.ofNat 64 i)) {i : Nat} (hi : i < c.dataLength)
    {w : PairedCall} (found : pre.reverse.find?
      (fun w => (w.leaves (c.cell i)).isSome || w.reaches i) = some w)
    (apart : w.leaves (c.cell i) ≠ some i) : ∃ others hist st,
      others.map PairedCall.shape = (pre ++ c :: post).map PairedCall.shape ∧
      Run period me st₀ hist st ∧ hist.map Prod.fst = others ∧ ¬ Agree hist := by
  simp only [← PairedCall.storedCell_isSome, ← PairedCall.storedIndex_isSome] at found
  obtain ⟨touches, newer, older, split, quiet⟩ := LatestWrite.split_of_find found
  rw [PairedCall.storedCell_isSome, PairedCall.storedIndex_isSome] at touches
  have split' : pre = older.reverse ++ w :: newer.reverse := by
    rw [← List.reverse_reverse pre, split, List.reverse_append, List.reverse_cons,
      List.append_assoc, List.singleton_append]
  subst split'
  obtain ⟨bytes, differ⟩ := PairedCall.exists_refill_ne touches apart
    (latest (PairedCall.storedCell · (c.cell i)) (st₀.platform.pipe.ram (c.cell i)) older)
    (latest (PairedCall.storedIndex · i) (st₀.model.sparseArray (BitVec.ofNat 64 i)) older)
  obtain ⟨hist, st, run, calls⟩ := exists_run me rising ready
    ((older.reverse ++ w.refill bytes :: newer.reverse) ++ c :: post)
  refine ⟨_, hist, st, ?_, run, calls, fun agree => ?_⟩
  · simp only [List.map_append, List.map_cons, PairedCall.refill_shape]
  obtain ⟨before, rest, rfl, first, tail⟩ := List.map_eq_append_iff.mp calls
  obtain ⟨⟨c', r⟩, after, rfl, here, _⟩ := List.map_eq_cons_iff.mp tail
  obtain rfl : c' = c := here
  obtain ⟨st₁, st₂, run₁, step⟩ := run.split rfl
  obtain ⟨ready₁, holds⟩ := run₁.holds ready
  have effect := (step.effect ready₁).1
  have short : i < 2 ^ 32 := Nat.lt_trans hi (Nat.mod_lt _ (by decide))
  have same := agree.loads before c' r after rfl load (effect.rtlOk.trans accepted) ?_
  · rw [effect.rtlVec accepted load, effect.modelVec accepted load] at same
    have byte := PairedCall.eq_of_refreshed same hi
    rw [holds.ram, holds.sparseArray i (by omega), first, List.reverse_append, List.reverse_cons,
      List.reverse_reverse, List.reverse_reverse, List.append_assoc, List.singleton_append] at byte
    rw [LatestWrite.latest_append fun v hv => (quiet v hv).1,
      LatestWrite.latest_append fun v hv => (quiet v hv).2, LatestWrite.latest_cons,
      LatestWrite.latest_cons] at byte
    exact differ byte
  · intro j hj
    obtain ⟨v, hv, ok, store, covers⟩ := stored j hj
    have moved : ∃ v' ∈ before.map Prod.fst, PairedCall.Alike v v' := by
      rw [first]
      rcases List.mem_append.mp hv with hv | hv
      · exact ⟨v, List.mem_append_left _ hv, rfl, rfl, rfl⟩
      rcases List.mem_cons.mp hv with rfl | hv
      · have alike := PairedCall.refill_alike bytes v
        exact ⟨_, List.mem_append_right _ List.mem_cons_self, alike.length.symm,
          alike.address.symm, alike.store.symm⟩
      · exact ⟨v, List.mem_append_right _ (List.mem_cons_of_mem _ hv), rfl, rfl, rfl⟩
    obtain ⟨v', hv', alike⟩ := moved
    obtain ⟨p, hp, rfl⟩ := List.mem_map.mp hv'
    exact ⟨p, hp, (holds.ok p hp).1.trans (alike.accepted.symm.trans ok),
      alike.store.symm.trans store, alike.covers covers⟩

/-- Every sequence of pairs comes back from both memories, always with equal
booleans. They agree on it where each load goes back to stores that put its bytes
at the same places, and where one does not, they disagree on some sequence that
has other bytes only. -/
theorem pairs_agree (me : ι) (rising : 0 < period) (ready : st₀.Ready period)
    (calls : List PairedCall) :
    (∃ hist st, Run period me st₀ hist st ∧ hist.map Prod.fst = calls) ∧
    (∀ hist st, Run period me st₀ hist st → ∀ p ∈ hist, p.2.rtlOk = p.2.modelOk) ∧
    (∀ hist st, Run period me st₀ hist st → hist.map Prod.fst = calls →
      PairedCall.Matched calls → Agree hist) ∧
    ((∀ others, others.map PairedCall.shape = calls.map PairedCall.shape → ∀ hist st,
      Run period me st₀ hist st → hist.map Prod.fst = others → Agree hist) ↔
        PairedCall.Matched calls) := by
  refine ⟨exists_run me rising ready calls, fun hist st run => run.booleans ready, ?_, ?_, ?_⟩
  · rintro hist st run rfl matched
    exact run.agree ready matched
  · intro always pre c post split accepted load stored i hi w found
    by_contra apart
    obtain ⟨others, hist, st, shapes, run, same, not⟩ :=
      exists_not_agree me rising ready post accepted load stored hi found apart
    exact not (always others (split ▸ shapes) hist st run same)
  · rintro matched _ shapes hist st run rfl
    exact run.agree ready (matched.of_shapes shapes)

/-- The start of the simulation, with reset released after 25 time units. -/
def start : PairedState Unit :=
  ⟨.constructed 1, .powerOn Bench.staleBlock 25, .empty⟩

theorem start_ready : start.Ready 10 := by
  refine ⟨Platform.powerOn_idle _ (Or.inl (by decide)), ?_⟩
  intro ext none
  cases none

/-- A store at address 16, and a load of it with delays. -/
def storeThenLoad : List PairedCall :=
  [⟨[5, 6], List.cons_ne_nil _ _, 16, true, none, Tb.undelayed⟩,
    ⟨[0, 0], List.cons_ne_nil _ _, 16, false, some (1, 100), by decide⟩]

theorem storeThenLoad_matched : PairedCall.Matched storeThenLoad := by
  intro pre c post split accepted load stored i hi w found
  rcases pre with _ | ⟨w₀, _ | ⟨w₁, pre⟩⟩
  · cases found
  · cases split
    obtain rfl := List.mem_singleton.mp (List.mem_of_find?_eq_some found)
    have short : i < 2 := hi
    obtain rfl | rfl : i = 0 ∨ i = 1 := by omega
    · rfl
    · rfl
  · exact absurd (congrArg List.length split) (by simp [storeThenLoad])

theorem pairs_agree_storeThenLoad : ∃ hist st, Run 10 () start hist st ∧
    hist.map Prod.fst = storeThenLoad ∧ Agree hist := by
  obtain ⟨⟨hist, st, run, calls⟩, _, agree, _⟩ :=
    pairs_agree () (by decide) start_ready storeThenLoad
  exact ⟨hist, st, run, calls, agree hist st run calls storeThenLoad_matched⟩

def storeZero : PairedCall := ⟨[1], List.cons_ne_nil _ _, 0, true, none, Tb.undelayed⟩

def storeOne : PairedCall := ⟨[2], List.cons_ne_nil _ _, 1, true, none, Tb.undelayed⟩

def loadZero : PairedCall := ⟨[0], List.cons_ne_nil _ _, 0, false, none, Tb.undelayed⟩

/-- After stores of 1 at address 0 and of 2 at address 1, a load of address 0
brings 1 from the RTL memory and 2 from the reference memory. -/
theorem not_agree_loadZero : ∃ hist st, Run 10 () start hist st ∧
    hist.map Prod.fst = [storeZero, storeOne, loadZero] ∧ ¬ Agree hist := by
  obtain ⟨hist, st, run, calls⟩ := exists_run () (by decide) start_ready
    [storeZero, storeOne, loadZero]
  refine ⟨hist, st, run, calls, fun agree => ?_⟩
  obtain ⟨first, rest, rfl, zero, calls⟩ := List.map_eq_cons_iff.mp calls
  obtain ⟨second, rest, rfl, one, calls⟩ := List.map_eq_cons_iff.mp calls
  obtain ⟨⟨c, r⟩, rest, rfl, load, ended⟩ := List.map_eq_cons_iff.mp calls
  obtain rfl : c = loadZero := load
  obtain rfl := List.map_eq_nil_iff.mp ended
  have last : [first, second, (loadZero, r)] = [first, second] ++ (loadZero, r) :: [] := rfl
  obtain ⟨st₁, st₂, before, step⟩ := run.split last
  obtain ⟨ready, holds⟩ := before.holds start_ready
  have effect := (step.effect ready).1
  have ram := holds.ram 0
  have sparse := holds.sparseArray 0 (by decide)
  rw [List.map_cons, List.map_cons, zero, one] at ram sparse
  have stored : first.2.rtlOk = true := by
    rw [(holds.ok first List.mem_cons_self).1, zero]
    rfl
  have same := agree.loads [first, second] _ r [] rfl rfl (effect.rtlOk.trans rfl) ?_
  · rw [effect.rtlVec rfl rfl, effect.modelVec rfl rfl] at same
    have byte : st₁.platform.pipe.ram 0 = st₁.model.sparseArray 0 := (List.cons.inj same).1
    rw [ram, show st₁.model.sparseArray 0 = _ from sparse] at byte
    revert byte
    decide
  · intro i hi
    obtain rfl : i = 0 := Nat.lt_one_iff.mp hi
    refine ⟨first, List.mem_cons_self, stored, by rw [zero]; rfl, 0, by rw [zero]; decide, ?_⟩
    rw [zero]
    rfl

end PairedState
