import RiscvVp.Isolation
import RiscvVp.ModelHarts

/-!
# The reference memory in place of the RTL

On the reference memory an access to the window lands on the first bytes of it,
wherever it is addressed. But for that it is the flat memory, so a hart whose
accesses land where they are addressed cannot tell it from the RTL memory.
-/

open SharedObject (share mem_share)
open Mmio (Touched Undisturbed Exposed)

namespace PositionMemory

open Uncore (bootRom spikeRam extram Inside Laid Roomy)

section Landing
variable (ucfg : Ucfg)

def InWindow (a : Mmio) : Prop := Inside ucfg a.payload ∧ (extram ucfg).Contains a.paddr.toNat 1

instance (a : Mmio) : Decidable (InWindow ucfg a) := inferInstanceAs (Decidable (_ ∧ _))

/-- The access under the address where it lands. -/
def landed (a : Mmio) : Mmio :=
  if InWindow ucfg a then { a with paddr := ucfg.extramStartAddress } else a

/-- The bytes by physical address, the window's from the array. -/
def flat (p : PositionMemory) (x : Nat) : Byte :=
  if (extram ucfg).base ≤ x ∧ x < (extram ucfg).base + 65536 then
    p.array.sparseArray (BitVec.ofNat 64 (x - (extram ucfg).base))
  else p.byte x

end Landing

variable {ucfg : Ucfg} {p : PositionMemory} {a : Mmio}

theorem landed_of_window (window : InWindow ucfg a) :
    landed ucfg a = { a with paddr := ucfg.extramStartAddress } := if_pos window

theorem landed_of_apart (apart : ¬ InWindow ucfg a) : landed ucfg a = a := if_neg apart

variable (ucfg p) in
theorem flat_window {i : Nat} (inside : i < 65536) :
    flat ucfg p ((extram ucfg).base + i) = p.array.sparseArray (BitVec.ofNat 64 i) := by
  rw [flat, if_pos (by omega), Nat.add_sub_cancel_left]

/-- The bytes of an access fit into the window from its beginning on. -/
theorem window_fits (laid : Laid ucfg) (window : InWindow ucfg a) :
    (extram ucfg).Contains (extram ucfg).base a.bytes.bytes.length ∧
      a.bytes.bytes.length ≤ 65536 := by
  obtain ⟨inside, first⟩ := window
  obtain ⟨range, fits⟩ :=
    (Uncore.inside_iff_of_window (t := a.payload) laid a.nonempty first).mp inside
  have start := Uncore.translate_address (t := a.payload) first
  have length : (Uncore.translate ucfg a.payload).dataLength = a.bytes.bytes.length := rfl
  rw [Payload.InRange, length] at fits
  obtain ⟨lower, upper⟩ := range
  rw [Mmio.payload_dataLength] at upper
  exact ⟨⟨Nat.le_refl _, by omega⟩, by omega⟩

theorem inside_landed (laid : Laid ucfg) (window : InWindow ucfg a) :
    Inside ucfg (landed ucfg a).payload := by
  obtain ⟨fits, short⟩ := window_fits laid window
  rw [landed_of_window window]
  exact Or.inr (Or.inr ⟨fits, Nat.add_le_add_left short _⟩)

/-- An access that is not in the window sees and changes nothing of it. -/
theorem not_covers_of_apart (laid : Laid ucfg) (roomy : Roomy ucfg)
    (inside : Inside ucfg a.payload) (apart : ¬ InWindow ucfg a) {x : Nat} (covers : a.Covers x) :
    ¬ ((extram ucfg).base ≤ x ∧ x < (extram ucfg).base + 65536) := by
  have whole := roomy.whole
  have near {r : Region} (range : r.Contains a.paddr.toNat a.bytes.bytes.length) :
      r.Contains x 1 := by
    obtain ⟨lower, upper⟩ := range
    obtain ⟨first, last⟩ := covers
    exact ⟨by omega, by omega⟩
  have device : (bootRom ucfg).Contains x 1 ∨ (spikeRam ucfg).Contains x 1 := by
    rcases inside with ⟨_, rom⟩ | ram | ⟨window, fits⟩
    · exact Or.inl (near rom)
    · exact Or.inr (near ram)
    · have here : InWindow ucfg a :=
        ⟨Or.inr (Or.inr ⟨window, fits⟩), window.first a.nonempty⟩
      exact absurd here apart
  rintro ⟨lower, upper⟩
  exact Uncore.not_window_of_device laid device ⟨lower, by omega⟩

/-- An access that the array does not serve. -/
theorem access_flat_of_apart (laid : Laid ucfg) (roomy : Roomy ucfg) (apart : ¬ InWindow ucfg a) :
    (access ucfg p a).2 = (FlatMemory.access ucfg (flat ucfg p) a).2 ∧
      flat ucfg (access ucfg p a).1 = (FlatMemory.access ucfg (flat ucfg p) a).1 := by
  rw [access_apart apart]
  by_cases inside : Inside ucfg a.payload
  · have outside {x : Nat} (covers : a.Covers x) :=
      not_covers_of_apart laid roomy inside apart covers
    refine ⟨FlatMemory.access_reply fun _ x covers => (if_neg (outside covers)).symm,
      funext fun x => ?_⟩
    rw [flat]
    split
    · rename_i window
      rw [FlatMemory.access_elsewhere fun _ covers => outside covers window]
      exact (if_pos window).symm
    · rename_i beyond
      exact FlatMemory.access_agree (Or.inl (if_neg beyond).symm)
  · rw [FlatMemory.access_outside p.byte inside, FlatMemory.access_outside (flat ucfg p) inside]
    exact ⟨rfl, rfl⟩

/-- The reference memory is the flat memory with the accesses where they land. -/
theorem access_flat (laid : Laid ucfg) (roomy : Roomy ucfg) (p : PositionMemory) (a : Mmio) :
    (access ucfg p a).2 = (FlatMemory.access ucfg (flat ucfg p) (landed ucfg a)).2 ∧
      flat ucfg (access ucfg p a).1 =
        (FlatMemory.access ucfg (flat ucfg p) (landed ucfg a)).1 := by
  by_cases window : InWindow ucfg a
  · have inside := inside_landed laid window
    obtain ⟨_, short⟩ := window_fits laid window
    rw [landed_of_window window] at inside ⊢
    rcases Bool.eq_false_or_eq_true a.store with store | load
    · rw [access_store window store, FlatMemory.access_store _ inside store]
      refine ⟨rfl, funext fun x => Eq.trans ?_ (CellMemory.writeBurst_consecutive ..).symm⟩
      change flat ucfg _ x = if (extram ucfg).base ≤ x ∧
        x < (extram ucfg).base + a.bytes.bytes.length then
          a.bytes.get (x - (extram ucfg).base) else flat ucfg p x
      rw [flat]
      split
      · rename_i within
        rw [Memmodel.store_sparseArray _ _ (by omega)]
        split
        · rename_i covered
          rw [if_pos (by omega)]
        · rename_i beyond
          rw [if_neg (by omega)]
          exact (if_pos within).symm
      · rename_i outside
        rw [if_neg (by omega)]
        exact (if_neg outside).symm
    · rw [access_load window load, FlatMemory.access_load _ inside load]
      refine ⟨congrArg (Reply.mk true) (DataBuffer.ext ?_), rfl⟩
      rw [Memmodel.load_bytes]
      refine List.map_congr_left fun i hi => ?_
      have below : i < a.bytes.bytes.length := List.mem_range.mp hi
      exact (flat_window ucfg p (by omega)).symm
  · rw [landed_of_apart window]
    exact access_flat_of_apart laid roomy window

end PositionMemory

namespace ModelPlatform

open SharedObject (accesses answers)
open PositionMemory (landed flat)

variable {ι H B D X : Type} [DecidableEq ι]

section Alone
variable {cfg : ModelConfig ι H B D X} {l : List (ι × Mmio)} {i : ι}

/-- The accesses of all harts where they land. -/
def landings (cfg : ModelConfig ι H B D X) (l : List (ι × Mmio)) : List (ι × Mmio) :=
  l.map fun c => (c.1, landed cfg.ucfg c.2)

theorem share_landings (lands : ∀ a ∈ share i l, landed cfg.ucfg a = a) :
    share i (landings cfg l) = share i l := by
  induction l with
  | nil => rfl
  | cons c l ih =>
    obtain ⟨j, a⟩ := c
    have unfolded : landings cfg ((j, a) :: l) = (j, landed cfg.ucfg a) :: landings cfg l := rfl
    by_cases mine : j = i
    · subst mine
      rw [SharedObject.share_cons_self] at lands
      rw [unfolded, SharedObject.share_cons_self, SharedObject.share_cons_self,
        lands a List.mem_cons_self, ih fun b hb => lands b (List.mem_cons_of_mem _ hb)]
    · rw [SharedObject.share_cons_of_ne mine] at lands
      rw [unfolded, SharedObject.share_cons_of_ne mine, SharedObject.share_cons_of_ne mine]
      exact ih lands

omit [DecidableEq ι] in
/-- Without a debugger the hart works as any hart does. -/
theorem hart_work (plain : cfg.rbb i = false) {t r : DebugHart D H}
    (work : cfg.hartWork i t = some r) : (Hart.client cfg.proc).work t.hart r.hart := by
  have leaves (a : Mmio) : ¬ cfg.Stays i a := by
    rintro ⟨rbb, _⟩
    rw [plain] at rbb
    cases rbb
  have begins (d : D) (h : H) : cfg.begins i d h = (d, cfg.proc h) := by
    simp [ModelConfig.begins, plain]
  obtain ⟨d, hart⟩ := t
  rw [ModelConfig.hartWork] at work
  cases hart with
  | loop keepSim h =>
    cases keepSim with
    | true =>
      simp only [begins, Option.some.injEq] at work
      rw [← work]
      rfl
    | false =>
      simp only [Option.some.injEq] at work
      rw [← work]
      rfl
  | step keepSim rest =>
    cases rest with
    | done h =>
      simp only [Option.some.injEq] at work
      rw [← work]
      rfl
    | ask a next =>
      simp only [if_neg (leaves a)] at work
      cases work
  | finished => cases work

/-- Such a hart needs of the reference memory only the bytes it touches. -/
theorem shields (maps : cfg.Maps) (plain : cfg.rbb i = false)
    (lands : ∀ a ∈ share i l, landed cfg.ucfg a = a)
    (undisturbed : Undisturbed i (landings cfg l)) :
    SharedObject.Shields cfg.client (PositionMemory.access cfg.ucfg) i (Hart.client cfg.proc)
      (FlatMemory.access cfg.ucfg) (fun t h => t.hart = h)
      (fun p m => ∀ x, Touched (share i l) x → flat cfg.ucfg p x = m x) (· ∈ l) where
  work t t' r same work := by
    subst same
    rcases work with own | ⟨polled, _⟩
    · exact ⟨r.hart, hart_work plain own, rfl⟩
    · rw [plain] at polled
      cases polled
  request t t' a same request := by
    subst same
    obtain ⟨d, hart⟩ := t
    cases hart with
    | step keepSim rest =>
      cases rest with
      | done h => cases request
      | ask b next =>
        simp only [ModelConfig.client] at request
        split at request
        · cases request
        · exact request
    | loop keepSim h => cases request
    | finished => cases request
  receive t t' a b same _ := by
    subst same
    rfl
  own p m a agree here := by
    obtain ⟨reply, after⟩ := PositionMemory.access_flat maps.laid maps.roomy p a
    rw [lands a (mem_share.mpr here)] at reply after
    have loaded (x : Nat) (covers : a.Covers x) : flat cfg.ucfg p x = m x :=
      agree x ⟨a, mem_share.mpr here, covers⟩
    refine ⟨reply.trans (FlatMemory.access_reply fun _ => loaded), fun x touched => ?_⟩
    rw [after]
    exact FlatMemory.access_agree (Or.inl (agree x touched))
  other p m j a agree foreign here := by
    have landing : (j, landed cfg.ucfg a) ∈ landings cfg l := List.mem_map.mpr ⟨_, here, rfl⟩
    rw [← share_landings lands]
    intro x touched
    rw [(PositionMemory.access_flat maps.laid maps.roomy p a).2,
      FlatMemory.access_elsewhere fun store covers =>
        undisturbed _ landing foreign store x covers touched]
    rw [share_landings lands] at touched
    exact agree x touched

variable {tr : List (Event ι X)} {s : ModelPlatform ι H B D} {bus : B} {proc : ι → H}
  {debug : ι → D} {ur : List (SharedObject.Event ι (DebugHart D H) Mmio)}
  {u : SharedObject ι PositionMemory (DebugHart D H)} {m : Nat → Byte}

omit [DecidableEq ι] in
/-- The array is empty at power-on. -/
theorem flat_powerOn : flat cfg.ucfg (cfg.powerOnAtomic bus proc debug).mem =
    FlatMemory.flatten cfg.ucfg cfg.spikeBus bus fun _ => 0 := by
  funext x
  rw [flat]
  split
  · rename_i window
    exact (if_pos window).symm
  · rfl

/-- The lone hart of the flat memory is where this one is. -/
theorem Follows.alone (maps : cfg.Maps) (plain : cfg.rbb i = false)
    (fol : Follows cfg (cfg.powerOnAtomic bus proc debug).mem tr s ur u)
    (run : cfg.atomic.Run (cfg.powerOnAtomic bus proc debug) ur u)
    (lands : ∀ a ∈ share i (taken tr), landed cfg.ucfg a = a)
    (undisturbed : Undisturbed i (landings cfg (taken tr)))
    (same : ∀ x, Exposed cfg.ucfg x (share i (taken tr)) →
      FlatMemory.flatten cfg.ucfg cfg.spikeBus bus (fun _ => 0) x = m x) : ∃ wr v,
      (SharedObject.machine (fun _ : Unit => Hart.client cfg.proc)
        (FlatMemory.access cfg.ucfg)).Run (Hart.powerOn m fun _ : Unit => proc i) wr v ∧
      share () (accesses wr) = share i (taken tr) ∧
      share i (got tr) <+:
        StreamServer.replies (FlatMemory.access cfg.ucfg) m (share i (taken tr)) := by
  have shielded := shields maps plain lands undisturbed
  have agree (x : Nat) (_ : Touched (share i (taken tr)) x) :
      flat cfg.ucfg (cfg.powerOnAtomic bus proc debug).mem x =
        FlatMemory.flatten cfg.ucfg cfg.spikeBus bus (fun _ => 0) x := congrFun flat_powerOn x
  have start : ((cfg.powerOnAtomic bus proc debug).client i).hart = .loop true (proc i) := rfl
  obtain ⟨wr, v, run', _, _, order⟩ := shielded.alone start agree run
    (by rw [fol.order]; exact fun c hc => hc)
  rw [fol.order] at order
  have alike := FlatMemory.replies_agree_of_exposed same
  obtain ⟨v', run'', _⟩ := SharedObject.retrace_run run' (order ▸ alike)
  obtain ⟨_, _, _, replies⟩ := fol.harts i
  refine ⟨wr, v', run'', order, ?_⟩
  rw [← alike, ← shielded.answers agree fun c hc => hc]
  exact List.IsPrefix.map _ ⟨_, replies.symm⟩

end Alone

section Runs
variable [Fintype ι] {cfg : ModelConfig ι H B D X} {bus : B} {proc : ι → H} {debug : ι → D}
  {tr : List (Event ι X)} {s : ModelPlatform ι H B D} {i : ι}

/-- A hart cannot tell the platforms apart: on the reference memory and on the RTL
it accesses the same and is answered the same, as far as both runs go. For that
its accesses to the window have to begin where the window does, nobody else may
store where it accesses, and it may load nothing that it has not stored but what
is the same at power-on. -/
theorem answers_as_rtl {ι' B' : Type} [DecidableEq ι'] [Fintype ι'] {cfg' : IssConfig H B'}
    {io : IoBlock top0} {bus' : B'} {proc' : ι' → H} {tr' : List (IssPlatform.Event ι')}
    {s' : IssPlatform ι' H B'} {j : ι'} (maps : cfg.Maps) (maps' : cfg'.Maps)
    (later : 0 < cfg'.rstTimeout) (map : cfg'.ucfg = cfg.ucfg) (processor : cfg'.proc = cfg.proc)
    (program : proc' j = proc i) (plain : cfg.rbb i = false)
    (run : (machine cfg).Run (powerOn cfg bus proc debug) tr s)
    (run' : (IssPlatform.machine cfg').Run (IssPlatform.powerOn cfg' io bus' proc') tr' s')
    (lands : ∀ a ∈ share i (taken tr), landed cfg.ucfg a = a)
    (undisturbed : Undisturbed i (landings cfg (taken tr)))
    (undisturbed' : Undisturbed j (IssPlatform.taken tr'))
    (same : ∀ x, Exposed cfg.ucfg x (share i (taken tr)) →
      FlatMemory.flatten cfg.ucfg cfg.spikeBus bus (fun _ => 0) x =
        FlatMemory.flatten cfg.ucfg cfg'.spikeBus bus' io.ram x) :
    (share i (taken tr) <+: share j (IssPlatform.taken tr') ∨
      share j (IssPlatform.taken tr') <+: share i (taken tr)) ∧
    (share i (got tr) <+: share j (IssPlatform.got tr') ∨
      share j (IssPlatform.got tr') <+: share i (got tr)) := by
  obtain ⟨_, _, atomic, fol⟩ := run_follows maps run
  obtain ⟨_, _, _, _, atomic', fol'⟩ := IssPlatform.run_follows maps' later run'
  obtain ⟨_, _, lone, asked, answered⟩ := fol.alone maps plain atomic lands undisturbed same
  obtain ⟨_, _, lone', asked', answered', _⟩ := fol'.alone atomic' undisturbed' fun _ _ => rfl
  rw [IssConfig.atomic, map, processor, program] at lone'
  rw [map] at answered'
  exact SharedObject.comparable_of_client Hart.client_determinate lone lone' asked asked'
    answered answered'

end Runs

open IssPlatform (Iss storeFirst loadFirst loneIss loneIss_start loneIss_run loneIss_undisturbed)

def firstPrograms : Iss → List Mmio
  | .spike0 => [loadDebug]
  | .spike1 => [storeFirst, loadFirst]

/-- The second hart stores a byte at the beginning of the window and loads it. -/
def firstByte : List (Event Iss Unit) :=
  [.tick .spike0 (), .step .spike0, .inside .spike0 loadDebug, .pause .spike0, .step .spike1,
    .access .spike1 storeFirst, .advance (scNs 7),
    .respond .spike1 storeFirst ⟨true, ⟨[7], DataBuffer.one_fits⟩⟩, .pause .spike1,
    .advance (scNs 9), .wake .spike1, .step .spike1, .access .spike1 loadFirst, .advance (scNs 16),
    .respond .spike1 loadFirst ⟨true, ⟨[7], DataBuffer.one_fits⟩⟩]

def firstByte_start : ModelPlatform Iss (List Mmio) (Nat → Byte) Nat :=
  powerOn exampleModelCfg (fun _ => 0) firstPrograms fun _ => 0

theorem firstByte_run : (machine exampleModelCfg).Run firstByte_start firstByte
    ((machine exampleModelCfg).after firstByte_start firstByte) := by
  apply EventMachine.run_of_admits
  refine ⟨⟨⟨_, rfl⟩, rfl, rfl⟩, ⟨⟨_, rfl⟩, _, rfl, rfl⟩, ⟨⟨_, rfl⟩, _, rfl, rfl, rfl⟩,
    ⟨⟨_, rfl⟩, _, rfl⟩, ⟨⟨_, rfl⟩, _, rfl, rfl⟩,
    ⟨⟨_, rfl⟩, _, _, _, _, _, rfl, by rintro ⟨⟨⟩, _⟩, rfl⟩,
    ⟨⟨_, rfl⟩, by decide, by rintro _ ⟨⟩; decide, ?_⟩, ⟨⟨_, rfl⟩, _, _, rfl, rfl⟩,
    ⟨⟨_, rfl⟩, _, rfl⟩, ⟨⟨_, rfl⟩, by decide, by rintro _ ⟨⟩; decide, ?_⟩, ⟨⟨_, rfl⟩, _, rfl⟩,
    ⟨⟨_, rfl⟩, _, rfl, rfl⟩, ⟨⟨_, rfl⟩, _, _, _, _, _, rfl, by rintro ⟨⟨⟩, _⟩, rfl⟩,
    ⟨⟨_, rfl⟩, by decide, by rintro _ ⟨⟩; decide, ?_⟩, ⟨⟨_, rfl⟩, _, _, rfl, rfl⟩, trivial⟩
  all_goals refine Iss.forall_iss ⟨?_, ?_⟩ ⟨?_, trivial⟩
  all_goals exact Nat.le_of_ble_eq_true rfl

/-- Nobody but the second hart goes through the uncore. -/
theorem firstByte_undisturbed :
    Undisturbed .spike1 (landings exampleModelCfg (taken firstByte)) := by
  intro d hd foreign
  have mine : d.1 = .spike1 := by
    rcases List.mem_cons.mp hd with rfl | later
    · rfl
    · rw [List.mem_singleton.mp later]
  exact absurd mine foreign

/-- On the RTL only the store is over yet. -/
theorem answers_as_rtl_firstByte :
    (machine exampleModelCfg).Run firstByte_start firstByte
        ((machine exampleModelCfg).after firstByte_start firstByte) ∧
    (IssPlatform.machine IssPlatform.exampleCfg).Run (loneIss_start [storeFirst, loadFirst])
        (loneIss storeFirst) ((IssPlatform.machine IssPlatform.exampleCfg).after
          (loneIss_start [storeFirst, loadFirst]) (loneIss storeFirst)) ∧
    (share .spike1 (got firstByte) <+: share () (IssPlatform.got (loneIss storeFirst)) ∨
      share () (IssPlatform.got (loneIss storeFirst)) <+: share .spike1 (got firstByte)) := by
  have lands : ∀ a ∈ [storeFirst, loadFirst], landed Uncore.exampleUcfg a = a := by
    intro a ha
    rcases List.mem_cons.mp ha with rfl | later
    · rfl
    · rw [List.mem_singleton.mp later]
      rfl
  have stored (x : Nat) (exposed : Exposed Uncore.exampleUcfg x [storeFirst, loadFirst]) :
      False := by
    obtain ⟨unwritten, loaded⟩ := exposed
    have inside : Uncore.Inside Uncore.exampleUcfg storeFirst.payload := by decide
    rcases loaded with covers | none
    · exact unwritten ⟨inside, covers⟩
    · exact none
  have lone := @loneIss_run storeFirst [loadFirst] (Or.inr ⟨rfl, rfl⟩)
  have agree := answers_as_rtl (i := Iss.spike1) exampleModelCfg_maps IssPlatform.exampleCfg_maps
    (by decide) rfl rfl (by rfl) rfl firstByte_run lone lands firstByte_undisturbed
    (loneIss_undisturbed storeFirst) fun x exposed => (stored x exposed).elim
  exact ⟨firstByte_run, lone, agree.2⟩

end ModelPlatform
