import RiscvVp.Base.LoneClient
import RiscvVp.SequentialConsistency

/-!
# A hart by itself

As long as nobody else stores where a hart accesses, the platform takes it where
a lone hart on a flat memory of its own would get. Neither the programs of the
others nor the schedule, the clock and the reset show in what it reads.
-/

open SharedObject (share mem_share)

namespace Mmio

/-- The bytes of an access. -/
def Covers (a : Mmio) (x : Nat) : Prop :=
  a.paddr.toNat ≤ x ∧ x < a.paddr.toNat + a.bytes.bytes.length

def Touched (l : List Mmio) (x : Nat) : Prop := ∃ a ∈ l, a.Covers x

/-- Nobody else stores to a byte that hart i accesses. -/
def Undisturbed {ι : Type} [DecidableEq ι] (i : ι) (l : List (ι × Mmio)) : Prop :=
  ∀ d ∈ l, d.1 ≠ i → d.2.store = true → ∀ x, d.2.Covers x → ¬ Touched (share i l) x

/-- What byte x holds at first can show, for it is loaded before it is stored. -/
def Exposed (ucfg : Ucfg) (x : Nat) : List Mmio → Prop
  | [] => False
  | a :: l =>
    if a.store then ¬ (Uncore.Inside ucfg a.payload ∧ a.Covers x) ∧ Exposed ucfg x l
    else a.Covers x ∨ Exposed ucfg x l

end Mmio

open Mmio (Touched Undisturbed Exposed)

namespace FlatMemory

variable {ucfg : Ucfg} {m m' : Nat → Byte} {a : Mmio} {x : Nat}

/-- An access changes nothing but the bytes it stores. -/
theorem access_elsewhere (apart : a.store = true → ¬ a.Covers x) :
    (access ucfg m a).1 x = m x := by
  by_cases inside : Uncore.Inside ucfg a.payload
  · cases store : a.store with
    | false => rw [access_load m inside store]
    | true =>
      rw [access_store m inside store]
      exact (CellMemory.writeBurst_consecutive ..).trans (if_neg (apart store))
  · rw [access_outside m inside]

/-- An access is answered from the bytes it loads. -/
theorem access_reply (same : a.store = false → ∀ x, a.Covers x → m x = m' x) :
    (access ucfg m a).2 = (access ucfg m' a).2 := by
  by_cases inside : Uncore.Inside ucfg a.payload
  · cases store : a.store with
    | false =>
      rw [access_load m inside store, access_load m' inside store]
      refine congrArg (Reply.mk true) (DataBuffer.ext (List.map_congr_left fun i hi => ?_))
      have below : i < a.bytes.bytes.length := List.mem_range.mp hi
      exact same store _ ⟨Nat.le_add_right _ _, Nat.add_lt_add_left below _⟩
    | true => rw [access_store m inside store, access_store m' inside store]
  · rw [access_outside m inside, access_outside m' inside]

/-- Wherever memories agree before an access or it has stored, they agree after it. -/
theorem access_agree (same : m x = m' x ∨
    a.store = true ∧ Uncore.Inside ucfg a.payload ∧ a.Covers x) :
    (access ucfg m a).1 x = (access ucfg m' a).1 x := by
  by_cases written : a.store = true ∧ Uncore.Inside ucfg a.payload ∧ a.Covers x
  · obtain ⟨store, inside, covers⟩ := written
    rw [access_store m inside store, access_store m' inside store]
    simp only [CellMemory.writeBurst_consecutive]
    exact (if_pos covers).trans (if_pos covers).symm
  · have before : m x = m' x := same.resolve_right written
    by_cases inside : Uncore.Inside ucfg a.payload
    · have apart : a.store = true → ¬ a.Covers x :=
        fun store covers => written ⟨store, inside, covers⟩
      rw [access_elsewhere apart, access_elsewhere apart, before]
    · rw [access_outside m inside, access_outside m' inside]
      exact before

/-- Memories that agree on the exposed bytes answer all accesses alike. -/
theorem replies_agree_of_exposed {l : List Mmio} (same : ∀ x, Exposed ucfg x l → m x = m' x) :
    StreamServer.replies (access ucfg) m l = StreamServer.replies (access ucfg) m' l := by
  induction l generalizing m m' with
  | nil => rfl
  | cons a l ih =>
    have reply : (access ucfg m a).2 = (access ucfg m' a).2 := by
      refine access_reply fun load x covers => same x ?_
      rw [Exposed, load]
      exact Or.inl covers
    have later : StreamServer.replies (access ucfg) (access ucfg m a).1 l =
        StreamServer.replies (access ucfg) (access ucfg m' a).1 l := by
      refine ih fun x exposed => access_agree ?_
      cases store : a.store with
      | false =>
        refine Or.inl (same x ?_)
        rw [Exposed, store]
        exact Or.inr exposed
      | true =>
        by_cases written : Uncore.Inside ucfg a.payload ∧ a.Covers x
        · exact Or.inr ⟨rfl, written⟩
        · refine Or.inl (same x ?_)
          rw [Exposed, store]
          exact ⟨written, exposed⟩
    rw [StreamServer.replies_cons, StreamServer.replies_cons, reply, later]

end FlatMemory

namespace Hart

variable {H : Type} {proc : Processor H}

theorem client_determinate : (client proc).Determinate where
  work
    | .loop true _, _, _, rfl, rfl => rfl
    | .loop false _, _, _, rfl, rfl => rfl
    | .step _ (.done _), _, _, rfl, rfl => rfl
  asks
    | .step _ (.ask _ _), _, _, _ => id

variable (proc) in
/-- A hart that nobody disturbs needs of the memory only the bytes it touches. -/
theorem shields {ι : Type} [DecidableEq ι] (ucfg : Ucfg) {i : ι} {l : List (ι × Mmio)}
    (undisturbed : Undisturbed i l) : SharedObject.Shields (fun _ : ι => client proc)
      (FlatMemory.access ucfg) i (client proc) (FlatMemory.access ucfg) Eq
      (fun m m' => ∀ x, Touched (share i l) x → m x = m' x) (· ∈ l) where
  work t t' r same work := by
    subst same
    exact ⟨r, work, rfl⟩
  request t t' a same request := by
    subst same
    exact request
  receive t t' a b same _ := by
    subst same
    rfl
  own m m' a agree here := by
    have loaded (x : Nat) (covers : a.Covers x) : m x = m' x :=
      agree x ⟨a, mem_share.mpr here, covers⟩
    exact ⟨FlatMemory.access_reply fun _ => loaded,
      fun x touched => FlatMemory.access_agree (Or.inl (agree x touched))⟩
  other m m' j a agree foreign here := by
    intro x touched
    rw [FlatMemory.access_elsewhere fun store covers =>
      undisturbed (j, a) here foreign store x covers touched]
    exact agree x touched

end Hart

namespace IssPlatform

open SharedObject (accesses answers)
open FlatMemory (flatten)

variable {ι H B : Type} [DecidableEq ι]

section Alone
variable {cfg : IssConfig H B} {m₀ : Ram} {flat₀ m : Nat → Byte} {tr : List (Event ι)}
  {s : IssPlatform ι H B} {vr : List (Initiators.Event ι)} {c : Initiators ι}
  {ur : List (SharedObject.Event ι (Hart H) Mmio)} {u : SharedObject ι (Nat → Byte) (Hart H)}
  {i : ι} {proc : ι → H}

/-- What the lone hart asks is what took effect, and its answers have been got. -/
theorem Follows.alone (fol : Follows cfg m₀ flat₀ tr s vr c ur u)
    (run : cfg.atomic.Run (Hart.powerOn flat₀ proc) ur u)
    (undisturbed : Undisturbed i (taken tr))
    (same : ∀ x, Exposed cfg.ucfg x (share i (taken tr)) → flat₀ x = m x) : ∃ wr v,
      cfg.atomic.Run (Hart.powerOn m fun _ : Unit => proc i) wr v ∧
      share () (accesses wr) = share i (taken tr) ∧
      share i (got tr) <+:
        StreamServer.replies (FlatMemory.access cfg.ucfg) m (share i (taken tr)) ∧
      ∀ h, Hart.of (s.spike i) = some h → v.client () = h := by
  have shields := Hart.shields cfg.proc cfg.ucfg undisturbed
  have agree (x : Nat) (_ : Touched (share i (taken tr)) x) : flat₀ x = flat₀ x := rfl
  have start : (Hart.powerOn flat₀ proc).client i = .loop true (proc i) := rfl
  obtain ⟨wr, v, run', client, _, order⟩ := shields.alone start agree run
    (by rw [fol.order]; exact fun c hc => hc)
  rw [fol.order] at order
  have alike := FlatMemory.replies_agree_of_exposed same
  obtain ⟨v', run'', client'⟩ := SharedObject.retrace_run run' (order ▸ alike)
  obtain ⟨_, owed, stands, _, replies⟩ := fol.attends i
  refine ⟨wr, v', run'', order, ?_, fun h at_ => ?_⟩
  · rw [← alike, ← shields.answers agree fun c hc => hc]
    exact List.IsPrefix.map _ ⟨_, replies.symm⟩
  · rw [client', ← client]
    exact stands.client_of_apart at_

end Alone

section Runs
variable [Fintype ι] {cfg : IssConfig H B} {io : IoBlock top0} {bus : B} {proc : ι → H}
  {tr : List (Event ι)} {s : IssPlatform ι H B} {i : ι}

/-- In a run in which nobody else stores where hart i accesses, hart i goes as it
would alone, on any flat memory that holds the same where it loads first. -/
theorem goes_alone (maps : cfg.Maps) (later : 0 < cfg.rstTimeout)
    (run : (machine cfg).Run (powerOn cfg io bus proc) tr s)
    (undisturbed : Undisturbed i (taken tr)) (m : Nat → Byte)
    (same : ∀ x, Exposed cfg.ucfg x (share i (taken tr)) →
      flatten cfg.ucfg cfg.spikeBus bus io.ram x = m x) : ∃ wr v,
      cfg.atomic.Run (Hart.powerOn m fun _ : Unit => proc i) wr v ∧
      share () (accesses wr) = share i (taken tr) ∧
      share i (got tr) <+:
        StreamServer.replies (FlatMemory.access cfg.ucfg) m (share i (taken tr)) ∧
      ∀ h, Hart.of (s.spike i) = some h → v.client () = h := by
  obtain ⟨_, _, _, _, run', fol⟩ := run_follows maps later run
  exact fol.alone run' undisturbed same

/-- What a hart accesses and what it is answered in such a run is the same on any
two platforms, as far as both go: on other clocks, with other harts, under
another schedule. Only the program and the bytes it loads before it stores them
have to be the same. -/
theorem replies_agree {ι' B' : Type} [DecidableEq ι'] [Fintype ι'] {cfg' : IssConfig H B'}
    {io' : IoBlock top0} {bus' : B'} {proc' : ι' → H} {tr' : List (Event ι')}
    {s' : IssPlatform ι' H B'} {j : ι'} (maps : cfg.Maps) (maps' : cfg'.Maps)
    (later : 0 < cfg.rstTimeout) (later' : 0 < cfg'.rstTimeout) (map : cfg'.ucfg = cfg.ucfg)
    (processor : cfg'.proc = cfg.proc) (program : proc' j = proc i)
    (run : (machine cfg).Run (powerOn cfg io bus proc) tr s)
    (run' : (machine cfg').Run (powerOn cfg' io' bus' proc') tr' s')
    (undisturbed : Undisturbed i (taken tr)) (undisturbed' : Undisturbed j (taken tr'))
    (same : ∀ x, Exposed cfg.ucfg x (share j (taken tr')) →
      flatten cfg'.ucfg cfg'.spikeBus bus' io'.ram x = flatten cfg.ucfg cfg.spikeBus bus io.ram x) :
    (share i (taken tr) <+: share j (taken tr') ∨ share j (taken tr') <+: share i (taken tr)) ∧
      (share i (got tr) <+: share j (got tr') ∨ share j (got tr') <+: share i (got tr)) := by
  obtain ⟨_, _, _, _, atomic, fol⟩ := run_follows maps later run
  obtain ⟨_, _, _, _, atomic', fol'⟩ := run_follows maps' later' run'
  obtain ⟨_, _, lone, asked, answered, _⟩ := fol.alone atomic undisturbed fun _ _ => rfl
  obtain ⟨_, _, lone', asked', answered', _⟩ :=
    fol'.alone atomic' undisturbed' (by rw [map] at same ⊢; exact same)
  rw [IssConfig.atomic, map, processor, program] at lone'
  rw [map] at answered'
  exact SharedObject.comparable_of_client Hart.client_determinate lone lone' asked asked'
    answered answered'

end Runs

/-- The second hart only loads. -/
theorem twoIss_undisturbed : Undisturbed .spike0 (taken twoIss) := by
  intro d hd foreign store
  rcases List.mem_cons.mp hd with rfl | later
  · exact absurd rfl foreign
  · cases List.mem_singleton.mp later
    cases store

theorem goes_alone_twoIss : ∃ wr v,
    exampleCfg.atomic.Run (Hart.powerOn (flatten Uncore.exampleUcfg exampleCfg.spikeBus
      (fun _ => 0) Bench.staleBlock.ram) fun _ : Unit => [storeSeven]) wr v ∧
    share () (accesses wr) = [storeSeven] ∧ v.client () = .step true (.done []) := by
  obtain ⟨wr, v, run, order, _, apart⟩ :=
    goes_alone exampleCfg_maps (by decide) twoIss_run twoIss_undisturbed _ fun _ _ => rfl
  exact ⟨wr, v, run, order, apart _ rfl⟩

/-- A byte at the beginning of the window, stored and loaded. -/
def storeFirst : Mmio := { storeSeven with paddr := 0x81000000 }

def loadFirst : Mmio := { loadByte with paddr := 0x81000000 }

/-- A lone hart on a blank memory makes the first store of its program. -/
def loneIss (a : Mmio) : List (Event Unit) :=
  [.work (), .enter () a, .acquire () a, .go (), .edge, .advance (scNs 1), .scStart,
    .advance (scNs 10), .edge, .advance (scNs 17), .release, .advance (scNs 20), .edge,
    .advance (scNs 30), .edge, .advance (scNs 40), .edge, .go (), .ret (), .advance (scNs 47),
    .respond () a ⟨true, ⟨[7], DataBuffer.one_fits⟩⟩, .work ()]

def loneIss_start (program : List Mmio) : IssPlatform Unit (List Mmio) (Nat → Byte) :=
  powerOn exampleCfg { Bench.staleBlock with ram := fun _ => 0 } (fun _ => 0) fun _ => program

theorem loneIss_run {a : Mmio} {rest : List Mmio}
    (known : a = storeSeven ∧ rest = [] ∨ a = storeFirst ∧ rest = [loadFirst]) :
    (machine exampleCfg).Run (loneIss_start (a :: rest)) (loneIss a)
      ((machine exampleCfg).after (loneIss_start (a :: rest)) (loneIss a)) := by
  apply EventMachine.run_of_admits
  rcases known with ⟨rfl, rfl⟩ | ⟨rfl, rfl⟩
  all_goals
    refine ⟨⟨⟨_, rfl⟩, rfl⟩, ⟨⟨_, rfl⟩, _, _, rfl, rfl⟩, ⟨⟨_, rfl⟩, _, _, rfl, rfl, rfl, rfl⟩,
      ⟨⟨_, rfl⟩, _, rfl, by rintro ⟨⟩, by rintro ⟨⟩, rfl⟩, ⟨⟨_, rfl⟩, rfl⟩,
      ⟨⟨_, rfl⟩, by decide, by decide, by rintro _ ⟨⟩; decide, by rintro _ ⟨⟩; decide, ?_⟩,
      ⟨⟨_, rfl⟩, rfl⟩,
      ⟨⟨_, rfl⟩, by decide, by decide, by rintro _ ⟨⟩; decide, by rintro _ ⟨⟩; decide, ?_⟩,
      ⟨⟨_, rfl⟩, rfl⟩,
      ⟨⟨_, rfl⟩, by decide, by decide, by rintro _ ⟨⟩; decide, by rintro _ ⟨⟩; decide, ?_⟩,
      ⟨⟨_, rfl⟩, rfl⟩,
      ⟨⟨_, rfl⟩, by decide, by decide, by rintro _ ⟨⟩, by rintro _ ⟨⟩; decide, ?_⟩,
      ⟨⟨_, rfl⟩, rfl⟩,
      ⟨⟨_, rfl⟩, by decide, by decide, by rintro _ ⟨⟩, by rintro _ ⟨⟩; decide, ?_⟩,
      ⟨⟨_, rfl⟩, rfl⟩,
      ⟨⟨_, rfl⟩, by decide, by decide, by rintro _ ⟨⟩, by rintro _ ⟨⟩; decide, ?_⟩,
      ⟨⟨_, rfl⟩, rfl⟩, ⟨⟨_, rfl⟩, _, rfl, by rintro ⟨⟩, by rintro ⟨⟩, rfl⟩,
      ⟨⟨_, rfl⟩, _, _, _, rfl, rfl, rfl⟩,
      ⟨⟨_, rfl⟩, by decide, by decide, by rintro _ ⟨⟩, by rintro _ ⟨⟩; decide, ?_⟩,
      ⟨⟨_, rfl⟩, _, _, rfl, rfl⟩, ⟨⟨_, rfl⟩, rfl⟩, trivial⟩
    iterate 6 exact fun _ => ⟨rfl, by rintro _ ⟨⟩ _ ⟨⟩⟩
    exact fun _ => Nat.le_refl _

theorem loneIss_undisturbed (a : Mmio) : Undisturbed () (taken (loneIss a)) :=
  fun _ _ foreign => absurd rfl foreign

theorem replies_agree_loneIss :
    (machine exampleCfg).Run twoIss_start twoIss
        ((machine exampleCfg).after twoIss_start twoIss) ∧
    (machine exampleCfg).Run (loneIss_start [storeSeven]) (loneIss storeSeven)
        ((machine exampleCfg).after (loneIss_start [storeSeven]) (loneIss storeSeven)) ∧
    (share .spike0 (got twoIss) <+: share () (got (loneIss storeSeven)) ∨
      share () (got (loneIss storeSeven)) <+: share .spike0 (got twoIss)) := by
  have lone := @loneIss_run storeSeven [] (Or.inl ⟨rfl, rfl⟩)
  have agree := replies_agree exampleCfg_maps exampleCfg_maps (by decide) (by decide) rfl rfl
    (by rfl) twoIss_run lone twoIss_undisturbed (loneIss_undisturbed storeSeven)
    fun _ exposed => exposed.2.elim
  exact ⟨twoIss_run, lone, agree.2⟩

end IssPlatform
