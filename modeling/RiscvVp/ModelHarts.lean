import RiscvVp.FlatMemory
import RiscvVp.SequentialConsistency
import RiscvVp.ModelPlatform

/-!
# Harts without time on the reference memory

On these platforms an access takes effect where the uncore serves it. What time
and debugger polls leave is one memory of bytes for the devices and, for the
window, one array that every access reads and writes from its beginning.
-/

/-- The devices by physical address, and the array behind the window. -/
structure PositionMemory where
  byte : Nat → Byte
  array : Memmodel

namespace PositionMemory

open Uncore (bootRom spikeRam extram translate Inside Laid Roomy)

/-- One access in one step. Where in the window it starts does not matter. -/
def access (ucfg : Ucfg) (p : PositionMemory) (a : Mmio) : PositionMemory × Reply :=
  if Inside ucfg a.payload ∧ (extram ucfg).Contains a.paddr.toNat 1 then
    if a.store then (⟨p.byte, p.array.store a.bytes⟩, ⟨true, a.bytes⟩)
    else (p, ⟨true, p.array.load a.bytes⟩)
  else
    (⟨(FlatMemory.access ucfg p.byte a).1, p.array⟩, (FlatMemory.access ucfg p.byte a).2)

/-- The devices that the bus holds. -/
def devices {B : Type} (ucfg : Ucfg) (S : SpikeBus B) (bus : B) : Nat → Byte :=
  FlatMemory.flatten ucfg S bus fun _ => 0

variable {ucfg : Ucfg} {a : Mmio} {p : PositionMemory}

theorem access_load (window : Inside ucfg a.payload ∧ (extram ucfg).Contains a.paddr.toNat 1)
    (load : a.store = false) : access ucfg p a = (p, ⟨true, p.array.load a.bytes⟩) := by
  rw [access, if_pos window, load]
  rfl

theorem access_store (window : Inside ucfg a.payload ∧ (extram ucfg).Contains a.paddr.toNat 1)
    (store : a.store = true) :
    access ucfg p a = (⟨p.byte, p.array.store a.bytes⟩, ⟨true, a.bytes⟩) := by
  rw [access, if_pos window, if_pos store]

theorem access_apart (apart : ¬ (Inside ucfg a.payload ∧ (extram ucfg).Contains a.paddr.toNat 1)) :
    access ucfg p a =
      (⟨(FlatMemory.access ucfg p.byte a).1, p.array⟩, (FlatMemory.access ucfg p.byte a).2) :=
  if_neg apart

/-- The reply tells whether the access was inside. -/
theorem access_done : (access ucfg p a).2.done = true ↔ Inside ucfg a.payload := by
  by_cases window : Inside ucfg a.payload ∧ (extram ucfg).Contains a.paddr.toNat 1
  · cases store : a.store with
    | true => simp [access_store window store, window.1]
    | false => simp [access_load window store, window.1]
  · rw [access_apart window]
    exact FlatMemory.access_done p.byte

section Transport
variable {B : Type} {S : SpikeBus B}

/-- What the uncore and the reference memory answer is what this memory does. -/
structure Answers (ucfg : Ucfg) (S : SpikeBus B) (a : Mmio) (bus : B) (mem : Memmodel)
    (reply : Payload) (bus' : B) (mem' : Memmodel) : Prop where
  expected : reply.responseStatus = .ok ∨ reply.responseStatus = .genericError
  plain : reply.extension = none
  access : access ucfg ⟨devices ucfg S bus, mem⟩ a =
    (⟨devices ucfg S bus', mem'⟩, ⟨reply.responseStatus == .ok, reply.data⟩)

/-- An access that does not reach the window's memory. -/
theorem answers_of_flat {bus bus' : B} {reply : Payload} (mem : Memmodel)
    (apart : ¬ (Inside ucfg a.payload ∧ (extram ucfg).Contains a.paddr.toNat 1))
    (flat : FlatMemory.Answers ucfg S a bus bus' reply) :
    Answers ucfg S a bus mem reply bus' mem := by
  refine ⟨flat.expected, flat.plain, ?_⟩
  rw [access_apart apart, devices, flat.flat]
  rfl

theorem transportModel_of_answered {bus bus' : B} {mem : Memmodel} {t reply : Payload}
    {delay delay' : Nat}
    (hop : Uncore.bTransport ucfg S bus t delay = .answered reply delay' bus') :
    Uncore.transportModel ucfg S bus mem t delay = .ok (reply, delay', bus', mem) := by
  rw [Uncore.transportModel, hop]

theorem transportModel_of_forwarded {bus : B} {mem mem' : Memmodel} {t t' reply : Payload}
    {delay delay' delay'' : Nat}
    (hop : Uncore.bTransport ucfg S bus t delay = .forwarded t' delay')
    (call : mem.bTransport t' delay' = .ok (reply, delay'', mem')) :
    Uncore.transportModel ucfg S bus mem t delay = .ok (reply, delay'', bus, mem') := by
  rw [Uncore.transportModel, hop]
  simp only [call]

/-- Every access is answered, without a report. -/
theorem transportModel_answers (laid : Laid ucfg) (roomy : Roomy ucfg)
    (serves : S.Serves (bootRom ucfg) (spikeRam ucfg)) (keeps : S.KeepsLength) (bus : B)
    (mem : Memmodel) (a : Mmio) : ∃ reply delay bus' mem',
      Uncore.transportModel ucfg S bus mem a.payload 0 = .ok (reply, delay, bus', mem') ∧
        Answers ucfg S a bus mem reply bus' mem' := by
  by_cases first : (extram ucfg).Contains a.paddr.toNat 1
  · have hop := Uncore.bTransport_extram (t := a.payload) laid serves first bus 0
    have accepts := Uncore.accepts_iff_of_window (t := a.payload) laid a.nonempty first
    by_cases inside : Inside ucfg a.payload
    · have accepted : (translate ucfg a.payload).beyond Memmodel.modelMaxRamAddress = false :=
        accepts.mpr (Or.inl inside)
      cases store : a.store with
      | false =>
        have read : (translate ucfg a.payload).command = .read := by
          simp [Uncore.translate, Mmio.payload, store]
        refine ⟨_, _, _, _, transportModel_of_forwarded hop
          (Memmodel.bTransport_read accepted read), Or.inl rfl, rfl, ?_⟩
        exact access_load ⟨inside, first⟩ store
      | true =>
        have write : (translate ucfg a.payload).command = .write := by
          simp [Uncore.translate, Mmio.payload, store]
        refine ⟨_, _, _, _, transportModel_of_forwarded hop
          (Memmodel.bTransport_write accepted write), Or.inl rfl, rfl, ?_⟩
        exact access_store ⟨inside, first⟩ store
    · have refused : (translate ucfg a.payload).beyond Memmodel.modelMaxRamAddress = true := by
        by_contra accepted
        rcases accepts.mp (Bool.not_eq_true _ ▸ accepted) with here | overruns
        · exact inside here
        · exact roomy.not_overruns overruns
      exact ⟨_, _, _, _, transportModel_of_forwarded hop (Memmodel.bTransport_refused refused),
        answers_of_flat mem (fun both => inside both.1) (.refused inside rfl rfl rfl)⟩
  · have apart : ¬ (Inside ucfg a.payload ∧ (extram ucfg).Contains a.paddr.toNat 1) :=
      fun both => first both.2
    by_cases device : (bootRom ucfg).Contains a.paddr.toNat 1 ∨
        (spikeRam ucfg).Contains a.paddr.toNat 1
    · cases store : a.store with
      | false =>
        rcases Uncore.bTransport_device laid serves a.payload_serviceable device bus 0 with
          ⟨_, hop⟩ | ⟨write, _⟩
        · exact ⟨_, _, _, _, transportModel_of_answered hop, answers_of_flat mem apart
            (FlatMemory.answers_load laid roomy serves keeps device store)⟩
        · simp [Mmio.payload, store] at write
      | true =>
        rcases Uncore.bTransport_device laid serves a.payload_serviceable device bus 0 with
          ⟨read, _⟩ | ⟨_, hop⟩
        · simp [Mmio.payload, store] at read
        · exact ⟨_, _, _, _, transportModel_of_answered hop, answers_of_flat mem apart
            (FlatMemory.answers_store laid roomy serves device store)⟩
    · have outside : ¬ Inside ucfg a.payload := by
        rintro (⟨_, rom⟩ | ram | ⟨window, _⟩)
        · exact device (Or.inl (rom.first a.nonempty))
        · exact device (Or.inr (ram.first a.nonempty))
        · exact first (window.first a.nonempty)
      have hop := Uncore.bTransport_unknown (t := a.payload) laid serves device first bus 0
      exact ⟨_, _, _, _, transportModel_of_answered hop,
        answers_of_flat mem apart (.refused outside rfl rfl rfl)⟩

end Transport

end PositionMemory

/-- A hart without time, with its debug module. -/
structure DebugHart (D H : Type) where
  debug : D
  hart : Hart H

namespace ModelConfig

variable {ι H B D X : Type} (cfg : ModelConfig ι H B D X)

/-- The address map has no overlap, and the Spike bus serves its two devices. -/
structure Maps : Prop where
  laid : Uncore.Laid cfg.ucfg
  roomy : Uncore.Roomy cfg.ucfg
  serves : cfg.spikeBus.Serves (Uncore.bootRom cfg.ucfg) (Uncore.spikeRam cfg.ucfg)
  keeps : cfg.spikeBus.KeepsLength

/-- An instruction begins or ends, or an access stays in the module. -/
def hartWork (i : ι) (t : DebugHart D H) : Option (DebugHart D H) :=
  match t.hart with
  | .loop true h => some ⟨(cfg.begins i t.debug h).1, .step true (cfg.begins i t.debug h).2⟩
  | .loop false _ => some ⟨t.debug, .finished⟩
  | .step keepSim (.done h) => some ⟨t.debug, .loop keepSim h⟩
  | .step keepSim (.ask a next) =>
    if cfg.Stays i a then
      some ⟨(RbbspikeModule.localBus cfg.chain t.debug a).2,
        .step keepSim (next (RbbspikeModule.localBus cfg.chain t.debug a).1)⟩
    else none
  | .finished => none

/-- A debugger may poll its socket at any time. -/
def client (i : ι) : Client (DebugHart D H) Mmio Reply where
  request t :=
    match t.hart with
    | .step _ (.ask a _) => if cfg.Stays i a then none else some a
    | _ => none
  receive t r := { t with hart := (Hart.client cfg.proc).receive t.hart r }
  work t t' := cfg.hartWork i t = some t' ∨
    cfg.rbb i = true ∧ ∃ x, t' = { t with debug := cfg.chain.tick x t.debug }

/-- The harts without time on the array and the devices. -/
abbrev atomic [DecidableEq ι] : EventMachine (SharedObject ι PositionMemory (DebugHart D H))
    (SharedObject.Event ι (DebugHart D H) Mmio) :=
  SharedObject.machine cfg.client (PositionMemory.access cfg.ucfg)

/-- The atomic harts at the heads of their loops. -/
def powerOnAtomic (bus : B) (proc : ι → H) (debug : ι → D) :
    SharedObject ι PositionMemory (DebugHart D H) :=
  ⟨⟨PositionMemory.devices cfg.ucfg cfg.spikeBus bus, .empty⟩,
    fun i => ⟨debug i, .loop true (proc i)⟩⟩

end ModelConfig

namespace ModelPlatform

open StreamServer (settle)
open SharedObject (accesses answers)

variable {ι H B D X : Type}

/-- The reply that a served access will bring. -/
def owedReply (m : SpikeModule H) : Reply := ⟨m.trans.responseStatus == .ok, m.trans.data⟩

def owed (m : SpikeModule H) : List Reply :=
  match m.pc with
  | .delayed _ _ _ => [owedReply m]
  | _ => []

/-- A hart and its atomic counterpart, which is past an access as soon as the
uncore has served it. -/
def Stands (m : SpikeModule H) (h : Hart H) : Prop :=
  match m.pc with
  | .loop proc => h = .loop m.keepSim proc
  | .paused proc _ => h = .loop m.keepSim proc
  | .step rest => h = .step m.keepSim rest
  | .transport _ _ => False
  | .delayed _ next _ =>
    (m.trans.responseStatus = .ok ∨ m.trans.responseStatus = .genericError) ∧
      h = .step (m.keepSim && (owedReply m).done) (next (owedReply m))
  | .finished => h = .finished

section Relation
variable [DecidableEq ι] (cfg : ModelConfig ι H B D X) (p₀ : PositionMemory)
  (debug₀ : ι → D) (proc₀ : ι → H)

/-- Hart i in the traces: the atomic replies are those it has got and the one it is owed. -/
def Attends (tr : List (Event ι X)) (i : ι) (m : SpikeModule H) (d : D) (t : DebugHart D H) :
    Prop :=
  t.debug = d ∧ m.trans.extension = none ∧ Stands m t.hart ∧
    (answers (PositionMemory.access cfg.ucfg) p₀ (taken tr)).filter (·.1 = i) =
      (got tr).filter (·.1 = i) ++ (owed m).map (i, ·)

/-- The run of the platform and the atomic run. -/
structure Follows (tr : List (Event ι X)) (s : ModelPlatform ι H B D)
    (ur : List (SharedObject.Event ι (DebugHart D H) Mmio))
    (u : SharedObject ι PositionMemory (DebugHart D H)) : Prop where
  bytes : u.mem = ⟨PositionMemory.devices cfg.ucfg cfg.spikeBus s.bus, s.mem⟩
  stream : u.mem = settle (SharedObject.serve (PositionMemory.access cfg.ucfg)) p₀ (taken tr)
  order : accesses ur = taken tr
  harts : ∀ i, Attends cfg p₀ tr i (s.spike i) (s.debug i) (u.client i)

end Relation

/-- Only harts with a debugger have a `bitbang_thread`. -/
def Polls (cfg : ModelConfig ι H B D X) (s : ModelPlatform ι H B D) : Prop :=
  ∀ i wake, s.bitbang i = .waiting wake → cfg.rbb i = true

section Steps
variable [DecidableEq ι] {cfg : ModelConfig ι H B D X} {p₀ : PositionMemory}
  {tr : List (Event ι X)} {s s' : ModelPlatform ι H B D}
  {ur ur' : List (SharedObject.Event ι (DebugHart D H) Mmio)}
  {u u' : SharedObject ι PositionMemory (DebugHart D H)} {e : Event ι X} {i : ι} {a : Mmio}

theorem Attends.pass {m : SpikeModule H} {d : D} {t : DebugHart D H}
    (att : Attends cfg p₀ tr i m d t) (noTake : ∀ c ∈ taken [e], c.1 ≠ i)
    (noReply : ∀ c ∈ got [e], c.1 ≠ i) : Attends cfg p₀ (tr ++ [e]) i m d t := by
  obtain ⟨debug, plain, stands, replies⟩ := att
  refine ⟨debug, plain, stands, ?_⟩
  have unasked (p : PositionMemory) :
      ∀ r ∈ answers (PositionMemory.access cfg.ucfg) p (taken [e]), r.1 ≠ i := by
    intro r hr same
    obtain ⟨c, hc, _, rfl⟩ := SharedObject.served_of_mem_answers hr
    exact noTake c hc same
  rw [taken_append, got_append, SharedObject.answers_append, List.filter_append,
    List.filter_append, IssPlatform.filter_of_ne (unasked _), IssPlatform.filter_of_ne noReply,
    List.append_nil, List.append_nil, replies]

/-- A step of hart i leaves the others where they stand. -/
theorem Follows.moved {m : SpikeModule H} {d : D} {t : DebugHart D H}
    (fol : Follows cfg p₀ tr s ur u) (takes : ∀ c ∈ taken [e], c.1 = i)
    (replies : ∀ c ∈ got [e], c.1 = i) (spike : s'.spike = Function.update s.spike i m)
    (debug : s'.debug = Function.update s.debug i d)
    (client : u'.client = Function.update u.client i t)
    (bytes : u'.mem = ⟨PositionMemory.devices cfg.ucfg cfg.spikeBus s'.bus, s'.mem⟩)
    (stream : u'.mem =
      settle (SharedObject.serve (PositionMemory.access cfg.ucfg)) p₀ (taken (tr ++ [e])))
    (order : accesses ur' = taken (tr ++ [e])) (mine : Attends cfg p₀ (tr ++ [e]) i m d t) :
    Follows cfg p₀ (tr ++ [e]) s' ur' u' := by
  refine ⟨bytes, stream, order, fun j => ?_⟩
  rw [spike, debug, client]
  by_cases same : j = i
  · subst same
    rw [Function.update_self, Function.update_self, Function.update_self]
    exact mine
  · rw [Function.update_of_ne same, Function.update_of_ne same, Function.update_of_ne same]
    refine (fol.harts j).pass (fun c hc tag => ?_) fun c hc tag => ?_
    · exact same (tag.symm.trans (takes c hc))
    · exact same (tag.symm.trans (replies c hc))

/-- A step of hart i that leaves the memories alone. -/
theorem Follows.own {m : SpikeModule H} {d : D} {t : DebugHart D H}
    (fol : Follows cfg p₀ tr s ur u) (silent : taken [e] = []) (replies : ∀ c ∈ got [e], c.1 = i)
    (spike : s'.spike = Function.update s.spike i m)
    (debug : s'.debug = Function.update s.debug i d) (bus : s'.bus = s.bus) (mem : s'.mem = s.mem)
    (same : u'.mem = u.mem) (client : u'.client = Function.update u.client i t)
    (order : accesses ur' = accesses ur) (mine : Attends cfg p₀ (tr ++ [e]) i m d t) :
    Follows cfg p₀ (tr ++ [e]) s' ur' u' := by
  have kept : taken (tr ++ [e]) = taken tr := by rw [taken_append, silent, List.append_nil]
  refine fol.moved ?_ replies spike debug client ?_ ?_ ?_ mine
  · rw [silent]
    rintro _ ⟨⟩
  · rw [same, bus, mem]
    exact fol.bytes
  · rw [same, kept]
    exact fol.stream
  · rw [order, kept]
    exact fol.order

/-- What hart i does by itself, with the same step of its atomic counterpart. -/
theorem Follows.work {m : SpikeModule H} {d : D} {t : DebugHart D H}
    (fol : Follows cfg p₀ tr s ur u) (silent : taken [e] = [] ∧ got [e] = [])
    (spike : s'.spike = Function.update s.spike i m)
    (debug : s'.debug = Function.update s.debug i d) (bus : s'.bus = s.bus) (mem : s'.mem = s.mem)
    (worked : (cfg.client i).work (u.client i) t) (debugs : t.debug = d)
    (trans : m.trans = (s.spike i).trans) (owes : owed m = owed (s.spike i))
    (stands : Stands m t.hart) :
    ∃ wr u', cfg.atomic.Run u wr u' ∧ Follows cfg p₀ (tr ++ [e]) s' (ur ++ wr) u' := by
  obtain ⟨noTake, noReply⟩ := silent
  obtain ⟨_, plain, _, replies⟩ := fol.harts i
  have order : accesses (ur ++ [.work i t]) = accesses ur := by
    rw [SharedObject.accesses_append]
    exact List.append_nil _
  refine ⟨[.work i t], { u with client := Function.update u.client i t }, .single worked,
    fol.own noTake ?_ spike debug bus mem rfl rfl order ⟨debugs, trans ▸ plain, stands, ?_⟩⟩
  · rw [noReply]
    rintro _ ⟨⟩
  · rw [taken_append, got_append, noTake, noReply, List.append_nil, List.append_nil, owes]
    exact replies

/-- What no atomic hart sees: time, `sc_main`, the end of a wait. -/
theorem Follows.still {m : SpikeModule H} (i : ι) (fol : Follows cfg p₀ tr s ur u)
    (silent : taken [e] = [] ∧ got [e] = []) (spike : s'.spike = Function.update s.spike i m)
    (debug : s'.debug = s.debug) (bus : s'.bus = s.bus) (mem : s'.mem = s.mem)
    (trans : m.trans = (s.spike i).trans) (owes : owed m = owed (s.spike i))
    (stands : Stands m (u.client i).hart) : Follows cfg p₀ (tr ++ [e]) s' ur u := by
  obtain ⟨noTake, noReply⟩ := silent
  obtain ⟨debugs, plain, _, replies⟩ := fol.harts i
  refine fol.own (i := i) noTake ?_ spike (debug.trans (Function.update_eq_self i s.debug).symm) bus
    mem rfl (Function.update_eq_self i u.client).symm rfl ⟨debugs, trans ▸ plain, stands, ?_⟩
  · rw [noReply]
    rintro _ ⟨⟩
  · rw [taken_append, got_append, noTake, noReply, List.append_nil, List.append_nil, owes]
    exact replies

/-- A step of the kernel and `sc_main`. -/
theorem Follows.outside (fol : Follows cfg p₀ tr s ur u) (silent : taken [e] = [] ∧ got [e] = [])
    (spike : s'.spike = s.spike) (debug : s'.debug = s.debug) (bus : s'.bus = s.bus)
    (mem : s'.mem = s.mem) : Follows cfg p₀ (tr ++ [e]) s' ur u := by
  obtain ⟨noTake, noReply⟩ := silent
  have kept : taken (tr ++ [e]) = taken tr := by rw [taken_append, noTake, List.append_nil]
  refine ⟨?_, kept ▸ fol.stream, fol.order.trans kept.symm, fun i => ?_⟩
  · rw [bus, mem]
    exact fol.bytes
  · rw [spike, debug]
    refine (fol.harts i).pass ?_ ?_
    · rw [noTake]
      rintro _ ⟨⟩
    · rw [noReply]
      rintro _ ⟨⟩

/-- The uncore answers a hart as the atomic memory does. -/
theorem Follows.served (maps : cfg.Maps) (fol : Follows cfg p₀ tr s ur u) (i : ι) (a : Mmio) :
    ∃ reply delay bus mem, s.served cfg i a = .ok (reply, delay, bus, mem) ∧
      PositionMemory.Answers cfg.ucfg cfg.spikeBus a s.bus s.mem reply bus mem := by
  obtain ⟨_, plain, _⟩ := fol.harts i
  rw [ModelPlatform.served, SpikeModule.request, Mmio.setOn_eq_payload a plain]
  exact PositionMemory.transportModel_answers maps.laid maps.roomy maps.serves maps.keeps _ _ a

theorem Follows.access (maps : cfg.Maps) (fol : Follows cfg p₀ tr s ur u)
    (he : s.Possible cfg (.access i a)) : ∃ wr u', cfg.atomic.Run u wr u' ∧
      Follows cfg p₀ (tr ++ [.access i a]) (s.next cfg (.access i a)) (ur ++ wr) u' := by
  obtain ⟨after, reply, delay, bus, mem, pc, goes, served⟩ := he
  obtain ⟨reply', _, bus', mem', served', expected, plain', access⟩ := fol.served maps i a
  rw [served] at served'
  cases served'
  obtain ⟨debugs, plain, stands, replies⟩ := fol.harts i
  simp only [Stands, pc] at stands
  have request : (cfg.client i).request (u.client i) = some a := by
    simp only [ModelConfig.client, stands, if_neg goes]
  rw [← fol.bytes] at access
  rw [next_access pc served]
  have taken' : taken (tr ++ [Event.access i a]) = taken tr ++ [(i, a)] := by
    rw [taken_append]
    rfl
  refine ⟨[.access i a], _, .single request, fol.moved (i := i) ?_ (by rintro _ ⟨⟩) rfl
    (Function.update_eq_self i s.debug).symm rfl ?_ ?_ ?_ ⟨debugs, plain', ?_, ?_⟩⟩
  · intro c hc
    cases List.mem_singleton.mp hc
    rfl
  · exact congrArg Prod.fst access
  · rw [taken', StreamServer.settle_append, ← fol.stream]
    rfl
  · rw [SharedObject.accesses_append, fol.order, taken']
    rfl
  · simp only [Stands, SpikeModule.returned]
    refine ⟨expected, ?_⟩
    change (Hart.client cfg.proc).receive (u.client i).hart
      (PositionMemory.access cfg.ucfg u.mem a).2 = _
    rw [access, stands]
    rfl
  · rw [taken', SharedObject.answers_append, List.filter_append, ← fol.stream, replies, got_append]
    have none : owed (s.spike i) = [] := by simp only [owed, pc]
    have one : got [(Event.access i a : Event ι X)] = [] := rfl
    change _ ++ List.filter (·.1 = i) [(i, (PositionMemory.access cfg.ucfg u.mem a).2)] = _
    rw [access, none, one, List.append_nil]
    simp [owed, owedReply, SpikeModule.returned]

omit [DecidableEq ι] in
/-- Both kinds of module take the two statuses alike. -/
theorem respond_eq (cfg : ModelConfig ι H B D X) (i : ι) {m : SpikeModule H}
    (expected : m.trans.responseStatus = .ok ∨ m.trans.responseStatus = .genericError) :
    cfg.respond i m = .ok (owedReply m, m.keepSim && (owedReply m).done) := by
  rcases expected with status | status
  · simp [ModelConfig.respond, RbbspikeModule.respond, SpikeModule.respond, owedReply, status]
  · simp [ModelConfig.respond, RbbspikeModule.respond, SpikeModule.respond, owedReply, status]

theorem Follows.respond {r : Reply} (fol : Follows cfg p₀ tr s ur u)
    (he : s.Possible cfg (.respond i a r)) :
    Follows cfg p₀ (tr ++ [.respond i a r]) (s.next cfg (.respond i a r)) ur u := by
  obtain ⟨after, keepSim, pc, response⟩ := he
  obtain ⟨debugs, plain, stands, replies⟩ := fol.harts i
  simp only [Stands, pc] at stands
  obtain ⟨expected, hart⟩ := stands
  rw [next_respond pc response]
  have answer := (respond_eq cfg i expected).symm.trans response
  cases answer
  refine fol.own (i := i) rfl ?_ rfl (Function.update_eq_self i s.debug).symm rfl rfl rfl
    (Function.update_eq_self i u.client).symm rfl ⟨debugs, plain, hart, ?_⟩
  · intro c hc
    cases List.mem_singleton.mp hc
    rfl
  · have one : owed (s.spike i) = [owedReply (s.spike i)] := by simp only [owed, pc]
    rw [one] at replies
    rw [taken_append, got_append]
    simpa [taken, got, owed] using replies

/-- Neither the uncore nor the switch on the status ever raises a report. -/
theorem Follows.no_report {r : Report} (maps : cfg.Maps) (fol : Follows cfg p₀ tr s ur u) (i : ι) :
    ¬ s.Possible cfg (.fail i r) := by
  rintro (⟨a, next, pc, response⟩ | ⟨a, next, pc, _, raised⟩)
  · obtain ⟨_, _, stands, _⟩ := fol.harts i
    simp only [Stands, pc] at stands
    rw [respond_eq cfg i stands.1] at response
    cases response
  · obtain ⟨_, _, _, _, served, _⟩ := fol.served maps i a
    rw [raised] at served
    cases served

theorem Follows.next (maps : cfg.Maps) (polls : s.Polls cfg) (fol : Follows cfg p₀ tr s ur u)
    (he : s.Possible cfg e) :
    ∃ wr u', cfg.atomic.Run u wr u' ∧ Follows cfg p₀ (tr ++ [e]) (s.next cfg e) (ur ++ wr) u' := by
  have quiet (fol' : Follows cfg p₀ (tr ++ [e]) (s.next cfg e) ur u) : ∃ wr u',
      cfg.atomic.Run u wr u' ∧ Follows cfg p₀ (tr ++ [e]) (s.next cfg e) (ur ++ wr) u' :=
    ⟨[], u, .refl, by rw [List.append_nil]; exact fol'⟩
  cases e with
  | advance t => exact quiet (fol.outside ⟨rfl, rfl⟩ rfl rfl rfl rfl)
  | scStart => exact quiet (fol.outside ⟨rfl, rfl⟩ rfl rfl rfl rfl)
  | detach i => exact quiet (fol.outside ⟨rfl, rfl⟩ rfl rfl rfl rfl)
  | step i =>
    obtain ⟨h, pc, keeps⟩ := he
    obtain ⟨debugs, _, stands, _⟩ := fol.harts i
    simp only [Stands, pc, keeps] at stands
    rw [next_step pc]
    refine fol.work (i := i) ⟨rfl, rfl⟩ rfl rfl rfl rfl (t := ⟨(cfg.begins i (s.debug i) h).1,
      .step true (cfg.begins i (s.debug i) h).2⟩) (Or.inl ?_) rfl rfl ?_ ?_
    · simp only [ModelConfig.hartWork, stands, debugs]
    · simp only [owed, pc]
    · simp only [Stands, keeps]
  | leave i =>
    obtain ⟨h, pc, gone⟩ := he
    obtain ⟨debugs, _, stands, _⟩ := fol.harts i
    simp only [Stands, pc, gone] at stands
    refine fol.work (i := i) ⟨rfl, rfl⟩ rfl (Function.update_eq_self i s.debug).symm rfl rfl
      (t := ⟨(u.client i).debug, .finished⟩) (Or.inl ?_) debugs rfl ?_ rfl
    · simp only [ModelConfig.hartWork, stands]
    · simp only [owed, pc]
  | pause i =>
    obtain ⟨h, pc⟩ := he
    obtain ⟨debugs, _, stands, _⟩ := fol.harts i
    simp only [Stands, pc] at stands
    rw [next_pause pc]
    refine fol.work (i := i) ⟨rfl, rfl⟩ rfl (Function.update_eq_self i s.debug).symm rfl rfl
      (t := ⟨(u.client i).debug, .loop (s.spike i).keepSim h⟩) (Or.inl ?_) debugs rfl ?_ rfl
    · simp only [ModelConfig.hartWork, stands]
    · simp only [owed, pc]
  | wake i =>
    obtain ⟨h, pc⟩ := he
    obtain ⟨_, _, stands, _⟩ := fol.harts i
    simp only [Stands, pc] at stands
    have moved : s.next cfg (.wake i) = s.withPc i (.loop h) := next_wake pc
    refine quiet (fol.still i (m := { s.spike i with pc := .loop h }) ⟨rfl, rfl⟩
      (by rw [moved]; rfl) (by rw [moved]; rfl) (by rw [moved]; rfl) (by rw [moved]; rfl) rfl
      ?_ stands)
    simp only [owed, pc]
  | inside i a =>
    obtain ⟨after, pc, stays⟩ := he
    obtain ⟨debugs, _, stands, _⟩ := fol.harts i
    simp only [Stands, pc] at stands
    rw [next_inside pc]
    refine fol.work (i := i) ⟨rfl, rfl⟩ rfl rfl rfl rfl
      (t := ⟨(RbbspikeModule.localBus cfg.chain (s.debug i) a).2, .step (s.spike i).keepSim
        (after (RbbspikeModule.localBus cfg.chain (s.debug i) a).1)⟩) (Or.inl ?_) rfl rfl ?_ rfl
    · simp only [ModelConfig.hartWork, stands, debugs, if_pos stays]
    · simp only [owed, pc]
  | access i a => exact fol.access maps he
  | respond i a r => exact quiet (fol.respond he)
  | tick i x =>
    obtain ⟨debugs, _, stands, _⟩ := fol.harts i
    exact fol.work (i := i) (m := s.spike i) ⟨rfl, rfl⟩ (Function.update_eq_self i s.spike).symm rfl
      rfl rfl (t := { u.client i with debug := cfg.chain.tick x (u.client i).debug })
      (Or.inr ⟨polls i s.now he.1, x, rfl⟩) (by rw [debugs]) rfl rfl stands
  | fail i r => exact absurd he (fol.no_report maps i)

theorem Polls.next (polls : s.Polls cfg) (he : s.Possible cfg e) : (s.next cfg e).Polls cfg := by
  have turned {i : ι} {b : BitbangPc} (here : cfg.rbb i = true)
      (same : (s.next cfg e).bitbang = Function.update s.bitbang i b) :
      (s.next cfg e).Polls cfg := by
    intro j wake waits
    rw [same] at waits
    by_cases mine : j = i
    · exact mine ▸ here
    · rw [Function.update_of_ne mine] at waits
      exact polls j wake waits
  have kept (same : (s.next cfg e).bitbang = s.bitbang) : (s.next cfg e).Polls cfg := by
    rw [Polls, same]
    exact polls
  cases e with
  | tick i x => exact turned (polls i _ he.1) rfl
  | detach i => exact turned (polls i _ he.1) rfl
  | advance t => exact kept rfl
  | scStart => exact kept rfl
  | leave i => exact kept rfl
  | fail i r => exact kept rfl
  | _ => exact kept (next_frame he rfl).2.1

end Steps

section Runs
variable [DecidableEq ι] [Fintype ι] {cfg : ModelConfig ι H B D X} {bus : B} {proc : ι → H}
  {debug : ι → D} {tr : List (Event ι X)} {s : ModelPlatform ι H B D}

omit [DecidableEq ι] in
theorem powerOn_polls : (powerOn cfg bus proc debug).Polls cfg := by
  intro i wake waits
  change (if cfg.rbb i then BitbangPc.waiting 0 else .finished) = _ at waits
  split at waits
  · assumption
  · cases waits

theorem powerOn_follows : Follows cfg (cfg.powerOnAtomic bus proc debug).mem []
    (powerOn cfg bus proc debug) [] (cfg.powerOnAtomic bus proc debug) where
  bytes := rfl
  stream := rfl
  order := rfl
  harts _ := ⟨rfl, rfl, rfl, rfl⟩

theorem run_follows (maps : cfg.Maps)
    (run : (machine cfg).Run (powerOn cfg bus proc debug) tr s) : ∃ ur u,
      cfg.atomic.Run (cfg.powerOnAtomic bus proc debug) ur u ∧
      Follows cfg (cfg.powerOnAtomic bus proc debug).mem tr s ur u := by
  obtain ⟨ur, u, run', _, fol⟩ := run.simulate (N := cfg.atomic)
    (fun tr ur s u => s.Polls cfg ∧ Follows cfg (cfg.powerOnAtomic bus proc debug).mem tr s ur u)
    (by
      rintro tr ur s u e ⟨polls, fol⟩ he
      obtain ⟨wr, u', run', fol'⟩ := fol.next maps polls he.2
      exact ⟨wr, u', run', polls.next he.2, fol'⟩)
    ⟨powerOn_polls, powerOn_follows⟩
  exact ⟨ur, u, run', fol⟩

/-- Whatever the harts execute, the debuggers poll and the threads interleave,
the platform does what harts without time do that share the devices and the
array, with the accesses in the order in which the uncore served them. The
replies are the atomic ones in that order, all but one still on its way, a hart
is where the atomic hart is whenever no access of its own is under way, and the
memories agree all the time. -/
theorem runs_atomically (maps : cfg.Maps)
    (run : (machine cfg).Run (powerOn cfg bus proc debug) tr s) : ∃ ur u,
      cfg.atomic.Run (cfg.powerOnAtomic bus proc debug) ur u ∧ accesses ur = taken tr ∧
      (∀ i, (answers (PositionMemory.access cfg.ucfg)
        (cfg.powerOnAtomic bus proc debug).mem (accesses ur)).filter (·.1 = i) =
          (got tr).filter (·.1 = i) ++ (owed (s.spike i)).map (i, ·)) ∧
      (∀ i h, Hart.of (s.spike i) = some h → u.client i = ⟨s.debug i, h⟩) ∧
      u.mem = ⟨PositionMemory.devices cfg.ucfg cfg.spikeBus s.bus, s.mem⟩ := by
  obtain ⟨ur, u, run', fol⟩ := run_follows maps run
  refine ⟨ur, u, run', fol.order, fun i => ?_, fun i h apart => ?_, fol.bytes⟩
  · obtain ⟨_, _, _, replies⟩ := fol.harts i
    rw [fol.order]
    exact replies
  · obtain ⟨debugs, _, stands, _⟩ := fol.harts i
    rw [← debugs]
    refine congrArg (DebugHart.mk _) ?_
    cases pc : (s.spike i).pc with
    | transport a next => simp only [Stands, pc] at stands
    | delayed a next wake =>
      simp only [Hart.of, pc] at apart
      cases apart
    | _ =>
      simp only [Hart.of, pc, Option.some.injEq] at apart
      simp only [Stands, pc] at stands
      exact stands.trans apart

end Runs

open IssPlatform (Iss script storeSeven)

/-- A debug module on page 0 that loads nothing, takes no store and counts the polls. -/
def countingChain : DebugChain Nat Unit where
  findDevice a _ := a = 0
  load polls _ d := (true, d, polls)
  store polls _ _ := (false, polls)
  tick _ polls := polls + 1

def exampleModelCfg : ModelConfig Iss (List Mmio) (Nat → Byte) Nat Unit where
  ucfg := Uncore.exampleUcfg
  spikeBus := IssPlatform.exampleCfg.spikeBus
  rbb
    | .spike0 => true
    | .spike1 => false
  proc := script
  debugged polls rest := (polls, script rest)
  chain := countingChain
  bitbangDelay := scNs 20

def loadDebug : Mmio := ⟨false, 0x104, ⟨[1], DataBuffer.one_fits⟩, Nat.one_pos⟩

/-- A load from another address of the window. -/
def loadNine : Mmio := ⟨false, 0x81000009, ⟨[0], DataBuffer.one_fits⟩, Nat.one_pos⟩

def debugPrograms : Iss → List Mmio
  | .spike0 => [loadDebug]
  | .spike1 => [storeSeven, loadNine]

/-- The first hart is polled and reads its debug module. The second stores a byte
and loads it from another address. -/
def twoIssRbb : List (Event Iss Unit) :=
  [.tick .spike0 (), .step .spike0, .inside .spike0 loadDebug, .pause .spike0, .step .spike1,
    .access .spike1 storeSeven, .advance (scNs 7),
    .respond .spike1 storeSeven ⟨true, ⟨[7], DataBuffer.one_fits⟩⟩, .pause .spike1,
    .advance (scNs 9), .wake .spike1, .step .spike1, .access .spike1 loadNine, .advance (scNs 16),
    .respond .spike1 loadNine ⟨true, ⟨[7], DataBuffer.one_fits⟩⟩]

def twoIssRbb_start : ModelPlatform Iss (List Mmio) (Nat → Byte) Nat :=
  powerOn exampleModelCfg (fun _ => 0) debugPrograms fun _ => 0

theorem exampleModelCfg_maps : exampleModelCfg.Maps :=
  ⟨IssPlatform.exampleCfg_maps.laid, IssPlatform.exampleCfg_maps.roomy,
    IssPlatform.exampleCfg_maps.serves, IssPlatform.exampleCfg_maps.keeps⟩

theorem twoIssRbb_run : (machine exampleModelCfg).Run twoIssRbb_start twoIssRbb
    ((machine exampleModelCfg).after twoIssRbb_start twoIssRbb) := by
  apply EventMachine.run_of_admits
  refine ⟨⟨⟨_, rfl⟩, rfl, rfl⟩, ⟨⟨_, rfl⟩, _, rfl, rfl⟩, ⟨⟨_, rfl⟩, _, rfl, rfl, rfl⟩,
    ⟨⟨_, rfl⟩, _, rfl⟩, ⟨⟨_, rfl⟩, _, rfl, rfl⟩,
    ⟨⟨_, rfl⟩, _, _, _, _, _, rfl, by rintro ⟨⟨⟩, _⟩, rfl⟩,
    ⟨⟨_, rfl⟩, by decide, by rintro _ ⟨⟩; decide, ?_⟩, ⟨⟨_, rfl⟩, _, _, rfl, rfl⟩,
    ⟨⟨_, rfl⟩, _, rfl⟩, ⟨⟨_, rfl⟩, by decide, by rintro _ ⟨⟩; decide, ?_⟩, ⟨⟨_, rfl⟩, _, rfl⟩,
    ⟨⟨_, rfl⟩, _, rfl, rfl⟩, ⟨⟨_, rfl⟩, _, _, _, _, _, rfl, by rintro ⟨⟨⟩, _⟩, rfl⟩,
    ⟨⟨_, rfl⟩, by decide, by rintro _ ⟨⟩; decide, ?_⟩, ⟨⟨_, rfl⟩, _, _, rfl, rfl⟩, trivial⟩
  all_goals refine Iss.forall_iss ⟨?_, ?_⟩ ⟨?_, trivial⟩
  all_goals exact Nat.le_of_ble_eq_true rfl

theorem runs_atomically_twoIssRbb : ∃ ur u,
    exampleModelCfg.atomic.Run (exampleModelCfg.powerOnAtomic (fun _ => 0) debugPrograms
      fun _ => 0) ur u ∧
    accesses ur = [(.spike1, storeSeven), (.spike1, loadNine)] ∧
    (u.client .spike0).debug = 1 ∧ u.client .spike1 = ⟨0, .step true (.done [])⟩ := by
  obtain ⟨ur, u, run, order, _, apart, _⟩ := runs_atomically exampleModelCfg_maps twoIssRbb_run
  exact ⟨ur, u, run, order, congrArg DebugHart.debug (apart .spike0 _ rfl), apart .spike1 _ rfl⟩

end ModelPlatform
