import RiscvVp.KernelProgress
import RiscvVp.Base.PeriodicTimer

/-!
# The schedule of the polling loop

A burst with the delay extension polls the queues on two grids, one for its
requests and one for its responses. Here the loop runs against anything: at
every wake-up it finds the queues as they please, so that each attempt may
succeed or fail. The log keeps what was served when.
-/

/-- One slot: whether the beat was taken, if there was one left to push, or
whether a response was there. -/
inductive Slot where
  | request (wrote : Option Bool)
  | response (read : Bool)
deriving DecidableEq, Repr

namespace Slot

def isRequest : Slot → Bool
  | .request _ => true
  | .response _ => false

def wrote : Slot → Bool
  | .request (some true) => true
  | _ => false

def read : Slot → Bool
  | .response true => true
  | _ => false

def pushed (slots : List Slot) : Nat := slots.countP wrote

def popped (slots : List Slot) : Nat := slots.countP read

variable (slots more : List Slot)

@[simp] theorem pushed_append : pushed (slots ++ more) = pushed slots + pushed more :=
  List.countP_append

@[simp] theorem popped_append : popped (slots ++ more) = popped slots + popped more :=
  List.countP_append

end Slot

/-- The queues as a wake-up finds them, and the slots it serves, in their order. -/
structure Wakeup where
  time : Nat
  pipe : Pipe
  slots : List Slot

namespace Poll

variable (l : Poll) (t : Payload) (now : Nat) (p : Pipe)

/-- The request slot as the loop serves it now. -/
def servesRequest : List Slot :=
  if l.nextreqtime ≤ now then
    [.request (if l.currReq < t.dataLength then some (p.nbWrite (l.packed t).reqVec).isSome
      else none)]
  else []

def servesResponse : List Slot :=
  if l.nextresptime ≤ now then [.response p.nbRead.isSome] else []

end Poll

/-- Both slots of one iteration, the response slot on what the request slot left. -/
def Activation.serves (a : Activation) (now : Nat) (ext : RtlcontrolTlmExtension) (l : Poll)
    (p : Pipe) : List Slot :=
  let (l', q) := l.requestSlot a.trans ext now p
  l.servesRequest a.trans now p ++ l'.servesResponse now q

/-- The loop at the top of an iteration, with the time it is and the wake-ups so far. -/
structure PollLoop where
  act : Activation
  now : Nat
  log : List Wakeup

namespace PollLoop

/-- The loop as the burst enters it at time t0. -/
def entered (a : Activation) (t0 : Nat) : PollLoop := ⟨a.burst t0, t0, []⟩

/-- The loop goes on as long as it waits; the event is what the wait ends on. -/
def machine : EventMachine PollLoop Pipe where
  Enabled x _ := x.act.pc.wake.isSome
  next x p :=
    match x.act.pc with
    | .wait ext l wake =>
      ⟨(x.act.poll wake ext l p).1, wake, x.log ++ [⟨wake, p, x.act.serves wake ext l p⟩]⟩
    | _ => x

variable (x : PollLoop)

def slots : List Slot := x.log.flatMap Wakeup.slots

def requestTimes : List Nat :=
  x.log.flatMap fun w => (w.slots.filter Slot.isRequest).map fun _ => w.time

def responseTimes : List Nat :=
  x.log.flatMap fun w => (w.slots.filter fun s => !s.isRequest).map fun _ => w.time

end PollLoop

namespace Poll

open Slot (pushed popped)

variable (l : Poll) (t : Payload) (ext : RtlcontrolTlmExtension) (now : Nat) (p : Pipe)

/-- What the request slot does to the locals and to the responses waiting. -/
theorem requestSlot_serves :
    (l.requestSlot t ext now p).1.nextreqtime =
        (if l.nextreqtime ≤ now then l.nextreqtime + ext.reqDelay else l.nextreqtime) ∧
      (l.requestSlot t ext now p).1.nextresptime = l.nextresptime ∧
      (l.requestSlot t ext now p).1.currReq = l.currReq + pushed (l.servesRequest t now p) ∧
      (l.currReq ≤ t.dataLength → (l.requestSlot t ext now p).1.currReq ≤ t.dataLength) ∧
      (l.requestSlot t ext now p).1.currResp = l.currResp ∧
      (l.requestSlot t ext now p).2.respPipe = p.respPipe := by
  have packed := l.packed_locals t
  simp only [requestSlot, servesRequest]
  by_cases due : l.nextreqtime ≤ now
  · simp only [if_pos due, tryRequest]
    by_cases more : l.currReq < t.dataLength
    · cases taken : p.nbWrite (l.packed t).reqVec with
      | none => simp [more, packed, pushed, Slot.wrote]
      | some q =>
        obtain ⟨rest, _, rfl⟩ := Pipe.nbWrite_eq_some.mp taken
        simp only [if_pos more]
        exact ⟨trivial, packed.2.2, rfl, fun _ => more, packed.2.1, trivial⟩
    · simp [more, pushed, Slot.wrote]
  · simp [due, pushed]

theorem responseSlot_serves :
    (l.responseSlot t ext now p).1.nextresptime =
        (if l.nextresptime ≤ now then l.nextresptime + ext.respDelay else l.nextresptime) ∧
      (l.responseSlot t ext now p).1.nextreqtime = l.nextreqtime ∧
      (l.responseSlot t ext now p).1.currReq = l.currReq ∧
      (l.responseSlot t ext now p).1.currResp = l.currResp + popped (l.servesResponse now p) ∧
      (l.responseSlot t ext now p).2.1.dataLength = t.dataLength := by
  simp only [responseSlot, servesResponse]
  by_cases due : l.nextresptime ≤ now
  · simp only [if_pos due, tryResponse]
    cases found : p.nbRead with
    | none => simp [popped, Slot.read]
    | some r => simp [popped, Slot.read]
  · simp [due, popped]

end Poll

namespace Activation

open Slot (pushed popped)

variable (a : Activation) (now : Nat) (ext : RtlcontrolTlmExtension) (l : Poll) (p : Pipe)

/-- A slot that is due is served once, the request slot first. -/
theorem serves_eq : ∃ wrote, a.serves now ext l p =
    (if l.nextreqtime ≤ now then [.request wrote] else []) ++
      if l.nextresptime ≤ now then [.response p.nbRead.isSome] else [] := by
  obtain ⟨_, next, _, _, _, responses⟩ := l.requestSlot_serves a.trans ext now p
  have waiting : (l.requestSlot a.trans ext now p).2.nbRead.isSome = p.nbRead.isSome := by
    rw [Pipe.nbRead, Pipe.nbRead, responses, Option.isSome_map, Option.isSome_map]
  refine ⟨if l.currReq < a.trans.dataLength then
    some (p.nbWrite (l.packed a.trans).reqVec).isSome else none, ?_⟩
  simp only [serves, Poll.servesRequest, Poll.servesResponse, next, waiting]

theorem poll_serves : ∃ trans l', (a.poll now ext l p).1 =
      ({ a with trans := trans } : Activation).pollingHead now ext l' ∧
    trans.dataLength = a.trans.dataLength ∧
    l'.nextreqtime =
      (if l.nextreqtime ≤ now then l.nextreqtime + ext.reqDelay else l.nextreqtime) ∧
    l'.nextresptime =
      (if l.nextresptime ≤ now then l.nextresptime + ext.respDelay else l.nextresptime) ∧
    l'.currReq = l.currReq + pushed (a.serves now ext l p) ∧
    (l.currReq ≤ a.trans.dataLength → l'.currReq ≤ a.trans.dataLength) ∧
    l'.currResp = l.currResp + popped (a.serves now ext l p) := by
  obtain ⟨req, resp, curr, fits, currResp, _⟩ := l.requestSlot_serves a.trans ext now p
  cases first : l.requestSlot a.trans ext now p with | mk l₁ q =>
  rw [first] at req resp curr fits currResp
  obtain ⟨resp', req', curr', currResp', length⟩ := l₁.responseSlot_serves a.trans ext now q
  have silent : popped (l.servesRequest a.trans now p) = 0 ∧
      pushed (l₁.servesResponse now q) = 0 := by
    simp only [Poll.servesRequest, Poll.servesResponse]
    constructor <;> split <;> simp [pushed, popped, Slot.wrote, Slot.read]
  have served : a.serves now ext l p =
      l.servesRequest a.trans now p ++ l₁.servesResponse now q := by
    rw [serves, first]
  refine ⟨(l₁.responseSlot a.trans ext now q).2.1, (l₁.responseSlot a.trans ext now q).1, ?_,
    length, req'.trans req, ?_, ?_, fun before => curr' ▸ fits before, ?_⟩
  · rw [poll, first]
  · rw [resp', resp]
  · rw [curr', curr, served, Slot.pushed_append, silent.2, Nat.add_zero]
  · rw [currResp', currResp, served, Slot.popped_append, silent.1, Nat.zero_add]

end Activation

namespace PollLoop

open Slot (pushed popped)

/-- The two grids of a burst that starts at time t0. -/
def requestTimer (t0 : Nat) (ext : RtlcontrolTlmExtension) : PeriodicTimer := ⟨t0, ext.reqDelay⟩

def responseTimer (t0 : Nat) (ext : RtlcontrolTlmExtension) : PeriodicTimer := ⟨t0, ext.respDelay⟩

/-- Every slot of either grid up to now is in the log, once and at its own time.
Slots of one instant share a wake-up, the request slot first. -/
structure Served (t0 : Nat) (ext : RtlcontrolTlmExtension) (x : PollLoop) : Prop where
  requests : x.requestTimes = (requestTimer t0 ext).elapsed x.now
  responses : x.responseTimes = (responseTimer t0 ext).elapsed x.now
  increasing : (x.log.map Wakeup.time).Pairwise (· < ·)
  last : (x.log.map Wakeup.time).getLastD t0 = x.now
  together : ∀ w ∈ x.log, (∃ wrote, w.slots = [.request wrote]) ∨
    (∃ read, w.slots = [.response read]) ∨
    ∃ wrote read, w.slots = [.request wrote, .response read]

/-- At every top both slots are still to come, so that the wait does not wrap, it
ends at the earlier of them, and the locals count the beats pushed and popped. -/
structure OnSchedule (t0 : Nat) (ext : RtlcontrolTlmExtension) (x : PollLoop) : Prop
    extends Served t0 ext x where
  ahead : ∀ ext' l wake, x.act.pc = .wait ext' l wake →
    x.now < l.nextreqtime ∧ x.now < l.nextresptime ∧
      scTimeSub (min l.nextreqtime l.nextresptime) x.now =
        min l.nextreqtime l.nextresptime - x.now ∧
      wake = min l.nextreqtime l.nextresptime
  counted : ∀ ext' l wake, x.act.pc = .wait ext' l wake →
    l.currReq = pushed x.slots ∧ l.currResp = popped x.slots

/-- Responses exist for pushed requests only: those waiting at a wake-up and those
popped before it are no more than the requests pushed before it. -/
def Solicited (x : PollLoop) : Prop :=
  ∀ (i : Nat) (hi : i < x.log.length),
    popped ((x.log.take i).flatMap Wakeup.slots) + x.log[i].pipe.respPipe.items.length ≤
      pushed ((x.log.take i).flatMap Wakeup.slots)

/-- The locals at the top of an iteration that goes on. -/
structure Top (t0 : Nat) (ext : RtlcontrolTlmExtension) (length : Nat) (x : PollLoop) (l : Poll) :
    Prop where
  pc : x.act.pc = .wait ext l (min l.nextreqtime l.nextresptime)
  nextreqtime : l.nextreqtime = (requestTimer t0 ext).next x.now
  nextresptime : l.nextresptime = (responseTimer t0 ext).next x.now
  currReq : l.currReq = pushed x.slots
  currResp : l.currResp = popped x.slots
  unfinished : l.currResp < length

/-- What every iteration keeps. -/
structure Inv (t0 : Nat) (ext : RtlcontrolTlmExtension) (length : Nat) (x : PollLoop) : Prop
    extends Served t0 ext x where
  past : ∀ w ∈ x.log, w.time ≤ x.now
  forward : t0 ≤ x.now
  dataLength : x.act.trans.dataLength = length
  pushed_le : pushed x.slots ≤ length
  head : x.act.pc = .unlock ∨ ∃ l, Top t0 ext length x l

variable {t0 length : Nat} {ext : RtlcontrolTlmExtension} {x : PollLoop} {l : Poll} {a : Activation}

theorem entered_inv (carries : a.trans.extension = some ext)
    (positive : 0 < ext.reqDelay ∧ 0 < ext.respDelay) :
    Inv t0 ext a.trans.dataLength (entered a t0) := by
  have req : (requestTimer t0 ext).next t0 = t0 + ext.reqDelay := PeriodicTimer.next_start
  have resp : (responseTimer t0 ext).next t0 = t0 + ext.respDelay := PeriodicTimer.next_start
  obtain ⟨l, burst, currReq, currResp, nextreq, nextresp⟩ : ∃ l : Poll,
      a.burst t0 = a.pollingHead t0 ext l ∧ l.currReq = 0 ∧ l.currResp = 0 ∧
        l.nextreqtime = t0 + ext.reqDelay ∧ l.nextresptime = t0 + ext.respDelay := by
    rw [Activation.burst, carries]
    exact ⟨_, rfl, rfl, rfl, rfl, rfl⟩
  rw [Kernel.pollingHead_paced (by omega) (by omega)] at burst
  have dataLength : (entered a t0).act.trans.dataLength = a.trans.dataLength := by
    rw [entered, burst]
  refine ⟨⟨PeriodicTimer.elapsed_start.symm, PeriodicTimer.elapsed_start.symm, .nil, rfl,
    fun w hw => absurd hw List.not_mem_nil⟩, fun w hw => absurd hw List.not_mem_nil,
    Nat.le_refl t0, dataLength, Nat.zero_le _, ?_⟩
  by_cases unfinished : l.currResp < a.trans.dataLength
  · right
    exact ⟨l, (congrArg Activation.pc burst).trans (if_pos unfinished), nextreq.trans req.symm,
      nextresp.trans resp.symm, currReq, currResp, unfinished⟩
  · exact Or.inl ((congrArg Activation.pc burst).trans (if_neg unfinished))

/-- The state after a wake-up. -/
theorem next_eq (top : Top t0 ext length x l) (p : Pipe) : machine.next x p =
    ⟨(x.act.poll (min l.nextreqtime l.nextresptime) ext l p).1, min l.nextreqtime l.nextresptime,
      x.log ++ [⟨min l.nextreqtime l.nextresptime, p,
        x.act.serves (min l.nextreqtime l.nextresptime) ext l p⟩]⟩ := by
  simp only [machine, top.pc]

/-- The wait ends later than it began, at the next point of a grid. -/
theorem Top.wakes (top : Top t0 ext length x l) (positive : 0 < ext.reqDelay ∧ 0 < ext.respDelay) :
    x.now < min l.nextreqtime l.nextresptime ∧
      min l.nextreqtime l.nextresptime ≤ (requestTimer t0 ext).next x.now ∧
      min l.nextreqtime l.nextresptime ≤ (responseTimer t0 ext).next x.now := by
  have req : x.now < (requestTimer t0 ext).next x.now := PeriodicTimer.lt_next positive.1
  have resp : x.now < (responseTimer t0 ext).next x.now := PeriodicTimer.lt_next positive.2
  rw [top.nextreqtime, top.nextresptime]
  exact ⟨Nat.lt_min.mpr ⟨req, resp⟩, Nat.min_le_left _ _, Nat.min_le_right _ _⟩

/-- A wake-up at the next due time of either grid serves what is due then. -/
theorem Inv.served (inv : Inv t0 ext length x) (top : Top t0 ext length x l)
    (positive : 0 < ext.reqDelay ∧ 0 < ext.respDelay) (p : Pipe) :
    Served t0 ext (machine.next x p) := by
  obtain ⟨later, reqSoon, respSoon⟩ := top.wakes positive
  have req := (PeriodicTimer.visit (T := requestTimer t0 ext) positive.1 inv.forward
    (Nat.le_of_lt later) reqSoon).1
  have resp := (PeriodicTimer.visit (T := responseTimer t0 ext) positive.2 inv.forward
    (Nat.le_of_lt later) respSoon).1
  have due : l.nextreqtime ≤ min l.nextreqtime l.nextresptime ∨
      l.nextresptime ≤ min l.nextreqtime l.nextresptime := by omega
  obtain ⟨wrote, serves⟩ := x.act.serves_eq (min l.nextreqtime l.nextresptime) ext l p
  rw [← top.nextreqtime] at req
  rw [← top.nextresptime] at resp
  rw [next_eq top, serves]
  generalize min l.nextreqtime l.nextresptime = wake at later req resp due
  constructor
  · have before : x.log.flatMap _ = _ := inv.requests
    rw [req, requestTimes, List.flatMap_append, before]
    congr 1
    split <;> split <;> rfl
  · have before : x.log.flatMap _ = _ := inv.responses
    rw [resp, responseTimes, List.flatMap_append, before]
    congr 1
    split <;> split <;> rfl
  · rw [List.map_append, List.pairwise_append]
    refine ⟨inv.increasing, List.pairwise_singleton _ _, ?_⟩
    intro t ht t' ht'
    obtain ⟨w, hw, rfl⟩ := List.mem_map.mp ht
    obtain rfl := List.mem_singleton.mp ht'
    exact Nat.lt_of_le_of_lt (inv.past w hw) later
  · simp
  · intro w hw
    rcases List.mem_append.mp hw with before | now
    · exact inv.together w before
    · obtain rfl := List.mem_singleton.mp now
      by_cases req : l.nextreqtime ≤ wake
      · by_cases resp : l.nextresptime ≤ wake
        · exact Or.inr (Or.inr ⟨wrote, _, by simp only [if_pos req, if_pos resp]; rfl⟩)
        · exact Or.inl ⟨wrote, by simp only [if_pos req, if_neg resp]; rfl⟩
      · have resp : l.nextresptime ≤ wake := due.resolve_left req
        exact Or.inr (Or.inl ⟨_, by simp only [if_neg req, if_pos resp]; rfl⟩)

/-- A thread that waits is at the top of an iteration. -/
theorem Inv.top_of_enabled (inv : Inv t0 ext length x) {p : Pipe} (goes : machine.Enabled x p) :
    ∃ l, Top t0 ext length x l := by
  obtain ended | top := inv.head
  · have waits : x.act.pc.wake.isSome = true := goes
    rw [ended] at waits
    cases waits
  · exact top

theorem Inv.next (inv : Inv t0 ext length x) (positive : 0 < ext.reqDelay ∧ 0 < ext.respDelay)
    {p : Pipe} (goes : machine.Enabled x p) : Inv t0 ext length (machine.next x p) := by
  obtain ⟨l, top⟩ := inv.top_of_enabled goes
  have served := inv.served top positive p
  obtain ⟨later, reqSoon, respSoon⟩ := top.wakes positive
  have req := (PeriodicTimer.visit (T := requestTimer t0 ext) positive.1 inv.forward
    (Nat.le_of_lt later) reqSoon).2
  have resp := (PeriodicTimer.visit (T := responseTimer t0 ext) positive.2 inv.forward
    (Nat.le_of_lt later) respSoon).2
  obtain ⟨trans, l', poll, dataLength, nextreq, nextresp, curr, fits, got⟩ :=
    x.act.poll_serves (min l.nextreqtime l.nextresptime) ext l p
  rw [← top.nextreqtime] at req
  rw [← top.nextresptime] at resp
  replace req := nextreq.trans req.symm
  replace resp := nextresp.trans resp.symm
  have reqLater : min l.nextreqtime l.nextresptime < l'.nextreqtime :=
    req.symm ▸ PeriodicTimer.lt_next positive.1
  have respLater : min l.nextreqtime l.nextresptime < l'.nextresptime :=
    resp.symm ▸ PeriodicTimer.lt_next positive.2
  rw [Kernel.pollingHead_paced reqLater respLater] at poll
  rw [inv.dataLength] at dataLength fits
  have slots : (machine.next x p).slots = x.slots ++
      x.act.serves (min l.nextreqtime l.nextresptime) ext l p := by
    rw [next_eq top, PollLoop.slots, List.flatMap_append, List.flatMap_singleton]
    rfl
  have currReq : l'.currReq = pushed (machine.next x p).slots := by
    rw [slots, Slot.pushed_append, curr, top.currReq]
  have currResp : l'.currResp = popped (machine.next x p).slots := by
    rw [slots, Slot.popped_append, got, top.currResp]
  refine ⟨served, ?_, ?_, ?_, ?_, ?_⟩
  · rw [next_eq top]
    intro w hw
    rcases List.mem_append.mp hw with before | now
    · exact Nat.le_of_lt (Nat.lt_of_le_of_lt (inv.past w before) later)
    · obtain rfl := List.mem_singleton.mp now
      exact Nat.le_refl _
  · rw [next_eq top]
    exact Nat.le_trans inv.forward (Nat.le_of_lt later)
  · rw [next_eq top, poll]
    exact dataLength
  · rw [← currReq]
    exact fits (top.currReq ▸ inv.pushed_le)
  · have pc : (machine.next x p).act.pc = if l'.currResp < length then
        .wait ext l' (min l'.nextreqtime l'.nextresptime) else .unlock := by
      rw [next_eq top, poll, ← dataLength]
    have now : (machine.next x p).now = min l.nextreqtime l.nextresptime := by
      rw [next_eq top]
    by_cases unfinished : l'.currResp < length
    · right
      rw [if_pos unfinished] at pc
      exact ⟨l', pc, by rw [now, req], by rw [now, resp], currReq, currResp, unfinished⟩
    · rw [if_neg unfinished] at pc
      exact Or.inl pc

/-- The responses popped never overtake the requests pushed. -/
def Within (slots : List Slot) : Prop := ∀ part, part <+: slots → popped part ≤ pushed part

theorem Within.snoc {slots : List Slot} {e : Slot} (within : Within slots)
    (last : popped (slots ++ [e]) ≤ pushed (slots ++ [e])) : Within (slots ++ [e]) := by
  intro part hpart
  rcases List.prefix_concat_iff.mp hpart with rfl | earlier
  · exact last
  · exact within part earlier

/-- A wake-up that finds no more responses than are owed keeps to that. -/
theorem Within.wakeup {slots : List Slot} {p : Pipe} (within : Within slots)
    (owed : popped slots + p.respPipe.items.length ≤ pushed slots) (wrote : Option Bool)
    (req resp : Bool) :
    Within (slots ++ ((if req then [.request wrote] else []) ++
      if resp then [.response p.nbRead.isSome] else [])) := by
  have pushing : Within (slots ++ if req then [.request wrote] else []) ∧
      popped (slots ++ if req then [.request wrote] else []) + p.respPipe.items.length ≤
        pushed (slots ++ if req then [.request wrote] else []) := by
    cases req with
    | false => simpa using ⟨within, owed⟩
    | true =>
      have idle : popped [.request wrote] = 0 := rfl
      simp only [if_true]
      refine ⟨within.snoc ?_, ?_⟩ <;> rw [Slot.popped_append, Slot.pushed_append, idle] <;> omega
  rw [← List.append_assoc]
  generalize slots ++ (if req then [.request wrote] else []) = before at pushing
  obtain ⟨within', owed'⟩ := pushing
  cases resp with
  | false => simpa using within'
  | true =>
    apply within'.snoc
    rw [Slot.popped_append, Slot.pushed_append]
    cases found : p.nbRead with
    | none =>
      have nothing : popped [.response (none : Option (Word × Pipe)).isSome] = 0 := rfl
      omega
    | some r =>
      have one : popped [.response (some r).isSome] = 1 := rfl
      have waiting : p.respPipe.items ≠ [] := fun empty => by
        rw [Pipe.nbRead_eq_none.mpr empty] at found
        cases found
      have := List.length_pos_iff.mpr waiting
      omega

theorem Inv.within (inv : Inv t0 ext length x) {p : Pipe} (goes : machine.Enabled x p)
    (within : Solicited x → Within x.slots) (solicited : Solicited (machine.next x p)) :
    Within (machine.next x p).slots := by
  obtain ⟨l, top⟩ := inv.top_of_enabled goes
  obtain ⟨wrote, serves⟩ := x.act.serves_eq (min l.nextreqtime l.nextresptime) ext l p
  rw [next_eq top] at solicited ⊢
  have before : Solicited x := by
    intro i hi
    have owed := solicited i (by simp only [List.length_append]; omega)
    rwa [List.take_append_of_le_length (Nat.le_of_lt hi), List.getElem_append_left hi] at owed
  have owed := solicited x.log.length (by simp)
  rw [List.take_left, List.getElem_concat_length rfl] at owed
  have result := (within before).wakeup owed wrote
    (decide (l.nextreqtime ≤ min l.nextreqtime l.nextresptime))
    (decide (l.nextresptime ≤ min l.nextreqtime l.nextresptime))
  rw [PollLoop.slots, List.flatMap_append, List.flatMap_singleton, serves]
  change Within (x.slots ++ _)
  simpa only [decide_eq_true_eq] using result

variable {tr : List Pipe}

theorem run_inv (carries : a.trans.extension = some ext)
    (positive : 0 < ext.reqDelay ∧ 0 < ext.respDelay) (run : machine.Run (entered a t0) tr x) :
    Inv t0 ext a.trans.dataLength x ∧ (Solicited x → Within x.slots) := by
  refine run.invariant
    (fun _ x => Inv t0 ext a.trans.dataLength x ∧ (Solicited x → Within x.slots))
    ⟨entered_inv carries positive, fun _ part hpart => ?_⟩ ?_
  · obtain rfl := List.prefix_nil.mp hpart
    exact Nat.le_refl 0
  · rintro _ x p ⟨inv, within⟩ goes
    exact ⟨inv.next positive goes, inv.within goes within⟩

/-- Whatever the queues do, a burst entered at time t0 serves the slots of both
grids at their times, up to the end of the loop. Where responses come for pushed
requests only, the counters keep apart and within the length after every slot. -/
theorem burst_on_schedule (carries : a.trans.extension = some ext)
    (positive : 0 < ext.reqDelay ∧ 0 < ext.respDelay) (run : machine.Run (entered a t0) tr x) :
    OnSchedule t0 ext x ∧ (Solicited x → ∀ part, part <+: x.slots →
      popped part ≤ pushed part ∧ pushed part ≤ a.trans.dataLength) := by
  obtain ⟨inv, within⟩ := run_inv carries positive run
  have tops {ext' : RtlcontrolTlmExtension} {l : Poll} {wake : Nat}
      (pc : x.act.pc = .wait ext' l wake) :
      Top t0 ext a.trans.dataLength x l ∧ wake = min l.nextreqtime l.nextresptime := by
    obtain ended | ⟨l', top⟩ := inv.head
    · rw [ended] at pc
      cases pc
    · have same := top.pc.symm.trans pc
      cases same
      exact ⟨top, rfl⟩
  refine ⟨⟨inv.toServed, ?_, ?_⟩, fun solicited part hpart => ?_⟩
  · intro ext' l wake pc
    obtain ⟨top, wakes⟩ := tops pc
    have later := (top.wakes positive).1
    refine ⟨by omega, by omega, ?_, wakes⟩
    exact scTimeSub_of_le (Nat.le_of_lt later)
  · intro ext' l wake pc
    obtain ⟨top, _⟩ := tops pc
    exact ⟨top.currReq, top.currResp⟩
  · have fewer : pushed part ≤ pushed x.slots := hpart.sublist.countP_le
    exact ⟨within solicited part hpart, Nat.le_trans fewer inv.pushed_le⟩

instance (x : PollLoop) (p : Pipe) : Decidable (machine.Enabled x p) :=
  inferInstanceAs (Decidable (_ = true))

/-- Queues with nothing in them, and queues with one response. -/
def bare : Pipe := .powerOn Bench.staleBlock

def answering : Pipe := { bare with respPipe := ⟨[0], by decide⟩ }

/-- Each attempt may go either way, whatever becomes of the other. -/
theorem exists_outcomes (wrote read : Bool) :
    ∃ p : Pipe, (∀ w, (p.nbWrite w).isSome = wrote) ∧ p.nbRead.isSome = read := by
  refine ⟨{ bare with
    reqPipe := if wrote then .empty else ⟨[0, 0, 0, 0], by decide⟩
    respPipe := if read then ⟨[0], by decide⟩ else .empty }, ?_, ?_⟩
  · intro w
    cases wrote <;> rfl
  · cases read <;> rfl

/-- A store of two bytes that pushes every 2 time units and pops every 3. -/
def twoAndThree : Activation :=
  ⟨⟨.write, 5, ⟨[7, 9], DataBuffer.two_fits⟩, .incomplete, some ⟨2, 3⟩⟩, 0, .lock⟩

theorem burst_on_schedule_twoAndThree : ∃ x,
    machine.Run (entered twoAndThree 10) [bare, answering, bare, answering] x ∧
      x.act.pc = .unlock ∧ x.requestTimes = [12, 14, 16] ∧ x.responseTimes = [13, 16] ∧
      ∀ part, part <+: x.slots → popped part ≤ pushed part ∧ pushed part ≤ 2 := by
  have admits : machine.Admits (entered twoAndThree 10) [bare, answering, bare, answering] := by
    decide
  have run := EventMachine.run_of_admits admits
  have carries : twoAndThree.trans.extension = some ⟨2, 3⟩ := rfl
  have result := burst_on_schedule carries (by decide) run
  refine ⟨_, run, rfl, ?_, ?_, result.2 ?_⟩
  · rw [result.1.requests]
    decide
  · rw [result.1.responses]
    decide
  · unfold Solicited
    decide

end PollLoop

namespace Kernel

variable {ι : Type} [DecidableEq ι] {period t0 : Nat} {me : ι} {k k' : Kernel ι} {a : Activation}
  {ext : RtlcontrolTlmExtension} {tr : List Event}

/-- The polling burst of a call under the kernel is such a loop, each wake-up with
the queues as the clock has left them. -/
theorem run_polls (carries : a.trans.extension = some ext)
    (positive : 0 < ext.reqDelay ∧ 0 < ext.respDelay) (locked : k.act = a.burst t0)
    (run : (machine period me).Run k tr k') : k'.act.pc = .returned ∨
      ∃ found x, PollLoop.machine.Run (PollLoop.entered a t0) found x ∧ x.act = k'.act := by
  refine run.invariant (fun _ (k' : Kernel ι) => k'.act.pc = .returned ∨
    ∃ found x, PollLoop.machine.Run (PollLoop.entered a t0) found x ∧ x.act = k'.act)
    (Or.inr ⟨[], PollLoop.entered a t0, .refl, locked.symm⟩) ?_
  rintro _ k e before he
  cases e with
  | edge => exact before
  | release => exact before
  | advance t => exact before
  | resume =>
    obtain ⟨⟨act, mem⟩, step⟩ := Option.isSome_iff_exists.mp he
    have stepped : k.next period me .resume = { k with act := act, mem := mem } :=
      next_resume step
    change (k.next period me .resume).act.pc = _ ∨ ∃ found x, _ ∧ _ = (k.next period me .resume).act
    rw [stepped]
    rcases before with returned | ⟨found, x, polls, same⟩
    · simp [resumed, Activation.resume, returned] at step
    · obtain ended | ⟨l, top⟩ := (PollLoop.run_inv carries positive polls).1.head
      · rw [same] at ended
        simp only [resumed, Activation.resume, ended, Option.some.injEq, Prod.mk.injEq] at step
        exact Or.inl (congrArg Activation.pc step.1.symm)
      · right
        have pc := top.pc
        rw [same] at pc
        simp only [resumed, Activation.resume, pc, Option.ite_none_right_eq_some,
          Option.some.injEq, Prod.mk.injEq] at step
        obtain ⟨now, rfl, _⟩ := step
        have goes : PollLoop.machine.Enabled x k.mem.pipe := by
          change x.act.pc.wake.isSome = true
          rw [top.pc]
          rfl
        refine ⟨_, _, polls.snoc goes, ?_⟩
        rw [PollLoop.next_eq top, same, now]

end Kernel
