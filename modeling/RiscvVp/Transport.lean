import RiscvVp.Payload
import RiscvVp.Pipeline

/-!
# The blocking transport of the RTL memory

A call of `memrtl_module::b_transport` is suspended at the mutex, at a queue
or in a timed wait, and runs in between without interruption. An activation is
the suspended call: its payload and where it stands. The pipeline and the mutex
are shared by all calls.
-/

/-- The message type and text handed to `SC_REPORT_ERROR`, which throws. -/
structure Report where
  msgType : String
  msg : String
deriving DecidableEq, Repr

/-- Locals of the burst loop that does not block on the queues. -/
structure Poll where
  currReq : Nat
  currResp : Nat
  reqDataSet : Bool
  reqVec : Word
  nextreqtime : Nat
  nextresptime : Nat

/-- Where a call is suspended. `write` and `read` are the blocking queue calls
of beat i, `wait` is the timed wait of the other loop and the time it ends. -/
inductive Pc where
  | lock
  | write (i : Nat) (reqVec : Word)
  | read (i : Nat)
  | wait (rtlCtrlExt : RtlcontrolTlmExtension) (l : Poll) (wake : Nat)
  | unlock
  | returned
  | raised (r : Report)

/-- The end of the timed wait, in one. -/
def Pc.wake : Pc → Option Nat
  | .wait _ _ wake => some wake
  | _ => none

structure Activation where
  trans : Payload
  delay : Nat
  pc : Pc

/-- The pipeline and the owner of `rtl_access`. -/
structure Memrtl (ι : Type) where
  pipe : Pipe
  rtlAccess : Option ι

namespace Payload

def rtlMaxRamAddress : BitVec 64 := 65535

def operation (t : Payload) : BitVec 1 := if t.command = .write then 1 else 0

def isLast (t : Payload) (i : Nat) : Bool := i == t.dataLength - 1

/-- Bits 31, 30, 29:24, 23:8 and 7:0 of a request, as both burst loops set them. -/
def packReq (operation last : BitVec 1) (addr : BitVec 16) (data : Byte) : Word :=
  (operation ++ last ++ 0#6 ++ addr ++ data : BitVec (1 + 1 + 6 + 16 + 8))

/-- `addr + i` is cut to the 16 bits of the address field. -/
def beatAddr (t : Payload) (i : Nat) : BitVec 16 :=
  (t.address + BitVec.ofNat 64 i).setWidth 16

/-- The request word of beat i. -/
def reqBeat (t : Payload) (i : Nat) : Word :=
  packReq t.operation (if t.isLast i then 1#1 else 0#1) (t.beatAddr i) (t.data.get i)

def respLast (respVec : Word) : BitVec 1 := respVec.extractLsb' 30 1

def respData (respVec : Word) : Byte := respVec.extractLsb' 0 8

/-- The two checks of the LAST bit of response i. -/
def misframed (t : Payload) (i : Nat) (respVec : Word) : Bool :=
  (t.isLast i && respLast respVec == 0) || (!t.isLast i && respLast respVec == 1)

/-- Response i replaces byte i of the caller's buffer and is checked. -/
def acceptResp (t : Payload) (i : Nat) (respVec : Word) : Payload :=
  { t with
    data := t.data.set i (respData respVec)
    responseStatus := if t.misframed i respVec then .genericError else t.responseStatus }

end Payload

namespace Activation

/-- From the call to the mutex: bound test, response status and command. -/
def bTransport (trans : Payload) (delay : Nat) : Activation :=
  if trans.beyond Payload.rtlMaxRamAddress then
    ⟨trans.setResponseStatus .genericError, delay, .returned⟩
  else
    match trans.command with
    | .read => ⟨trans.setResponseStatus .ok, delay + 0, .lock⟩
    | .write => ⟨trans.setResponseStatus .ok, delay + 0, .lock⟩
    | .ignore => ⟨trans.setResponseStatus .ok, delay, .raised ⟨"Uncore_Module", "Command ERROR."⟩⟩

/-- Top of the blocking loop. -/
def blockingHead (a : Activation) (i : Nat) : Activation :=
  if i < a.trans.dataLength then { a with pc := .write i (a.trans.reqBeat i) }
  else { a with pc := .unlock }

/-- Top of the polling loop, down to its wait. -/
def pollingHead (a : Activation) (now : Nat) (rtlCtrlExt : RtlcontrolTlmExtension) (l : Poll) :
    Activation :=
  if l.currResp < a.trans.dataLength then
    { a with pc := .wait rtlCtrlExt l (now + scTimeSub (min l.nextreqtime l.nextresptime) now) }
  else { a with pc := .unlock }

/-- The loop a call enters once it owns the mutex. -/
def burst (a : Activation) (now : Nat) : Activation :=
  match a.trans.extension with
  | none => a.blockingHead 0
  | some rtlCtrlExt =>
    a.pollingHead now rtlCtrlExt
      { currReq := 0
        currResp := 0
        reqDataSet := false
        reqVec := 0
        nextreqtime := now + rtlCtrlExt.reqDelay
        nextresptime := now + rtlCtrlExt.respDelay }

end Activation

namespace Poll

/-- A beat is packed once and kept until the queue takes it. -/
def packed (l : Poll) (t : Payload) : Poll :=
  if l.reqDataSet then l else { l with reqVec := t.reqBeat l.currReq, reqDataSet := true }

theorem packed_locals (l : Poll) (t : Payload) : (l.packed t).currReq = l.currReq ∧
    (l.packed t).currResp = l.currResp ∧ (l.packed t).nextresptime = l.nextresptime := by
  rw [packed]
  split <;> exact ⟨rfl, rfl, rfl⟩

/-- One attempt to push the current beat. -/
def tryRequest (l : Poll) (t : Payload) (p : Pipe) : Poll × Pipe :=
  if l.currReq < t.dataLength then
    match p.nbWrite (l.packed t).reqVec with
    | some q => ({ l.packed t with currReq := l.currReq + 1, reqDataSet := false }, q)
    | none => (l.packed t, p)
  else (l, p)

def requestSlot (l : Poll) (t : Payload) (ext : RtlcontrolTlmExtension) (now : Nat) (p : Pipe) :
    Poll × Pipe :=
  if l.nextreqtime ≤ now then
    ({ (l.tryRequest t p).1 with nextreqtime := l.nextreqtime + ext.reqDelay },
      (l.tryRequest t p).2)
  else (l, p)

/-- One attempt to pop the next response. -/
def tryResponse (l : Poll) (t : Payload) (p : Pipe) : Poll × Payload × Pipe :=
  match p.nbRead with
  | some (respVec, q) =>
    ({ l with currResp := l.currResp + 1 }, t.acceptResp l.currResp respVec, q)
  | none => (l, t, p)

def responseSlot (l : Poll) (t : Payload) (ext : RtlcontrolTlmExtension) (now : Nat) (p : Pipe) :
    Poll × Payload × Pipe :=
  if l.nextresptime ≤ now then
    ({ (l.tryResponse t p).1 with nextresptime := l.nextresptime + ext.respDelay },
      (l.tryResponse t p).2)
  else (l, t, p)

end Poll

namespace Activation

variable {ι : Type} [DecidableEq ι]

/-- One iteration of the polling loop after its wait: request slot, then response slot. -/
def poll (a : Activation) (now : Nat) (ext : RtlcontrolTlmExtension) (l : Poll) (p : Pipe) :
    Activation × Pipe :=
  let (l, p) := l.requestSlot a.trans ext now p
  let (l, trans, p) := l.responseSlot a.trans ext now p
  (({ a with trans := trans }).pollingHead now ext l, p)

/-- The call goes on from where it is suspended, if what it waits for has come. -/
def resume (a : Activation) (me : ι) (now : Nat) (m : Memrtl ι) : Option (Activation × Memrtl ι) :=
  match a.pc with
  | .lock =>
    if m.rtlAccess = none then some (a.burst now, { m with rtlAccess := some me }) else none
  | .write i reqVec =>
    (m.pipe.nbWrite reqVec).map fun p => ({ a with pc := .read i }, { m with pipe := p })
  | .read i =>
    m.pipe.nbRead.map fun (respVec, p) =>
      (({ a with trans := a.trans.acceptResp i respVec }).blockingHead (i + 1),
        { m with pipe := p })
  | .wait ext l wake =>
    if now = wake then
      some ((a.poll now ext l m.pipe).1, { m with pipe := (a.poll now ext l m.pipe).2 })
    else none
  | .unlock =>
    some ({ a with pc := .returned },
      { m with rtlAccess := if m.rtlAccess = some me then none else m.rtlAccess })
  | .returned => none
  | .raised _ => none

end Activation

namespace Activation

variable {ι : Type} [DecidableEq ι] {a b : Activation} {me : ι} {now : Nat} {m n : Memrtl ι}

section Keeps
variable {I : Pipe → Prop} (write : ∀ p q w, I p → p.nbWrite w = some q → I q)
  (read : ∀ p q w, I p → p.nbRead = some (w, q) → I q)

include write in
theorem requestSlot_keeps {l : Poll} {t : Payload} {ext : RtlcontrolTlmExtension} {p : Pipe}
    (h : I p) : I (l.requestSlot t ext now p).2 := by
  rw [Poll.requestSlot]
  split
  · simp only [Poll.tryRequest]
    split
    · cases hwrite : p.nbWrite (l.packed t).reqVec with
      | none => exact h
      | some q => exact write _ _ _ h hwrite
    · exact h
  · exact h

include read in
theorem responseSlot_keeps {l : Poll} {t : Payload} {ext : RtlcontrolTlmExtension} {p : Pipe}
    (h : I p) : I (l.responseSlot t ext now p).2.2 := by
  rw [Poll.responseSlot]
  split
  · simp only [Poll.tryResponse]
    cases hread : p.nbRead with
    | none => exact h
    | some r => exact read _ _ _ h hread
  · exact h

include write read in
/-- A call touches the pipeline only through the two queues. -/
theorem resume_keeps (h : I m.pipe) (step : a.resume me now m = some (b, n)) : I n.pipe := by
  cases hpc : a.pc with
  | lock =>
    simp only [resume, hpc, Option.ite_none_right_eq_some, Option.some.injEq, Prod.mk.injEq] at step
    exact step.2.2 ▸ h
  | write i reqVec =>
    simp only [resume, hpc, Option.map_eq_some_iff, Prod.mk.injEq] at step
    obtain ⟨q, hwrite, _, rfl⟩ := step
    exact write _ _ _ h hwrite
  | read i =>
    simp only [resume, hpc, Option.map_eq_some_iff, Prod.mk.injEq] at step
    obtain ⟨r, hread, _, rfl⟩ := step
    exact read _ _ _ h hread
  | wait ext l wake =>
    simp only [resume, hpc, Option.ite_none_right_eq_some, Option.some.injEq, Prod.mk.injEq] at step
    obtain ⟨_, _, rfl⟩ := step
    exact responseSlot_keeps read (requestSlot_keeps write h)
  | unlock =>
    simp only [resume, hpc, Option.some.injEq, Prod.mk.injEq] at step
    exact step.2 ▸ h
  | returned => simp [resume, hpc] at step
  | raised r => simp [resume, hpc] at step

end Keeps

theorem resume_valid (valid : m.pipe.Valid) (step : a.resume me now m = some (b, n)) :
    n.pipe.Valid :=
  resume_keeps (fun _ _ _ => Pipe.nbWrite_valid) (fun _ _ _ => Pipe.nbRead_valid) valid step

/-- The reset line and the block are out of reach of a call. -/
theorem resume_block (step : a.resume me now m = some (b, n)) :
    n.pipe.rstn = m.pipe.rstn ∧ n.pipe.veritop0 = m.pipe.veritop0 := by
  refine resume_keeps (I := fun p => p.rstn = m.pipe.rstn ∧ p.veritop0 = m.pipe.veritop0)
    ?_ ?_ ⟨rfl, rfl⟩ step
  · intro p q w h hwrite
    obtain ⟨_, _, rfl⟩ := Pipe.nbWrite_eq_some.mp hwrite
    exact h
  · intro p q w h hread
    obtain ⟨_, _, rfl⟩ := Pipe.nbRead_eq_some.mp hread
    exact h

end Activation
