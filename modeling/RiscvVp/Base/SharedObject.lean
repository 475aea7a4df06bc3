import RiscvVp.Base.StreamServer
import Mathlib.Logic.Function.Basic

/-!
# Clients of a shared object

A client asks an object and goes on with the answer. In the atomic system each
request takes effect in one step, so a run is one stream of requests to the
object and each client follows the answers to its own.
-/

universe u v w x y

/-- A computation that asks, one request at a time, and ends with a result. -/
inductive Ask (α : Type u) (β : Type v) (γ : Type w) where
  | done (c : γ)
  | ask (a : α) (next : β → Ask α β γ)

/-- What a client asks for, how it takes the answer, and what it may do in between. -/
structure Client (τ : Type u) (α : Type v) (β : Type w) where
  request : τ → Option α
  receive : τ → β → τ
  work : τ → τ → Prop

structure SharedObject (ι : Type u) (σ : Type v) (τ : Type w) where
  mem : σ
  client : ι → τ

namespace SharedObject

inductive Event (ι : Type u) (τ : Type v) (α : Type w) where
  | work (i : ι) (t : τ)
  | access (i : ι) (a : α)

variable {ι : Type u} {σ : Type v} {τ : Type w} {α : Type x} {β : Type y} [DecidableEq ι]

def machine (C : ι → Client τ α β) (f : σ → α → σ × β) :
    EventMachine (SharedObject ι σ τ) (Event ι τ α) where
  Enabled s
    | .work i t => (C i).work (s.client i) t
    | .access i a => (C i).request (s.client i) = some a
  next s
    | .work i t => { s with client := Function.update s.client i t }
    | .access i a =>
      { mem := (f s.mem a).1
        client := Function.update s.client i ((C i).receive (s.client i) (f s.mem a).2) }

/-- The requests in the order they took effect. -/
def accesses (tr : List (Event ι τ α)) : List (ι × α) :=
  tr.filterMap (fun | .access i a => some (i, a) | .work _ _ => none)

omit [DecidableEq ι] in
@[simp] theorem accesses_append (tr ur : List (Event ι τ α)) :
    accesses (tr ++ ur) = accesses tr ++ accesses ur := List.filterMap_append ..

/-- One request, with the client that made it. -/
def serve (f : σ → α → σ × β) (m : σ) (c : ι × α) : σ × (ι × β) :=
  ((f m c.2).1, (c.1, (f m c.2).2))

/-- The answers to a stream of requests, with their clients. -/
def answers (f : σ → α → σ × β) (m : σ) (l : List (ι × α)) : List (ι × β) :=
  StreamServer.replies (serve f) m l

omit [DecidableEq ι] in
theorem answers_append (f : σ → α → σ × β) (m : σ) (l r : List (ι × α)) :
    answers f m (l ++ r) = answers f m l ++ answers f (StreamServer.settle (serve f) m l) r :=
  StreamServer.replies_append ..

omit [DecidableEq ι] in
/-- An answer goes to a client that asked, and was given in some state of the object. -/
theorem served_of_mem_answers {f : σ → α → σ × β} {m : σ} {l : List (ι × α)} {r : ι × β}
    (hr : r ∈ answers f m l) : ∃ c ∈ l, ∃ m', r = (c.1, (f m' c.2).2) := by
  induction l generalizing m with
  | nil => cases hr
  | cons c l ih =>
    rcases List.mem_cons.mp hr with rfl | later
    · exact ⟨c, List.mem_cons_self, m, rfl⟩
    · obtain ⟨d, hd, served⟩ := ih later
      exact ⟨d, List.mem_cons_of_mem c hd, served⟩


end SharedObject
