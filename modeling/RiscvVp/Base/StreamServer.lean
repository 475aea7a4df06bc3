import RiscvVp.Base.EventMachine

/-!
# A memory that answers a stream of requests

Requests are answered in arrival order by one transition function on the
memory. A server holds the answers not collected yet and the requests not
served yet. Whatever it still owes is already determined, so serving changes
neither the answers owed nor the memory the stream settles to.
-/

universe u v w

namespace StreamServer

variable {σ : Type u} {α : Type v} {β : Type w} (f : σ → α → σ × β)

/-- The memory after a stream of requests. -/
def settle (m : σ) (reqs : List α) : σ := reqs.foldl (fun m a => (f m a).1) m

/-- The answers to a stream of requests. -/
def replies : σ → List α → List β
  | _, [] => []
  | m, a :: rest => (f m a).2 :: replies (f m a).1 rest

@[simp] theorem settle_nil (m : σ) : settle f m [] = m := rfl

@[simp] theorem settle_cons (m : σ) (a : α) (l : List α) :
    settle f m (a :: l) = settle f (f m a).1 l := rfl

@[simp] theorem settle_append (m : σ) (l r : List α) :
    settle f m (l ++ r) = settle f (settle f m l) r := List.foldl_append ..

@[simp] theorem replies_nil (m : σ) : replies f m [] = [] := rfl

@[simp] theorem replies_cons (m : σ) (a : α) (l : List α) :
    replies f m (a :: l) = (f m a).2 :: replies f (f m a).1 l := rfl

@[simp] theorem replies_append (m : σ) (l r : List α) :
    replies f m (l ++ r) = replies f m l ++ replies f (settle f m l) r := by
  induction l generalizing m with
  | nil => rfl
  | cons a l ih => simp [ih]

@[simp] theorem replies_length (m : σ) (l : List α) : (replies f m l).length = l.length := by
  induction l generalizing m with
  | nil => rfl
  | cons a l ih => simp [ih]

/-- The answer at a position is computed from the memory the earlier requests leave. -/
theorem replies_getElem (m : σ) (l : List α) (k : Nat) (hk : k < (replies f m l).length) :
    (replies f m l)[k] = (f (settle f m (l.take k)) (l.get ⟨k, by simpa using hk⟩)).2 := by
  induction l generalizing m k with
  | nil => simp at hk
  | cons a l ih =>
    cases k with
    | zero => simp
    | succ k => simpa using ih (f m a).1 k (by simpa using hk)

/-- Requests that leave the memory alone are answered from it as it stands. -/
theorem settle_eq_self {m : σ} {l : List α} (keeps : ∀ a ∈ l, (f m a).1 = m) :
    settle f m l = m := by
  induction l with
  | nil => rfl
  | cons a l ih =>
    rw [settle_cons, keeps a List.mem_cons_self]
    exact ih (fun b hb => keeps b (List.mem_cons_of_mem a hb))

end StreamServer

/-- Oldest entries stand first in both queues. -/
structure StreamServer (σ : Type u) (α : Type v) (β : Type w) where
  mem : σ
  done : List β
  pend : List α

namespace StreamServer

variable {σ : Type u} {α : Type v} {β : Type w} (f : σ → α → σ × β)

inductive Event (α : Type v) (β : Type w) where
  | push (a : α)
  | serve
  | pop (b : β)

def idle (m : σ) : StreamServer σ α β := ⟨m, [], []⟩

def push (v : StreamServer σ α β) (a : α) : StreamServer σ α β :=
  { v with pend := v.pend ++ [a] }

def serve (v : StreamServer σ α β) : StreamServer σ α β :=
  match v.pend with
  | [] => v
  | a :: rest => ⟨(f v.mem a).1, v.done ++ [(f v.mem a).2], rest⟩

def pop (v : StreamServer σ α β) : StreamServer σ α β := { v with done := v.done.tail }

def machine : EventMachine (StreamServer σ α β) (Event α β) where
  Enabled
    | _, .push _ => True
    | v, .serve => v.pend ≠ []
    | v, .pop b => v.done.head? = some b
  next
    | v, .push a => v.push a
    | v, .serve => v.serve f
    | v, .pop _ => v.pop

/-- Every answer the server owes, collected or not. -/
def answers (v : StreamServer σ α β) : List β := v.done ++ replies f v.mem v.pend

/-- The memory once everything pending has been served. -/
def settled (v : StreamServer σ α β) : σ := settle f v.mem v.pend

variable (v : StreamServer σ α β)

@[simp] theorem answers_push (a : α) :
    (v.push a).answers f = v.answers f ++ [(f (v.settled f) a).2] := by
  simp [answers, push, settled, List.append_assoc]

@[simp] theorem settled_push (a : α) : (v.push a).settled f = (f (v.settled f) a).1 := by
  simp [settled, push]

@[simp] theorem answers_serve : (v.serve f).answers f = v.answers f := by
  obtain ⟨m, done, pend⟩ := v
  cases pend <;> simp [answers, serve]

@[simp] theorem settled_serve : (v.serve f).settled f = v.settled f := by
  obtain ⟨m, done, pend⟩ := v
  cases pend <;> simp [settled, serve]

@[simp] theorem settled_pop : (v.pop).settled f = v.settled f := rfl

theorem answers_pop {b : β} (head : v.done.head? = some b) :
    v.answers f = b :: (v.pop).answers f := by
  obtain ⟨m, done, pend⟩ := v
  cases done with
  | nil => cases head
  | cons c rest =>
    cases head
    rfl

theorem pend_eq_nil_of_answers {v : StreamServer σ α β} (none : v.answers f = []) :
    v.done = [] ∧ v.pend = [] := by
  obtain ⟨hdone, hreplies⟩ := List.append_eq_nil_iff.mp none
  have hlen := replies_length f v.mem v.pend
  rw [hreplies] at hlen
  exact ⟨hdone, List.eq_nil_of_length_eq_zero hlen.symm⟩

def pushed (tr : List (Event α β)) : List α :=
  tr.filterMap (fun | .push a => some a | _ => none)

def popped (tr : List (Event α β)) : List β :=
  tr.filterMap (fun | .pop b => some b | _ => none)

@[simp] theorem pushed_append (tr ur : List (Event α β)) :
    pushed (tr ++ ur) = pushed tr ++ pushed ur := List.filterMap_append ..

@[simp] theorem popped_append (tr ur : List (Event α β)) :
    popped (tr ++ ur) = popped tr ++ popped ur := List.filterMap_append ..

/-- What was collected and what is still owed are together the answers to the stream. -/
theorem run_answers {m : σ} {tr : List (Event α β)} {v : StreamServer σ α β}
    (run : (machine f).Run (idle m) tr v) :
    popped tr ++ v.answers f = replies f m (pushed tr) ∧
      v.settled f = settle f m (pushed tr) := by
  refine run.invariant (fun tr v => popped tr ++ v.answers f = replies f m (pushed tr) ∧
    v.settled f = settle f m (pushed tr)) ⟨rfl, rfl⟩ ?_
  rintro tr v e ⟨hans, hset⟩ he
  cases e with
  | push a =>
    have hpush : pushed [(Event.push a : Event α β)] = [a] := rfl
    have hpop : popped [(Event.push a : Event α β)] = [] := rfl
    change popped (tr ++ [.push a]) ++ (v.push a).answers f = _ ∧ (v.push a).settled f = _
    simp only [popped_append, pushed_append, hpush, hpop, List.append_nil, answers_push,
      settled_push, replies_append, settle_append, ← hset, ← hans]
    exact ⟨by simp, by simp⟩
  | serve =>
    have hpush : pushed [(Event.serve : Event α β)] = [] := rfl
    have hpop : popped [(Event.serve : Event α β)] = [] := rfl
    change popped (tr ++ [.serve]) ++ (v.serve f).answers f = _ ∧ (v.serve f).settled f = _
    simpa only [popped_append, pushed_append, hpush, hpop, List.append_nil, answers_serve,
      settled_serve] using And.intro hans hset
  | pop b =>
    have hpush : pushed [(Event.pop b : Event α β)] = [] := rfl
    have hpop : popped [(Event.pop b : Event α β)] = [b] := rfl
    change popped (tr ++ [.pop b]) ++ v.pop.answers f = _ ∧ v.pop.settled f = _
    rw [answers_pop f v he] at hans
    simpa only [popped_append, pushed_append, hpush, hpop, List.append_nil, List.append_assoc,
      List.singleton_append, settled_pop] using And.intro hans hset

end StreamServer
