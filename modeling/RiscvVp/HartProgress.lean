import RiscvVp.Spike
import RiscvVp.Base.EndlessRun
import Mathlib.Data.DFinsupp.WellFounded
import Mathlib.Data.Prod.Lex
import Mathlib.SetTheory.Ordinal.Family

/-!
# How far a hart is in its loop

An instruction makes finitely many accesses, but how many depends on the answers,
and there are infinitely many of those. So what is left of an instruction is an
ordinal. Below it stands what is left of the access under way.
-/

namespace Ask

variable {α β γ : Type}

/-- What is left of a computation, whatever the answers. -/
noncomputable def rank : Ask α β γ → Ordinal.{0}
  | .done _ => 0
  | .ask _ next => ⨆ r, (next r).rank + 1

theorem rank_next_lt (a : α) (next : β → Ask α β γ) (r : β) :
    (next r).rank < (ask a next).rank :=
  Ordinal.lt_iSup_add_one (fun r => (next r).rank) r

/-- Whatever the answers, it asks only for what P allows. -/
def All (P : α → Prop) : Ask α β γ → Prop
  | .done _ => True
  | .ask a next => P a ∧ ∀ r, (next r).All P

theorem all_of_forall {P : α → Prop} (holds : ∀ a, P a) (x : Ask α β γ) : x.All P := by
  induction x with
  | done c => exact trivial
  | ask a next ih => exact ⟨holds a, ih⟩

end Ask

/-- How far a hart is: of its round first, then of its access. -/
abbrev HartRank := Ordinal.{0} ×ₗ Nat

namespace SpikePc

variable {H : Type}

/-- What a thread does with its place at one time. `may` tells which instructions
can begin in a state of the processor, `call` and `call'` are what is left of its
call of the memory before and after. -/
inductive Moves (may : H → Ask Mmio Reply H → Prop) (now call call' : Nat) :
    SpikePc H → SpikePc H → Prop
  | begins {h : H} {rest : Ask Mmio Reply H} (begin : may h rest) :
      Moves may now call call' (.loop h) (.step rest)
  | leaves {h : H} : Moves may now call call' (.loop h) .finished
  | pauses {h : H} {wake : Nat} (later : now < wake) :
      Moves may now call call' (.step (.done h)) (.paused h wake)
  | wakes {h : H} : Moves may now call call' (.paused h now) (.loop h)
  | stays {a : Mmio} {next : Reply → Ask Mmio Reply H} {r : Reply} :
      Moves may now call call' (.step (.ask a next)) (.step (next r))
  | answered {a : Mmio} {next : Reply → Ask Mmio Reply H} {wake : Nat} :
      Moves may now call call' (.step (.ask a next)) (.delayed a next wake)
  | called {a : Mmio} {next : Reply → Ask Mmio Reply H}
      (short : call' < 2 * a.bytes.bytes.length + 5) :
      Moves may now call call' (.step (.ask a next)) (.transport a next)
  | resumed {a : Mmio} {next : Reply → Ask Mmio Reply H} (less : call' < call) :
      Moves may now call call' (.transport a next) (.transport a next)
  | returned {a : Mmio} {next : Reply → Ask Mmio Reply H} {wake : Nat} :
      Moves may now call call' (.transport a next) (.delayed a next wake)
  | replied {a : Mmio} {next : Reply → Ask Mmio Reply H} {r : Reply} :
      Moves may now call call' (.delayed a next now) (.step (next r))

/-- Nothing is left of a round in a wait that is not due. `limit` is above every
instruction that may come next. -/
noncomputable def rank (limit : H → Ordinal.{0}) (due : Nat → Bool) (call : Nat) :
    SpikePc H → HartRank
  | .loop h => toLex (limit h, 0)
  | .step (.done _) => toLex (0, 1)
  | .step (.ask a next) => toLex ((Ask.ask a next).rank, 2 * a.bytes.bytes.length + 6)
  | .transport a next => toLex ((Ask.ask a next).rank, call + 1)
  | .delayed a next _ => toLex ((Ask.ask a next).rank, 0)
  | .paused h wake => if due wake then toLex (limit h + 1, 0) else toLex (0, 0)
  | .finished => toLex (0, 0)

/-- The rest of the instruction asks only for what P allows. -/
def Asks (P : Mmio → Prop) : SpikePc H → Prop
  | .step rest => rest.All P
  | .transport a next => (Ask.ask a next).All P
  | .delayed a next _ => (Ask.ask a next).All P
  | _ => True

variable {may : H → Ask Mmio Reply H → Prop} {now call call' : Nat} {pc pc' : SpikePc H}
  {limit : H → Ordinal.{0}} {due : Nat → Bool}

theorem toLex_lt_of_fst {x y : Ordinal.{0}} {m n : Nat} (less : x < y) :
    (toLex (x, m) : HartRank) < toLex (y, n) :=
  Prod.Lex.toLex_lt_toLex.mpr (Or.inl less)

theorem toLex_lt_of_snd {x : Ordinal.{0}} {m n : Nat} (less : m < n) :
    (toLex (x, m) : HartRank) < toLex (x, n) :=
  Prod.Lex.toLex_lt_toLex.mpr (Or.inr ⟨rfl, less⟩)

/-- An instruction is below whatever is above its computation. -/
theorem rank_step_lt {rest : Ask Mmio Reply H} {x : Ordinal.{0}} {n : Nat} (less : rest.rank < x) :
    rank limit due call (.step rest) < toLex (x, n) := by
  cases rest with
  | done h => exact toLex_lt_of_fst less
  | ask a next => exact toLex_lt_of_fst less

/-- Every move brings the thread closer to the end of its round, but for the
wait in which a round that is due already would begin. -/
theorem Moves.rank_lt (move : Moves may now call call' pc pc')
    (above : ∀ h rest, may h rest → rest.rank < limit h) (positive : ∀ h, 0 < limit h)
    (begins : due now = true)
    (ends : (∃ h, pc = .step (.done h)) → ∀ wake, now < wake → due wake = false) :
    rank limit due call' pc' < rank limit due call pc := by
  cases move with
  | begins begin => exact rank_step_lt (above _ _ begin)
  | leaves => exact toLex_lt_of_fst (positive _)
  | pauses later =>
    rw [rank, rank, ends ⟨_, rfl⟩ _ later, if_neg Bool.false_ne_true]
    exact toLex_lt_of_snd Nat.zero_lt_one
  | wakes =>
    rw [rank, rank, if_pos begins]
    exact toLex_lt_of_fst (lt_add_one _)
  | stays => exact rank_step_lt (Ask.rank_next_lt ..)
  | answered => exact toLex_lt_of_snd (by omega)
  | called short => exact toLex_lt_of_snd (by omega)
  | resumed less => exact toLex_lt_of_snd (Nat.succ_lt_succ less)
  | returned => exact toLex_lt_of_snd (Nat.succ_pos call)
  | replied => exact rank_step_lt (Ask.rank_next_lt ..)

theorem Moves.asks {P : Mmio → Prop} (move : Moves may now call call' pc pc')
    (procs : ∀ h rest, may h rest → rest.All P) (asks : pc.Asks P) : pc'.Asks P := by
  cases move with
  | begins begin => exact procs _ _ begin
  | leaves => exact trivial
  | pauses later => exact trivial
  | wakes => exact trivial
  | @stays a next r => exact asks.2 r
  | answered => exact asks
  | called short => exact asks
  | resumed less => exact asks
  | returned => exact asks
  | @replied a next r => exact asks.2 r

end SpikePc

/-- One rank falls and the others stay. -/
theorem ranks_lt {ι : Type} {α : Type*} [Preorder α] {f g : ι → α} {i : ι}
    (others : ∀ j, j ≠ i → f j = g j) (less : f i < g i) : f < g := by
  refine Pi.lt_def.mpr ⟨fun j => ?_, i, less⟩
  by_cases same : j = i
  · exact same ▸ less.le
  · exact (others j same).le
