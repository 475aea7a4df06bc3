import RiscvVp.Base.SharedObject
import Mathlib.Data.List.Infix

/-!
# A client by itself

The others reach a client only through the object. If their requests leave alone
what its own are answered from, it goes as it would with an object of its own,
and then nothing but the start decides what it asks and what it is answered.
-/

universe u v w x y z

namespace EventMachine

variable {σ : Type u} {ε : Type v} {M : EventMachine σ ε} {s t : σ} {tr ur : List ε}

/-- Each state has at most one way to go on. -/
def Determinate (M : EventMachine σ ε) : Prop :=
  ∀ s e e', M.Enabled s e → M.Enabled s e' → e = e'

theorem admits_snoc {e : ε} (admits : M.Admits s tr) (he : M.Enabled (M.after s tr) e) :
    M.Admits s (tr ++ [e]) := by
  induction tr generalizing s with
  | nil => exact ⟨he, trivial⟩
  | cons d tr ih => exact ⟨admits.1, ih admits.2 he⟩

theorem Run.admits (run : M.Run s tr t) : M.Admits s tr ∧ t = M.after s tr := by
  induction run with
  | refl => exact ⟨trivial, rfl⟩
  | snoc _ he ih =>
    obtain ⟨admits, rfl⟩ := ih
    exact ⟨admits_snoc admits he, by rw [after, after, List.foldl_append]; rfl⟩

/-- From one state such a machine has no two ways to run. -/
theorem Determinate.comparable (det : M.Determinate) (left : M.Admits s tr)
    (right : M.Admits s ur) : tr <+: ur ∨ ur <+: tr := by
  induction tr generalizing s ur with
  | nil => exact Or.inl List.nil_prefix
  | cons e tr ih =>
    cases ur with
    | nil => exact Or.inr List.nil_prefix
    | cons e' ur =>
      obtain rfl := det s e e' left.1 right.1
      rw [List.prefix_cons_inj, List.prefix_cons_inj]
      exact ih left.2 right.2

end EventMachine

/-- A client that never has a choice. -/
structure Client.Determinate {τ : Type u} {α : Type v} {β : Type w} (D : Client τ α β) :
    Prop where
  work : ∀ t r r', D.work t r → D.work t r' → r = r'
  asks : ∀ t r a, D.request t = some a → ¬ D.work t r

/-- Answers come in the order of the requests. -/
theorem StreamServer.replies_prefix {σ : Type u} {α : Type v} {β : Type w} {f : σ → α → σ × β}
    {m : σ} {l r : List α} (part : l <+: r) : replies f m l <+: replies f m r := by
  obtain ⟨rest, rfl⟩ := part
  rw [replies_append]
  exact List.prefix_append _ _

namespace SharedObject

open StreamServer (replies)

variable {ι : Type u} {σ : Type v} {τ : Type w} {α : Type x} {β : Type y} {τ' : Type z}
  {σ' : Type v} [DecidableEq ι]

/-- What is client i's in a list. -/
def share {γ : Type x} (i : ι) (l : List (ι × γ)) : List γ := (l.filter (·.1 = i)).map (·.2)

section Share
variable {γ : Type x} {i j : ι} {c : γ} {l r : List (ι × γ)}

@[simp] theorem share_nil : share i ([] : List (ι × γ)) = [] := rfl

@[simp] theorem share_append : share i (l ++ r) = share i l ++ share i r := by
  rw [share, List.filter_append, List.map_append]
  rfl

theorem share_cons_self : share i ((i, c) :: l) = c :: share i l := by simp [share]

theorem share_cons_of_ne (other : j ≠ i) : share i ((j, c) :: l) = share i l := by
  simp [share, other]

theorem mem_share : c ∈ share i l ↔ (i, c) ∈ l := by simp [share]

theorem share_prefix (part : l <+: r) : share i l <+: share i r :=
  (part.filter _).map _

end Share

/-- What client i asks and how it goes on is what a client with an object of its
own does, as long as the requests are of one kind. -/
structure Shields (C : ι → Client τ α β) (f : σ → α → σ × β) (i : ι) (D : Client τ' α β)
    (g : σ' → α → σ' × β) (K : τ → τ' → Prop) (E : σ → σ' → Prop) (P : ι × α → Prop) :
    Prop where
  work : ∀ t t' r, K t t' → (C i).work t r → ∃ r', D.work t' r' ∧ K r r'
  request : ∀ t t' a, K t t' → (C i).request t = some a → D.request t' = some a
  receive : ∀ t t' a b, K t t' → (C i).request t = some a →
    K ((C i).receive t b) (D.receive t' b)
  own : ∀ m m' a, E m m' → P (i, a) → (f m a).2 = (g m' a).2 ∧ E (f m a).1 (g m' a).1
  other : ∀ m m' j a, E m m' → j ≠ i → P (j, a) → E (f m a).1 m'

namespace Shields

variable {C : ι → Client τ α β} {f : σ → α → σ × β} {i : ι} {D : Client τ' α β}
  {g : σ' → α → σ' × β} {K : τ → τ' → Prop} {E : σ → σ' → Prop} {P : ι × α → Prop}

/-- The client gets its answers from its own object. -/
theorem answers (shields : Shields C f i D g K E P) {m : σ} {m' : σ'} {l : List (ι × α)}
    (same : E m m') (kind : ∀ c ∈ l, P c) :
    share i (SharedObject.answers f m l) = replies g m' (share i l) := by
  induction l generalizing m m' with
  | nil => rfl
  | cons c l ih =>
    obtain ⟨j, a⟩ := c
    have later : ∀ c ∈ l, P c := fun c hc => kind c (List.mem_cons_of_mem _ hc)
    have here := kind (j, a) List.mem_cons_self
    have unfolded : SharedObject.answers f m ((j, a) :: l) =
        (j, (f m a).2) :: SharedObject.answers f (f m a).1 l := rfl
    by_cases mine : j = i
    · subst mine
      obtain ⟨reply, after⟩ := shields.own m m' a same here
      rw [unfolded, share_cons_self, share_cons_self, StreamServer.replies_cons, reply,
        ih after later]
    · rw [unfolded, share_cons_of_ne mine, share_cons_of_ne mine]
      exact ih (shields.other m m' j a same mine here) later

/-- Every run of the many leaves the client where it could be by itself. -/
theorem alone (shields : Shields C f i D g K E P) {s u : SharedObject ι σ τ} {m' : σ'} {t' : τ'}
    {ur : List (Event ι τ α)} (client : K (s.client i) t') (same : E s.mem m')
    (run : (machine C f).Run s ur u) (kind : ∀ c ∈ accesses ur, P c) : ∃ wr v,
      (machine (fun _ : Unit => D) g).Run ⟨m', fun _ => t'⟩ wr v ∧ K (u.client i) (v.client ()) ∧
      E u.mem v.mem ∧ share () (accesses wr) = share i (accesses ur) := by
  induction run with
  | refl => exact ⟨[], _, .refl, client, same, rfl⟩
  | @snoc ur u e run he ih =>
    rw [accesses_append] at kind
    obtain ⟨wr, v, run', client', same', order⟩ :=
      ih fun c hc => kind c (List.mem_append_left _ hc)
    cases e with
    | work j r =>
      have silent : accesses [(.work j r : Event ι τ α)] = [] := rfl
      by_cases mine : j = i
      · subst mine
        obtain ⟨r', work, client''⟩ := shields.work _ _ r client' he
        have enabled : (machine (fun _ : Unit => D) g).Enabled v (.work () r') := work
        have goes := run'.snoc enabled
        refine ⟨_, _, goes, ?_, same', ?_⟩
        · simpa [machine] using client''
        · rw [accesses_append, accesses_append, silent, List.append_nil]
          exact (congrArg _ (List.append_nil _)).trans order
      · refine ⟨wr, v, run', ?_, same', ?_⟩
        · simpa [machine, Function.update_of_ne (Ne.symm mine)] using client'
        · rw [accesses_append, silent, List.append_nil]
          exact order
    | access j a =>
      have here : P (j, a) := kind (j, a) (List.mem_append_right _ List.mem_cons_self)
      have one : accesses [(.access j a : Event ι τ α)] = [(j, a)] := rfl
      by_cases mine : j = i
      · subst mine
        obtain ⟨reply, after⟩ := shields.own _ _ a same' here
        have enabled : (machine (fun _ : Unit => D) g).Enabled v (.access () a) :=
          shields.request _ _ a client' he
        have goes := run'.snoc enabled
        refine ⟨_, _, goes, ?_, after, ?_⟩
        · simp only [machine, Function.update_self]
          rw [reply]
          exact shields.receive _ _ a _ client' he
        · rw [accesses_append, accesses_append, one, share_append, share_append, order,
            share_cons_self]
          rfl
      · refine ⟨wr, v, run', ?_, shields.other _ _ j a same' mine here, ?_⟩
        · simpa [machine, Function.update_of_ne (Ne.symm mine)] using client'
        · rw [accesses_append, one, share_append, share_cons_of_ne mine, share_nil,
            List.append_nil]
          exact order

end Shields

/-- A client without a choice has one way to run on an object of its own. -/
theorem determinate_of_client {D : Client τ α β} {f : σ → α → σ × β} (det : D.Determinate) :
    (machine (fun _ : Unit => D) f).Determinate := by
  intro s e e' he he'
  cases e with
  | work _ r =>
    cases e' with
    | work _ r' => rw [det.work _ r r' he he']
    | access _ a => exact absurd he (det.asks _ r a he')
  | access _ a =>
    cases e' with
    | work _ r => exact absurd he' (det.asks _ r a he)
    | access _ a' =>
      have same : some a = some a' := he.symm.trans he'
      rw [Option.some.inj same]

/-- What it asks in two runs is the same as far as both go, and so are the answers
that have reached it. -/
theorem comparable_of_client {D : Client τ α β} {f : σ → α → σ × β} (det : D.Determinate)
    {s u u' : SharedObject Unit σ τ} {ur ur' : List (Event Unit τ α)} {l l' : List α}
    {got got' : List β} (run : (machine (fun _ : Unit => D) f).Run s ur u)
    (run' : (machine (fun _ : Unit => D) f).Run s ur' u') (asked : share () (accesses ur) = l)
    (asked' : share () (accesses ur') = l') (answered : got <+: replies f s.mem l)
    (answered' : got' <+: replies f s.mem l') :
    (l <+: l' ∨ l' <+: l) ∧ (got <+: got' ∨ got' <+: got) := by
  subst asked
  subst asked'
  have both := (determinate_of_client (f := f) det).comparable run.admits.1 run'.admits.1
  rcases both with first | second
  · have part : share () (accesses ur) <+: share () (accesses ur') :=
      share_prefix (first.filterMap _)
    exact ⟨Or.inl part, List.prefix_or_prefix_of_prefix
      (answered.trans (StreamServer.replies_prefix part)) answered'⟩
  · have part : share () (accesses ur') <+: share () (accesses ur) :=
      share_prefix (second.filterMap _)
    exact ⟨Or.inr part, List.prefix_or_prefix_of_prefix answered
      (answered'.trans (StreamServer.replies_prefix part))⟩

/-- On an object that answers alike what a lone client asks, it goes the same way. -/
theorem retrace {D : Client τ α β} {f : σ → α → σ × β} {g : σ' → α → σ' × β} {m : σ} {m' : σ'}
    {t : Unit → τ} {ur : List (Event Unit τ α)}
    (admits : (machine (fun _ : Unit => D) f).Admits ⟨m, t⟩ ur)
    (alike : replies f m (share () (accesses ur)) = replies g m' (share () (accesses ur))) :
    (machine (fun _ : Unit => D) g).Admits ⟨m', t⟩ ur ∧
      ((machine (fun _ : Unit => D) g).after ⟨m', t⟩ ur).client =
        ((machine (fun _ : Unit => D) f).after ⟨m, t⟩ ur).client := by
  induction ur generalizing m m' t with
  | nil => exact ⟨trivial, rfl⟩
  | cons e ur ih =>
    obtain ⟨he, later⟩ := admits
    cases e with
    | work j r =>
      obtain ⟨admits', client⟩ := ih later alike
      exact ⟨⟨he, admits'⟩, client⟩
    | access j a =>
      have asked : share () (accesses (.access j a :: ur)) = a :: share () (accesses ur) :=
        share_cons_self
      rw [asked, StreamServer.replies_cons, StreamServer.replies_cons] at alike
      obtain ⟨reply, rest⟩ := List.cons.inj alike
      obtain ⟨admits', client⟩ := ih later rest
      have next : (machine (fun _ : Unit => D) g).next ⟨m', t⟩ (.access j a) =
          ⟨(g m' a).1, Function.update t j (D.receive (t j) (f m a).2)⟩ := by
        rw [reply]
        rfl
      refine ⟨⟨he, ?_⟩, ?_⟩
      · rw [next]
        exact admits'
      · change ((machine _ _).after ((machine (fun _ : Unit => D) g).next ⟨m', t⟩ (.access j a))
          ur).client = _
        rw [next]
        exact client

theorem retrace_run {D : Client τ α β} {f : σ → α → σ × β} {g : σ' → α → σ' × β} {m : σ} {m' : σ'}
    {t : Unit → τ} {v : SharedObject Unit σ τ} {ur : List (Event Unit τ α)}
    (run : (machine (fun _ : Unit => D) f).Run ⟨m, t⟩ ur v)
    (alike : replies f m (share () (accesses ur)) = replies g m' (share () (accesses ur))) :
    ∃ v', (machine (fun _ : Unit => D) g).Run ⟨m', t⟩ ur v' ∧ v'.client = v.client := by
  obtain ⟨admits, rfl⟩ := run.admits
  obtain ⟨admits', client⟩ := retrace admits alike
  exact ⟨_, EventMachine.run_of_admits admits', client⟩

end SharedObject
