import Mathlib.Logic.Relation
import Mathlib.Data.List.Basic
import Mathlib.Data.Nat.Basic
import Mycoroutine.Interleave.Machine

/-!
# Ordered locks

Threads that run procedures of which only the locks are kept: scopes that hold a lock,
calls, and branches and loops that go either way. Where locks have ranks, and in a
scope only locks of higher rank are taken, no threads wait for each other in a ring.

A procedure is checked once, against the lowest rank it takes itself or through what it
calls (`Code.Above`). A thread may start inside scopes, so a latch that a thread opens
once is a lock which it holds from the beginning.
-/

namespace Interleave.LockOrder
set_option autoImplicit false

/-- `std::shared_mutex` has both modes. -/
inductive Mode where
  | shared
  | exclusive
deriving DecidableEq

/-- Two holders exclude each other. -/
def Mode.conflicts : Mode → Mode → Bool
  | .shared, .shared => false
  | _, _ => true

/-- What is left of a procedure. `wait` stops for something that is no lock; `any` calls
one of several procedures. -/
inductive Code (κ π : Type*) where
  | skip
  | wait
  | seq (a b : Code κ π)
  | either (a b : Code κ π)
  | loop (a : Code κ π)
  | lock (mode : Mode) (k : κ) (scope : Code κ π)
  | call (p : π)
  | any (ps : π → Bool)

/-- What a thread has before it: code, or the end of a scope. -/
inductive Item (κ π : Type*) where
  | run (c : Code κ π)
  | leave (mode : Mode) (k : κ)

/-- `owners` are the holders of a lock. -/
structure State (τ κ π : Type*) where
  todo : τ → List (Item κ π)
  owners : κ → List (τ × Mode)

/-- How a thread resolves its choices. -/
inductive Move (π : Type*) where
  | go
  | left
  | right
  | pick (p : π)

variable {τ κ π : Type*}

/-- The scopes a thread is in. -/
def scopes : List (Item κ π) → List (κ × Mode)
  | [] => []
  | .run _ :: rest => scopes rest
  | .leave mode k :: rest => (k, mode) :: scopes rest

section Machine

variable [DecidableEq τ] [DecidableEq κ] (body : π → Code κ π)

/-- Nobody holds the lock in a mode that conflicts. -/
def State.free (s : State τ κ π) (mode : Mode) (k : κ) : Bool := (s.owners k).all fun o => !mode.conflicts o.2

def State.put (s : State τ κ π) (t : τ) (todo : List (Item κ π)) : State τ κ π :=
  { s with todo := Function.update s.todo t todo }

def step (s : State τ κ π) : τ × Move π → Option (State τ κ π)
  | (t, move) =>
    match s.todo t, move with
    | .run .skip :: rest, .go => some (s.put t rest)
    | .run .wait :: rest, .go => some (s.put t rest)
    | .run (.seq a b) :: rest, .go => some (s.put t (.run a :: .run b :: rest))
    | .run (.either a _) :: rest, .left => some (s.put t (.run a :: rest))
    | .run (.either _ b) :: rest, .right => some (s.put t (.run b :: rest))
    | .run (.loop a) :: rest, .left => some (s.put t (.run a :: .run (.loop a) :: rest))
    | .run (.loop _) :: rest, .right => some (s.put t rest)
    | .run (.lock mode k scope) :: rest, .go =>
      if s.free mode k then
        some { todo := Function.update s.todo t (.run scope :: .leave mode k :: rest),
               owners := Function.update s.owners k ((t, mode) :: s.owners k) }
      else none
    | .run (.call p) :: rest, .go => some (s.put t (.run (body p) :: rest))
    | .run (.any ps) :: rest, .pick p => if ps p then some (s.put t (.run (body p) :: rest)) else none
    | .leave mode k :: rest, .go =>
      some { todo := Function.update s.todo t rest,
             owners := Function.update s.owners k ((s.owners k).erase (t, mode)) }
    | _, _ => none

/-- The threads start at `todo`, inside the scopes whose ends are there. -/
def machine (todo : τ → List (Item κ π)) (owners : κ → List (τ × Mode)) : Machine (State τ κ π) (τ × Move π) where
  init := { todo, owners }
  step := step body

/-- What a piece of code that is no scope becomes. -/
inductive Next : Code κ π → List (Code κ π) → Prop where
  | skip : Next .skip []
  | wait : Next .wait []
  | seq (a b : Code κ π) : Next (.seq a b) [a, b]
  | left (a b : Code κ π) : Next (.either a b) [a]
  | right (a b : Code κ π) : Next (.either a b) [b]
  | again (a : Code κ π) : Next (.loop a) [a, .loop a]
  | out (a : Code κ π) : Next (.loop a) []
  | call (p : π) : Next (.call p) [body p]
  | any (ps : π → Bool) (p : π) (picked : ps p = true) : Next (.any ps) [body p]

/-- What a step does, besides the thread that makes it. -/
inductive Goes (s : State τ κ π) (t : τ) : State τ κ π → Prop where
  | on (c : Code κ π) (cs : List (Code κ π)) (rest : List (Item κ π)) (here : s.todo t = .run c :: rest)
      (next : Next body c cs) : Goes s t (s.put t (cs.map .run ++ rest))
  | locked (mode : Mode) (k : κ) (scope : Code κ π) (rest : List (Item κ π)) (here : s.todo t = .run (.lock mode k scope) :: rest)
      (free : s.free mode k = true) :
      Goes s t { todo := Function.update s.todo t (.run scope :: .leave mode k :: rest),
                 owners := Function.update s.owners k ((t, mode) :: s.owners k) }
  | left (mode : Mode) (k : κ) (rest : List (Item κ π)) (here : s.todo t = .leave mode k :: rest) :
      Goes s t { todo := Function.update s.todo t rest,
                 owners := Function.update s.owners k ((s.owners k).erase (t, mode)) }

theorem step_goes {s s' : State τ κ π} {t : τ} {move : Move π} (e : step body s (t, move) = some s') : Goes body s t s' := by
  simp only [step] at e
  split at e
  case h_1 rest here => cases e; exact .on _ _ rest here .skip
  case h_2 rest here => cases e; exact .on _ _ rest here .wait
  case h_3 a b rest here => cases e; exact .on _ _ rest here (.seq a b)
  case h_4 a b rest here => cases e; exact .on _ _ rest here (.left a b)
  case h_5 a b rest here => cases e; exact .on _ _ rest here (.right a b)
  case h_6 a rest here => cases e; exact .on _ _ rest here (.again a)
  case h_7 a rest here => cases e; exact .on _ _ rest here (.out a)
  case h_8 mode k scope rest here =>
    split at e <;> cases e
    rename_i free
    exact .locked mode k scope rest here free
  case h_9 p rest here => cases e; exact .on _ _ rest here (.call p)
  case h_10 ps rest p here =>
    split at e <;> cases e
    rename_i picked
    exact .on _ _ rest here (.any ps p picked)
  case h_11 mode k rest here => cases e; exact .left mode k rest here
  case h_12 => cases e

end Machine

/-! ## The check -/

section Ranks

variable (rank : κ → Nat) (floor : π → Nat) (calm : Nat)

/-- The code takes locks of rank `r` and above only, in scopes that go up; it waits where
at most locks below `calm` are held. -/
def Code.Above : Nat → Code κ π → Prop
  | _, .skip => True
  | r, .wait => r ≤ calm
  | r, .seq a b => a.Above r ∧ b.Above r
  | r, .either a b => a.Above r ∧ b.Above r
  | r, .loop a => a.Above r
  | r, .lock _ k scope => r ≤ rank k ∧ scope.Above (rank k + 1)
  | r, .call p => r ≤ floor p
  | r, .any ps => (∃ p, ps p = true) ∧ ∀ p, ps p = true → r ≤ floor p

/-- What a thread in these scopes may take. -/
def level (todo : List (Item κ π)) : Nat := ((scopes todo).head?.map fun o => rank o.1 + 1).getD 0

def Ordered : List (Item κ π) → Prop
  | [] => True
  | .run c :: rest => c.Above rank floor calm (level rank rest) ∧ Ordered rest
  | .leave _ k :: rest => level rank rest ≤ rank k ∧ Ordered rest

variable {rank floor calm}

theorem Code.Above.mono {c : Code κ π} {r r' : Nat} (le : r' ≤ r) (h : c.Above rank floor calm r) :
    c.Above rank floor calm r' := by
  induction c generalizing r r' with
  | skip => trivial
  | wait => exact Nat.le_trans le h
  | seq a b first second => exact ⟨first le h.1, second le h.2⟩
  | either a b left right => exact ⟨left le h.1, right le h.2⟩
  | loop a again => exact again le h
  | lock mode k scope _ => exact ⟨Nat.le_trans le h.1, h.2⟩
  | call p => exact Nat.le_trans le h
  | any ps => exact ⟨h.1, fun p picked => Nat.le_trans le (h.2 p picked)⟩

/-- A procedure that is checked at its floor is checked where it is called. -/
theorem Code.Above.next {body : π → Code κ π} {c : Code κ π} {cs : List (Code κ π)} {r : Nat}
    (checked : ∀ p, (body p).Above rank floor calm (floor p)) (h : c.Above rank floor calm r) (next : Next body c cs) :
    ∀ c' ∈ cs, c'.Above rank floor calm r := by
  cases next with
  | skip | wait | out => simp
  | seq a b => simpa using ⟨h.1, h.2⟩
  | left a b => simpa using h.1
  | right a b => simpa using h.2
  | again a =>
    have once : a.Above rank floor calm r := h
    simpa using ⟨once, h⟩
  | call p => simpa using (checked p).mono h
  | any ps p picked => simpa using (checked p).mono (h.2 p picked)

theorem scopes_run (cs : List (Code κ π)) (rest : List (Item κ π)) : scopes (cs.map .run ++ rest) = scopes rest := by
  induction cs with
  | nil => rfl
  | cons c cs ih => exact ih

theorem Ordered.run {cs : List (Code κ π)} {rest : List (Item κ π)} (above : ∀ c ∈ cs, c.Above rank floor calm (level rank rest))
    (h : Ordered rank floor calm rest) : Ordered rank floor calm (cs.map .run ++ rest) := by
  induction cs with
  | nil => exact h
  | cons c cs ih =>
    have same : level rank (cs.map .run ++ rest) = level rank rest := by rw [level, scopes_run, level]
    exact ⟨same ▸ above c List.mem_cons_self, ih fun c' mem => above c' (List.mem_cons_of_mem c mem)⟩

/-- What a thread holds lies below what it may take. -/
theorem Ordered.below {todo : List (Item κ π)} {o : κ × Mode} (h : Ordered rank floor calm todo) (held : o ∈ scopes todo) :
    rank o.1 < level rank todo := by
  induction todo with
  | nil => cases held
  | cons item rest ih =>
    cases item with
    | run c => exact ih h.2 held
    | leave mode k =>
      have top : level rank (.leave mode k :: rest) = rank k + 1 := rfl
      rw [top]
      rcases List.mem_cons.1 held with rfl | inside
      · exact Nat.lt_succ_self _
      · have less := ih h.2 inside
        have le := h.1
        omega

/-- Scopes go up. -/
theorem Ordered.pairwise {todo : List (Item κ π)} (h : Ordered rank floor calm todo) :
    (scopes todo).Pairwise fun o o' => rank o'.1 < rank o.1 := by
  induction todo with
  | nil => exact .nil
  | cons item rest ih =>
    cases item with
    | run c => exact ih h.2
    | leave mode k => exact .cons (fun o held => Nat.lt_of_lt_of_le (h.2.below held) h.1) (ih h.2)

end Ranks

/-! ## The invariant -/

/-- `t` is at a lock that `u` holds. -/
def Waits (s : State τ κ π) (t u : τ) : Prop :=
  ∃ mode k scope rest, s.todo t = .run (.lock mode k scope) :: rest ∧ ∃ held, (u, held) ∈ s.owners k ∧ mode.conflicts held = true

section Invariant

variable [DecidableEq τ] [DecidableEq κ] {body : π → Code κ π} {rank : κ → Nat} {floor : π → Nat} {calm : Nat}
  {s s' : State τ κ π} {t u : τ}

structure Ranked (rank : κ → Nat) (floor : π → Nat) (calm : Nat) (s : State τ κ π) : Prop where
  ordered : ∀ t, Ordered rank floor calm (s.todo t)
  owned : ∀ t k mode, (s.owners k).count (t, mode) = (scopes (s.todo t)).count (k, mode)

/-- A thread goes on, and the owners change by what it does. -/
theorem Ranked.moved {todo : List (Item κ π)} {owners : κ → List (τ × Mode)} (h : Ranked rank floor calm s)
    (ordered : Ordered rank floor calm todo) (own : ∀ k mode, (owners k).count (t, mode) = (scopes todo).count (k, mode))
    (others : ∀ u, u ≠ t → ∀ k mode, (owners k).count (u, mode) = (s.owners k).count (u, mode)) :
    Ranked rank floor calm { todo := Function.update s.todo t todo, owners } := by
  refine ⟨fun u => ?_, fun u k mode => ?_⟩
  · by_cases mine : u = t
    · subst mine
      simpa only [Function.update_self] using ordered
    · simpa only [Function.update_of_ne mine] using h.ordered u
  · by_cases mine : u = t
    · subst mine
      simpa only [Function.update_self] using own k mode
    · simpa only [Function.update_of_ne mine] using (others u mine k mode).trans (h.owned u k mode)

theorem Ranked.goes (checked : ∀ p, (body p).Above rank floor calm (floor p)) (h : Ranked rank floor calm s)
    (goes : Goes body s t s') : Ranked rank floor calm s' := by
  have before := h.ordered t
  have owned := h.owned t
  cases goes with
  | on c cs rest here next =>
    rw [here] at before owned
    exact h.moved (.run (before.1.next checked next) before.2) (fun k mode => by rw [scopes_run, owned k mode, scopes])
      fun _ _ _ _ => rfl
  | locked mode k scope rest here free =>
    rw [here] at before owned
    refine h.moved ⟨before.1.2, before.1.1, before.2⟩ (fun k' mode' => ?_) fun u other k' mode' => ?_
    · rw [scopes, scopes, List.count_cons, ← scopes, ← owned k' mode']
      by_cases same : k' = k
      · subst same
        rw [Function.update_self, List.count_cons]
        simp
      · rw [Function.update_of_ne same, if_neg (by simp [Ne.symm same]), Nat.add_zero]
    · by_cases same : k' = k
      · subst same
        rw [Function.update_self, List.count_cons, if_neg (by simp [Ne.symm other]), Nat.add_zero]
      · rw [Function.update_of_ne same]
  | left mode k rest here =>
    rw [here] at before owned
    refine h.moved before.2 (fun k' mode' => ?_) fun u other k' mode' => ?_
    · have counted := owned k' mode'
      rw [scopes, List.count_cons] at counted
      by_cases same : k' = k
      · subst same
        rw [Function.update_self, List.count_erase, counted]
        by_cases modes : mode = mode'
        · simp [modes]
        · simp [modes]
      · rw [Function.update_of_ne same, counted, if_neg (by simp [Ne.symm same]), Nat.add_zero]
    · by_cases same : k' = k
      · subst same
        rw [Function.update_self, List.count_erase, if_neg (by simp [Ne.symm other]), Nat.sub_zero]
      · rw [Function.update_of_ne same]

theorem ranked_of_reach {todo : τ → List (Item κ π)} {owners : κ → List (τ × Mode)}
    (checked : ∀ p, (body p).Above rank floor calm (floor p)) (start : Ranked rank floor calm (State.mk todo owners))
    (h : (machine body todo owners).Reach s) : Ranked rank floor calm s := by
  induction h with
  | init => exact start
  | step _ _ e ih => exact ih.goes checked (step_goes body e)

/-! ## What it gives -/

theorem Ranked.held (h : Ranked rank floor calm s) {k : κ} {mode : Mode} (owner : (t, mode) ∈ s.owners k) :
    (k, mode) ∈ scopes (s.todo t) := by
  have positive := List.count_pos_iff.2 owner
  rw [h.owned] at positive
  exact List.count_pos_iff.1 positive

/-- The lock that a thread is at lies above all that it holds. -/
theorem Ranked.above (h : Ranked rank floor calm s) {mode : Mode} {k : κ} {scope : Code κ π} {rest : List (Item κ π)}
    (here : s.todo t = .run (.lock mode k scope) :: rest) {o : κ × Mode} (held : o ∈ scopes (s.todo t)) : rank o.1 < rank k := by
  have ordered := h.ordered t
  rw [here] at ordered held
  exact Nat.lt_of_lt_of_le (ordered.2.below held) ordered.1.1

/-- Along a chain of waiting threads the locks that they are at go up. -/
theorem Ranked.climbs (h : Ranked rank floor calm s) (chain : Relation.TransGen (Waits s) t u) {mode mode' : Mode} {k k' : κ}
    {scope scope' : Code κ π} {rest rest' : List (Item κ π)} (here : s.todo t = .run (.lock mode k scope) :: rest)
    (there : s.todo u = .run (.lock mode' k' scope') :: rest') : rank k < rank k' := by
  induction chain generalizing mode' k' scope' rest' with
  | single waits =>
    obtain ⟨_, _, _, _, at', held, owner, -⟩ := waits
    cases here.symm.trans at'
    exact h.above there (h.held owner)
  | tail _ waits ih =>
    obtain ⟨_, _, _, _, at', held, owner, -⟩ := waits
    exact Nat.lt_trans (ih at') (h.above there (h.held owner))

/-- No ring. -/
theorem Ranked.acyclic (h : Ranked rank floor calm s) (t : τ) : ¬ Relation.TransGen (Waits s) t t := fun chain => by
  obtain ⟨_, ⟨_, _, _, _, here, -⟩, -⟩ := Relation.TransGen.head'_iff.1 chain
  exact Nat.lt_irrefl _ (h.climbs chain here here)

/-- What a thread holds while it waits for something else. -/
theorem Ranked.quiet (h : Ranked rank floor calm s) {rest : List (Item κ π)} (here : s.todo t = .run .wait :: rest)
    {o : κ × Mode} (held : o ∈ scopes (s.todo t)) : rank o.1 < calm := by
  have ordered := h.ordered t
  rw [here] at ordered held
  exact Nat.lt_of_lt_of_le (ordered.2.below held) ordered.1

/-- What a thread holds where it calls a procedure. -/
theorem Ranked.calls (h : Ranked rank floor calm s) {p : π} {rest : List (Item κ π)} (here : s.todo t = .run (.call p) :: rest)
    {o : κ × Mode} (held : o ∈ scopes (s.todo t)) : rank o.1 < floor p := by
  have ordered := h.ordered t
  rw [here] at ordered held
  exact Nat.lt_of_lt_of_le (ordered.2.below held) ordered.1

/-- A thread that has something to do and is at no lock can do it. -/
theorem Ranked.enabled (h : Ranked rank floor calm s) (busy : s.todo t ≠ [])
    (off : ∀ mode k scope rest, s.todo t ≠ .run (.lock mode k scope) :: rest) : ∃ move s', step body s (t, move) = some s' := by
  have ordered := h.ordered t
  cases here : s.todo t with
  | nil => exact absurd here busy
  | cons item rest =>
    rw [here] at ordered
    cases item with
    | leave mode k => exact ⟨.go, by simp [step, here]⟩
    | run c =>
      cases c with
      | skip | wait | seq a b | call p => exact ⟨.go, by simp [step, here]⟩
      | either a b | loop a => exact ⟨.left, by simp [step, here]⟩
      | lock mode k scope => exact absurd here (off mode k scope rest)
      | any ps =>
        obtain ⟨p, picked⟩ := ordered.1.1
        exact ⟨.pick p, by simp [step, here, picked]⟩

theorem Ranked.progress_lock (h : Ranked rank floor calm s) {top : Nat} (bounded : ∀ k, rank k < top) (n : Nat) {mode : Mode} {k : κ}
    {scope : Code κ π} {rest : List (Item κ π)} (here : s.todo t = .run (.lock mode k scope) :: rest) (left : top - rank k = n) :
    ∃ u, Relation.ReflTransGen (Waits s) t u ∧ ∃ move s', step body s (u, move) = some s' := by
  induction n using Nat.strongRecOn generalizing t mode k scope rest with
  | ind n ih =>
    by_cases free : s.free mode k = true
    · exact ⟨t, .refl, .go, by simp [step, here, free]⟩
    · obtain ⟨u, held, owner, conflict⟩ : ∃ u held, (u, held) ∈ s.owners k ∧ mode.conflicts held = true := by
        simpa [State.free] using free
      have waits : Waits s t u := ⟨mode, k, scope, rest, here, held, owner, conflict⟩
      have inside := h.held owner
      by_cases off : ∀ mode k scope rest, s.todo u ≠ .run (.lock mode k scope) :: rest
      · refine ⟨u, .single waits, h.enabled (fun idle => ?_) off⟩
        rw [idle] at inside
        cases inside
      · simp only [ne_eq, not_forall, not_not] at off
        obtain ⟨mode', k', scope', rest', there⟩ := off
        have up : rank k < rank k' := h.above there inside
        have bound := bounded k'
        obtain ⟨v, chain, enabled⟩ := ih (top - rank k') (by omega) there rfl
        exact ⟨v, chain.head waits, enabled⟩

/-- Where a thread has something to do, it or one that it waits for can do it. -/
theorem Ranked.progress (h : Ranked rank floor calm s) {top : Nat} (bounded : ∀ k, rank k < top) (busy : s.todo t ≠ []) :
    ∃ u, Relation.ReflTransGen (Waits s) t u ∧ ∃ move s', step body s (u, move) = some s' := by
  by_cases off : ∀ mode k scope rest, s.todo t ≠ .run (.lock mode k scope) :: rest
  · exact ⟨t, .refl, h.enabled busy off⟩
  · simp only [ne_eq, not_forall, not_not] at off
    obtain ⟨mode, k, scope, rest, here⟩ := off
    exact h.progress_lock bounded _ here rfl

end Invariant

end Interleave.LockOrder
