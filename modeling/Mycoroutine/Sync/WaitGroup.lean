import Mycoroutine.Interleave.Machine
import Mycoroutine.Sync.Waiter

/-!
# `WaitGroup`

The locked sections of `add` and `wait` are pure functions on the group's
fields. The machine interleaves them with the loop of `add` over `to_wake`,
where `NotifyWaiter` first stores `notified` and then schedules, and with
resumptions of suspended fibers; a resumption, whoever scheduled it, is one
`check`. A `wait` makes its waiter when it first queues and queues the same one
again, so waiters have names of their own.

`popped`, `told`, `sent` and `returned` are history: no step reads them.
-/

namespace Mycoroutine
set_option autoImplicit false
open Interleave

/-- The fields of `WaitGroup`, all protected by `m_mutex`. -/
structure WaitGroup where
  count : Int := 0
  waiters : List Nat := []

namespace WaitGroup

/-- `PopWaiterFront` until `m_waiters` is empty; the first argument is `to_wake`. -/
def popAll (toWake : List Nat) : List Nat → List Nat × List Nat
  | [] => (toWake, [])
  | waiter :: rest => popAll (toWake ++ (popWaiterFront (waiter :: rest)).1.toList) rest

/-- The locked section of `add`, with `to_wake`; `none` when its assertion fails. -/
def addSection (g : WaitGroup) (delta : Int) : Option (List Nat × WaitGroup) :=
  let next := g.count + delta
  if next < 0 then none
  else if next = 0 then
    let (toWake, waiters) := popAll [] g.waiters
    some (toWake, { count := next, waiters })
  else some ([], { g with count := next })

/-- The locked section of `wait`: true when it returns, false when the waiter
was queued. -/
def waitSection (g : WaitGroup) (waiter : Nat) : Bool × WaitGroup :=
  if g.count = 0 then (true, g) else (false, { g with waiters := g.waiters ++ [waiter] })

/-- Where a fiber stands. `suspended` is `SuspendCurrentUntilNotified`, `retry`
the next round of `wait`; `notifying` is before the store of `NotifyWaiter` for
the first of the waiters left in `to_wake`, and `scheduling` after it. -/
inductive Pc where
  | idle
  | suspended (waiter : Nat)
  | retry (waiter : Nat)
  | notifying (toWake : List Nat)
  | scheduling (waiter : Nat) (toWake : List Nat)

/-- The loop over `to_wake`. -/
def Pc.notify : List Nat → Pc
  | [] => .idle
  | toWake => .notifying toWake

structure State (φ : Type*) where
  group : WaitGroup
  pc : φ → Pc
  /-- `FiberWaiter::fiber`. -/
  fiber : Nat → Option φ
  notified : Nat → Bool
  created : Nat
  popped : List (φ × Nat)
  told : List (φ × Nat)
  sent : List (φ × Nat)
  returned : List φ

/-- One atomic step of one fiber; `done` is `add` of -1. -/
inductive Label (φ : Type*) where
  | add (f : φ) (delta : Int)
  | notify (f : φ)
  | wait (f : φ)
  | check (f : φ)
  | retry (f : φ)

variable {φ : Type*} [DecidableEq φ]

namespace State

def setPc (s : State φ) (f : φ) (pc : Pc) : State φ := { s with pc := Function.update s.pc f pc }

/-- The section of `wait` and the branch taken after it. -/
def enterWait (s : State φ) (f : φ) (waiter : Nat) : State φ :=
  match s.group.waitSection waiter with
  | (true, group) => { s with group, returned := s.returned ++ [f], pc := Function.update s.pc f .idle }
  | (false, group) =>
    { s with group, notified := Function.update s.notified waiter false,
             pc := Function.update s.pc f (.suspended waiter) }

/-- `MakeCurrentWaiter`. -/
def makeWaiter (s : State φ) (f : φ) : State φ :=
  { s with fiber := Function.update s.fiber s.created (some f), created := s.created + 1 }

end State

def step (s : State φ) : Label φ → Option (State φ)
  | .add f delta =>
    match s.pc f with
    | .idle => (s.group.addSection delta).map fun (toWake, group) =>
        { s with group, popped := s.popped ++ toWake.map (f, ·), pc := Function.update s.pc f (.notify toWake) }
    | _ => none
  | .notify f =>
    match s.pc f with
    | .notifying (waiter :: rest) =>
      some { s with notified := Function.update s.notified waiter true, told := s.told ++ [(f, waiter)],
                    pc := Function.update s.pc f (.scheduling waiter rest) }
    | .scheduling waiter rest =>
      some { s with sent := s.sent ++ [(f, waiter)], pc := Function.update s.pc f (.notify rest) }
    | _ => none
  | .wait f =>
    match s.pc f with
    | .idle => some (if s.group.count = 0 then s.enterWait f s.created else (s.makeWaiter f).enterWait f s.created)
    | _ => none
  | .check f =>
    match s.pc f with
    | .suspended waiter => some (if s.notified waiter then s.setPc f (.retry waiter) else s)
    | _ => none
  | .retry f =>
    match s.pc f with
    | .retry waiter => some (s.enterWait f waiter)
    | _ => none

/-- Any number of fibers on one fresh group. -/
def machine (φ : Type*) [DecidableEq φ] : Machine (State φ) (Label φ) where
  init := {
    group := {}, pc := fun _ => .idle, fiber := fun _ => none, notified := fun _ => false, created := 0,
    popped := [], told := [], sent := [], returned := [] }
  step := step

/-- What one step can do, one case for each branch of the source. -/
inductive Moves (s : State φ) : State φ → Prop where
  | counted (f : φ) (delta : Int) (here : s.pc f = .idle) (positive : 0 < s.group.count + delta) :
      Moves s { s with group := { s.group with count := s.group.count + delta } }
  | zeroed (f : φ) (delta : Int) (here : s.pc f = .idle) (zero : s.group.count + delta = 0) :
      Moves s { s with group := { count := 0, waiters := [] }, popped := s.popped ++ s.group.waiters.map (f, ·),
                       pc := Function.update s.pc f (.notify s.group.waiters) }
  | told (f : φ) (waiter : Nat) (rest : List Nat) (here : s.pc f = .notifying (waiter :: rest)) :
      Moves s { s with notified := Function.update s.notified waiter true, told := s.told ++ [(f, waiter)],
                       pc := Function.update s.pc f (.scheduling waiter rest) }
  | sent (f : φ) (waiter : Nat) (rest : List Nat) (here : s.pc f = .scheduling waiter rest) :
      Moves s { s with sent := s.sent ++ [(f, waiter)], pc := Function.update s.pc f (.notify rest) }
  | returned (f : φ) (here : s.pc f = .idle ∨ ∃ waiter, s.pc f = .retry waiter) (zero : s.group.count = 0) :
      Moves s { s with returned := s.returned ++ [f], pc := Function.update s.pc f .idle }
  | registered (f : φ) (here : s.pc f = .idle) (counts : s.group.count ≠ 0) :
      Moves s { s with group := { s.group with waiters := s.group.waiters ++ [s.created] },
                       fiber := Function.update s.fiber s.created (some f), created := s.created + 1,
                       notified := Function.update s.notified s.created false,
                       pc := Function.update s.pc f (.suspended s.created) }
  | requeued (f : φ) (waiter : Nat) (here : s.pc f = .retry waiter) (counts : s.group.count ≠ 0) :
      Moves s { s with group := { s.group with waiters := s.group.waiters ++ [waiter] },
                       notified := Function.update s.notified waiter false,
                       pc := Function.update s.pc f (.suspended waiter) }
  | woken (f : φ) (waiter : Nat) (here : s.pc f = .suspended waiter) (isTold : s.notified waiter = true) :
      Moves s (s.setPc f (.retry waiter))
  | unchanged : Moves s s

section Inversion

variable {s s' : State φ} {f : φ}

theorem popAll_eq (toWake waiters : List Nat) : popAll toWake waiters = (toWake ++ waiters, []) := by
  induction waiters generalizing toWake with
  | nil => rw [popAll, List.append_nil]
  | cons waiter rest ih =>
    rw [popAll, ih, popWaiterFront_cons, Option.toList_some, List.append_assoc, List.singleton_append]

theorem addSection_moves {delta : Int} {toWake : List Nat} {group : WaitGroup} (here : s.pc f = .idle)
    (section' : s.group.addSection delta = some (toWake, group)) :
    Moves s { s with group, popped := s.popped ++ toWake.map (f, ·), pc := Function.update s.pc f (.notify toWake) } := by
  simp only [addSection, popAll_eq, List.nil_append] at section'
  split at section'
  · cases section'
  · rename_i notNegative
    split at section' <;> cases section'
    · rename_i zero
      simpa only [zero] using Moves.zeroed f delta here zero
    · rename_i notZero
      have stays : Function.update s.pc f .idle = s.pc := by rw [← here, Function.update_eq_self]
      have moved := Moves.counted f delta here (by omega)
      simpa [Pc.notify, stays] using moved

/-- Every enabled step is one of the moves. -/
theorem step_moves {l : Label φ} (h : step s l = some s') : Moves s s' := by
  cases l with
  | add f delta =>
    simp only [step] at h
    split at h
    · obtain ⟨⟨toWake, group⟩, section', rfl⟩ := Option.map_eq_some_iff.1 h
      exact addSection_moves ‹_› section'
    · cases h
  | notify f =>
    simp only [step] at h
    split at h <;> cases h
    · exact .told f _ _ ‹_›
    · exact .sent f _ _ ‹_›
  | wait f =>
    simp only [step] at h
    split at h
    · rename_i here
      by_cases zero : s.group.count = 0
      · simp only [zero, if_true, State.enterWait, waitSection, Option.some.injEq] at h
        exact h ▸ .returned f (.inl here) zero
      · simp only [zero, if_false, State.enterWait, State.makeWaiter, waitSection, Option.some.injEq] at h
        exact h ▸ .registered f here zero
    · cases h
  | check f =>
    simp only [step] at h
    split at h
    · rename_i waiter here
      split at h <;> cases h
      · exact .woken f waiter here ‹_›
      · exact .unchanged
    · cases h
  | retry f =>
    simp only [step] at h
    split at h
    · rename_i waiter here
      by_cases zero : s.group.count = 0
      · simp only [zero, if_true, State.enterWait, waitSection, Option.some.injEq] at h
        exact h ▸ .returned f (.inr ⟨waiter, here⟩) zero
      · simp only [zero, if_false, State.enterWait, waitSection, Option.some.injEq] at h
        exact h ▸ .requeued f waiter here zero
    · cases h

end Inversion

end WaitGroup

end Mycoroutine
