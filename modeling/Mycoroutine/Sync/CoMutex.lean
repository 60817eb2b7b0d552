import Mathlib.Algebra.Group.Nat.Defs
import Mycoroutine.Interleave.Machine
import Mycoroutine.Sync.Waiter

/-!
# `CoMutex`

The locked sections of `lock`, `tryLock` and `unlock` are pure functions on the
mutex's fields, and the machine interleaves them with the `notified` store of
`NotifyWaiter` and with resumptions of suspended fibers. `lock` creates at most
one `FiberWaiter`, and a fiber is inside at most one `lock`, so the fiber also
names its waiter. A resumption, whoever scheduled it, is one `check`.

Fibers are named by their id: distinct fibers have distinct ids, and
`s_fiber_id` counts up from 0, so none of them is `kNoOwner`.

`queued` and `returned` are history: no step reads them.
-/

namespace Mycoroutine
set_option autoImplicit false
open Interleave

def kNoOwner : UInt64 := UInt64.ofNat (2 ^ 64 - 1)

/-- A fiber, by its `getId()`. -/
structure FiberId where
  id : UInt64
  real : id ≠ kNoOwner
deriving DecidableEq

theorem FiberId.eq_of_id {f g : FiberId} (same : f.id = g.id) : f = g := by
  cases f
  cases g
  cases same
  rfl

/-- The fields of `CoMutex`, all protected by `m_mutex`. -/
structure CoMutex where
  locked : Bool := false
  ownerFiberId : UInt64 := kNoOwner
  waiters : List FiberId := []

namespace CoMutex

/-- The first locked section of `lock`: true when it returns at once, false
when the waiter was queued. -/
def lockSection (m : CoMutex) (current : FiberId) : Bool × CoMutex :=
  if !m.locked then (true, { m with locked := true, ownerFiberId := current.id })
  else (false, { m with waiters := m.waiters ++ [current] })

/-- The locked section of `lock` after `SuspendCurrentUntilNotified`. -/
def wokenSection (m : CoMutex) (current : FiberId) : Bool := m.ownerFiberId == current.id

def tryLockSection (m : CoMutex) (current : FiberId) : Bool × CoMutex :=
  if m.locked then (false, m) else (true, { m with locked := true, ownerFiberId := current.id })

/-- The locked section of `unlock`, with `next_waiter`; `none` when an
assertion fails. -/
def unlockSection (m : CoMutex) (current : FiberId) : Option (Option FiberId × CoMutex) :=
  if m.locked && m.ownerFiberId == current.id then
    match popWaiterFront m.waiters with
    | (none, rest) => some (none, { locked := false, ownerFiberId := kNoOwner, waiters := rest })
    | (some next, rest) => some (some next, { m with ownerFiberId := next.id, waiters := rest })
  else none

/-- Where a fiber stands. `suspended` is `SuspendCurrentUntilNotified`,
`recheck` the locked section after it, `retry` the next round of the loop;
`holding` lasts from a successful `lock` or `tryLock` to the locked section of
`unlock`, and `notifying` is before the store of `NotifyWaiter`. -/
inductive Pc where
  | idle
  | suspended
  | recheck
  | retry
  | holding
  | notifying (next : FiberId)
deriving DecidableEq

structure State where
  mutex : CoMutex
  pc : FiberId → Pc
  notified : FiberId → Bool
  queued : List FiberId
  returned : List FiberId

/-- One atomic step of one fiber. -/
inductive Label where
  | lock (f : FiberId)
  | tryLock (f : FiberId)
  | unlock (f : FiberId)
  | notify (f : FiberId)
  | check (f : FiberId)
  | recheck (f : FiberId)
  | retry (f : FiberId)

def State.setPc (s : State) (f : FiberId) (pc : Pc) : State := { s with pc := Function.update s.pc f pc }

@[simp] theorem State.setPc_pc (s : State) (f : FiberId) (pc : Pc) :
    (s.setPc f pc).pc = Function.update s.pc f pc := rfl

/-- The first locked section of `lock` and the branch taken after it. -/
def State.enterLock (s : State) (f : FiberId) : State :=
  match s.mutex.lockSection f with
  | (true, mutex) => { s with mutex, pc := Function.update s.pc f .holding }
  | (false, mutex) =>
    { s with mutex, notified := Function.update s.notified f false, queued := s.queued ++ [f],
             pc := Function.update s.pc f .suspended }

def step (s : State) : Label → Option State
  | .lock f =>
    match s.pc f with
    | .idle => some (s.enterLock f)
    | _ => none
  | .tryLock f =>
    match s.pc f with
    | .idle | .holding =>
      match s.mutex.tryLockSection f with
      | (true, mutex) => some { s with mutex, pc := Function.update s.pc f .holding }
      | (false, mutex) => some { s with mutex }
    | _ => none
  | .unlock f =>
    match s.pc f with
    | .holding =>
      match s.mutex.unlockSection f with
      | some (none, mutex) => some { s with mutex, pc := Function.update s.pc f .idle }
      | some (some next, mutex) => some { s with mutex, pc := Function.update s.pc f (.notifying next) }
      | none => none
    | _ => none
  | .notify f =>
    match s.pc f with
    | .notifying next =>
      some { s with notified := Function.update s.notified next true, pc := Function.update s.pc f .idle }
    | _ => none
  | .check f =>
    match s.pc f with
    | .suspended => some (if s.notified f then s.setPc f .recheck else s)
    | _ => none
  | .recheck f =>
    match s.pc f with
    | .recheck =>
      if s.mutex.wokenSection f then
        some { s with returned := s.returned ++ [f], pc := Function.update s.pc f .holding }
      else some (s.setPc f .retry)
    | _ => none
  | .retry f =>
    match s.pc f with
    | .retry => some (s.enterLock f)
    | _ => none

/-- Any number of fibers on one fresh mutex. -/
def machine : Machine State Label where
  init := { mutex := {}, pc := fun _ => .idle, notified := fun _ => false, queued := [], returned := [] }
  step := step

/-- What one step can do, one case for each branch of the source. -/
inductive Moves (s : State) : State → Prop where
  | acquired (f : FiberId) (here : s.pc f = .idle ∨ s.pc f = .holding ∨ s.pc f = .retry)
      (free : s.mutex.locked = false) :
      Moves s { s with mutex := { s.mutex with locked := true, ownerFiberId := f.id },
                       pc := Function.update s.pc f .holding }
  | queued (f : FiberId) (here : s.pc f = .idle ∨ s.pc f = .retry) (locked : s.mutex.locked = true) :
      Moves s { s with mutex := { s.mutex with waiters := s.mutex.waiters ++ [f] },
                       notified := Function.update s.notified f false, queued := s.queued ++ [f],
                       pc := Function.update s.pc f .suspended }
  | freed (f : FiberId) (here : s.pc f = .holding) (owner : s.mutex.ownerFiberId = f.id)
      (alone : s.mutex.waiters = []) :
      Moves s { s with mutex := { locked := false, ownerFiberId := kNoOwner, waiters := [] },
                       pc := Function.update s.pc f .idle }
  | handed (f next : FiberId) (rest : List FiberId) (here : s.pc f = .holding) (locked : s.mutex.locked = true)
      (owner : s.mutex.ownerFiberId = f.id) (waiting : s.mutex.waiters = next :: rest) :
      Moves s { s with mutex := { s.mutex with ownerFiberId := next.id, waiters := rest },
                       pc := Function.update s.pc f (.notifying next) }
  | notified (f next : FiberId) (here : s.pc f = .notifying next) :
      Moves s { s with notified := Function.update s.notified next true, pc := Function.update s.pc f .idle }
  | woken (f : FiberId) (here : s.pc f = .suspended) (told : s.notified f = true) :
      Moves s (s.setPc f .recheck)
  | owned (f : FiberId) (here : s.pc f = .recheck) (owner : s.mutex.ownerFiberId = f.id) :
      Moves s { s with returned := s.returned ++ [f], pc := Function.update s.pc f .holding }
  | retried (f : FiberId) (here : s.pc f = .recheck) (other : s.mutex.ownerFiberId ≠ f.id) :
      Moves s (s.setPc f .retry)
  | unchanged : Moves s s

theorem enterLock_moves {s : State} {f : FiberId} (here : s.pc f = .idle ∨ s.pc f = .retry) :
    Moves s (s.enterLock f) := by
  cases locked : s.mutex.locked with
  | false => simpa [State.enterLock, lockSection, locked] using Moves.acquired f (here.imp_right .inr) locked
  | true => simpa [State.enterLock, lockSection, locked] using Moves.queued f here locked

/-- Every enabled step is one of the moves. -/
theorem step_moves {s s' : State} {l : Label} (h : step s l = some s') : Moves s s' := by
  cases l with
  | lock f =>
    simp only [step] at h
    split at h <;> cases h
    exact enterLock_moves (.inl ‹_›)
  | tryLock f =>
    simp only [step, tryLockSection] at h
    cases locked : s.mutex.locked with
    | true =>
      simp only [locked, if_true] at h
      split at h <;> cases h <;> exact .unchanged
    | false =>
      simp only [locked, Bool.false_eq_true, if_false] at h
      split at h <;> cases h
      · exact .acquired f (.inl ‹_›) locked
      · exact .acquired f (.inr (.inl ‹_›)) locked
  | unlock f =>
    simp only [step] at h
    split at h
    · rename_i here
      by_cases owned : s.mutex.locked = true ∧ s.mutex.ownerFiberId = f.id
      · cases queue : s.mutex.waiters with
        | nil =>
          simp only [unlockSection, owned, queue, BEq.rfl, Bool.and_self, if_true, popWaiterFront_nil] at h
          cases h
          exact .freed f here owned.2 queue
        | cons next rest =>
          simp only [unlockSection, owned, queue, BEq.rfl, Bool.and_self, if_true, popWaiterFront_cons] at h
          cases h
          exact owned.1 ▸ .handed f next rest here owned.1 owned.2 queue
      · simp [unlockSection, owned] at h
    · cases h
  | notify f =>
    simp only [step] at h
    split at h <;> cases h
    exact .notified f _ ‹_›
  | check f =>
    simp only [step] at h
    split at h <;> cases h
    split
    · exact .woken f ‹_› ‹_›
    · exact .unchanged
  | recheck f =>
    simp only [step, wokenSection, beq_iff_eq] at h
    split at h
    · split at h <;> cases h
      · exact .owned f ‹_› ‹_›
      · exact .retried f ‹_› ‹_›
    · cases h
  | retry f =>
    simp only [step] at h
    split at h <;> cases h
    exact enterLock_moves (.inr ‹_›)

end CoMutex

end Mycoroutine
