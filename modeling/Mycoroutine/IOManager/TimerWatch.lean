import Mathlib.Data.List.MinMax
import Mycoroutine.IOManager.Tickle

/-!
# Who watches the earliest timer

The workers of `IOManager.Tickle` with the timers of the manager: `addTimer` from any
thread, with `m_tickled` and the `tickle()` of `onTimerInsertedAtFront`; `getNextTimer`
in `stopping()` and before `epoll_wait`; the timeout of `epoll_wait`; and
`listExpiredCb` after it. Callbacks are scheduled by moves of `Tickle`.

`getNextTimer` and `epoll_wait` are separate steps: the timeout is relative, so the
wake-up time counts from the clock at `epoll_wait`. With a timeout of 0 a worker does not
block at all.

Times are in nanoseconds, periods and timeouts in milliseconds. The clock does not go
back, so `detectClockRollover` finds nothing.
-/

namespace Mycoroutine.TimerWatch
set_option autoImplicit false
open Interleave Tickle

/-- `m_next`, `m_ms` and `m_recurring`. -/
structure Timer where
  next : Nat
  ms : Nat
  recurring : Bool := false
deriving DecidableEq

def millisecond : Nat := 1000000

/-- `MAX_TIMEOUT`. -/
def maxTimeout : Nat := 5000

/-- `inserted` and `alarmed` count the threads in `onTimerInsertedAtFront`: those before
the test in `tickle()`, and those that will write. `empty` is what `getNextTimer` said to
a worker in `stopping()`: whether there is no timer. `nextTimeout` is what a worker takes
from `getNextTimer` to `epoll_wait`; `timeout` and `wakeAt` belong to the latter. -/
structure State where
  io : Tickle.State
  timers : List Timer
  mTickled : Bool
  now : Nat
  inserted : Nat
  alarmed : Nat
  empty : Worker → Option Bool
  nextTimeout : Worker → Option Nat
  timeout : Worker → Nat
  wakeAt : Worker → Nat

/-- A move of `Tickle`, or one of: `getNextTimer` in `stopping()`, before `epoll_wait`, and
of another thread; an `EINTR`; `listExpiredCb`; the two sections of `addTimer`;
`Timer::cancel` (or the first half of `reset`), and `refresh`; the clock. -/
inductive Label where
  | io (l : Tickle.Label)
  | ask (w : Worker)
  | askTimeout (w : Worker)
  | getNextTimer
  | interrupt (w : Worker)
  | listExpiredCb (w : Worker)
  | addTimer (timer : Timer) (first : Bool)
  | test
  | write
  | cancel (timer : Timer)
  | refresh (timer : Timer)
  | tick (d : Nat)

namespace State

variable (s : State)

/-- `getNextTimer`, without the write to `m_tickled`; `none` is `~0ull`. -/
def getNextTimer : Option Nat :=
  (s.timers.map (·.next)).min?.map fun time => if s.now ≥ time then 0 else (time - s.now) / millisecond

/-- `next_timeout`. -/
def waitTime : Nat := min (s.getNextTimer.getD (2 ^ 64 - 1)) maxTimeout

/-- A worker goes into `epoll_wait`. -/
def epollWait (io : Tickle.State) (w : Worker) (timeout : Nat) : State :=
  { s with io, nextTimeout := Function.update s.nextTimeout w none,
           timeout := Function.update s.timeout w timeout,
           wakeAt := Function.update s.wakeAt w (s.now + timeout * millisecond) }

/-- What a move of `Tickle` does to the rest. -/
def timed (io : Tickle.State) : Tickle.Label → Option State
  | .advance w => if s.io.pc w = .wait then (s.nextTimeout w).map (s.epollWait io w) else some { s with io }
  | .stopping w result =>
    match s.empty w with
    | some empty => if result = true → empty = true then some { s with io, empty := Function.update s.empty w none } else none
    | none => none
  | _ => some { s with io }

/-- Whether `m_timers` begins with the timer that is inserted; `first` is how it compares
with the timers of the same time. -/
def atBegin (timer : Timer) (first : Bool) : Bool :=
  s.timers.all fun t => if first then decide (timer.next ≤ t.next) else decide (timer.next < t.next)

/-- `addTimer`. -/
def addTimer (timer : Timer) (first : Bool) : State :=
  if s.atBegin timer first && !s.mTickled then
    { s with timers := timer :: s.timers, mTickled := true, inserted := s.inserted + 1 }
  else { s with timers := timer :: s.timers }

/-- A recurring timer that expired is inserted again. -/
def again (timer : Timer) : Timer := { timer with next := s.now + timer.ms * millisecond }

/-- `listExpiredCb`; with a recurring timer of period 0 its loop does not end. -/
def listExpired : Option State :=
  let expired := s.timers.filter fun t => decide (t.next ≤ s.now)
  if ∀ t ∈ expired, t.recurring = true → t.ms ≠ 0 then
    some { s with timers := s.timers.filter (fun t => decide (s.now < t.next)) ++ (expired.filter (·.recurring)).map s.again }
  else none

end State

/-- A timer's `m_next` is `m_ms` after some time not later than now. -/
def step (s : State) : Label → Option State
  | .io l => (Tickle.step s.io l).bind fun io => s.timed io l
  | .ask w =>
    if s.io.pc w = .stopping ∧ s.empty w = none then
      some { s with empty := Function.update s.empty w (some s.timers.isEmpty), mTickled := false }
    else none
  | .askTimeout w =>
    if s.io.pc w = .wait ∧ s.nextTimeout w = none then
      some { s with nextTimeout := Function.update s.nextTimeout w (some s.waitTime), mTickled := false }
    else none
  | .getNextTimer => some { s with mTickled := false }
  | .interrupt w => if s.io.pc w = .blocked then some { s with io := s.io.setPc w .wait } else none
  | .listExpiredCb w =>
    match s.io.pc w with
    | .woken _ => s.listExpired
    | _ => none
  | .addTimer timer first =>
    if timer.next ≤ s.now + timer.ms * millisecond then some (s.addTimer timer first) else none
  | .test =>
    if 0 < s.inserted then
      some { s with inserted := s.inserted - 1, alarmed := if s.io.hasIdleThreads then s.alarmed + 1 else s.alarmed }
    else none
  | .write => if 0 < s.alarmed then some { s with alarmed := s.alarmed - 1, io := { s.io with written := true } } else none
  | .cancel timer => some { s with timers := s.timers.erase timer }
  | .refresh timer => if timer ∈ s.timers then some { s with timers := s.again timer :: s.timers.erase timer } else none
  | .tick d => some { s with now := s.now + d }

/-- No worker has started, and there is no timer. -/
def machine : Machine State Label where
  init := { io := Tickle.machine.init, timers := [], mTickled := false, now := 0, inserted := 0, alarmed := 0,
            empty := fun _ => none, nextTimeout := fun _ => none, timeout := fun _ => 0, wakeAt := fun _ => 0 }
  step := step

/-! ## Watching the earliest timer -/

/-- Executing a task. -/
def Executes : Pc → Prop
  | .execute _ => True
  | _ => False

instance : DecidablePred Executes := fun pc => by
  unfold Executes
  split <;> infer_instance

section Watching

variable (s : State)

/-- Blocked in `epoll_wait`. -/
def Sleeps (w : Worker) : Prop := s.io.pc w = .blocked ∧ s.timeout w ≠ 0

/-- Between its `getNextTimer` and an `epoll_wait` that blocks. -/
def Enters (w : Worker) : Prop := (s.nextTimeout w).getD 0 ≠ 0

/-- Awake and not executing a task, and asks for the next timer before it blocks: its
`idle()` has not ended, and it has not asked already. -/
def Attends (w : Worker) : Prop :=
  s.io.term w = false ∧ s.io.pc w ≠ .absent ∧ ¬ Sleeps s w ∧ ¬ Executes (s.io.pc w) ∧ ¬ Enters s w

/-- Blocked, and its wake-up time is not later than any of `timers`. -/
def InTime (timers : List Timer) (w : Worker) : Prop := Sleeps s w ∧ ∀ t ∈ timers, s.wakeAt w ≤ t.next

/-- The eventfd is written, or a thread is between its insert and its `tickle()`. -/
def Rings : Prop := s.io.written = true ∨ 0 < s.inserted + s.alarmed

/-- The earliest timer is watched while a worker is blocked. -/
def Watched : Prop :=
  (∃ w, Sleeps s w) → s.timers ≠ [] → (∃ w, InTime s s.timers w) ∨ Rings s ∨ ∃ w, Attends s w

instance (w : Worker) : Decidable (Sleeps s w) := inferInstanceAs (Decidable (_ ∧ _))

instance (w : Worker) : Decidable (Enters s w) := inferInstanceAs (Decidable (_ ≠ _))

instance (w : Worker) : Decidable (Attends s w) := inferInstanceAs (Decidable (_ ∧ _))

instance (timers : List Timer) (w : Worker) : Decidable (InTime s timers w) := inferInstanceAs (Decidable (_ ∧ _))

/-! ## The condition -/

/-- While a worker is blocked, one of `others` comes to ask for the next timer, or sleeps
no longer than any of `timers`. -/
def InHand (timers : List Timer) (others : Worker → Prop) : Prop :=
  (∃ w, Sleeps s w) → ∃ w, others w ∧ (Attends s w ∨ InTime s timers w)

/-- A worker that takes a task, gets a timeout to block with, or ends its `idle()`, leaves
the timers in the hands of another. When it blocks, the clock and `m_timers` have not
outrun its timeout, or another has the timers in hand; so when an insertion at the front
leaves its `tickle()` out. -/
def Minds : Label → Prop
  | .io (.advance w) =>
    match s.io.pc w with
    | .pick => Executes ((s.io.pickTask w).pc w) → InHand s s.timers (· ≠ w)
    | .wait =>
      Enters s w → (∀ t ∈ s.timers, s.now + (s.nextTimeout w).getD 0 * millisecond ≤ t.next) ∨
        ∃ x, Attends s x ∨ InTime s s.timers x
    | _ => True
  | .io (.stopping w true) => InHand s s.timers (· ≠ w)
  | .askTimeout w => s.waitTime ≠ 0 → InHand s s.timers (· ≠ w)
  | .addTimer timer first => s.atBegin timer first = true → s.mTickled = true → InHand s (timer :: s.timers) fun _ => True
  | _ => True

end Watching

/-! ## The moves of `Tickle` -/

/-- In the loop of `idle()`, before its end. -/
def Loops : Pc → Prop
  | .stopping | .wait | .blocked | .woken _ => True
  | _ => False

/-- `m_idleThreadCount` tells the truth, and a worker whose `idle()` has ended does not loop. -/
structure Placed (s : Tickle.State) : Prop where
  idle : Tally Pc.Counted s.pc s.idleThreadCount
  live : ∀ w, Loops (s.pc w) → s.term w = false

section Moves

variable {s s' : Tickle.State} {l : Tickle.Label} {w x : Worker} {p q : Pc}

theorem placed_init : Placed Tickle.machine.init where
  idle := .zero fun _ => nofun
  live _ := nofun

/-- A worker goes on, inside `idle()` or outside. -/
theorem Placed.goes (h : Placed s) (at' : s.pc x = q) (idle : p.Counted ↔ q.Counted) (loops : Loops p → Loops q) :
    Placed (s.setPc x p) := by
  subst at'
  refine ⟨h.idle.same idle, fun w inside => ?_⟩
  by_cases mine : w = x
  · subst mine
    simp only [State.setPc, Function.update_self] at inside
    exact h.live w (loops inside)
  · simp only [State.setPc, Function.update_of_ne mine] at inside
    exact h.live w inside

/-- `s'` differs from `s` in what is not read here. -/
theorem Placed.same (h : Placed s) (pc : s'.pc = s.pc) (term : s'.term = s.term)
    (idle : s'.idleThreadCount = s.idleThreadCount) : Placed s' := by
  constructor
  · rw [pc, idle]
    exact h.idle
  · rw [pc, term]
    exact h.live

theorem Placed.pickTask (h : Placed s) (at' : s.pc x = .pick) : Placed (s.pickTask x) := by
  obtain ⟨picked, e⟩ : ∃ picked, pickNextTaskLocked s.policy s.mlfqConfig s.taskSequence s.tasks x = picked := ⟨_, rfl⟩
  have live (p : Pc) (out : ¬ Loops p) (w : Worker) (inside : Loops (Function.update s.pc x p w)) : s.term w = false := by
    by_cases mine : w = x
    · rw [mine, Function.update_self] at inside
      exact absurd inside out
    · rw [Function.update_of_ne mine] at inside
      exact h.live w inside
  have out : ¬ (s.pc x).Counted := by
    rw [at']
    exact id
  simp only [State.pickTask, e]
  cases picked.task <;> refine ⟨h.idle.same ⟨?_, fun inside => absurd inside out⟩, live _ ?_⟩ <;> split <;> exact False.elim

theorem Placed.advance (h : Placed s) (e : s.advance x = some s') : Placed s' := by
  simp only [State.advance] at e
  split at e
  case h_1 at' =>
    cases e
    exact h.pickTask at'
  case h_2 task at' =>
    cases e
    cases task with
    | none => split <;> exact h.goes at' Iff.rfl id
    | some task => split <;> exact h.goes at' Iff.rfl id
  case h_3 task at' =>
    cases e
    have moved : Placed (s.setPc x (State.afterTickle task)) := by
      cases task <;> exact h.goes at' Iff.rfl id
    exact moved.same rfl rfl rfl
  case h_4 at' =>
    cases e
    split <;> exact h.goes at' Iff.rfl id
  case h_5 at' =>
    cases e
    have moved : Placed (s.setPc x .finish) := h.goes at' Iff.rfl id
    exact moved.same rfl rfl rfl
  case h_6 at' =>
    cases e
    have moved : Placed (s.setPc x .pick) := h.goes at' Iff.rfl False.elim
    exact moved.same rfl rfl rfl
  case h_7 at' =>
    split at e <;> cases e
    · exact h.goes at' Iff.rfl id
    · rename_i live
      have uncounted : ¬ (s.pc x).Counted := by
        rw [at']
        exact id
      refine ⟨h.idle.enter uncounted trivial, fun w inside => ?_⟩
      by_cases mine : w = x
      · rw [mine]
        exact Bool.not_eq_true _ ▸ live
      · simp only [State.setPc, Function.update_of_ne mine] at inside
        exact h.live w inside
  case h_8 at' =>
    cases e
    exact h.goes at' Iff.rfl id
  case h_9 at' =>
    cases e
    have moved : Placed (s.setPc x (.woken false)) := h.goes at' Iff.rfl id
    exact moved.same rfl rfl rfl
  case h_10 at' =>
    cases e
    exact h.goes at' Iff.rfl False.elim
  case h_11 at' =>
    cases e
    have counted : (s.pc x).Counted := by
      rw [at']
      trivial
    refine ⟨h.idle.leave counted id, fun w inside => ?_⟩
    by_cases mine : w = x
    · simp only [State.setPc, mine, Function.update_self] at inside
      cases inside
    · simp only [State.setPc, Function.update_of_ne mine] at inside
      exact h.live w inside
  all_goals cases e

theorem Placed.step (h : Placed s) (e : Tickle.step s l = some s') : Placed s' := by
  cases l with
  | setPolicy policy =>
    cases e
    exact h.same rfl rfl rfl
  | setMLFQConfig config =>
    cases e
    exact h.same rfl rfl rfl
  | start w =>
    simp only [Tickle.step] at e
    split at e <;> cases e
    rename_i absent
    refine ⟨h.idle.same (by rw [absent]; exact Iff.rfl), fun x inside => ?_⟩
    by_cases mine : x = w
    · rw [mine]
      exact Function.update_self ..
    · simp only [State.setPc, Function.update_of_ne mine] at inside ⊢
      exact h.live x inside
  | stop =>
    cases e
    exact h.same rfl rfl rfl
  | schedule job options =>
    cases e
    exact h.same rfl rfl rfl
  | test =>
    simp only [Tickle.step] at e
    split at e <;> cases e
    exact h.same rfl rfl rfl
  | write =>
    simp only [Tickle.step] at e
    split at e <;> cases e
    exact h.same rfl rfl rfl
  | notify =>
    cases e
    exact h.same rfl rfl rfl
  | advance w => exact h.advance e
  | done w ready =>
    simp only [Tickle.step, State.done] at e
    split at e
    · rename_i task at'
      split at e <;> cases e
      · have moved : Placed (s.setPc w .requeued) := h.goes at' Iff.rfl id
        exact moved.same rfl rfl rfl
      · exact h.goes at' Iff.rfl id
    · cases e
  | stopping w result =>
    simp only [Tickle.step, State.stoppingTest] at e
    split at e
    · rename_i at'
      split at e
      · split at e <;> cases e
        refine ⟨h.idle.same (by rw [at']; exact Iff.rfl), fun x inside => ?_⟩
        by_cases mine : x = w
        · simp only [State.setPc, mine, Function.update_self] at inside
          cases inside
        · simp only [State.setPc, Function.update_of_ne mine] at inside ⊢
          exact h.live x inside
      · cases e
        exact h.goes at' Iff.rfl id
    · cases e
  | wake w tickled =>
    simp only [Tickle.step] at e
    split at e <;> cases e
    rename_i guard
    exact h.goes guard.1 Iff.rfl fun _ => trivial

/-- What a move does to the places: nothing; or a worker whose `idle()` has not ended goes
on, to a task or not; or one whose `idle()` has. -/
inductive Turn (s : Tickle.State) (l : Tickle.Label) (s' : Tickle.State) : Prop where
  | still (pc : s'.pc = s.pc) (term : s'.term = s.term) (written : s.written = true → s'.written = true)
  | turns (x : Worker) (p : Pc) (pc : s'.pc = Function.update s.pc x p) (term : s'.term x = false)
      (place : p ≠ .absent ∧ p ≠ .blocked) (before : s.pc x ≠ .wait) (started : s.pc x = .absent → l = .start x)
      (executes : Executes p → l = .advance x ∧ s.pc x = .pick ∨ s.idleThreadCount = 0 ∨ s'.written = true)
  | ended (x : Worker) (p : Pc) (pc : s'.pc = Function.update s.pc x p) (term : s'.term = s.term) (was : s.term x = true)
      (place : p ≠ .blocked ∧ s.pc x ≠ .blocked) (present : s.pc x ≠ .absent)
      (written : s.written = true → s'.written = true)

/-- A worker goes on outside of `epoll_wait`, and leaves the eventfd alone or writes it. -/
theorem Turn.of_move (pc : s'.pc = Function.update s.pc x p) (term : s'.term = s.term) (at' : s.pc x = q)
    (place : p ≠ .absent ∧ p ≠ .blocked) (before : q ≠ .blocked ∧ q ≠ .wait ∧ q ≠ .absent)
    (written : s.written = true → s'.written = true)
    (executes : Executes p → l = .advance x ∧ q = .pick ∨ s.idleThreadCount = 0 ∨ s'.written = true) : Turn s l s' := by
  subst at'
  cases live : s.term x with
  | false => exact .turns x p pc ((congrFun term x).trans live) place before.2.1 (fun absent => absurd absent before.2.2) executes
  | true => exact .ended x p pc term live ⟨place.2, before.1⟩ before.2.2 written

theorem afterTickle_ne (task : Option Task) : State.afterTickle task ≠ .absent ∧ State.afterTickle task ≠ .blocked := by
  cases task <;> exact ⟨nofun, nofun⟩

theorem advance_turn (h : Placed s) (waits : s.pc x ≠ .wait) (e : s.advance x = some s') : Turn s (.advance x) s' := by
  simp only [State.advance] at e
  split at e
  case h_1 at' =>
    cases e
    refine .of_move rfl rfl at' ?_ ⟨by simp, by simp, by simp⟩ id fun _ => .inl ⟨rfl, rfl⟩
    split
    · exact ⟨by simp, by simp⟩
    · split <;> exact ⟨by simp, by simp⟩
  case h_2 task at' =>
    cases e
    by_cases idle : s.hasIdleThreads = true
    · rw [if_pos idle]
      exact .of_move rfl rfl at' ⟨by simp, by simp⟩ ⟨by simp, by simp, by simp⟩ id False.elim
    · have zero : s.idleThreadCount = 0 := by
        simp only [State.hasIdleThreads, decide_eq_true_eq] at idle
        omega
      rw [if_neg idle]
      refine .of_move rfl rfl at' ?_ ⟨by simp, by simp, by simp⟩ id fun _ => .inr (.inl zero)
      exact afterTickle_ne task
  case h_3 task at' =>
    cases e
    refine .of_move rfl rfl at' ?_ ⟨by simp, by simp, by simp⟩ (fun _ => rfl) fun _ => .inr (.inr rfl)
    exact afterTickle_ne task
  case h_4 at' =>
    cases e
    refine .of_move rfl rfl at' ?_ ⟨by simp, by simp, by simp⟩ id ?_ <;> split
    · exact ⟨by simp, by simp⟩
    · exact ⟨by simp, by simp⟩
    · exact False.elim
    · exact False.elim
  case h_5 at' =>
    cases e
    exact .of_move rfl rfl at' ⟨by simp, by simp⟩ ⟨by simp, by simp, by simp⟩ (fun _ => rfl) False.elim
  case h_6 at' =>
    cases e
    exact .of_move rfl rfl at' ⟨by simp, by simp⟩ ⟨by simp, by simp, by simp⟩ id False.elim
  case h_7 at' =>
    split at e <;> cases e
    · rename_i over'
      exact .ended x .absent rfl rfl over' ⟨by simp, by simp [at']⟩ (by simp [at']) id
    · exact .of_move rfl rfl at' ⟨by simp, by simp⟩ ⟨by simp, by simp, by simp⟩ id False.elim
  case h_8 at' => exact absurd at' waits
  case h_9 at' =>
    cases e
    exact .turns x _ rfl (h.live x (by rw [at']; trivial)) ⟨by simp, by simp⟩ (by simp [at'])
      (fun absent => by cases at'.symm.trans absent) False.elim
  case h_10 at' =>
    cases e
    exact .of_move rfl rfl at' ⟨by simp, by simp⟩ ⟨by simp, by simp, by simp⟩ id False.elim
  case h_11 at' =>
    cases e
    exact .of_move rfl rfl at' ⟨by simp, by simp⟩ ⟨by simp, by simp, by simp⟩ id False.elim
  all_goals cases e

theorem step_turn (h : Placed s) (stays : ∀ w result, l ≠ .stopping w result) (waits : ∀ w, l = .advance w → s.pc w ≠ .wait)
    (e : Tickle.step s l = some s') : Turn s l s' := by
  cases l with
  | setPolicy policy =>
    cases e
    exact .still rfl rfl id
  | setMLFQConfig config =>
    cases e
    exact .still rfl rfl id
  | start w =>
    simp only [Tickle.step] at e
    split at e <;> cases e
    rename_i absent
    exact .turns w .pick rfl (Function.update_self ..) ⟨by simp, by simp⟩ (by simp [absent]) (fun _ => rfl) False.elim
  | stop =>
    cases e
    exact .still rfl rfl id
  | schedule job options =>
    cases e
    exact .still rfl rfl id
  | test =>
    simp only [Tickle.step] at e
    split at e <;> cases e
    exact .still rfl rfl id
  | write =>
    simp only [Tickle.step] at e
    split at e <;> cases e
    exact .still rfl rfl fun _ => rfl
  | notify =>
    cases e
    exact .still rfl rfl fun _ => rfl
  | advance w => exact advance_turn h (waits w rfl) e
  | done w ready =>
    simp only [Tickle.step, State.done] at e
    split at e
    · rename_i task at'
      split at e <;> cases e <;> exact .of_move rfl rfl at' ⟨by simp, by simp⟩ ⟨by simp, by simp, by simp⟩ id False.elim
    · cases e
  | stopping w result => exact absurd rfl (stays w result)
  | wake w tickled =>
    simp only [Tickle.step] at e
    split at e <;> cases e
    rename_i guard
    exact .turns w _ rfl (h.live w (by rw [guard.1]; trivial)) ⟨by simp, by simp⟩ (by simp [guard.1])
      (fun absent => by cases guard.1.symm.trans absent) False.elim

end Moves

/-! ## The invariant -/

/-- What is known of every state. -/
structure Kept (s : State) : Prop where
  placed : Placed s.io
  waits : ∀ w, s.nextTimeout w ≠ none → s.io.pc w = .wait
  due : ∀ t ∈ s.timers, t.next ≤ s.now + t.ms * millisecond

section Steps

variable {s s' : State} {l : Label} {timers : List Timer} {w x : Worker} {d : Nat} {io : Tickle.State}

theorem kept_init : Kept machine.init where
  placed := placed_init
  waits _ asked := absurd rfl asked
  due := by simp [machine]

theorem Kept.nobody_sleeps (h : Kept s) (zero : s.io.idleThreadCount = 0) (w : Worker) : ¬ Sleeps s w := by
  intro sleeps
  have counted : (s.io.pc w).Counted := by
    rw [sleeps.1]
    trivial
  have some' := h.placed.idle.pos counted
  omega

theorem Kept.asks (h : Kept s) (elsewhere : s.io.pc w ≠ .wait) : s.nextTimeout w = none := by
  by_contra asked
  exact elsewhere (h.waits w asked)

theorem not_enters (next : s.nextTimeout w = none) : ¬ Enters s w := by
  simp [Enters, next]

/-- A worker in `idle()` that is not blocked, and has not asked, attends. -/
theorem Kept.attends (h : Kept s) (loops : Loops (s.io.pc w)) (out : s.io.pc w ≠ .wait ∧ s.io.pc w ≠ .blocked) :
    Attends s w := by
  have place : s.io.pc w ≠ .absent ∧ ¬ Executes (s.io.pc w) := by
    revert loops
    cases s.io.pc w <;> simp [Loops, Executes]
  exact ⟨h.placed.live w loops, place.1, fun asleep => out.2 asleep.1, place.2, not_enters (h.asks out.1)⟩

theorem sleeps_same (pc : s'.io.pc w = s.io.pc w) (timeout : s'.timeout w = s.timeout w) : Sleeps s' w ↔ Sleeps s w := by
  rw [Sleeps, Sleeps, pc, timeout]

theorem attends_same (pc : s'.io.pc w = s.io.pc w) (term : s'.io.term w = s.io.term w)
    (timeout : s'.timeout w = s.timeout w) (next : s'.nextTimeout w = s.nextTimeout w) : Attends s' w ↔ Attends s w := by
  rw [Attends, Attends, sleeps_same pc timeout, Enters, Enters, pc, term, next]

theorem io_sleeps (pc : io.pc w = s.io.pc w) : Sleeps { s with io } w ↔ Sleeps s w := sleeps_same pc rfl

theorem io_attends (pc : io.pc w = s.io.pc w) (term : io.term w = s.io.term w) : Attends { s with io } w ↔ Attends s w :=
  attends_same pc term rfl rfl

theorem inHand_of_asleep (nobody : ∀ w, ¬ Sleeps s w) (others : Worker → Prop) : InHand s timers others :=
  fun ⟨w, asleep⟩ => absurd asleep (nobody w)

theorem Watched.of_inHand {others : Worker → Prop} (h : InHand s s.timers others) : Watched s := by
  intro asleep _
  obtain ⟨w, -, attends | inTime⟩ := h asleep
  · exact .inr (.inr ⟨w, attends⟩)
  · exact .inl ⟨w, inTime⟩

/-- With no `tickle()` under way, the timers are in the hands of some worker. -/
theorem Watched.inHand (h : Watched s) (silent : ¬ Rings s) : InHand s s.timers fun _ => True := by
  rintro ⟨w, asleep⟩
  by_cases none' : s.timers = []
  · exact ⟨w, trivial, .inr ⟨asleep, by simp [none']⟩⟩
  · rcases h ⟨w, asleep⟩ none' with ⟨x, inTime⟩ | ringing | ⟨x, attends⟩
    · exact ⟨x, trivial, .inr inTime⟩
    · exact absurd ringing silent
    · exact ⟨x, trivial, .inl attends⟩

/-! ## What a step does -/

/-- Some worker attends after the step; or a `tickle()` is coming; or nobody sleeps; or
nothing changes for those who sleep and those who attend; or a worker does not attend any
more; or it blocks; or an insertion leaves its `tickle()` out. -/
inductive Effect (s : State) (l : Label) (s' : State) : Prop where
  | attends (x : Worker) (attends : Attends s' x) (minds : Minds s l)
  | rings (rings : Rings s')
  | awake (nobody : ∀ w, ¬ Sleeps s' w) (minds : Minds s l)
  | keeps (sleeps : ∀ w, Sleeps s' w ↔ Sleeps s w) (wakeAt : s'.wakeAt = s.wakeAt) (rings : Rings s → Rings s')
      (later : ∀ t ∈ s'.timers, ∃ u ∈ s.timers, u.next ≤ t.next) (attends : ∀ w, Attends s w → Attends s' w)
      (minds : Watched s → ¬ Rings s → Minds s l)
  | leaves (x : Worker) (awake : ¬ Sleeps s x) (sleeps : ∀ w, Sleeps s' w ↔ Sleeps s w) (wakeAt : s'.wakeAt = s.wakeAt)
      (timers : s'.timers = s.timers) (attends : ∀ w, Attends s' w ↔ w ≠ x ∧ Attends s w)
      (minds : Minds s l ↔ InHand s s.timers (· ≠ x))
  | blocks (x : Worker) (awake : ¬ Sleeps s x) (sleeps : ∀ w, Sleeps s' w ↔ w = x ∨ Sleeps s w)
      (wakeAt : ∀ w, w ≠ x → s'.wakeAt w = s.wakeAt w) (timers : s'.timers = s.timers)
      (attends : ∀ w, Attends s' w ↔ Attends s w)
      (minds : Minds s l ↔ (∀ t ∈ s.timers, s'.wakeAt x ≤ t.next) ∨ ∃ y, Attends s y ∨ InTime s s.timers y)
  | suppressed (timer : Timer) (first : Bool) (label : l = .addTimer timer first) (atBegin : s.atBegin timer first = true)
      (tickled : s.mTickled = true) (state : s' = { s with timers := timer :: s.timers })

/-- Nothing changes for those who sleep and those who attend, and no timer becomes earlier. -/
theorem Watched.keep (h : Watched s) (sleeps : ∀ w, Sleeps s' w ↔ Sleeps s w) (wakeAt : s'.wakeAt = s.wakeAt)
    (rings : Rings s → Rings s') (later : ∀ t ∈ s'.timers, ∃ u ∈ s.timers, u.next ≤ t.next)
    (attends : ∀ w, Attends s w → Attends s' w) : Watched s' := by
  rintro ⟨w, asleep⟩ some'
  obtain ⟨t, mem⟩ := List.exists_mem_of_ne_nil _ some'
  obtain ⟨u, there, -⟩ := later t mem
  rcases h ⟨w, (sleeps w).1 asleep⟩ (List.ne_nil_of_mem there) with ⟨x, watches, early⟩ | ringing | ⟨x, attending⟩
  · refine .inl ⟨x, (sleeps x).2 watches, fun t mem => ?_⟩
    obtain ⟨u, there, le⟩ := later t mem
    rw [wakeAt]
    exact Nat.le_trans (early u there) le
  · exact .inr (.inl (rings ringing))
  · exact .inr (.inr ⟨x, attends x attending⟩)

/-- A worker does not attend any more: the others have the timers in hand or nobody. -/
theorem inHand_leaves (awake : ¬ Sleeps s x) (sleeps : ∀ w, Sleeps s' w ↔ Sleeps s w) (wakeAt : s'.wakeAt = s.wakeAt)
    (timers : s'.timers = s.timers) (attends : ∀ w, Attends s' w ↔ w ≠ x ∧ Attends s w) :
    InHand s' s'.timers (fun _ => True) ↔ InHand s s.timers (· ≠ x) := by
  have inTime (w : Worker) : InTime s' s.timers w ↔ InTime s s.timers w := by rw [InTime, InTime, sleeps, wakeAt]
  have some' : (∃ w, Sleeps s' w) ↔ ∃ w, Sleeps s w := exists_congr sleeps
  rw [InHand, InHand, some', timers]
  refine forall_congr' fun _ => exists_congr fun w => ?_
  rw [attends, inTime]
  constructor
  · rintro ⟨-, ⟨other, attending⟩ | watches⟩
    · exact ⟨other, .inl attending⟩
    · exact ⟨fun mine => awake (mine ▸ watches.1), .inr watches⟩
  · rintro ⟨other, attending | watches⟩
    · exact ⟨trivial, .inl ⟨other, attending⟩⟩
    · exact ⟨trivial, .inr watches⟩

/-- A worker blocks: it sleeps no longer than any timer, or another has them in hand. -/
theorem inHand_blocks (awake : ¬ Sleeps s x) (sleeps : ∀ w, Sleeps s' w ↔ w = x ∨ Sleeps s w)
    (wakeAt : ∀ w, w ≠ x → s'.wakeAt w = s.wakeAt w) (timers : s'.timers = s.timers)
    (attends : ∀ w, Attends s' w ↔ Attends s w) :
    InHand s' s'.timers (fun _ => True) ↔
      (∀ t ∈ s.timers, s'.wakeAt x ≤ t.next) ∨ ∃ y, Attends s y ∨ InTime s s.timers y := by
  have asleep : ∃ w, Sleeps s' w := ⟨x, (sleeps x).2 (.inl rfl)⟩
  have other {y : Worker} (was : Sleeps s y) : y ≠ x := fun mine => awake (mine ▸ was)
  rw [InHand, timers]
  constructor
  · intro h
    obtain ⟨y, -, attending | ⟨sleeping, early⟩⟩ := h asleep
    · exact .inr ⟨y, .inl ((attends y).1 attending)⟩
    · rcases (sleeps y).1 sleeping with rfl | was
      · exact .inl early
      · rw [wakeAt y (other was)] at early
        exact .inr ⟨y, .inr ⟨was, early⟩⟩
  · rintro (early | ⟨y, attending | ⟨was, early⟩⟩) _
    · exact ⟨x, trivial, .inr ⟨(sleeps x).2 (.inl rfl), early⟩⟩
    · exact ⟨y, trivial, .inl ((attends y).2 attending)⟩
    · refine ⟨y, trivial, .inr ⟨(sleeps y).2 (.inr was), ?_⟩⟩
      rw [wakeAt y (other was)]
      exact early

/-- A step that meets the condition keeps the timers watched. -/
theorem Effect.watched (effect : Effect s l s') (watched : Watched s) (minds : Minds s l) : Watched s' := by
  cases effect with
  | attends x attends => exact fun _ _ => .inr (.inr ⟨x, attends⟩)
  | rings rings => exact fun _ _ => .inr (.inl rings)
  | awake nobody => exact fun ⟨w, asleep⟩ => absurd asleep (nobody w)
  | keeps sleeps wakeAt rings later attends => exact watched.keep sleeps wakeAt rings later attends
  | leaves x awake sleeps wakeAt timers attends iff' =>
    exact .of_inHand ((inHand_leaves awake sleeps wakeAt timers attends).2 (iff'.1 minds))
  | blocks x awake sleeps wakeAt timers attends iff' =>
    exact .of_inHand ((inHand_blocks awake sleeps wakeAt timers attends).2 (iff'.1 minds))
  | suppressed timer first label atBegin tickled state =>
    subst label state
    exact .of_inHand (s := { s with timers := timer :: s.timers }) (minds atBegin tickled)

/-- With no `tickle()` under way, only such a step does. -/
theorem Effect.minds (effect : Effect s l s') (watched : Watched s) (after : Watched s') (silent : ¬ Rings s') :
    Minds s l := by
  cases effect with
  | attends x attends minds => exact minds
  | rings rings => exact absurd rings silent
  | awake nobody minds => exact minds
  | keeps sleeps wakeAt rings later attends minds => exact minds watched fun ringing => silent (rings ringing)
  | leaves x awake sleeps wakeAt timers attends iff' =>
    exact iff'.2 ((inHand_leaves awake sleeps wakeAt timers attends).1 (after.inHand silent))
  | blocks x awake sleeps wakeAt timers attends iff' =>
    exact iff'.2 ((inHand_blocks awake sleeps wakeAt timers attends).1 (after.inHand silent))
  | suppressed timer first label atBegin tickled state =>
    subst label state
    exact fun _ _ => after.inHand silent

/-! ## The moves of `Tickle`, with the timers -/

/-- A worker's move outside of `epoll_wait` that takes no task meets the condition. -/
theorem minds_of_turn {l : Tickle.Label} {p : Pc} (e : Tickle.step s.io l = some io)
    (pc : io.pc = Function.update s.io.pc x p) (stays : ∀ w result, l ≠ .stopping w result)
    (waits : ∀ w, l = .advance w → s.io.pc w ≠ .wait)
    (taken : l = .advance x → s.io.pc x = .pick → Executes p → InHand s s.timers (· ≠ x)) : Minds s (.io l) := by
  cases l with
  | advance w =>
    simp only [Minds]
    split
    · rename_i at'
      intro executes
      have is : io = s.io.pickTask w := by
        simp only [Tickle.step, State.advance, at', Option.some.injEq] at e
        exact e.symm
      rw [← is, pc] at executes
      by_cases mine : w = x
      · subst mine
        rw [Function.update_self] at executes
        exact taken rfl at' executes
      · rw [Function.update_of_ne mine, at'] at executes
        exact executes.elim
    · rename_i at'
      exact absurd at' (waits w rfl)
    · trivial
  | stopping w result => exact absurd rfl (stays w result)
  | _ => trivial

/-- A worker takes a task from its pick. -/
theorem pick_leaves {p : Pc} (at' : s.io.pc x = .pick) (is : io = s.io.pickTask x)
    (pc : io.pc = Function.update s.io.pc x p) (executes : Executes p) : Effect s (.io (.advance x)) { s with io } := by
  have here : io.pc x = p := by rw [pc, Function.update_self]
  have elsewhere {w : Worker} (other : w ≠ x) : io.pc w = s.io.pc w := by rw [pc, Function.update_of_ne other]
  have term : io.term = s.io.term := by
    rw [is]
    rfl
  have awake : ¬ Sleeps s x := fun asleep => by cases at'.symm.trans asleep.1
  refine .leaves x awake (fun w => ?_) rfl rfl (fun w => ?_) ?_
  · by_cases mine : w = x
    · subst mine
      refine iff_of_false (fun asleep => ?_) awake
      have blocked : io.pc w = .blocked := asleep.1
      rw [← here, blocked] at executes
      exact executes
    · exact sleeps_same (elsewhere mine) rfl
  · by_cases mine : w = x
    · subst mine
      refine iff_of_false (fun attends => ?_) fun h => h.1 rfl
      rw [← here] at executes
      exact attends.2.2.2.1 executes
    · rw [and_iff_right mine]
      exact attends_same (elsewhere mine) (congrFun term w) rfl rfl
  · have taken : Executes ((s.io.pickTask x).pc x) := by rwa [← is, here]
    simp only [Minds, at']
    exact ⟨fun minds => minds taken, fun inHand _ => inHand⟩

/-- A worker goes on whose `idle()` has not ended. -/
theorem turn_attends {p : Pc} (h : Kept s) (pc : io.pc = Function.update s.io.pc x p) (term : io.term x = false)
    (place : p ≠ .absent ∧ p ≠ .blocked) (before : s.io.pc x ≠ .wait) (idle : ¬ Executes p) :
    Attends { s with io } x := by
  have here : io.pc x = p := by rw [pc, Function.update_self]
  refine ⟨term, fun absent => place.1 (here.symm.trans absent), fun asleep => place.2 (here.symm.trans asleep.1), ?_,
    not_enters (h.asks before)⟩
  show ¬ Executes (io.pc x)
  rwa [here]

/-- A worker goes on whose `idle()` has ended. -/
theorem ended_keeps {l : Tickle.Label} {p : Pc} (pc : io.pc = Function.update s.io.pc x p) (term : io.term = s.io.term)
    (was : s.io.term x = true) (place : p ≠ .blocked ∧ s.io.pc x ≠ .blocked)
    (written : s.io.written = true → io.written = true)
    (minds : InHand s s.timers (· ≠ x) → Minds s (.io l)) : Effect s (.io l) { s with io } := by
  have elsewhere {w : Worker} (other : w ≠ x) : io.pc w = s.io.pc w := by rw [pc, Function.update_of_ne other]
  have gone {w : Worker} (attends : Attends s w) : w ≠ x := by
    rintro rfl
    cases attends.1.symm.trans was
  refine .keeps (fun w => ?_) rfl (fun rings => rings.imp written id) (fun t mem => ⟨t, mem, Nat.le_refl _⟩)
    (fun w attends => ?_) fun watched silent => minds fun asleep => ?_
  · by_cases mine : w = x
    · subst mine
      refine iff_of_false (fun asleep => place.1 ?_) fun asleep => place.2 asleep.1
      rw [← asleep.1]
      show p = io.pc w
      rw [pc, Function.update_self]
    · exact sleeps_same (elsewhere mine) rfl
  · exact (io_attends (elsewhere (gone attends)) (congrFun term w)).2 attends
  · obtain ⟨w, -, attends | inTime⟩ := watched.inHand silent asleep
    · exact ⟨w, gone attends, .inl attends⟩
    · exact ⟨w, fun mine => place.2 (mine ▸ inTime.1.1), .inr inTime⟩

theorem step_io {l : Tickle.Label} (h : Kept s) (stays : ∀ w result, l ≠ .stopping w result)
    (waits : ∀ w, l = .advance w → s.io.pc w ≠ .wait) (e : Tickle.step s.io l = some io) :
    Effect s (.io l) { s with io } := by
  cases step_turn h.placed stays waits e with
  | still pc term written =>
    refine .keeps (fun w => io_sleeps (congrFun pc w)) rfl (fun rings => rings.imp written id)
      (fun t mem => ⟨t, mem, Nat.le_refl _⟩) (fun w => (io_attends (congrFun pc w) (congrFun term w)).2) ?_
    refine fun _ _ => minds_of_turn (x := 0) e (pc.trans (Function.update_eq_self 0 s.io.pc).symm) stays waits ?_
    intro _ at' executes
    rw [at'] at executes
    exact executes.elim
  | turns x p pc term place before started executes =>
    by_cases task : Executes p
    · rcases executes task with ⟨rfl, at'⟩ | zero | written
      · refine pick_leaves at' ?_ pc task
        simp only [Tickle.step, State.advance, at', Option.some.injEq] at e
        exact e.symm
      · refine .awake (fun w asleep => ?_) (minds_of_turn e pc stays waits fun _ _ _ =>
          inHand_of_asleep (h.nobody_sleeps zero) _)
        by_cases mine : w = x
        · subst mine
          have blocked : io.pc w = .blocked := asleep.1
          rw [pc, Function.update_self] at blocked
          exact place.2 blocked
        · exact h.nobody_sleeps zero w ((io_sleeps (by rw [pc, Function.update_of_ne mine])).1 asleep)
      · exact .rings (.inl written)
    · exact .attends x (turn_attends h pc term place before task)
        (minds_of_turn e pc stays waits fun _ _ executes => absurd executes task)
  | ended x p pc term was place present written =>
    exact ended_keeps pc term was place written fun inHand => minds_of_turn e pc stays waits fun _ _ _ => inHand

/-- `stopping()` of a worker that asked for the next timer. -/
theorem step_stopping {result : Bool} (h : Kept s) (e : s.io.stoppingTest w result = some io) :
    Effect s (.io (.stopping w result)) { s with io, empty := Function.update s.empty w none } := by
  simp only [State.stoppingTest] at e
  split at e
  case isFalse => cases e
  rename_i at'
  have attends := h.attends (w := w) (by rw [at']; trivial) (by simp [at'])
  have asked : s.nextTimeout w = none := h.asks (by simp [at'])
  cases result with
  | false =>
    cases e
    have here : (s.io.setPc w .wait).pc w = .wait := Function.update_self ..
    refine .attends w ⟨attends.1, ?_, fun asleep => ?_, ?_, not_enters asked⟩ trivial
    · show (s.io.setPc w .wait).pc w ≠ .absent
      simp [here]
    · cases here.symm.trans asleep.1
    · show ¬ Executes ((s.io.setPc w .wait).pc w)
      simp [here, Executes]
  | true =>
    simp only [if_true] at e
    split at e <;> cases e
    have elsewhere {x : Worker} (other : x ≠ w) (p : Pc) : Function.update s.io.pc w p x = s.io.pc x :=
      Function.update_of_ne other ..
    refine .leaves w attends.2.2.1 (fun x => ?_) rfl rfl (fun x => ?_) Iff.rfl
    · by_cases mine : x = w
      · subst mine
        refine iff_of_false (fun asleep => ?_) attends.2.2.1
        have blocked : Function.update s.io.pc x .yielded x = .blocked := asleep.1
        rw [Function.update_self] at blocked
        cases blocked
      · exact sleeps_same (elsewhere mine _) rfl
    · by_cases mine : x = w
      · subst mine
        refine iff_of_false (fun attends => ?_) fun h => h.1 rfl
        have live : Function.update s.io.term x true x = false := attends.1
        rw [Function.update_self] at live
        cases live
      · rw [and_iff_right mine]
        exact attends_same (elsewhere mine _) (Function.update_of_ne mine ..) rfl rfl

/-- A worker goes into `epoll_wait`. -/
theorem step_epollWait (h : Kept s) (at' : s.io.pc w = .wait) (asked : s.nextTimeout w = some d) :
    Effect s (.io (.advance w)) (s.epollWait (s.io.setPc w .blocked) w d) := by
  have here : (s.epollWait (s.io.setPc w .blocked) w d).io.pc w = .blocked := Function.update_self ..
  have timeout : (s.epollWait (s.io.setPc w .blocked) w d).timeout w = d := Function.update_self ..
  have wakeAt : (s.epollWait (s.io.setPc w .blocked) w d).wakeAt w = s.now + d * millisecond := Function.update_self ..
  have awake : ¬ Sleeps s w := fun asleep => by cases at'.symm.trans asleep.1
  have enters : Enters s w ↔ d ≠ 0 := by rw [Enters, asked, Option.getD_some]
  have minds : Minds s (.io (.advance w)) ↔ (d ≠ 0 → (∀ t ∈ s.timers, s.now + d * millisecond ≤ t.next) ∨
      ∃ x, Attends s x ∨ InTime s s.timers x) := by
    simp only [Minds, at', enters, asked, Option.getD_some]
  by_cases zero : d = 0
  · refine .attends w ⟨h.placed.live w (by rw [at']; trivial), ?_, ?_, ?_, ?_⟩ (minds.2 fun some' => absurd zero some')
    · simp [here]
    · exact fun asleep => asleep.2 (timeout.trans zero)
    · simp [here, Executes]
    · exact not_enters (Function.update_self ..)
  · have apart {x : Worker} (other : x ≠ w) : (s.epollWait (s.io.setPc w .blocked) w d).io.pc x = s.io.pc x :=
      Function.update_of_ne other ..
    refine .blocks w awake (fun x => ?_) (fun x other => Function.update_of_ne other ..) rfl (fun x => ?_) ?_
    · by_cases mine : x = w
      · subst mine
        exact iff_of_true ⟨here, by rwa [timeout]⟩ (.inl rfl)
      · rw [or_iff_right mine]
        exact sleeps_same (apart mine) (Function.update_of_ne mine ..)
    · by_cases mine : x = w
      · subst mine
        exact iff_of_false (fun attends => attends.2.2.1 ⟨here, by rwa [timeout]⟩)
          fun attends => attends.2.2.2.2 (enters.2 zero)
      · exact attends_same (apart mine) rfl (Function.update_of_ne mine ..) (Function.update_of_ne mine ..)
    · rw [minds, wakeAt]
      exact ⟨fun cond => cond zero, fun cond _ => cond⟩

/-! ## The other steps -/

/-- `getNextTimer` before `epoll_wait`. -/
theorem step_askTimeout (h : Kept s) (at' : s.io.pc w = .wait) :
    Effect s (.askTimeout w)
      { s with nextTimeout := Function.update s.nextTimeout w (some s.waitTime), mTickled := false } := by
  have same : ∀ t ∈ s.timers, ∃ u ∈ s.timers, u.next ≤ t.next := fun t mem => ⟨t, mem, Nat.le_refl _⟩
  have live : s.io.term w = false := h.placed.live w (by rw [at']; trivial)
  have awake : ¬ Sleeps s w := fun asleep => by cases at'.symm.trans asleep.1
  by_cases zero : s.waitTime = 0
  · refine .keeps (fun _ => Iff.rfl) rfl id same (fun x attends => ?_) fun _ _ some' => absurd zero some'
    by_cases mine : x = w
    · subst mine
      refine ⟨attends.1, attends.2.1, attends.2.2.1, attends.2.2.2.1, ?_⟩
      simp [Enters, zero]
    · refine Iff.mpr ?_ attends
      exact attends_same rfl rfl rfl (Function.update_of_ne mine ..)
  · refine .leaves w awake (fun _ => Iff.rfl) rfl rfl (fun x => ?_) ⟨fun minds => minds zero, fun inHand _ => inHand⟩
    by_cases mine : x = w
    · subst mine
      refine iff_of_false (fun attends => attends.2.2.2.2 ?_) fun h => h.1 rfl
      simpa [Enters] using zero
    · rw [and_iff_right mine]
      exact attends_same rfl rfl rfl (Function.update_of_ne mine ..)

/-- An `EINTR` sends a worker back to its `getNextTimer`. -/
theorem step_interrupt (h : Kept s) (at' : s.io.pc w = .blocked) :
    Effect s (.interrupt w) { s with io := s.io.setPc w .wait } := by
  have here : (s.io.setPc w .wait).pc w = .wait := Function.update_self ..
  refine .attends w ⟨h.placed.live w (by rw [at']; trivial), ?_, fun asleep => ?_, ?_, not_enters (h.asks (by simp [at']))⟩
    trivial
  · show (s.io.setPc w .wait).pc w ≠ .absent
    simp [here]
  · cases here.symm.trans asleep.1
  · show ¬ Executes ((s.io.setPc w .wait).pc w)
    simp [here, Executes]

theorem step_listExpired {tickled : Bool} (h : Kept s) (at' : s.io.pc w = .woken tickled) (e : s.listExpired = some s') :
    Effect s (.listExpiredCb w) s' := by
  have attends : Attends s w := h.attends (by rw [at']; trivial) (by simp [at'])
  simp only [State.listExpired] at e
  split at e <;> cases e
  exact .attends w attends trivial

/-- An insertion that does not come first is not earlier than some timer. -/
theorem later_of_behind {timer : Timer} {first : Bool} (behind : s.atBegin timer first = false) :
    ∃ u ∈ s.timers, u.next ≤ timer.next := by
  obtain ⟨u, mem, before⟩ := List.all_eq_false.1 behind
  refine ⟨u, mem, ?_⟩
  cases first with
  | true =>
    simp only [if_true, decide_eq_true_eq] at before
    omega
  | false =>
    simp only [Bool.false_eq_true, if_false, decide_eq_true_eq] at before
    omega

theorem step_addTimer (timer : Timer) (first : Bool) : Effect s (.addTimer timer first) (s.addTimer timer first) := by
  unfold State.addTimer
  cases front : s.atBegin timer first with
  | true =>
    cases set : s.mTickled with
    | true =>
      rw [if_neg (by decide)]
      exact .suppressed timer first rfl front set (by rw [set])
    | false => exact .rings (.inr (Nat.lt_of_lt_of_le (Nat.succ_pos _) (Nat.le_add_right _ _)))
  | false =>
    refine .keeps (fun _ => Iff.rfl) rfl id ?_ (fun _ => id) fun _ _ front' => by cases front.symm.trans front'
    intro t mem
    rcases List.mem_cons.1 mem with rfl | old
    · exact later_of_behind front
    · exact ⟨t, old, Nat.le_refl _⟩

/-- The test in the `tickle()` of `onTimerInsertedAtFront`. -/
theorem step_test (h : Kept s) :
    Effect s .test { s with inserted := s.inserted - 1, alarmed := if s.io.hasIdleThreads then s.alarmed + 1 else s.alarmed } := by
  by_cases zero : s.io.idleThreadCount = 0
  · exact .awake (h.nobody_sleeps zero) trivial
  · have idle : s.io.hasIdleThreads = true := decide_eq_true (Nat.pos_of_ne_zero zero)
    rw [if_pos idle]
    exact .rings (.inr (Nat.lt_of_lt_of_le (Nat.succ_pos _) (Nat.le_add_left _ _)))

theorem again_due (s : State) (timer : Timer) :
    (s.again timer).next ≤ s.now + (s.again timer).ms * millisecond := by
  rw [State.again]

theorem step_refresh {timer : Timer} (h : Kept s) (there : timer ∈ s.timers) :
    Effect s (.refresh timer) { s with timers := s.again timer :: s.timers.erase timer } := by
  refine .keeps (fun _ => Iff.rfl) rfl id (fun t mem => ?_) (fun _ => id) fun _ _ => trivial
  rcases List.mem_cons.1 mem with rfl | old
  · exact ⟨timer, there, h.due timer there⟩
  · exact ⟨t, List.mem_of_mem_erase old, Nat.le_refl _⟩

theorem step_effect (h : Kept s) (e : TimerWatch.step s l = some s') : Effect s l s' := by
  have same : ∀ t ∈ s.timers, ∃ u ∈ s.timers, u.next ≤ t.next := fun t mem => ⟨t, mem, Nat.le_refl _⟩
  cases l with
  | io l =>
    obtain ⟨io, moved, e⟩ := Option.bind_eq_some_iff.1 e
    cases l with
    | advance w =>
      simp only [State.timed] at e
      split at e
      · rename_i at'
        obtain ⟨d, asked, rfl⟩ := Option.map_eq_some_iff.1 e
        have is : io = s.io.setPc w .blocked := by
          simp only [Tickle.step, State.advance, at', Option.some.injEq] at moved
          exact moved.symm
        rw [is]
        exact step_epollWait h at' asked
      · rename_i elsewhere
        cases e
        exact step_io h (by simp) (fun w' is => by cases is; exact elsewhere) moved
    | stopping w result =>
      simp only [State.timed] at e
      split at e
      · split at e <;> cases e
        exact step_stopping h moved
      · cases e
    | setPolicy | setMLFQConfig | start | stop | schedule | test | write | notify | done | wake =>
      cases e
      exact step_io h (by simp) (by simp) moved
  | ask w =>
    simp only [TimerWatch.step] at e
    split at e <;> cases e
    exact .keeps (fun _ => Iff.rfl) rfl id same (fun _ => id) fun _ _ => trivial
  | askTimeout w =>
    simp only [TimerWatch.step] at e
    split at e <;> cases e
    rename_i at'
    exact step_askTimeout h at'.1
  | getNextTimer =>
    cases e
    exact .keeps (fun _ => Iff.rfl) rfl id same (fun _ => id) fun _ _ => trivial
  | interrupt w =>
    simp only [TimerWatch.step] at e
    split at e <;> cases e
    rename_i at'
    exact step_interrupt h at'
  | listExpiredCb w =>
    simp only [TimerWatch.step] at e
    split at e
    · rename_i at'
      exact step_listExpired h at' e
    · cases e
  | addTimer timer first =>
    simp only [TimerWatch.step] at e
    split at e <;> cases e
    exact step_addTimer timer first
  | test =>
    simp only [TimerWatch.step] at e
    split at e <;> cases e
    exact step_test h
  | write =>
    simp only [TimerWatch.step] at e
    split at e <;> cases e
    exact .rings (.inl rfl)
  | cancel timer =>
    cases e
    exact .keeps (fun _ => Iff.rfl) rfl id (fun t mem => same t (List.mem_of_mem_erase mem)) (fun _ => id) fun _ _ => trivial
  | refresh timer =>
    simp only [TimerWatch.step] at e
    split at e <;> cases e
    rename_i there
    exact step_refresh h there
  | tick d =>
    cases e
    exact .keeps (fun _ => Iff.rfl) rfl id same (fun _ => id) fun _ _ => trivial

/-! ## Runs -/

/-- A worker that moves has not asked before `epoll_wait`. -/
theorem Kept.waits_elsewhere {p : Pc} (h : Kept s) (pc : io.pc = Function.update s.io.pc x p) (out : s.io.pc x ≠ .wait) :
    ∀ w, s.nextTimeout w ≠ none → io.pc w = .wait := by
  intro w asked
  have at' := h.waits w asked
  rw [pc, Function.update_of_ne (by rintro rfl; exact out at')]
  exact at'

theorem Kept.waits_io {l : Tickle.Label} (h : Kept s) (stays : ∀ w result, l ≠ .stopping w result)
    (waits : ∀ w, l = .advance w → s.io.pc w ≠ .wait) (e : Tickle.step s.io l = some io) :
    ∀ w, s.nextTimeout w ≠ none → io.pc w = .wait := by
  cases step_turn h.placed stays waits e with
  | still pc =>
    rw [pc]
    exact h.waits
  | turns x p pc _ _ before => exact h.waits_elsewhere pc before
  | ended x p pc _ was =>
    refine h.waits_elsewhere pc fun at' => ?_
    have live := h.placed.live x (by rw [at']; trivial)
    cases live.symm.trans was

theorem Kept.waits_stopping {result : Bool} (h : Kept s) (e : s.io.stoppingTest w result = some io) :
    ∀ x, s.nextTimeout x ≠ none → io.pc x = .wait := by
  simp only [State.stoppingTest] at e
  split at e
  case isFalse => cases e
  rename_i at'
  have out : s.io.pc w ≠ .wait := by simp [at']
  split at e
  · split at e <;> cases e
    exact h.waits_elsewhere rfl out
  · cases e
    exact h.waits_elsewhere rfl out

theorem Kept.waits_epollWait (h : Kept s) : ∀ x, (s.epollWait (s.io.setPc w .blocked) w d).nextTimeout x ≠ none →
    (s.io.setPc w .blocked).pc x = .wait := by
  intro x asked
  have other : x ≠ w := by
    rintro rfl
    exact asked (Function.update_self ..)
  simp only [State.epollWait, Function.update_of_ne other] at asked
  show Function.update s.io.pc w .blocked x = .wait
  rw [Function.update_of_ne other]
  exact h.waits x asked

theorem Kept.step (h : Kept s) (e : TimerWatch.step s l = some s') : Kept s' := by
  cases l with
  | io l =>
    obtain ⟨io, moved, e⟩ := Option.bind_eq_some_iff.1 e
    have placed : Placed io := h.placed.step moved
    cases l with
    | advance w =>
      simp only [State.timed] at e
      split at e
      · rename_i at'
        obtain ⟨d, asked, rfl⟩ := Option.map_eq_some_iff.1 e
        have is : io = s.io.setPc w .blocked := by
          simp only [Tickle.step, State.advance, at', Option.some.injEq] at moved
          exact moved.symm
        subst is
        exact ⟨placed, h.waits_epollWait, h.due⟩
      · rename_i elsewhere
        cases e
        exact ⟨placed, h.waits_io (by simp) (fun w' is => by cases is; exact elsewhere) moved, h.due⟩
    | stopping w result =>
      simp only [State.timed] at e
      split at e
      · split at e <;> cases e
        exact ⟨placed, h.waits_stopping moved, h.due⟩
      · cases e
    | setPolicy | setMLFQConfig | start | stop | schedule | test | write | notify | done | wake =>
      cases e
      exact ⟨placed, h.waits_io (by simp) (by simp) moved, h.due⟩
  | ask w =>
    simp only [TimerWatch.step] at e
    split at e <;> cases e
    exact ⟨h.placed, h.waits, h.due⟩
  | askTimeout w =>
    simp only [TimerWatch.step] at e
    split at e <;> cases e
    rename_i at'
    refine ⟨h.placed, fun x asked => ?_, h.due⟩
    by_cases mine : x = w
    · rw [mine]
      exact at'.1
    · simp only [Function.update_of_ne mine] at asked
      exact h.waits x asked
  | getNextTimer =>
    cases e
    exact ⟨h.placed, h.waits, h.due⟩
  | interrupt w =>
    simp only [TimerWatch.step] at e
    split at e <;> cases e
    rename_i at'
    exact ⟨h.placed.goes at' Iff.rfl id, h.waits_elsewhere rfl (by simp [at']), h.due⟩
  | listExpiredCb w =>
    simp only [TimerWatch.step] at e
    split at e
    · simp only [State.listExpired] at e
      split at e <;> cases e
      refine ⟨h.placed, h.waits, fun t mem => ?_⟩
      rcases List.mem_append.1 mem with left | back
      · exact h.due t (List.mem_filter.1 left).1
      · obtain ⟨u, -, rfl⟩ := List.mem_map.1 back
        exact again_due s u
    · cases e
  | addTimer timer first =>
    simp only [TimerWatch.step] at e
    split at e <;> cases e
    rename_i due
    have later : ∀ t ∈ timer :: s.timers, t.next ≤ s.now + t.ms * millisecond := fun t mem => by
      rcases List.mem_cons.1 mem with rfl | old
      · exact due
      · exact h.due t old
    unfold State.addTimer
    split <;> exact ⟨h.placed, h.waits, later⟩
  | test =>
    simp only [TimerWatch.step] at e
    split at e <;> cases e
    exact ⟨h.placed, h.waits, h.due⟩
  | write =>
    simp only [TimerWatch.step] at e
    split at e <;> cases e
    exact ⟨h.placed.same rfl rfl rfl, h.waits, h.due⟩
  | cancel timer =>
    cases e
    exact ⟨h.placed, h.waits, fun t mem => h.due t (List.mem_of_mem_erase mem)⟩
  | refresh timer =>
    simp only [TimerWatch.step] at e
    split at e <;> cases e
    refine ⟨h.placed, h.waits, fun t mem => ?_⟩
    rcases List.mem_cons.1 mem with rfl | old
    · exact again_due s timer
    · exact h.due t (List.mem_of_mem_erase old)
  | tick d =>
    cases e
    refine ⟨h.placed, h.waits, fun t mem => ?_⟩
    have due := h.due t mem
    show t.next ≤ s.now + d + t.ms * millisecond
    omega

theorem kept_of_reach {cond : State → Label → Prop} (h : machine.ReachIf cond s) : Kept s :=
  h.invariant kept_init fun _ _ _ kept _ e => kept.step e

/-- A worker that has not started is outside `run()` until it does. -/
theorem absent_stays {l : Label} (h : Kept s) (e : TimerWatch.step s l = some s') (absent : s.io.pc w = .absent)
    (other : l ≠ .io (.start w)) : s'.io.pc w = .absent := by
  have elsewhere {x : Worker} (p : Pc) (out : s.io.pc x ≠ .absent) : Function.update s.io.pc x p w = .absent := by
    rw [Function.update_of_ne (by rintro rfl; exact out absent)]
    exact absent
  have turned {l : Tickle.Label} {io : Tickle.State} (stays : ∀ w result, l ≠ .stopping w result) (waits : ∀ w, l = .advance w → s.io.pc w ≠ .wait)
      (unstarted : l ≠ .start w) (moved : Tickle.step s.io l = some io) : io.pc w = .absent := by
    cases step_turn h.placed stays waits moved with
    | still pc =>
      rw [pc]
      exact absent
    | turns x p pc _ _ _ started =>
      rw [pc]
      by_cases mine : x = w
      · subst mine
        exact absurd (started absent) unstarted
      · rw [Function.update_of_ne (Ne.symm mine)]
        exact absent
    | ended x p pc _ _ _ present =>
      rw [pc]
      exact elsewhere p present
  cases l with
  | io l =>
    obtain ⟨io, moved, e⟩ := Option.bind_eq_some_iff.1 e
    cases l with
    | advance x =>
      simp only [State.timed] at e
      split at e
      · rename_i at'
        obtain ⟨d, -, rfl⟩ := Option.map_eq_some_iff.1 e
        simp only [Tickle.step, State.advance, at', Option.some.injEq] at moved
        subst moved
        exact elsewhere .blocked (by simp [at'])
      · rename_i elsewhere
        cases e
        exact turned (by simp) (fun x' is => by cases is; exact elsewhere) (by simp) moved
    | stopping x result =>
      have stays : io.pc w = .absent := by
        simp only [Tickle.step, State.stoppingTest] at moved
        split at moved
        · rename_i at'
          split at moved
          · split at moved <;> cases moved
            exact elsewhere .yielded (by simp [at'])
          · cases moved
            exact elsewhere .wait (by simp [at'])
        · cases moved
      simp only [State.timed] at e
      split at e
      · split at e <;> cases e
        exact stays
      · cases e
    | start x =>
      cases e
      exact turned (by simp) (by simp) (fun is => other (by rw [is])) moved
    | setPolicy | setMLFQConfig | stop | schedule | test | write | notify | done | wake =>
      cases e
      exact turned (by simp) (by simp) (by simp) moved
  | interrupt x =>
    simp only [TimerWatch.step] at e
    split at e <;> cases e
    rename_i at'
    exact elsewhere .wait (by simp [at'])
  | listExpiredCb x =>
    simp only [TimerWatch.step] at e
    split at e
    · simp only [State.listExpired] at e
      split at e <;> cases e
      exact absent
    · cases e
  | addTimer timer first =>
    simp only [TimerWatch.step] at e
    split at e <;> cases e
    unfold State.addTimer
    split <;> exact absent
  | ask | askTimeout | test | write | refresh =>
    simp only [TimerWatch.step] at e
    split at e <;> cases e
    exact absent
  | getNextTimer | cancel | tick =>
    cases e
    exact absent

end Steps

/-- Workers 1 and 2 mind the timers for each other. -/
def InTurn (s : State) : Label → Prop
  | .io (.advance w) =>
    match s.io.pc w with
    | .pick => Executes ((s.io.pickTask w).pc w) → InTime s s.timers (3 - w)
    | .wait => Attends s (3 - w) ∨ InTime s s.timers (3 - w)
    | _ => True
  | .io (.stopping _ true) => False
  | .askTimeout w => Attends s (3 - w) ∨ InTime s s.timers (3 - w)
  | .addTimer _ _ => s.mTickled = false
  | _ => True

instance (s : State) (l : Label) : Decidable (InTurn s l) := by
  unfold InTurn
  split
  · split <;> infer_instance
  all_goals infer_instance

theorem minds_of_inTurn (s : State) (l : Label) (turn : InTurn s l) : Minds s l := by
  have other (w : Int) : 3 - w ≠ w := by omega
  cases l with
  | io l =>
    cases l with
    | advance w =>
      simp only [InTurn, Minds] at turn ⊢
      split at turn
      · exact fun executes _ => ⟨3 - w, other w, .inr (turn executes)⟩
      · exact fun _ => .inr ⟨3 - w, turn⟩
      · trivial
    | stopping w result =>
      cases result with
      | true => exact turn.elim
      | false => trivial
    | _ => trivial
  | askTimeout w => exact fun _ _ => ⟨3 - w, other w, turn⟩
  | addTimer timer first => exact fun _ set => by cases turn.symm.trans set
  | _ => trivial

/-- A worker picks nothing and goes to sleep. -/
def sleeps (w : Worker) : List Label :=
  [.io (.advance w), .io (.advance w), .ask w, .io (.stopping w false), .askTimeout w, .io (.advance w)]

/-- A worker that was woken reads the eventfd and comes back to its pick. -/
def returns (w : Worker) : List Label :=
  [.io (.wake w true), .io (.advance w), .io (.advance w), .io (.advance w)]

/-- A timer of 100 ms is added, and its `tickle()` writes the eventfd. -/
def adds : List Label := [.addTimer ⟨100000000, 100, false⟩ true, .test, .write]

/-- A task is scheduled, and its `tickle()` writes the eventfd. -/
def schedules : List Label := [.io (.schedule (.cb 0) {}), .io .test, .io .write]

/-- Only workers 1 and 2 start. -/
def Two (_ : State) : Label → Prop
  | .io (.start w) => w = 1 ∨ w = 2
  | _ => True

instance (s : State) (l : Label) : Decidable (Two s l) := by
  unfold Two
  split <;> infer_instance

theorem absent_of_two {s : State} {w : Worker} (h : machine.ReachIf Two s) (one : w ≠ 1) (two : w ≠ 2) :
    s.io.pc w = .absent := by
  induction h with
  | init => rfl
  | step before cond e ih => exact absent_stays (kept_of_reach before) e ih (by rintro rfl; exact cond.elim one two)

end Mycoroutine.TimerWatch
