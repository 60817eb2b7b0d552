import Mycoroutine.Scheduler.RunPool

/-!
# Waits and their wake-ups

The `run` machine with code that suspends in `CoMutex`, `WaitGroup` and
`Channel`. What these share is `SuspendCurrentUntilNotified`: a fiber registers
a waiter with its primitive, and then reads `notified` and yields in turn until
the read is true. A notifier takes the waiter out of its queue, stores
`notified`, and schedules the fiber, in three steps. When a primitive lets a
notifier take which waiter is left open, so every order that the primitives
allow is a run of this machine.

Fibers are submitted when they are new; afterwards only notifications and `run`
itself queue them again. `exit` and the numbers of the waits are history.
-/

namespace Mycoroutine.Wakeup
set_option autoImplicit false
open Interleave

/-- A registration of a `FiberWaiter`. -/
structure Waiter where
  fiber : Ref
  threadId : Worker
  notified : Bool := false

/-- Where a fiber is in a wait: before its first read of `notified`, before the
`yield` that follows a read, or past the store of that `yield`. -/
inductive Place where
  | outside
  | first (wait : Nat)
  | sleeping (wait : Nat)
  | yielded (wait : Nat)
deriving DecidableEq

/-- What ended the last `resume` of a worker. -/
inductive Exit where
  | plain
  | wait (wait : Nat)
  | dead
deriving DecidableEq

structure State where
  run : Run.State
  place : Ref → Place
  waiter : Nat → Waiter
  waits : Nat
  /-- Registered, in the queue of some primitive. -/
  waiters : List Nat
  /-- In `NotifyWaiter`, before the store. -/
  popped : List Nat
  /-- In `NotifyWaiter`, between the store and `schedule`. -/
  stored : List Nat
  exit : Worker → Exit

inductive Label where
  | submitFiber (options : ScheduleOptions)
  | submitCallback (callback : Nat) (options : ScheduleOptions)
  | setPolicy (policy : SchedulePolicy)
  | setMLFQConfig (config : MLFQConfig)
  | setMaxCachedPerKey (n : Nat)
  | run (w : Worker)
  | yield (w : Worker)
  | finish (w : Worker)
  | wait (w : Worker) (threadId : Worker)
  | check (w : Worker)
  | sleep (w : Worker)
  | pop (wait : Nat)
  | store (wait : Nat)
  | schedule (wait : Nat)

/-- The worker that takes the step. -/
def Label.worker : Label → Option Worker
  | .run w | .yield w | .finish w | .wait w _ | .check w | .sleep w => some w
  | _ => none

namespace State

/-- The fiber whose code a worker executes. -/
def current (s : State) (w : Worker) : Option Ref :=
  match s.run.pc w with
  | .inside _ (f :: _) .code => some f
  | _ => none

def lift (s : State) (l : Run.Label) : Option State := (Run.step s.run l).map fun run => { s with run }

def setPlace (s : State) (f : Ref) (place : Place) : State :=
  { s with place := Function.update s.place f place }

def setExit (s : State) (w : Worker) (exit : Exit) : State := { s with exit := Function.update s.exit w exit }

/-- A step of `run()`; one that skips a finished fiber resumes nothing. -/
def advance (s : State) (w : Worker) : Option State :=
  match s.run.pc w with
  | .test _ _ => (s.setExit w .dead).lift (.run w)
  | _ => s.lift (.run w)

/-- The end of a callback, or a `yield` of its own, outside of any wait. -/
def leave (s : State) (w : Worker) (l : Run.Label) (exit : Exit) : Option State :=
  (s.current w).bind fun f => if s.place f = .outside then (s.setExit w exit).lift l else none

/-- The registration in a primitive's queue. -/
def register (s : State) (w threadId : Worker) : Option State :=
  (s.current w).bind fun f =>
    if s.place f = .outside then
      some { s with place := Function.update s.place f (.first s.waits),
                    waiter := Function.update s.waiter s.waits { fiber := f, threadId }, waits := s.waits + 1,
                    waiters := s.waiters ++ [s.waits] }
    else none

/-- The read of `notified` in `SuspendCurrentUntilNotified`. -/
def check (s : State) (w : Worker) : Option State :=
  (s.current w).bind fun f =>
    match s.place f with
    | .first wait | .yielded wait =>
      some (s.setPlace f (if (s.waiter wait).notified then .outside else .sleeping wait))
    | _ => none

/-- The `yield` in `SuspendCurrentUntilNotified`. -/
def sleep (s : State) (w : Worker) : Option State :=
  (s.current w).bind fun f =>
    match s.place f with
    | .sleeping wait => ((s.setPlace f (.yielded wait)).setExit w (.wait wait)).lift (.yield w)
    | _ => none

def pop (s : State) (wait : Nat) : Option State :=
  if wait ∈ s.waiters then some { s with waiters := s.waiters.erase wait, popped := wait :: s.popped } else none

/-- The first step of `NotifyWaiter`. -/
def store (s : State) (wait : Nat) : Option State :=
  if wait ∈ s.popped then
    some { s with popped := s.popped.erase wait, stored := wait :: s.stored,
                  waiter := Function.update s.waiter wait { s.waiter wait with notified := true } }
  else none

/-- The second step of `NotifyWaiter`. -/
def schedule (s : State) (wait : Nat) : Option State :=
  if wait ∈ s.stored then
    { s with stored := s.stored.erase wait }.lift
      (.schedule (.fiber (s.waiter wait).fiber) { thread := (s.waiter wait).threadId, sentFor := some wait })
  else none

end State

def step (s : State) : Label → Option State
  | .submitFiber options =>
    (s.lift .create).bind (·.lift (.schedule (.fiber s.run.created) { options with sentFor := none }))
  | .submitCallback callback options => s.lift (.schedule (.cb callback) { options with sentFor := none })
  | .setPolicy policy => s.lift (.setPolicy policy)
  | .setMLFQConfig config => s.lift (.setMLFQConfig config)
  | .setMaxCachedPerKey n => s.lift (.setMaxCachedPerKey n)
  | .run w => s.advance w
  | .yield w => s.leave w (.yield w) .plain
  | .finish w => s.leave w (.finish w) .dead
  | .wait w threadId => s.register w threadId
  | .check w => s.check w
  | .sleep w => s.sleep w
  | .pop wait => s.pop wait
  | .store wait => s.store wait
  | .schedule wait => s.schedule wait

def machine : Machine State Label where
  init := {
    run := Run.machine.init, place := fun _ => .outside, waiter := fun _ => { fiber := 0, threadId := -1 },
    waits := 0, waiters := [], popped := [], stored := [], exit := fun _ => .dead }
  step := step

/-! ## What one step can do -/

/-- A setting changed. -/
def Configured (r r' : Run.State) : Prop :=
  ∃ policy config n, r' = { r with policy, mlfqConfig := config, maxCachedPerKey := n }

/-- What one step can do, one case for each branch of the source. -/
inductive Moves (s : State) : Label → State → Prop where
  | submittedFiber (options : ScheduleOptions) (born run : Run.State) (made : Run.Moves s.run .create born)
      (queued : Run.Moves born (.schedule (.fiber s.run.created) { options with sentFor := none }) run) :
      Moves s (.submitFiber options) { s with run }
  | submittedCallback (callback : Nat) (options : ScheduleOptions) (run : Run.State)
      (queued : Run.Moves s.run (.schedule (.cb callback) { options with sentFor := none }) run) :
      Moves s (.submitCallback callback options) { s with run }
  | configured (l : Label) (run : Run.State) (change : Configured s.run run) : Moves s l { s with run }
  | ran (w : Worker) (run : Run.State) (moved : Run.Moves s.run (.run w) run)
      (elsewhere : ∀ t f, s.run.pc w ≠ .test t f) : Moves s (.run w) { s with run }
  | tested (w : Worker) (t : Task) (f : Ref) (here : s.run.pc w = .test t f) (run : Run.State)
      (moved : Run.Moves s.run (.run w) run) :
      Moves s (.run w) { s with run, exit := Function.update s.exit w .dead }
  | yielded (w : Worker) (f : Ref) (here : s.current w = some f) (outside : s.place f = .outside) (run : Run.State)
      (moved : Run.Moves s.run (.yield w) run) :
      Moves s (.yield w) { s with run, exit := Function.update s.exit w .plain }
  | finished (w : Worker) (f : Ref) (here : s.current w = some f) (outside : s.place f = .outside) (run : Run.State)
      (moved : Run.Moves s.run (.finish w) run) :
      Moves s (.finish w) { s with run, exit := Function.update s.exit w .dead }
  | registered (w : Worker) (f : Ref) (threadId : Worker) (here : s.current w = some f)
      (outside : s.place f = .outside) :
      Moves s (.wait w threadId)
        { s with place := Function.update s.place f (.first s.waits),
                 waiter := Function.update s.waiter s.waits { fiber := f, threadId }, waits := s.waits + 1,
                 waiters := s.waiters ++ [s.waits] }
  | passed (w : Worker) (f : Ref) (wait : Nat) (here : s.current w = some f)
      (reads : s.place f = .first wait ∨ s.place f = .yielded wait) (told : (s.waiter wait).notified = true) :
      Moves s (.check w) { s with place := Function.update s.place f .outside }
  | checked (w : Worker) (f : Ref) (wait : Nat) (here : s.current w = some f)
      (reads : s.place f = .first wait ∨ s.place f = .yielded wait) (untold : (s.waiter wait).notified = false) :
      Moves s (.check w) { s with place := Function.update s.place f (.sleeping wait) }
  | slept (w : Worker) (f : Ref) (wait : Nat) (here : s.current w = some f) (sleeps : s.place f = .sleeping wait)
      (run : Run.State) (moved : Run.Moves s.run (.yield w) run) :
      Moves s (.sleep w) { s with run, place := Function.update s.place f (.yielded wait),
                                  exit := Function.update s.exit w (.wait wait) }
  | popped (wait : Nat) (queued : wait ∈ s.waiters) :
      Moves s (.pop wait) { s with waiters := s.waiters.erase wait, popped := wait :: s.popped }
  | stored (wait : Nat) (queued : wait ∈ s.popped) :
      Moves s (.store wait)
        { s with popped := s.popped.erase wait, stored := wait :: s.stored,
                 waiter := Function.update s.waiter wait { s.waiter wait with notified := true } }
  | scheduled (wait : Nat) (queued : wait ∈ s.stored) (run : Run.State)
      (pushed : Run.Moves s.run (.schedule (.fiber (s.waiter wait).fiber)
        { thread := (s.waiter wait).threadId, sentFor := some wait }) run) :
      Moves s (.schedule wait) { s with run, stored := s.stored.erase wait }

section Inversion

variable {s s' : State} {w : Worker} {f : Ref}

theorem lift_moves {l : Run.Label} (h : s.lift l = some s') :
    ∃ run, Run.Moves s.run l run ∧ s' = { s with run } := by
  obtain ⟨run, moved, rfl⟩ := Option.map_eq_some_iff.1 h
  exact ⟨run, Run.step_moves moved, rfl⟩

theorem advance_moves (h : s.advance w = some s') : Moves s (.run w) s' := by
  unfold State.advance at h
  split at h
  · rename_i t f here
    obtain ⟨run, moved, rfl⟩ := lift_moves h
    exact .tested w t f here run moved
  · rename_i elsewhere
    obtain ⟨run, moved, rfl⟩ := lift_moves h
    exact .ran w run moved elsewhere

theorem leave_moves {l : Run.Label} {exit : Exit} (h : s.leave w l exit = some s') :
    ∃ f run, s.current w = some f ∧ s.place f = .outside ∧ Run.Moves s.run l run ∧
      s' = { s with run, exit := Function.update s.exit w exit } := by
  obtain ⟨f, here, h⟩ := Option.bind_eq_some_iff.1 h
  split at h
  · rename_i outside
    obtain ⟨run, moved, rfl⟩ := lift_moves h
    exact ⟨f, run, here, outside, moved, rfl⟩
  · cases h

theorem check_moves (h : s.check w = some s') : Moves s (.check w) s' := by
  obtain ⟨f, here, h⟩ := Option.bind_eq_some_iff.1 h
  have read : ∀ wait, s.place f = .first wait ∨ s.place f = .yielded wait →
      s.setPlace f (if (s.waiter wait).notified then .outside else .sleeping wait) = s' → Moves s (.check w) s' := by
    rintro wait reads rfl
    cases told : (s.waiter wait).notified with
    | true => exact .passed w f wait here reads told
    | false => exact .checked w f wait here reads told
  split at h
  · exact read _ (.inl ‹_›) (Option.some.inj h)
  · exact read _ (.inr ‹_›) (Option.some.inj h)
  · cases h

/-- Every enabled step is one of the moves. -/
theorem step_moves {l : Label} (h : step s l = some s') : Moves s l s' := by
  cases l with
  | submitFiber options =>
    simp only [step] at h
    obtain ⟨born, made, queued⟩ := Option.bind_eq_some_iff.1 h
    obtain ⟨run, moved, rfl⟩ := lift_moves made
    obtain ⟨run', moved', rfl⟩ := lift_moves queued
    exact .submittedFiber options run run' moved moved'
  | submitCallback callback options =>
    obtain ⟨run, moved, rfl⟩ := lift_moves h
    exact .submittedCallback callback options run moved
  | setPolicy policy =>
    cases h
    exact .configured _ _ ⟨_, _, _, rfl⟩
  | setMLFQConfig config =>
    cases h
    exact .configured _ _ ⟨_, _, _, rfl⟩
  | setMaxCachedPerKey n =>
    cases h
    exact .configured _ _ ⟨_, _, _, rfl⟩
  | run w => exact advance_moves h
  | yield w =>
    obtain ⟨f, run, here, outside, moved, rfl⟩ := leave_moves h
    exact .yielded w f here outside run moved
  | finish w =>
    obtain ⟨f, run, here, outside, moved, rfl⟩ := leave_moves h
    exact .finished w f here outside run moved
  | wait w threadId =>
    simp only [step, State.register] at h
    obtain ⟨f, here, h⟩ := Option.bind_eq_some_iff.1 h
    split at h <;> cases h
    exact .registered w f threadId here ‹_›
  | check w => exact check_moves h
  | sleep w =>
    simp only [step, State.sleep] at h
    obtain ⟨f, here, h⟩ := Option.bind_eq_some_iff.1 h
    split at h
    · rename_i wait sleeps
      obtain ⟨run, moved, rfl⟩ := lift_moves h
      exact .slept w f wait here sleeps run moved
    · cases h
  | pop wait =>
    simp only [step, State.pop] at h
    split at h <;> cases h
    exact .popped wait ‹_›
  | store wait =>
    simp only [step, State.store] at h
    split at h <;> cases h
    exact .stored wait ‹_›
  | schedule wait =>
    simp only [step, State.schedule] at h
    split at h
    · rename_i queued
      obtain ⟨run, moved, rfl⟩ := lift_moves h
      exact .scheduled wait queued run moved
    · cases h

end Inversion

/-- A step moves no worker but its own. -/
theorem Moves.others {s s' : State} {l : Label} (move : Moves s l s') {w : Worker} (other : l.worker ≠ some w) :
    s'.run.pc w = s.run.pc w ∧ s'.exit w = s.exit w := by
  cases move with
  | submittedFiber options born run made queued => exact ⟨(queued.others nofun).trans (made.others nofun), rfl⟩
  | submittedCallback callback options run queued => exact ⟨queued.others nofun, rfl⟩
  | configured l run change =>
    obtain ⟨policy, config, n, rfl⟩ := change
    exact ⟨rfl, rfl⟩
  | ran v run moved => exact ⟨moved.others other, rfl⟩
  | tested v t f here run moved | yielded v f here outside run moved | finished v f here outside run moved
  | slept v f wait here sleeps run moved =>
    exact ⟨moved.others other, Function.update_of_ne (fun same => other (congrArg some same.symm)) ..⟩
  | scheduled wait queued run pushed => exact ⟨pushed.others nofun, rfl⟩
  | _ => exact ⟨rfl, rfl⟩

/-- A worker that no step of a run names stays where it is. -/
theorem exec_idle {s s' : State} {ls : List Label} {w : Worker} (e : machine.exec s ls = some s')
    (absent : ∀ l ∈ ls, l.worker ≠ some w) : s'.run.pc w = s.run.pc w ∧ s'.exit w = s.exit w := by
  induction ls generalizing s with
  | nil =>
    cases e
    exact ⟨rfl, rfl⟩
  | cons l ls ih =>
    obtain ⟨m, first, rest⟩ := Option.bind_eq_some_iff.1 e
    obtain ⟨pc, exit⟩ := ih rest fun l later => absent l (List.mem_cons_of_mem _ later)
    obtain ⟨pc', exit'⟩ := (step_moves first).others (absent l List.mem_cons_self)
    exact ⟨pc.trans pc', exit.trans exit'⟩

end Mycoroutine.Wakeup
