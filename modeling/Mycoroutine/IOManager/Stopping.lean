import Mycoroutine.Interleave.Machine

/-!
# `IOManager::stopping()`

What is left to do in an `IOManager`, counted by stage, and one thread that calls
`stopping()`. The workers and the other threads are anonymous: a step says only what
some thread does next, and a thread inside a task is not told from one outside.

A timer is in `m_timers` until `listExpiredCb` puts its callback in a worker's list,
which is scheduled one by one. An event is counted by `addEvent` before its bit is set;
`cancelEvent` and `delEvent` count it off before its bit is cleared, `cancelAll` and the
dispatch in `idle` after its waiter is scheduled.

`addedTimer` and `addedEvent`, `sawQuiet` and `verdicts` are history: what was added
since `stopping()` looked, whether there was a moment in the call with nothing left to
do, and what the calls returned.
-/

namespace Mycoroutine.Stopping
set_option autoImplicit false
open Interleave

/-- How far the call of `stopping()` is: not called, called, past the timers, past the
pending events. -/
inductive Probe where
  | idle
  | called
  | noTimers
  | noEvents
deriving DecidableEq

/-- The events: counted but not set; set; counted off but set, by `cancelEvent` or by
`delEvent`; cleared with the waiter to schedule, counted off or not; with only the
count to come off. -/
structure State where
  mStopping : Bool
  timers : Nat
  extracted : Nat
  adding : Nat
  registered : Nat
  cancelling : Nat
  deleting : Nat
  cancelled : Nat
  triggered : Nat
  scheduled : Nat
  pendingEventCount : Nat
  tasks : Nat
  executing : Nat
  activeThreadCount : Nat
  probe : Probe
  addedTimer : Bool
  addedEvent : Bool
  sawQuiet : Bool
  verdicts : List (Bool × Bool)

/-- One atomic step of some thread; the last four are the call of `stopping()`. -/
inductive Label where
  | stop
  | schedule
  | pick
  | finish
  | countDown
  | addTimer
  | cancelTimer
  | listExpiredCb (expired recurring : Nat)
  | scheduleExpired
  | addEvent
  | setEvent
  | cancelEvent
  | cancelTrigger
  | cancelSchedule
  | delEvent
  | clearEvent
  | triggerEvent
  | triggerSchedule
  | triggerCount
  | call
  | getNextTimer
  | readPending
  | schedulerStopping

namespace State

variable (s : State)

/-- Nothing is left to do: `m_stopping` is set, no timer, no event, no task, no worker in
a task, and nobody holds a callback or a waiter that is not scheduled. -/
def Quiet : Prop :=
  s.mStopping = true ∧ s.timers = 0 ∧ s.registered + s.cancelling + s.deleting = 0 ∧ s.tasks = 0 ∧ s.executing = 0 ∧
    s.extracted = 0 ∧ s.cancelled + s.triggered = 0

instance : Decidable s.Quiet := by
  unfold Quiet
  infer_instance

/-- `stopping()` returns. -/
def verdict (result : Bool) : State :=
  { s with probe := .idle, verdicts := s.verdicts ++ [(result, s.sawQuiet)] }

/-- `Scheduler::stopping()`. -/
def schedulerStopping : Bool := s.mStopping && decide (s.tasks = 0) && decide (s.activeThreadCount = 0)

/-- What a moment of the call shows. -/
def observe : State := { s with sawQuiet := s.sawQuiet || (decide (s.probe ≠ .idle) && decide s.Quiet) }

end State

/-- A step, before it is observed. -/
def act (s : State) : Label → Option State
  | .stop => some { s with mStopping := true }
  | .schedule => some { s with tasks := s.tasks + 1 }
  | .pick =>
    if 0 < s.tasks then
      some { s with tasks := s.tasks - 1, executing := s.executing + 1, activeThreadCount := s.activeThreadCount + 1 }
    else none
  | .finish => if 0 < s.executing then some { s with executing := s.executing - 1 } else none
  | .countDown =>
    if s.executing < s.activeThreadCount then some { s with activeThreadCount := s.activeThreadCount - 1 } else none
  | .addTimer => some { s with timers := s.timers + 1, addedTimer := true }
  | .cancelTimer => if 0 < s.timers then some { s with timers := s.timers - 1 } else none
  | .listExpiredCb expired recurring =>
    if recurring ≤ expired ∧ expired ≤ s.timers then
      some { s with timers := s.timers - expired + recurring, extracted := s.extracted + expired }
    else none
  | .scheduleExpired =>
    if 0 < s.extracted then some { s with extracted := s.extracted - 1, tasks := s.tasks + 1 } else none
  | .addEvent =>
    some { s with adding := s.adding + 1, pendingEventCount := s.pendingEventCount + 1, addedEvent := true }
  | .setEvent =>
    if 0 < s.adding then some { s with adding := s.adding - 1, registered := s.registered + 1 } else none
  | .cancelEvent =>
    if 0 < s.registered then
      some { s with registered := s.registered - 1, cancelling := s.cancelling + 1,
                    pendingEventCount := s.pendingEventCount - 1 }
    else none
  | .cancelTrigger =>
    if 0 < s.cancelling then some { s with cancelling := s.cancelling - 1, cancelled := s.cancelled + 1 } else none
  | .cancelSchedule =>
    if 0 < s.cancelled then some { s with cancelled := s.cancelled - 1, tasks := s.tasks + 1 } else none
  | .delEvent =>
    if 0 < s.registered then
      some { s with registered := s.registered - 1, deleting := s.deleting + 1,
                    pendingEventCount := s.pendingEventCount - 1 }
    else none
  | .clearEvent => if 0 < s.deleting then some { s with deleting := s.deleting - 1 } else none
  | .triggerEvent =>
    if 0 < s.registered then some { s with registered := s.registered - 1, triggered := s.triggered + 1 } else none
  | .triggerSchedule =>
    if 0 < s.triggered then
      some { s with triggered := s.triggered - 1, scheduled := s.scheduled + 1, tasks := s.tasks + 1 }
    else none
  | .triggerCount =>
    if 0 < s.scheduled then
      some { s with scheduled := s.scheduled - 1, pendingEventCount := s.pendingEventCount - 1 }
    else none
  | .call => if s.probe = .idle then some { s with probe := .called, sawQuiet := false } else none
  | .getNextTimer =>
    if s.probe = .called then
      some (if s.timers = 0 then { s with probe := .noTimers, addedTimer := false } else s.verdict false)
    else none
  | .readPending =>
    if s.probe = .noTimers then
      some (if s.pendingEventCount = 0 then { s with probe := .noEvents, addedEvent := false } else s.verdict false)
    else none
  | .schedulerStopping => if s.probe = .noEvents then some (s.verdict s.schedulerStopping) else none

def step (s : State) (l : Label) : Option State := (act s l).map (·.observe)

/-- Nothing to do yet, and `stop()` not called. -/
def machine : Machine State Label where
  init := { mStopping := false, timers := 0, extracted := 0, adding := 0, registered := 0, cancelling := 0,
            deleting := 0, cancelled := 0, triggered := 0, scheduled := 0, pendingEventCount := 0, tasks := 0,
            executing := 0, activeThreadCount := 0, probe := .idle, addedTimer := false, addedEvent := false,
            sawQuiet := false, verdicts := [] }
  step := step

/-- `stopping()` returns true only if some moment of the call had nothing left to do. -/
def Sound (s : State) : Prop := ∀ quiet, (true, quiet) ∈ s.verdicts → quiet = true

/-- When `Scheduler::stopping()` is about to hold, no timer was added since
`getNextTimer`, no event since the count was read, and nobody holds an extracted
callback or is in `cancelEvent` or `delEvent` past its decrement. -/
def StillTrue (s : State) : Label → Prop
  | .schedulerStopping =>
    s.schedulerStopping = true →
      s.addedTimer = false ∧ s.addedEvent = false ∧ s.extracted = 0 ∧ s.cancelling + s.deleting + s.cancelled = 0
  | _ => True

/-! ## The invariant -/

/-- What `stopping()` has seen holds until something is added. -/
structure Valid (s : State) : Prop where
  pending : s.pendingEventCount = s.adding + s.registered + s.triggered + s.scheduled
  executing : s.executing ≤ s.activeThreadCount
  noTimers : s.probe = .noTimers ∨ s.probe = .noEvents → s.addedTimer = false → s.timers = 0
  noEvents : s.probe = .noEvents → s.addedEvent = false → s.pendingEventCount = 0
  saw : s.probe ≠ .idle → s.Quiet → s.sawQuiet = true
  sound : Sound s

section Steps

variable {s s' : State}

theorem valid_init : Valid machine.init where
  pending := rfl
  executing := Nat.le_refl 0
  noTimers := by decide
  noEvents := nofun
  saw := fun busy => absurd rfl busy
  sound := nofun

/-- What a step keeps before it is observed. -/
structure Steady (s : State) : Prop where
  pending : s.pendingEventCount = s.adding + s.registered + s.triggered + s.scheduled
  executing : s.executing ≤ s.activeThreadCount
  noTimers : s.probe = .noTimers ∨ s.probe = .noEvents → s.addedTimer = false → s.timers = 0
  noEvents : s.probe = .noEvents → s.addedEvent = false → s.pendingEventCount = 0
  sound : Sound s

theorem Steady.observe (h : Steady s) : Valid s.observe := by
  refine ⟨h.pending, h.executing, h.noTimers, h.noEvents, fun busy quiet => ?_, h.sound⟩
  have shown : s.Quiet := quiet
  simp only [State.observe, Bool.or_eq_true, Bool.and_eq_true, decide_eq_true_eq]
  exact .inr ⟨busy, shown⟩

/-- The call returns. -/
theorem Valid.verdict {result : Bool} (h : Valid s) (right : result = true → s.sawQuiet = true) :
    Steady (s.verdict result) := by
  refine ⟨h.pending, h.executing, nofun, nofun, fun quiet mem => ?_⟩
  rcases List.mem_append.1 mem with old | new
  · exact h.sound quiet old
  · cases List.mem_singleton.1 new
    exact right rfl

/-- At the last read, with nothing added and nothing held, there is nothing left to do. -/
theorem Valid.quiet (h : Valid s) (probe : s.probe = .noEvents) (holds : s.schedulerStopping = true)
    (still : StillTrue s .schedulerStopping) : s.Quiet := by
  obtain ⟨addedTimer, addedEvent, extracted, held⟩ := still holds
  have timers := h.noTimers (.inr probe) addedTimer
  have counted := h.noEvents probe addedEvent
  have pending := h.pending
  have executing := h.executing
  simp only [State.schedulerStopping, Bool.and_eq_true, decide_eq_true_eq] at holds
  obtain ⟨⟨stopping, tasks⟩, active⟩ := holds
  refine ⟨stopping, timers, ?_, tasks, ?_, extracted, ?_⟩ <;> omega

/-- A step that adds neither a timer nor an event, and is not one of the call. -/
theorem Valid.adds_nothing (h : Valid s)
    (pending : s'.pendingEventCount = s'.adding + s'.registered + s'.triggered + s'.scheduled)
    (executing : s'.executing ≤ s'.activeThreadCount) (timers : s.timers = 0 → s'.timers = 0)
    (events : s.pendingEventCount = 0 → s'.pendingEventCount = 0)
    (call : s'.probe = s.probe ∧ s'.addedTimer = s.addedTimer ∧ s'.addedEvent = s.addedEvent ∧ s'.verdicts = s.verdicts) :
    Steady s' := by
  obtain ⟨probe, addedTimer, addedEvent, verdicts⟩ := call
  refine ⟨pending, executing, fun at' none' => ?_, fun at' none' => ?_, ?_⟩
  · rw [probe] at at'
    rw [addedTimer] at none'
    exact timers (h.noTimers at' none')
  · rw [probe] at at'
    rw [addedEvent] at none'
    exact events (h.noEvents at' none')
  · rw [Sound, verdicts]
    exact h.sound

/-- A thread that schedules, works off tasks or moves a timer or an event on. -/
theorem Valid.act {l : Label} (h : Valid s) (still : StillTrue s l) (e : act s l = some s') : Steady s' := by
  have pending := h.pending
  have executing := h.executing
  cases l with
  | stop | schedule =>
    cases e
    exact h.adds_nothing pending executing id id ⟨rfl, rfl, rfl, rfl⟩
  | addTimer =>
    cases e
    exact ⟨pending, executing, nofun, h.noEvents, h.sound⟩
  | addEvent =>
    cases e
    refine ⟨?_, executing, h.noTimers, nofun, h.sound⟩
    simp only
    omega
  | call =>
    simp only [Stopping.act] at e
    split at e <;> cases e
    exact ⟨pending, executing, nofun, nofun, h.sound⟩
  | getNextTimer =>
    simp only [Stopping.act] at e
    split at e <;> cases e
    split
    · rename_i none'
      exact ⟨pending, executing, fun _ _ => none', nofun, h.sound⟩
    · exact h.verdict nofun
  | readPending =>
    simp only [Stopping.act] at e
    split at e <;> cases e
    rename_i past
    split
    · rename_i none'
      exact ⟨pending, executing, fun _ => h.noTimers (.inl past), fun _ _ => none', h.sound⟩
    · exact h.verdict nofun
  | schedulerStopping =>
    simp only [Stopping.act] at e
    split at e <;> cases e
    rename_i past
    refine h.verdict fun holds => ?_
    apply h.saw
    · rw [past]
      nofun
    · exact h.quiet past holds still
  | listExpiredCb expired recurring =>
    simp only [Stopping.act] at e
    split at e <;> cases e
    refine h.adds_nothing pending executing (fun none' => ?_) id ⟨rfl, rfl, rfl, rfl⟩
    simp only
    omega
  | pick | finish | countDown | cancelTimer | scheduleExpired | setEvent | cancelEvent | cancelTrigger | cancelSchedule
  | delEvent | clearEvent | triggerEvent | triggerSchedule | triggerCount =>
    simp only [Stopping.act] at e
    split at e <;> cases e
    apply h.adds_nothing
    case call => exact ⟨rfl, rfl, rfl, rfl⟩
    all_goals
      simp only
      omega

theorem valid_of_reach (h : machine.ReachIf StillTrue s) : Valid s := by
  induction h with
  | init => exact valid_init
  | step _ still e ih =>
    obtain ⟨m, moved, rfl⟩ := Option.map_eq_some_iff.1 e
    exact (ih.act still moved).observe

end Steps

/-- **Main theorem.** In every run in which what `stopping()` has read is still true at
its last read, and nobody holds work then, it returns true only if some moment of the
call had nothing left to do. -/
theorem stopping_sound (s : State) (h : machine.ReachIf StillTrue s) : Sound s := (valid_of_reach h).sound

/-- A task adds an event, whose waiter is triggered and runs to its end; `stopping()`
is called afterwards. -/
theorem stopping_sound_after : ∃ s, Sound s ∧ s.verdicts = [(true, true)] := by
  have start : machine.ReachIf StillTrue _ := .init
  have runs := ((start.next .stop trivial rfl).next .schedule trivial rfl).next .pick trivial rfl
  have waits := (((runs.next .addEvent trivial rfl).next .setEvent trivial rfl).next .finish trivial rfl).next
    .countDown trivial rfl
  have woken := ((waits.next .triggerEvent trivial rfl).next .triggerSchedule trivial rfl).next .triggerCount trivial rfl
  have ended := ((woken.next .pick trivial rfl).next .finish trivial rfl).next .countDown trivial rfl
  have called := ((ended.next .call trivial rfl).next .getNextTimer trivial rfl).next .readPending trivial rfl
  have returned := called.next .schedulerStopping (fun _ => ⟨rfl, rfl, rfl, rfl⟩) rfl
  exact ⟨_, stopping_sound _ returned, rfl⟩

/-- A task adds a timer and ends after `getNextTimer` has found none. -/
theorem stops_with_timer : ¬ ∀ s, machine.Reach s → Sound s := by
  intro all
  have run := Machine.reach_of_exec (rfl : machine.exec machine.init
    [.stop, .schedule, .pick, .call, .getNextTimer, .addTimer, .finish, .countDown, .readPending, .schedulerStopping] =
      some _)
  have sound := all _ run false (by decide)
  cases sound

end Mycoroutine.Stopping
