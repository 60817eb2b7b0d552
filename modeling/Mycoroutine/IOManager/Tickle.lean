import Mycoroutine.Interleave.Machine
import Mycoroutine.Interleave.Tally
import Mycoroutine.Scheduler.Task

/-!
# `tickle()` and `idle()`

The workers of an `IOManager` between their picks: `run()` with `tickle_me` and the
count of idle threads, and the loop of `idle()` with `epoll_wait`. What a task does is
not followed here; the threads that schedule, a worker inside a task or in `idle()`
among them, are counted by how far they are in `scheduleEx`.

The eventfd is `written` or not. It may wake any worker that is blocked, and a worker
may wake for another reason at any time; a worker that woke for it reads it empty.
-/

namespace Mycoroutine.Tickle
set_option autoImplicit false
open Interleave

/-- Where a worker stands: outside `run()`; at the pick; in `tickle()` after a pick,
before its test or its write; executing; in `tickle()` after a requeue; before
`m_activeThreadCount--`; with nothing picked; in `idle()` before `stopping()`, before
`epoll_wait`, in it, and after it; back in `run()` before `m_idleThreadCount--`. -/
inductive Pc where
  | absent
  | pick
  | tickleMe (task : Option Task)
  | tickleMeWrite (task : Option Task)
  | execute (task : Task)
  | requeued
  | requeuedWrite
  | finish
  | failed
  | stopping
  | wait
  | blocked
  | woken (tickled : Bool)
  | yielded
deriving DecidableEq

/-- `pushed` and `tested` count the threads in `scheduleEx` that have pushed onto the
empty queue: those before the test in `tickle()`, and those that will write. `term` says
that a worker's idle fiber has ended. -/
structure State where
  policy : SchedulePolicy
  mlfqConfig : MLFQConfig
  taskSequence : Nat
  tasks : List Task
  activeThreadCount : Nat
  idleThreadCount : Nat
  mStopping : Bool
  pc : Worker → Pc
  term : Worker → Bool
  written : Bool
  pushed : Nat
  tested : Nat

/-- One atomic step. `advance` is the next step of a worker where it has no choice;
`done` is the end of a task, whose fiber is `ready` or not; `notify` is a `tickle()`
for any other reason. -/
inductive Label where
  | setPolicy (policy : SchedulePolicy)
  | setMLFQConfig (config : MLFQConfig)
  | start (w : Worker)
  | stop
  | schedule (job : Job) (options : ScheduleOptions)
  | test
  | write
  | notify
  | advance (w : Worker)
  | done (w : Worker) (ready : Bool)
  | stopping (w : Worker) (result : Bool)
  | wake (w : Worker) (tickled : Bool)

namespace State

variable (s : State)

def setPc (w : Worker) (pc : Pc) : State := { s with pc := Function.update s.pc w pc }

/-- `m_taskSequence++` and `emplace_back`. -/
def push (task : Task) : State :=
  { s with tasks := s.tasks ++ [{ task with sequence := s.taskSequence }],
           taskSequence := (s.taskSequence + 1) % 2 ^ 64 }

/-- The locked section of `scheduleEx`. -/
def schedule (job : Job) (options : ScheduleOptions) : State :=
  { s.push (options.task job) with pushed := if s.tasks.isEmpty then s.pushed + 1 else s.pushed }

/-- `hasIdleThreads()`. -/
def hasIdleThreads : Bool := decide (s.idleThreadCount > 0)

/-- `pickNextTaskLocked`, and the test of `tickle_me`. -/
def pickTask (w : Worker) : State :=
  let picked := pickNextTaskLocked s.policy s.mlfqConfig s.taskSequence s.tasks w
  let goesOn := match picked.task with
    | some task => Pc.execute task
    | none => Pc.failed
  { s with tasks := picked.tasks,
           activeThreadCount := if picked.task.isSome then s.activeThreadCount + 1 else s.activeThreadCount,
           pc := Function.update s.pc w (if picked.tickleMe then .tickleMe picked.task else goesOn) }

/-- What follows the `tickle()` after a pick. -/
def afterTickle : Option Task → Pc
  | some task => .execute task
  | none => .failed

/-- The next step of a worker where it has no choice. -/
def advance (w : Worker) : Option State :=
  match s.pc w with
  | .pick => some (s.pickTask w)
  | .tickleMe task => some (s.setPc w (if s.hasIdleThreads then .tickleMeWrite task else afterTickle task))
  | .tickleMeWrite task => some { s.setPc w (afterTickle task) with written := true }
  | .requeued => some (s.setPc w (if s.hasIdleThreads then .requeuedWrite else .finish))
  | .requeuedWrite => some { s.setPc w .finish with written := true }
  | .finish => some { s.setPc w .pick with activeThreadCount := s.activeThreadCount - 1 }
  | .failed =>
    if s.term w then some (s.setPc w .absent)
    else some { s.setPc w .stopping with idleThreadCount := s.idleThreadCount + 1 }
  | .wait => some (s.setPc w .blocked)
  | .woken true => some { s.setPc w (.woken false) with written := false }
  | .woken false => some (s.setPc w .yielded)
  | .yielded => some { s.setPc w .pick with idleThreadCount := s.idleThreadCount - 1 }
  | .absent | .execute _ | .stopping | .blocked => none

/-- The task `run` puts back under `MLFQ`. -/
def demoted (t : Task) : Task :=
  { t with mlfqLevel := if s.mlfqConfig.demoteOnYield && decide (t.mlfqLevel < s.mlfqConfig.maxLevel)
             then t.mlfqLevel + 1 else t.mlfqLevel,
           sentFor := none }

/-- The end of a task. Under `MLFQ` a fiber that is `ready` is queued again, which
always tickles; a callback is not. -/
def done (w : Worker) (ready : Bool) : Option State :=
  match s.pc w with
  | .execute task =>
    if ready = true ∧ s.policy = .mlfq ∧ task.job.isFiber = true then some ((s.push (s.demoted task)).setPc w .requeued)
    else some (s.setPc w .finish)
  | _ => none

/-- `IOManager::stopping()`; the timers and the pending events may make it false. -/
def stoppingTest (w : Worker) (result : Bool) : Option State :=
  if s.pc w = .stopping then
    if result then
      if Scheduler.stopping s.mStopping s.tasks s.activeThreadCount then
        some { s.setPc w .yielded with term := Function.update s.term w true }
      else none
    else some (s.setPc w .wait)
  else none

end State

def step (s : State) : Label → Option State
  | .setPolicy policy => some { s with policy }
  | .setMLFQConfig config => some { s with mlfqConfig := config.normalize }
  | .start w =>
    if s.pc w = .absent then some { s.setPc w .pick with term := Function.update s.term w false } else none
  | .stop => some { s with mStopping := true }
  | .schedule job options => some (s.schedule job options)
  | .test =>
    if 0 < s.pushed then
      some { s with pushed := s.pushed - 1, tested := if s.hasIdleThreads then s.tested + 1 else s.tested }
    else none
  | .write => if 0 < s.tested then some { s with tested := s.tested - 1, written := true } else none
  | .notify => some { s with written := true }
  | .advance w => s.advance w
  | .done w ready => s.done w ready
  | .stopping w result => s.stoppingTest w result
  | .wake w tickled =>
    if s.pc w = .blocked ∧ (tickled = true → s.written = true) then some (s.setPc w (.woken tickled)) else none

/-- No worker has started. -/
def machine : Machine State Label where
  init := { policy := .fifo, mlfqConfig := {}, taskSequence := 0, tasks := [], activeThreadCount := 0,
            idleThreadCount := 0, mStopping := false, pc := fun _ => .absent, term := fun _ => false,
            written := false, pushed := 0, tested := 0 }
  step := step

/-! ## Lost wakeups -/

namespace Pc

/-- In `run()`, awake, and not executing a task. -/
def Awake : Pc → Prop
  | .absent | .execute _ | .blocked => False
  | _ => True

/-- Comes to a pick before it sleeps; one that holds a task is on its way to it. -/
def Returns : Pc → Prop
  | .pick | .tickleMe (some _) | .tickleMeWrite (some _) | .requeued | .requeuedWrite | .finish | .woken _ | .yielded => True
  | _ => False

/-- Between the push of a requeue and the end of its `tickle()`. -/
def Requeues : Pc → Prop
  | .requeued | .requeuedWrite => True
  | _ => False

/-- Has picked nothing and is not counted as idle yet. -/
def Uncounted : Pc → Prop
  | .tickleMe none | .tickleMeWrite none | .failed => True
  | _ => False

/-- Between the increment and the decrement of `m_idleThreadCount`. -/
def Counted : Pc → Prop
  | .stopping | .wait | .blocked | .woken _ | .yielded => True
  | _ => False

/-- Blocked in `epoll_wait`, or on the way there. -/
def Sleeps : Pc → Prop
  | .tickleMe none | .tickleMeWrite none | .failed | .stopping | .wait | .blocked => True
  | _ => False

end Pc

/-- Some thread is between its push and its `tickle()`. -/
def Tickles (s : State) : Prop :=
  0 < s.pushed + s.tested ∨ ∃ w, (s.pc w).Requeues

/-- No task waits for a worker that nothing wakes. -/
def LosesNone (s : State) : Prop :=
  ∀ w, s.pc w = .blocked → ∀ t ∈ s.tasks, t.matchThread w = true →
    s.written = true ∨ Tickles s ∨ ∃ x, (s.pc x).Awake ∧ t.matchThread x = true

/-! ## The condition -/

/-- A `tickle()` is coming, or a worker that may run the task comes to a pick. -/
def Attended (s : State) (t : Task) : Prop :=
  Tickles s ∨ ∃ w, (s.pc w).Returns ∧ t.matchThread w = true

/-- `tickle()` finds no idle thread only while none that may run a queued task is
about to be counted. -/
def SeesIdle (s : State) : Prop :=
  s.idleThreadCount = 0 → ∀ w, (s.pc w).Uncounted → ∀ t ∈ s.tasks, t.matchThread w = false

/-- `scheduleEx` leaves the `tickle()` out only for a task that no sleeping worker may
run, or that is attended to, or while the eventfd is written; `tickle()` sees the idle
threads; and the eventfd is read empty only while every queued task that a sleeping
worker may run is attended to. -/
def Heeds (s : State) : Label → Prop
  | .schedule job options =>
    s.tasks ≠ [] → ∀ w, (s.pc w).Sleeps → (options.task job).matchThread w = true →
      s.written = true ∨ Attended s (options.task job)
  | .test => SeesIdle s
  | .advance x =>
    match s.pc x with
    | .tickleMe (some _) | .requeued => SeesIdle s
    | .woken true => ∀ w, (s.pc w).Sleeps → ∀ t ∈ s.tasks, t.matchThread w = true → Attended s t
    | _ => True
  | _ => True

/-! ## The invariant -/

/-- Every queued task that a sleeping worker may run is attended to, or the eventfd is
written. -/
def Heard (s : State) : Prop :=
  ∀ w, (s.pc w).Sleeps → ∀ t ∈ s.tasks, t.matchThread w = true → s.written = true ∨ Attended s t

/-- `m_idleThreadCount` is the number of the workers in `idle()`. -/
def Counts (pc : Worker → Pc) (n : Nat) : Prop :=
  ∃ idle : Finset Worker, (∀ w, w ∈ idle ↔ (pc w).Counted) ∧ idle.card = n

section Steps

variable {s s' : State} {w x : Worker} {p : Pc} {n : Nat}

theorem counted_or_uncounted (sleeps : p.Sleeps) : p.Counted ∨ p.Uncounted := by
  unfold Pc.Sleeps at sleeps
  split at sleeps
  · exact .inr trivial
  · exact .inr trivial
  · exact .inr trivial
  · exact .inl trivial
  · exact .inl trivial
  · exact .inl trivial
  · cases sleeps

theorem awake_of_returns (returns : p.Returns) : p.Awake := by
  cases p <;> trivial

theorem Counts.tally {pc : Worker → Pc} : Counts pc n ↔ Tally Pc.Counted pc n := Iff.rfl

theorem Counts.same (h : Counts s.pc n) (same : p.Counted ↔ (s.pc x).Counted) : Counts (Function.update s.pc x p) n :=
  (Counts.tally.1 h).same same

theorem Counts.enter (h : Counts s.pc n) (out : ¬ (s.pc x).Counted) (counted : p.Counted) :
    Counts (Function.update s.pc x p) (n + 1) :=
  (Counts.tally.1 h).enter out counted

theorem Counts.leave (h : Counts s.pc n) (inside : (s.pc x).Counted) (out : ¬ p.Counted) :
    Counts (Function.update s.pc x p) (n - 1) :=
  (Counts.tally.1 h).leave inside out

/-- A `tickle()` that sees the idle threads finds none only if no sleeping worker may
run a queued task. -/
theorem nobody_sleeps (counts : Counts s.pc s.idleThreadCount) (sees : SeesIdle s) (zero : s.idleThreadCount = 0)
    (sleeps : (s.pc w).Sleeps) : ∀ t ∈ s.tasks, t.matchThread w = false := by
  rcases counted_or_uncounted sleeps with counted | uncounted
  · have some' := (Counts.tally.1 counts).pos counted
    omega
  · exact sees zero w uncounted

/-- A worker moves on. It keeps its own part of the bargain unless no queued task is
one that it may run. -/
theorem Heard.move (h : Heard s) (pc : s'.pc = Function.update s.pc x p) (tasks : ∀ t ∈ s'.tasks, t ∈ s.tasks)
    (written : s.written = true → s'.written = true) (tickles : s.pushed + s.tested = s'.pushed + s'.tested)
    (sleeps : p.Sleeps → (s.pc x).Sleeps ∨ ∀ t ∈ s'.tasks, t.matchThread x = false)
    (returns : (s.pc x).Returns → p.Returns ∨ ∀ t ∈ s'.tasks, t.matchThread x = false)
    (requeues : (s.pc x).Requeues → p.Requeues) : Heard s' := by
  intro w asleep t queued fits
  have before : (s.pc w).Sleeps := by
    rw [pc] at asleep
    by_cases mine : w = x
    · subst mine
      rw [Function.update_self] at asleep
      rcases sleeps asleep with before | unfit
      · exact before
      · cases fits.symm.trans (unfit t queued)
    · rwa [Function.update_of_ne mine] at asleep
  rcases h w before t (tasks t queued) fits with rings | (coming | ⟨y, requeue⟩) | ⟨y, comes, may⟩
  · exact .inl (written rings)
  · exact .inr (.inl (.inl (tickles ▸ coming)))
  · refine .inr (.inl (.inr ⟨y, ?_⟩))
    rw [pc]
    by_cases mine : y = x
    · subst mine
      rw [Function.update_self]
      exact requeues requeue
    · rwa [Function.update_of_ne mine]
  · refine .inr (.inr ⟨y, ?_, may⟩)
    rw [pc]
    by_cases mine : y = x
    · subst mine
      rw [Function.update_self]
      rcases returns comes with still | unfit
      · exact still
      · cases may.symm.trans (unfit t queued)
    · rwa [Function.update_of_ne mine]

theorem Heard.of_written (written : s.written = true) : Heard s := fun _ _ _ _ _ => .inl written

theorem Heard.of_tickles (tickles : Tickles s) : Heard s := fun _ _ _ _ _ => .inr (.inl tickles)

/-- Nothing is asked for while no sleeping worker may run a queued task. -/
theorem Heard.of_nobody (nobody : ∀ w, (s.pc w).Sleeps → ∀ t ∈ s.tasks, t.matchThread w = false) : Heard s :=
  fun w asleep t queued fits => by cases fits.symm.trans (nobody w asleep t queued)

/-! ## The steps -/

/-- What is known of every state. -/
structure Kept (s : State) : Prop where
  counts : Counts s.pc s.idleThreadCount
  heard : Heard s

theorem kept_init : Kept machine.init where
  counts := ⟨∅, fun _ => ⟨nofun, nofun⟩, rfl⟩
  heard := nofun

/-- A worker moves on while nothing else changes that the invariant reads. -/
theorem Kept.setPc (h : Kept s) (same : p.Counted ↔ (s.pc x).Counted) (sleeps : p.Sleeps → (s.pc x).Sleeps)
    (returns : (s.pc x).Returns → p.Returns) (requeues : (s.pc x).Requeues → p.Requeues) : Kept (s.setPc x p) :=
  ⟨h.counts.same same, h.heard.move rfl (fun _ => id) id rfl (fun asleep => .inl (sleeps asleep))
    (fun comes => .inl (returns comes)) requeues⟩

theorem Kept.push (h : Kept s) (job : Job) (options : ScheduleOptions) (heeds : Heeds s (.schedule job options)) :
    Kept (s.schedule job options) := by
  refine ⟨h.counts, ?_⟩
  by_cases empty : s.tasks = []
  · apply Heard.of_tickles
    left
    simp only [State.schedule, empty, List.isEmpty_nil, if_true]
    omega
  · intro w asleep t queued fits
    have pushed : (s.schedule job options).pushed = s.pushed := by
      simp only [State.schedule, List.isEmpty_eq_false_iff.2 empty, Bool.false_eq_true, if_false]
    have attended : ∀ u : Task, (∀ y, u.matchThread y = t.matchThread y) → s.written = true ∨ Attended s u →
        s.written = true ∨ Attended (s.schedule job options) t := by
      rintro u same (rings | (coming | requeue) | ⟨y, comes, may⟩)
      · exact .inl rings
      · refine .inr (.inl (.inl ?_))
        rw [pushed]
        exact coming
      · exact .inr (.inl (.inr requeue))
      · exact .inr (.inr ⟨y, comes, (same y).symm.trans may⟩)
    rcases List.mem_append.1 queued with old | new
    · exact attended t (fun _ => rfl) (h.heard w asleep t old fits)
    · cases List.mem_singleton.1 new
      exact attended (options.task job) (fun _ => rfl) (heeds empty w asleep fits)

/-- The test in a scheduling thread's `tickle()`. -/
theorem Kept.test (h : Kept s) (sees : SeesIdle s) :
    Kept { s with pushed := s.pushed - 1, tested := if s.hasIdleThreads then s.tested + 1 else s.tested } := by
  refine ⟨h.counts, ?_⟩
  by_cases zero : s.idleThreadCount = 0
  · exact Heard.of_nobody fun w asleep => nobody_sleeps h.counts sees zero asleep
  · apply Heard.of_tickles
    left
    have idle : s.hasIdleThreads = true := decide_eq_true (Nat.pos_of_ne_zero zero)
    simp only [idle, if_true]
    omega

theorem Kept.pickTask (h : Kept s) (at' : s.pc x = .pick) : Kept (s.pickTask x) := by
  obtain ⟨picked, e⟩ : ∃ picked, pickNextTaskLocked s.policy s.mlfqConfig s.taskSequence s.tasks x = picked := ⟨_, rfl⟩
  have tickles := pick_tickles e
  simp only [State.pickTask, e]
  cases taken : picked.task with
  | some task =>
    obtain ⟨pre, post, queue, rest, -⟩ := pick_some e taken
    have fewer : ∀ t ∈ picked.tasks, t ∈ s.tasks := by
      intro t queued
      rw [rest] at queued
      rw [queue]
      rcases List.mem_append.1 queued with before | after
      · exact List.mem_append_left _ before
      · exact List.mem_append_right _ (List.mem_cons_of_mem _ after)
    cases tickle : picked.tickleMe with
    | true =>
      simp only [if_true]
      refine ⟨h.counts.same (by rw [at']; exact Iff.rfl), h.heard.move rfl fewer id rfl nofun (fun _ => .inl trivial) ?_⟩
      rw [at']
      exact nofun
    | false =>
      have nothing : picked.tasks = [] := by
        by_contra left
        cases tickle.symm.trans (tickles.2 left)
      simp only [Bool.false_eq_true, if_false]
      refine ⟨h.counts.same (by rw [at']; exact Iff.rfl), Heard.of_nobody fun w _ t queued => ?_⟩
      rw [nothing] at queued
      cases queued
  | none =>
    obtain ⟨same, unfit⟩ := pick_none e taken
    have counted : Counts (Function.update s.pc x (if picked.tickleMe then .tickleMe none else .failed)) s.idleThreadCount := by
      apply h.counts.same
      rw [at']
      split <;> exact Iff.rfl
    have fits : ∀ t ∈ picked.tasks, t.matchThread x = false := fun t queued => unfit t (same ▸ queued)
    refine ⟨counted, h.heard.move rfl (fun t queued => same ▸ queued) id rfl (fun _ => .inr fits) (fun _ => .inr fits) ?_⟩
    rw [at']
    exact nofun

/-- A `tickle()` that finds no idle thread. -/
theorem Kept.unseen (h : Kept s) (sees : SeesIdle s) (none' : ¬ s.hasIdleThreads = true) (awake : ¬ p.Sleeps)
    (same : p.Counted ↔ (s.pc x).Counted) : Kept (s.setPc x p) := by
  have zero : s.idleThreadCount = 0 := by
    simp only [State.hasIdleThreads, decide_eq_true_eq] at none'
    omega
  refine ⟨h.counts.same same, .of_nobody fun w asleep => ?_⟩
  by_cases mine : w = x
  · subst mine
    simp only [State.setPc, Function.update_self] at asleep
    exact absurd asleep awake
  · simp only [State.setPc, Function.update_of_ne mine] at asleep
    have nobody := nobody_sleeps h.counts sees zero asleep
    exact nobody

theorem Kept.advance (h : Kept s) (heeds : Heeds s (.advance x)) (e : s.advance x = some s') : Kept s' := by
  simp only [State.advance] at e
  simp only [Heeds] at heeds
  split at e
  · rename_i at'
    cases e
    exact h.pickTask at'
  · rename_i task at'
    cases e
    rw [at'] at heeds
    cases task with
    | none =>
      split
      · apply h.setPc <;> rw [at'] <;> first | exact Iff.rfl | exact id
      · apply h.setPc <;> rw [at'] <;> first | exact Iff.rfl | exact id
    | some task =>
      split
      · apply h.setPc <;> rw [at'] <;> first | exact Iff.rfl | exact id
      · rename_i none'
        exact h.unseen heeds none' nofun (by rw [at']; exact Iff.rfl)
  · rename_i task at'
    cases e
    refine ⟨h.counts.same ?_, .of_written rfl⟩
    rw [at']
    cases task <;> exact Iff.rfl
  · rename_i at'
    cases e
    rw [at'] at heeds
    split
    · apply h.setPc <;> rw [at'] <;> first | exact Iff.rfl | exact id
    · rename_i none'
      exact h.unseen heeds none' nofun (by rw [at']; exact Iff.rfl)
  · rename_i at'
    cases e
    refine ⟨h.counts.same ?_, .of_written rfl⟩
    rw [at']
    exact Iff.rfl
  · rename_i at'
    cases e
    have moved : Kept (s.setPc x .pick) := by
      apply h.setPc <;> rw [at'] <;> first | exact Iff.rfl | exact id
    exact ⟨moved.counts, moved.heard⟩
  · rename_i at'
    split at e <;> cases e
    · apply h.setPc <;> rw [at']
      · exact Iff.rfl
      · exact nofun
      · exact nofun
      · exact nofun
    · refine ⟨h.counts.enter (by rw [at']; exact nofun) trivial, ?_⟩
      refine h.heard.move rfl (fun _ => id) id rfl (fun _ => .inl ?_) ?_ ?_ <;> rw [at']
      · trivial
      · exact nofun
      · exact nofun
  · rename_i at'
    cases e
    apply h.setPc <;> rw [at'] <;> first | exact Iff.rfl | exact id
  · rename_i at'
    cases e
    rw [at'] at heeds
    have drained : Kept { s with written := false } := ⟨h.counts, fun w asleep t queued fits => .inr (heeds w asleep t queued fits)⟩
    have moved : Kept ({ s with written := false }.setPc x (.woken false)) := by
      apply drained.setPc <;> rw [at'] <;> first | exact Iff.rfl | exact id
    exact ⟨moved.counts, moved.heard⟩
  · rename_i at'
    cases e
    apply h.setPc <;> rw [at'] <;> first | exact Iff.rfl | exact id
  · rename_i at'
    cases e
    refine ⟨h.counts.leave (by rw [at']; trivial) nofun, ?_⟩
    refine h.heard.move rfl (fun _ => id) id rfl nofun (fun _ => .inl trivial) ?_
    rw [at']
    exact nofun
  all_goals cases e

theorem Kept.step {l : Label} (h : Kept s) (heeds : Heeds s l) (e : step s l = some s') : Kept s' := by
  cases l with
  | setPolicy policy =>
    cases e
    exact ⟨h.counts, h.heard⟩
  | setMLFQConfig config =>
    cases e
    exact ⟨h.counts, h.heard⟩
  | start w =>
    simp only [Tickle.step] at e
    split at e <;> cases e
    rename_i absent
    refine ⟨h.counts.same (by rw [absent]; exact Iff.rfl), ?_⟩
    refine h.heard.move rfl (fun _ => id) id rfl nofun ?_ ?_
    · rw [absent]
      exact nofun
    · rw [absent]
      exact nofun
  | stop =>
    cases e
    exact ⟨h.counts, h.heard⟩
  | schedule job options =>
    cases e
    exact h.push job options heeds
  | test =>
    simp only [Tickle.step] at e
    split at e <;> cases e
    exact h.test heeds
  | write =>
    simp only [Tickle.step] at e
    split at e <;> cases e
    exact ⟨h.counts, .of_written rfl⟩
  | notify =>
    cases e
    exact ⟨h.counts, .of_written rfl⟩
  | advance w => exact h.advance heeds e
  | done w ready =>
    simp only [Tickle.step, State.done] at e
    split at e
    · rename_i task at'
      split at e <;> cases e
      · have same : Pc.requeued.Counted ↔ (s.pc w).Counted := by
          rw [at']
          exact Iff.rfl
        refine ⟨h.counts.same same, .of_tickles (.inr ⟨w, ?_⟩)⟩
        simp only [State.setPc, Function.update_self, Pc.Requeues]
      · apply h.setPc
        all_goals rw [at']
        · exact Iff.rfl
        · exact nofun
        · exact fun _ => trivial
        · exact nofun
    · cases e
  | stopping w result =>
    simp only [Tickle.step, State.stoppingTest] at e
    split at e
    · rename_i at'
      split at e
      · split at e <;> cases e
        refine ⟨h.counts.same (by rw [at']; exact Iff.rfl), h.heard.move rfl (fun _ => id) id rfl nofun (fun _ => .inl trivial) ?_⟩
        rw [at']
        exact nofun
      · cases e
        apply h.setPc
        all_goals rw [at']
        · exact Iff.rfl
        · exact fun _ => trivial
        · exact nofun
        · exact nofun
    · cases e
  | wake w tickled =>
    simp only [Tickle.step] at e
    split at e <;> cases e
    rename_i guard
    apply h.setPc
    all_goals rw [guard.1]
    · exact Iff.rfl
    · exact nofun
    · exact nofun
    · exact nofun

theorem kept_of_reach (h : machine.ReachIf Heeds s) : Kept s := by
  induction h with
  | init => exact kept_init
  | step _ heeds e ih => exact ih.step heeds e

end Steps

/-- **Main theorem.** In every run that heeds the condition no wakeup is lost: a task
that a blocked worker may run finds the eventfd written, a `tickle()` coming, or
another worker awake that may run it. -/
theorem loses_none (s : State) (h : machine.ReachIf Heeds s) : LosesNone s := by
  intro w blocked t queued fits
  have asleep : (s.pc w).Sleeps := by
    rw [blocked]
    trivial
  rcases (kept_of_reach h).heard w asleep t queued fits with rings | tickles | ⟨x, comes, may⟩
  · exact .inl rings
  · exact .inr (.inl tickles)
  · exact .inr (.inr ⟨x, awake_of_returns comes, may⟩)

/-- Workers 1 and 2 are blocked when a task for either is pushed; worker 1 wakes and
reads the eventfd. -/
theorem loses_none_woken : ∃ s, LosesNone s ∧ s.pc 2 = .blocked ∧ s.tasks.map (·.thread) = [-1] ∧ s.written = false := by
  have start : machine.ReachIf Heeds _ := .init
  have failed := ((start.next (.start 1) trivial rfl).next (.advance 1) trivial rfl).next (.advance 1) trivial rfl
  have sleeps := (failed.next (.stopping 1 false) trivial rfl).next (.advance 1) trivial rfl
  have failed' := ((sleeps.next (.start 2) trivial rfl).next (.advance 2) trivial rfl).next (.advance 2) trivial rfl
  have sleeps' := (failed'.next (.stopping 2 false) trivial rfl).next (.advance 2) trivial rfl
  have pushed := sleeps'.next (.schedule (.cb 0) {}) (fun some' => absurd rfl some') rfl
  have seen := pushed.next .test nofun rfl
  have woken := (seen.next .write trivial rfl).next (.wake 1 true) trivial rfl
  have drained := woken.next (.advance 1)
    (fun w _ t queued _ => .inr ⟨1, trivial, by cases List.mem_singleton.1 queued; rfl⟩) rfl
  exact ⟨_, loses_none _ drained, rfl, rfl, rfl⟩

/-- Worker 2 has picked nothing and is not counted as idle when a task for it is
pushed: `tickle()` does not write, and the worker goes to sleep. -/
theorem loses_one : ¬ ∀ s, machine.Reach s → LosesNone s := by
  intro all
  have run := Machine.reach_of_exec (rfl : machine.exec machine.init
    [.start 2, .advance 2, .schedule (.cb 0) { thread := 2 }, .test, .advance 2, .stopping 2 false, .advance 2] = some _)
  rcases all _ run 2 rfl { job := .cb 0, thread := 2 } (by decide) rfl with rings | (coming | ⟨w, requeues⟩) | ⟨x, awake, may⟩
  · cases rings
  · cases coming
  · by_cases two : w = 2
    · subst two
      cases requeues
    · simp [State.setPc, machine, State.schedule, State.push, State.pickTask, two] at requeues
      cases requeues
  · by_cases two : x = 2
    · subst two
      cases awake
    · simp [State.setPc, machine, State.schedule, State.push, State.pickTask, two] at awake
      cases awake

end Mycoroutine.Tickle
