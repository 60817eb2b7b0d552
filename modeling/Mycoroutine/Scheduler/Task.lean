import Mycoroutine.Fiber.SharedStack

/-!
# Tasks and `pickNextTaskLocked`

The queue `m_tasks` and how a worker takes a task from it, under every
`SchedulePolicy`. A worker is named by its thread id.
-/

namespace Mycoroutine
set_option autoImplicit false

/-- A worker thread, by its id. -/
abbrev Worker := Int

/-- `SchedulePolicy`. -/
inductive SchedulePolicy where
  | fifo
  | priority
  | mlfq
  | edf
  | hybrid
deriving DecidableEq

/-- `ScheduleOptions`. `sentFor` is history: the wait whose notification this
is. No step reads it. -/
structure ScheduleOptions where
  thread : Int := -1
  priority : Int := 0
  deadlineMs : Nat := 0
  sentFor : Option Nat := none

/-- `MLFQConfig`. -/
structure MLFQConfig where
  levels : Nat := 3
  demoteOnYield : Bool := true
  enableAging : Bool := true
  agingSequenceGap : Nat := 64

/-- `NormalizeMLFQConfig`. -/
def MLFQConfig.normalize (config : MLFQConfig) : MLFQConfig :=
  { config with
    levels := if config.levels = 0 then 1 else config.levels,
    agingSequenceGap := if config.agingSequenceGap = 0 then 1 else config.agingSequenceGap }

def MLFQConfig.maxLevel (config : MLFQConfig) : Nat := config.levels - 1

/-- What a task runs: a fiber, or a callback, which the model only names. -/
inductive Job where
  | fiber (f : Ref)
  | cb (callback : Nat)
deriving DecidableEq

/-- `task.fiber` is set. -/
def Job.isFiber : Job → Bool
  | .fiber _ => true
  | .cb _ => false

/-- `ScheduleTask`, with one of `fiber` and `cb` set. `sentFor` is history again. -/
structure Task where
  job : Job
  thread : Int := -1
  priority : Int := 0
  mlfqLevel : Nat := 0
  deadlineMs : Nat := 0
  sequence : Nat := 0
  sentFor : Option Nat := none
deriving DecidableEq

/-- The task `scheduleEx` builds, before it has a sequence number. -/
def ScheduleOptions.task (options : ScheduleOptions) (job : Job) : Task :=
  { job, thread := options.thread, priority := options.priority, mlfqLevel := 0, deadlineMs := options.deadlineMs,
    sentFor := options.sentFor }

@[simp, grind =] theorem ScheduleOptions.job_task (options : ScheduleOptions) (job : Job) :
    (options.task job).job = job := rfl

@[simp, grind =] theorem ScheduleOptions.sentFor_task (options : ScheduleOptions) (job : Job) :
    (options.task job).sentFor = options.sentFor := rfl

namespace Task

/-- `match_thread`. -/
def matchThread (threadId : Worker) (task : Task) : Bool := task.thread == -1 || task.thread == threadId

def betterPriority (lhs rhs : Task) : Bool :=
  if lhs.priority ≠ rhs.priority then decide (lhs.priority > rhs.priority) else decide (lhs.sequence < rhs.sequence)

def effectiveMlfqLevel (config : MLFQConfig) (taskSequence : Nat) (task : Task) : Nat :=
  let baseLevel := if task.mlfqLevel > config.maxLevel then config.maxLevel else task.mlfqLevel
  if !config.enableAging || baseLevel = 0 || task.sequence ≥ taskSequence then baseLevel
  else
    let promote := (taskSequence - task.sequence) / config.agingSequenceGap
    if promote ≥ baseLevel then 0 else baseLevel - promote

def betterMlfq (config : MLFQConfig) (taskSequence : Nat) (lhs rhs : Task) : Bool :=
  let lhsLevel := effectiveMlfqLevel config taskSequence lhs
  let rhsLevel := effectiveMlfqLevel config taskSequence rhs
  if lhsLevel ≠ rhsLevel then decide (lhsLevel < rhsLevel) else decide (lhs.sequence < rhs.sequence)

def hasDeadline (task : Task) : Bool := decide (task.deadlineMs > 0)

def betterEdf (lhs rhs : Task) : Bool :=
  if lhs.hasDeadline ≠ rhs.hasDeadline then lhs.hasDeadline
  else if lhs.hasDeadline && rhs.hasDeadline && decide (lhs.deadlineMs ≠ rhs.deadlineMs) then
    decide (lhs.deadlineMs < rhs.deadlineMs)
  else decide (lhs.sequence < rhs.sequence)

def betterHybrid (lhs rhs : Task) : Bool :=
  if lhs.hasDeadline ≠ rhs.hasDeadline then lhs.hasDeadline
  else if lhs.hasDeadline && rhs.hasDeadline then
    if lhs.deadlineMs ≠ rhs.deadlineMs then decide (lhs.deadlineMs < rhs.deadlineMs) else betterPriority lhs rhs
  else betterPriority lhs rhs

/-- The `switch` of the scan. -/
def better (policy : SchedulePolicy) (config : MLFQConfig) (taskSequence : Nat) (lhs rhs : Task) : Bool :=
  match policy with
  | .fifo => false
  | .priority => betterPriority lhs rhs
  | .mlfq => betterMlfq config taskSequence lhs rhs
  | .edf => betterEdf lhs rhs
  | .hybrid => betterHybrid lhs rhs

end Task

/-- `Scheduler::stopping()`, one section under `m_mutex`. -/
def Scheduler.stopping (mStopping : Bool) (tasks : List Task) (activeThreadCount : Nat) : Bool :=
  mStopping && tasks.isEmpty && decide (activeThreadCount = 0)

theorem Scheduler.stopping_iff {mStopping : Bool} {tasks : List Task} {activeThreadCount : Nat} :
    Scheduler.stopping mStopping tasks activeThreadCount = true ↔ mStopping = true ∧ tasks = [] ∧ activeThreadCount = 0 := by
  simp only [Scheduler.stopping, Bool.and_eq_true, List.isEmpty_iff, decide_eq_true_eq, and_assoc]

/-! ## Picking -/

/-- The FIFO loop from position `i`: the first task that fits, and `tickle_me`. -/
def fifoScan (fits : Task → Bool) : Nat → List Task → Option Nat × Bool
  | _, [] => (none, false)
  | i, task :: rest => if fits task then (some i, false) else ((fifoScan fits (i + 1) rest).1, true)

/-- The loop of the other policies from position `i`, with `best_it` and `tickle_me`. -/
def bestScan (fits : Task → Bool) (better : Task → Task → Bool) :
    Nat → Option (Nat × Task) → Bool → List Task → Option (Nat × Task) × Bool
  | _, best, tickleMe, [] => (best, tickleMe)
  | i, best, tickleMe, task :: rest =>
    if !fits task then bestScan fits better (i + 1) best true rest
    else
      match best with
      | none => bestScan fits better (i + 1) (some (i, task)) tickleMe rest
      | some (j, bestTask) =>
        if better task bestTask then bestScan fits better (i + 1) (some (i, task)) tickleMe rest
        else bestScan fits better (i + 1) (some (j, bestTask)) tickleMe rest

/-- The outcome of `pickNextTaskLocked`: `out_task`, the queue left, `tickle_me`. -/
structure Picked where
  task : Option Task
  tasks : List Task
  tickleMe : Bool

def pickNextTaskLocked (policy : SchedulePolicy) (config : MLFQConfig) (taskSequence : Nat) (tasks : List Task)
    (threadId : Worker) : Picked :=
  if tasks.isEmpty then ⟨none, tasks, false⟩
  else
    let (found, tickleMe) :=
      if policy = .fifo then fifoScan (Task.matchThread threadId) 0 tasks
      else
        let (best, tickleMe) :=
          bestScan (Task.matchThread threadId) (Task.better policy config taskSequence) 0 none false tasks
        (best.map (·.1), tickleMe)
    match found with
    | none => ⟨none, tasks, tickleMe⟩
    | some i =>
      let rest := tasks.eraseIdx i
      ⟨tasks[i]?, rest, if rest.isEmpty then tickleMe else true⟩

section Picking

variable {fits : Task → Bool} {better : Task → Task → Bool} {tasks : List Task}

/-- What a scan finds: a task that fits, or that none does; and it passed over
one only if one does not fit. -/
structure Found (fits : Task → Bool) (tasks : List Task) (found : Option Nat) (tickleMe : Bool) : Prop where
  fit : ∀ i, found = some i → ∃ task, tasks[i]? = some task ∧ fits task = true
  missing : found = none → ∀ task ∈ tasks, fits task = false
  passed : tickleMe = true → ∃ task ∈ tasks, fits task = false
  skipped : found = none → tasks ≠ [] → tickleMe = true

theorem fifoScan_found (before rest : List Task) (unfit : ∀ task ∈ before, fits task = false) :
    Found fits (before ++ rest) (fifoScan fits before.length rest).1
      ((fifoScan fits before.length rest).2 || !before.isEmpty) := by
  induction rest generalizing before with
  | nil =>
    refine ⟨nofun, fun _ task h => unfit task (by simpa using h), ?_, ?_⟩
    · cases before <;> simp_all [fifoScan]
    · cases before <;> simp [fifoScan]
  | cons task rest ih =>
    cases fit : fits task with
    | true =>
      simp only [fifoScan, fit, if_true]
      refine ⟨?_, nofun, ?_, nofun⟩
      · rintro i ⟨⟩
        exact ⟨task, by simp, fit⟩
      · cases before <;> simp_all
    | false =>
      have later := ih (before ++ [task]) fun t h => by
        rcases List.mem_append.1 h with h | h
        · exact unfit t h
        · rw [List.mem_singleton.1 h, fit]
      have passed : (before ++ [task]).isEmpty = false := by simp
      rw [passed] at later
      simpa [fifoScan, fit, List.length_append, List.append_assoc] using later

theorem bestScan_found (before rest : List Task) (best : Option (Nat × Task)) (tickleMe : Bool)
    (good : ∀ i task, best = some (i, task) → before[i]? = some task ∧ fits task = true)
    (none' : best = none → ∀ task ∈ before, fits task = false)
    (passed : tickleMe = true → ∃ task ∈ before, fits task = false)
    (skipped : best = none → before ≠ [] → tickleMe = true) :
    Found fits (before ++ rest) ((bestScan fits better before.length best tickleMe rest).1.map (·.1))
      (bestScan fits better before.length best tickleMe rest).2 := by
  induction rest generalizing before best tickleMe with
  | nil =>
    simp only [bestScan, List.append_nil]
    refine ⟨?_, ?_, passed, ?_⟩
    · intro i h
      obtain ⟨⟨j, task⟩, hb, rfl⟩ := Option.map_eq_some_iff.1 h
      exact ⟨task, good j task hb⟩
    · exact fun h => none' (Option.map_eq_none_iff.1 h)
    · exact fun h => skipped (Option.map_eq_none_iff.1 h)
  | cons task rest ih =>
    have stays : ∀ i t, best = some (i, t) → (before ++ [task])[i]? = some t ∧ fits t = true := fun i t h => by
      obtain ⟨at', fit⟩ := good i t h
      exact ⟨List.getElem?_append_left (List.getElem?_eq_some_iff.1 at').1 ▸ at', fit⟩
    have kept : tickleMe = true → ∃ t ∈ before ++ [task], fits t = false := fun h => by
      obtain ⟨t, ht, unfit⟩ := passed h
      exact ⟨t, List.mem_append_left _ ht, unfit⟩
    have next := fun b => ih (before ++ [task]) b
    simp only [List.length_append, List.length_singleton, List.append_assoc, List.singleton_append] at next
    cases fit : fits task with
    | false =>
      simp only [bestScan, fit, Bool.not_false, if_true]
      refine next best true stays ?_ (fun _ => ⟨task, by simp, fit⟩) fun _ _ => rfl
      intro h t ht
      rcases List.mem_append.1 ht with ht | ht
      · exact none' h t ht
      · rw [List.mem_singleton.1 ht, fit]
    | true =>
      have taken : ∀ i t, some (before.length, task) = some (i, t) →
          (before ++ [task])[i]? = some t ∧ fits t = true := by
        rintro i t ⟨⟩
        exact ⟨by simp, fit⟩
      simp only [bestScan, fit, Bool.not_true, Bool.false_eq_true, if_false]
      cases best with
      | none => exact next _ tickleMe taken nofun kept nofun
      | some b =>
        simp only
        split
        · exact next _ tickleMe taken nofun kept nofun
        · exact next _ tickleMe stays nofun kept nofun

theorem scan_found (policy : SchedulePolicy) (config : MLFQConfig) (taskSequence : Nat) (tasks : List Task)
    (threadId : Worker) : ∃ found tickleMe, Found (Task.matchThread threadId) tasks found tickleMe ∧
      pickNextTaskLocked policy config taskSequence tasks threadId =
        match found with
        | none => ⟨none, tasks, tickleMe⟩
        | some i => ⟨tasks[i]?, tasks.eraseIdx i, if (tasks.eraseIdx i).isEmpty then tickleMe else true⟩ := by
  cases tasks with
  | nil => exact ⟨none, false, ⟨nofun, nofun, nofun, fun _ h => absurd rfl h⟩, rfl⟩
  | cons task rest =>
    unfold pickNextTaskLocked
    by_cases isFifo : policy = .fifo
    · have found := @fifoScan_found (Task.matchThread threadId) [] (task :: rest) nofun
      simp only [List.nil_append, List.length_nil, List.isEmpty_nil, Bool.not_true, Bool.or_false] at found
      refine ⟨_, _, found, ?_⟩
      simp only [isFifo, List.isEmpty_cons, if_true, Bool.false_eq_true, if_false]
    · have found := @bestScan_found (Task.matchThread threadId)
        (Task.better policy config taskSequence) [] (task :: rest) none false nofun nofun nofun
        (fun _ h => absurd rfl h)
      simp only [List.nil_append, List.length_nil] at found
      refine ⟨_, _, found, ?_⟩
      simp only [isFifo, List.isEmpty_cons, Bool.false_eq_true, if_false]

variable {policy : SchedulePolicy} {config : MLFQConfig} {taskSequence : Nat} {threadId : Worker} {picked : Picked}

/-- What a pick takes is a queued task that may run here; the rest stays, in order. -/
theorem pick_some {task : Task} (e : pickNextTaskLocked policy config taskSequence tasks threadId = picked)
    (taken : picked.task = some task) :
    ∃ pre post, tasks = pre ++ task :: post ∧ picked.tasks = pre ++ post ∧ task.matchThread threadId = true := by
  obtain ⟨found, tickleMe, scan, eq⟩ := scan_found policy config taskSequence tasks threadId
  rw [eq] at e
  subst e
  cases found with
  | none => cases taken
  | some i =>
    obtain ⟨t, at', fit⟩ := scan.fit i rfl
    obtain rfl : t = task := Option.some.inj (at'.symm.trans taken)
    obtain ⟨bound, rfl⟩ := List.getElem?_eq_some_iff.1 at'
    refine ⟨tasks.take i, tasks.drop (i + 1), ?_, List.eraseIdx_eq_take_drop_succ .., fit⟩
    rw [List.getElem_cons_drop, List.take_append_drop]

/-- A pick fails only when no queued task may run here, and it changes nothing. -/
theorem pick_none (e : pickNextTaskLocked policy config taskSequence tasks threadId = picked)
    (failed : picked.task = none) :
    picked.tasks = tasks ∧ ∀ task ∈ tasks, task.matchThread threadId = false := by
  obtain ⟨found, tickleMe, scan, eq⟩ := scan_found policy config taskSequence tasks threadId
  rw [eq] at e
  subst e
  cases found with
  | none => exact ⟨rfl, scan.missing rfl⟩
  | some i =>
    obtain ⟨t, at', -⟩ := scan.fit i rfl
    exact absurd (at'.symm.trans failed) nofun

/-- `run` tickles after a pick exactly when it leaves tasks behind. -/
theorem pick_tickles (e : pickNextTaskLocked policy config taskSequence tasks threadId = picked) :
    picked.tickleMe = true ↔ picked.tasks ≠ [] := by
  obtain ⟨found, tickleMe, scan, eq⟩ := scan_found policy config taskSequence tasks threadId
  rw [eq] at e
  subst e
  cases found with
  | none =>
    refine ⟨fun passed => ?_, scan.skipped rfl⟩
    obtain ⟨task, queued, -⟩ := scan.passed passed
    exact List.ne_nil_of_mem queued
  | some i =>
    refine ⟨fun passed left => ?_, fun left => by simp [List.isEmpty_eq_false_iff.2 left]⟩
    -- the only task queued was taken, so none was passed over
    obtain ⟨task, queued, unfit⟩ := scan.passed (by simpa [show tasks.eraseIdx i = [] from left] using passed)
    obtain ⟨t, at', fit⟩ := scan.fit i rfl
    obtain ⟨bound, here⟩ := List.getElem?_eq_some_iff.1 at'
    have none_left : tasks.take i ++ tasks.drop (i + 1) = [] :=
      (List.eraseIdx_eq_take_drop_succ ..).symm.trans left
    obtain ⟨before, after⟩ := List.append_eq_nil_iff.1 none_left
    have single : tasks = [t] := by
      rw [← List.take_append_drop i tasks, ← List.getElem_cons_drop bound, here, before, after]
      rfl
    rw [single, List.mem_singleton] at queued
    exact absurd (queued ▸ fit) (by simp [unfit])

end Picking

end Mycoroutine
