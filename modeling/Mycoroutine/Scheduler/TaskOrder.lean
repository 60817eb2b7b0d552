import Mycoroutine.Scheduler.Task
import Mathlib.Data.Prod.Lex
import Mathlib.Data.List.Nodup
import Mathlib.Tactic.Linarith

/-!
# What `pickNextTaskLocked` takes

The comparisons of the policies are the lexicographic order of a key. The scan of the
queue keeps the least key it has met, so it takes the least of the tasks that may run
on the worker; with distinct sequence numbers there is only one.
-/

namespace Mycoroutine
set_option autoImplicit false

/-- No deadline, deadline, level, priority, sequence number; the least goes first. -/
abbrev TaskKey := ℕ ×ₗ ℕ ×ₗ ℕ ×ₗ ℤ ×ₗ ℕ

namespace Task

/-- The level of a task, clamped to those that there are. -/
def clampedLevel (config : MLFQConfig) (task : Task) : Nat := min task.mlfqLevel config.maxLevel

/-- One level up for each gap of sequence numbers that the task waited. -/
def agedLevel (config : MLFQConfig) (taskSequence : Nat) (task : Task) : Nat :=
  task.clampedLevel config - if config.enableAging then (taskSequence - task.sequence) / config.agingSequenceGap else 0

/-- The order of the policies other than `FIFO`, which goes by the queue. -/
def key (policy : SchedulePolicy) (config : MLFQConfig) (taskSequence : Nat) (task : Task) : TaskKey :=
  let late := if task.hasDeadline then 0 else 1
  match policy with
  | .fifo => toLex (0, toLex (0, toLex (0, toLex (0, task.sequence))))
  | .priority => toLex (0, toLex (0, toLex (0, toLex (-task.priority, task.sequence))))
  | .mlfq => toLex (0, toLex (0, toLex (task.agedLevel config taskSequence, toLex (0, task.sequence))))
  | .edf => toLex (late, toLex (task.deadlineMs, toLex (0, toLex (0, task.sequence))))
  | .hybrid => toLex (late, toLex (task.deadlineMs, toLex (0, toLex (-task.priority, task.sequence))))

section Order

variable {config : MLFQConfig} {taskSequence : Nat} {lhs rhs task : Task} {policy : SchedulePolicy}

theorem effectiveMlfqLevel_eq : effectiveMlfqLevel config taskSequence task = task.agedLevel config taskSequence := by
  have base : (if task.mlfqLevel > config.maxLevel then config.maxLevel else task.mlfqLevel) = task.clampedLevel config := by
    unfold clampedLevel
    split <;> omega
  unfold effectiveMlfqLevel agedLevel
  rw [base]
  generalize task.clampedLevel config = level
  cases config.enableAging with
  | false => rfl
  | true =>
    simp only [Bool.not_true, Bool.false_or, Bool.or_eq_true, decide_eq_true_eq, if_true]
    split
    · rename_i settled
      rcases settled with none' | new
      · rw [none', Nat.zero_sub]
      · rw [Nat.sub_eq_zero_of_le new, Nat.zero_div, Nat.sub_zero]
    · split <;> omega

theorem key_lt_iff {a b c a' b' c' : ℕ} {p p' : ℤ} {n n' : ℕ} :
    (toLex (a, toLex (b, toLex (c, toLex (p, n)))) : TaskKey) < toLex (a', toLex (b', toLex (c', toLex (p', n')))) ↔
      a < a' ∨ a = a' ∧ (b < b' ∨ b = b' ∧ (c < c' ∨ c = c' ∧ (p < p' ∨ p = p' ∧ n < n'))) := by
  simp only [Prod.Lex.toLex_lt_toLex]

theorem betterPriority_iff : betterPriority lhs rhs = true ↔ lhs.key .priority config taskSequence < rhs.key .priority config taskSequence := by
  simp only [key, key_lt_iff, lt_self_iff_false, true_and, false_or]
  unfold betterPriority
  split <;> rw [decide_eq_true_iff] <;> omega

theorem betterMlfq_iff : betterMlfq config taskSequence lhs rhs = true ↔
    lhs.key .mlfq config taskSequence < rhs.key .mlfq config taskSequence := by
  simp only [key, key_lt_iff, lt_self_iff_false, true_and, false_or]
  unfold betterMlfq
  simp only [effectiveMlfqLevel_eq]
  split <;> rw [decide_eq_true_iff] <;> omega

/-- A task without a deadline has 0 in `deadline_ms`. -/
theorem deadline_cases (task : Task) : task.hasDeadline = true ∧ 0 < task.deadlineMs ∨ task.hasDeadline = false ∧ task.deadlineMs = 0 := by
  unfold hasDeadline
  rcases Nat.eq_zero_or_pos task.deadlineMs with none' | some'
  · exact .inr ⟨decide_eq_false (by omega), none'⟩
  · exact .inl ⟨decide_eq_true some', some'⟩

theorem betterEdf_iff : betterEdf lhs rhs = true ↔ lhs.key .edf config taskSequence < rhs.key .edf config taskSequence := by
  simp only [key, key_lt_iff, lt_self_iff_false, true_and, false_or]
  unfold betterEdf
  rcases deadline_cases lhs with ⟨left, some'⟩ | ⟨left, none'⟩ <;> rcases deadline_cases rhs with ⟨right, some''⟩ | ⟨right, none''⟩
  · rw [left, right]
    simp only [ne_eq, not_true, if_false, if_true, Bool.true_and, decide_eq_true_eq, lt_self_iff_false, false_or, true_and]
    split <;> rw [decide_eq_true_iff] <;> omega
  · rw [left, right]
    simp
  · rw [left, right]
    simp
  · rw [left, right, none', none'']
    simp

theorem betterHybrid_iff : betterHybrid lhs rhs = true ↔
    lhs.key .hybrid config taskSequence < rhs.key .hybrid config taskSequence := by
  have tie : betterPriority lhs rhs = true ↔
      -lhs.priority < -rhs.priority ∨ -lhs.priority = -rhs.priority ∧ lhs.sequence < rhs.sequence := by
    unfold betterPriority
    split <;> rw [decide_eq_true_iff] <;> omega
  simp only [key, key_lt_iff, lt_self_iff_false, true_and, false_or]
  unfold betterHybrid
  rcases deadline_cases lhs with ⟨left, some'⟩ | ⟨left, none'⟩ <;> rcases deadline_cases rhs with ⟨right, some''⟩ | ⟨right, none''⟩
  · rw [left, right]
    simp only [ne_eq, not_true, if_false, if_true, Bool.and_self, lt_self_iff_false, false_or, true_and]
    split
    · rw [decide_eq_true_iff]
      omega
    · rw [tie]
      omega
  · rw [left, right]
    simp
  · rw [left, right]
    simp
  · rw [left, right, none', none'', ← tie]
    simp

theorem better_iff (ordered : policy ≠ .fifo) : better policy config taskSequence lhs rhs = true ↔
    lhs.key policy config taskSequence < rhs.key policy config taskSequence := by
  cases policy with
  | fifo => exact absurd rfl ordered
  | priority => exact betterPriority_iff
  | mlfq => exact betterMlfq_iff
  | edf => exact betterEdf_iff
  | hybrid => exact betterHybrid_iff

/-- Tasks with the same key have the same sequence number. -/
theorem sequence_of_key (same : lhs.key policy config taskSequence = rhs.key policy config taskSequence) :
    lhs.sequence = rhs.sequence := by
  cases policy <;> simp_all [key]

end Order

/-- `match_thread`: the task may run on the worker. -/
def Fits (worker : Worker) (task : Task) : Prop := task.thread = -1 ∨ task.thread = worker

theorem matchThread_iff {worker : Worker} {task : Task} : task.matchThread worker = true ↔ task.Fits worker := by
  simp only [matchThread, Bool.or_eq_true, beq_iff_eq, Fits]

theorem matchThread_false {worker : Worker} {task : Task} : task.matchThread worker = false ↔ ¬ task.Fits worker := by
  rw [← matchThread_iff, Bool.not_eq_true]

end Task

/-! ## The scans -/

section Scan

variable {fits : Task → Bool} {better : Task → Task → Bool}

/-- The FIFO loop stops at the first task that fits. -/
theorem fifoScan_first (i k : Nat) (tasks : List Task) (found : (fifoScan fits k tasks).1 = some i) :
    ∃ pre task post, tasks = pre ++ task :: post ∧ i = k + pre.length ∧ ∀ u ∈ pre, fits u = false := by
  induction tasks generalizing k with
  | nil => cases found
  | cons task rest ih =>
    rw [fifoScan] at found
    split at found
    · cases found
      exact ⟨[], task, rest, rfl, rfl, fun u mem => by cases mem⟩
    · rename_i unfit
      obtain ⟨pre, found', post, rfl, rfl, first⟩ := ih (k + 1) found
      refine ⟨task :: pre, found', post, rfl, by rw [List.length_cons]; omega, fun u mem => ?_⟩
      rcases List.mem_cons.1 mem with rfl | mem
      · exact Bool.eq_false_iff.2 unfit
      · exact first u mem

/-- The other loop keeps the least task that it has met. -/
theorem bestScan_least {κ : Type*} [LinearOrder κ] {key : Task → κ} (better_iff : ∀ a b, better a b = true ↔ key a < key b)
    (before rest : List Task) (best : Option (Nat × Task)) (tickleMe : Bool)
    (good : ∀ i m, best = some (i, m) → before[i]? = some m ∧ ∀ u ∈ before, fits u = true → key m ≤ key u)
    (none' : best = none → ∀ u ∈ before, fits u = false) (i : Nat) (m : Task)
    (found : (bestScan fits better before.length best tickleMe rest).1 = some (i, m)) :
    (before ++ rest)[i]? = some m ∧ ∀ u ∈ before ++ rest, fits u = true → key m ≤ key u := by
  induction rest generalizing before best tickleMe with
  | nil =>
    rw [List.append_nil]
    exact good i m found
  | cons task rest ih =>
    have next := fun b => ih (before ++ [task]) b
    simp only [List.length_append, List.length_singleton, List.append_assoc, List.singleton_append] at next
    have here : (before ++ [task])[before.length]? = some task := by simp
    have stays (j : Nat) (b : Task) (at' : before[j]? = some b) : (before ++ [task])[j]? = some b :=
      List.getElem?_append_left (List.getElem?_eq_some_iff.1 at').1 ▸ at'
    unfold bestScan at found
    split at found
    · rename_i unfit
      have unfit : fits task = false := by simpa using unfit
      refine next best true (fun j b h => ?_) (fun h u mem => ?_) found
      · obtain ⟨at', least⟩ := good j b h
        refine ⟨stays j b at', fun u mem fit => ?_⟩
        rcases List.mem_append.1 mem with mem | mem
        · exact least u mem fit
        · rw [List.mem_singleton.1 mem, unfit] at fit
          cases fit
      · rcases List.mem_append.1 mem with mem | mem
        · exact none' h u mem
        · rw [List.mem_singleton.1 mem, unfit]
    · cases best with
      | none =>
        dsimp only at found
        refine next (some (before.length, task)) tickleMe ?_ (fun none => by cases none) found
        rintro j b ⟨⟩
        refine ⟨here, fun u mem fit => ?_⟩
        rcases List.mem_append.1 mem with mem | mem
        · rw [none' rfl u mem] at fit
          cases fit
        · rw [List.mem_singleton.1 mem]
      | some old =>
        obtain ⟨at', least⟩ := good old.1 old.2 rfl
        dsimp only at found
        split at found
        · rename_i less
          have less := (better_iff _ _).1 less
          refine next (some (before.length, task)) tickleMe ?_ (fun none => by cases none) found
          rintro j b ⟨⟩
          refine ⟨here, fun u mem fit => ?_⟩
          rcases List.mem_append.1 mem with mem | mem
          · exact (le_of_lt less).trans (least u mem fit)
          · rw [List.mem_singleton.1 mem]
        · rename_i notLess
          have notLess := not_lt.1 (mt (better_iff _ _).2 notLess)
          refine next (some (old.1, old.2)) tickleMe ?_ (fun none => by cases none) found
          rintro j b ⟨⟩
          refine ⟨stays _ _ at', fun u mem fit => ?_⟩
          rcases List.mem_append.1 mem with mem | mem
          · exact least u mem fit
          · rw [List.mem_singleton.1 mem]
            exact notLess

end Scan

/-! ## Picking -/

/-- `pickNextTaskLocked` took the task: the first that fits under `FIFO`, and the one with
the least key under the other policies. -/
structure Takes (policy : SchedulePolicy) (config : MLFQConfig) (taskSequence : Nat) (tasks : List Task) (worker : Worker)
    (picked : Picked) (task : Task) : Prop where
  fits : task.Fits worker
  split : ∃ pre post, tasks = pre ++ task :: post ∧ picked.tasks = pre ++ post ∧
    (policy = .fifo → ∀ u ∈ pre, ¬ u.Fits worker)
  least : policy ≠ .fifo → ∀ u ∈ tasks, u.Fits worker → u ≠ task →
    task.key policy config taskSequence < u.key policy config taskSequence

section Picking

variable {policy : SchedulePolicy} {config : MLFQConfig} {taskSequence : Nat} {tasks : List Task} {worker : Worker}

/-- Tasks with distinct sequence numbers are told apart by the number. -/
theorem eq_of_sequence (distinct : (tasks.map Task.sequence).Nodup) {t u : Task} (left : t ∈ tasks) (right : u ∈ tasks)
    (same : t.sequence = u.sequence) : t = u :=
  List.inj_on_of_nodup_map distinct left right same

theorem split_at (i : Nat) (task : Task) (here : tasks[i]? = some task) :
    tasks = tasks.take i ++ task :: tasks.drop (i + 1) ∧ tasks.eraseIdx i = tasks.take i ++ tasks.drop (i + 1) := by
  obtain ⟨bound, rfl⟩ := List.getElem?_eq_some_iff.1 here
  refine ⟨?_, List.eraseIdx_eq_take_drop_succ ..⟩
  rw [List.getElem_cons_drop, List.take_append_drop]

theorem takes_of_pick (distinct : (tasks.map Task.sequence).Nodup) {task : Task}
    (taken : (pickNextTaskLocked policy config taskSequence tasks worker).task = some task) :
    Takes policy config taskSequence tasks worker (pickNextTaskLocked policy config taskSequence tasks worker) task := by
  obtain ⟨-, -, -, -, fit⟩ := pick_some rfl taken
  have fit := Task.matchThread_iff.1 fit
  unfold pickNextTaskLocked at taken ⊢
  split at taken
  · cases taken
  · rename_i some'
    rw [if_neg some']
    by_cases isFifo : policy = .fifo
    · simp only [if_pos isFifo] at taken ⊢
      cases found : (fifoScan (Task.matchThread worker) 0 tasks).1 with
      | none => rw [found] at taken; cases taken
      | some i =>
        rw [found] at taken
        obtain ⟨pre, task', post, eq, at', first⟩ := fifoScan_first i 0 tasks found
        rw [Nat.zero_add] at at'
        have here : tasks[i]? = some task := taken
        have same : task' = task := by
          rw [eq, at', List.getElem?_append_right (Nat.le_refl _), Nat.sub_self] at here
          exact Option.some.inj here
        subst same
        have rest : tasks.eraseIdx i = pre ++ post := by
          rw [eq, at', List.eraseIdx_append_of_length_le (Nat.le_refl _), Nat.sub_self]
          rfl
        refine ⟨fit, ⟨pre, post, eq, rest, fun _ u mem => ?_⟩, fun ordered => absurd isFifo ordered⟩
        exact Task.matchThread_false.1 (first u mem)
    · simp only [if_neg isFifo] at taken ⊢
      cases found : (bestScan (Task.matchThread worker) (Task.better policy config taskSequence) 0 none false tasks).1 with
      | none => rw [found] at taken; cases taken
      | some best =>
        obtain ⟨i, m⟩ := best
        rw [found] at taken
        have order (a b : Task) : Task.better policy config taskSequence a b = true ↔
            a.key policy config taskSequence < b.key policy config taskSequence := Task.better_iff isFifo
        obtain ⟨here, least⟩ := bestScan_least order [] tasks none false nofun nofun i m found
        have here : tasks[i]? = some m := here
        have same : m = task := Option.some.inj (here.symm.trans taken)
        subst same
        obtain ⟨eq, rest⟩ := split_at i m here
        refine ⟨fit, ⟨_, _, eq, rest, fun fifo => absurd fifo isFifo⟩, fun _ u mem fits other => ?_⟩
        refine lt_of_le_of_ne (least u mem (Task.matchThread_iff.2 fits)) fun same => other ?_
        have queued : m ∈ tasks := List.mem_of_getElem? here
        exact eq_of_sequence distinct mem queued (Task.sequence_of_key same).symm

end Picking

/-- **Main theorem.** For every queue of tasks with distinct sequence numbers: nothing is
picked exactly if no task may run on the worker; otherwise it is the task that the policy
puts first, the others stay in order, and the order of the queue matters to `FIFO` only. -/
theorem picks_by_policy (policy : SchedulePolicy) (config : MLFQConfig) (taskSequence : Nat) (tasks : List Task) (worker : Worker)
    (distinct : (tasks.map Task.sequence).Nodup) :
    ((pickNextTaskLocked policy config taskSequence tasks worker).task = none ↔ ∀ u ∈ tasks, ¬ u.Fits worker) ∧
      ((pickNextTaskLocked policy config taskSequence tasks worker).task = none →
        (pickNextTaskLocked policy config taskSequence tasks worker).tasks = tasks) ∧
      (∀ task, (pickNextTaskLocked policy config taskSequence tasks worker).task = some task →
        Takes policy config taskSequence tasks worker (pickNextTaskLocked policy config taskSequence tasks worker) task) ∧
      ((pickNextTaskLocked policy config taskSequence tasks worker).tickleMe = true ↔
        (pickNextTaskLocked policy config taskSequence tasks worker).tasks ≠ []) ∧
      (policy ≠ .fifo → ∀ tasks', tasks'.Perm tasks →
        (pickNextTaskLocked policy config taskSequence tasks' worker).task =
          (pickNextTaskLocked policy config taskSequence tasks worker).task) := by
  have failed (tasks : List Task) (none' : (pickNextTaskLocked policy config taskSequence tasks worker).task = none) :
      ∀ u ∈ tasks, ¬ u.Fits worker := fun u mem => Task.matchThread_false.1 ((pick_none rfl none').2 u mem)
  refine ⟨⟨failed tasks, fun unfit => ?_⟩, fun none' => (pick_none rfl none').1, fun task => takes_of_pick distinct,
    pick_tickles rfl, fun ordered tasks' perm => ?_⟩
  · cases taken : (pickNextTaskLocked policy config taskSequence tasks worker).task with
    | none => rfl
    | some task =>
      have takes := takes_of_pick distinct taken
      obtain ⟨pre, post, eq, -⟩ := takes.split
      exact absurd takes.fits (unfit task (eq ▸ List.mem_append_right _ List.mem_cons_self))
  · have distinct' : (tasks'.map Task.sequence).Nodup := (perm.map _).nodup_iff.2 distinct
    have mem {policy' : SchedulePolicy} {queue : List Task} {picked : Picked} {task : Task}
        (takes : Takes policy' config taskSequence queue worker picked task) : task ∈ queue := by
      obtain ⟨pre, post, eq, -⟩ := takes.split
      exact eq ▸ List.mem_append_right _ List.mem_cons_self
    cases taken : (pickNextTaskLocked policy config taskSequence tasks worker).task with
    | none =>
      cases taken' : (pickNextTaskLocked policy config taskSequence tasks' worker).task with
      | none => rfl
      | some task =>
        have takes' := takes_of_pick distinct' taken'
        exact absurd takes'.fits (failed tasks taken task (perm.mem_iff.1 (mem takes')))
    | some task =>
      have takes := takes_of_pick distinct taken
      cases taken' : (pickNextTaskLocked policy config taskSequence tasks' worker).task with
      | none => exact absurd takes.fits (failed tasks' taken' task (perm.mem_iff.2 (mem takes)))
      | some task' =>
        have takes' := takes_of_pick distinct' taken'
        -- each of two different tasks would be before the other
        by_contra other
        have ne : task' ≠ task := fun same => other (congrArg some same)
        have less := takes.least ordered task' (perm.mem_iff.1 (mem takes')) takes'.fits ne
        have more := takes'.least ordered task (perm.mem_iff.2 (mem takes)) takes.fits ne.symm
        exact lt_asymm less more

/-- A task with a deadline goes before an older one without, and one of another worker is
passed over. -/
theorem picks_by_policy_deadline :
    Takes .edf {} 3 [{ job := .cb 0, sequence := 0 }, { job := .cb 1, thread := 7, deadlineMs := 1, sequence := 1 },
        { job := .cb 2, deadlineMs := 9, sequence := 2 }] 1
      ⟨some { job := .cb 2, deadlineMs := 9, sequence := 2 },
        [{ job := .cb 0, sequence := 0 }, { job := .cb 1, thread := 7, deadlineMs := 1, sequence := 1 }], true⟩
      { job := .cb 2, deadlineMs := 9, sequence := 2 } :=
  (picks_by_policy .edf {} 3 _ 1 (by decide)).2.2.1 { job := .cb 2, deadlineMs := 9, sequence := 2 } rfl

end Mycoroutine
