import Mycoroutine.Scheduler.Run
import Mycoroutine.Scheduler.TaskOrder
import Mathlib.Data.List.Perm.Subperm

/-!
# Aging under `MLFQ`

The runs of `run` under `MLFQ` with aging, its configuration fixed, and with a history of
the picks. A sequence number is given out once, so the picks take tasks with distinct
numbers. A task that is overtaken by a later one has not aged to level 0 yet, so fewer
numbers than its level times the gap were given out since its own.
-/

namespace Mycoroutine.Aging
set_option autoImplicit false
open Interleave Machine

/-- What a pick took, and the queue that it left; `m_taskSequence` at the pick. -/
structure Pick where
  worker : Worker
  task : Task
  left : List Task
  taskSequence : Nat

/-- `picks` is history; no step reads it. -/
structure State where
  run : Run.State
  picks : List Pick

/-- What a step takes from the queue. -/
def taken (s : Run.State) : Run.Label → List Pick
  | .run w =>
    match s.pc w with
    | .pick =>
      let picked := pickNextTaskLocked s.policy s.mlfqConfig s.taskSequence s.tasks w
      picked.task.toList.map fun task => ⟨w, task, picked.tasks, s.taskSequence⟩
    | _ => []
  | _ => []

/-- The policy and its configuration stay, and `m_taskSequence` does not wrap. -/
def step (s : State) (l : Run.Label) : Option State :=
  match l with
  | .setPolicy _ | .setMLFQConfig _ => none
  | l => (Run.step s.run l).bind fun run =>
    if run.taskSequence < s.run.taskSequence then none else some { run, picks := s.picks ++ taken s.run l }

/-- The configuration in force. -/
def inForce (config : MLFQConfig) : MLFQConfig := { config with enableAging := true }.normalize

def machine (config : MLFQConfig) : Machine State Run.Label where
  init := { run := { Run.machine.init with policy := .mlfq, mlfqConfig := inForce config }, picks := [] }
  step := step

/-- The pick took a task queued after `t`, on a worker that could have taken `t`. -/
def Pick.Overtakes (p : Pick) (t : Task) : Prop := t ∈ p.left ∧ t.Fits p.worker ∧ t.sequence < p.task.sequence

instance (worker : Worker) (t : Task) : Decidable (t.Fits worker) := inferInstanceAs (Decidable (_ ∨ _))

instance (p : Pick) (t : Task) : Decidable (p.Overtakes t) := inferInstanceAs (Decidable (_ ∧ _ ∧ _))

/-- The clamped level of a task in gaps: how many sequence numbers it takes to age to
level 0. -/
def patience (config : MLFQConfig) (t : Task) : Nat := t.clampedLevel config * config.agingSequenceGap

/-! ## One pick -/

section Pick

variable {config : MLFQConfig} {taskSequence : Nat} {tasks : List Task} {w : Worker} {t u : Task}

/-- A task that waited out its patience is at level 0. -/
theorem agedLevel_eq_zero (aging : config.enableAging = true) (gap : 0 < config.agingSequenceGap)
    (waited : t.sequence + patience config t ≤ taskSequence) : t.agedLevel config taskSequence = 0 := by
  unfold Task.agedLevel
  rw [if_pos aging]
  apply Nat.sub_eq_zero_of_le
  rw [Nat.le_div_iff_mul_le gap]
  unfold patience at waited
  omega

/-- A later task is taken only before the other one has waited out its patience. -/
theorem takes_early (aging : config.enableAging = true) (gap : 0 < config.agingSequenceGap) {picked : Picked}
    (takes : Takes .mlfq config taskSequence tasks w picked u) (queued : t ∈ tasks) (fits : t.Fits w)
    (later : t.sequence < u.sequence) : taskSequence < t.sequence + patience config t := by
  by_contra waited
  have top := agedLevel_eq_zero aging gap (Nat.le_of_not_lt waited)
  have ne : t ≠ u := fun same => by
    rw [same] at later
    omega
  have less := takes.least nofun t queued fits ne
  simp only [Task.key, Task.key_lt_iff, top] at less
  omega

end Pick

/-! ## One step -/

/-- What a step does to the queue. -/
inductive QueueStep (s : Run.State) (l : Run.Label) (s' : Run.State) : Prop where
  | pushed (task : Task) (tasks : s'.tasks = s.tasks ++ [{ task with sequence := s.taskSequence }])
      (taskSequence : s'.taskSequence = (s.taskSequence + 1) % 2 ^ 64) (none' : taken s l = [])
  | picked (w : Worker) (task : Task)
      (took : (pickNextTaskLocked s.policy s.mlfqConfig s.taskSequence s.tasks w).task = some task)
      (tasks : s'.tasks = (pickNextTaskLocked s.policy s.mlfqConfig s.taskSequence s.tasks w).tasks)
      (taskSequence : s'.taskSequence = s.taskSequence)
      (one : taken s l = [⟨w, task, s'.tasks, s.taskSequence⟩])
  | same (tasks : s'.tasks = s.tasks) (taskSequence : s'.taskSequence = s.taskSequence) (none' : taken s l = [])

section Steps

variable {s s' : Run.State} {l : Run.Label} {w : Worker}

theorem taken_of_ne (other : ∀ w, l = .run w → s.pc w ≠ .pick) : taken s l = [] := by
  unfold taken
  split
  · rename_i w
    split
    · rename_i here
      exact absurd here (other w rfl)
    · rfl
  · rfl

theorem pickTask_queue (here : s.pc w = .pick) : QueueStep s (.run w) (s.pickTask w) := by
  have all : taken s (.run w) = (pickNextTaskLocked s.policy s.mlfqConfig s.taskSequence s.tasks w).task.toList.map
      fun task => ⟨w, task, (pickNextTaskLocked s.policy s.mlfqConfig s.taskSequence s.tasks w).tasks, s.taskSequence⟩ := by
    simp only [taken, here]
  unfold Run.State.pickTask
  dsimp only
  cases took : (pickNextTaskLocked s.policy s.mlfqConfig s.taskSequence s.tasks w).task with
  | none =>
    rw [took] at all
    exact .same rfl rfl all
  | some task =>
    rw [took] at all
    exact .picked w task took rfl rfl all

theorem step_queue (e : Run.step s l = some s') : QueueStep s l s' := by
  by_cases picks : ∃ w, l = .run w ∧ s.pc w = .pick
  · obtain ⟨w, rfl, here⟩ := picks
    have step : Run.step s (.run w) = some (s.pickTask w) := by
      show s.advance w = _
      unfold Run.State.advance
      rw [here]
    cases step.symm.trans e
    exact pickTask_queue here
  · have none' : taken s l = [] := taken_of_ne fun w same here => picks ⟨w, same, here⟩
    cases Run.step_moves e with
    | scheduled job options known => exact .pushed (options.task job) rfl rfl none'
    | requeued w t f here requeues => exact .pushed (s.demoted t) rfl rfl none'
    | pickedFiber w here | pickedCallback w here => exact absurd ⟨w, rfl, here⟩ picks
    | _ => exact .same rfl rfl none'

theorem step_policy (e : Run.step s l = some s') (fixed : (∀ policy, l ≠ .setPolicy policy) ∧ ∀ config, l ≠ .setMLFQConfig config) :
    s'.policy = s.policy ∧ s'.mlfqConfig = s.mlfqConfig := by
  cases Run.step_moves e with
  | setPolicy policy => exact absurd rfl (fixed.1 policy)
  | setMLFQConfig config => exact absurd rfl (fixed.2 config)
  | _ => exact ⟨rfl, rfl⟩

end Steps

/-! ## The invariant -/

/-- The bound for one pick, and what it takes once the other task is at level 0. -/
def Pick.Bounded (config : MLFQConfig) (p : Pick) : Prop :=
  ∀ t ∈ p.left, t.Fits p.worker →
    (t.sequence < p.task.sequence → p.task.sequence < t.sequence + patience config t) ∧
      (t.sequence + patience config t ≤ p.taskSequence → p.task.sequence < t.sequence)

/-- The sequence numbers that were given out are below `m_taskSequence`, and each is that
of one task, taken or queued. -/
structure Numbered (config : MLFQConfig) (s : State) : Prop where
  policy : s.run.policy = .mlfq
  settings : s.run.mlfqConfig = inForce config
  below : ∀ t ∈ s.picks.map Pick.task ++ s.run.tasks, t.sequence < s.run.taskSequence
  once : ((s.picks.map Pick.task ++ s.run.tasks).map Task.sequence).Nodup
  bounded : ∀ p ∈ s.picks, p.Bounded (inForce config)

section Numbered

variable {config : MLFQConfig} {s s' : State} {l : Run.Label}

theorem numbered_init : Numbered config (machine config).init :=
  ⟨rfl, rfl, nofun, .nil, nofun⟩

theorem gap_positive : 0 < (inForce config).agingSequenceGap := by
  unfold inForce MLFQConfig.normalize
  dsimp only
  split <;> omega

/-- The queue has its tasks told apart by their numbers. -/
theorem Numbered.distinct (h : Numbered config s) : (s.run.tasks.map Task.sequence).Nodup := by
  have once := h.once
  rw [List.map_append] at once
  exact (List.nodup_append.1 once).2.1

/-- A pick from such a queue meets the bound. -/
theorem Numbered.bound (h : Numbered config s) {w : Worker} {task : Task} {picked : Picked}
    (takes : Takes .mlfq (inForce config) s.run.taskSequence s.run.tasks w picked task) :
    Pick.Bounded (inForce config) ⟨w, task, picked.tasks, s.run.taskSequence⟩ := by
  obtain ⟨pre, post, queue, left, -⟩ := takes.split
  have distinct := h.distinct
  rw [queue, List.map_append, List.map_cons] at distinct
  have mem : task ∈ s.run.tasks := by
    rw [queue]
    exact List.mem_append_right _ List.mem_cons_self
  have below := h.below task (List.mem_append_right _ mem)
  intro t inLeft fits
  have queued : t ∈ s.run.tasks := by
    rw [left] at inLeft
    rw [queue]
    rcases List.mem_append.1 inLeft with before | after
    · exact List.mem_append_left _ before
    · exact List.mem_append_right _ (List.mem_cons_of_mem _ after)
  have other : t.sequence ≠ task.sequence := by
    rw [left] at inLeft
    have apart := List.nodup_middle.1 distinct
    rw [List.nodup_cons, ← List.map_append] at apart
    exact fun same => apart.1 (same ▸ List.mem_map_of_mem inLeft)
  constructor
  · intro later
    have early := takes_early rfl gap_positive takes queued fits later
    show task.sequence < _
    omega
  · intro waited
    have waited : t.sequence + patience (inForce config) t ≤ s.run.taskSequence := waited
    show task.sequence < t.sequence
    by_contra notEarlier
    have early := takes_early rfl gap_positive takes queued fits (by omega)
    omega

theorem Numbered.step (h : Numbered config s) (e : step s l = some s') : Numbered config s' := by
  unfold Aging.step at e
  split at e
  · cases e
  · cases e
  · rename_i noPolicy noConfig
    obtain ⟨run, own, e⟩ := Option.bind_eq_some_iff.1 e
    split at e
    · cases e
    · rename_i noWrap
      cases e
      obtain ⟨policy, sameConfig⟩ := step_policy own ⟨fun policy => noPolicy policy, fun config => noConfig config⟩
      have policy := policy.trans h.policy
      have sameConfig := sameConfig.trans h.settings
      cases step_queue own with
      | pushed task tasks taskSequence none' =>
        have next : run.taskSequence = s.run.taskSequence + 1 := by omega
        have all : (s.picks ++ taken s.run l).map Pick.task ++ run.tasks =
            s.picks.map Pick.task ++ s.run.tasks ++ [{ task with sequence := s.run.taskSequence }] := by
          rw [none', List.append_nil, tasks, List.append_assoc]
        refine ⟨policy, sameConfig, fun t mem => ?_, ?_, ?_⟩
        · rw [all] at mem
          rw [next]
          rcases List.mem_append.1 mem with old | new
          · exact Nat.lt_succ_of_lt (h.below t old)
          · rw [List.mem_singleton.1 new]
            exact Nat.lt_succ_self _
        · rw [all, List.map_append, List.nodup_append]
          refine ⟨h.once, List.nodup_singleton _, ?_⟩
          rintro n old m new rfl
          obtain ⟨t, mem, rfl⟩ := List.mem_map.1 old
          have below := h.below t mem
          have same : t.sequence = s.run.taskSequence := List.mem_singleton.1 new
          omega
        · rw [none', List.append_nil]
          exact h.bounded
      | picked w task took tasks taskSequence one =>
        rw [h.policy, h.settings] at took tasks
        have takes := takes_of_pick h.distinct took
        obtain ⟨pre, post, queue, left, -⟩ := takes.split
        have perm : ((s.picks ++ taken s.run l).map Pick.task ++ run.tasks).Perm (s.picks.map Pick.task ++ s.run.tasks) := by
          rw [one, List.map_append, List.append_assoc, tasks, left, queue]
          show (s.picks.map Pick.task ++ task :: (pre ++ post)).Perm _
          exact List.perm_middle.symm.append_left _
        refine ⟨policy, sameConfig, fun t mem => ?_, (perm.map _).nodup_iff.2 h.once, fun p mem => ?_⟩
        · rw [taskSequence]
          exact h.below t (perm.mem_iff.1 mem)
        · rw [one] at mem
          rcases List.mem_append.1 mem with old | new
          · exact h.bounded p old
          · rw [List.mem_singleton.1 new, tasks]
            exact h.bound takes
      | same tasks taskSequence none' =>
        have all : (s.picks ++ taken s.run l).map Pick.task ++ run.tasks = s.picks.map Pick.task ++ s.run.tasks := by
          rw [none', List.append_nil, tasks]
        refine ⟨policy, sameConfig, fun t mem => ?_, ?_, ?_⟩
        · rw [taskSequence]
          exact h.below t (all ▸ mem)
        · rw [all]
          exact h.once
        · rw [none', List.append_nil]
          exact h.bounded

/-- The tasks that overtake one have distinct numbers between its own and the bound. -/
theorem Numbered.overtakes_le (h : Numbered config s) (t : Task) :
    (s.picks.filter (·.Overtakes t)).length ≤ patience (inForce config) t := by
  have distinct : ((s.picks.filter (·.Overtakes t)).map fun p => p.task.sequence).Nodup := by
    have once := h.once
    rw [List.map_append, List.map_map] at once
    exact (List.nodup_append.1 once).1.sublist (List.filter_sublist.map _)
  have inside : ∀ n ∈ (s.picks.filter (·.Overtakes t)).map fun p => p.task.sequence,
      n ∈ List.range' t.sequence (patience (inForce config) t) := by
    intro n mem
    obtain ⟨p, found, rfl⟩ := List.mem_map.1 mem
    obtain ⟨here, overtakes⟩ := List.mem_filter.1 found
    obtain ⟨left, fits, later⟩ := of_decide_eq_true overtakes
    have early := (h.bounded p here t left fits).1 later
    rw [List.mem_range'_1]
    omega
  have le := (List.subperm_of_subset distinct inside).length_le
  rw [List.length_map, List.length_range'] at le
  exact le

end Numbered

/-- **Main theorem.** In every run under `MLFQ` with aging, whatever configuration and
workers there are: a task is overtaken only by tasks numbered within its patience, so by
no more than that many; after that it is taken before everything queued later. -/
theorem overtaken_at_most (config : MLFQConfig) (s : State) (h : (machine config).Reach s) (t : Task) :
    (∀ p ∈ s.picks, p.Overtakes t → p.task.sequence < t.sequence + patience (inForce config) t) ∧
      (s.picks.filter (·.Overtakes t)).length ≤ patience (inForce config) t ∧
      patience (inForce config) t ≤ ((inForce config).levels - 1) * (inForce config).agingSequenceGap ∧
      ∀ p ∈ s.picks, t ∈ p.left → t.Fits p.worker → t.sequence + patience (inForce config) t ≤ p.taskSequence →
        p.task.sequence < t.sequence := by
  have numbered : Numbered config s := h.invariant numbered_init fun _ _ _ inv _ e => inv.step e
  refine ⟨fun p mem ⟨left, fits, later⟩ => (numbered.bounded p mem t left fits).1 later, numbered.overtakes_le t, ?_,
    fun p mem left fits => (numbered.bounded p mem t left fits).2⟩
  exact Nat.mul_le_mul_right _ (Nat.min_le_right ..)

/-- A fiber yields and is demoted, and a new callback is taken before it. -/
theorem overtaken_at_most_once : ∃ s, (machine {}).Reach s ∧
    (s.picks.filter (·.Overtakes { job := .fiber 0, mlfqLevel := 1, sequence := 1 })).length = 1 ∧
    (s.picks.filter (·.Overtakes { job := .fiber 0, mlfqLevel := 1, sequence := 1 })).length ≤ 64 := by
  have reached := Machine.reach_of_exec (rfl : (machine {}).exec (machine {}).init
    [.create, .schedule (.fiber 0) {}, .run 1, .run 1, .run 1, .run 1, .yield 1, .run 1, .run 1, .run 1,
      .schedule (.cb 5) {}, .run 1, .run 1] = some _)
  exact ⟨_, reached, by decide, (overtaken_at_most {} _ reached _).2.1⟩

end Mycoroutine.Aging
