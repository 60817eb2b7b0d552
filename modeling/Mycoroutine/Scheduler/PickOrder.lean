import Mycoroutine.Ordered.Lateness
import Mycoroutine.Scheduler.Aging
import Mathlib.Order.WithBot

/-!
# The order of the picks

Runs of `run` under a policy and a configuration that stay, with a history of the
picks. No pick passes over a task that the policy puts first; so while nothing is
queued, the tasks are taken in the order of the policy, whichever workers take them.

Under `EDF` and `HYBRID` that is the order of the deadlines. A worker that runs one
task after the other then meets every deadline, or keeps within every tolerance, that
can be met in any order.
-/

namespace Mycoroutine.PickOrder
set_option autoImplicit false
open Interleave Machine Aging

def machine (policy : SchedulePolicy) (config : MLFQConfig) : Machine State Run.Label where
  init := { run := { Run.machine.init with policy, mlfqConfig := config }, picks := [] }
  step := Aging.step

/-- Tasks are queued in the order of their numbers, and what was picked was the first of
those that the worker may run. -/
structure Ranked (policy : SchedulePolicy) (config : MLFQConfig) (s : State) : Prop where
  underPolicy : s.run.policy = policy
  underConfig : s.run.mlfqConfig = config
  below : ∀ t ∈ s.run.tasks, t.sequence < s.run.taskSequence
  inOrder : s.run.tasks.Pairwise fun a b => a.sequence < b.sequence
  first : ∀ p ∈ s.picks, p.task.Fits p.worker ∧ ∀ t ∈ p.left, t.Fits p.worker →
    p.task.key policy config p.taskSequence < t.key policy config p.taskSequence

section Ranked

variable {policy : SchedulePolicy} {config : MLFQConfig} {s s' : State} {l : Run.Label}

theorem ranked_init : Ranked policy config (machine policy config).init :=
  ⟨rfl, rfl, nofun, .nil, nofun⟩

theorem Ranked.distinct (h : Ranked policy config s) : (s.run.tasks.map Task.sequence).Nodup := by
  rw [List.nodup_iff_pairwise_ne, List.pairwise_map]
  exact h.inOrder.imp fun less => Nat.ne_of_lt less

/-- The task that is taken goes before those that are left. -/
theorem Ranked.takes_first (h : Ranked policy config s) {w : Worker} {task : Task} {picked : Picked}
    (takes : Takes policy config s.run.taskSequence s.run.tasks w picked task) :
    task.Fits w ∧ ∀ t ∈ picked.tasks, t.Fits w →
      task.key policy config s.run.taskSequence < t.key policy config s.run.taskSequence := by
  obtain ⟨pre, post, queue, left, skipped⟩ := takes.split
  refine ⟨takes.fits, fun t mem fits => ?_⟩
  have inOrder := h.inOrder
  rw [queue, List.pairwise_append, List.pairwise_cons] at inOrder
  rw [left] at mem
  by_cases isFifo : policy = .fifo
  · -- under `FIFO` those in front of the task cannot run here, and those behind have larger numbers
    rcases List.mem_append.1 mem with before | after
    · exact absurd fits (skipped isFifo t before)
    · subst isFifo
      have later := inOrder.2.1.1 t after
      simp only [Task.key, Task.key_lt_iff, lt_self_iff_false, true_and, false_or]
      exact later
  · have queued : t ∈ s.run.tasks := by
      rw [queue]
      rcases List.mem_append.1 mem with before | after
      · exact List.mem_append_left _ before
      · exact List.mem_append_right _ (List.mem_cons_of_mem _ after)
    refine takes.least isFifo t queued fits ?_
    rintro rfl
    rcases List.mem_append.1 mem with before | after
    · exact lt_irrefl _ (inOrder.2.2 t before t List.mem_cons_self)
    · exact lt_irrefl _ (inOrder.2.1.1 t after)

/-- What is left stays in order. -/
theorem left_sublist {w : Worker} {task : Task} {picked : Picked}
    (takes : Takes policy config s.run.taskSequence s.run.tasks w picked task) : picked.tasks.Sublist s.run.tasks := by
  obtain ⟨pre, post, queue, left, -⟩ := takes.split
  rw [queue, left]
  exact (List.sublist_cons_self task post).append_left pre

/-- An enabled step: a step of `run` that leaves policy and configuration, and does not wrap. -/
theorem step_run (e : Aging.step s l = some s') : Run.step s.run l = some s'.run ∧
    s'.picks = s.picks ++ taken s.run l ∧ s.run.taskSequence ≤ s'.run.taskSequence ∧
      s'.run.policy = s.run.policy ∧ s'.run.mlfqConfig = s.run.mlfqConfig := by
  unfold Aging.step at e
  split at e
  · cases e
  · cases e
  · rename_i noPolicy noConfig
    obtain ⟨run, own, e⟩ := Option.bind_eq_some_iff.1 e
    split at e
    · cases e
    · rename_i noWrap
      cases e
      exact ⟨own, rfl, Nat.le_of_not_lt noWrap, step_policy own ⟨fun policy => noPolicy policy, fun config => noConfig config⟩⟩

theorem Ranked.step (h : Ranked policy config s) (e : Aging.step s l = some s') : Ranked policy config s' := by
  obtain ⟨own, picks, noWrap, samePolicy, sameConfig⟩ := step_run e
  have policy' := samePolicy.trans h.underPolicy
  have config' := sameConfig.trans h.underConfig
  cases step_queue own with
  | pushed task tasks taskSequence none' =>
    have next : s'.run.taskSequence = s.run.taskSequence + 1 := by omega
    refine ⟨policy', config', fun t mem => ?_, ?_, ?_⟩
    · rw [tasks] at mem
      rcases List.mem_append.1 mem with old | new
      · have below := h.below t old
        omega
      · rw [List.mem_singleton.1 new]
        show s.run.taskSequence < _
        omega
    · rw [tasks]
      refine List.pairwise_append.2 ⟨h.inOrder, List.pairwise_singleton _ _, fun t old u new => ?_⟩
      rw [List.mem_singleton.1 new]
      exact h.below t old
    · rw [picks, none', List.append_nil]
      exact h.first
  | picked w task took tasks taskSequence one =>
    rw [h.underPolicy, h.underConfig] at took tasks
    have takes := takes_of_pick h.distinct took
    have sub := left_sublist takes
    rw [← tasks] at sub
    refine ⟨policy', config', fun t mem => ?_, h.inOrder.sublist sub, fun p mem => ?_⟩
    · rw [taskSequence]
      exact h.below t (sub.subset mem)
    · rw [picks, one] at mem
      rcases List.mem_append.1 mem with old | new
      · exact h.first p old
      · rw [List.mem_singleton.1 new, tasks]
        exact h.takes_first takes
  | same tasks taskSequence none' =>
    refine ⟨policy', config', fun t mem => ?_, tasks ▸ h.inOrder, ?_⟩
    · rw [taskSequence]
      exact h.below t (tasks ▸ mem)
    · rw [picks, none', List.append_nil]
      exact h.first

theorem ranked_of_reach (h : (machine policy config).Reach s) : Ranked policy config s :=
  h.invariant ranked_init fun _ _ _ inv _ e => inv.step e

end Ranked

/-! ## A run without a push -/

/-- What was picked since a state, if nothing was queued since. -/
structure Drains (policy : SchedulePolicy) (config : MLFQConfig) (start s : State) (new : List Pick) : Prop where
  picks : s.picks = start.picks ++ new
  tasks : (new.map Pick.task ++ s.run.tasks).Perm start.run.tasks
  stamps : ∀ p ∈ new, p.taskSequence = start.run.taskSequence
  rest : ∀ p ∈ new, ∀ t ∈ s.run.tasks, t ∈ p.left
  later : new.Pairwise fun p q => q.task ∈ p.left

section Drain

variable {policy : SchedulePolicy} {config : MLFQConfig} {start s s' : State} {l : Run.Label} {ls : List Run.Label}
  {new : List Pick}

theorem Drains.step (h : Drains policy config start s new) (ranked : Ranked policy config s)
    (quiet : s.run.taskSequence = start.run.taskSequence) (e : Aging.step s l = some s')
    (quiet' : s'.run.taskSequence = start.run.taskSequence) : ∃ new', Drains policy config start s' new' := by
  obtain ⟨own, picks, -, -, -⟩ := step_run e
  cases step_queue own with
  | pushed task tasks taskSequence none' => omega
  | picked w task took tasks taskSequence one =>
    have took' := took
    rw [ranked.underPolicy, ranked.underConfig] at took' tasks
    have takes := takes_of_pick ranked.distinct took'
    obtain ⟨pre, post, queue, left, -⟩ := takes.split
    have remains := left_sublist takes
    rw [left] at tasks remains
    have front : task ∈ s.run.tasks := queue ▸ List.mem_append_right _ List.mem_cons_self
    refine ⟨new ++ taken s.run l, ?_, ?_, ?_, ?_, ?_⟩
    · rw [picks, h.picks, List.append_assoc]
    · rw [one, List.map_append, List.append_assoc]
      refine List.Perm.trans (List.Perm.append_left _ ?_) h.tasks
      rw [tasks, queue]
      show (task :: (pre ++ post)).Perm _
      exact List.perm_middle.symm
    · intro p mem
      rw [one] at mem
      rcases List.mem_append.1 mem with old | now
      · exact h.stamps p old
      · rw [List.mem_singleton.1 now]
        exact quiet
    · intro p mem t queued
      rw [one] at mem
      rcases List.mem_append.1 mem with old | now
      · exact h.rest p old t (remains.subset (tasks ▸ queued))
      · rw [List.mem_singleton.1 now]
        exact queued
    · rw [one]
      refine List.pairwise_append.2 ⟨h.later, List.pairwise_singleton _ _, fun p old q now => ?_⟩
      rw [List.mem_singleton.1 now]
      exact h.rest p old task front
  | same tasks taskSequence none' =>
    rw [none', List.append_nil] at picks
    exact ⟨new, picks.trans h.picks, tasks ▸ h.tasks, h.stamps, tasks ▸ h.rest, h.later⟩

theorem taskSequence_le (run : (machine policy config).exec s ls = some s') :
    s.run.taskSequence ≤ s'.run.taskSequence := by
  induction ls generalizing s with
  | nil =>
    cases run
    exact le_rfl
  | cons l ls ih =>
    obtain ⟨next, e, run⟩ := Option.bind_eq_some_iff.1 run
    obtain ⟨-, -, noWrap, -, -⟩ := step_run e
    exact noWrap.trans (ih run)

theorem drains_of_exec (ranked : Ranked policy config s) (h : Drains policy config start s new)
    (quiet : s.run.taskSequence = start.run.taskSequence) (run : (machine policy config).exec s ls = some s')
    (quiet' : s'.run.taskSequence = start.run.taskSequence) : ∃ new', Drains policy config start s' new' := by
  induction ls generalizing s new with
  | nil =>
    cases run
    exact ⟨new, h⟩
  | cons l ls ih =>
    obtain ⟨next, e, run⟩ := Option.bind_eq_some_iff.1 run
    obtain ⟨-, -, noWrap, -, -⟩ := step_run e
    have more := taskSequence_le run
    have still : next.run.taskSequence = start.run.taskSequence := by omega
    obtain ⟨new', drains⟩ := h.step ranked quiet e still
    exact ih (ranked.step e) drains still run

/-- The picks of a run without a push, in order; `fits` says that no pinning is in the way. -/
theorem sorted_of_exec (h : (machine policy config).Reach start) (run : (machine policy config).exec start ls = some s)
    (quiet : s.run.taskSequence = start.run.taskSequence)
    (fits : ∀ p ∈ s.picks.drop start.picks.length, ∀ t ∈ start.run.tasks, t.Fits p.worker) :
    ((s.picks.drop start.picks.length).map Pick.task ++ s.run.tasks).Perm start.run.tasks ∧
      (s.picks.drop start.picks.length).Pairwise (fun p q =>
        p.task.key policy config start.run.taskSequence < q.task.key policy config start.run.taskSequence) ∧
      ∀ p ∈ s.picks.drop start.picks.length, ∀ t ∈ s.run.tasks,
        p.task.key policy config start.run.taskSequence < t.key policy config start.run.taskSequence := by
  have fresh : Drains policy config start start [] := ⟨(List.append_nil _).symm, .refl _, nofun, nofun, .nil⟩
  obtain ⟨new, drains⟩ := drains_of_exec (ranked_of_reach h) fresh rfl run quiet
  have ranked := ranked_of_reach (h.exec_of run)
  have all : s.picks.drop start.picks.length = new := by rw [drains.picks, List.drop_left]
  rw [all] at fits ⊢
  have less {p : Pick} {t : Task} (mem : p ∈ new) (left : t ∈ p.left) (queued : t ∈ start.run.tasks) :
      p.task.key policy config start.run.taskSequence < t.key policy config start.run.taskSequence := by
    have here : p ∈ s.picks := drains.picks ▸ List.mem_append_right _ mem
    rw [← drains.stamps p mem]
    exact (ranked.first p here).2 t left (fits p mem t queued)
  have queued {t : Task} (mem : t ∈ new.map Pick.task ++ s.run.tasks) : t ∈ start.run.tasks := drains.tasks.mem_iff.1 mem
  refine ⟨drains.tasks, ?_, fun p mem t left => ?_⟩
  · refine drains.later.imp_of_mem fun memP memQ left => ?_
    exact less memP left (queued (List.mem_append_left _ (List.mem_map_of_mem memQ)))
  · exact less mem (drains.rest p mem t left) (queued (List.mem_append_right _ left))

end Drain

/-- **Main theorem.** Under any policy and configuration, whatever the workers do: a pick
takes a task that the policy puts before every other one that its worker could have
taken; and while nothing is queued, tasks that may run on every worker that picks are
taken in the order of the policy, each before all that stay. -/
theorem picks_in_order (policy : SchedulePolicy) (config : MLFQConfig) (start s : State) (ls : List Run.Label)
    (h : (machine policy config).Reach start) (run : (machine policy config).exec start ls = some s) :
    (∀ p ∈ s.picks, p.task.Fits p.worker ∧ ∀ t ∈ p.left, t.Fits p.worker →
        p.task.key policy config p.taskSequence < t.key policy config p.taskSequence) ∧
      (s.run.taskSequence = start.run.taskSequence →
        (∀ p ∈ s.picks.drop start.picks.length, ∀ t ∈ start.run.tasks, t.Fits p.worker) →
          ((s.picks.drop start.picks.length).map Pick.task ++ s.run.tasks).Perm start.run.tasks ∧
          (s.picks.drop start.picks.length).Pairwise (fun p q =>
            p.task.key policy config start.run.taskSequence < q.task.key policy config start.run.taskSequence) ∧
          ∀ p ∈ s.picks.drop start.picks.length, ∀ t ∈ s.run.tasks,
            p.task.key policy config start.run.taskSequence < t.key policy config start.run.taskSequence) :=
  ⟨(ranked_of_reach (h.exec_of run)).first, sorted_of_exec h run⟩

/-- Two callbacks, the later one with the earlier deadline. -/
def queueTwo : List Run.Label := [.schedule (.cb 0) { deadlineMs := 9 }, .schedule (.cb 1) { deadlineMs := 5 }]

/-- Worker 1 runs a callback to its end and picks the next task. -/
def runOne : List Run.Label :=
  [.run 1, .run 1, .run 1, .run 1, .finish 1, .run 1, .run 1, .run 1, .run 1, .run 1, .run 1]

/-- Both are taken, the later one first. -/
theorem picks_in_order_edf : ∃ start s, (machine .edf {}).Reach start ∧ (machine .edf {}).exec start runOne = some s ∧
    (s.picks.drop start.picks.length).map (·.task.job) = [.cb 1, .cb 0] ∧
      (s.picks.drop start.picks.length).Pairwise (fun p q =>
        p.task.key .edf {} start.run.taskSequence < q.task.key .edf {} start.run.taskSequence) := by
  have reached := Machine.reach_of_exec (rfl : (machine .edf {}).exec (machine .edf {}).init queueTwo = some _)
  refine ⟨_, _, reached, rfl, by decide, ?_⟩
  exact ((picks_in_order .edf {} _ _ runOne reached rfl).2 rfl (by decide)).2.1

/-! ## Deadlines -/

/-- When a task is due; never, without a deadline. -/
def due (t : Task) : WithTop ℕ := if t.hasDeadline then (t.deadlineMs : WithTop ℕ) else ⊤

theorem due_le_of_key {policy : SchedulePolicy} {config : MLFQConfig} {taskSequence : Nat} {t u : Task}
    (byDeadline : policy = .edf ∨ policy = .hybrid) (less : t.key policy config taskSequence < u.key policy config taskSequence) :
    due t ≤ due u := by
  have first : (if t.hasDeadline then 0 else 1) < (if u.hasDeadline then 0 else 1) ∨
      (if t.hasDeadline then 0 else 1) = (if u.hasDeadline then 0 else 1) ∧ t.deadlineMs ≤ u.deadlineMs := by
    rcases byDeadline with rfl | rfl <;> simp only [Task.key, Task.key_lt_iff, lt_self_iff_false, true_and, false_or] at less <;>
      omega
  unfold due
  cases left : t.hasDeadline <;> cases right : u.hasDeadline <;> simp [left, right] at first ⊢
  exact first

/-- **Main theorem.** Under `EDF` and `HYBRID`, tasks that are drained without a push
and run one after the other, each for a time of its own, keep within whatever bounds on
lateness they could keep within in any order. -/
theorem drains_on_time (policy : SchedulePolicy) (config : MLFQConfig) (start s : State) (ls : List Run.Label)
    (byDeadline : policy = .edf ∨ policy = .hybrid) (h : (machine policy config).Reach start)
    (run : (machine policy config).exec start ls = some s) (quiet : s.run.taskSequence = start.run.taskSequence)
    (drained : s.run.tasks = [])
    (fits : ∀ p ∈ s.picks.drop start.picks.length, ∀ t ∈ start.run.tasks, t.Fits p.worker)
    (time : Task → ℕ) (now : ℕ) (accepts : ℕ → WithTop ℕ → Prop) (favours : Lateness.Favours accepts)
    (order : List Task) (perm : order.Perm start.run.tasks) (other : Lateness.Meets time due accepts now order) :
    Lateness.Meets time due accepts now ((s.picks.drop start.picks.length).map Pick.task) := by
  obtain ⟨all, sorted, -⟩ := sorted_of_exec h run quiet fits
  rw [drained, List.append_nil] at all
  refine Lateness.meets_of_sorted (fun _ => Nat.zero_le _) favours ?_ (all.trans perm.symm) other
  rw [List.pairwise_map]
  exact sorted.imp fun less => due_le_of_key byDeadline less

/-- Callbacks that take 2 each meet their deadlines in the order in which they were queued,
and so they do in the order in which they are taken. -/
theorem drains_on_time_two : ∃ start s, (machine .edf {}).Reach start ∧ (machine .edf {}).exec start runOne = some s ∧
    Lateness.Meets (fun _ => (2 : ℕ)) due (fun c d => (c : WithTop ℕ) ≤ d) (0 : ℕ)
      ((s.picks.drop start.picks.length).map Pick.task) := by
  have reached := Machine.reach_of_exec (rfl : (machine .edf {}).exec (machine .edf {}).init queueTwo = some _)
  refine ⟨_, _, reached, rfl, ?_⟩
  refine drains_on_time .edf {} _ _ runOne (.inl rfl) reached rfl rfl rfl (by decide) (fun _ => 2) 0
    (fun c d => (c : WithTop ℕ) ≤ d) (fun c c' d d' sooner later met => ?_)
    [{ job := .cb 0, deadlineMs := 9, sequence := 0 }, { job := .cb 1, deadlineMs := 5, sequence := 1 }] (.refl _) ?_
  · exact (WithTop.coe_le_coe.2 sooner).trans (met.trans later)
  · intro p mem
    simp only [Lateness.completions, List.mem_cons, List.not_mem_nil, or_false] at mem
    rcases mem with rfl | rfl
    · show ((2 : ℕ) : WithTop ℕ) ≤ ((9 : ℕ) : WithTop ℕ)
      exact WithTop.coe_le_coe.2 (by decide)
    · show ((4 : ℕ) : WithTop ℕ) ≤ ((5 : ℕ) : WithTop ℕ)
      exact WithTop.coe_le_coe.2 (by decide)

end Mycoroutine.PickOrder
