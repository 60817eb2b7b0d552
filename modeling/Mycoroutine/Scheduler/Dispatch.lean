import Mycoroutine.Scheduler.Run
import Mathlib.Data.Set.Card

/-!
# Dispatch and `stopping()`

The `run` machine with `m_stopping` and a history of every task: when it was
pushed, which worker took it, and when its `resume` returned or it was skipped.
Pushed tasks are the queued, the running and the finished ones, and the active
count is the number of workers that took a task and did not count it off, so
`stopping()` holds only once every task has run.
-/

namespace Mycoroutine.Dispatch
set_option autoImplicit false
open Interleave Machine

/-- The lists besides `m_stopping` are history; no step reads them. -/
structure State where
  run : Run.State
  mStopping : Bool
  pushed : List Task
  /-- What a pick took, and for which worker. -/
  handed : List (Worker × Task)
  /-- Taken, with `resume` still to return. -/
  running : List (Worker × Task)
  finished : List Task

inductive Label where
  | own (l : Run.Label)
  | stop

/-- Between a pick and the return of `resume`, or the test that skips it. -/
def Executes : Run.Pc → Prop
  | .acquire _ | .lock _ | .test _ _ | .resume _ | .inside _ _ _ => True
  | _ => False

namespace State

def logPush (s : State) (t : Task) : State := { s with pushed := s.pushed ++ [t] }

def logPick (s : State) (w : Worker) (t : Task) : State :=
  { s with handed := s.handed ++ [(w, t)], running := s.running ++ [(w, t)] }

def logEnd (s : State) (w : Worker) : State :=
  { s with running := s.running.filter (·.1 ≠ w), finished := s.finished ++ (s.running.filter (·.1 = w)).map (·.2) }

/-- What the step `l` from `before` adds to the history. -/
def log (s : State) (before : Run.State) : Run.Label → State
  | .schedule job options => s.logPush { options.task job with sequence := before.taskSequence }
  | .run w =>
    match before.pc w with
    | .pick =>
      let picked := pickNextTaskLocked before.policy before.mlfqConfig before.taskSequence before.tasks w
      match picked.task with
      | some t => s.logPick w t
      | none => s
    | .test _ f => if before.state f = .term then s.logEnd w else s
    | .inside _ (x :: _) .leaving => if before.parent x = none then s.logEnd w else s
    | .requeue t f =>
      if before.Requeues f then s.logPush { before.demoted t with sequence := before.taskSequence } else s
    | _ => s
  | _ => s

def stopping (s : State) : Bool := Scheduler.stopping s.mStopping s.run.tasks s.run.activeThreadCount

end State

def step (s : State) : Label → Option State
  | .own l => (Run.step s.run l).map fun run => { s with run }.log s.run l
  | .stop => some { s with mStopping := true }

def machine : Machine State Label where
  init := { run := Run.machine.init, mStopping := false, pushed := [], handed := [], running := [], finished := [] }
  step := step

/-- Every task is accounted for. -/
structure Accounted (s : State) : Prop where
  pushed : s.pushed.Perm (s.run.tasks ++ s.handed.map (·.2))
  fits : ∀ p ∈ s.handed, p.2.matchThread p.1 = true
  handed : (s.handed.map (·.2)).Perm (s.running.map (·.2) ++ s.finished)
  workers : (s.running.map (·.1)).Nodup
  runs : ∀ w, w ∈ s.running.map (·.1) ↔ Executes (s.run.pc w)
  busy : {w | s.run.pc w ≠ .pick}.encard = s.run.activeThreadCount

section Steps

variable {s : State} {run : Run.State} {w : Worker}

theorem accounted_init : Accounted machine.init where
  pushed := .nil
  fits := nofun
  handed := .nil
  workers := .nil
  runs w := ⟨nofun, nofun⟩
  busy := by simp [machine, Run.machine]

/-- The workers that are busy when one of them moves on. -/
theorem busy_update {pc : Worker → Run.Pc} {after : Run.Pc} (busy : pc w ≠ .pick) (still : after ≠ .pick) :
    {v | Function.update pc w after v ≠ .pick} = {v | pc v ≠ .pick} := by
  ext v
  by_cases same : v = w
  · subst same
    simp [busy, still]
  · simp [same]

/-- A worker goes on, without an end of what it executes. -/
theorem Accounted.turn {after : Run.Pc} (h : Accounted s) (pcs : run.pc = Function.update s.run.pc w after)
    (tasks : run.tasks = s.run.tasks) (count : run.activeThreadCount = s.run.activeThreadCount)
    (busy : s.run.pc w ≠ .pick) (still : after ≠ .pick) (same : Executes after ↔ Executes (s.run.pc w)) :
    Accounted { s with run } where
  pushed := by simpa only [tasks] using h.pushed
  fits := h.fits
  handed := h.handed
  workers := h.workers
  runs v := by
    rw [h.runs v, pcs]
    by_cases mine : v = w
    · subst mine
      rw [Function.update_self, same]
    · rw [Function.update_of_ne mine]
  busy := by
    rw [pcs, count, busy_update busy still]
    exact h.busy

/-- The `resume` of a worker returns, or the worker skips its task. -/
theorem Accounted.ended {after : Run.Pc} (h : Accounted s) (pcs : run.pc = Function.update s.run.pc w after)
    (tasks : run.tasks = s.run.tasks) (count : run.activeThreadCount = s.run.activeThreadCount)
    (before : Executes (s.run.pc w)) (still : after ≠ .pick) (dead : ¬ Executes after) :
    Accounted ({ s with run }.logEnd w) where
  pushed := by simpa only [State.logEnd, tasks] using h.pushed
  fits := h.fits
  handed := by
    have parts : (s.running.filter (·.1 ≠ w) ++ s.running.filter (·.1 = w)).Perm s.running := by
      refine List.perm_append_comm.trans ?_
      simpa using List.filter_append_perm (fun p : Worker × Task => decide (p.1 = w)) s.running
    have moved := (parts.map (·.2)).symm.append_right s.finished
    rw [List.map_append, List.append_assoc] at moved
    exact h.handed.trans (moved.trans (List.perm_append_comm.append_left _))
  workers := h.workers.sublist (List.filter_sublist.map _)
  runs v := by
    have kept : v ∈ (s.running.filter (·.1 ≠ w)).map (·.1) ↔ v ≠ w ∧ v ∈ s.running.map (·.1) := by
      simp only [List.mem_map, List.mem_filter, decide_eq_true_eq]
      constructor
      · rintro ⟨p, ⟨here, other⟩, rfl⟩
        exact ⟨other, p, here, rfl⟩
      · rintro ⟨other, p, here, rfl⟩
        exact ⟨p, ⟨here, other⟩, rfl⟩
    simp only [State.logEnd, kept, h.runs v, pcs]
    by_cases mine : v = w
    · subst mine
      simp [dead]
    · simp [mine]
  busy := by
    have busy : s.run.pc w ≠ .pick := fun idle => by simp [idle, Executes] at before
    simp only [State.logEnd, pcs, count, busy_update busy still]
    exact h.busy

/-- A worker takes a task. -/
theorem Accounted.took {after : Run.Pc} {pre post : List Task} {t : Task} (h : Accounted s)
    (pcs : run.pc = Function.update s.run.pc w after) (queue : s.run.tasks = pre ++ t :: post)
    (tasks : run.tasks = pre ++ post) (count : run.activeThreadCount = s.run.activeThreadCount + 1)
    (idle : s.run.pc w = .pick) (executes : Executes after) (fits : t.matchThread w = true) :
    Accounted ({ s with run }.logPick w t) where
  pushed := by
    have queued := h.pushed
    simp only [queue] at queued
    simp only [State.logPick, tasks, List.map_append, List.map_cons, List.map_nil]
    refine queued.trans ((List.perm_middle.append_right _).trans ?_)
    rw [List.cons_append, ← List.append_assoc]
    exact (List.perm_append_singleton t _).symm
  fits p mem := by
    rcases List.mem_append.1 mem with old | new
    · exact h.fits p old
    · rw [List.mem_singleton.1 new]
      exact fits
  handed := by
    simp only [State.logPick, List.map_append, List.map_cons, List.map_nil, List.append_assoc, List.singleton_append]
    exact (List.perm_append_singleton t _).trans ((h.handed.cons t).trans List.perm_middle.symm)
  workers := by
    have away : w ∉ s.running.map (·.1) := fun here => by
      have := (h.runs w).1 here
      simp [idle, Executes] at this
    simp only [State.logPick, List.map_append, List.map_cons, List.map_nil]
    exact (List.perm_append_singleton w _).nodup_iff.2 (List.nodup_cons.2 ⟨away, h.workers⟩)
  runs v := by
    have split : v ∈ (s.running ++ [(w, t)]).map (·.1) ↔ v ∈ s.running.map (·.1) ∨ v = w := by simp
    simp only [State.logPick, split, h.runs v, pcs]
    by_cases mine : v = w
    · subst mine
      simp [executes]
    · simp [mine]
  busy := by
    have here : {v | Function.update s.run.pc w after v ≠ .pick} = insert w {v | s.run.pc v ≠ .pick} := by
      ext v
      by_cases mine : v = w
      · subst mine
        have : after ≠ .pick := fun same => by simp [same, Executes] at executes
        simp [this]
      · simp [mine]
    simp only [State.logPick, pcs, count, here]
    rw [Set.encard_insert_of_notMem (by simp [idle]), h.busy]
    simp

/-- A task is pushed. -/
theorem Accounted.push {t : Task} (h : Accounted s) (pcs : run.pc = s.run.pc) (tasks : run.tasks = s.run.tasks ++ [t])
    (count : run.activeThreadCount = s.run.activeThreadCount) : Accounted ({ s with run }.logPush t) where
  pushed := by
    simp only [State.logPush, tasks, List.append_assoc, List.singleton_append]
    exact (List.perm_append_singleton t _).trans ((h.pushed.cons t).trans List.perm_middle.symm)
  fits := h.fits
  handed := h.handed
  workers := h.workers
  runs := by simpa only [State.logPush, pcs] using h.runs
  busy := by simpa only [State.logPush, pcs, count] using h.busy

/-- A worker is done with its task. -/
theorem Accounted.counted (h : Accounted s) (pcs : run.pc = Function.update s.run.pc w .pick)
    (tasks : run.tasks = s.run.tasks) (count : run.activeThreadCount = s.run.activeThreadCount - 1)
    (here : s.run.pc w = .finish) : Accounted { s with run } where
  pushed := by simpa only [tasks] using h.pushed
  fits := h.fits
  handed := h.handed
  workers := h.workers
  runs v := by
    rw [h.runs v, pcs]
    by_cases mine : v = w
    · subst mine
      simp [here, Executes]
    · rw [Function.update_of_ne mine]
  busy := by
    have left : {v | Function.update s.run.pc w .pick v ≠ .pick} = {v | s.run.pc v ≠ .pick} \ {w} := by
      ext v
      by_cases mine : v = w <;> simp [mine]
    rw [pcs, left, Set.encard_sdiff_singleton_of_mem (by simp [here]), h.busy, count]
    simp

theorem Accounted.pick (h : Accounted s) (here : s.run.pc w = .pick) :
    Accounted ({ s with run := s.run.pickTask w }.log s.run (.run w)) := by
  simp only [State.log, here, Run.State.pickTask]
  cases taken : (pickNextTaskLocked s.run.policy s.run.mlfqConfig s.run.taskSequence s.run.tasks w).task with
  | none => exact h
  | some t =>
    obtain ⟨pre, post, queue, left, fits⟩ := pick_some rfl taken
    refine h.took rfl queue left rfl here ?_ fits
    cases job : t.job <;> simp [Executes]

/-- What a step of `run` does to the history follows from what it does. -/
theorem Accounted.move {l : Run.Label} (h : Accounted s) (move : Run.Moves s.run l run)
    (busy : ∀ w, l = .run w → s.run.pc w ≠ .pick) : Accounted ({ s with run }.log s.run l) := by
  cases move with
  | created => exact ⟨h.pushed, h.fits, h.handed, h.workers, h.runs, h.busy⟩
  | setPolicy | setMLFQConfig | setMaxCachedPerKey => exact ⟨h.pushed, h.fits, h.handed, h.workers, h.runs, h.busy⟩
  | scheduled job options known => exact h.push rfl rfl rfl
  | pickedFiber w here | pickedCallback w here | idle w here => exact absurd here (busy w rfl)
  | reused w cb here | built w cb here | lockedTask w _ _ here | lockedCallback w _ here | resumed w _ here
  | entered w _ _ _ here | unlockedTask w _ _ here | unlockedCallback w _ here | cached w _ here
  | dropped w _ here =>
    simp only [State.log, here]
    exact h.turn (w := w) rfl rfl rfl (by simp [here]) (by simp) (by simp [here, Executes])
  | returned w work x p rest here parent =>
    simp only [State.log, here, parent, reduceCtorEq, if_false]
    exact h.turn (w := w) rfl rfl rfl (by simp [here]) (by simp) (by simp [here, Executes])
  | yielded w work x rest here | finished w work x rest here =>
    exact h.turn (w := w) rfl rfl rfl (by simp [here]) (by simp) (by simp [here, Executes])
  | requeued w t f here requeues =>
    simp only [State.log, here, requeues, if_true]
    refine Accounted.push (s := { s with run := { s.run with pc := Function.update s.run.pc w .finish } }) ?_ rfl rfl rfl
    exact h.turn (w := w) rfl rfl rfl (by simp [here]) (by simp) (by simp [here, Executes])
  | done w here =>
    simp only [State.log, here]
    exact h.counted (w := w) rfl rfl rfl here
  | turned l w before after here turns =>
    cases turns with
    | skipped dead =>
      simp only [State.log, here, dead, if_true]
      exact h.ended (w := w) rfl rfl rfl (by simp [here, Executes]) (by simp) (by simp [Executes])
    | switchedOut root =>
      simp only [State.log, here, root, if_true]
      exact h.ended (w := w) rfl rfl rfl (by simp [here, Executes]) (by simp) (by simp [Executes])
    | tested alive =>
      simp only [State.log, here, alive, if_false]
      exact h.turn (w := w) rfl rfl rfl (by simp [here]) (by simp) (by simp [here, Executes])
    | kept stays =>
      simp only [State.log, here, stays, if_false]
      exact h.turn (w := w) rfl rfl rfl (by simp [here]) (by simp) (by simp [here, Executes])
    | dead isOver | notOver isOver =>
      simp only [State.log, here]
      exact h.turn (w := w) rfl rfl rfl (by simp [here]) (by simp) (by simp [here, Executes])
    | asked known ready other | yieldedOver dead =>
      exact h.turn (w := w) rfl rfl rfl (by simp [here]) (by simp) (by simp [here, Executes])
  | refused w g reason => exact h

theorem Accounted.step {s' : State} {l : Label} (h : Accounted s) (e : step s l = some s') : Accounted s' := by
  cases l with
  | stop =>
    cases e
    exact ⟨h.pushed, h.fits, h.handed, h.workers, h.runs, h.busy⟩
  | own l =>
    obtain ⟨run, moved, rfl⟩ := Option.map_eq_some_iff.1 e
    by_cases picks : ∃ w, l = .run w ∧ s.run.pc w = .pick
    · obtain ⟨w, rfl, here⟩ := picks
      simp only [Run.step, Run.State.advance, here, Option.some.injEq] at moved
      subst moved
      exact h.pick here
    · exact h.move (Run.step_moves moved) fun w own here => picks ⟨w, own, here⟩

theorem accounted_of_reach (h : machine.Reach s) : Accounted s :=
  h.invariant accounted_init fun _ _ _ inv _ e => inv.step e

end Steps

/-- What `Scheduler` promises: a pushed task is queued or was handed to one
worker that may run it, what was handed out runs or finished, the active count
is right, and `stopping()` waits for every task. -/
structure State.Sound (s : State) : Prop where
  handedOnce : s.pushed.Perm (s.run.tasks ++ s.handed.map (·.2))
  fits : ∀ w t, (w, t) ∈ s.handed → t.thread = -1 ∨ t.thread = w
  accounted : s.pushed.Perm (s.run.tasks ++ s.running.map (·.2) ++ s.finished)
  runs : (s.running.map (·.1)).Nodup ∧ ∀ w, w ∈ s.running.map (·.1) ↔ Executes (s.run.pc w)
  active : {w | s.run.pc w ≠ .pick}.encard = s.run.activeThreadCount
  stops : s.stopping = true →
    s.run.tasks = [] ∧ s.running = [] ∧ s.pushed.Perm (s.handed.map (·.2)) ∧ s.pushed.Perm s.finished

/-- **Main theorem.** In every state of every run, whatever the policy. -/
theorem dispatches_once (s : State) (h : machine.Reach s) : s.Sound := by
  obtain ⟨pushed, fits, handed, workers, runs, busy⟩ := accounted_of_reach h
  have accounted : s.pushed.Perm (s.run.tasks ++ s.running.map (·.2) ++ s.finished) := by
    rw [List.append_assoc]
    exact pushed.trans (handed.append_left _)
  refine ⟨pushed, fun w t mem => ?_, accounted, ⟨workers, runs⟩, busy, fun stops => ?_⟩
  · simpa [Task.matchThread] using fits (w, t) mem
  · obtain ⟨-, empty, zero⟩ := Scheduler.stopping_iff.1 stops
    -- nobody is past a pick, so nobody executes a task
    have idle : s.running = [] := by
      rw [zero, Nat.cast_zero, Set.encard_eq_zero, Set.eq_empty_iff_forall_notMem] at busy
      refine List.eq_nil_iff_forall_not_mem.2 fun p mem => ?_
      have executes := (runs p.1).1 (List.mem_map_of_mem mem)
      have away : s.run.pc p.1 = .pick := by simpa using busy p.1
      simp [away, Executes] at executes
    rw [empty, List.nil_append] at pushed
    rw [empty, idle] at accounted
    exact ⟨empty, idle, pushed, accounted⟩

/-- A pinned callback yields, a second worker finishes its fiber, and then
`stopping()` holds. -/
theorem dispatches_once_stopping : ∃ s, machine.Reach s ∧ s.stopping = true ∧ s.finished.length = 2 ∧ s.Sound := by
  have reached := reach_of_exec (rfl : machine.exec machine.init
    [.own (.schedule (.cb 0) { thread := 1 }), .own (.run 1), .own (.run 1), .own (.run 1), .own (.run 1),
      .own (.schedule (.fiber 0) {}), .stop, .own (.yield 1), .own (.run 1), .own (.run 2), .own (.run 1),
      .own (.run 2), .own (.run 1), .own (.run 2), .own (.run 1), .own (.run 2), .own (.finish 2), .own (.run 2),
      .own (.run 2), .own (.run 2), .own (.run 2)] = some _)
  exact ⟨_, reached, rfl, rfl, dispatches_once _ reached⟩

end Mycoroutine.Dispatch
