import Mycoroutine.Interleave.Machine
import Mycoroutine.Fiber.Thread
import Mycoroutine.Scheduler.Task

/-!
# The workers' `run` loops

Any number of workers share the queue, the coroutine pool and the fibers. A
worker's `pc` is its place in `run()`; while it executes fibers, `nest` lists
those it is inside of, the executing one first and the one `resume()` entered
last. `yield()` stores the state and switches out in two steps, because other
workers may read the state in between.

A fiber is a name here: the stacks are the subject of `Fiber.Thread`, and the
fibers of a scheduler run with `m_runInScheduler`. The code inside a fiber is
arbitrary, so a schedule, by fibers or from outside, is a step of its own, and
`tickle` and `idle` are left to `IOManager`.
-/

namespace Mycoroutine.Run
set_option autoImplicit false
open Interleave

/-- What a worker took from the queue: a task with its fiber, or a callback in
the fiber `acquire` gave it. -/
inductive Work where
  | task (t : Task) (f : Ref)
  | callback (f : Ref)

/-- `task.fiber`, or `cb_fiber`. -/
def Work.fiber : Work → Ref
  | .task _ f => f
  | .callback f => f

/-- How far the executing fiber is. `calling` is inside `call()` after its test
of `m_state`; `leaving` is inside `yield()` after its store. -/
inductive Phase where
  | code
  | calling (g : Ref)
  | leaving
deriving DecidableEq

/-- Where a worker stands in `run()`. -/
inductive Pc where
  | pick
  | acquire (cb : Nat)
  | lock (work : Work)
  | test (t : Task) (f : Ref)
  | resume (work : Work)
  | inside (work : Work) (nest : List Ref) (phase : Phase)
  | unlock (work : Work)
  | requeue (t : Task) (f : Ref)
  | testTerm (f : Ref)
  | release (f : Ref)
  | finish

/-- The fibers a worker is inside of. -/
def Pc.nest : Pc → List Ref
  | .inside _ nest _ => nest
  | _ => []

/-- What a worker is busy with, once it has a fiber for it. -/
def Pc.work : Pc → Option Work
  | .lock work | .resume work | .inside work _ _ | .unlock work => some work
  | .test t f | .requeue t f => some (.task t f)
  | .testTerm f | .release f => some (.callback f)
  | .pick | .acquire _ | .finish => none

/-- The fiber whose `m_mutex` a worker holds. -/
def Pc.guards : Pc → Option Ref
  | .test _ f => some f
  | .resume work | .inside work _ _ | .unlock work => some work.fiber
  | _ => none

structure State where
  policy : SchedulePolicy
  mlfqConfig : MLFQConfig
  taskSequence : Nat
  tasks : List Task
  activeThreadCount : Nat
  pc : Worker → Pc
  /-- `Fiber::m_mutex`. -/
  holder : Ref → Option Worker
  /-- `Fiber::m_state`. -/
  state : Ref → Fiber.State
  /-- `Fiber::m_parent`, set while `m_returnToParent` is. -/
  parent : Ref → Option Ref
  created : Ref
  /-- The bucket of `m_coroutinePool` that `run` uses, its back first. -/
  pool : List Ref
  maxCachedPerKey : Nat

/-- One atomic step. `run` is the next step of a worker, in `run()` or inside
`call()` and `yield()`; `call`, `yield` and `finish` are what the code of the
executing fiber does next, `finish` being the end of its callback. -/
inductive Label where
  | create
  | schedule (job : Job) (options : ScheduleOptions)
  | setPolicy (policy : SchedulePolicy)
  | setMLFQConfig (config : MLFQConfig)
  | setMaxCachedPerKey (n : Nat)
  | run (w : Worker)
  | call (w : Worker) (g : Ref)
  | yield (w : Worker)
  | finish (w : Worker)

/-- The worker that takes the step. -/
def Label.worker : Label → Option Worker
  | .run w | .call w _ | .yield w | .finish w => some w
  | _ => none

namespace State

def setPc (s : State) (w : Worker) (pc : Pc) : State := { s with pc := Function.update s.pc w pc }

def setState (s : State) (f : Ref) (state : Fiber.State) : State :=
  { s with state := Function.update s.state f state }

/-- The fibers that exist: a task or a call can name no other. -/
def Exists (s : State) (f : Ref) : Prop := f < s.created

instance (s : State) (f : Ref) : Decidable (s.Exists f) := inferInstanceAs (Decidable (_ < _))

/-- `m_taskSequence++` and `emplace_back`. -/
def push (s : State) (task : Task) : State :=
  { s with tasks := s.tasks ++ [{ task with sequence := s.taskSequence }],
           taskSequence := (s.taskSequence + 1) % 2 ^ 64 }

/-- The locked section of `scheduleEx`. -/
def scheduleEx (s : State) (job : Job) (options : ScheduleOptions) : State := s.push (options.task job)

/-- `pickNextTaskLocked`; a worker that finds nothing runs its idle fiber and
comes back. -/
def pickTask (s : State) (w : Worker) : State :=
  let picked := pickNextTaskLocked s.policy s.mlfqConfig s.taskSequence s.tasks w
  match picked.task with
  | none => s
  | some task =>
    let pc := match task.job with
      | .fiber f => Pc.lock (.task task f)
      | .cb callback => Pc.acquire callback
    { s with tasks := picked.tasks, activeThreadCount := s.activeThreadCount + 1, pc := Function.update s.pc w pc }

/-- A worker at its pick finds no task. -/
def findsNone (s : State) (w : Worker) : Bool :=
  match s.pc w with
  | .pick => (pickNextTaskLocked s.policy s.mlfqConfig s.taskSequence s.tasks w).task.isNone
  | _ => false

theorem pick_of_findsNone {s : State} {w : Worker} (none' : s.findsNone w = true) : s.pc w = .pick := by
  unfold findsNone at none'
  split at none'
  · assumption
  · cases none'

/-- `CoroutinePool::acquire`; `none` when the assertion of `reset` fails. -/
def acquire (s : State) (w : Worker) : Option State :=
  match s.pool with
  | f :: pool =>
    if s.state f = .term then
      some { s with pool, state := Function.update s.state f .ready, parent := Function.update s.parent f none,
                    pc := Function.update s.pc w (.lock (.callback f)) }
    else none
  | [] =>
    some { s with created := s.created + 1, state := Function.update s.state s.created .ready,
                  parent := Function.update s.parent s.created none,
                  pc := Function.update s.pc w (.lock (.callback s.created)) }

/-- Takes the fiber's `m_mutex`. Only a fiber task is tested for `TERM` next. -/
def lockFiber (s : State) (w : Worker) (work : Work) : Option State :=
  match s.holder work.fiber with
  | some _ => none
  | none =>
    let pc := match work with
      | .task t f => Pc.test t f
      | .callback f => Pc.resume (.callback f)
    some { s with holder := Function.update s.holder work.fiber (some w), pc := Function.update s.pc w pc }

/-- `Fiber::resume`; `none` when its assertion fails. -/
def resume (s : State) (w : Worker) (work : Work) : Option State :=
  if s.state work.fiber = .ready then
    some ((s.setState work.fiber .running).setPc w (.inside work [work.fiber] .code))
  else none

def unlockFiber (s : State) (w : Worker) (work : Work) : State :=
  let pc := match work with
    | .task t f => Pc.requeue t f
    | .callback f => Pc.testTerm f
  { s with holder := Function.update s.holder work.fiber none, pc := Function.update s.pc w pc }

/-- The task `run` puts back under `MLFQ`, demoted. -/
def demoted (s : State) (t : Task) : Task :=
  { t with mlfqLevel := if s.mlfqConfig.demoteOnYield && decide (t.mlfqLevel < s.mlfqConfig.maxLevel)
             then t.mlfqLevel + 1 else t.mlfqLevel,
           sentFor := none }

/-- `mlfq_requeue`. -/
def Requeues (s : State) (f : Ref) : Prop := s.policy = .mlfq ∧ s.state f = .ready

instance (s : State) (f : Ref) : Decidable (s.Requeues f) := inferInstanceAs (Decidable (_ ∧ _))

def requeue (s : State) (w : Worker) (t : Task) (f : Ref) : State :=
  (if s.Requeues f then s.push (s.demoted t) else s).setPc w .finish

/-- `CoroutinePool::release`. -/
def release (s : State) (w : Worker) (f : Ref) : State :=
  { s with pool := if s.state f = .term ∧ s.pool.length < s.maxCachedPerKey then f :: s.pool else s.pool,
           pc := Function.update s.pc w .finish }

/-- The rest of `call()` after its tests; running a finished fiber on aborts. -/
def enter (s : State) (w : Worker) (work : Work) (nest : List Ref) (g : Ref) : Option State :=
  if s.state g = .term then none
  else
    some { s with state := Function.update s.state g .running, parent := Function.update s.parent g nest.head?,
                  pc := Function.update s.pc w (.inside work (g :: nest) .code) }

/-- The switch at the end of `yield()`: `back()` to the parent, which is
suspended in `call()`, or the scheduler's side of `resume()`. -/
def leave (s : State) (w : Worker) (work : Work) : List Ref → Option State
  | [] => none
  | f :: rest =>
    match s.parent f with
    | none => some (s.setPc w (.unlock work))
    | some p =>
      if rest.head? = some p then
        some { s with parent := Function.update s.parent f none,
                      pc := Function.update s.pc w (.inside work rest .code) }
      else none

/-- The next step of a worker on its own. -/
def advance (s : State) (w : Worker) : Option State :=
  match s.pc w with
  | .pick => some (s.pickTask w)
  | .acquire _ => s.acquire w
  | .lock work => s.lockFiber w work
  | .test t f => some (s.setPc w (if s.state f = .term then .unlock (.task t f) else .resume (.task t f)))
  | .resume work => s.resume w work
  | .inside work nest (.calling g) => s.enter w work nest g
  | .inside work nest .leaving => s.leave w work nest
  | .inside _ _ .code => none
  | .unlock work => some (s.unlockFiber w work)
  | .requeue t f => some (s.requeue w t f)
  | .testTerm f => some (s.setPc w (if s.state f = .term then .release f else .finish))
  | .release f => some (s.release w f)
  | .finish => some { s with activeThreadCount := s.activeThreadCount - 1, pc := Function.update s.pc w .pick }

/-- The test of `call()`; it returns an error code to the caller or goes on. -/
def call (s : State) (w : Worker) (g : Ref) : Option State :=
  match s.pc w with
  | .inside work (x :: rest) .code =>
    if s.Exists g then
      if s.state g ≠ .ready ∨ g = x then some s else some (s.setPc w (.inside work (x :: rest) (.calling g)))
    else none
  | _ => none

/-- The store of `yield()`; `none` when its assertion fails. -/
def yield (s : State) (w : Worker) : Option State :=
  match s.pc w with
  | .inside work (x :: rest) .code =>
    match s.state x with
    | .running => some ((s.setState x .ready).setPc w (.inside work (x :: rest) .leaving))
    | .term => some (s.setPc w (.inside work (x :: rest) .leaving))
    | .ready => none
  | _ => none

/-- `MainFunc` after the callback: the store of `TERM`, then `yield()`. -/
def finish (s : State) (w : Worker) : Option State :=
  match s.pc w with
  | .inside work (x :: rest) .code => some ((s.setState x .term).setPc w (.inside work (x :: rest) .leaving))
  | _ => none

@[simp, grind =] theorem job_demoted (s : State) (t : Task) : (s.demoted t).job = t.job := rfl

@[simp, grind =] theorem sentFor_demoted (s : State) (t : Task) : (s.demoted t).sentFor = none := rfl

end State

def step (s : State) : Label → Option State
  | .create =>
    some { s with created := s.created + 1, state := Function.update s.state s.created .ready,
                  parent := Function.update s.parent s.created none }
  | .schedule (.cb callback) options => some (s.scheduleEx (.cb callback) options)
  | .schedule (.fiber f) options => if s.Exists f then some (s.scheduleEx (.fiber f) options) else none
  | .setPolicy policy => some { s with policy }
  | .setMLFQConfig config => some { s with mlfqConfig := config.normalize }
  | .setMaxCachedPerKey n => some { s with maxCachedPerKey := if n = 0 then 1 else n }
  | .run w => s.advance w
  | .call w g => s.call w g
  | .yield w => s.yield w
  | .finish w => s.finish w

def machine : Machine State Label where
  init := {
    policy := .fifo, mlfqConfig := {}, taskSequence := 0, tasks := [], activeThreadCount := 0, pc := fun _ => .pick,
    holder := fun _ => none, state := fun _ => .ready, parent := fun _ => none, created := 0, pool := [],
    maxCachedPerKey := 256 }
  step := step

/-! ## What one step can do -/

/-- Steps that only take a worker from one place in `run()` to another. -/
inductive Turns (s : State) (w : Worker) : Label → Pc → Pc → Prop where
  | skipped {t : Task} {f : Ref} (dead : s.state f = .term) : Turns s w (.run w) (.test t f) (.unlock (.task t f))
  | tested {t : Task} {f : Ref} (alive : s.state f ≠ .term) : Turns s w (.run w) (.test t f) (.resume (.task t f))
  | asked {work : Work} {x : Ref} {rest : List Ref} {g : Ref} (known : s.Exists g) (ready : s.state g = .ready)
      (other : g ≠ x) :
      Turns s w (.call w g) (.inside work (x :: rest) .code) (.inside work (x :: rest) (.calling g))
  | yieldedOver {work : Work} {x : Ref} {rest : List Ref} (dead : s.state x = .term) :
      Turns s w (.yield w) (.inside work (x :: rest) .code) (.inside work (x :: rest) .leaving)
  | switchedOut {work : Work} {x : Ref} {rest : List Ref} (root : s.parent x = none) :
      Turns s w (.run w) (.inside work (x :: rest) .leaving) (.unlock work)
  | kept {t : Task} {f : Ref} (stays : ¬ s.Requeues f) : Turns s w (.run w) (.requeue t f) .finish
  | dead {f : Ref} (dead : s.state f = .term) : Turns s w (.run w) (.testTerm f) (.release f)
  | notOver {f : Ref} (alive : s.state f ≠ .term) : Turns s w (.run w) (.testTerm f) .finish

/-- What one step can do, one case for each branch of the source. -/
inductive Moves (s : State) : Label → State → Prop where
  | created : Moves s .create
      { s with created := s.created + 1, state := Function.update s.state s.created .ready,
               parent := Function.update s.parent s.created none }
  | scheduled (job : Job) (options : ScheduleOptions) (known : ∀ f, job = .fiber f → s.Exists f) :
      Moves s (.schedule job options)
        { s with tasks := s.tasks ++ [{ options.task job with sequence := s.taskSequence }],
                 taskSequence := (s.taskSequence + 1) % 2 ^ 64 }
  | setPolicy (policy : SchedulePolicy) : Moves s (.setPolicy policy) { s with policy }
  | setMLFQConfig (config : MLFQConfig) : Moves s (.setMLFQConfig config) { s with mlfqConfig := config.normalize }
  | setMaxCachedPerKey (n : Nat) :
      Moves s (.setMaxCachedPerKey n) { s with maxCachedPerKey := if n = 0 then 1 else n }
  | pickedFiber (w : Worker) (here : s.pc w = .pick) (pre post : List Task) (t : Task) (f : Ref)
      (job : t.job = .fiber f) (queue : s.tasks = pre ++ t :: post) (fits : t.matchThread w = true) :
      Moves s (.run w) { s with tasks := pre ++ post, activeThreadCount := s.activeThreadCount + 1,
                                pc := Function.update s.pc w (.lock (.task t f)) }
  | pickedCallback (w : Worker) (here : s.pc w = .pick) (pre post : List Task) (t : Task) (cb : Nat)
      (job : t.job = .cb cb) (queue : s.tasks = pre ++ t :: post) (fits : t.matchThread w = true) :
      Moves s (.run w) { s with tasks := pre ++ post, activeThreadCount := s.activeThreadCount + 1,
                                pc := Function.update s.pc w (.acquire cb) }
  | reused (w : Worker) (cb : Nat) (here : s.pc w = .acquire cb) (f : Ref) (pool : List Ref)
      (cached : s.pool = f :: pool) (dead : s.state f = .term) :
      Moves s (.run w) { s with pool, state := Function.update s.state f .ready,
                                parent := Function.update s.parent f none,
                                pc := Function.update s.pc w (.lock (.callback f)) }
  | built (w : Worker) (cb : Nat) (here : s.pc w = .acquire cb) :
      Moves s (.run w) { s with created := s.created + 1, state := Function.update s.state s.created .ready,
                                parent := Function.update s.parent s.created none,
                                pc := Function.update s.pc w (.lock (.callback s.created)) }
  | lockedTask (w : Worker) (t : Task) (f : Ref) (here : s.pc w = .lock (.task t f)) (free : s.holder f = none) :
      Moves s (.run w) { s with holder := Function.update s.holder f (some w),
                                pc := Function.update s.pc w (.test t f) }
  | lockedCallback (w : Worker) (f : Ref) (here : s.pc w = .lock (.callback f)) (free : s.holder f = none) :
      Moves s (.run w) { s with holder := Function.update s.holder f (some w),
                                pc := Function.update s.pc w (.resume (.callback f)) }
  | resumed (w : Worker) (work : Work) (here : s.pc w = .resume work) (ready : s.state work.fiber = .ready) :
      Moves s (.run w) { s with state := Function.update s.state work.fiber .running,
                                pc := Function.update s.pc w (.inside work [work.fiber] .code) }
  | entered (w : Worker) (work : Work) (nest : List Ref) (g : Ref) (here : s.pc w = .inside work nest (.calling g))
      (alive : s.state g ≠ .term) :
      Moves s (.run w) { s with state := Function.update s.state g .running,
                                parent := Function.update s.parent g nest.head?,
                                pc := Function.update s.pc w (.inside work (g :: nest) .code) }
  | yielded (w : Worker) (work : Work) (x : Ref) (rest : List Ref) (here : s.pc w = .inside work (x :: rest) .code)
      (running : s.state x = .running) :
      Moves s (.yield w) { s with state := Function.update s.state x .ready,
                                  pc := Function.update s.pc w (.inside work (x :: rest) .leaving) }
  | finished (w : Worker) (work : Work) (x : Ref) (rest : List Ref) (here : s.pc w = .inside work (x :: rest) .code) :
      Moves s (.finish w) { s with state := Function.update s.state x .term,
                                   pc := Function.update s.pc w (.inside work (x :: rest) .leaving) }
  | returned (w : Worker) (work : Work) (x p : Ref) (rest : List Ref)
      (here : s.pc w = .inside work (x :: p :: rest) .leaving) (parent : s.parent x = some p) :
      Moves s (.run w) { s with parent := Function.update s.parent x none,
                                pc := Function.update s.pc w (.inside work (p :: rest) .code) }
  | unlockedTask (w : Worker) (t : Task) (f : Ref) (here : s.pc w = .unlock (.task t f)) :
      Moves s (.run w) { s with holder := Function.update s.holder f none,
                                pc := Function.update s.pc w (.requeue t f) }
  | unlockedCallback (w : Worker) (f : Ref) (here : s.pc w = .unlock (.callback f)) :
      Moves s (.run w) { s with holder := Function.update s.holder f none,
                                pc := Function.update s.pc w (.testTerm f) }
  | requeued (w : Worker) (t : Task) (f : Ref) (here : s.pc w = .requeue t f) (requeues : s.Requeues f) :
      Moves s (.run w) { s with tasks := s.tasks ++ [{ s.demoted t with sequence := s.taskSequence }],
                                taskSequence := (s.taskSequence + 1) % 2 ^ 64,
                                pc := Function.update s.pc w .finish }
  | cached (w : Worker) (f : Ref) (here : s.pc w = .release f) (dead : s.state f = .term)
      (room : s.pool.length < s.maxCachedPerKey) :
      Moves s (.run w) { s with pool := f :: s.pool, pc := Function.update s.pc w .finish }
  | dropped (w : Worker) (f : Ref) (here : s.pc w = .release f)
      (refused : ¬ (s.state f = .term ∧ s.pool.length < s.maxCachedPerKey)) : 
      Moves s (.run w) { s with pc := Function.update s.pc w .finish }
  | done (w : Worker) (here : s.pc w = .finish) :
      Moves s (.run w) { s with activeThreadCount := s.activeThreadCount - 1, pc := Function.update s.pc w .pick }
  | turned (l : Label) (w : Worker) (before after : Pc) (here : s.pc w = before) (turns : Turns s w l before after) :
      Moves s l { s with pc := Function.update s.pc w after }
  | idle (w : Worker) (here : s.pc w = .pick) (fits : ∀ t ∈ s.tasks, t.matchThread w = false) : Moves s (.run w) s
  | refused (w : Worker) (g : Ref) (reason : s.state g ≠ .ready ∨ (s.pc w).nest.head? = some g) :
      Moves s (.call w g) s

section Inversion

variable {s s' : State} {w : Worker} {work : Work} {f : Ref}

theorem pickTask_moves (here : s.pc w = .pick) : Moves s (.run w) (s.pickTask w) := by
  simp only [State.pickTask]
  split
  · rename_i failed
    exact .idle w here (pick_none rfl failed).2
  · rename_i task taken
    obtain ⟨pre, post, queue, left, fits⟩ := pick_some rfl taken
    cases job : task.job with
    | fiber f =>
      simp only [left]
      exact .pickedFiber w here pre post task f job queue fits
    | cb callback =>
      simp only [left]
      exact .pickedCallback w here pre post task callback job queue fits

theorem acquire_moves {cb : Nat} (here : s.pc w = .acquire cb) (h : s.acquire w = some s') :
    Moves s (.run w) s' := by
  simp only [State.acquire] at h
  split at h
  · split at h <;> cases h
    exact .reused w cb here _ _ ‹_› ‹_›
  · cases h
    exact .built w cb here

theorem lockFiber_moves (here : s.pc w = .lock work) (h : s.lockFiber w work = some s') :
    Moves s (.run w) s' := by
  simp only [State.lockFiber] at h
  split at h <;> cases h
  cases work with
  | task t f => exact .lockedTask w t f here ‹_›
  | callback f => exact .lockedCallback w f here ‹_›

theorem leave_moves {nest : List Ref} (here : s.pc w = .inside work nest .leaving)
    (h : s.leave w work nest = some s') : Moves s (.run w) s' := by
  cases nest with
  | nil => cases h
  | cons x rest =>
    simp only [State.leave] at h
    split at h
    · cases h
      exact .turned _ w _ _ here (.switchedOut ‹_›)
    · split at h <;> cases h
      obtain ⟨rest', rfl⟩ := List.head?_eq_some_iff.1 ‹rest.head? = some _›
      exact .returned w work x _ rest' here ‹_›

theorem unlockFiber_moves (here : s.pc w = .unlock work) : Moves s (.run w) (s.unlockFiber w work) := by
  cases work with
  | task t f => exact .unlockedTask w t f here
  | callback f => exact .unlockedCallback w f here

theorem requeue_moves {t : Task} (here : s.pc w = .requeue t f) : Moves s (.run w) (s.requeue w t f) := by
  unfold State.requeue
  split
  · exact .requeued w t f here ‹_›
  · exact .turned _ w _ _ here (.kept ‹_›)

theorem release_moves (here : s.pc w = .release f) : Moves s (.run w) (s.release w f) := by
  unfold State.release
  split
  · rename_i accepted
    exact .cached w f here accepted.1 accepted.2
  · exact .dropped w f here ‹_›

theorem advance_moves (h : s.advance w = some s') : Moves s (.run w) s' := by
  cases here : s.pc w with
  | pick =>
    simp only [State.advance, here, Option.some.injEq] at h
    exact h ▸ pickTask_moves here
  | acquire cb =>
    simp only [State.advance, here] at h
    exact acquire_moves here h
  | lock work =>
    simp only [State.advance, here] at h
    exact lockFiber_moves here h
  | test t f =>
    simp only [State.advance, here, Option.some.injEq] at h
    subst h
    split
    · exact .turned _ w _ _ here (.skipped ‹_›)
    · exact .turned _ w _ _ here (.tested ‹_›)
  | resume work =>
    simp only [State.advance, here, State.resume] at h
    split at h <;> cases h
    exact .resumed w work here ‹_›
  | inside work nest phase =>
    cases phase with
    | code => simp only [State.advance, here, reduceCtorEq] at h
    | calling g =>
      simp only [State.advance, here, State.enter] at h
      split at h <;> cases h
      exact .entered w work nest g here ‹_›
    | leaving =>
      simp only [State.advance, here] at h
      exact leave_moves here h
  | unlock work =>
    simp only [State.advance, here, Option.some.injEq] at h
    exact h ▸ unlockFiber_moves here
  | requeue t f =>
    simp only [State.advance, here, Option.some.injEq] at h
    exact h ▸ requeue_moves here
  | testTerm f =>
    simp only [State.advance, here, Option.some.injEq] at h
    subst h
    split
    · exact .turned _ w _ _ here (.dead ‹_›)
    · exact .turned _ w _ _ here (.notOver ‹_›)
  | release f =>
    simp only [State.advance, here, Option.some.injEq] at h
    exact h ▸ release_moves here
  | finish =>
    simp only [State.advance, here, Option.some.injEq] at h
    exact h ▸ .done w here

theorem call_moves {g : Ref} (h : s.call w g = some s') : Moves s (.call w g) s' := by
  simp only [State.call] at h
  split at h
  · rename_i here
    split at h
    · rename_i known
      split at h
      · rename_i reason
        cases h
        exact .refused w g (reason.imp_right fun self => by rw [here, self]; rfl)
      · rename_i ready
        cases h
        rw [not_or, not_not] at ready
        exact .turned _ w _ _ here (.asked known ready.1 ready.2)
    · cases h
  · cases h

theorem yield_moves (h : s.yield w = some s') : Moves s (.yield w) s' := by
  simp only [State.yield] at h
  split at h
  · split at h <;> cases h
    · exact .yielded w _ _ _ ‹_› ‹_›
    · exact .turned _ w _ _ ‹_› (.yieldedOver ‹_›)
  · cases h

/-- Every enabled step is one of the moves. -/
theorem step_moves {l : Label} (h : step s l = some s') : Moves s l s' := by
  cases l with
  | create =>
    cases h
    exact .created
  | schedule job options =>
    cases job with
    | fiber f =>
      simp only [step] at h
      split at h <;> cases h
      exact .scheduled _ options (by rintro g ⟨⟩; assumption)
    | cb callback =>
      cases h
      exact .scheduled _ options nofun
  | setPolicy policy =>
    cases h
    exact .setPolicy policy
  | setMLFQConfig config =>
    cases h
    exact .setMLFQConfig config
  | setMaxCachedPerKey n =>
    cases h
    exact .setMaxCachedPerKey n
  | run w => exact advance_moves h
  | call w g => exact call_moves h
  | yield w => exact yield_moves h
  | finish w =>
    simp only [step, State.finish] at h
    split at h <;> cases h
    exact .finished w _ _ _ ‹_›

/-- A step moves no worker but its own. -/
theorem Moves.others {l : Label} (move : Moves s l s') (other : l.worker ≠ some w) : s'.pc w = s.pc w := by
  cases move with
  | turned l v before after here turns => cases turns <;> grind [Label.worker]
  | _ => grind [Label.worker]

end Inversion

section Worker

variable {s s' : State} {w : Worker}

/-- A worker on its own finishes no fiber, and every task it queues is one it had. -/
theorem Moves.run_alive (move : Moves s (.run w) s') {f : Ref} (dead : s'.state f = .term) : s.state f = .term := by
  cases move <;> first | exact dead | (simp only [Function.update_apply] at dead; split at dead <;> simp_all)

theorem Moves.run_exists (move : Moves s (.run w) s') {f : Ref} (known : s.Exists f) : s'.Exists f := by
  cases move <;> first | exact known | exact Nat.lt_succ_of_lt known

theorem Moves.run_tasks (move : Moves s (.run w) s') {t : Task} (queued : t ∈ s'.tasks) :
    t ∈ s.tasks ∨ t.sentFor = none := by
  cases move with
  | pickedFiber w here pre post t' f job queue fits | pickedCallback w here pre post t' cb job queue fits =>
    refine .inl ?_
    simp only [queue, List.mem_append, List.mem_cons] at queued ⊢
    exact queued.imp_right .inr
  | requeued w t' f here requeues =>
    rcases List.mem_append.1 queued with before | new
    · exact .inl before
    · exact .inr (by rw [List.mem_singleton.1 new, State.sentFor_demoted])
  | _ => exact .inl queued

/-- The code of a fiber is not a step of `run`. -/
theorem Moves.run_outside (move : Moves s (.run w) s') (work : Work) (nest : List Ref) :
    s.pc w ≠ .inside work nest .code := by
  cases move with
  | turned l v before after here turns => cases turns <;> simp [here]
  | _ => simp [*]

/-- What a worker leaves, it was executing, leaving or testing before. -/
theorem Moves.run_taken (move : Moves s (.run w) s') {t : Task} {f : Ref}
    (taken : s'.pc w = .lock (.task t f) ∨ s'.pc w = .test t f ∨ s'.pc w = .resume (.task t f)) :
    s.pc w = .lock (.task t f) ∨ s.pc w = .test t f ∨ s.pc w = .resume (.task t f) ∨ t ∈ s.tasks ∧ t.job = .fiber f := by
  cases move with
  | turned l v before after here turns => cases turns <;> simp_all
  | pickedFiber w here pre post t' g job queue fits => simp_all
  | idle w here => simp_all
  | _ => simp_all

/-- A worker that may queue a fiber again was inside of it, or skips it. -/
theorem Moves.run_leaves (move : Moves s (.run w) s') {t : Task} {f : Ref} {nest : List Ref}
    (leaves : s'.pc w = .inside (.task t f) nest .leaving ∨ s'.pc w = .unlock (.task t f) ∨ s'.pc w = .requeue t f) :
    (∃ nest, s.pc w = .inside (.task t f) nest .leaving) ∨ s.pc w = .unlock (.task t f) ∨ s.pc w = .requeue t f ∨
      s.pc w = .test t f := by
  cases move with
  | turned l v before after here turns => cases turns <;> simp_all
  | _ => simp_all

/-- A fiber that a worker comes to execute is not over. -/
theorem Moves.run_enters (move : Moves s (.run w) s') {work : Work} {rest : List Ref} {f : Ref}
    (flat : ∀ work nest phase, s.pc w = .inside work nest phase → nest = [work.fiber])
    (pc : s'.pc w = .inside work (f :: rest) .code) : s'.state f ≠ .term := by
  cases move with
  | resumed _ work' here ready =>
    simp only [Function.update_self, Pc.inside.injEq, List.cons.injEq] at pc
    simp [← pc.2.1.1]
  | entered _ work' nest g here alive =>
    simp only [Function.update_self, Pc.inside.injEq, List.cons.injEq] at pc
    simp [← pc.2.1.1]
  | returned _ work' x p rest' here parent => cases flat _ _ _ here
  | turned l v before after here turns => cases turns <;> simp_all
  | _ => simp_all

end Worker

/-- A worker that no label names stays where it was. -/
theorem exec_idle {s s' : State} {ls : List Label} {w : Worker} (e : machine.exec s ls = some s')
    (absent : ∀ l ∈ ls, l.worker ≠ some w) : s'.pc w = s.pc w := by
  induction ls generalizing s with
  | nil =>
    cases e
    rfl
  | cons l ls ih =>
    obtain ⟨m, first, rest⟩ := Option.bind_eq_some_iff.1 e
    rw [ih rest fun l later => absent l (List.mem_cons_of_mem _ later)]
    exact (step_moves first).others (absent l List.mem_cons_self)

end Mycoroutine.Run
