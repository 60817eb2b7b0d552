import Mycoroutine.Scheduler.RunSole
import Mycoroutine.Interleave.Tally

/-!
# Completion under `MLFQ`

The bodies that are submitted to a scheduler under `MLFQ`, each as a `Fiber` or as a
`std::function`, and a call of `stop()`. A body is the code of the fiber that `run()`
resumes for it: it yields a number of times, and ends. Only the branch of `run()` for
fibers puts a `READY` one into the queue again.

The workers are the threads of a list. The idle fiber of a worker is over once it saw
`stopping()`; the worker then leaves `run()` when it finds no task, and `stop()` returns
when all have left.
-/

namespace Mycoroutine.Completion
set_option autoImplicit false
open Interleave Machine Run

inductive Kind where
  | fiber
  | callback
deriving DecidableEq

structure Body where
  kind : Kind
  yields : Nat

/-- `body` is what runs in a fiber and `yielded` how often it has yielded there. `due` are
the bodies that were submitted when `stop()` was called. -/
structure State where
  run : Run.State
  submitted : Nat
  body : Ref → Option Nat
  yielded : Ref → Nat
  ended : List Nat
  mStopping : Bool
  due : Nat
  idleOver : Worker → Bool
  exited : Worker → Bool
  returned : Bool

inductive Label where
  | submit (options : ScheduleOptions)
  | setMLFQConfig (config : MLFQConfig)
  | setMaxCachedPerKey (n : Nat)
  | run (w : Worker)
  | yield (w : Worker)
  | finish (w : Worker)
  | stop
  | idle (w : Worker)
  | exit (w : Worker)
  | join

/-- The fiber that `acquire` gives out. -/
def given (s : Run.State) : Ref := s.pool.head?.getD s.created

namespace State

variable (bodies : Nat → Body) (s : State)

/-- `scheduleEx` of the next body. -/
def submit (options : ScheduleOptions) : Option State :=
  match (bodies s.submitted).kind with
  | .fiber =>
    let f := s.run.created
    ((Run.step s.run .create).bind (Run.step · (.schedule (.fiber f) options))).map fun run =>
      { s with run, submitted := s.submitted + 1, body := Function.update s.body f (some s.submitted),
               yielded := Function.update s.yielded f 0 }
  | .callback =>
    (Run.step s.run (.schedule (.cb s.submitted) options)).map fun run => { s with run, submitted := s.submitted + 1 }

/-- The next step of a worker in `run()`; `acquire` puts its callback into a fiber. -/
def work (w : Worker) : Option State :=
  (Run.step s.run (.run w)).map fun run =>
    match s.run.pc w with
    | .acquire j =>
      { s with run, body := Function.update s.body (given s.run) (some j),
               yielded := Function.update s.yielded (given s.run) 0 }
    | _ => { s with run }

/-- The fiber that a worker executes, and its body. -/
def executing (w : Worker) : Option (Ref × Nat) :=
  match s.run.pc w with
  | .inside _ (x :: _) .code => (s.body x).map (x, ·)
  | _ => none

def yield (w : Worker) : Option State :=
  (s.executing w).bind fun (x, j) =>
    if s.yielded x < (bodies j).yields then
      (Run.step s.run (.yield w)).map fun run =>
        { s with run, yielded := Function.update s.yielded x (s.yielded x + 1) }
    else none

def finish (w : Worker) : Option State :=
  (s.executing w).bind fun (x, j) =>
    if s.yielded x = (bodies j).yields then
      (Run.step s.run (.finish w)).map fun run => { s with run, ended := s.ended ++ [j] }
    else none

def stopping : Bool := Scheduler.stopping s.mStopping s.run.tasks s.run.activeThreadCount

/-- A worker without a task: its idle fiber tests `stopping()`. -/
def idle (w : Worker) : Option State :=
  match s.run.pc w with
  | .pick => if s.stopping then some { s with idleOver := Function.update s.idleOver w true } else none
  | _ => none

/-- A worker that finds no task breaks out of the loop of `run()`, its idle fiber being over. -/
def exit (w : Worker) : Option State :=
  if s.idleOver w && s.run.findsNone w then some { s with exited := Function.update s.exited w true } else none

end State

def step (bodies : Nat → Body) (workers : List Worker) (s : State) : Label → Option State
  | .submit options => s.submit bodies options
  | .setMLFQConfig config => (Run.step s.run (.setMLFQConfig config)).map fun run => { s with run }
  | .setMaxCachedPerKey n => (Run.step s.run (.setMaxCachedPerKey n)).map fun run => { s with run }
  | .run w => if w ∈ workers ∧ s.exited w = false then s.work w else none
  | .yield w => s.yield bodies w
  | .finish w => s.finish bodies w
  | .stop => if s.mStopping then none else some { s with mStopping := true, due := s.submitted }
  | .idle w => if w ∈ workers then s.idle w else none
  | .exit w => if w ∈ workers then s.exit w else none
  | .join => if s.mStopping ∧ ∀ w ∈ workers, s.exited w = true then some { s with returned := true } else none

def machine (bodies : Nat → Body) (workers : List Worker) : Machine State Label where
  init := { run := { Run.machine.init with policy := .mlfq }, submitted := 0, body := fun _ => none,
            yielded := fun _ => 0, ended := [], mStopping := false, due := 0, idleOver := fun _ => false,
            exited := fun _ => false, returned := false }
  step := step bodies workers

/-! ## Fibers that only yield -/

/-- What is known of `run()` under `MLFQ` when no fiber calls another: a worker is inside of
the fiber of its work alone, every fiber is in one place, and the active count is true. -/
structure Tidy (s : Run.State) : Prop where
  known : Known s
  policy : s.policy = .mlfq
  flat : ∀ w work nest phase, s.pc w = .inside work nest phase → nest = [work.fiber] ∧ ∀ g, phase ≠ .calling g
  root : ∀ f, s.parent f = none
  sole : ∀ f, Sole s f
  busy : Tally (· ≠ Pc.pick) s.pc s.activeThreadCount

/-- No fiber is called, and the policy stays. -/
def Plain : Run.Label → Prop
  | .call _ _ | .setPolicy _ => False
  | _ => True

section Tidy

variable {s s' : Run.State} {l : Run.Label} {w v : Worker} {f : Ref}

theorem Tidy.inside (h : Tidy s) {work : Work} {nest : List Ref} {phase : Phase} (here : s.pc w = .inside work nest phase)
    (mem : f ∈ nest) : s.Holds w f := by
  rw [(h.flat w work nest phase here).1, List.mem_singleton] at mem
  exact ⟨work, by rw [here]; rfl, mem.symm⟩

theorem Tidy.flat_move (h : Tidy s) (plain : Plain l) (move : Moves s l s') {work : Work} {nest : List Ref} {phase : Phase}
    (here' : s'.pc w = .inside work nest phase) : nest = [work.fiber] ∧ ∀ g, phase ≠ .calling g := by
  cases move with
  | created | scheduled | setPolicy | setMLFQConfig | setMaxCachedPerKey | idle | refused => exact h.flat w _ _ _ here'
  | resumed x work' here =>
    rcases place_update (P := (· = _)) here' with before | ⟨rfl, mine⟩
    · exact h.flat w _ _ _ before
    · cases mine
      exact ⟨rfl, nofun⟩
  | entered x work' nest' g here => exact absurd rfl ((h.flat x _ _ _ here).2 g)
  | returned x work' y p rest here =>
    cases (h.flat x _ _ _ here).1
  | yielded x work' y rest here | finished x work' y rest here =>
    rcases place_update (P := (· = _)) here' with before | ⟨rfl, mine⟩
    · exact h.flat w _ _ _ before
    · cases mine
      exact ⟨(h.flat w _ _ _ here).1, nofun⟩
  | turned l x before after here turns =>
    rcases place_update (P := (· = _)) here' with before | ⟨rfl, mine⟩
    · exact h.flat w _ _ _ before
    · cases turns with
      | asked => exact plain.elim
      | yieldedOver =>
        cases mine
        exact ⟨(h.flat w _ _ _ here).1, nofun⟩
      | _ => cases mine
  | _ => exact h.flat w _ _ _ ((place_update (P := (· = _)) here').resolve_right fun mover => nomatch mover.2)

theorem Tidy.root_move (h : Tidy s) (move : Moves s l s') (f : Ref) : s'.parent f = none := by
  have update (g : Ref) : Function.update s.parent g none f = none := by
    rw [Function.update_apply]
    split
    · rfl
    · exact h.root f
  cases move with
  | created | built => exact update _
  | reused w cb here g => exact update g
  | entered w work nest g here => exact absurd rfl ((h.flat w _ _ _ here).2 g)
  | returned w work x p rest here => exact update x
  | _ => exact h.root f

theorem Tidy.sole_move (h : Tidy s) (move : Moves s l s')
    (lone : ∀ f options, l = .schedule (.fiber f) options → Sole s' f) (f : Ref) : Sole s' f := by
  by_cases known : s.Exists f
  · by_cases scheduled : ∃ options, l = .schedule (.fiber f) options
    · obtain ⟨options, label⟩ := scheduled
      exact lone f options label
    · exact (h.sole f).move h.known known (not_exists.1 scheduled) move
  · by_cases known' : s'.Exists f
    · -- The step creates the fiber.
      have nobody (v : Worker) (holds : s.Holds v f) : False := by
        obtain ⟨work, busy, fiber⟩ := holds
        exact known (fiber ▸ h.known.held v _ (Pc.work_mentions busy))
      have sole := Sole.unborn h.known known
      cases move with
      | created => exact ⟨sole.one, sole.apart, sole.once, sole.unqueued, sole.cached⟩
      | built w cb here =>
        exact sole.take nobody rfl (List.Sublist.refl _) (fun u queued job => known (h.known.queued u queued f job))
          (List.Sublist.refl _) fun cached => known (h.known.pooled f cached)
      | _ => exact absurd known' known
    · exact Sole.unborn (h.known.move move) known'

theorem Tidy.busy_move (h : Tidy s) (move : Moves s l s') : Tally (· ≠ Pc.pick) s'.pc s'.activeThreadCount := by
  have stays {w : Worker} {after : Pc} (before : s.pc w ≠ .pick) (still : after ≠ .pick) :
      Tally (· ≠ Pc.pick) (Function.update s.pc w after) s.activeThreadCount :=
    h.busy.same ⟨fun _ => before, fun _ => still⟩
  cases move with
  | created | scheduled | setPolicy | setMLFQConfig | setMaxCachedPerKey | idle | refused => exact h.busy
  | pickedFiber w here | pickedCallback w here => exact h.busy.enter (not_not.2 here) (by nofun)
  | done w here => exact h.busy.leave (by rw [here]; nofun) (not_not.2 rfl)
  | turned l w before after here turns =>
    refine stays ?_ ?_
    · rw [here]
      cases turns <;> nofun
    · cases turns <;> nofun
  | _ => exact stays (by rw [‹s.pc _ = _›]; nofun) (by nofun)

/-- A fiber that is scheduled is to be in the queue alone. -/
theorem Tidy.move (h : Tidy s) (plain : Plain l) (move : Moves s l s')
    (lone : ∀ f options, l = .schedule (.fiber f) options → Sole s' f) : Tidy s' where
  known := h.known.move move
  policy := by
    cases move with
    | setPolicy => exact plain.elim
    | _ => exact h.policy
  flat _ _ _ _ here := h.flat_move plain move here
  root := h.root_move move
  sole := h.sole_move move lone
  busy := h.busy_move move

theorem tidy_init : Tidy { Run.machine.init with policy := .mlfq } where
  known := known_init.move (.setPolicy .mlfq)
  policy := rfl
  flat := nofun
  root _ := rfl
  sole _ := Sole.unborn (known_init.move (.setPolicy .mlfq)) (Nat.not_lt_zero _)
  busy := Tally.zero fun _ => not_not.2 rfl

end Tidy

/-! ## The way of a fiber -/

/-- The work whose fiber a worker is still to leave. -/
def starts : Pc → Option Work
  | .lock work | .resume work | .inside work _ .code => some work
  | .test t f => some (.task t f)
  | _ => none

/-- The work whose fiber a worker has left, or is leaving. -/
def leaves : Pc → Option Work
  | .inside work _ .leaving | .unlock work => some work
  | .requeue t f => some (.task t f)
  | _ => none

/-- The fiber will be run on: it was acquired for a callback, or it is queued, or `run()`
will put it into the queue again. -/
def OnWay (s : Run.State) (f : Ref) : Prop :=
  (∃ w, starts (s.pc w) = some (.callback f)) ∨
    s.state f ≠ .term ∧
      ((∃ t ∈ s.tasks, t.job = .fiber f) ∨
        ∃ w t, starts (s.pc w) = some (.task t f) ∨ leaves (s.pc w) = some (.task t f) ∧ s.state f = .ready)

theorem work_of_starts {pc : Pc} {work : Work} (on : starts pc = some work) : pc.work = some work := by
  unfold starts at on
  split at on <;> first | exact on | cases on

theorem work_of_leaves {pc : Pc} {work : Work} (off : leaves pc = some work) : pc.work = some work := by
  unfold leaves at off
  split at off <;> first | exact off | cases off

section Way

variable {s s' : Run.State} {l : Run.Label} {w v : Worker} {f : Ref} {t : Task} {work : Work}

/-- A worker starts what it had started, or has picked or acquired. -/
theorem starts_move (h : Tidy s) (plain : Plain l) (move : Moves s l s') (on : starts (s'.pc w) = some work) :
    starts (s.pc w) = some work ∨ l = .run w ∧ ((∃ t f, work = .task t f) ∨ ∃ cb, s.pc w = .acquire cb) := by
  cases move with
  | created | scheduled | setPolicy | setMLFQConfig | setMaxCachedPerKey | idle | refused => exact .inl on
  | pickedFiber x here pre post t f =>
    refine (place_update (P := (starts · = _)) on).imp_right ?_
    rintro ⟨rfl, mine⟩
    cases mine
    exact ⟨rfl, .inl ⟨t, f, rfl⟩⟩
  | reused x cb here | built x cb here =>
    refine (place_update (P := (starts · = _)) on).imp_right ?_
    rintro ⟨rfl, -⟩
    exact ⟨rfl, .inr ⟨cb, here⟩⟩
  | entered x work' nest g here => exact absurd rfl ((h.flat x _ _ _ here).2 g)
  | returned x work' y p rest here => cases (h.flat x _ _ _ here).1
  | turned l x before after here turns =>
    rcases place_update (P := (starts · = _)) on with before | ⟨rfl, mine⟩
    · exact .inl before
    · rw [here]
      cases turns <;> first | exact .inl mine | cases mine
  | _ x =>
    rcases place_update (P := (starts · = _)) on with before | ⟨rfl, mine⟩
    · exact .inl before
    · cases mine <;> exact .inl (by rw [‹s.pc w = _›]; rfl)

/-- Only the end of its body finishes a fiber. -/
theorem alive_move (move : Moves s l s') (alive : s.state f ≠ .term)
    (unfinished : ∀ w work rest, s.pc w = .inside work (f :: rest) .code → l ≠ .finish w) : s'.state f ≠ .term := by
  have other {g : Ref} {new : Fiber.State} (living : new ≠ .term) : Function.update s.state g new f ≠ .term := by
    rw [Function.update_apply]
    split
    · exact living
    · exact alive
  cases move with
  | created | built | reused | resumed | entered | yielded => exact other (by nofun)
  | finished w work x rest here =>
    show Function.update s.state x .term f ≠ .term
    by_cases mine : f = x
    · subst mine
      exact absurd rfl (unfinished w work rest here)
    · rw [Function.update_of_ne mine]
      exact alive
  | _ => exact alive

/-- Nobody but its holder changes the state of a fiber. -/
theorem state_move (h : Tidy s) (move : Moves s l s') (held : s.Holds w f) (other : l.worker ≠ some w) :
    s'.state f = s.state f := by
  have known : s.Exists f := by
    obtain ⟨work, busy, rfl⟩ := held
    exact h.known.held w _ (Pc.work_mentions busy)
  have update {g : Ref} {new : Fiber.State} (ne : f ≠ g) : Function.update s.state g new f = s.state f :=
    Function.update_of_ne ne ..
  have mover {v : Worker} {g : Ref} (worker : l.worker = some v) (holds : s.Holds v g) : f ≠ g := by
    rintro rfl
    rw [(h.sole f).one w v held holds] at other
    exact other worker
  cases move with
  | created | built => exact update (Nat.ne_of_lt known)
  | reused v cb here g pool cached =>
    refine update ?_
    rintro rfl
    exact ((h.sole f).apart w held).2 (cached ▸ List.mem_cons_self)
  | resumed v work here => exact update (mover rfl ⟨work, by rw [here]; rfl, rfl⟩)
  | entered v work nest g here => exact absurd rfl ((h.flat v _ _ _ here).2 g)
  | yielded v work x rest here | finished v work x rest here =>
    exact update (mover rfl (h.inside here List.mem_cons_self))
  | _ => rfl

/-- A worker goes on with a callback that has not yielded. -/
theorem callback_move (h : Tidy s) (plain : Plain l) (move : Moves s l s') (on : starts (s.pc w) = some (.callback f))
    (unfinished : ∀ w work rest, s.pc w = .inside work (f :: rest) .code → l ≠ .finish w)
    (unyielded : l ≠ .yield w) : starts (s'.pc w) = some (.callback f) := by
  by_cases own : l.worker = some w
  · have goesOn {after : Pc} (on : starts after = some (.callback f)) :
        starts (Function.update s.pc w after w) = some (.callback f) := by rwa [Function.update_self]
    cases move with
    | lockedCallback x g here =>
      cases own
      rw [here] at on
      exact goesOn on
    | resumed x work here =>
      cases own
      rw [here] at on
      exact goesOn on
    | finished x work y rest here =>
      cases own
      have flat := (h.flat w _ _ _ here).1
      rw [here] at on
      cases on
      cases flat
      exact absurd rfl (unfinished w _ _ here)
    | yielded x work y rest here =>
      cases own
      exact absurd rfl unyielded
    | idle x here | done x here =>
      cases own
      rw [here] at on
      cases on
    | turned x y before after here turns =>
      cases turns with
      | asked => exact plain.elim
      | yieldedOver =>
        cases own
        exact absurd rfl unyielded
      | _ =>
        cases own
        rw [here] at on
        cases on
    | refused => exact plain.elim
    | created | scheduled | setPolicy | setMLFQConfig | setMaxCachedPerKey => cases own
    | _ =>
      cases own
      rw [‹s.pc w = _›] at on
      cases on
  · rw [move.others own]
    exact on

/-- A worker goes on with a fiber that is not over, or puts it into the queue again. -/
theorem task_move (h : Tidy s) (plain : Plain l) (move : Moves s l s') (alive : s.state f ≠ .term)
    (on : starts (s.pc w) = some (.task t f) ∨ leaves (s.pc w) = some (.task t f) ∧ s.state f = .ready)
    (unfinished : ∀ w work rest, s.pc w = .inside work (f :: rest) .code → l ≠ .finish w) :
    (∃ t ∈ s'.tasks, t.job = .fiber f) ∨
      (starts (s'.pc w) = some (.task t f) ∨ leaves (s'.pc w) = some (.task t f) ∧ s'.state f = .ready) := by
  have held : s.Holds w f := ⟨.task t f, on.elim work_of_starts fun off => work_of_leaves off.1, rfl⟩
  by_cases own : l.worker = some w
  · have goesOn {after : Pc} (on : starts after = some (.task t f)) :
        starts (Function.update s.pc w after w) = some (.task t f) := by rwa [Function.update_self]
    have goesOff {after : Pc} (off : leaves after = some (.task t f)) :
        leaves (Function.update s.pc w after w) = some (.task t f) := by rwa [Function.update_self]
    cases move with
    | lockedTask x u g here =>
      cases own
      rw [here] at on
      exact .inr (.inl (goesOn (on.resolve_right fun off => nomatch off.1)))
    | resumed x work here =>
      cases own
      rw [here] at on
      exact .inr (.inl (goesOn (on.resolve_right fun off => nomatch off.1)))
    | yielded x work y rest here =>
      cases own
      have flat := (h.flat w _ _ _ here).1
      rw [here] at on
      cases on.resolve_right fun off => nomatch off.1
      cases flat
      exact .inr (.inr ⟨goesOff rfl, Function.update_self ..⟩)
    | finished x work y rest here =>
      cases own
      have flat := (h.flat w _ _ _ here).1
      rw [here] at on
      cases on.resolve_right fun off => nomatch off.1
      cases flat
      exact absurd rfl (unfinished w _ _ here)
    | unlockedTask x u g here =>
      cases own
      rw [here] at on
      have ⟨off, ready⟩ := on.resolve_left nofun
      exact .inr (.inr ⟨goesOff off, ready⟩)
    | requeued x u g here requeues =>
      cases own
      rw [here] at on
      cases (on.resolve_left nofun).1
      exact .inl ⟨_, List.mem_append_right _ (List.mem_singleton_self _), h.known.jobs w t f (by rw [here]; rfl)⟩
    | turned x y before after here turns =>
      cases turns with
      | asked => exact plain.elim
      | skipped isOver =>
        cases own
        rw [here] at on
        cases on.resolve_right fun off => nomatch off.1
        exact absurd isOver alive
      | tested =>
        cases own
        rw [here] at on
        exact .inr (.inl (goesOn (on.resolve_right fun off => nomatch off.1)))
      | yieldedOver isOver =>
        cases own
        have flat := (h.flat w _ _ _ here).1
        rw [here] at on
        cases on.resolve_right fun off => nomatch off.1
        cases flat
        exact absurd isOver alive
      | switchedOut =>
        cases own
        rw [here] at on
        have ⟨off, ready⟩ := on.resolve_left nofun
        exact .inr (.inr ⟨goesOff off, ready⟩)
      | kept stays =>
        cases own
        rw [here] at on
        cases (on.resolve_left nofun).1
        exact absurd ⟨h.policy, (on.resolve_left nofun).2⟩ stays
      | _ =>
        cases own
        rw [here] at on
        exact on.elim nofun fun off => nomatch off.1
    | refused => exact plain.elim
    | created | scheduled | setPolicy | setMLFQConfig | setMaxCachedPerKey => cases own
    | returned x work y p rest here => cases (h.flat x _ _ _ here).1
    | entered x work nest g here => exact absurd rfl ((h.flat x _ _ _ here).2 g)
    | _ =>
      cases own
      rw [‹s.pc w = _›] at on
      exact on.elim nofun fun off => nomatch off.1
  · rw [move.others own, state_move h move held own]
    exact .inr on

/-- Where a worker is that has picked a task. -/
def picked (t : Task) : Pc :=
  match t.job with
  | .fiber f => .lock (.task t f)
  | .cb j => .acquire j

/-- A queued task stays queued, or a worker picks it. -/
theorem queue_move (move : Moves s l s') (queued : t ∈ s.tasks) : t ∈ s'.tasks ∨ ∃ w, s'.pc w = picked t := by
  cases move with
  | pickedFiber w here pre post u g job queue | pickedCallback w here pre post u cb job queue =>
    rw [queue, List.mem_append, List.mem_cons] at queued
    rcases queued with before | rfl | after
    · exact .inl (List.mem_append_left _ before)
    · refine .inr ⟨w, ?_⟩
      show Function.update s.pc w _ w = _
      rw [Function.update_self, picked, job]
    · exact .inl (List.mem_append_right _ after)
  | scheduled | requeued => exact .inl (List.mem_append_left _ queued)
  | _ => exact .inl queued

/-- Unless its body ends, or it is a callback's and yields, a fiber stays on its way. -/
theorem OnWay.move (way : OnWay s f) (h : Tidy s) (plain : Plain l) (move : Moves s l s')
    (unfinished : ∀ w work rest, s.pc w = .inside work (f :: rest) .code → l ≠ .finish w)
    (unyielded : ∀ w, starts (s.pc w) = some (.callback f) → l ≠ .yield w) : OnWay s' f := by
  rcases way with ⟨w, on⟩ | ⟨alive, ⟨t, queued, job⟩ | ⟨w, t, on⟩⟩
  · exact .inl ⟨w, callback_move h plain move on unfinished (unyielded w on)⟩
  · refine .inr ⟨alive_move move alive unfinished, ?_⟩
    rcases queue_move move queued with still | ⟨w, here⟩
    · exact .inl ⟨t, still, job⟩
    · refine .inr ⟨w, t, .inl ?_⟩
      rw [here, picked, job]
      rfl
  · refine .inr ⟨alive_move move alive unfinished, ?_⟩
    rcases task_move h plain move alive on unfinished with queued | on
    · exact .inl queued
    · exact .inr ⟨w, t, on⟩

end Way

/-! ## Where the bodies are -/

/-- `run()` has the fiber in its hands, or in the queue. -/
def Busy (s : Run.State) (f : Ref) : Prop := (∃ t ∈ s.tasks, t.job = .fiber f) ∨ ∃ w, s.Holds w f

/-- The fiber runs a body of the kind. -/
def Runs (bodies : Nat → Body) (body : Ref → Option Nat) (f : Ref) (kind : Kind) : Prop :=
  ∃ j, body f = some j ∧ (bodies j).kind = kind

/-- A body that a worker is to find: as a callback that has no fiber yet, or in a fiber
that is on its way. -/
def Placed (s : State) (j : Nat) : Prop :=
  (∃ t ∈ s.run.tasks, t.job = .cb j) ∨ (∃ w, s.run.pc w = .acquire j) ∨ ∃ f, s.body f = some j ∧ OnWay s.run f

/-- The body is not a callback that yields. -/
def Suits (b : Body) : Prop := b.kind = .callback → b.yields = 0

/-- Tasks are of the kind that their bodies were submitted as; a callback that a worker
still executes has not yielded; and every suitable body has ended, or is placed. -/
structure Tracked (bodies : Nat → Body) (s : State) : Prop where
  tidy : Tidy s.run
  fibers : ∀ f, (∃ t ∈ s.run.tasks, t.job = .fiber f) ∨ (∃ w t, (s.run.pc w).work = some (.task t f)) →
    Runs bodies s.body f .fiber
  callbacks : ∀ j, (∃ t ∈ s.run.tasks, t.job = .cb j) ∨ (∃ w, s.run.pc w = .acquire j) → (bodies j).kind = .callback
  fresh : ∀ w f, starts (s.run.pc w) = some (.callback f) → Runs bodies s.body f .callback ∧ s.yielded f = 0
  ended : ∀ j ∈ s.ended, Suits (bodies j)
  placed : ∀ j < s.submitted, Suits (bodies j) → j ∉ s.ended → Placed s j

section Tracked

variable {bodies : Nat → Body} {workers : List Worker} {s s' : State} {l : Run.Label} {run : Run.State} {w : Worker}
  {f : Ref} {j : Nat}

theorem tracked_init : Tracked bodies (machine bodies workers).init where
  tidy := tidy_init
  fibers _ busy := by
    rcases busy with ⟨t, queued, -⟩ | ⟨w, t, work⟩
    · cases queued
    · cases work
  callbacks _ waits := by
    rcases waits with ⟨t, queued, -⟩ | ⟨w, here⟩
    · cases queued
    · cases here
  fresh := nofun
  ended := nofun
  placed := nofun

/-- A worker comes to `acquire` from its pick. -/
theorem acquires_move {s s' : Run.State} (move : Moves s l s') (here' : s'.pc w = .acquire j) :
    s.pc w = .acquire j ∨ ∃ t ∈ s.tasks, t.job = .cb j := by
  cases move with
  | created | scheduled | setPolicy | setMLFQConfig | setMaxCachedPerKey | idle | refused => exact .inl here'
  | pickedCallback x here pre post t cb job queue =>
    refine (place_update (P := (· = _)) here').imp_right ?_
    rintro ⟨rfl, mine⟩
    cases mine
    exact ⟨t, queue ▸ List.mem_append_right _ List.mem_cons_self, job⟩
  | turned l x before after here turns =>
    refine (place_update (P := (· = _)) here').imp_right ?_
    rintro ⟨rfl, mine⟩
    cases turns <;> cases mine
  | _ => exact .inl ((place_update (P := (· = _)) here').resolve_right fun mover => nomatch mover.2)

/-- A queued task was queued, or a worker holds it, when nothing is scheduled. -/
theorem queues_move {s s' : Run.State} (known : Known s) (move : Moves s l s')
    (unscheduled : ∀ job options, l ≠ .schedule job options) {u : Task} (queued : u ∈ s'.tasks) :
    u ∈ s.tasks ∨ ∃ w t f, (s.pc w).work = some (.task t f) ∧ u.job = .fiber f := by
  rcases move.queues queued with old | ⟨options, label, -⟩ | ⟨w, t, f, -, here, -, job, -⟩
  · exact .inl old
  · exact absurd label (unscheduled _ _)
  · have work : (s.pc w).work = some (.task t f) := by
      rw [here]
      rfl
    exact .inr ⟨w, t, f, work, job.trans (known.jobs w t f work)⟩

/-- A move of `run()`, with what it does to the bodies. -/
theorem Tracked.move (h : Tracked bodies s) (plain : Plain l) (unscheduled : ∀ job options, l ≠ .schedule job options)
    (move : Moves s.run l run) {body : Ref → Option Nat} {yielded : Ref → Nat} {ended : List Nat}
    (same : ∀ f, Busy s.run f → body f = s.body f)
    (fresh : ∀ w f, starts (run.pc w) = some (.callback f) → Runs bodies body f .callback ∧ yielded f = 0)
    (suits : ∀ j ∈ ended, Suits (bodies j)) (more : ∀ j ∈ s.ended, j ∈ ended)
    (acquired : ∀ w j, s.run.pc w = .acquire j → run.pc w = .acquire j ∨ ∃ f, body f = some j ∧ OnWay run f)
    (stays : ∀ f j, s.body f = some j → Suits (bodies j) → j ∉ ended → OnWay s.run f → OnWay run f) :
    Tracked bodies { s with run, body, yielded, ended } where
  tidy := h.tidy.move plain move fun f options label => absurd label (unscheduled _ options)
  fibers f busy := by
    have before : (∃ t ∈ s.run.tasks, t.job = .fiber f) ∨ ∃ w t, (s.run.pc w).work = some (.task t f) := by
      rcases busy with ⟨u, queued, job⟩ | ⟨w, t, work⟩
      · rcases queues_move h.tidy.known move unscheduled queued with old | ⟨w, t, g, work, job'⟩
        · exact .inl ⟨u, old, job⟩
        · cases job.symm.trans job'
          exact .inr ⟨w, t, work⟩
      · rcases move.takes work with held | ⟨-, -, queued, job, -⟩
        · exact .inr ⟨w, t, held⟩
        · exact .inl ⟨t, queued, job⟩
    obtain ⟨j, runs, kind⟩ := h.fibers f before
    refine ⟨j, (same f ?_).trans runs, kind⟩
    exact before.imp_right fun ⟨w, t, work⟩ => ⟨w, .task t f, work, rfl⟩
  callbacks j waits := by
    refine h.callbacks j ?_
    rcases waits with ⟨u, queued, job⟩ | ⟨w, here⟩
    · rcases queues_move h.tidy.known move unscheduled queued with old | ⟨w, t, f, -, job'⟩
      · exact .inl ⟨u, old, job⟩
      · cases job.symm.trans job'
    · rcases acquires_move move here with before | queued
      · exact .inr ⟨w, before⟩
      · exact .inl queued
  fresh := fresh
  ended := suits
  placed j submitted suit left := by
    rcases h.placed j submitted suit (fun late => left (more j late)) with ⟨t, queued, job⟩ | ⟨w, here⟩ | ⟨f, runs, way⟩
    · rcases queue_move move queued with still | ⟨w, here⟩
      · exact .inl ⟨t, still, job⟩
      · refine .inr (.inl ⟨w, ?_⟩)
        rw [here, picked, job]
    · rcases acquired w j here with still | inFiber
      · exact .inr (.inl ⟨w, still⟩)
      · exact .inr (.inr inFiber)
    · have busy : Busy s.run f := by
        rcases way with ⟨w, on⟩ | ⟨-, queued | ⟨w, t, on⟩⟩
        · exact .inr ⟨w, _, work_of_starts on, rfl⟩
        · exact .inl queued
        · exact .inr ⟨w, .task t f, on.elim work_of_starts fun off => work_of_leaves off.1, rfl⟩
      exact .inr (.inr ⟨f, (same f busy).trans runs, stays f j runs suit left way⟩)

/-- The steps that leave the bodies where they are. -/
theorem Tracked.own (h : Tracked bodies s) (plain : Plain l) (unscheduled : ∀ job options, l ≠ .schedule job options)
    (move : Moves s.run l run) (elsewhere : ∀ w j, l = .run w → s.run.pc w ≠ .acquire j) (unfinished : ∀ w, l ≠ .finish w)
    (unyielded : ∀ w, l ≠ .yield w) : Tracked bodies { s with run } := by
  refine h.move plain unscheduled move (fun _ _ => rfl) (fun w f on => ?_) h.ended (fun _ => id) (fun w j here => ?_)
    fun f j runs suit left way => way.move h.tidy plain move (fun w _ _ _ => unfinished w) fun w _ => unyielded w
  · rcases starts_move h.tidy plain move on with before | ⟨label, ⟨t, g, work⟩ | ⟨j, here⟩⟩
    · exact h.fresh w f before
    · cases work
    · exact absurd here (elsewhere w j label)
  · refine .inl ((move.others fun own => ?_).trans here)
    cases l with
    | run v =>
      cases own
      exact elsewhere w j rfl here
    | finish v => exact unfinished v rfl
    | yield v => exact unyielded v rfl
    | call v g => exact plain
    | _ => cases own

/-- The fiber that `acquire` gives out is in nobody's hands. -/
theorem given_idle {s : Run.State} (h : Tidy s) : ¬ Busy s (given s) := by
  unfold given
  cases cached : s.pool with
  | nil =>
    rintro (⟨t, queued, job⟩ | ⟨w, work, busy, fiber⟩)
    · exact Nat.lt_irrefl _ (h.known.queued t queued _ job)
    · exact Nat.lt_irrefl _ (fiber ▸ h.known.held w _ (Pc.work_mentions busy))
  | cons f pool =>
    have there : f ∈ s.pool := cached ▸ List.mem_cons_self
    rintro (⟨t, queued, job⟩ | ⟨w, holds⟩)
    · exact (h.sole f).unqueued there t queued job
    · exact ((h.sole f).apart w holds).2 there

theorem acquire_gives {s s' : Run.State} (e : s.acquire w = some s') : s'.pc w = .lock (.callback (given s)) := by
  unfold Run.State.acquire at e
  unfold given
  split at e
  · rename_i f pool cached
    split at e <;> cases e
    rw [cached]
    exact Function.update_self ..
  · rename_i empty
    cases e
    rw [empty]
    exact Function.update_self ..

theorem Tracked.acquire (h : Tracked bodies s) (here : s.run.pc w = .acquire j) (e : s.run.acquire w = some run) :
    Tracked bodies { s with run, body := Function.update s.body (given s.run) (some j),
                            yielded := Function.update s.yielded (given s.run) 0 } := by
  have plain : Plain (.run w) := trivial
  have move := acquire_moves here e
  have idle := given_idle h.tidy
  have after := acquire_gives e
  have old {f : Ref} (busy : Busy s.run f) : f ≠ given s.run := by
    rintro rfl
    exact idle busy
  have runs : Runs bodies (Function.update s.body (given s.run) (some j)) (given s.run) .callback :=
    ⟨j, Function.update_self .., h.callbacks j (.inr ⟨w, here⟩)⟩
  refine h.move plain (by nofun) move (fun f busy => Function.update_of_ne (old busy) ..) (fun v f on => ?_) h.ended
    (fun _ => id) (fun v i here' => ?_) fun f i _ _ _ way => way.move h.tidy plain move (by nofun) (by nofun)
  · by_cases mine : v = w
    · rw [mine, after] at on
      cases on
      exact ⟨runs, Function.update_self ..⟩
    · have before : starts (s.run.pc v) = some (.callback f) := by
        rwa [move.others fun own => mine (by cases own; rfl)] at on
      have ne : f ≠ given s.run := old (.inr ⟨v, _, work_of_starts before, rfl⟩)
      obtain ⟨⟨i, runs, kind⟩, unyielded⟩ := h.fresh v f before
      exact ⟨⟨i, (Function.update_of_ne ne ..).trans runs, kind⟩, (Function.update_of_ne ne ..).trans unyielded⟩
  · by_cases mine : v = w
    · rw [mine, here] at here'
      cases here'
      refine .inr ⟨given s.run, Function.update_self .., .inl ⟨w, ?_⟩⟩
      rw [after]
      rfl
    · exact .inl ((move.others fun own => mine (by cases own; rfl)).trans here')

theorem Tracked.work (h : Tracked bodies s) (e : s.work w = some s') : Tracked bodies s' := by
  unfold State.work at e
  obtain ⟨run, moved, rfl⟩ := Option.map_eq_some_iff.1 e
  split
  · rename_i j here
    simp only [Run.step, Run.State.advance, here] at moved
    exact h.acquire here moved
  · rename_i elsewhere
    have plain : Plain (.run w) := trivial
    refine h.own plain (by simp) (step_moves moved) (fun v j label => ?_) (by simp) (by simp)
    cases label
    exact elsewhere j

/-- Where the worker is whose fiber runs a body. -/
theorem executing_eq {x : Ref} (e : s.executing w = some (x, j)) :
    s.body x = some j ∧ ∃ work rest, s.run.pc w = .inside work (x :: rest) .code := by
  unfold State.executing at e
  split at e
  · rename_i work y rest here
    obtain ⟨i, runs, same⟩ := Option.map_eq_some_iff.1 e
    cases same
    exact ⟨runs, work, rest, here⟩
  · cases e

/-- A worker whose fiber switches out has left its code. -/
theorem switches_out {s s' : Run.State} (move : Moves s (.yield w) s') : starts (s'.pc w) = none := by
  have left {after : Pc} (off : starts after = none) : starts (Function.update s.pc w after w) = none := by
    rwa [Function.update_self]
  cases move with
  | yielded => exact left rfl
  | turned l v before after here turns =>
    cases turns
    exact left rfl

theorem Tracked.yield (h : Tracked bodies s) (e : s.yield bodies w = some s') : Tracked bodies s' := by
  unfold State.yield at e
  obtain ⟨⟨x, j⟩, exec, e⟩ := Option.bind_eq_some_iff.1 e
  obtain ⟨runs, work, rest, here⟩ := executing_eq exec
  dsimp only at e
  split at e
  · rename_i more
    obtain ⟨run, moved, rfl⟩ := Option.map_eq_some_iff.1 e
    have plain : Plain (.yield w) := trivial
    have move := step_moves moved
    have holder : s.run.Holds w x := h.tidy.inside here List.mem_cons_self
    refine h.move plain (by nofun) move (fun _ _ => rfl) (fun v f on => ?_) h.ended (fun _ => id)
      (fun v i here' => .inl ((move.others fun own => ?_).trans here')) fun f i runs' suit _ way =>
        way.move h.tidy plain move (by nofun) fun v on label => ?_
    · rcases starts_move h.tidy plain move on with before | ⟨label, -⟩
      · obtain ⟨runs', unyielded⟩ := h.fresh v f before
        refine ⟨runs', ?_⟩
        have other : f ≠ x := by
          rintro rfl
          cases (h.tidy.sole f).one v w ⟨_, work_of_starts before, rfl⟩ holder
          cases (switches_out move).symm.trans on
        rw [Function.update_of_ne other]
        exact unyielded
      · cases label
    · cases own
      cases here.symm.trans here'
    · -- A callback that yields is not suitable.
      cases label
      have flat := (h.tidy.flat w _ _ _ here).1
      have fresh := h.fresh w f on
      rw [here] at on
      cases on
      cases flat
      cases runs.symm.trans runs'
      obtain ⟨⟨i, runs'', kind⟩, unyielded⟩ := fresh
      cases runs.symm.trans runs''
      have none := suit kind
      omega
  · cases e

theorem Tracked.finish (h : Tracked bodies s) (e : s.finish bodies w = some s') : Tracked bodies s' := by
  unfold State.finish at e
  obtain ⟨⟨x, j⟩, exec, e⟩ := Option.bind_eq_some_iff.1 e
  obtain ⟨runs, work, rest, here⟩ := executing_eq exec
  dsimp only at e
  split at e
  · rename_i all
    obtain ⟨run, moved, rfl⟩ := Option.map_eq_some_iff.1 e
    have plain : Plain (.finish w) := trivial
    have move := step_moves moved
    refine h.move plain (by nofun) move (fun _ _ => rfl) (fun v f on => ?_) (fun i late => ?_)
      (fun _ => List.mem_append_left _) (fun v i here' => .inl ((move.others fun own => ?_).trans here'))
      fun f i runs' _ left way => way.move h.tidy plain move (fun v work rest here' label => left ?_) (by nofun)
    · rcases starts_move h.tidy plain move on with before | ⟨label, -⟩
      · exact h.fresh v f before
      · cases label
    · rcases List.mem_append.1 late with before | new
      · exact h.ended i before
      · rw [List.mem_singleton.1 new]
        intro callback
        have flat := (h.tidy.flat w _ _ _ here).1
        cases flat
        cases work with
        | callback x =>
          rw [← all]
          exact (h.fresh w x (by rw [here]; rfl)).2
        | task t x =>
          obtain ⟨i, runs', fiber⟩ := h.fibers x (.inr ⟨w, t, by rw [here]; rfl⟩)
          cases runs.symm.trans runs'
          cases callback.symm.trans fiber
    · cases own
      cases here.symm.trans here'
    · cases label
      cases here.symm.trans here'
      cases runs.symm.trans runs'
      exact List.mem_append_right _ (List.mem_singleton_self _)
  · cases e

theorem Tracked.create (h : Tracked bodies s) (moved : Run.step s.run .create = some run) :
    Tracked bodies { s with run, body := Function.update s.body s.run.created (some j),
                            yielded := Function.update s.yielded s.run.created 0 } := by
  have plain : Plain .create := trivial
  have move := step_moves moved
  have old {f : Ref} (busy : Busy s.run f) : f ≠ s.run.created := by
    rcases busy with ⟨t, queued, job⟩ | ⟨w, work, busy, rfl⟩
    · exact Nat.ne_of_lt (h.tidy.known.queued t queued f job)
    · exact Nat.ne_of_lt (h.tidy.known.held w _ (Pc.work_mentions busy))
  refine h.move plain (by nofun) move (fun f busy => Function.update_of_ne (old busy) ..) (fun v f on => ?_) h.ended
    (fun _ => id) (fun v i here => .inl ((move.others (by nofun)).trans here))
    fun f i _ _ _ way => way.move h.tidy plain move (by nofun) (by nofun)
  rcases starts_move h.tidy plain move on with before | ⟨label, -⟩
  · have ne : f ≠ s.run.created := old (.inr ⟨v, _, work_of_starts before, rfl⟩)
    obtain ⟨⟨i, runs, kind⟩, unyielded⟩ := h.fresh v f before
    exact ⟨⟨i, (Function.update_of_ne ne ..).trans runs, kind⟩, (Function.update_of_ne ne ..).trans unyielded⟩
  · cases label

/-- The task of the next body, in the queue. -/
structure Submits (bodies : Nat → Body) (s : State) (job : Job) : Prop where
  callback : ∀ j, job = .cb j → j = s.submitted ∧ (bodies j).kind = .callback
  fiber : ∀ f, job = .fiber f → s.body f = some s.submitted ∧ (bodies s.submitted).kind = .fiber ∧
    s.run.state f ≠ .term ∧ ¬ Busy s.run f ∧ f ∉ s.run.pool

theorem Tracked.push (h : Tracked bodies s) {job : Job} {options : ScheduleOptions} (submits : Submits bodies s job)
    (moved : Run.step s.run (.schedule job options) = some run) :
    Tracked bodies { s with run, submitted := s.submitted + 1 } := by
  have plain : Plain (.schedule job options) := trivial
  have move := step_moves moved
  have tasks : run.tasks = s.run.tasks ++ [{ options.task job with sequence := s.run.taskSequence }] ∧
      run.pc = s.run.pc ∧ run.pool = s.run.pool := by
    cases job with
    | cb j =>
      cases moved
      exact ⟨rfl, rfl, rfl⟩
    | fiber f =>
      simp only [Run.step] at moved
      split at moved <;> cases moved
      exact ⟨rfl, rfl, rfl⟩
  obtain ⟨tasks, pcs, pool⟩ := tasks
  have queues {u : Task} (queued : u ∈ run.tasks) : u ∈ s.run.tasks ∨ u.job = job := by
    rw [tasks] at queued
    exact (List.mem_append.1 queued).imp_right fun new => by rw [List.mem_singleton.1 new]; rfl
  have new : ∃ u ∈ run.tasks, u.job = job :=
    ⟨_, tasks ▸ List.mem_append_right _ (List.mem_singleton_self _), rfl⟩
  constructor
  case tidy =>
    refine h.tidy.move plain move fun f options' label => ?_
    cases label
    obtain ⟨-, -, -, idle, unpooled⟩ := submits.fiber f rfl
    have sole := h.tidy.sole f
    have unheld (w : Worker) (holds : run.Holds w f) : False := by
      obtain ⟨work, busy, fiber⟩ := holds
      rw [pcs] at busy
      exact idle (.inr ⟨w, work, busy, fiber⟩)
    refine ⟨fun w _ holds => (unheld w holds).elim, fun w holds => (unheld w holds).elim, ?_, fun cached => ?_, ?_⟩
    · rw [tasks]
      exact pairwise_snoc sole.once fun _ u queued job => idle (.inl ⟨u, queued, job⟩)
    · rw [pool] at cached
      exact absurd cached unpooled
    · rw [pool]
      exact sole.cached
  case fibers =>
    rintro f (⟨u, queued, job'⟩ | ⟨w, t, work⟩)
    · rcases queues queued with old | same
      · exact h.fibers f (.inl ⟨u, old, job'⟩)
      · obtain ⟨runs, kind, -⟩ := submits.fiber f (same.symm.trans job')
        exact ⟨_, runs, kind⟩
    · rw [pcs] at work
      exact h.fibers f (.inr ⟨w, t, work⟩)
  case callbacks =>
    rintro i (⟨u, queued, job'⟩ | ⟨w, here⟩)
    · rcases queues queued with old | same
      · exact h.callbacks i (.inl ⟨u, old, job'⟩)
      · exact (submits.callback i (same.symm.trans job')).2
    · rw [pcs] at here
      exact h.callbacks i (.inr ⟨w, here⟩)
  case fresh =>
    intro w f on
    rw [pcs] at on
    exact h.fresh w f on
  case ended => exact h.ended
  case placed =>
    intro i submitted suit left
    by_cases last : i = s.submitted
    · cases job with
      | cb j =>
        rw [last, ← (submits.callback j rfl).1]
        exact .inl new
      | fiber f =>
        obtain ⟨runs, -, alive, -⟩ := submits.fiber f rfl
        have alive' := alive_move move alive (by simp)
        exact .inr (.inr ⟨f, last ▸ runs, .inr ⟨alive', .inl new⟩⟩)
    · have earlier : i < s.submitted := Nat.lt_of_le_of_ne (Nat.lt_succ_iff.1 submitted) last
      rcases h.placed i earlier suit left with ⟨u, queued, job'⟩ | ⟨w, here⟩ | ⟨f, runs, way⟩
      · exact .inl ⟨u, tasks ▸ List.mem_append_left _ queued, job'⟩
      · exact .inr (.inl ⟨w, pcs ▸ here⟩)
      · exact .inr (.inr ⟨f, runs, way.move h.tidy plain move (by simp) (by simp)⟩)

theorem Tracked.submit (h : Tracked bodies s) {options : ScheduleOptions} (e : s.submit bodies options = some s') :
    Tracked bodies s' := by
  unfold State.submit at e
  split at e
  · rename_i kind
    obtain ⟨run, moved, rfl⟩ := Option.map_eq_some_iff.1 e
    obtain ⟨made, creates, pushes⟩ := Option.bind_eq_some_iff.1 moved
    have created := h.create (j := s.submitted) creates
    refine created.push ⟨by nofun, fun f job => ?_⟩ pushes
    cases job
    cases creates
    refine ⟨Function.update_self .., kind, ?_, ?_, fun cached => Nat.lt_irrefl _ (h.tidy.known.pooled _ cached)⟩
    · show Function.update s.run.state s.run.created .ready s.run.created ≠ .term
      rw [Function.update_self]
      nofun
    · rintro (⟨t, queued, job⟩ | ⟨w, work, busy, fiber⟩)
      · exact Nat.lt_irrefl _ (h.tidy.known.queued t queued _ job)
      · exact Nat.lt_irrefl _ (fiber ▸ h.tidy.known.held w _ (Pc.work_mentions busy))
  · rename_i kind
    obtain ⟨run, moved, rfl⟩ := Option.map_eq_some_iff.1 e
    refine h.push ⟨fun j job => ?_, by nofun⟩ moved
    cases job
    exact ⟨rfl, kind⟩

end Tracked

/-! ## Runs -/

/-- Once an idle fiber is over, the suitable bodies that were due have ended. -/
structure Kept (bodies : Nat → Body) (workers : List Worker) (s : State) : Prop where
  tracked : Tracked bodies s
  due : s.due ≤ s.submitted
  asked : ∀ w, s.idleOver w = true → s.mStopping = true
  settled : ∀ w, s.idleOver w = true → ∀ j < s.due, Suits (bodies j) → j ∈ s.ended
  exits : ∀ w, s.exited w = true → s.idleOver w = true
  returns : s.returned = true → ∀ w ∈ workers, s.exited w = true

section Kept

variable {bodies : Nat → Body} {workers : List Worker} {s s' : State} {w : Worker} {j : Nat}

/-- The call of `stop()` does not touch the bodies. -/
theorem Tracked.record {mStopping : Bool} {due : Nat} {idleOver exited : Worker → Bool} {returned : Bool}
    (h : Tracked bodies s) : Tracked bodies { s with mStopping, due, idleOver, exited, returned } where
  tidy := h.tidy
  fibers := h.fibers
  callbacks := h.callbacks
  fresh := h.fresh
  ended := h.ended
  placed := h.placed

/-- Nothing is placed when `stopping()` holds. -/
theorem Tracked.stopping (h : Tracked bodies s) (stopping : s.stopping = true) : ¬ Placed s j := by
  obtain ⟨-, empty, count⟩ := Scheduler.stopping_iff.1 stopping
  have nobody := (count ▸ h.tidy.busy).nobody
  have pick (w : Worker) : s.run.pc w = .pick := not_not.1 (nobody w)
  rintro (⟨t, queued, -⟩ | ⟨w, here⟩ | ⟨f, -, ⟨w, on⟩ | ⟨-, ⟨t, queued, -⟩ | ⟨w, t, on⟩⟩⟩)
  · rw [empty] at queued
    cases queued
  · cases (pick w).symm.trans here
  · rw [pick w] at on
    cases on
  · rw [empty] at queued
    cases queued
  · rw [pick w] at on
    exact on.elim nofun fun off => nomatch off.1

theorem kept_init : Kept bodies workers (machine bodies workers).init where
  tracked := @tracked_init bodies workers
  due := Nat.le_refl 0
  asked := nofun
  settled := nofun
  exits := nofun
  returns := nofun

/-- The steps of bodies and workers leave the call of `stop()` as it is. -/
structure Frame (s s' : State) : Prop where
  mStopping : s'.mStopping = s.mStopping
  due : s'.due = s.due
  idleOver : s'.idleOver = s.idleOver
  exited : s'.exited = s.exited
  returned : s'.returned = s.returned
  submitted : s.submitted ≤ s'.submitted
  ended : ∀ j ∈ s.ended, j ∈ s'.ended

theorem Kept.frame (h : Kept bodies workers s) (tracked : Tracked bodies s') (frame : Frame s s') :
    Kept bodies workers s' where
  tracked := tracked
  due := by
    rw [frame.due]
    exact Nat.le_trans h.due frame.submitted
  asked w idle := by
    rw [frame.idleOver] at idle
    rw [frame.mStopping]
    exact h.asked w idle
  settled w idle j due suit := by
    rw [frame.idleOver] at idle
    rw [frame.due] at due
    exact frame.ended j (h.settled w idle j due suit)
  exits w gone := by
    rw [frame.exited] at gone
    rw [frame.idleOver]
    exact h.exits w gone
  returns returned w member := by
    rw [frame.returned] at returned
    rw [frame.exited]
    exact h.returns returned w member

theorem submit_frame {options : ScheduleOptions} (e : s.submit bodies options = some s') : Frame s s' := by
  unfold State.submit at e
  split at e <;>
    · obtain ⟨run, -, rfl⟩ := Option.map_eq_some_iff.1 e
      exact ⟨rfl, rfl, rfl, rfl, rfl, Nat.le_succ _, fun _ => id⟩

theorem work_frame (e : s.work w = some s') : Frame s s' := by
  unfold State.work at e
  obtain ⟨run, -, rfl⟩ := Option.map_eq_some_iff.1 e
  split <;> exact ⟨rfl, rfl, rfl, rfl, rfl, Nat.le_refl _, fun _ => id⟩

theorem yield_frame (e : s.yield bodies w = some s') : Frame s s' := by
  unfold State.yield at e
  obtain ⟨⟨x, j⟩, -, e⟩ := Option.bind_eq_some_iff.1 e
  dsimp only at e
  split at e
  · obtain ⟨run, -, rfl⟩ := Option.map_eq_some_iff.1 e
    exact ⟨rfl, rfl, rfl, rfl, rfl, Nat.le_refl _, fun _ => id⟩
  · cases e

theorem finish_frame (e : s.finish bodies w = some s') : Frame s s' := by
  unfold State.finish at e
  obtain ⟨⟨x, j⟩, -, e⟩ := Option.bind_eq_some_iff.1 e
  dsimp only at e
  split at e
  · obtain ⟨run, -, rfl⟩ := Option.map_eq_some_iff.1 e
    exact ⟨rfl, rfl, rfl, rfl, rfl, Nat.le_refl _, fun _ => List.mem_append_left _⟩
  · cases e

theorem Kept.configure (h : Kept bodies workers s) {l : Run.Label} (plain : Plain l)
    (configures : (∃ config, l = .setMLFQConfig config) ∨ ∃ n, l = .setMaxCachedPerKey n) {run : Run.State}
    (moved : Run.step s.run l = some run) : Kept bodies workers { s with run } := by
  refine h.frame (h.tracked.own plain ?_ (step_moves moved) ?_ ?_ ?_) ⟨rfl, rfl, rfl, rfl, rfl, Nat.le_refl _, fun _ => id⟩
  all_goals rcases configures with ⟨config, rfl⟩ | ⟨n, rfl⟩ <;> nofun

theorem Kept.stop (h : Kept bodies workers s) (first : s.mStopping = false) :
    Kept bodies workers { s with mStopping := true, due := s.submitted } where
  tracked := h.tracked.record
  due := Nat.le_refl _
  asked _ _ := rfl
  settled w idle := by cases first.symm.trans (h.asked w idle)
  exits := h.exits
  returns := h.returns

theorem Kept.idle (h : Kept bodies workers s) (e : s.idle w = some s') : Kept bodies workers s' := by
  unfold State.idle at e
  split at e
  · split at e <;> cases e
    rename_i stopping
    have settled (j : Nat) (due : j < s.due) (suit : Suits (bodies j)) : j ∈ s.ended := by
      by_contra left
      exact h.tracked.stopping stopping (h.tracked.placed j (Nat.lt_of_lt_of_le due h.due) suit left)
    have asked : s.mStopping = true := (Scheduler.stopping_iff.1 stopping).1
    refine ⟨h.tracked.record,
      h.due, fun _ _ => asked, fun _ _ => settled, fun v gone => ?_, h.returns⟩
    show Function.update s.idleOver w true v = true
    rw [Function.update_apply]
    split
    · rfl
    · exact h.exits v gone
  · cases e

theorem Kept.exit (h : Kept bodies workers s) (e : s.exit w = some s') : Kept bodies workers s' := by
  unfold State.exit at e
  split at e <;> cases e
  rename_i leaves
  refine ⟨h.tracked.record,
    h.due, h.asked, h.settled, fun v gone => ?_, fun returned v member => ?_⟩
  · by_cases mine : v = w
    · subst mine
      simp only [Bool.and_eq_true] at leaves
      exact leaves.1
    · have before : Function.update s.exited w true v = true := gone
      rw [Function.update_of_ne mine] at before
      exact h.exits v before
  · show Function.update s.exited w true v = true
    rw [Function.update_apply]
    split
    · rfl
    · exact h.returns returned v member

theorem Kept.step {l : Label} (h : Kept bodies workers s) (e : Completion.step bodies workers s l = some s') :
    Kept bodies workers s' := by
  cases l with
  | submit options => exact h.frame (h.tracked.submit e) (submit_frame e)
  | setMLFQConfig config =>
    simp only [Completion.step] at e
    obtain ⟨run, moved, rfl⟩ := Option.map_eq_some_iff.1 e
    have plain : Plain (.setMLFQConfig config) := trivial
    exact h.configure plain (.inl ⟨config, rfl⟩) moved
  | setMaxCachedPerKey n =>
    simp only [Completion.step] at e
    obtain ⟨run, moved, rfl⟩ := Option.map_eq_some_iff.1 e
    have plain : Plain (.setMaxCachedPerKey n) := trivial
    exact h.configure plain (.inr ⟨n, rfl⟩) moved
  | run w =>
    simp only [Completion.step] at e
    split at e
    · exact h.frame (h.tracked.work e) (work_frame e)
    · cases e
  | yield w => exact h.frame (h.tracked.yield e) (yield_frame e)
  | finish w => exact h.frame (h.tracked.finish e) (finish_frame e)
  | stop =>
    simp only [Completion.step] at e
    split at e <;> cases e
    rename_i first
    exact h.stop (Bool.eq_false_iff.2 first)
  | idle w =>
    simp only [Completion.step] at e
    split at e
    · exact h.idle e
    · cases e
  | exit w =>
    simp only [Completion.step] at e
    split at e
    · exact h.exit e
    · cases e
  | join =>
    simp only [Completion.step] at e
    split at e <;> cases e
    rename_i all
    exact ⟨h.tracked.record,
      h.due, h.asked, h.settled, h.exits, fun _ => all.2⟩

theorem kept_of_reach (h : (machine bodies workers).Reach s) : Kept bodies workers s :=
  h.invariant kept_init fun _ _ _ kept _ e => kept.step e

end Kept

/-- **Main theorem.** When `stop()` returns, all the bodies that were submitted before it
have run to their end exactly if none of them is a callback that yields. -/
theorem runs_to_end {bodies : Nat → Body} {workers : List Worker} (threads : workers ≠ []) (s : State)
    (h : (machine bodies workers).Reach s) (returned : s.returned = true) :
    (∀ j < s.due, j ∈ s.ended) ↔ ∀ j < s.due, (bodies j).kind = .callback → (bodies j).yields = 0 := by
  have kept := kept_of_reach h
  constructor
  · intro all j due
    exact kept.tracked.ended j (all j due)
  · intro suit j due
    obtain ⟨w, member⟩ := List.exists_mem_of_ne_nil workers threads
    exact kept.settled w (kept.exits w (kept.returns returned w member)) j due (suit j due)

/-- Worker 1 picks a task and comes to the code of its fiber. -/
def comes : List Label := [.run 1, .run 1, .run 1, .run 1]

/-- It comes back to its pick. -/
def goes : List Label := [.run 1, .run 1, .run 1, .run 1]

/-- A callback that does not yield, and fibers that yield once. -/
def mixed (j : Nat) : Body := if j = 0 then ⟨.callback, 0⟩ else ⟨.fiber, 1⟩

theorem runs_to_end_mixed : ∃ s, (machine mixed [1]).Reach s ∧ s.due = 2 ∧ s.returned = true ∧ ∀ j < s.due, j ∈ s.ended := by
  obtain ⟨s, reach, is⟩ := Machine.reachIf_of_any (M := machine mixed [1]) (p := fun s => decide (s.due = 2) && s.returned)
    (by decide +kernel : ((machine mixed [1]).execIf (fun _ _ => True) (machine mixed [1]).init
      ([.submit {}, .submit {}, .stop] ++ comes ++ .finish 1 :: .run 1 :: goes ++ comes ++ .yield 1 :: goes ++ comes ++
        .finish 1 :: goes ++ [.idle 1, .exit 1, .join])).any _ = true)
  simp only [Bool.and_eq_true, decide_eq_true_eq] at is
  refine ⟨s, reach, is.1, is.2, (runs_to_end (by nofun) s reach is.2).2 fun j due kind => ?_⟩
  unfold mixed at kind ⊢
  split
  · rfl
  · rename_i later
    rw [if_neg later] at kind
    cases kind

/-- A callback that yields once is dropped: `stop()` returns without its end. -/
theorem callback_is_dropped : ¬ ∀ (bodies : Nat → Body) (workers : List Worker), workers ≠ [] →
    ∀ s, (machine bodies workers).Reach s → s.returned = true → ∀ j < s.due, j ∈ s.ended := by
  intro all
  obtain ⟨s, reach, is⟩ := Machine.reachIf_of_any (M := machine (fun _ => ⟨.callback, 1⟩) [1])
    (p := fun s => decide (s.due = 1) && s.returned && s.ended.isEmpty)
    (by decide +kernel : ((machine (fun _ => ⟨.callback, 1⟩) [1]).execIf (fun _ _ => True)
      (machine (fun _ => ⟨.callback, 1⟩) [1]).init
      ([.submit {}, .stop] ++ comes ++ .yield 1 :: goes ++ [.idle 1, .exit 1, .join])).any _ = true)
  simp only [Bool.and_eq_true, decide_eq_true_eq, List.isEmpty_iff] at is
  have ended := all _ [1] (by nofun) s reach is.1.2 0 (by rw [is.1.1]; exact Nat.one_pos)
  rw [is.2] at ended
  cases ended

end Mycoroutine.Completion
