import Mycoroutine.Interleave.Machine
import Mycoroutine.Interleave.Tally
import Mycoroutine.Scheduler.Task

/-!
# Notifications around `stop()` and `~Scheduler`

A scheduler from the start of its workers to the end of its destructor, and callers of
`NotifyWaiter` on the waiters its fibers leave. A notification locks the weak reference,
then `SchedulerRef::m_mutex`, and pushes the fiber, pinned to the thread it suspended on,
while it holds that mutex.

Which of the tasks that match its thread a worker takes is the policy's choice, and
whether a fiber comes back READY under `MLFQ` is the fiber's; both are left open.
`stop()` is called once: a call that finds `stopping()` returns at once.
-/

namespace Mycoroutine.LateNotify
set_option autoImplicit false
open Interleave

/-- `FiberWaiter`; its `schedulerRef` is that of this scheduler. -/
structure FiberWaiter where
  fiber : Ref
  threadId : Worker
deriving DecidableEq

/-- Where a worker stands in `run()`: about to pick, with a task, past it, or with
none. -/
inductive WorkerPc where
  | pick
  | running (t : Task)
  | spent
  | none
  | exited
deriving DecidableEq

/-- Where the owner of the scheduler stands: before `stop()`, inside, past it, and past
each step of `~Scheduler`. `failed` is past an assertion that fails. -/
inductive OwnerPc where
  | using
  | joining
  | returned
  | asserted
  | cleared
  | invalidated
  | released
  | failed
deriving DecidableEq

/-- Where a caller stands in `NotifyWaiter`: past the store, past `lock`, past the test
of `m_scheduler` under the mutex, past `scheduleEx`. -/
inductive NotifyPc where
  | idle
  | stored (w : FiberWaiter)
  | locked (w : FiberWaiter)
  | entered (w : FiberWaiter)
  | pushed
deriving DecidableEq

structure State where
  tasks : List Task
  activeThreadCount : Nat
  mStopping : Bool
  worker : Worker → WorkerPc
  /-- The idle fiber of a worker is `TERM`. -/
  idleOver : Worker → Bool
  owner : OwnerPc
  /-- `SchedulerRef::m_scheduler` is not null. -/
  scheduler : Bool
  /-- `SchedulerRef::m_mutex`. -/
  mutex : Option Nat
  waiters : Nat → Option FiberWaiter
  notified : Nat → Bool
  made : Nat
  notify : Nat → NotifyPc

/-- A step of a worker; `wait` is `MakeCurrentWaiter` in the fiber it executes. -/
inductive Work where
  | pick (i : Nat)
  | pickNone
  | wait (f : Ref)
  | leave
  | requeue
  | done
  | idle
  | exit

inductive Label where
  | submit (t : Task)
  | work (w : Worker) (l : Work)
  | stop
  | join
  | assertStopping
  | clear
  | invalidate
  | release
  | notify (caller waiter : Nat)
  | lock (caller : Nat) (alive : Bool)
  | enter (caller : Nat)
  | push (caller : Nat)
  | unlock (caller : Nat)
  | destroy (waiter : Nat)

namespace State

variable (s : State)

def stopping : Bool := Scheduler.stopping s.mStopping s.tasks s.activeThreadCount

def go (w : Worker) (pc : WorkerPc) : State := { s with worker := Function.update s.worker w pc }

def call (caller : Nat) (pc : NotifyPc) : State := { s with notify := Function.update s.notify caller pc }

/-- The task that `SchedulerRef::schedule` pushes. -/
def wakeup (w : FiberWaiter) : Task := { job := .fiber w.fiber, thread := w.threadId }

/-- One step of `run()`. -/
def work (w : Worker) : Work → Option State
  | .pick i =>
    match s.worker w, s.tasks[i]? with
    | .pick, some t =>
      if t.matchThread w then
        some ({ s with tasks := s.tasks.eraseIdx i, activeThreadCount := s.activeThreadCount + 1 }.go w (.running t))
      else none
    | _, _ => none
  | .pickNone => if s.worker w = .pick ∧ s.tasks.all (!·.matchThread w) then some (s.go w .none) else none
  | .wait f =>
    match s.worker w with
    | .running _ =>
      some { s with waiters := Function.update s.waiters s.made (some ⟨f, w⟩),
                    notified := Function.update s.notified s.made false, made := s.made + 1 }
    | _ => none
  | .leave =>
    match s.worker w with
    | .running _ => some (s.go w .spent)
    | _ => none
  | .requeue =>
    match s.worker w with
    | .running t => some ({ s with tasks := s.tasks ++ [t] }.go w .spent)
    | _ => none
  | .done =>
    if s.worker w = .spent then some ({ s with activeThreadCount := s.activeThreadCount - 1 }.go w .pick) else none
  | .idle =>
    if s.worker w = .none ∧ s.idleOver w = false then
      some ({ s with idleOver := Function.update s.idleOver w s.stopping }.go w .pick)
    else none
  | .exit => if s.worker w = .none ∧ s.idleOver w = true then some (s.go w .exited) else none

end State

def step (workers : List Worker) (s : State) : Label → Option State
  | .submit t => if s.mStopping then none else some { s with tasks := s.tasks ++ [t] }
  | .work w l => if w ∈ workers then s.work w l else none
  | .stop => if s.owner = .using then some { s with mStopping := true, owner := .joining } else none
  | .join => if s.owner = .joining ∧ ∀ w ∈ workers, s.worker w = .exited then some { s with owner := .returned } else none
  | .assertStopping =>
    if s.owner = .returned then some { s with owner := if s.stopping then .asserted else .failed } else none
  | .clear => if s.owner = .asserted then some { s with owner := .cleared } else none
  | .invalidate =>
    if s.owner = .cleared ∧ s.mutex = none then some { s with scheduler := false, owner := .invalidated } else none
  | .release => if s.owner = .invalidated then some { s with owner := .released } else none
  | .notify caller waiter =>
    match s.notify caller, s.waiters waiter with
    | .idle, some w => some ({ s with notified := Function.update s.notified waiter true }.call caller (.stored w))
    | _, _ => none
  | .lock caller alive =>
    match s.notify caller with
    -- once the destructor released the reference, only other callers keep it alive
    | .stored w =>
      if alive ∨ s.owner = .released then some (s.call caller (if alive then .locked w else .idle)) else none
    | _ => none
  | .enter caller =>
    match s.notify caller with
    | .locked w =>
      if s.mutex = none then
        some (if s.scheduler then { s with mutex := some caller }.call caller (.entered w) else s.call caller .idle)
      else none
    | _ => none
  | .push caller =>
    match s.notify caller with
    | .entered w => some ({ s with tasks := s.tasks ++ [State.wakeup w] }.call caller .pushed)
    | _ => none
  | .unlock caller =>
    if s.notify caller = .pushed then some ({ s with mutex := none }.call caller .idle) else none
  | .destroy waiter => some { s with waiters := Function.update s.waiters waiter none }

/-- The workers are started; the program submits its tasks before it calls `stop()`. -/
def machine (workers : List Worker) : Machine State Label where
  init := { tasks := [], activeThreadCount := 0, mStopping := false, worker := fun _ => .pick, idleOver := fun _ => false,
            owner := .using, scheduler := true, mutex := none, waiters := fun _ => none, notified := fun _ => false,
            made := 0, notify := fun _ => .idle }
  step := step workers

/-! ## The contract -/

/-- A caller runs `m_scheduler->scheduleLock`. -/
def State.Inside (s : State) (caller : Nat) : Prop := (∃ w, s.notify caller = .entered w) ∨ s.notify caller = .pushed

/-- Late notifications do no harm: none is inside of a scheduler that was invalidated,
and the assertion of the destructor did not fail. -/
structure State.Harmless (s : State) : Prop where
  invalidated : s.owner = .invalidated ∨ s.owner = .released → ∀ caller, ¬ s.Inside caller
  asserted : s.owner ≠ .failed

/-- The worker will look into the queue again. -/
def State.Looks (workers : List Worker) (s : State) (w : Worker) : Prop :=
  w ∈ workers ∧ s.worker w ≠ .exited ∧ ¬ (s.worker w = .none ∧ s.idleOver w = true)

/-- The destructor is past its assertion. -/
def State.Past (s : State) : Prop := s.owner ≠ .using ∧ s.owner ≠ .joining ∧ s.owner ≠ .returned ∧ s.owner ≠ .failed

/-- A notification that reaches the queue before the destructor's assertion finds the
thread it is for still looking. -/
def Heard (workers : List Worker) (s : State) : Label → Prop
  | .push caller =>
    match s.notify caller with
    | .entered w => s.Past ∨ s.Looks workers w.threadId
    | _ => True
  | _ => True

instance (workers : List Worker) (s : State) (w : Worker) : Decidable (s.Looks workers w) :=
  inferInstanceAs (Decidable (_ ∧ _))

instance (s : State) : Decidable s.Past := inferInstanceAs (Decidable (_ ∧ _))

instance (workers : List Worker) (s : State) (l : Label) : Decidable (Heard workers s l) := by
  unfold Heard
  split
  · split <;> infer_instance
  · infer_instance

/-! ## The invariant -/

/-- A worker that counts as active. -/
def Active (pc : WorkerPc) : Prop := (∃ t, pc = .running t) ∨ pc = .spent

/-- What holds at every stage. -/
structure Kept (workers : List Worker) (s : State) : Prop where
  active : Tally Active s.worker s.activeThreadCount
  matched : ∀ w t, s.worker w = .running t → t.matchThread w = true
  member : ∀ w, s.worker w ≠ .pick → w ∈ workers
  stopped : ∀ w, s.idleOver w = true → s.mStopping = true
  left : ∀ w, s.worker w = .exited → s.idleOver w = true
  begun : s.owner ≠ .using → s.mStopping = true
  joined : s.owner ≠ .using → s.owner ≠ .joining → ∀ w ∈ workers, s.worker w = .exited
  inside : ∀ caller, s.Inside caller ↔ s.mutex = some caller
  valid : s.scheduler = true ↔ s.owner ≠ .invalidated ∧ s.owner ≠ .released
  locked : s.scheduler = false → s.mutex = none

/-- A worker will take each task, unless one is there that keeps all of them waiting. -/
structure Queued (workers : List Worker) (s : State) : Prop where
  looked : s.Past ∨ (∀ w, s.idleOver w = false) ∨ ∀ t ∈ s.tasks, ∃ w, s.Looks workers w ∧ t.matchThread w = true
  sane : s.owner ≠ .failed

section Steps

variable {workers : List Worker} {s s' : State} {w : Worker} {pc : WorkerPc} {caller : Nat}

theorem kept_init : Kept workers (machine workers).init where
  active := Tally.zero fun _ active => by
    rcases active with ⟨t, is⟩ | is <;> cases is
  matched := nofun
  member _ off := absurd rfl off
  stopped := nofun
  left := nofun
  begun off := absurd rfl off
  joined off := absurd rfl off
  inside caller := by
    refine iff_of_false ?_ nofun
    rintro (⟨w, is⟩ | is) <;> cases is
  valid := iff_of_true rfl ⟨nofun, nofun⟩
  locked := nofun

theorem queued_init : Queued workers (machine workers).init where
  looked := .inr (.inl fun _ => rfl)
  sane := nofun

/-- A worker that has not left `run()` goes on. -/
theorem Kept.go (h : Kept workers s) {n : Nat} {tasks : List Task} (mem : w ∈ workers) (alive : s.worker w ≠ .exited)
    (active : Tally Active (Function.update s.worker w pc) n) (matched : ∀ t, pc = .running t → t.matchThread w = true)
    (left : pc = .exited → s.idleOver w = true) :
    Kept workers ({ s with tasks, activeThreadCount := n }.go w pc) := by
  refine ⟨active, fun v t here => ?_, fun v off => ?_, h.stopped, fun v here => ?_, h.begun, fun begun past => ?_, h.inside,
    h.valid, h.locked⟩
  · by_cases mine : v = w
    · subst mine
      simp only [State.go, Function.update_self] at here
      exact matched t here
    · simp only [State.go, Function.update_of_ne mine] at here
      exact h.matched v t here
  · by_cases mine : v = w
    · exact mine ▸ mem
    · simp only [State.go, Function.update_of_ne mine] at off
      exact h.member v off
  · by_cases mine : v = w
    · subst mine
      simp only [State.go, Function.update_self] at here
      exact left here
    · simp only [State.go, Function.update_of_ne mine] at here
      exact h.left v here
  · exact absurd (h.joined begun past w mem) alive

theorem not_active {pc : WorkerPc} (apart : ∀ t, pc ≠ .running t) (other : pc ≠ .spent) : ¬ Active pc := by
  rintro (⟨t, is⟩ | is)
  · exact apart t is
  · exact other is

theorem Kept.work (h : Kept workers s) {l : Work} (mem : w ∈ workers) (e : s.work w l = some s') : Kept workers s' := by
  cases l with
  | pick i =>
    simp only [State.work] at e
    split at e
    · rename_i here found
      split at e <;> cases e
      rename_i fits
      refine h.go mem (by rw [here]; nofun) ?_ (fun t is => ?_) nofun
      · exact h.active.enter (by rw [here]; exact not_active nofun nofun) (.inl ⟨_, rfl⟩)
      · cases is
        exact fits
    · cases e
  | pickNone =>
    simp only [State.work] at e
    split at e <;> cases e
    rename_i guard
    refine h.go mem (by rw [guard.1]; nofun) ?_ nofun nofun
    refine h.active.same (iff_of_false (not_active nofun nofun) ?_)
    rw [guard.1]
    exact not_active nofun nofun
  | wait f =>
    simp only [State.work] at e
    split at e <;> cases e
    exact ⟨h.active, h.matched, h.member, h.stopped, h.left, h.begun, h.joined, h.inside, h.valid, h.locked⟩
  | leave =>
    simp only [State.work] at e
    split at e <;> cases e
    rename_i t here
    refine h.go mem (by rw [here]; nofun) ?_ nofun nofun
    exact h.active.same (iff_of_true (.inr rfl) (.inl ⟨t, here⟩))
  | requeue =>
    simp only [State.work] at e
    split at e <;> cases e
    rename_i t here
    refine h.go mem (by rw [here]; nofun) ?_ nofun nofun
    exact h.active.same (iff_of_true (.inr rfl) (.inl ⟨t, here⟩))
  | done =>
    simp only [State.work] at e
    split at e <;> cases e
    rename_i here
    exact h.go mem (by rw [here]; nofun) (h.active.leave (.inr here) (not_active nofun nofun)) nofun nofun
  | idle =>
    simp only [State.work] at e
    split at e <;> cases e
    rename_i guard
    obtain ⟨here, fresh⟩ := guard
    have moved : Kept workers (s.go w .pick) := by
      refine h.go mem (by rw [here]; nofun) (h.active.same (iff_of_false (not_active nofun nofun) ?_)) nofun nofun
      rw [here]
      exact not_active nofun nofun
    refine ⟨moved.active, moved.matched, moved.member, fun v is => ?_, fun v here' => ?_, h.begun, moved.joined, h.inside,
      h.valid, h.locked⟩
    · by_cases mine : v = w
      · subst mine
        simp only [State.go, Function.update_self] at is
        exact (Scheduler.stopping_iff.1 is).1
      · simp only [State.go, Function.update_of_ne mine] at is
        exact h.stopped v is
    · by_cases mine : v = w
      · subst mine
        simp only [State.go, Function.update_self] at here'
        cases here'
      · simp only [State.go, Function.update_of_ne mine] at here' ⊢
        exact h.left v here'
  | exit =>
    simp only [State.work] at e
    split at e <;> cases e
    rename_i guard
    refine h.go mem (by rw [guard.1]; nofun) ?_ nofun fun _ => guard.2
    refine h.active.same (iff_of_false (not_active nofun nofun) ?_)
    rw [guard.1]
    exact not_active nofun nofun

/-- A place of `NotifyWaiter` inside of the scheduler. -/
def Entered (pc : NotifyPc) : Prop := (∃ w, pc = .entered w) ∨ pc = .pushed

theorem not_entered {pc : NotifyPc} (apart : ∀ w, pc ≠ .entered w) (other : pc ≠ .pushed) : ¬ Entered pc := by
  rintro (⟨w, is⟩ | is)
  · exact apart w is
  · exact other is

/-- A caller goes on, with the mutex or without. -/
theorem Kept.call (h : Kept workers s) {next : NotifyPc} {tasks : List Task} {notified : Nat → Bool} {mutex : Option Nat}
    (mine : Entered next ↔ mutex = some caller) (others : ∀ c, c ≠ caller → (mutex = some c ↔ s.mutex = some c))
    (locked : s.scheduler = false → mutex = none) :
    Kept workers ({ s with tasks, notified, mutex }.call caller next) := by
  refine ⟨h.active, h.matched, h.member, h.stopped, h.left, h.begun, h.joined, fun c => ?_, h.valid, locked⟩
  by_cases same : c = caller
  · subst same
    simp only [State.Inside, State.call, Function.update_self]
    exact mine
  · simp only [State.Inside, State.call, Function.update_of_ne same]
    exact (h.inside c).trans (others c same).symm

/-- The owner goes on, or a task or a waiter comes or goes. -/
theorem Kept.own (h : Kept workers s) {owner : OwnerPc} {mStopping scheduler : Bool} {tasks : List Task}
    {waiters : Nat → Option FiberWaiter} (isOver : s.mStopping = true → mStopping = true)
    (begun : owner ≠ .using → mStopping = true)
    (joined : owner ≠ .using → owner ≠ .joining → ∀ w ∈ workers, s.worker w = .exited)
    (valid : scheduler = true ↔ owner ≠ .invalidated ∧ owner ≠ .released) (locked : scheduler = false → s.mutex = none) :
    Kept workers { s with owner, mStopping, scheduler, tasks, waiters } :=
  ⟨h.active, h.matched, h.member, fun w is => isOver (h.stopped w is), h.left, begun, joined, h.inside, valid, locked⟩

theorem Kept.step {l : Label} (h : Kept workers s) (e : step workers s l = some s') : Kept workers s' := by
  -- the owner takes a step from `owner` that leaves the reference as it is
  have advance {owner : OwnerPc} (started : s.owner ≠ .using) (out : s.owner ≠ .joining)
      (valid : owner ≠ .invalidated ∧ owner ≠ .released ↔ s.owner ≠ .invalidated ∧ s.owner ≠ .released) :
      Kept workers { s with owner } :=
    h.own id (fun _ => h.begun started) (fun _ _ => h.joined started out) (h.valid.trans valid.symm) h.locked
  cases l with
  | submit t =>
    simp only [LateNotify.step] at e
    split at e <;> cases e
    exact h.own id h.begun h.joined h.valid h.locked
  | work w l =>
    simp only [LateNotify.step] at e
    split at e
    · rename_i mem
      exact h.work mem e
    · cases e
  | stop =>
    simp only [LateNotify.step] at e
    split at e <;> cases e
    rename_i here
    refine h.own (fun _ => rfl) (fun _ => rfl) (fun _ out => absurd rfl out) ?_ h.locked
    exact h.valid.trans (iff_of_true (by rw [here]; exact ⟨nofun, nofun⟩) ⟨nofun, nofun⟩)
  | join =>
    simp only [LateNotify.step] at e
    split at e <;> cases e
    rename_i guard
    obtain ⟨here, left⟩ := guard
    refine h.own id (fun _ => h.begun (by rw [here]; nofun)) (fun _ _ => left) ?_ h.locked
    exact h.valid.trans (iff_of_true (by rw [here]; exact ⟨nofun, nofun⟩) ⟨nofun, nofun⟩)
  | assertStopping =>
    simp only [LateNotify.step] at e
    split at e <;> cases e
    rename_i here
    refine advance (by rw [here]; nofun) (by rw [here]; nofun) (iff_of_true ?_ (by rw [here]; exact ⟨nofun, nofun⟩))
    split <;> exact ⟨nofun, nofun⟩
  | clear =>
    simp only [LateNotify.step] at e
    split at e <;> cases e
    rename_i here
    exact advance (by rw [here]; nofun) (by rw [here]; nofun)
      (iff_of_true ⟨nofun, nofun⟩ (by rw [here]; exact ⟨nofun, nofun⟩))
  | invalidate =>
    simp only [LateNotify.step] at e
    split at e <;> cases e
    rename_i guard
    obtain ⟨here, free⟩ := guard
    exact h.own id (fun _ => h.begun (by rw [here]; nofun)) (fun _ _ => h.joined (by rw [here]; nofun) (by rw [here]; nofun))
      (iff_of_false nofun fun valid => valid.1 rfl) fun _ => free
  | release =>
    simp only [LateNotify.step] at e
    split at e <;> cases e
    rename_i here
    exact advance (by rw [here]; nofun) (by rw [here]; nofun)
      (iff_of_false (fun valid => valid.2 rfl) (by rw [here]; exact fun valid => valid.1 rfl))
  | notify caller waiter =>
    simp only [LateNotify.step] at e
    split at e <;> cases e
    rename_i w here found
    refine h.call (iff_of_false (not_entered nofun nofun) fun mine => ?_) (fun _ _ => Iff.rfl) h.locked
    rcases (h.inside caller).2 mine with ⟨w, is⟩ | is <;> cases here.symm.trans is
  | lock caller alive =>
    simp only [LateNotify.step] at e
    split at e
    · rename_i w here
      split at e <;> cases e
      refine h.call (iff_of_false ?_ fun mine => ?_) (fun _ _ => Iff.rfl) h.locked
      · split <;> exact not_entered nofun nofun
      · rcases (h.inside caller).2 mine with ⟨w, is⟩ | is <;> cases here.symm.trans is
    · cases e
  | enter caller =>
    simp only [LateNotify.step] at e
    split at e
    · rename_i w here
      split at e
      · rename_i free
        split at e <;> cases e
        · rename_i valid
          refine h.call (iff_of_true (.inl ⟨w, rfl⟩) rfl) (fun c other => ?_) fun invalid => ?_
          · rw [free]
            exact iff_of_false (fun same => other (Option.some.inj same).symm) nofun
          · cases valid.symm.trans invalid
        · refine h.call (iff_of_false (not_entered nofun nofun) ?_) (fun _ _ => Iff.rfl) h.locked
          rw [free]
          nofun
      · cases e
    · cases e
  | push caller =>
    simp only [LateNotify.step] at e
    split at e <;> cases e
    rename_i w here
    exact h.call (iff_of_true (.inr rfl) ((h.inside caller).1 (.inl ⟨w, here⟩))) (fun _ _ => Iff.rfl) h.locked
  | unlock caller =>
    simp only [LateNotify.step] at e
    split at e <;> cases e
    rename_i here
    have mine := (h.inside caller).1 (.inr here)
    refine h.call (iff_of_false (not_entered nofun nofun) nofun) (fun c other => ?_) fun _ => rfl
    rw [mine]
    exact iff_of_false nofun fun same => other (Option.some.inj same).symm
  | destroy waiter =>
    cases e
    exact h.own id h.begun h.joined h.valid h.locked

/-- The step leaves no task to nobody: a task of the next state was there before or has a
worker that looks, and a worker that looks no more leaves no task behind that it matches. -/
theorem Queued.keep (h : Queued workers s) (same : s'.owner = s.owner)
    (idle : (∀ v, s.idleOver v = false) → (∀ v, s'.idleOver v = false) ∨ s'.tasks = [])
    (tasks : ∀ t ∈ s'.tasks, t ∈ s.tasks ∨ ∃ v, s'.Looks workers v ∧ t.matchThread v = true)
    (looks : ∀ t ∈ s'.tasks, ∀ v, s.Looks workers v → t.matchThread v = true → s'.Looks workers v) : Queued workers s' := by
  refine ⟨?_, same ▸ h.sane⟩
  rcases h.looked with past | none' | found
  · left
    unfold State.Past at past ⊢
    rwa [same]
  · rcases idle none' with still | empty
    · exact .inr (.inl still)
    · refine .inr (.inr fun t mem => ?_)
      rw [empty] at mem
      cases mem
  · refine .inr (.inr fun t mem => ?_)
    rcases tasks t mem with old | new
    · obtain ⟨v, lookers, fits⟩ := found t old
      exact ⟨v, looks t mem v lookers fits, fits⟩
    · exact new

/-- A worker that goes on and does not look its last. -/
theorem looks_go {tasks : List Task} {n : Nat} {v : Worker} (stays : pc ≠ .exited ∧ (pc = .none → s.idleOver w = false))
    (looks : s.Looks workers v) : ({ s with tasks, activeThreadCount := n }.go w pc).Looks workers v := by
  obtain ⟨mem, alive, last⟩ := looks
  by_cases mine : v = w
  · subst mine
    refine ⟨mem, ?_, ?_⟩
    · simpa only [State.go, Function.update_self] using stays.1
    · simp only [State.go, Function.update_self]
      rintro ⟨none', isOver⟩
      cases (stays.2 none').symm.trans isOver
  · refine ⟨mem, ?_, ?_⟩
    · simpa only [State.go, Function.update_of_ne mine] using alive
    · simpa only [State.go, Function.update_of_ne mine] using last

theorem Queued.work (h : Queued workers s) (kept : Kept workers s) {l : Work} (mem : w ∈ workers)
    (e : s.work w l = some s') : Queued workers s' := by
  cases l with
  | pick i =>
    simp only [State.work] at e
    split at e
    · split at e <;> cases e
      exact h.keep rfl .inl (fun t mem => .inl (List.mem_of_mem_eraseIdx mem)) fun _ _ _ looks _ =>
        looks_go ⟨nofun, nofun⟩ looks
    · cases e
  | pickNone =>
    simp only [State.work] at e
    split at e <;> cases e
    rename_i guard
    refine h.keep rfl .inl (fun _ => .inl) fun t queued v looks fits => ?_
    -- the worker that looked its last matches no task
    have other : v ≠ w := fun mine => by
      have none' := List.all_eq_true.1 guard.2 t queued
      rw [← mine, fits] at none'
      cases none'
    obtain ⟨mem, alive, last⟩ := looks
    refine ⟨mem, ?_, ?_⟩
    · simpa only [State.go, Function.update_of_ne other] using alive
    · simpa only [State.go, Function.update_of_ne other] using last
  | wait f =>
    simp only [State.work] at e
    split at e <;> cases e
    exact h.keep rfl .inl (fun _ => .inl) fun _ _ _ looks _ => looks
  | leave =>
    simp only [State.work] at e
    split at e <;> cases e
    exact h.keep rfl .inl (fun _ => .inl) fun _ _ _ looks _ => looks_go ⟨nofun, nofun⟩ looks
  | requeue =>
    simp only [State.work] at e
    split at e <;> cases e
    rename_i t here
    have looks : s.Looks workers w := ⟨mem, by rw [here]; nofun, by rw [here]; nofun⟩
    refine h.keep rfl .inl (fun u queued => ?_) fun _ _ _ looks _ => looks_go ⟨nofun, nofun⟩ looks
    rcases List.mem_append.1 queued with old | new
    · exact .inl old
    · rw [List.mem_singleton.1 new]
      exact .inr ⟨w, looks_go ⟨nofun, nofun⟩ looks, kept.matched w t here⟩
  | done =>
    simp only [State.work] at e
    split at e <;> cases e
    exact h.keep rfl .inl (fun _ => .inl) fun _ _ _ looks _ => looks_go ⟨nofun, nofun⟩ looks
  | idle =>
    simp only [State.work] at e
    split at e <;> cases e
    refine h.keep rfl (fun none' => ?_) (fun _ => .inl) fun _ _ v looks _ => ?_
    · cases stops : s.stopping with
      | true =>
        right
        exact (Scheduler.stopping_iff.1 stops).2.1
      | false =>
        left
        intro v
        by_cases mine : v = w
        · simp only [mine, State.go, Function.update_self]
        · simpa only [State.go, Function.update_of_ne mine] using none' v
    · obtain ⟨mem, alive, last⟩ := looks
      by_cases mine : v = w
      · subst mine
        simp only [State.Looks, State.go, Function.update_self]
        exact ⟨mem, nofun, fun off => nomatch off.1⟩
      · simp only [State.Looks, State.go, Function.update_of_ne mine]
        exact ⟨mem, alive, last⟩
  | exit =>
    simp only [State.work] at e
    split at e <;> cases e
    rename_i guard
    refine h.keep rfl .inl (fun _ => .inl) fun _ _ v looks _ => ?_
    obtain ⟨mem, alive, last⟩ := looks
    have other : v ≠ w := fun mine => last (mine ▸ guard)
    simp only [State.Looks, State.go, Function.update_of_ne other]
    exact ⟨mem, alive, last⟩

/-- When every worker has left, nothing is queued and nobody is active. -/
theorem stopping_of_left (threads : workers ≠ []) (kept : Kept workers s) (h : Queued workers s) (here : s.owner = .returned) :
    s.stopping = true := by
  have left := kept.joined (by rw [here]; nofun) (by rw [here]; nofun)
  obtain ⟨w, mem⟩ := List.exists_mem_of_ne_nil workers threads
  have isOver : s.idleOver w = true := kept.left w (left w mem)
  have empty : s.tasks = [] := by
    rcases h.looked with past | none' | found
    · exact absurd here past.2.2.1
    · cases (none' w).symm.trans isOver
    · rw [List.eq_nil_iff_forall_not_mem]
      intro t queued
      obtain ⟨v, ⟨mem', alive, -⟩, -⟩ := found t queued
      exact alive (left v mem')
  have nobody : s.activeThreadCount = 0 := by
    refine kept.active.eq_zero fun v active => ?_
    have member : v ∈ workers := kept.member v (by rcases active with ⟨t, is⟩ | is <;> rw [is] <;> nofun)
    rcases active with ⟨t, is⟩ | is <;> cases (left v member).symm.trans is
  exact Scheduler.stopping_iff.2 ⟨kept.stopped w isOver, empty, nobody⟩

theorem Queued.step {l : Label} (threads : workers ≠ []) (kept : Kept workers s) (h : Queued workers s)
    (heard : Heard workers s l) (e : step workers s l = some s') : Queued workers s' := by
  -- the owner takes a step that leaves workers and queue alone
  have advance {m : State} (work : m.worker = s.worker ∧ m.idleOver = s.idleOver ∧ m.tasks = s.tasks)
      (past : s.Past → m.Past) (sane : m.owner ≠ .failed) : Queued workers m := by
    obtain ⟨worker, idleOver, tasks⟩ := work
    refine ⟨h.looked.imp past ?_, sane⟩
    unfold State.Looks
    rw [worker, idleOver, tasks]
    exact id
  cases l with
  | submit t =>
    simp only [LateNotify.step] at e
    split at e <;> cases e
    rename_i before
    have using' : s.owner = .using := by
      by_contra begun
      exact before (kept.begun begun)
    refine ⟨.inr (.inl fun w => ?_), h.sane⟩
    by_contra isOver
    exact before (kept.stopped w (Bool.eq_true_of_not_eq_false isOver))
  | work w l =>
    simp only [LateNotify.step] at e
    split at e
    · rename_i mem
      exact h.work kept mem e
    · cases e
  | stop =>
    simp only [LateNotify.step] at e
    split at e <;> cases e
    rename_i here
    exact advance ⟨rfl, rfl, rfl⟩ (fun past => absurd here past.1) nofun
  | join =>
    simp only [LateNotify.step] at e
    split at e <;> cases e
    rename_i guard
    exact advance ⟨rfl, rfl, rfl⟩ (fun past => absurd guard.1 past.2.1) nofun
  | assertStopping =>
    simp only [LateNotify.step] at e
    split at e <;> cases e
    rename_i here
    rw [stopping_of_left threads kept h here, if_pos rfl]
    exact advance ⟨rfl, rfl, rfl⟩ (fun past => absurd here past.2.2.1) nofun
  | clear =>
    simp only [LateNotify.step] at e
    split at e <;> cases e
    exact advance ⟨rfl, rfl, rfl⟩ (fun _ => ⟨nofun, nofun, nofun, nofun⟩) nofun
  | invalidate =>
    simp only [LateNotify.step] at e
    split at e <;> cases e
    exact advance ⟨rfl, rfl, rfl⟩ (fun _ => ⟨nofun, nofun, nofun, nofun⟩) nofun
  | release =>
    simp only [LateNotify.step] at e
    split at e <;> cases e
    exact advance ⟨rfl, rfl, rfl⟩ (fun _ => ⟨nofun, nofun, nofun, nofun⟩) nofun
  | push caller =>
    simp only [LateNotify.step] at e
    split at e <;> cases e
    rename_i w here
    simp only [Heard, here] at heard
    rcases heard with past | looks
    · exact ⟨.inl past, h.sane⟩
    · refine ⟨?_, h.sane⟩
      rcases h.looked with past | none' | found
      · exact .inl past
      · exact .inr (.inl none')
      · refine .inr (.inr fun t queued => ?_)
        rcases List.mem_append.1 queued with old | new
        · exact found t old
        · rw [List.mem_singleton.1 new]
          exact ⟨w.threadId, looks, by simp [State.wakeup, Task.matchThread]⟩
  | notify caller waiter | unlock caller =>
    simp only [LateNotify.step] at e
    split at e <;> cases e
    exact advance ⟨rfl, rfl, rfl⟩ id h.sane
  | lock caller alive =>
    simp only [LateNotify.step] at e
    split at e
    · split at e <;> cases e
      exact advance ⟨rfl, rfl, rfl⟩ id h.sane
    · cases e
  | enter caller =>
    simp only [LateNotify.step] at e
    split at e
    · split at e
      · split at e <;> cases e <;> exact advance ⟨rfl, rfl, rfl⟩ id h.sane
      · cases e
    · cases e
  | destroy waiter =>
    cases e
    exact advance ⟨rfl, rfl, rfl⟩ id h.sane

theorem kept_of_reach {cond : State → Label → Prop} (h : (machine workers).ReachIf cond s) : Kept workers s :=
  h.reach.invariant kept_init fun _ _ _ inv _ e => inv.step e

theorem Kept.invalidated (h : Kept workers s) (gone : s.owner = .invalidated ∨ s.owner = .released) : ¬ s.Inside caller := by
  have invalid : s.scheduler = false := by
    by_contra valid
    obtain ⟨first, second⟩ := h.valid.1 (Bool.eq_true_of_not_eq_false valid)
    exact gone.elim first second
  rw [h.inside, h.locked invalid]
  nofun

end Steps

/-- **Main theorem.** Where every notification before the destructor's assertion is heard,
late notifications are harmless. -/
theorem harmless {workers : List Worker} (threads : workers ≠ []) (s : State)
    (h : (machine workers).ReachIf (Heard workers) s) : s.Harmless := by
  have kept := kept_of_reach h
  have queued : Queued workers s := h.invariant_with (Kept workers) (fun _ => kept_of_reach) queued_init
    fun s l s' kept queued heard e _ => queued.step threads kept heard e
  exact ⟨fun gone caller => kept.invalidated gone, queued.sane⟩

/-- The one worker runs a fiber that waits, and `stop()` returns. -/
def waits : List Label := [.submit { job := .cb 0 }, .work 1 (.pick 0), .work 1 (.wait 0), .work 1 .leave, .work 1 .done]

def stops : List Label :=
  [.stop, .work 1 .pickNone, .work 1 .idle, .work 1 .pickNone, .work 1 .exit, .join]

/-- `NotifyWaiter` on the waiter of that fiber. -/
def notifies : List Label := [.notify 0 0, .lock 0 true, .enter 0, .push 0, .unlock 0]

/-- The fiber is notified before `stop()` is called, and once more when the reference is
invalid. -/
theorem harmless_heard : ∃ s : State, s.owner = .released ∧ s.notified 0 = true ∧ s.Harmless := by
  obtain ⟨s, reached, is⟩ := Machine.reachIf_of_any (M := machine [1])
    (p := fun s => decide (s.owner = .released ∧ s.notified 0 = true))
    (by decide +kernel : ((machine [1]).execIf (Heard [1]) (machine [1]).init
      (waits ++ notifies ++ [.work 1 (.pick 0), .work 1 .leave, .work 1 .done] ++ stops ++
        [.assertStopping, .clear, .invalidate, .notify 0 0, .lock 0 true, .enter 0, .release])).any _ = true)
  obtain ⟨released, notified⟩ := of_decide_eq_true is
  exact ⟨s, released, notified, harmless (List.cons_ne_nil 1 []) s reached⟩

/-- The fiber is notified between the return of `stop()` and the destructor. -/
theorem notified_too_late : ¬ ∀ workers : List Worker, workers ≠ [] → ∀ s, (machine workers).Reach s → s.Harmless := by
  intro all
  obtain ⟨s, reached, is⟩ := Machine.reachIf_of_any (M := machine [1]) (p := fun s => decide (s.owner = .failed))
    (by decide +kernel : ((machine [1]).execIf (fun _ _ => True) (machine [1]).init
      (waits ++ stops ++ notifies ++ [.assertStopping])).any _ = true)
  exact (all [1] (List.cons_ne_nil 1 []) s reached).asserted (of_decide_eq_true is)

end Mycoroutine.LateNotify
