import Mycoroutine.Interleave.LockOrder

/-!
# The locks of the library

The mutexes that the functions take, in which scopes, what they call there, and where
they stop for something else: `epoll_wait`, `join`, a condition variable, an original
call that blocks, or whatever code of a user does. Which way a branch goes and how often
a loop runs is left open.

A function that yields is cut there. The rest of it belongs to the thread that resumes
the fiber, and runs under `Fiber::m_mutex` like everything a fiber does; a fiber may run
these pieces in any order. The eventfd is no socket, so the hooked calls on it only look
for a context. Copies and destructors of callbacks and values take no lock.

`started` is no mutex: the thread that a `Thread` creates holds it until it has
signalled, and the constructor waits for it.
-/

namespace Mycoroutine.Locks
set_option autoImplicit false
open Interleave LockOrder

/-- `IOManager::m_mutex` is `fdContexts`; `sync` is the `m_mutex` of a `CoMutex`, a
`WaitGroup` or a `Channel`. An `IOManager` has the number of its scheduler, and the
semaphore of a thread that of the thread. -/
inductive Lock where
  | fiber (f : Nat)
  | fdContext (s fd : Nat)
  | schedulerRef (s : Nat)
  | scheduler (s : Nat)
  | started (v : Nat)
  | fdContexts (s : Nat)
  | timers (s : Nat)
  | coroutinePool (s : Nat)
  | singleton
  | fdManager
  | semaphore (v : Nat)
  | sync (m : Nat)
  | logger
deriving DecidableEq

/-- `retry` is the rest of `do_io` from its label, and `resumed` what follows its `yield`
and that of `connect_with_timeout`; `accepted` is what `accept` does after `do_io`.
`caller` says that the scheduler has an `m_schedulerFiber`. `user` is code of a user in a
fiber or elsewhere, `main` that of a thread outside of fibers. -/
inductive Proc where
  | setPolicy (s : Nat)
  | getPolicy (s : Nat)
  | setMLFQConfig (s : Nat)
  | getMLFQConfig (s : Nat)
  | scheduleEx (s : Nat)
  | schedule (s : Nat)
  | invalidate (s : Nat)
  | start (s : Nat)
  | run (s : Nat)
  | resume (f : Nat)
  | stop (s : Nat) (caller : Bool)
  | destruct (s : Nat) (caller : Bool)
  | tickle (s : Nat)
  | idle (s : Nat)
  | stopping (s : Nat)
  | acquire (s : Nat)
  | release (s : Nat)
  | setMaxCachedPerKey (s : Nat)
  | getMaxCachedPerKey (s : Nat)
  | cachedCount (s : Nat)
  | clear (s : Nat)
  | cancel (s : Nat)
  | refresh (s : Nat)
  | reset (s : Nat)
  | addTimer (s : Nat)
  | onTimerInsertedAtFront (s : Nat)
  | getNextTimer (s : Nat)
  | listExpiredCb (s : Nat)
  | hasTimer (s : Nat)
  | addEvent (s fd : Nat)
  | delEvent (s fd : Nat)
  | cancelEvent (s fd : Nat)
  | cancelAll (s fd : Nat)
  | dispatch (s fd : Nat)
  | triggerEvent (s : Nat)
  | getInstance
  | destroyInstance
  | get (autoCreate : Bool)
  | del
  | doIo (s fd : Nat)
  | retry (s fd : Nat)
  | resumed (s fd : Nat)
  | connectWithTimeout (s fd : Nat)
  | accepted
  | socket
  | close (s fd : Nat)
  | fcntl
  | ioctl
  | setsockopt
  | sleep (s : Nat)
  | lock (m : Nat)
  | tryLock (m : Nat)
  | unlock (m : Nat)
  | add (m : Nat)
  | wait (m : Nat)
  | send (m : Nat)
  | recv (m : Nat)
  | closeChannel (m : Nat)
  | isClosed (m : Nat)
  | size (m : Nat)
  | semaphoreWait (v : Nat)
  | signal (v : Nat)
  | thread (v : Nat)
  | log
  | user
  | main
deriving DecidableEq

namespace Proc

def isThread : Proc → Bool
  | .thread _ => true
  | _ => false

def isResume : Proc → Bool
  | .resume _ => true
  | _ => false

def isSchedule : Proc → Bool
  | .schedule _ => true
  | _ => false

def isDispatch (s : Nat) : Proc → Bool
  | .dispatch s' _ => s' == s
  | _ => false

def isClose (s : Nat) : Proc → Bool
  | .close s' _ => s' == s
  | _ => false

/-- What only a thread outside of fibers does: it resumes the scheduler fiber. -/
def isOutside : Proc → Bool
  | .stop _ caller | .destruct _ caller => caller
  | _ => false

/-- What code of a user can call, or go on with. -/
def isPublic : Proc → Bool
  | .stop _ caller | .destruct _ caller => !caller
  | .run _ | .resume _ | .tickle _ | .idle _ | .stopping _ | .dispatch _ _ | .triggerEvent _ | .onTimerInsertedAtFront _
  | .retry _ _ | .user | .main => false
  | _ => true

end Proc

/-! ## The functions -/

section Functions

/-- A section of an `std::lock_guard` that takes no other lock. -/
def guarded (k : Lock) : Code Lock Proc := .lock .exclusive k .skip

/-- `FdMgr::GetInstance()->get(fd)`. -/
def lookup (autoCreate : Bool) : Code Lock Proc := .seq (.call .getInstance) (.call (.get autoCreate))

/-- The section in which an `m_fdContexts` entry is read. -/
def find (s : Nat) : Code Lock Proc := .lock .shared (.fdContexts s) .skip

/-- The timer and the registration of a call, up to its `yield`. -/
def suspend (s fd : Nat) : Code Lock Proc :=
  .seq (.either (.call (.addTimer s)) .skip) (.seq (.call (.addEvent s fd)) (.either (.call (.cancel s)) .skip))

/-- `run()`: what one round does with a fiber, with a callback, and without a task. -/
def runFiber (s : Nat) : Code Lock Proc :=
  .seq (.any Proc.isResume) (.seq (guarded (.scheduler s)) (.either (.call (.tickle s)) .skip))

def runCallback (s : Nat) : Code Lock Proc :=
  .seq (.call (.acquire s)) (.either .skip (.seq (.any Proc.isResume) (.either (.call (.release s)) .skip)))

def round (s : Nat) : Code Lock Proc :=
  .seq (guarded (.scheduler s)) (.seq (.either (.call (.tickle s)) .skip)
    (.either (runFiber s) (.either (runCallback s) (.call (.idle s)))))

/-- One round of `IOManager::idle`. -/
def poll (s : Nat) : Code Lock Proc :=
  .seq (.call (.stopping s)) (.either .skip (.seq (.loop (.seq (.call (.getNextTimer s)) .wait))
    (.seq (.call (.listExpiredCb s)) (.seq (.loop (.call (.scheduleEx s)))
      (.loop (.either (.loop (lookup false)) (.any (Proc.isDispatch s))))))))

variable (isIOManager : Nat → Bool)

def body : Proc → Code Lock Proc
  | .setPolicy s | .getPolicy s | .setMLFQConfig s | .getMLFQConfig s => guarded (.scheduler s)
  | .scheduleEx s => .seq (guarded (.scheduler s)) (.either (.call (.tickle s)) .skip)
  | .schedule s => .either .skip (.lock .exclusive (.schedulerRef s) (.either .skip (.call (.scheduleEx s))))
  | .invalidate s => guarded (.schedulerRef s)
  | .start s => .lock .exclusive (.scheduler s) (.loop (.any Proc.isThread))
  | .run s => .loop (round s)
  | .resume f => .lock .exclusive (.fiber f) (.either (.call .user) .skip)
  | .stop s caller =>
    .seq (.call (.stopping s)) (.either .skip (.seq (guarded (.scheduler s)) (.seq (.loop (.call (.tickle s)))
      (.seq (if caller then .call (.run s) else .skip) (.seq (guarded (.scheduler s)) (.seq (.loop .wait) (.call (.clear s))))))))
  | .destruct s caller =>
    .seq (if isIOManager s then .seq (.call (.stop s caller)) (.loop (.any (Proc.isClose s))) else .skip)
      (.seq (guarded (.scheduler s)) (.seq (.call (.clear s)) (.call (.invalidate s))))
  | .tickle s => if isIOManager s then .either .skip (lookup false) else .skip
  | .idle s => .loop (if isIOManager s then poll s else .seq (.call (.stopping s)) (.call (.sleep s)))
  | .stopping s =>
    if isIOManager s then .seq (.call (.getNextTimer s)) (.either .skip (guarded (.scheduler s))) else guarded (.scheduler s)
  | .acquire s | .release s | .setMaxCachedPerKey s | .getMaxCachedPerKey s | .cachedCount s | .clear s =>
    guarded (.coroutinePool s)
  | .cancel s | .refresh s | .getNextTimer s | .listExpiredCb s => guarded (.timers s)
  | .hasTimer s => .lock .shared (.timers s) .skip
  | .addTimer s => .seq (guarded (.timers s)) (.either (.call (.onTimerInsertedAtFront s)) .skip)
  | .reset s => .either .skip (.seq (guarded (.timers s)) (.either .skip (.call (.addTimer s))))
  | .onTimerInsertedAtFront s => .call (.tickle s)
  | .addEvent s fd =>
    .either .skip (.seq (find s) (.seq (.either .skip (guarded (.fdContexts s))) (guarded (.fdContext s fd))))
  | .delEvent s fd => .seq (find s) (.either .skip (guarded (.fdContext s fd)))
  | .cancelEvent s fd =>
    .seq (find s) (.either .skip (.lock .exclusive (.fdContext s fd) (.either .skip (.call (.triggerEvent s)))))
  | .cancelAll s fd =>
    .seq (find s) (.either .skip (.lock .exclusive (.fdContext s fd) (.loop (.call (.triggerEvent s)))))
  | .dispatch s fd => .lock .exclusive (.fdContext s fd) (.loop (.call (.triggerEvent s)))
  | .triggerEvent s => .call (.scheduleEx s)
  | .getInstance | .destroyInstance => guarded .singleton
  | .get autoCreate => .seq (.lock .shared .fdManager .skip) (if autoCreate then .either .skip (guarded .fdManager) else .skip)
  | .del => guarded .fdManager
  | .doIo s fd => .either .wait (.seq (lookup false) (.either .wait (.call (.retry s fd))))
  | .retry s fd => .either .skip (.either .wait (suspend s fd))
  | .resumed s fd => .seq (.either (.call (.cancel s)) .skip) (.either .skip (.call (.retry s fd)))
  | .connectWithTimeout s fd => .either .wait (.seq (lookup false) (.either .wait (suspend s fd)))
  | .accepted | .socket => .either .skip (lookup true)
  | .close s fd =>
    .seq (.either .skip (.seq (lookup false)
      (.either .skip (.seq (.either (.call (.cancelAll s fd)) .skip) (.seq (.call .getInstance) (.call .del)))))) .wait
  | .fcntl => .either .wait (lookup false)
  | .ioctl | .setsockopt => .either .skip (lookup false)
  | .sleep s => .either .wait (.call (.addTimer s))
  | .lock m | .tryLock m | .wait m | .isClosed m | .size m => guarded (.sync m)
  | .unlock m | .send m | .recv m => .seq (guarded (.sync m)) (.either (.any Proc.isSchedule) .skip)
  | .add m | .closeChannel m => .seq (guarded (.sync m)) (.loop (.any Proc.isSchedule))
  | .semaphoreWait v => .seq (guarded (.semaphore v)) (.loop (.seq .wait (guarded (.semaphore v))))
  | .signal v => guarded (.semaphore v)
  | .thread v => .seq (guarded (.semaphore v)) (.loop (.seq (guarded (.started v)) (guarded (.semaphore v))))
  | .log => guarded .logger
  | .user => .loop (.either .wait (.any Proc.isPublic))
  | .main => .loop (.either (.call .user) (.any Proc.isOutside))

end Functions

/-! ## The order -/

/-- Fibers first, then what schedules, then the scheduler, then what takes no lock. -/
def rank : Lock → Nat
  | .fiber _ => 0
  | .fdContext _ _ | .schedulerRef _ => 1
  | .scheduler _ => 2
  | .started _ => 3
  | _ => 4

/-- The lowest rank that a function takes; 1 where it waits for something else. -/
def floor : Proc → Nat
  | .run _ | .resume _ | .main => 0
  | .stop _ caller | .destruct _ caller => if caller then 0 else 1
  | .schedule _ | .invalidate _ | .idle _ | .addEvent _ _ | .delEvent _ _ | .cancelEvent _ _ | .cancelAll _ _ | .dispatch _ _
  | .doIo _ _ | .retry _ _ | .resumed _ _ | .connectWithTimeout _ _ | .close _ _ | .fcntl | .sleep _ | .unlock _ | .send _ | .recv _
  | .add _ | .closeChannel _ | .semaphoreWait _ | .user => 1
  | .setPolicy _ | .getPolicy _ | .setMLFQConfig _ | .getMLFQConfig _ | .scheduleEx _ | .start _ | .stopping _
  | .triggerEvent _ => 2
  | .thread _ => 3
  | _ => 4

section Floors

variable {p : Proc} {s : Nat}

theorem floor_thread (is : p.isThread = true) : floor p = 3 := by
  cases p <;> first | rfl | cases is

theorem floor_schedule (is : p.isSchedule = true) : floor p = 1 := by
  cases p <;> first | rfl | cases is

theorem floor_dispatch (is : p.isDispatch s = true) : floor p = 1 := by
  cases p <;> first | rfl | cases is

theorem floor_close (is : p.isClose s = true) : floor p = 1 := by
  cases p <;> first | rfl | cases is

/-- Code of a user may run under a fiber's mutex. -/
theorem floor_public (is : p.isPublic = true) : 1 ≤ floor p := by
  cases p with
  | stop s caller | destruct s caller =>
    cases caller with
    | false => exact Nat.le_refl 1
    | true => cases is
  | run s | resume f | main => cases is
  | _ => simp [floor]

end Floors

/-- Every function keeps the order. -/
theorem checked (isIOManager : Nat → Bool) (p : Proc) : (body isIOManager p).Above rank floor 1 (floor p) := by
  have schedules : ∃ p, Proc.isSchedule p = true := ⟨.schedule 0, rfl⟩
  cases p with
  | start s =>
    refine ⟨Nat.le_refl 2, ⟨.thread 0, rfl⟩, fun p is => ?_⟩
    rw [floor_thread is]
    exact Nat.le_refl 3
  | run s =>
    have resumes : ∃ p, Proc.isResume p = true := ⟨.resume 0, rfl⟩
    simp [body, round, runFiber, runCallback, guarded, Code.Above, floor, resumes]
  | stop s caller =>
    cases caller <;> simp [body, guarded, Code.Above, rank, floor]
  | destruct s caller =>
    have closes : (∃ p, Proc.isClose s p = true) ∧ ∀ p, Proc.isClose s p = true → 1 ≤ floor p :=
      ⟨⟨.close s 0, by simp [Proc.isClose]⟩, fun p is => Nat.le_of_eq (floor_close is).symm⟩
    cases caller <;> cases kind : isIOManager s <;> simp [body, guarded, Code.Above, rank, floor, kind, closes.1]
    exact closes.2
  | idle s =>
    have dispatches : (∃ p, Proc.isDispatch s p = true) ∧ ∀ p, Proc.isDispatch s p = true → 1 ≤ floor p :=
      ⟨⟨.dispatch s 0, by simp [Proc.isDispatch]⟩, fun p is => Nat.le_of_eq (floor_dispatch is).symm⟩
    cases kind : isIOManager s <;> simp [body, poll, lookup, Code.Above, floor, kind, dispatches.1]
    exact dispatches.2
  | tickle s | stopping s => cases kind : isIOManager s <;> simp [body, lookup, guarded, Code.Above, rank, floor, kind]
  | unlock m | send m | recv m | add m | closeChannel m =>
    refine ⟨⟨by simp [floor, rank], trivial⟩, ?_⟩
    simp only [Code.Above, schedules, true_and, and_true]
    exact fun p is => Nat.le_of_eq (floor_schedule is).symm
  | get autoCreate => cases autoCreate <;> simp [body, guarded, Code.Above, rank, floor]
  | user => exact ⟨Nat.le_refl 1, ⟨.getInstance, rfl⟩, fun p is => floor_public is⟩
  | main => exact ⟨Nat.zero_le _, ⟨.stop 0 true, rfl⟩, fun p _ => Nat.zero_le _⟩
  | _ => simp [body, guarded, lookup, find, suspend, Code.Above, rank, floor]

/-! ## The threads -/

/-- What a thread runs: the program, a worker of a scheduler, or what a user gave to a `Thread`. -/
inductive Role where
  | program
  | worker (s : Nat)
  | own
deriving DecidableEq

/-- `Thread::run` signals first; the program is no `Thread`. -/
def todo (role : Nat → Role) (v : Nat) : List (Item Lock Proc) :=
  match role v with
  | .program => [.run (.call .main)]
  | .worker s => [.run (.call (.signal v)), .leave .exclusive (.started v), .run (.call (.run s))]
  | .own => [.run (.call (.signal v)), .leave .exclusive (.started v), .run (.call .user)]

def owners (role : Nat → Role) : Lock → List (Nat × Mode)
  | .started v => if role v = .program then [] else [(v, .exclusive)]
  | _ => []

/-- The threads of a process, with its schedulers. -/
def machine (isIOManager : Nat → Bool) (role : Nat → Role) : Machine (State Nat Lock Proc) (Nat × Move Proc) :=
  LockOrder.machine (body isIOManager) (todo role) (owners role)

theorem ranked_init (role : Nat → Role) : Ranked rank floor 1 (State.mk (todo role) (owners role)) := by
  constructor
  case ordered =>
    intro v
    simp only [todo]
    split <;> simp [Ordered, Code.Above, level, scopes, floor, rank]
  case owned =>
    intro v k mode
    cases k with
    | started w =>
      by_cases same : w = v
      · subst same
        cases kind : role w <;> simp [todo, owners, scopes, kind, List.count_cons]
      · cases kind : role v <;> simp [todo, owners, scopes, kind, Ne.symm same] <;> split <;> simp [same]
    | _ => cases kind : role v <;> simp [todo, owners, scopes, kind]

theorem ranked_of_machine {isIOManager : Nat → Bool} {role : Nat → Role} {s : State Nat Lock Proc}
    (h : (machine isIOManager role).Reach s) : Ranked rank floor 1 s :=
  ranked_of_reach (checked isIOManager) (ranked_init role) h

/-- Under locks of rank 0 only there is one fiber's mutex at most. -/
theorem scopes_calm {todo : List (Item Lock Proc)} (ordered : Ordered rank floor 1 todo)
    (calm : ∀ o ∈ scopes todo, rank o.1 < 1) : scopes todo = [] ∨ ∃ f mode, scopes todo = [(.fiber f, mode)] := by
  have pairwise := ordered.pairwise
  rcases held : scopes todo with _ | ⟨⟨k, mode⟩, others⟩
  · exact .inl rfl
  rw [held] at pairwise calm
  have low : rank k < 1 := calm (k, mode) List.mem_cons_self
  have alone : others = [] := List.eq_nil_iff_forall_not_mem.2 fun o mem => by
    have less : rank o.1 < rank k := List.rel_of_pairwise_cons pairwise mem
    omega
  subst alone
  cases k with
  | fiber f => exact .inr ⟨f, mode, rfl⟩
  | _ => cases low with | step impossible => cases impossible

/-- **Main theorem.** However many threads, schedulers, fibers and descriptors there are:
no threads wait for each other's locks in a ring, and a thread that has something to do
can do it or waits, directly or not, for one that can. Where a thread waits for something
else or runs code of a user, it holds no mutex but that of the fiber it runs. -/
theorem no_deadlock (isIOManager : Nat → Bool) (role : Nat → Role) (s : State Nat Lock Proc)
    (h : (machine isIOManager role).Reach s) :
    (∀ t, ¬ Relation.TransGen (Waits s) t t) ∧
    (∀ t, s.todo t ≠ [] → ∃ u, Relation.ReflTransGen (Waits s) t u ∧ ∃ move s', (machine isIOManager role).step s (u, move) = some s') ∧
    (∀ t rest, s.todo t = .run .wait :: rest ∨ s.todo t = .run (.call .user) :: rest →
      scopes (s.todo t) = [] ∨ ∃ f mode, scopes (s.todo t) = [(.fiber f, mode)]) := by
  have ranked := ranked_of_machine h
  have bounded (k : Lock) : rank k < 5 := by cases k <;> simp [rank]
  refine ⟨ranked.acyclic, fun t busy => ranked.progress bounded busy, fun t rest here => scopes_calm (ranked.ordered t) ?_⟩
  rcases here with here | here
  · exact fun o held => ranked.quiet here held
  · exact fun o held => ranked.calls here held

/-- The program starts a scheduler, and thread 1 is its worker. -/
def starting : List (Nat × Move Proc) :=
  [.go, .left, .left, .go, .left, .right, .pick (.start 0), .go, .left, .pick (.thread 1), .go, .go, .go, .go, .left, .go].map ((0, ·))

/-- The program waits for the worker under the scheduler's mutex, and the worker goes on. -/
theorem no_deadlock_starting : ∃ s, (machine (fun _ => true) fun v => if v = 0 then .program else .worker 0).exec
      (machine (fun _ => true) fun v => if v = 0 then .program else .worker 0).init starting = some s ∧
    scopes (s.todo 0) = [(.scheduler 0, .exclusive)] ∧ Waits s 0 1 ∧ ¬ Relation.TransGen (Waits s) 1 0 := by
  have run : ∃ s, (machine (fun _ => true) fun v => if v = 0 then .program else .worker 0).exec
      (machine (fun _ => true) fun v => if v = 0 then .program else .worker 0).init starting = some s ∧
        scopes (s.todo 0) = [(.scheduler 0, .exclusive)] ∧ Waits s 0 1 :=
    ⟨_, rfl, rfl, .exclusive, .started 1, .skip, _, rfl, .exclusive, List.mem_cons_self, rfl⟩
  obtain ⟨s, e, held, waits⟩ := run
  exact ⟨s, e, held, waits, fun back => (no_deadlock _ _ s (Machine.reach_of_exec e)).1 0 (.head waits back)⟩

end Mycoroutine.Locks
