import Mycoroutine.Hook.Interpose
import Mycoroutine.Scheduler.Task
import Mycoroutine.Timer.Expiry
import Mycoroutine.Timer.TimerFinal

/-!
# How long a fiber sleeps

`sleep`, `usleep` and `nanosleep` register a timer for the fiber and yield. The timer
counts milliseconds: `sleep` multiplies in an `unsigned int`, the other two cut off a part
of a millisecond, and the deadline is a 64-bit number of nanoseconds. The time of a call is
what the constructor of its timer reads.

What queues a sleeping fiber again is its timer, and under `MLFQ` also `run()`, which takes
the yield for one that asks for more time. Nobody has a pointer to the timer but the set.
-/

namespace Mycoroutine.Sleeps
set_option autoImplicit false
open Interleave Interpose TimerManager

/-! ## The three functions -/

/-- A call, `nanosleep` with what its `timespec` holds. -/
inductive Request where
  | sleep (seconds : Nat)
  | usleep (usec : Nat)
  | nanosleep (sec nsec : Int)

namespace Request

/-- An `unsigned int`, a `useconds_t`, a valid `timespec`. -/
def Valid : Request → Prop
  | .sleep seconds => seconds < 2 ^ 32
  | .usleep usec => usec < 2 ^ 32
  | .nanosleep sec nsec => 0 ≤ sec ∧ sec < 2 ^ 63 ∧ 0 ≤ nsec ∧ nsec < 1000000000

instance : DecidablePred Valid
  | .sleep _ => inferInstanceAs (Decidable (_ < _))
  | .usleep _ => inferInstanceAs (Decidable (_ < _))
  | .nanosleep _ _ => inferInstanceAs (Decidable (_ ∧ _ ∧ _ ∧ _))

/-- What is asked for, in nanoseconds. -/
def nanos : Request → Int
  | .sleep seconds => seconds * 1000000000
  | .usleep usec => usec * 1000
  | .nanosleep sec nsec => sec * 1000000000 + nsec

/-- The milliseconds that the function computes. -/
def millis : Request → Nat
  | .sleep seconds => seconds * 1000 % 2 ^ 32
  | .usleep usec => usec / 1000
  | .nanosleep sec nsec => ((sec * 1000 + nsec.tdiv 1000000) % 2 ^ 64).toNat

def call : Request → Call
  | .sleep seconds => .sleep seconds
  | .usleep usec => .usleep usec
  | .nanosleep _ _ => .nanosleep 0 0

/-- The manager as the environment of the call, up to its yield: the timer has address
`t`, and its constructor reads `now`. -/
def env (r : Request) (t cb : Nat) (now : TimePoint) : Env TimerManager.State where
  original s _ := ⟨s, 0, none⟩
  fstat _ _ := none
  int _ _ := none
  time _ _ := match r with
    | .nanosleep sec nsec => some (sec, nsec)
    | .sleep _ | .usleep _ => none
  error := 0
  len := 0
  addTimer s timeout := s.addTimer t timeout cb false now
  cancelTimer s := s
  addEvent s _ _ := (s, false)
  cancelAll s _ := s
  suspend s datas := ⟨s, datas, false⟩

/-- A worker of an `IOManager`. -/
def worker : Interpose.Thread where
  hookEnable := true
  manager := true

/-- The manager where the call yields. -/
def register (r : Request) (s : TimerManager.State) (t cb : Nat) (now : TimePoint) : Option TimerManager.State :=
  match hooked (r.env t cb now) worker { env := s, datas := fun _ => none, errno := 0, calls := [] } 0 r.call with
  | .ok (_, w) => some w.env
  | .error _ => none

theorem register_eq (r : Request) (s : TimerManager.State) (t cb : Nat) (now : TimePoint) :
    r.register s t cb now = some (s.addTimer t r.millis cb false now) := by
  cases r <;> rfl

/-- The milliseconds are what is asked for. -/
def Exact : Request → Prop
  | .sleep seconds => seconds * 1000 < 2 ^ 32
  | .usleep usec => usec % 1000 = 0
  | .nanosleep _ nsec => nsec % 1000000 = 0

instance : DecidablePred Exact
  | .sleep _ => inferInstanceAs (Decidable (_ < _))
  | .usleep _ => inferInstanceAs (Decidable (_ = _))
  | .nanosleep _ _ => inferInstanceAs (Decidable (_ = _))

theorem millis_le {r : Request} (valid : r.Valid) : (r.millis : Int) * 1000000 ≤ r.nanos := by
  cases r with
  | sleep seconds =>
    simp only [millis, nanos]
    omega
  | usleep usec =>
    simp only [millis, nanos]
    omega
  | nanosleep sec nsec =>
    simp only [Valid] at valid
    simp only [millis, nanos, Int.tdiv_eq_ediv_of_nonneg valid.2.2.1]
    omega

/-- As far as the time of the deadline exists. -/
theorem exact_iff {r : Request} (valid : r.Valid) (small : r.nanos < 2 ^ 64) :
    (r.millis : Int) * 1000000 = r.nanos ↔ r.Exact := by
  cases r with
  | sleep seconds =>
    simp only [millis, nanos, Exact]
    omega
  | usleep usec =>
    simp only [millis, nanos, Exact]
    omega
  | nanosleep sec nsec =>
    simp only [Valid] at valid
    simp only [nanos] at small
    simp only [millis, nanos, Exact, Int.tdiv_eq_ediv_of_nonneg valid.2.2.1]
    omega

end Request

/-! ## The deadline -/

theorem deadline_iff {r : Request} {now : Int} (valid : r.Valid) (fits : Fits now) :
    now + r.nanos ≤ addMillis now r.millis ↔ r.Exact ∧ now + r.nanos < 2 ^ 63 := by
  rw [le_addMillis_iff fits.1 (Request.millis_le valid)]
  refine and_congr_left fun below => Request.exact_iff valid ?_
  have low := fits.1
  omega

/-! ## Sleeping fibers -/

/-- A call that registered its timer, with the time of the call. -/
structure Sleeper where
  timer : Nat
  called : TimePoint
  nanos : Int

structure State where
  manager : TimerManager.State
  sleepers : List Sleeper
  /-- The timers of the fibers that have yielded to a `run()` which has not gone on. -/
  yielding : List Nat
  /-- The timers of the fibers that were queued again, with what the clock read. -/
  queued : List (Nat × TimePoint)
  policy : SchedulePolicy

/-- `task` says that `run()` resumed the fiber itself, not a callback in it, `ready` that
the fiber is still `READY`. -/
inductive Label where
  | manager (l : TimerManager.Label)
  | sleep (r : Request) (t cb : Nat) (now : TimePoint)
  | goOn (t : Nat) (task ready : Bool) (now : TimePoint)
  | setPolicy (policy : SchedulePolicy)

/-- The timer that a method of `Timer` is called on. -/
def target : TimerManager.Label → Option Nat
  | .cancel t | .refresh t _ | .reset _ t _ _ => some t
  | .addTimer .. | .erase _ | .update .. | .insert _ | .listExpired .. | .takeExpired | .getNextTimer => none

/-- The timer whose callback the step appends, with the clock of its `listExpiredCb`. -/
def collected (s : TimerManager.State) : TimerManager.Label → Option (Nat × TimePoint)
  | .takeExpired =>
    match s.expiring, s.timers with
    | some (now, rollover), t :: _ => if s.due now rollover t then some (t, now) else none
    | _, _ => none
  | _ => none

def State.sleeping (s : State) (t : Nat) : Bool := s.sleepers.any fun p => p.timer == t

def step (s : State) : Label → Option State
  | .manager l =>
    if (target l).any s.sleeping then none
    else (TimerManager.step s.manager l).map fun manager =>
      { s with manager, queued := s.queued ++ (collected s.manager l).toList }
  | .sleep r t cb now =>
    if r.Valid ∧ (-2 ^ 63 ≤ now ∧ now < 2 ^ 63) ∧ t ∉ s.manager.created ∧ s.manager.expiring = none then
      (r.register s.manager t cb now).map fun manager =>
        { s with manager, sleepers := ⟨t, now, r.nanos⟩ :: s.sleepers, yielding := t :: s.yielding }
    else none
  | .goOn t task ready now =>
    if t ∈ s.yielding then
      some { s with yielding := s.yielding.erase t,
                    queued := if task ∧ ready ∧ s.policy = .mlfq then s.queued ++ [(t, now)] else s.queued }
    else none
  | .setPolicy policy => some { s with policy }

def machine : Machine State Label where
  init := { manager := TimerManager.machine.init, sleepers := [], yielding := [], queued := [], policy := .fifo }
  step := step

/-- Every sleep has a deadline that is late enough, and nobody was queued again before the time
that was asked for. -/
structure State.NeverEarly (s : State) : Prop where
  deadline : ∀ p ∈ s.sleepers, p.called + p.nanos ≤ (s.manager.timer p.timer).next
  queued : ∀ p ∈ s.sleepers, ∀ now, (p.timer, now) ∈ s.queued → p.called + p.nanos ≤ now

/-- A sleep asks for whole milliseconds, for `sleep` of 32 bits, with a deadline that exists;
`listExpiredCb` sees no clock rollback, and `run()` does not queue the fiber again. -/
def Punctual (s : State) : Label → Prop
  | .sleep r _ _ now => r.Exact ∧ now + r.nanos < 2 ^ 63
  | .manager (.listExpired _ rolloverNow) => s.manager.rollover rolloverNow = false
  | .goOn _ task ready _ => ¬ (task ∧ ready ∧ s.policy = .mlfq)
  | _ => True

instance (s : State) : DecidablePred (Punctual s)
  | .sleep _ _ _ _ => inferInstanceAs (Decidable (_ ∧ _))
  | .manager (.listExpired _ _) => inferInstanceAs (Decidable (_ = _))
  | .goOn _ _ _ _ => inferInstanceAs (Decidable (¬ _))
  | .manager (.addTimer _ _ _ _ _) | .manager (.cancel _) | .manager (.refresh _ _) | .manager (.reset _ _ _ _)
  | .manager (.erase _) | .manager (.update _ _) | .manager (.insert _) | .manager .takeExpired
  | .manager .getNextTimer | .setPolicy _ => isTrue trivial

section Steps

variable {s s' : State} {t : Nat}

/-- The thread is in a `reset` of the timer. -/
def Resets (t : Nat) : TimerManager.Pc → Prop
  | .erase u _ _ | .update u _ _ | .insert u => u = t
  | .idle => False

structure Kept (s : State) : Prop where
  early : s.NeverEarly
  known : ∀ p ∈ s.sleepers, p.timer ∈ s.manager.created
  once : ∀ p ∈ s.sleepers, (s.manager.timer p.timer).recurring = false
  alone : ∀ p ∈ s.sleepers, ∀ thread, ¬ Resets p.timer (s.manager.pc thread)
  resets : ∀ thread t, Resets t (s.manager.pc thread) → t ∈ s.manager.created
  logged : ∀ q ∈ s.queued, q.1 ∈ s.manager.created
  forward : ∀ now rollover, s.manager.expiring = some (now, rollover) → rollover = false

theorem kept_init : Kept machine.init := by
  constructor
  case early => constructor <;> simp [machine]
  all_goals simp [machine, TimerManager.machine, Resets]

/-- Only `listExpiredCb` starts a loop, with what it finds of a rollback. -/
theorem expiring_step {m m' : TimerManager.State} {l : TimerManager.Label} (e : TimerManager.step m l = some m')
    {now : TimePoint} {rollover : Bool} (active : m'.expiring = some (now, rollover)) :
    m.expiring = some (now, rollover) ∨
      ∃ read rolloverNow, l = .listExpired read rolloverNow ∧ rollover = m.rollover rolloverNow := by
  cases l with
  | addTimer t ms cb recurring now =>
    simp only [TimerManager.step] at e
    split at e
    · cases e
    · rw [← TimerManager.locked_eq e] at active
      exact .inl active
  | cancel t =>
    simp only [TimerManager.step] at e
    split at e
    · rw [← TimerManager.locked_eq e, TimerManager.State.cancel] at active
      split at active <;> exact .inl active
    · cases e
  | refresh t now =>
    simp only [TimerManager.step] at e
    split at e
    · rw [← TimerManager.locked_eq e, TimerManager.State.refresh] at active
      split at active
      · exact .inl active
      · split at active <;> exact .inl active
    · cases e
  | reset thread t ms fromNow =>
    simp only [TimerManager.step] at e
    split at e <;> cases e
    rw [TimerManager.State.reset] at active
    split at active <;> exact .inl active
  | erase thread =>
    simp only [TimerManager.step] at e
    split at e
    · rw [← TimerManager.locked_eq e, TimerManager.State.eraseSection] at active
      split at active
      · exact .inl active
      · split at active <;> exact .inl active
    · cases e
  | update thread now =>
    simp only [TimerManager.step] at e
    split at e <;> cases e
    exact .inl active
  | insert thread =>
    simp only [TimerManager.step] at e
    split at e
    · rw [← TimerManager.locked_eq e] at active
      exact .inl active
    · cases e
  | listExpired read rolloverNow =>
    simp only [TimerManager.step] at e
    rw [← TimerManager.locked_eq e] at active
    cases active
    exact .inr ⟨now, rolloverNow, rfl, rfl⟩
  | takeExpired =>
    obtain ⟨⟨read, rolled⟩, before, rfl⟩ := Option.map_eq_some_iff.1 e
    simp only [TimerManager.State.takeExpired] at active
    split at active
    · cases active
    · split at active
      · split at active <;> exact .inl active
      · cases active
  | getNextTimer =>
    simp only [TimerManager.step] at e
    rw [← TimerManager.locked_eq e] at active
    exact .inl active

theorem resets_update {pc : Nat → TimerManager.Pc} {p : TimerManager.Pc} {thread v : Nat}
    (h : Resets t (Function.update pc thread p v)) : Resets t (pc v) ∨ v = thread ∧ Resets t p := by
  by_cases mine : v = thread
  · subst mine
    rw [Function.update_self] at h
    exact .inr ⟨rfl, h⟩
  · rw [Function.update_of_ne mine] at h
    exact .inl h

/-- What a step of the manager leaves of a timer that nobody has a pointer to. -/
structure Leaves (m : TimerManager.State) (l : TimerManager.Label) (m' : TimerManager.State) : Prop where
  timer : ∀ t ∈ m.created, target l ≠ some t → (∀ thread, ¬ Resets t (m.pc thread)) → (m.timer t).recurring = false →
    (m'.timer t).next = (m.timer t).next ∧ (m'.timer t).recurring = false
  resets : ∀ thread t, Resets t (m'.pc thread) → Resets t (m.pc thread) ∨ target l = some t ∧ t ∈ m.created
  created : ∀ t ∈ m.created, t ∈ m'.created

theorem leaves_of_move {m m' : TimerManager.State} {l : TimerManager.Label} (move : TimerManager.Moves m l m') :
    Leaves m l m' := by
  have other {u t : Nat} {timer : Timer} (ne : t ≠ u) (once : (m.timer t).recurring = false) :
      (Function.update m.timer u timer t).next = (m.timer t).next ∧
        (Function.update m.timer u timer t).recurring = false := by
    rw [Function.update_of_ne ne]
    exact ⟨rfl, once⟩
  have cleared {u t : Nat} (once : (m.timer t).recurring = false) :
      (Function.update m.timer u { m.timer u with cb := none } t).next = (m.timer t).next ∧
        (Function.update m.timer u { m.timer u with cb := none } t).recurring = false := by
    by_cases mine : t = u
    · subst mine
      rw [Function.update_self]
      exact ⟨rfl, once⟩
    · exact other mine once
  have stays {thread v t : Nat} {p : TimerManager.Pc} (here : Resets t p → Resets t (m.pc thread))
      (h : Resets t (Function.update m.pc thread p v)) : Resets t (m.pc v) := by
    rcases resets_update h with before | ⟨rfl, now⟩
    · exact before
    · exact here now
  cases move with
  | added u ms cb recurring now new timers tickled ins =>
    refine ⟨fun t known _ _ once => ?_, fun _ _ => .inl, fun t => List.mem_cons_of_mem u⟩
    exact other (fun same => new (same ▸ known)) once
  | cancelled u cb known live => exact ⟨fun t _ _ _ once => cleared once, fun _ _ => .inl, fun _ => id⟩
  | refreshed u cb now next live present timers ins =>
    refine ⟨fun t _ untouched _ once => ?_, fun _ _ => .inl, fun _ => id⟩
    exact other (fun same => untouched (congrArg some same.symm)) once
  | same thread u ms fromNow known early => exact ⟨fun t _ _ _ once => ⟨rfl, once⟩, fun _ _ => .inl, fun _ => id⟩
  | began thread u ms fromNow known here =>
    refine ⟨fun t _ _ _ once => ⟨rfl, once⟩, fun v t h => ?_, fun _ => id⟩
    rcases resets_update h with before | ⟨-, rfl⟩
    · exact .inl before
    · exact .inr ⟨rfl, known⟩
  | erased thread u ms cb fromNow here live present =>
    exact ⟨fun t _ _ _ once => ⟨rfl, once⟩, fun v t h => .inl (stays (fun now => here ▸ now) h), fun _ => id⟩
  | refused thread u ms fromNow here =>
    exact ⟨fun t _ _ _ once => ⟨rfl, once⟩, fun v t h => .inl (stays (p := .idle) False.elim h), fun _ => id⟩
  | updated thread u ms fromNow now next here =>
    refine ⟨fun t _ _ free once => ?_, fun v t h => .inl (stays (fun now => here ▸ now) h), fun _ => id⟩
    refine other (fun same => free thread ?_) once
    rw [here, same]
    exact rfl
  | wasReset thread u here timers tickled ins =>
    exact ⟨fun t _ _ _ once => ⟨rfl, once⟩, fun v t h => .inl (stays (p := .idle) False.elim h), fun _ => id⟩
  | firedAgain u rest queue recurs next timers ins =>
    refine ⟨fun t _ _ _ once => ?_, fun _ _ => .inl, fun _ => id⟩
    refine other (fun same => ?_) once
    cases recurs.symm.trans (same ▸ once)
  | firedOnce u rest queue once => exact ⟨fun t _ _ _ once => cleared once, fun _ _ => .inl, fun _ => id⟩
  | other l tickled previouseTime expiring => exact ⟨fun t _ _ _ once => ⟨rfl, once⟩, fun _ _ => .inl, fun _ => id⟩

/-- What is collected without a rollback is due. -/
theorem of_collected {m : TimerManager.State} {l : TimerManager.Label} {q : Nat × TimePoint} (h : collected m l = some q) :
    q.1 ∈ m.timers ∧ ∃ rollover, m.expiring = some (q.2, rollover) ∧ (rollover = false → (m.timer q.1).next ≤ q.2) := by
  unfold collected at h
  split at h
  · split at h
    · rename_i now rollover t rest active queue
      split at h <;> cases h
      rename_i due
      refine ⟨queue ▸ List.mem_cons_self, rollover, active, ?_⟩
      rintro rfl
      simpa [TimerManager.State.due] using due
    · cases h
  · cases h

theorem not_sleeping {p : Sleeper} (mem : p ∈ s.sleepers) {l : TimerManager.Label} (free : ¬ (target l).any s.sleeping = true) :
    target l ≠ some p.timer := by
  intro aimed
  rw [aimed, Option.any_some, State.sleeping, List.any_eq_true] at free
  exact free ⟨p, mem, beq_self_eq_true _⟩

/-- The sleepers keep their timers through a step of the manager. -/
theorem Kept.manager {l : TimerManager.Label} {m : TimerManager.State} (h : Kept s)
    (fromSet : ∀ t ∈ s.manager.timers, t ∈ s.manager.created) (punctual : Punctual s (.manager l))
    (free : ∀ p ∈ s.sleepers, target l ≠ some p.timer) (e : TimerManager.step s.manager l = some m) :
    Kept { s with manager := m, queued := s.queued ++ (collected s.manager l).toList } := by
  have leaves := leaves_of_move (TimerManager.step_moves e)
  have timer {p : Sleeper} (mem : p ∈ s.sleepers) :=
    leaves.timer p.timer (h.known p mem) (free p mem) (h.alone p mem) (h.once p mem)
  have split {q : Nat × TimePoint} (mem : q ∈ s.queued ++ (collected s.manager l).toList) :
      q ∈ s.queued ∨ collected s.manager l = some q := by
    rwa [List.mem_append, Option.mem_toList] at mem
  constructor
  case early =>
    refine ⟨fun p mem => ?_, fun p mem now was => ?_⟩
    · exact (timer mem).1 ▸ h.early.deadline p mem
    · rcases split was with before | new
      · exact h.early.queued p mem now before
      · obtain ⟨-, rollover, active, due⟩ := of_collected new
        have late : (s.manager.timer p.timer).next ≤ now := due (h.forward now rollover active)
        exact (h.early.deadline p mem).trans late
  case known => exact fun p mem => leaves.created _ (h.known p mem)
  case once => exact fun p mem => (timer mem).2
  case alone =>
    intro p mem thread now
    rcases leaves.resets thread _ now with before | ⟨aimed, -⟩
    · exact h.alone p mem thread before
    · exact free p mem aimed
  case resets =>
    intro thread t now
    rcases leaves.resets thread t now with before | ⟨-, known⟩
    · exact leaves.created t (h.resets thread t before)
    · exact leaves.created t known
  case logged =>
    intro q was
    rcases split was with before | new
    · exact leaves.created _ (h.logged q before)
    · exact leaves.created _ (fromSet _ (of_collected new).1)
  case forward =>
    intro now rollover active
    rcases expiring_step e active with before | ⟨read, rolloverNow, rfl, rolled⟩
    · exact h.forward now rollover before
    · exact rolled.trans punctual

theorem step_addTimer {m : TimerManager.State} {ms cb : Nat} {now : TimePoint} (new : t ∉ m.created)
    (free : m.expiring = none) :
    TimerManager.step m (.addTimer t ms cb false now) = some (m.addTimer t ms cb false now) := by
  simp only [TimerManager.step, if_neg new, TimerManager.State.locked, free, if_true]

theorem sleep_runs {r : Request} {cb : Nat} {now : TimePoint} (valid : r.Valid) (fits : Fits now)
    (new : t ∉ s.manager.created) (free : s.manager.expiring = none) :
    step s (.sleep r t cb now) = some
      { s with manager := s.manager.addTimer t r.millis cb false now, sleepers := ⟨t, now, r.nanos⟩ :: s.sleepers,
               yielding := t :: s.yielding } := by
  simp only [step, Request.register_eq]
  exact if_pos ⟨valid, fits, new, free⟩

/-- A sleep is a step of the manager, and a sleeper more. -/
theorem step_sleep {r : Request} {cb : Nat} {now : TimePoint} (e : step s (.sleep r t cb now) = some s') :
    r.Valid ∧ Fits now ∧ t ∉ s.manager.created ∧
      TimerManager.step s.manager (.addTimer t r.millis cb false now) = some s'.manager ∧
      s' = { s with manager := s.manager.addTimer t r.millis cb false now, sleepers := ⟨t, now, r.nanos⟩ :: s.sleepers,
                    yielding := t :: s.yielding } := by
  simp only [step, Request.register_eq] at e
  split at e
  · rename_i guard
    obtain ⟨valid, fits, new, free⟩ := guard
    cases e
    exact ⟨valid, fits, new, step_addTimer new free, rfl⟩
  · cases e

theorem Kept.sleep {r : Request} {cb : Nat} {now : TimePoint} (h : Kept s)
    (fromSet : ∀ t ∈ s.manager.timers, t ∈ s.manager.created) (exactly : r.Exact ∧ now + r.nanos < 2 ^ 63)
    (e : step s (.sleep r t cb now) = some s') : Kept s' := by
  obtain ⟨valid, fits, new, added, rfl⟩ := step_sleep e
  have others := h.manager fromSet (show Punctual s (.manager (.addTimer t r.millis cb false now)) from trivial)
    (by simp [target]) added
  have silent : collected s.manager (.addTimer t r.millis cb false now) = none := rfl
  simp only [silent, Option.toList_none, List.append_nil] at others
  constructor
  case early =>
    refine ⟨fun p mem => ?_, fun p mem read was => ?_⟩
    · rcases List.mem_cons.1 mem with rfl | mem
      · rw [TimerManager.State.addTimer_timer]
        exact (deadline_iff valid fits).2 exactly
      · exact others.early.deadline p mem
    · rcases List.mem_cons.1 mem with rfl | mem
      · exact absurd (h.logged _ was) new
      · exact others.early.queued p mem read was
  case known =>
    intro p mem
    rcases List.mem_cons.1 mem with rfl | mem
    · exact List.mem_cons_self
    · exact others.known p mem
  case once =>
    intro p mem
    rcases List.mem_cons.1 mem with rfl | mem
    · rw [TimerManager.State.addTimer_timer, Timer.recurring_make]
    · exact others.once p mem
  case alone =>
    intro p mem thread now
    rcases List.mem_cons.1 mem with rfl | mem
    · exact absurd (h.resets thread t now) new
    · exact others.alone p mem thread now
  case resets => exact others.resets
  case logged => exact others.logged
  case forward => exact others.forward

theorem Kept.step {l : Label} (h : Kept s) (fromSet : ∀ t ∈ s.manager.timers, t ∈ s.manager.created)
    (punctual : Punctual s l) (e : step s l = some s') : Kept s' := by
  cases l with
  | manager l =>
    simp only [Sleeps.step] at e
    split at e
    · cases e
    · rename_i free
      obtain ⟨m, move, rfl⟩ := Option.map_eq_some_iff.1 e
      exact h.manager fromSet punctual (fun p mem => not_sleeping mem free) move
  | sleep r t cb now => exact h.sleep fromSet punctual e
  | goOn t task ready now =>
    simp only [Sleeps.step] at e
    split at e <;> cases e
    rw [if_neg punctual]
    exact ⟨⟨h.early.deadline, h.early.queued⟩, h.known, h.once, h.alone, h.resets, h.logged, h.forward⟩
  | setPolicy policy =>
    cases e
    exact ⟨⟨h.early.deadline, h.early.queued⟩, h.known, h.once, h.alone, h.resets, h.logged, h.forward⟩

/-- The timers are those of a manager. -/
theorem reach_manager {cond : State → Label → Prop} (h : machine.ReachIf cond s) : TimerManager.machine.Reach s.manager := by
  induction h with
  | init => exact .init
  | @step s l s' _ _ e ih =>
    cases l with
    | manager l =>
      simp only [machine, step] at e
      split at e
      · cases e
      · obtain ⟨m, move, rfl⟩ := Option.map_eq_some_iff.1 e
        exact ih.step trivial move
    | sleep r t cb now =>
      obtain ⟨-, -, -, added, -⟩ := step_sleep e
      exact ih.next (.addTimer t r.millis cb false now) trivial added
    | goOn t task ready now =>
      simp only [machine, step] at e
      split at e <;> cases e
      exact ih
    | setPolicy policy =>
      cases e
      exact ih

theorem kept_of_reach (h : machine.ReachIf Punctual s) : Kept s :=
  h.invariant_with (fun s => ∀ t ∈ s.manager.timers, t ∈ s.manager.created)
    (fun _ reach => (final_of_reach (reach_manager reach)).fromSet) kept_init
    fun _ _ _ fromSet inv punctual e _ => inv.step fromSet punctual e

/-- A sleep that is not early asks for time that its timer can count. -/
theorem State.NeverEarly.exact {r : Request} {cb : Nat} {now : TimePoint} (early : s'.NeverEarly)
    (e : step s (.sleep r t cb now) = some s') : r.Exact ∧ now + r.nanos < 2 ^ 63 := by
  obtain ⟨valid, fits, -, -, rfl⟩ := step_sleep e
  have late := early.deadline _ List.mem_cons_self
  rw [TimerManager.State.addTimer_timer] at late
  exact (deadline_iff valid fits).1 late

end Steps

/-- **Main theorem.** No sleep is early in a run of punctual steps, and the next sleep is not
early exactly if its timer can count what is asked for. -/
theorem sleeps_long_enough (s : State) (h : machine.ReachIf Punctual s) :
    s.NeverEarly ∧ ∀ r t cb now s', step s (.sleep r t cb now) = some s' →
      (s'.NeverEarly ↔ r.Exact ∧ now + r.nanos < 2 ^ 63) := by
  have kept := kept_of_reach h
  have fromSet := (final_of_reach (reach_manager h)).fromSet
  refine ⟨kept.early, fun r t cb now s' e => ?_⟩
  constructor
  · exact fun early => early.exact e
  · exact fun exactly => (kept.sleep fromSet exactly e).early

/-- A fiber sleeps for two seconds, and after the first one another fiber for a millisecond. -/
theorem sleeps_long_enough_two : ∃ s : State, s.queued = [(8, 1001000000), (7, 2000000000)] ∧ s.sleepers.length = 2 ∧
    s.NeverEarly := by
  obtain ⟨s, reached, found⟩ := Machine.reachIf_of_any (M := machine)
    (p := fun s => decide (s.queued = [(8, 1001000000), (7, 2000000000)] ∧ s.sleepers.length = 2))
    (by decide +kernel : (machine.execIf Punctual machine.init
      [.sleep (.sleep 2) 7 0 0, .goOn 7 true true 0, .sleep (.usleep 1000) 8 1 1000000000,
       .manager (.listExpired 1001000000 1001000000), .manager .takeExpired, .manager .takeExpired,
       .manager (.listExpired 2000000000 2000000000), .manager .takeExpired]).any _ = true)
  obtain ⟨queued, two⟩ := of_decide_eq_true found
  exact ⟨s, queued, two, (sleeps_long_enough s reached).1⟩

/-- `sleep(4294968)` registers a timer of 704 ms, and the other two one of 1 ms for 1.5 ms. -/
theorem ends_early : (¬ ∀ s, machine.Reach s → s.NeverEarly) ∧
    ∀ r ∈ [Request.sleep 4294968, .usleep 1500, .nanosleep 0 1500000], ∃ s, machine.Reach s ∧
      s.sleepers.map (·.nanos) = [r.nanos] ∧ ¬ s.NeverEarly := by
  have early : ∀ r ∈ [Request.sleep 4294968, .usleep 1500, .nanosleep 0 1500000], ∃ s, machine.Reach s ∧
      s.sleepers.map (·.nanos) = [r.nanos] ∧ ¬ s.NeverEarly := by
    intro r mem
    have inexact : r.Valid ∧ ¬ r.Exact := by
      simp only [List.mem_cons, List.not_mem_nil, or_false] at mem
      rcases mem with rfl | rfl | rfl <;> decide
    have called : step machine.init (.sleep r 7 0 0) = _ := sleep_runs inexact.1 ⟨by decide, by decide⟩ List.not_mem_nil rfl
    have reached : machine.Reach _ := Machine.ReachIf.init.next (.sleep r 7 0 0) trivial called
    exact ⟨_, reached, rfl, fun never => inexact.2 (never.exact called).1⟩
  refine ⟨fun all => ?_, early⟩
  obtain ⟨s, reached, -, fails⟩ := early (.sleep 4294968) List.mem_cons_self
  exact fails (all s reached)

end Mycoroutine.Sleeps
