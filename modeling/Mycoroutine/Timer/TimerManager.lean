import Mathlib.Algebra.Group.Nat.Defs
import Mathlib.Algebra.Group.Int.Defs
import Mycoroutine.Interleave.Machine

/-!
# `Timer` and `TimerManager`

Timers are named by their address. A step of the machine is a section under the
manager's `m_mutex`, or what `reset` does outside of one: its first test, and
the update of the fields between its two sections. `listExpiredCb` keeps the
lock while it takes one timer a step, so its loop may also never end. Clock
readings are arbitrary, and come with the label.

`events` is history: no step reads it. A timer's address is never used again,
so that it names the timer in the history.
-/

namespace Mycoroutine.TimerManager
set_option autoImplicit false
open Interleave

/-- A `system_clock::time_point`: nanoseconds, in 64 bits. -/
abbrev TimePoint := Int

/-- A computation of `std::chrono`, in a signed 64-bit number. -/
def int64 (x : Int) : Int := x.bmod (2 ^ 64)

/-- `time + std::chrono::milliseconds(ms)`. -/
def addMillis (time : TimePoint) (ms : Nat) : TimePoint := int64 (time + int64 (int64 ms * 1000000))

/-- `time - std::chrono::milliseconds(ms)`. -/
def subMillis (time : TimePoint) (ms : Nat) : TimePoint := int64 (time - int64 (int64 ms * 1000000))

/-- The fields of `Timer`; `cb` is `none` where `m_cb` is empty. -/
structure Timer where
  recurring : Bool := false
  ms : Nat := 0
  next : TimePoint := 0
  cb : Option Nat := none

/-- `Timer::Timer`. -/
def Timer.make (ms cb : Nat) (recurring : Bool) (now : TimePoint) : Timer :=
  { recurring, ms, next := addMillis now ms, cb := some cb }

section Make

variable (ms cb : Nat) (recurring : Bool) (now : TimePoint)

@[simp] theorem Timer.cb_make : (make ms cb recurring now).cb = some cb := rfl

@[simp] theorem Timer.recurring_make : (make ms cb recurring now).recurring = recurring := rfl

@[simp] theorem Timer.next_make : (make ms cb recurring now).next = addMillis now ms := rfl

end Make

/-- Where a thread stands in `reset`: before the first section, before the
update of the fields, before `addTimer`. -/
inductive Pc where
  | idle
  | erase (t : Nat) (ms : Nat) (fromNow : Bool)
  | update (t : Nat) (ms : Nat) (fromNow : Bool)
  | insert (t : Nat)
deriving DecidableEq

inductive Event where
  /-- `listExpiredCb` appended the timer's `m_cb`. -/
  | fired (t : Nat) (cb : Option Nat)
  /-- `cancel` returned true. -/
  | cancelled (t : Nat)
  /-- `refresh` returned true. -/
  | refreshed (t : Nat)
  /-- `reset` returned true. -/
  | wasReset (t : Nat)
deriving DecidableEq

structure State where
  timer : Nat → Timer
  created : List Nat
  /-- `m_timers`, its `begin()` first. -/
  timers : List Nat
  tickled : Bool
  previouseTime : TimePoint
  /-- The `now` and `rollover` of the `listExpiredCb` that holds the lock. -/
  expiring : Option (TimePoint × Bool)
  pc : Nat → Pc
  events : List Event

inductive Label where
  | addTimer (t : Nat) (ms : Nat) (cb : Nat) (recurring : Bool) (now : TimePoint)
  | cancel (t : Nat)
  | refresh (t : Nat) (now : TimePoint)
  | reset (thread : Nat) (t : Nat) (ms : Nat) (fromNow : Bool)
  | erase (thread : Nat)
  | update (thread : Nat) (now : TimePoint)
  | insert (thread : Nat)
  | listExpired (now : TimePoint) (rolloverNow : TimePoint)
  | takeExpired
  | getNextTimer

/-! ## `std::set` with `Timer::Comparator` -/

section Set

variable (before : Nat → Nat → Bool)

/-- `m_timers.insert`. -/
def insertTimer (t : Nat) : List Nat → List Nat
  | [] => [t]
  | u :: rest => if before t u then t :: u :: rest else if before u t then u :: insertTimer t rest else u :: rest

/-- Whether `m_timers.find` finds the timer. -/
def findTimer (t : Nat) (timers : List Nat) : Bool := timers.any fun u => !before t u && !before u t

/-- `m_timers.erase` of what `find` finds. -/
def eraseTimer (t : Nat) (timers : List Nat) : List Nat := timers.eraseP fun u => !before t u && !before u t

end Set

namespace State

/-- `Timer::Comparator`. -/
def before (s : State) (lhs rhs : Nat) : Bool :=
  if (s.timer lhs).next < (s.timer rhs).next then true
  else if (s.timer rhs).next < (s.timer lhs).next then false
  else decide (lhs < rhs)

def setTimer (s : State) (t : Nat) (timer : Timer) : State := { s with timer := Function.update s.timer t timer }

def log (s : State) (e : Event) : State := { s with events := s.events ++ [e] }

/-- The locked section of `addTimer`. -/
def addSection (s : State) (t : Nat) : State :=
  let timers := insertTimer s.before t s.timers
  let atFront := timers.head? = some t && !s.tickled
  { s with timers, tickled := s.tickled || atFront }

/-- `addTimer` of a new timer. -/
def addTimer (s : State) (t ms cb : Nat) (recurring : Bool) (now : TimePoint) : State :=
  { s.setTimer t (.make ms cb recurring now) with
    created := t :: s.created }.addSection t

theorem addTimer_timer (s : State) (t ms cb : Nat) (recurring : Bool) (now : TimePoint) :
    (s.addTimer t ms cb recurring now).timer t = .make ms cb recurring now :=
  Function.update_self ..

def cancel (s : State) (t : Nat) : State :=
  match (s.timer t).cb with
  | none => s
  | some _ =>
    { s.setTimer t { s.timer t with cb := none } with timers := eraseTimer s.before t s.timers }.log (.cancelled t)

def refresh (s : State) (t : Nat) (now : TimePoint) : State :=
  match (s.timer t).cb with
  | none => s
  | some _ =>
    if findTimer s.before t s.timers then
      let erased := { s with timers := eraseTimer s.before t s.timers }
      let updated := erased.setTimer t { s.timer t with next := addMillis now (s.timer t).ms }
      { updated with timers := insertTimer updated.before t updated.timers }.log (.refreshed t)
    else s

/-- The first test of `reset`, outside of the lock. -/
def reset (s : State) (thread t ms : Nat) (fromNow : Bool) : State :=
  if ms = (s.timer t).ms ∧ fromNow = false then s.log (.wasReset t)
  else { s with pc := Function.update s.pc thread (.erase t ms fromNow) }

/-- The first section of `reset`. -/
def eraseSection (s : State) (thread t ms : Nat) (fromNow : Bool) : State :=
  match (s.timer t).cb with
  | none => { s with pc := Function.update s.pc thread .idle }
  | some _ =>
    if findTimer s.before t s.timers then
      { s with timers := eraseTimer s.before t s.timers, pc := Function.update s.pc thread (.update t ms fromNow) }
    else { s with pc := Function.update s.pc thread .idle }

/-- The update of the fields in `reset`, outside of the lock. -/
def updateFields (s : State) (thread t ms : Nat) (fromNow : Bool) (now : TimePoint) : State :=
  let start := if fromNow then now else subMillis (s.timer t).next (s.timer t).ms
  { s.setTimer t { s.timer t with ms, next := addMillis start ms } with
    pc := Function.update s.pc thread (.insert t) }

/-- `detectClockRollover`. -/
def rollover (s : State) (now : TimePoint) : Bool := decide (now < subMillis s.previouseTime (60 * 60 * 1000))

/-- One iteration of `listExpiredCb`, or the end of its loop. -/
def takeExpired (s : State) (now : TimePoint) (rollover : Bool) : State :=
  match s.timers with
  | [] => { s with expiring := none }
  | t :: rest =>
    if rollover || decide ((s.timer t).next ≤ now) then
      let taken := { s with timers := rest }.log (.fired t (s.timer t).cb)
      if (s.timer t).recurring then
        let updated := taken.setTimer t { s.timer t with next := addMillis now (s.timer t).ms }
        { updated with timers := insertTimer updated.before t updated.timers }
      else taken.setTimer t { s.timer t with cb := none }
    else { s with expiring := none }

/-- A section under `m_mutex`. -/
def locked (s : State) (f : State → State) : Option State := if s.expiring = none then some (f s) else none

end State

def step (s : State) : Label → Option State
  | .addTimer t ms cb recurring now =>
    if t ∈ s.created then none else s.locked fun s => s.addTimer t ms cb recurring now
  | .cancel t => if t ∈ s.created then s.locked fun s => s.cancel t else none
  | .refresh t now => if t ∈ s.created then s.locked fun s => s.refresh t now else none
  | .reset thread t ms fromNow =>
    if t ∈ s.created ∧ s.pc thread = .idle then some (s.reset thread t ms fromNow) else none
  | .erase thread =>
    match s.pc thread with
    | .erase t ms fromNow => s.locked fun s => s.eraseSection thread t ms fromNow
    | _ => none
  | .update thread now =>
    match s.pc thread with
    | .update t ms fromNow => some (s.updateFields thread t ms fromNow now)
    | _ => none
  | .insert thread =>
    match s.pc thread with
    | .insert t => s.locked fun s =>
        { s.addSection t with pc := Function.update s.pc thread .idle }.log (.wasReset t)
    | _ => none
  | .listExpired now rolloverNow =>
    s.locked fun s => { s with expiring := some (now, s.rollover rolloverNow), previouseTime := rolloverNow }
  | .takeExpired => s.expiring.map fun (now, rollover) => s.takeExpired now rollover
  | .getNextTimer => s.locked fun s => { s with tickled := false }

/-- Any number of threads and timers on one manager. -/
def machine : Machine State Label where
  init := {
    timer := fun _ => {}, created := [], timers := [], tickled := false, previouseTime := 0, expiring := none,
    pc := fun _ => .idle, events := [] }
  step := step

/-! ## What the sections do to the set -/

section Set

variable {before : Nat → Nat → Bool} {t u : Nat} {timers : List Nat}

/-- A comparator that tells different timers apart. -/
def Apart (before : Nat → Nat → Bool) : Prop := ∀ t u, before t u = false → before u t = false → t = u

theorem before_apart (s : State) : Apart s.before := by
  intro t u forth back
  simp only [State.before] at forth back
  grind

theorem mem_insertTimer (apart : Apart before) : u ∈ insertTimer before t timers ↔ u = t ∨ u ∈ timers := by
  induction timers with
  | nil => simp [insertTimer]
  | cons v rest ih =>
    rw [insertTimer]
    split
    · exact List.mem_cons
    · split
      · rw [List.mem_cons, ih, List.mem_cons]
        tauto
      · have same : t = v := apart t v (by simpa using ‹¬ before t v = true›) (by simpa using ‹¬ before v t = true›)
        simp [same]

/-- `find` looks for the timer itself. -/
theorem equal_iff (apart : Apart before) (irrefl : ∀ t, before t t = false) :
    (!before t u && !before u t) = true ↔ t = u := by
  simp only [Bool.and_eq_true, Bool.not_eq_true']
  constructor
  · exact fun ⟨forth, back⟩ => apart t u forth back
  · rintro rfl
    exact ⟨irrefl t, irrefl t⟩

theorem before_irrefl (s : State) (t : Nat) : s.before t t = false := by simp [State.before]

theorem findTimer_iff (s : State) : findTimer s.before t timers = true ↔ t ∈ timers := by
  rw [findTimer, List.any_eq_true]
  simp only [equal_iff (before_apart s) (before_irrefl s)]
  exact ⟨fun ⟨u, mem, same⟩ => same ▸ mem, fun mem => ⟨t, mem, rfl⟩⟩

theorem eraseTimer_eq (s : State) : eraseTimer s.before t timers = timers.erase t := by
  rw [eraseTimer, List.erase_eq_eraseP']
  refine congrArg (List.eraseP · timers) (funext fun u => ?_)
  rw [Bool.eq_iff_iff, equal_iff (before_apart s) (before_irrefl s), beq_iff_eq]
  exact eq_comm

theorem insertTimer_perm (apart : Apart before) (new : t ∉ timers) : (insertTimer before t timers).Perm (t :: timers) := by
  induction timers with
  | nil => exact .refl _
  | cons v rest ih =>
    rw [List.mem_cons, not_or] at new
    rw [insertTimer]
    split
    · exact .refl _
    · split
      · exact ((ih new.2).cons v).trans (.swap ..)
      · exact absurd (apart t v (by simpa using ‹¬ before t v = true›) (by simpa using ‹¬ before v t = true›)) new.1

end Set

/-! ## What one step can do -/

/-- `timers'` is `timers` with `t` inserted. -/
structure Inserted (t : Nat) (timers timers' : List Nat) : Prop where
  mem : ∀ u, u ∈ timers' ↔ u = t ∨ u ∈ timers
  perm : t ∉ timers → timers'.Perm (t :: timers)

theorem inserted (s : State) (t : Nat) (timers : List Nat) : Inserted t timers (insertTimer s.before t timers) :=
  ⟨fun _ => mem_insertTimer (before_apart s), insertTimer_perm (before_apart s)⟩

/-- What one step can do, one case for each branch of the source. -/
inductive Moves (s : State) : Label → State → Prop where
  | added (t ms cb : Nat) (recurring : Bool) (now : TimePoint) (new : t ∉ s.created) (timers : List Nat)
      (tickled : Bool) (ins : Inserted t s.timers timers) :
      Moves s (.addTimer t ms cb recurring now)
        { s with timer := Function.update s.timer t (.make ms cb recurring now),
                 created := t :: s.created, timers, tickled }
  | cancelled (t cb : Nat) (known : t ∈ s.created) (live : (s.timer t).cb = some cb) :
      Moves s (.cancel t)
        { s with timer := Function.update s.timer t { s.timer t with cb := none }, timers := s.timers.erase t,
                 events := s.events ++ [.cancelled t] }
  | refreshed (t cb : Nat) (now next : TimePoint) (live : (s.timer t).cb = some cb) (present : t ∈ s.timers)
      (timers : List Nat) (ins : Inserted t (s.timers.erase t) timers) :
      Moves s (.refresh t now)
        { s with timer := Function.update s.timer t { s.timer t with next }, timers,
                 events := s.events ++ [.refreshed t] }
  | same (thread t ms : Nat) (fromNow : Bool) (known : t ∈ s.created) (early : ms = (s.timer t).ms ∧ fromNow = false) :
      Moves s (.reset thread t ms fromNow) { s with events := s.events ++ [.wasReset t] }
  | began (thread t ms : Nat) (fromNow : Bool) (known : t ∈ s.created) (here : s.pc thread = .idle) :
      Moves s (.reset thread t ms fromNow) { s with pc := Function.update s.pc thread (.erase t ms fromNow) }
  | erased (thread t ms cb : Nat) (fromNow : Bool) (here : s.pc thread = .erase t ms fromNow)
      (live : (s.timer t).cb = some cb) (present : t ∈ s.timers) :
      Moves s (.erase thread)
        { s with timers := s.timers.erase t, pc := Function.update s.pc thread (.update t ms fromNow) }
  | refused (thread t ms : Nat) (fromNow : Bool) (here : s.pc thread = .erase t ms fromNow) :
      Moves s (.erase thread) { s with pc := Function.update s.pc thread .idle }
  | updated (thread t ms : Nat) (fromNow : Bool) (now next : TimePoint) (here : s.pc thread = .update t ms fromNow) :
      Moves s (.update thread now)
        { s with timer := Function.update s.timer t { s.timer t with ms, next },
                 pc := Function.update s.pc thread (.insert t) }
  | wasReset (thread t : Nat) (here : s.pc thread = .insert t) (timers : List Nat) (tickled : Bool)
      (ins : Inserted t s.timers timers) :
      Moves s (.insert thread)
        { s with timers, tickled, pc := Function.update s.pc thread .idle, events := s.events ++ [.wasReset t] }
  | firedAgain (t : Nat) (rest : List Nat) (queue : s.timers = t :: rest) (recurs : (s.timer t).recurring = true)
      (next : TimePoint) (timers : List Nat) (ins : Inserted t rest timers) :
      Moves s .takeExpired
        { s with timer := Function.update s.timer t { s.timer t with next }, timers,
                 events := s.events ++ [.fired t (s.timer t).cb] }
  | firedOnce (t : Nat) (rest : List Nat) (queue : s.timers = t :: rest) (once : (s.timer t).recurring = false) :
      Moves s .takeExpired
        { s with timer := Function.update s.timer t { s.timer t with cb := none }, timers := rest,
                 events := s.events ++ [.fired t (s.timer t).cb] }
  | other (l : Label) (tickled : Bool) (previouseTime : TimePoint) (expiring : Option (TimePoint × Bool)) :
      Moves s l { s with tickled, previouseTime, expiring }

section Inversion

variable {s s' : State} {t : Nat}

theorem locked_eq {f : State → State} (h : s.locked f = some s') : f s = s' := by
  unfold State.locked at h
  split at h
  · exact Option.some.inj h
  · cases h

theorem refresh_moves {now : TimePoint} : Moves s (.refresh t now) (s.refresh t now) := by
  unfold State.refresh
  split
  · exact .other _ _ _ _
  · rename_i cb live
    split
    · rename_i found
      have present : t ∈ s.timers := (findTimer_iff s).1 found
      simp only [eraseTimer_eq]
      exact .refreshed t cb now _ live present _ (inserted _ t _)
    · exact .other _ _ _ _

theorem eraseSection_moves {thread ms : Nat} {fromNow : Bool} (here : s.pc thread = .erase t ms fromNow) :
    Moves s (.erase thread) (s.eraseSection thread t ms fromNow) := by
  unfold State.eraseSection
  split
  · exact .refused thread t ms fromNow here
  · rename_i cb live
    split
    · rename_i found
      simp only [eraseTimer_eq]
      exact .erased thread t ms cb fromNow here live ((findTimer_iff s).1 found)
    · exact .refused thread t ms fromNow here

theorem takeExpired_moves {now : TimePoint} {rollover : Bool} : Moves s .takeExpired (s.takeExpired now rollover) := by
  unfold State.takeExpired
  split
  · exact .other _ _ _ _
  · rename_i t rest queue
    split
    · cases recurs : (s.timer t).recurring with
      | true => exact .firedAgain t rest queue recurs _ _ (inserted _ t _)
      | false => exact .firedOnce t rest queue recurs
    · exact .other _ _ _ _

/-- Every enabled step is one of the moves. -/
theorem step_moves {l : Label} (h : step s l = some s') : Moves s l s' := by
  cases l with
  | addTimer t ms cb recurring now =>
    simp only [step] at h
    split at h
    · cases h
    · rename_i new
      rw [← locked_eq h]
      exact .added t ms cb recurring now new _ _ (inserted _ t _)
  | cancel t =>
    simp only [step] at h
    split at h
    · rename_i known
      rw [← locked_eq h, State.cancel]
      split
      · exact .other _ _ _ _
      · rename_i cb live
        rw [eraseTimer_eq]
        exact .cancelled t cb known live
    · cases h
  | refresh t now =>
    simp only [step] at h
    split at h
    · rw [← locked_eq h]
      exact refresh_moves
    · cases h
  | reset thread t ms fromNow =>
    simp only [step] at h
    split at h
    · rename_i ready
      rw [← Option.some.inj h, State.reset]
      split
      · exact .same thread t ms fromNow ready.1 ‹_›
      · exact .began thread t ms fromNow ready.1 ready.2
    · cases h
  | erase thread =>
    simp only [step] at h
    split at h
    · rw [← locked_eq h]
      exact eraseSection_moves ‹_›
    · cases h
  | update thread now =>
    simp only [step] at h
    split at h
    · rw [← Option.some.inj h]
      exact .updated thread _ _ _ now _ ‹_›
    · cases h
  | insert thread =>
    simp only [step] at h
    split at h
    · rw [← locked_eq h]
      exact .wasReset thread _ ‹_› _ _ (inserted s _ _)
    · cases h
  | listExpired now rolloverNow =>
    simp only [step] at h
    rw [← locked_eq h]
    exact .other _ _ _ _
  | takeExpired =>
    obtain ⟨⟨now, rollover⟩, -, rfl⟩ := Option.map_eq_some_iff.1 h
    exact takeExpired_moves
  | getNextTimer =>
    simp only [step] at h
    rw [← locked_eq h]
    exact .other _ _ _ _

end Inversion

end Mycoroutine.TimerManager
