import Mycoroutine.Interleave.Monitor

/-!
# `Semaphore`

`Semaphore` is a monitor on its `count`: `wait` goes on once the count is not 0,
`signal` notifies one thread. The count is an `int`; beyond its range the code has no
meaning.
-/

namespace Mycoroutine.Semaphore
set_option autoImplicit false
open Interleave

inductive Op where
  | wait
  | signal
deriving DecidableEq

/-- `Semaphore(count_)`. -/
def semaphore (count : Int) : Monitor Op Unit Int where
  init := count
  ready count
    | .wait => count != 0
    | .signal => true
  act count
    | .wait => if -2147483648 < count then some ((), count - 1) else none
    | .signal => if count < 2147483647 then some ((), count + 1) else none
  notifies
    | .wait => false
    | .signal => true

/-- What is there for waiting threads. -/
theorem supplies {count : Int} (nonneg : 0 ≤ count) : (semaphore count).Supplies (0 ≤ ·) Int.toNat where
  base := nonneg
  kept d op r d' nonneg ready act := by
    cases op with
    | wait =>
      simp only [semaphore, bne_iff_ne, ne_eq] at ready act
      split at act <;> cases act
      omega
    | signal =>
      simp only [semaphore] at act
      split at act <;> cases act
      omega
  always d op notifies := by
    cases op with
    | wait => cases notifies
    | signal => rfl
  gives d op r d' nonneg notifies act := by
    cases op with
    | wait => cases notifies
    | signal =>
      simp only [semaphore] at act
      split at act <;> cases act
      omega
  takes d op r d' nonneg notifies ready act := by
    cases op with
    | wait =>
      simp only [semaphore, bne_iff_ne, ne_eq] at ready act
      split at act <;> cases act
      omega
    | signal => cases notifies
  blocked d op nonneg unready := by
    cases op with
    | wait =>
      simp only [semaphore, bne_eq_false_iff_eq] at unready
      rw [unready]
      rfl
    | signal => cases unready

/-- **Main theorem.** On a semaphore that starts with a count of 0 or more, with any
number of threads, lost races for the mutex and spurious wake-ups included: one thread is
inside at a time, the count is never negative, and while a thread sleeps there are at
least as many threads on the way to `wait`'s test as the count allows to pass, so none
sleeps beside a count that nobody is going to use. What `wait` and `signal` return is
what they return one after the other. -/
theorem wakes_enough {τ : Type*} [DecidableEq τ] (count : Int) (nonneg : 0 ≤ count)
    (s : Monitor.State τ Op Unit Int × List (Linearize.Event τ Op Unit))
    (h : (((semaphore count).machine τ).watched (Monitor.view τ Op Unit Int).visible).Reach s) :
    (∀ t u, (s.1.pc t).inside = true → (s.1.pc u).inside = true → t = u) ∧ 0 ≤ s.1.data ∧
      (s.1.waiting ≠ [] → s.1.data ≤ s.1.woken.length + s.1.credit) ∧
      (s.1.waiting ≠ [] → 0 < s.1.data → s.1.woken ≠ [] ∨ ∃ t, s.1.owner = some t ∧ (s.1.pc t).credit = 1) ∧
      Linearize.WellFormed (Linearize.number s.2) ∧
      Linearize.Linearizable (semaphore count).object (Linearize.number s.2) := by
  have reach := Machine.reach_of_watched h
  have locked := Monitor.locked_of_reach reach
  have supplies := supplies nonneg
  have nonneg' := Monitor.data_invariant reach supplies.base supplies.kept
  refine ⟨fun t u left right => locked.alone left right, nonneg', fun asleep => ?_, fun asleep some' => ?_,
    Monitor.linearizable h⟩
  · have enough := (Monitor.balanced_of_reach supplies reach).enough asleep
    have count : (s.1.data.toNat : Int) = s.1.data := Int.toNat_of_nonneg nonneg'
    omega
  · have positive : 0 < s.1.data.toNat := by omega
    exact Monitor.supply_watched supplies reach asleep positive

/-- A thread that sleeps before anything is signalled, and is told. -/
def handover : List (Monitor.Label Bool Op) :=
  [.enter false .wait, .lock false, .test false, .enter true .signal, .lock true, .test true, .notify true (some false)]

theorem wakes_enough_handover : ∃ s, (((semaphore 0).machine Bool).watched (Monitor.view Bool Op Unit Int).visible).exec
      (((semaphore 0).machine Bool).watched (Monitor.view Bool Op Unit Int).visible).init handover = some s ∧
    s.1.woken = [false] ∧ 0 ≤ s.1.data ∧ Linearize.Linearizable (semaphore 0).object (Linearize.number s.2) := by
  have run : ∃ s, (((semaphore 0).machine Bool).watched (Monitor.view Bool Op Unit Int).visible).exec
      (((semaphore 0).machine Bool).watched (Monitor.view Bool Op Unit Int).visible).init handover = some s ∧
        s.1.woken = [false] := ⟨_, rfl, rfl⟩
  obtain ⟨s, e, woken⟩ := run
  have holds := wakes_enough 0 (by decide) s (Machine.reach_of_exec e)
  exact ⟨s, e, woken, holds.2.1, holds.2.2.2.2.2⟩

end Mycoroutine.Semaphore
