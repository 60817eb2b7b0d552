import Mycoroutine.Interleave.Linearize
import Mycoroutine.Sync.WaitGroup

/-!
# A `WaitGroup` is a counter that can be waited for

To its clients a `WaitGroup` is a number that `add` changes and that `wait` waits
for to be zero. The linearization point of `add` is its section, before it has
notified anyone; that of `wait` is the section in which it finds zero, also after
the count has risen again and the waiter was queued once more.
-/

namespace Mycoroutine.WaitGroup
set_option autoImplicit false
open Interleave

variable {φ : Type*} [DecidableEq φ]

inductive Op where
  | add (delta : Int)
  | wait

/-- The number never falls below zero. -/
def counter : Linearize.Object Op Unit Int where
  init := 0
  apply count
    | .add delta => if 0 ≤ count + delta then some ((), count + delta) else none
    | .wait => if count = 0 then some ((), count) else none

/-- Where a fiber stands in the eyes of the counter. -/
def Pc.standing : Pc → Linearize.Standing Op Unit
  | .idle => .fresh
  | .suspended _ | .retry _ => .pending .wait
  | .notifying _ | .scheduling _ _ => .decided ()

/-- The call has returned. -/
def Pc.returned (f : φ) : Pc → List (Linearize.Event φ Op Unit)
  | .idle => [.respond f ()]
  | _ => []

/-- A step is seen when a call begins or returns. -/
def view (φ : Type*) : Linearize.View (State φ) (Label φ) φ Op Unit Int where
  object s := s.group.count
  standing s f := (s.pc f).standing
  visible _ l s' :=
    match l with
    | .add f delta => .invoke f (.add delta) :: (s'.pc f).returned f
    | .wait f => .invoke f .wait :: (s'.pc f).returned f
    | .notify f | .retry f => (s'.pc f).returned f
    | .check _ => []

section Steps

variable {s s' : State φ} {f : φ} {p : Pc}

theorem standing_update {standing : Linearize.Standing Op Unit} (pc : s'.pc = Function.update s.pc f p)
    (stands : p.standing = standing) : (view φ).standing s' = Function.update ((view φ).standing s) f standing := by
  funext g
  simp only [view, pc, ← stands]
  by_cases mine : g = f
  · rw [mine, Function.update_self, Function.update_self]
  · rw [Function.update_of_ne mine, Function.update_of_ne mine]

theorem standing_same (pc : s'.pc = Function.update s.pc f p) (same : p.standing = (s.pc f).standing) :
    (view φ).standing s' = (view φ).standing s := by
  rw [standing_update pc same]
  exact Function.update_eq_self f ((view φ).standing s)

/-- The section of `add` is the counter's `add`. -/
theorem addSection_applies {g g' : WaitGroup} {delta : Int} {toWake : List Nat}
    (section' : g.addSection delta = some (toWake, g')) : counter.apply g.count (.add delta) = some ((), g'.count) := by
  simp only [addSection] at section'
  split at section'
  · cases section'
  · rename_i notNegative
    have applied : counter.apply g.count (.add delta) = some ((), g.count + delta) := if_pos (by omega)
    split at section' <;> cases section' <;> exact applied

theorem follows_add {delta : Int} (e : step s (.add f delta) = some s') : (view φ).Follows counter s (.add f delta) s' := by
  simp only [step] at e
  split at e
  · rename_i here
    obtain ⟨⟨toWake, group⟩, section', rfl⟩ := Option.map_eq_some_iff.1 e
    have fresh : (view φ).standing s f = .fresh := by simp only [view, here, Pc.standing]
    cases toWake with
    | nil =>
      refine .called (p := f) (o := .add delta) (r := ()) fresh (addSection_applies section') ?_ ?_
      · exact standing_same rfl (by rw [here]; rfl)
      · simp [view, Pc.notify, Pc.returned]
    | cons waiter rest =>
      refine .enters (p := f) (o := .add delta) (r := ()) fresh (addSection_applies section') ?_ ?_
      · exact standing_update rfl rfl
      · simp [view, Pc.notify, Pc.returned]
  · cases e

/-- The loop of `add` over `to_wake` ends, or goes on. -/
theorem follows_notify (e : step s (.notify f) = some s') : (view φ).Follows counter s (.notify f) s' := by
  simp only [step] at e
  split at e <;> cases e
  · rename_i waiter rest here
    refine .stays rfl (standing_same rfl (by rw [here]; rfl)) ?_
    simp [view, Pc.returned]
  · rename_i waiter rest here
    have decided : (view φ).standing s f = .decided () := by simp only [view, here, Pc.standing]
    cases rest with
    | nil => exact .returns decided rfl (standing_update rfl rfl) (by simp [view, Pc.notify, Pc.returned])
    | cons next rest =>
      exact .stays rfl (standing_same rfl (by rw [here]; rfl)) (by simp [view, Pc.notify, Pc.returned])

theorem follows_wait (e : step s (.wait f) = some s') : (view φ).Follows counter s (.wait f) s' := by
  simp only [step] at e
  split at e
  · rename_i here
    cases e
    have fresh : (view φ).standing s f = .fresh := by simp only [view, here, Pc.standing]
    by_cases zero : s.group.count = 0
    · simp only [zero, if_true, State.enterWait, waitSection]
      refine .called (p := f) (o := .wait) (r := ()) fresh (by simp [counter, view, zero]) ?_ ?_
      · exact standing_same rfl (by rw [here])
      · simp [view, Pc.returned]
    · simp only [zero, if_false, State.enterWait, State.makeWaiter, waitSection]
      refine .begins (p := f) (o := .wait) fresh rfl (standing_update rfl rfl) ?_
      simp [view, Pc.returned]
  · cases e

theorem follows_retry (e : step s (.retry f) = some s') : (view φ).Follows counter s (.retry f) s' := by
  simp only [step] at e
  split at e
  · rename_i waiter here
    cases e
    have pending : (view φ).standing s f = .pending .wait := by simp only [view, here, Pc.standing]
    by_cases zero : s.group.count = 0
    · simp only [zero, if_true, State.enterWait, waitSection]
      refine .finished (r := ()) pending (by simp [counter, view, zero]) (standing_update rfl rfl) ?_
      simp [view, Pc.returned]
    · simp only [zero, if_false, State.enterWait, waitSection]
      refine .stays rfl (standing_same rfl (by rw [here]; rfl)) ?_
      simp [view, Pc.returned]
  · cases e

/-- Every step of a `WaitGroup` is one of the counter's clients. -/
theorem follows_step {l : Label φ} (e : step s l = some s') : (view φ).Follows counter s l s' := by
  cases l with
  | add f delta => exact follows_add e
  | notify f => exact follows_notify e
  | wait f => exact follows_wait e
  | check f =>
    simp only [step] at e
    split at e
    · rename_i here
      split at e <;> cases e
      · exact .stays rfl (standing_same rfl (by rw [here]; rfl)) rfl
      · exact .stays rfl rfl rfl
    · cases e
  | retry f => exact follows_retry e

end Steps

/-- **Main theorem.** Whatever the interleaving, `add` and `wait` return as they do on a
counter, one call after the other in an order that respects which call had returned
before which began: a `wait` is placed where the count is zero. -/
theorem counter_linearizable (s : State φ × List (Linearize.Event φ Op Unit))
    (h : ((machine φ).watched (view φ).visible).Reach s) :
    Linearize.WellFormed (Linearize.number s.2) ∧ Linearize.Linearizable counter (Linearize.number s.2) :=
  Linearize.linearizable_of_follows ⟨rfl, rfl⟩ (fun _ _ _ _ e => follows_step e) h

/-- A `wait` that is told of a zero and finds the count risen again; it returns at the second zero. -/
theorem counter_linearizable_reused :
    ∃ s, ((machine Bool).watched (view Bool).visible).exec ((machine Bool).watched (view Bool).visible).init
        [.add true 1, .wait false, .add true (-1), .notify true, .notify true, .add true 1, .check false, .retry false,
          .add true (-1), .notify true, .check false, .retry false] = some s ∧
      s.2 = [.invoke true (.add 1), .respond true (), .invoke false .wait, .invoke true (.add (-1)), .respond true (),
        .invoke true (.add 1), .respond true (), .invoke true (.add (-1)), .respond false ()] ∧
      Linearize.WellFormed (Linearize.number s.2) ∧ Linearize.Linearizable counter (Linearize.number s.2) := by
  refine ⟨_, rfl, rfl, ?_⟩
  exact counter_linearizable _ (Machine.reach_of_exec (rfl : ((machine Bool).watched (view Bool).visible).exec
    ((machine Bool).watched (view Bool).visible).init
    [.add true 1, .wait false, .add true (-1), .notify true, .notify true, .add true 1, .check false, .retry false,
      .add true (-1), .notify true, .check false, .retry false] = some _))

end Mycoroutine.WaitGroup
