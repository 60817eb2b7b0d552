import Mycoroutine.Sync.CoMutex
import Mathlib.Data.List.Nodup
import Mathlib.Data.List.Count

/-!
# Mutual exclusion and fairness of `CoMutex`

`unlock` changes the owner before it stores `notified`, and the new owner runs
later still. The invariant names the fiber in between: it is suspended or about
to re-read the owner, it has left `waiters`, and the owner field already holds
its id.
-/

namespace Mycoroutine.CoMutex
set_option autoImplicit false
open Interleave

/-- Inside `lock` after queueing. -/
def State.Waiting (s : State) (f : FiberId) : Prop := s.pc f = .suspended ∨ s.pc f = .recheck

/-- Popped by `unlock` and not yet back from `lock`. -/
def State.Due (s : State) (f : FiberId) : Prop := s.Waiting f ∧ f ∉ s.mutex.waiters

instance (s : State) (f : FiberId) : Decidable (s.Waiting f) := inferInstanceAs (Decidable (_ ∨ _))

instance (s : State) (f : FiberId) : Decidable (s.Due f) := inferInstanceAs (Decidable (_ ∧ _))

/-- The fibers that queued and have not acquired yet, in queue order. -/
def State.pending (s : State) : List FiberId := s.queued.drop s.returned.length

/-- The one the owner field names: it holds the mutex, or has been handed it. -/
def State.Owner (s : State) (f : FiberId) : Prop := s.pc f = .holding ∨ s.Due f

structure Fair (s : State) : Prop where
  owner : ∀ f, s.Owner f → s.mutex.locked = true ∧ s.mutex.ownerFiberId = f.id
  owned : s.mutex.locked = true → ∃ f : FiberId, s.mutex.ownerFiberId = f.id
  free : s.mutex.locked = false → s.mutex.ownerFiberId = kNoOwner ∧ s.mutex.waiters = []
  asleep : ∀ f ∈ s.mutex.waiters, s.pc f = .suspended ∧ s.notified f = false
  once : s.mutex.waiters.Nodup
  told : ∀ f, s.pc f = .suspended → f ∉ s.mutex.waiters → s.notified f = true ∨ ∃ u, s.pc u = .notifying f
  untold : ∀ u f, s.pc u = .notifying f → s.pc f = .suspended ∧ f ∉ s.mutex.waiters ∧ s.notified f = false
  notifier : ∀ u v f, s.pc u = .notifying f → s.pc v = .notifying f → u = v
  settled : ∀ f, s.pc f ≠ .retry
  inOrder : ∃ next : Option FiberId, (∀ f, next = some f ↔ s.Due f) ∧
    s.queued = s.returned ++ next.toList ++ s.mutex.waiters

theorem fair_init : Fair machine.init := by
  constructor <;> simp [machine, State.Owner, State.Due, State.Waiting]

theorem Fair.owner_unique {s : State} (h : Fair s) {f g : FiberId} (hf : s.Owner f) (hg : s.Owner g) : f = g :=
  FiberId.eq_of_id ((h.owner f hf).2.symm.trans (h.owner g hg).2)

/-! ## The moves -/

section Moves

variable {s s' : State} {f g : FiberId} {p : Pc}

/-- The part of the invariant that is about `notified`. -/
structure Tells (s : State) : Prop where
  told : ∀ f, s.pc f = .suspended → f ∉ s.mutex.waiters → s.notified f = true ∨ ∃ u, s.pc u = .notifying f
  untold : ∀ u f, s.pc u = .notifying f → s.pc f = .suspended ∧ f ∉ s.mutex.waiters ∧ s.notified f = false
  notifier : ∀ u v f, s.pc u = .notifying f → s.pc v = .notifying f → u = v

theorem Fair.tells (h : Fair s) : Tells s := ⟨h.told, h.untold, h.notifier⟩

/-- A fiber that is not waiting is told nothing. -/
theorem Fair.nobody_tells (h : Fair s) (awake : s.pc f ≠ .suspended) (u : FiberId) : s.pc u ≠ .notifying f :=
  fun tells => awake (h.untold u f tells).1

/-- A pending notification is not lost when another fiber moves. -/
theorem notifying_elsewhere (here : s.pc f ≠ .notifying g) (pending : ∃ u, s.pc u = .notifying g) :
    ∃ u, Function.update s.pc f p u = .notifying g := by
  obtain ⟨u, hu⟩ := pending
  have apart : u ≠ f := fun same => here (same ▸ hu)
  exact ⟨u, by rw [Function.update_of_ne apart, hu]⟩

/-- A fiber other than the one that moved. -/
theorem elsewhere {q : Pc} (at' : Function.update s.pc f p g = q) (other : p ≠ q) : g ≠ f ∧ s.pc g = q := by
  have apart : g ≠ f := by
    rintro rfl
    exact other (by rwa [Function.update_self] at at')
  exact ⟨apart, by rwa [Function.update_of_ne apart] at at'⟩

/-- A fiber that nobody tells anything moves on, and does not wait or tell. -/
theorem Tells.frame (h : Tells s) (pc : s'.pc = Function.update s.pc f p) (notified : s'.notified = s.notified)
    (waiters : s'.mutex.waiters = s.mutex.waiters) (silent : ∀ g, s.pc f ≠ .notifying g)
    (untold : ∀ u, s.pc u ≠ .notifying f) (awake : p ≠ .suspended) (tells : ∀ g, p ≠ .notifying g) : Tells s' := by
  constructor
  case told =>
    intro g suspended apart
    rw [pc] at suspended ⊢
    rw [notified]
    rw [waiters] at apart
    exact (h.told g (elsewhere suspended awake).2 apart).imp_right (notifying_elsewhere (silent g))
  case untold =>
    intro u g tells'
    rw [pc] at tells' ⊢
    rw [notified, waiters]
    have before := (elsewhere tells' (tells g)).2
    have apart : g ≠ f := fun same => untold u (same ▸ before)
    rw [Function.update_of_ne apart]
    exact h.untold u g before
  case notifier =>
    intro u v g left right
    rw [pc] at left right
    exact h.notifier u v g (elsewhere left (tells g)).2 (elsewhere right (tells g)).2

theorem settled_update (h : ∀ g, s.pc g ≠ .retry) (goes : p ≠ .retry) (g : FiberId) : Function.update s.pc f p g ≠ .retry :=
  fun at' => h g (elsewhere at' goes).2

theorem asleep_update (h : ∀ g ∈ s.mutex.waiters, s.pc g = .suspended ∧ s.notified g = false)
    (out : f ∉ s.mutex.waiters) : ∀ g ∈ s.mutex.waiters, Function.update s.pc f p g = .suspended ∧ s.notified g = false := by
  intro g queued
  have apart : g ≠ f := fun same => out (same ▸ queued)
  rw [Function.update_of_ne apart]
  exact h g queued

theorem due_elsewhere (pc : s'.pc = Function.update s.pc f p) (waiters : s'.mutex.waiters = s.mutex.waiters)
    (apart : g ≠ f) : s'.Due g ↔ s.Due g := by
  simp only [State.Due, State.Waiting, pc, waiters, Function.update_of_ne apart]

theorem owner_elsewhere (pc : s'.pc = Function.update s.pc f p) (waiters : s'.mutex.waiters = s.mutex.waiters)
    (apart : g ≠ f) : s'.Owner g ↔ s.Owner g := by
  simp only [State.Owner, due_elsewhere pc waiters apart, pc, Function.update_of_ne apart]

theorem not_due_of_pc {q : Pc} (at' : s.pc f = q) (awake : q ≠ .suspended ∧ q ≠ .recheck) : ¬ s.Due f := by
  rintro ⟨waiting | waiting, -⟩
  · exact awake.1 (at'.symm.trans waiting)
  · exact awake.2 (at'.symm.trans waiting)

theorem Fair.acquired (h : Fair s) (here : s.pc f = .idle ∨ s.pc f = .holding ∨ s.pc f = .retry)
    (isFree : s.mutex.locked = false) (pc : s'.pc = Function.update s.pc f .holding) (notified : s'.notified = s.notified)
    (mutex : s'.mutex = { s.mutex with locked := true, ownerFiberId := f.id }) (queued : s'.queued = s.queued)
    (returned : s'.returned = s.returned) : Fair s' := by
  -- nobody owned it, and an unlocked mutex has no waiters
  have noOwner : ∀ g, ¬ s.Owner g := fun g hg => by cases isFree.symm.trans (h.owner g hg).1
  have nobody : s.mutex.waiters = [] := (h.free isFree).2
  have waiters : s'.mutex.waiters = s.mutex.waiters := by rw [mutex]
  have awake : s.pc f ≠ .suspended := by rcases here with at' | at' | at' <;> rw [at'] <;> nofun
  have silent : ∀ g, s.pc f ≠ .notifying g := fun g => by rcases here with at' | at' | at' <;> rw [at'] <;> nofun
  have tells : Tells s' := h.tells.frame pc notified waiters silent (h.nobody_tells awake) nofun nofun
  refine ⟨fun g own => ?_, fun _ => ⟨f, by rw [mutex]⟩, fun isFree' => ?_, fun g queued => ?_, ?_, tells.told, tells.untold,
    tells.notifier, ?_, ?_⟩
  · by_cases mine : g = f
    · rw [mutex, mine]
      exact ⟨rfl, rfl⟩
    · exact absurd ((owner_elsewhere pc waiters mine).1 own) (noOwner g)
  · rw [mutex] at isFree'
    cases isFree'
  · rw [waiters, nobody] at queued
    cases queued
  · rw [waiters]
    exact h.once
  · rw [pc]
    exact settled_update h.settled nofun
  · obtain ⟨due, isDue, inOrder⟩ := h.inOrder
    refine ⟨due, fun g => ?_, by rw [queued, returned, waiters, inOrder]⟩
    by_cases mine : g = f
    · have holds : s'.pc f = .holding := by rw [pc, Function.update_self]
      rw [isDue, mine]
      exact iff_of_false (fun isDue' => noOwner f (.inr isDue')) (not_due_of_pc holds ⟨nofun, nofun⟩)
    · rw [isDue, due_elsewhere pc waiters mine]

theorem Fair.queued (h : Fair s) (here : s.pc f = .idle ∨ s.pc f = .retry) (locked : s.mutex.locked = true)
    (pc : s'.pc = Function.update s.pc f .suspended) (notified : s'.notified = Function.update s.notified f false)
    (mutex : s'.mutex = { s.mutex with waiters := s.mutex.waiters ++ [f] }) (queued : s'.queued = s.queued ++ [f])
    (returned : s'.returned = s.returned) : Fair s' := by
  have awake : s.pc f ≠ .suspended := by rcases here with at' | at' <;> rw [at'] <;> nofun
  have silent : ∀ g, s.pc f ≠ .notifying g := fun g => by rcases here with at' | at' <;> rw [at'] <;> nofun
  have fresh : f ∉ s.mutex.waiters := fun inside => awake (h.asleep f inside).1
  have notDue : ¬ s.Due f := by
    rcases here with at' | at'
    · exact not_due_of_pc at' ⟨nofun, nofun⟩
    · exact not_due_of_pc at' ⟨nofun, nofun⟩
  have members : ∀ g, g ∈ s'.mutex.waiters ↔ g ∈ s.mutex.waiters ∨ g = f := fun g => by
    rw [mutex, List.mem_append, List.mem_singleton]
  have due : ∀ g, s'.Due g ↔ s.Due g := fun g => by
    by_cases mine : g = f
    · rw [mine]
      exact iff_of_false (fun isDue => isDue.2 ((members f).2 (.inr rfl))) notDue
    · simp only [State.Due, State.Waiting, pc, Function.update_of_ne mine, members, mine, or_false]
  have apartOf : ∀ g, s.pc g = .suspended → g ≠ f := fun g suspended same => awake (same ▸ suspended)
  refine ⟨fun g own => ?_, fun _ => ?_, fun isFree => ?_, fun g inside => ?_, ?_, fun g suspended apart => ?_,
    fun u g tells => ?_, fun u v g left right => ?_, ?_, ?_⟩
  · have before : s.Owner g := by
      rcases own with holds | isDue
      · rw [pc] at holds
        exact .inl (elsewhere holds nofun).2
      · exact .inr ((due g).1 isDue)
    rw [mutex]
    exact h.owner g before
  · rw [mutex]
    exact h.owned locked
  · rw [mutex] at isFree
    cases locked.symm.trans isFree
  · rw [pc, notified]
    by_cases mine : g = f
    · rw [mine, Function.update_self, Function.update_self]
      exact ⟨rfl, rfl⟩
    · rw [Function.update_of_ne mine, Function.update_of_ne mine]
      exact h.asleep g (((members g).1 inside).resolve_right mine)
  · rw [mutex]
    exact h.once.append (List.pairwise_singleton ..) (List.disjoint_singleton.2 fresh)
  · rw [members, not_or] at apart
    rw [pc, Function.update_of_ne apart.2] at suspended
    rw [notified, Function.update_of_ne apart.2, pc]
    exact (h.told g suspended apart.1).imp_right (notifying_elsewhere (silent g))
  · rw [pc] at tells
    obtain ⟨suspended, popped, untold⟩ := h.untold u g (elsewhere tells nofun).2
    have apart := apartOf g suspended
    rw [pc, notified, members, Function.update_of_ne apart, Function.update_of_ne apart]
    exact ⟨suspended, not_or.2 ⟨popped, apart⟩, untold⟩
  · rw [pc] at left right
    exact h.notifier u v g (elsewhere left nofun).2 (elsewhere right nofun).2
  · rw [pc]
    exact settled_update h.settled nofun
  · obtain ⟨next, isDue, inOrder⟩ := h.inOrder
    refine ⟨next, fun g => (isDue g).trans (due g).symm, ?_⟩
    rw [queued, returned, mutex, inOrder, List.append_assoc]

theorem Fair.freed (h : Fair s) (here : s.pc f = .holding) (alone : s.mutex.waiters = [])
    (pc : s'.pc = Function.update s.pc f .idle) (notified : s'.notified = s.notified)
    (mutex : s'.mutex = { locked := false, ownerFiberId := kNoOwner, waiters := [] }) (queued : s'.queued = s.queued)
    (returned : s'.returned = s.returned) : Fair s' := by
  have waiters : s'.mutex.waiters = s.mutex.waiters := by rw [mutex, alone]
  have awake : s.pc f ≠ .suspended := by rw [here]; nofun
  have silent : ∀ g, s.pc f ≠ .notifying g := fun g => by rw [here]; nofun
  have tells : Tells s' := h.tells.frame pc notified waiters silent (h.nobody_tells awake) nofun nofun
  have idle : s'.pc f = .idle := by rw [pc, Function.update_self]
  -- the owner was the fiber that frees it
  have nobody : ∀ g, ¬ s'.Owner g := fun g own => by
    have apart : g ≠ f := by
      rintro rfl
      rcases own with holds | isDue
      · cases idle.symm.trans holds
      · exact not_due_of_pc idle ⟨nofun, nofun⟩ isDue
    exact apart (h.owner_unique ((owner_elsewhere pc waiters apart).1 own) (.inl here))
  refine ⟨fun g own => absurd own (nobody g), fun locked => ?_, fun _ => ?_, fun g inside => ?_, ?_, tells.told, tells.untold,
    tells.notifier, ?_, ?_⟩
  · rw [mutex] at locked
    cases locked
  · rw [mutex]
    exact ⟨rfl, rfl⟩
  · rw [mutex] at inside
    cases inside
  · rw [waiters]
    exact h.once
  · rw [pc]
    exact settled_update h.settled nofun
  · obtain ⟨due, isDue, inOrder⟩ := h.inOrder
    refine ⟨due, fun g => ?_, by rw [queued, returned, waiters, inOrder]⟩
    rw [isDue]
    by_cases mine : g = f
    · rw [mine]
      exact iff_of_false (not_due_of_pc here ⟨nofun, nofun⟩) (not_due_of_pc idle ⟨nofun, nofun⟩)
    · rw [due_elsewhere pc waiters mine]

theorem Fair.handed {next : FiberId} {rest : List FiberId} (h : Fair s) (here : s.pc f = .holding)
    (locked : s.mutex.locked = true) (waiting : s.mutex.waiters = next :: rest)
    (pc : s'.pc = Function.update s.pc f (.notifying next)) (notified : s'.notified = s.notified)
    (mutex : s'.mutex = { s.mutex with ownerFiberId := next.id, waiters := rest }) (queued : s'.queued = s.queued)
    (returned : s'.returned = s.returned) : Fair s' := by
  obtain ⟨asleep, untoldNext⟩ := h.asleep next (waiting ▸ List.mem_cons_self)
  have once := h.once
  rw [waiting, List.nodup_cons] at once
  have awake : s.pc f ≠ .suspended := by rw [here]; nofun
  have silent : ∀ g, s.pc f ≠ .notifying g := fun g => by rw [here]; nofun
  have apart : next ≠ f := fun same => awake (same ▸ asleep)
  have noneDue : ∀ g, ¬ s.Due g := fun g isDue => by
    cases h.owner_unique (.inr isDue) (.inl here)
    exact not_due_of_pc here ⟨nofun, nofun⟩ isDue
  have members : ∀ g, g ∈ s.mutex.waiters ↔ g = next ∨ g ∈ rest := fun g => by rw [waiting, List.mem_cons]
  -- the front waiter becomes the owner while it is still asleep
  have due : ∀ g, s'.Due g ↔ g = next := fun g => by
    by_cases mine : g = f
    · have notifies : s'.pc g = .notifying next := by rw [pc, mine, Function.update_self]
      exact iff_of_false (not_due_of_pc notifies ⟨nofun, nofun⟩) fun same => apart (same.symm.trans mine)
    · simp only [State.Due, State.Waiting, pc, Function.update_of_ne mine, mutex]
      refine ⟨fun ⟨waits, popped⟩ => ?_, ?_⟩
      · by_contra other
        refine noneDue g ⟨waits, fun inside => ?_⟩
        exact ((members g).1 inside).elim other popped
      · rintro rfl
        exact ⟨.inl asleep, once.1⟩
  refine ⟨fun g own => ?_, fun _ => ⟨next, by rw [mutex]⟩, fun isFree => ?_, fun g inside => ?_, ?_, fun g suspended out => ?_,
    fun u g tells => ?_, fun u v g left right => ?_, ?_, ?_⟩
  · have isNext : g = next := by
      rcases own with holds | isDue
      · rw [pc] at holds
        obtain ⟨other, holds⟩ := elsewhere holds nofun
        exact absurd (h.owner_unique (.inl holds) (.inl here)) other
      · exact (due g).1 isDue
    rw [mutex, isNext]
    exact ⟨locked, rfl⟩
  · rw [mutex] at isFree
    cases locked.symm.trans isFree
  · rw [mutex] at inside
    obtain ⟨suspended, untold⟩ := h.asleep g ((members g).2 (.inr inside))
    have other : g ≠ f := fun same => awake (same ▸ suspended)
    rw [pc, notified, Function.update_of_ne other]
    exact ⟨suspended, untold⟩
  · rw [mutex]
    exact once.2
  · rw [pc] at suspended ⊢
    rw [notified]
    rw [mutex] at out
    have suspended := (elsewhere suspended nofun).2
    by_cases isNext : g = next
    · exact .inr ⟨f, by rw [isNext, Function.update_self]⟩
    · have popped : g ∉ s.mutex.waiters := fun inside => ((members g).1 inside).elim isNext out
      exact (h.told g suspended popped).imp_right (notifying_elsewhere (silent g))
  · rw [pc] at tells
    rw [pc, notified, mutex]
    by_cases mine : u = f
    · rw [mine, Function.update_self] at tells
      cases tells
      rw [Function.update_of_ne apart]
      exact ⟨asleep, once.1, untoldNext⟩
    · rw [Function.update_of_ne mine] at tells
      obtain ⟨suspended, popped, untold⟩ := h.untold u g tells
      have other : g ≠ f := fun same => awake (same ▸ suspended)
      rw [Function.update_of_ne other]
      exact ⟨suspended, fun inside => popped ((members g).2 (.inr inside)), untold⟩
  · -- nobody was telling the front waiter, which had not been popped
    have fresh : ∀ u, s.pc u ≠ .notifying next := fun u tells =>
      (h.untold u next tells).2.1 ((members next).2 (.inl rfl))
    rw [pc] at left right
    by_cases leftMine : u = f <;> by_cases rightMine : v = f
    · rw [leftMine, rightMine]
    · rw [leftMine, Function.update_self] at left
      cases left
      rw [Function.update_of_ne rightMine] at right
      exact absurd right (fresh v)
    · rw [rightMine, Function.update_self] at right
      cases right
      rw [Function.update_of_ne leftMine] at left
      exact absurd left (fresh u)
    · rw [Function.update_of_ne leftMine] at left
      rw [Function.update_of_ne rightMine] at right
      exact h.notifier u v g left right
  · rw [pc]
    exact settled_update h.settled nofun
  · obtain ⟨before, isDue, inOrder⟩ := h.inOrder
    have noDue : before = none := Option.eq_none_iff_forall_ne_some.2 fun g hg => noneDue g ((isDue g).1 hg)
    refine ⟨some next, fun g => ?_, ?_⟩
    · rw [due g, Option.some.injEq, eq_comm]
    · rw [queued, returned, mutex, inOrder, noDue, waiting, List.append_assoc, List.append_assoc]
      rfl

theorem Fair.notified {next : FiberId} (h : Fair s) (here : s.pc f = .notifying next)
    (pc : s'.pc = Function.update s.pc f .idle) (notified : s'.notified = Function.update s.notified next true)
    (mutex : s'.mutex = s.mutex) (queued : s'.queued = s.queued) (returned : s'.returned = s.returned) : Fair s' := by
  obtain ⟨asleep, popped, -⟩ := h.untold f next here
  have awake : s.pc f ≠ .suspended := by rw [here]; nofun
  have waiters : s'.mutex.waiters = s.mutex.waiters := by rw [mutex]
  have idle : s'.pc f = .idle := by rw [pc, Function.update_self]
  have due : ∀ g, s'.Due g ↔ s.Due g := fun g => by
    by_cases mine : g = f
    · rw [mine]
      exact iff_of_false (not_due_of_pc idle ⟨nofun, nofun⟩) (not_due_of_pc here ⟨nofun, nofun⟩)
    · exact due_elsewhere pc waiters mine
  refine ⟨fun g own => ?_, by rw [mutex]; exact h.owned, by rw [mutex]; exact h.free, fun g inside => ?_, ?_,
    fun g suspended out => ?_, fun u g tells => ?_, fun u v g left right => ?_, ?_, ?_⟩
  · have before : s.Owner g := by
      rcases own with holds | isDue
      · rw [pc] at holds
        exact .inl (elsewhere holds nofun).2
      · exact .inr ((due g).1 isDue)
    rw [mutex]
    exact h.owner g before
  · rw [waiters] at inside
    obtain ⟨suspended, untold⟩ := h.asleep g inside
    have other : g ≠ f := fun same => awake (same ▸ suspended)
    have notNext : g ≠ next := fun same => popped (same ▸ inside)
    rw [pc, notified, Function.update_of_ne other, Function.update_of_ne notNext]
    exact ⟨suspended, untold⟩
  · rw [waiters]
    exact h.once
  · rw [pc] at suspended ⊢
    rw [waiters] at out
    rw [notified]
    by_cases isNext : g = next
    · exact .inl (by rw [isNext, Function.update_self])
    · rw [Function.update_of_ne isNext]
      refine (h.told g (elsewhere suspended nofun).2 out).imp_right (notifying_elsewhere ?_)
      rw [here]
      exact fun same => isNext (Pc.notifying.inj same).symm
  · rw [pc] at tells
    obtain ⟨other, tells⟩ := elsewhere tells nofun
    obtain ⟨suspended, out, untold⟩ := h.untold u g tells
    have apart : g ≠ f := fun same => awake (same ▸ suspended)
    have notNext : g ≠ next := by
      rintro rfl
      exact other (h.notifier u f g tells here)
    rw [pc, notified, waiters, Function.update_of_ne apart, Function.update_of_ne notNext]
    exact ⟨suspended, out, untold⟩
  · rw [pc] at left right
    exact h.notifier u v g (elsewhere left nofun).2 (elsewhere right nofun).2
  · rw [pc]
    exact settled_update h.settled nofun
  · obtain ⟨next', isDue, inOrder⟩ := h.inOrder
    exact ⟨next', fun g => (isDue g).trans (due g).symm, by rw [queued, returned, mutex, inOrder]⟩

theorem Fair.woken (h : Fair s) (here : s.pc f = .suspended) (isTold : s.notified f = true) : Fair (s.setPc f .recheck) := by
  have out : f ∉ s.mutex.waiters := fun inside => by cases isTold.symm.trans (h.asleep f inside).2
  have silent : ∀ g, s.pc f ≠ .notifying g := fun g => by rw [here]; nofun
  have untold : ∀ u, s.pc u ≠ .notifying f := fun u tells => by cases isTold.symm.trans (h.untold u f tells).2.2
  have tells : Tells (s.setPc f .recheck) := h.tells.frame rfl rfl rfl silent untold nofun nofun
  have due : ∀ g, (s.setPc f .recheck).Due g ↔ s.Due g := fun g => by
    by_cases mine : g = f
    · subst mine
      simp only [State.Due, State.Waiting, State.setPc, Function.update_self, here, reduceCtorEq, or_true, true_or]
    · exact due_elsewhere rfl rfl mine
  refine ⟨fun g own => ?_, h.owned, h.free, asleep_update h.asleep out, h.once, tells.told, tells.untold, tells.notifier,
    settled_update h.settled nofun, ?_⟩
  · have before : s.Owner g := by
      rcases own with holds | isDue
      · exact .inl (elsewhere holds nofun).2
      · exact .inr ((due g).1 isDue)
    exact h.owner g before
  · obtain ⟨next, isDue, inOrder⟩ := h.inOrder
    exact ⟨next, fun g => (isDue g).trans (due g).symm, inOrder⟩

/-- A fiber that was woken is the one the owner field names. -/
theorem Fair.due_of_recheck (h : Fair s) (here : s.pc f = .recheck) : s.Due f :=
  ⟨.inr here, fun inside => by cases here.symm.trans (h.asleep f inside).1⟩

theorem Fair.owned_now (h : Fair s) (here : s.pc f = .recheck) (pc : s'.pc = Function.update s.pc f .holding)
    (notified : s'.notified = s.notified) (mutex : s'.mutex = s.mutex) (queued : s'.queued = s.queued)
    (returned : s'.returned = s.returned ++ [f]) : Fair s' := by
  have dueNow := h.due_of_recheck here
  have awake : s.pc f ≠ .suspended := by rw [here]; nofun
  have silent : ∀ g, s.pc f ≠ .notifying g := fun g => by rw [here]; nofun
  have waiters : s'.mutex.waiters = s.mutex.waiters := by rw [mutex]
  have holds : s'.pc f = .holding := by rw [pc, Function.update_self]
  have tells : Tells s' := h.tells.frame pc notified waiters silent (h.nobody_tells awake) nofun nofun
  refine ⟨fun g own => ?_, by rw [mutex]; exact h.owned, by rw [mutex]; exact h.free, ?_, ?_, tells.told, tells.untold,
    tells.notifier, ?_, ?_⟩
  · rw [mutex]
    by_cases mine : g = f
    · rw [mine]
      exact h.owner f (.inr dueNow)
    · exact h.owner g ((owner_elsewhere pc waiters mine).1 own)
  · rw [waiters, pc, notified]
    exact asleep_update h.asleep dueNow.2
  · rw [waiters]
    exact h.once
  · rw [pc]
    exact settled_update h.settled nofun
  · obtain ⟨next, isDue, inOrder⟩ := h.inOrder
    refine ⟨none, fun g => ?_, ?_⟩
    · refine ⟨nofun, fun isDue' => ?_⟩
      have other : g ≠ f := by
        rintro rfl
        exact not_due_of_pc holds ⟨nofun, nofun⟩ isDue'
      exact absurd (h.owner_unique (.inr ((due_elsewhere pc waiters other).1 isDue')) (.inr dueNow)) other
    · rw [queued, returned, mutex, inOrder, (isDue f).2 dueNow]
      simp

theorem Fair.move (h : Fair s) (move : Moves s s') : Fair s' := by
  cases move with
  | acquired f here isFree => exact h.acquired here isFree rfl rfl rfl rfl rfl
  | queued f here locked => exact h.queued here locked rfl rfl rfl rfl rfl
  | freed f here own alone => exact h.freed here alone rfl rfl rfl rfl rfl
  | handed f next rest here locked own waiting => exact h.handed here locked waiting rfl rfl rfl rfl rfl
  | notified f next here => exact h.notified here rfl rfl rfl rfl rfl
  | woken f here isTold => exact h.woken here isTold
  | owned f here own => exact h.owned_now here rfl rfl rfl rfl rfl
  | retried f here other => exact absurd (h.owner f (.inr (h.due_of_recheck here))).2 other
  | unchanged => exact h

end Moves

theorem fair_of_reach {s : State} (h : machine.Reach s) : Fair s :=
  h.invariant fair_init fun _ _ _ inv _ e => inv.move (step_moves e)

/-! ## The contract -/

theorem Fair.pending_eq {s : State} (h : Fair s) : ∃ due : Option FiberId,
    (∀ f, due = some f ↔ s.Due f) ∧ s.pending = due.toList ++ s.mutex.waiters := by
  obtain ⟨due, isDue, inOrder⟩ := h.inOrder
  refine ⟨due, isDue, ?_⟩
  rw [State.pending, inOrder, List.append_assoc, List.drop_left]

/-- The fibers still pending are those inside `lock` after queueing. -/
theorem Fair.pending_iff {s : State} (h : Fair s) (f : FiberId) : f ∈ s.pending ↔ s.Waiting f := by
  obtain ⟨due, isDue, eq⟩ := h.pending_eq
  rw [eq, List.mem_append, Option.mem_toList, isDue, State.Due]
  constructor
  · rintro (⟨waiting, -⟩ | queued)
    · exact waiting
    · exact .inl (h.asleep f queued).1
  · intro waiting
    by_cases queued : f ∈ s.mutex.waiters
    · exact .inr queued
    · exact .inl ⟨waiting, queued⟩

/-- A fiber gets the mutex as the first of those pending, or when none is. -/
theorem Fair.acquires {s s' : State} (h : Fair s) (move : Moves s s') {g : FiberId}
    (before : s.pc g ≠ .holding) (after : s'.pc g = .holding) :
    s.pending = [] ∨ s.pending.head? = some g ∧ s'.returned = s.returned ++ [g] := by
  obtain ⟨due, isDue, eq⟩ := h.pending_eq
  cases move with
  | acquired f here isFree =>
    left
    have noDue : due = none := Option.eq_none_iff_forall_ne_some.2 fun g hg => by
      simp [(h.owner g (.inr ((isDue g).1 hg))).1] at isFree
    rw [eq, noDue, (h.free isFree).2]
    rfl
  | owned f here own =>
    right
    have same : g = f := by
      by_contra apart
      exact before (by simpa [Function.update_of_ne apart] using after)
    have dueNow : s.Due f := ⟨.inr here, fun queued => by simp [(h.asleep f queued).1] at here⟩
    rw [eq, (isDue f).2 dueNow, same]
    exact ⟨rfl, rfl⟩
  | unchanged => exact absurd after before
  | woken f here | retried f here =>
    rw [State.setPc_pc] at after
    grind
  | _ => grind

/-- What `CoMutex` promises in a state reached by any interleaving. `suspended`
is about a fiber inside `SuspendCurrentUntilNotified`, `woken` and `queuesOnce`
about one that left it; `inOrder` and `noOvertaking` say that queued fibers
acquire first come, first served, ahead of any other `lock` or `tryLock`. -/
structure Contract (s : State) : Prop where
  exclusive : ∀ f g, s.pc f = .holding → s.pc g = .holding → f = g
  realOwner : s.mutex.locked = true ↔ ∃ f : FiberId, s.mutex.ownerFiberId = f.id
  waitersLocked : s.mutex.waiters ≠ [] → s.mutex.locked = true
  suspended : ∀ f, s.pc f = .suspended →
    s.mutex.waiters.count f = 1 ∨
      s.mutex.waiters.count f = 0 ∧ s.mutex.ownerFiberId = f.id ∧
        (s.notified f = true ∨ ∃ u, s.pc u = .notifying f)
  woken : ∀ f, s.pc f = .recheck → s.mutex.ownerFiberId = f.id
  queuesOnce : ∀ f, s.pc f ≠ .retry
  pendingWaits : ∀ f, f ∈ s.pending ↔ s.Waiting f
  inOrder : s.queued = s.returned ++ s.pending
  noOvertaking : ∀ l s' g, step s l = some s' → s.pc g ≠ .holding → s'.pc g = .holding →
    s.pending = [] ∨ s.pending.head? = some g ∧ s'.returned = s.returned ++ [g]

/-- **Mutual exclusion and fairness**, for any number of fibers and every
interleaving. -/
theorem fair_exclusion {s : State} (h : machine.Reach s) : Contract s := by
  have fair := fair_of_reach h
  have dueOf : ∀ f, s.Waiting f → f ∉ s.mutex.waiters → s.mutex.ownerFiberId = f.id := fun f waiting popped =>
    (fair.owner f (.inr ⟨waiting, popped⟩)).2
  constructor
  case exclusive =>
    intro f g hf hg
    exact fair.owner_unique (.inl hf) (.inl hg)
  case realOwner =>
    refine ⟨fair.owned, fun ⟨f, own⟩ => ?_⟩
    by_contra isFree
    have noOwner := (fair.free (by simpa using isFree)).1
    exact f.real (own.symm.trans noOwner)
  case waitersLocked =>
    intro some
    by_contra isFree
    exact some (fair.free (by simpa using isFree)).2
  case suspended =>
    intro f asleep
    by_cases queued : f ∈ s.mutex.waiters
    · exact .inl (List.count_eq_one_of_mem fair.once queued)
    · exact .inr ⟨List.count_eq_zero.2 queued, dueOf f (.inl asleep) queued, fair.told f asleep queued⟩
  case woken =>
    intro f here
    exact dueOf f (.inr here) fun queued => by simp [(fair.asleep f queued).1] at here
  case queuesOnce => exact fair.settled
  case pendingWaits => exact fair.pending_iff
  case inOrder =>
    obtain ⟨due, -, inOrder⟩ := fair.inOrder
    rw [State.pending, inOrder, List.append_assoc, List.drop_left]
  case noOvertaking =>
    intro l s' g e
    exact fair.acquires (step_moves e)

/-- Two contenders: fiber 1 queues behind 0, is handed the mutex, runs before
the notification (and yields again), then after it. -/
def handover : List Label :=
  let zero : FiberId := ⟨0, by decide⟩
  let one : FiberId := ⟨1, by decide⟩
  [.lock zero, .lock one, .unlock zero, .check one, .notify zero, .check one, .recheck one]

theorem fair_exclusion_handover :
    ∃ s, machine.exec machine.init handover = some s ∧ s.pc ⟨1, by decide⟩ = .holding ∧ Contract s :=
  ⟨_, rfl, rfl, fair_exclusion (Machine.reach_of_exec (rfl : machine.exec machine.init handover = some _))⟩

end Mycoroutine.CoMutex
