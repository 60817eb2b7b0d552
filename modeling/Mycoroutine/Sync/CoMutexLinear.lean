import Mycoroutine.Interleave.Linearize
import Mycoroutine.Sync.CoMutexFair

/-!
# A `CoMutex` is a lock

To its clients a `CoMutex` is a lock that has an owner or none, and whose `lock`
waits for it to have none. `unlock` hands the mutex over while the next owner is
still suspended, so the linearization point of a `lock` that queued is in the
section of another fiber's `unlock`, right behind the point of that `unlock`.

A `lock` by the fiber that holds the mutex is no step: it would wait for itself, and
returns neither here nor from a lock.
-/

namespace Mycoroutine.CoMutex
set_option autoImplicit false
open Interleave

inductive Op where
  | lock (f : FiberId)
  | tryLock (f : FiberId)
  | unlock (f : FiberId)

/-- What a call returns; `tried` is the result of `tryLock`. -/
inductive Result where
  | done
  | tried (ok : Bool)

/-- A lock with its owner's id. -/
def lock : Linearize.Object Op Result (Option UInt64) where
  init := none
  apply owner
    | .lock f => if owner = none then some (.done, some f.id) else none
    | .tryLock f => if owner = none then some (.tried true, some f.id) else some (.tried false, owner)
    | .unlock f => if owner = some f.id then some (.done, none) else none

/-- Where a fiber stands in the eyes of the lock, given the id in the owner field. -/
def Pc.standing (owner : UInt64) (f : FiberId) : Pc → Linearize.Standing Op Result
  | .idle | .holding => .fresh
  | .suspended | .recheck | .retry => if owner = f.id then .decided .done else .pending (.lock f)
  | .notifying _ => .decided .done

/-- A step is seen when a call begins or returns. -/
def view : Linearize.View State Label FiberId Op Result (Option UInt64) where
  object s := if s.mutex.locked then some s.mutex.ownerFiberId else none
  standing s f := (s.pc f).standing s.mutex.ownerFiberId f
  visible s l s' :=
    let returned (f : FiberId) : List (Linearize.Event FiberId Op Result) :=
      if s'.pc f = .holding then [.respond f .done] else []
    match l with
    | .lock f => .invoke f (.lock f) :: returned f
    | .tryLock f => [.invoke f (.tryLock f), .respond f (.tried (!s.mutex.locked))]
    | .unlock f => .invoke f (.unlock f) :: if s'.pc f = .idle then [.respond f .done] else []
    | .notify f => [.respond f .done]
    | .check _ => []
    | .recheck f | .retry f => returned f

/-- The owner field names a fiber that holds the mutex or has been handed it. -/
def State.Held (s : State) : Prop := s.mutex.locked = true → ∃ f, s.Owner f ∧ s.mutex.ownerFiberId = f.id

section Steps

variable {s s' : State} {f g : FiberId} {p : Pc}

theorem held_move (fair : Fair s) (held : s.Held) (move : Moves s s') : s'.Held := by
  intro locked
  -- an owner that stays where it is
  have stays {q : Pc} (f : FiberId) (waiters : s'.mutex.waiters = s.mutex.waiters) (pc : s'.pc = Function.update s.pc f q)
      (same : s'.mutex.locked = s.mutex.locked) (field : s'.mutex.ownerFiberId = s.mutex.ownerFiberId)
      (notOwner : ¬ s.Owner f) : ∃ g, s'.Owner g ∧ s'.mutex.ownerFiberId = g.id := by
    obtain ⟨g, owner, id⟩ := held (same ▸ locked)
    have apart : g ≠ f := fun is => notOwner (is ▸ owner)
    exact ⟨g, (owner_elsewhere pc waiters apart).2 owner, field.trans id⟩
  cases move with
  | acquired f here free => exact ⟨f, .inl (Function.update_self ..), rfl⟩
  | queued f here isLocked =>
    obtain ⟨g, owner, id⟩ := held isLocked
    have awake : ¬ s.Owner f := by
      rintro (holds | due)
      · rcases here with here | here <;> cases here.symm.trans holds
      · rcases here with here | here
        · exact not_due_of_pc here (by simp) due
        · exact not_due_of_pc here (by simp) due
    have apart : g ≠ f := fun is => awake (is ▸ owner)
    refine ⟨g, ?_, id⟩
    rcases owner with holds | ⟨waits, out⟩
    · exact .inl ((Function.update_of_ne apart ..).trans holds)
    · refine .inr ⟨?_, fun mem => ?_⟩
      · simpa only [State.Waiting, Function.update_of_ne apart] using waits
      · rcases List.mem_append.1 mem with old | new
        · exact out old
        · exact apart (List.mem_singleton.1 new)
  | freed f here owner alone => cases locked
  | handed f next rest here isLocked owner waiting =>
    have asleep := (fair.asleep next (waiting ▸ List.mem_cons_self)).1
    have once := fair.once
    rw [waiting, List.nodup_cons] at once
    have apart : next ≠ f := by
      rintro rfl
      cases here.symm.trans asleep
    exact ⟨next, .inr ⟨.inl ((Function.update_of_ne apart ..).trans asleep), once.1⟩, rfl⟩
  | notified f next here =>
    refine stays f rfl rfl rfl rfl ?_
    rintro (holds | due)
    · cases here.symm.trans holds
    · exact not_due_of_pc here (by simp) due
  | woken f here told =>
    obtain ⟨g, owner, id⟩ := held locked
    refine ⟨g, ?_, id⟩
    by_cases mine : g = f
    · subst mine
      rcases owner with holds | ⟨-, out⟩
      · cases here.symm.trans holds
      · exact .inr ⟨.inr (Function.update_self ..), out⟩
    · exact (owner_elsewhere (State.setPc_pc s f .recheck) rfl mine).2 owner
  | owned f here owner => exact ⟨f, .inl (Function.update_self ..), owner⟩
  | retried f here other => exact absurd (fair.owner f (.inr (fair.due_of_recheck here))).2 other
  | unchanged => exact held locked

theorem held_of_reach (h : machine.Reach s) : s.Held :=
  h.invariant_with Fair (fun _ => fair_of_reach) (fun locked => by cases locked)
    fun _ _ _ fair held _ e _ => held_move fair held (step_moves e)

/-- The owner field does not name a fiber that neither holds the mutex nor has been handed it. -/
theorem ne_owner (fair : Fair s) (held : s.Held) (notOwner : ¬ s.Owner f) : s.mutex.ownerFiberId ≠ f.id := by
  cases locked : s.mutex.locked with
  | true =>
    obtain ⟨g, owner, id⟩ := held locked
    intro same
    have is : g = f := FiberId.eq_of_id (id.symm.trans same)
    exact notOwner (is ▸ owner)
  | false =>
    rw [(fair.free locked).1]
    exact f.real.symm

/-- One fiber moves, and the owner field stays. -/
theorem standing_update {standing : Linearize.Standing Op Result} (pc : s'.pc = Function.update s.pc f p)
    (field : s'.mutex.ownerFiberId = s.mutex.ownerFiberId) (stands : p.standing s.mutex.ownerFiberId f = standing) :
    view.standing s' = Function.update (view.standing s) f standing := by
  funext g
  simp only [view, pc, field, ← stands]
  by_cases mine : g = f
  · rw [mine, Function.update_self, Function.update_self]
  · rw [Function.update_of_ne mine, Function.update_of_ne mine]

theorem standing_same (pc : s'.pc = Function.update s.pc f p) (field : s'.mutex.ownerFiberId = s.mutex.ownerFiberId)
    (same : p.standing s.mutex.ownerFiberId f = (s.pc f).standing s.mutex.ownerFiberId f) : view.standing s' = view.standing s := by
  rw [standing_update pc field same]
  exact Function.update_eq_self f (view.standing s)

/-- A fiber that the owner field does not name, before or after, sees no change of it. -/
theorem standing_of_ne {owner owner' : UInt64} (before : owner ≠ f.id) (after : owner' ≠ f.id) :
    p.standing owner' f = p.standing owner f := by
  cases p <;> simp only [Pc.standing, if_neg before, if_neg after]

/-- `f` moves while the owner field goes from nobody, or to nobody, or between `f` and nobody. -/
theorem standing_passes {standing : Linearize.Standing Op Result} (pc : s'.pc = Function.update s.pc f p)
    (before : s.mutex.ownerFiberId = kNoOwner ∨ s.mutex.ownerFiberId = f.id)
    (after : s'.mutex.ownerFiberId = kNoOwner ∨ s'.mutex.ownerFiberId = f.id)
    (stands : p.standing s'.mutex.ownerFiberId f = standing) :
    view.standing s' = Function.update (view.standing s) f standing := by
  funext g
  simp only [view, pc, ← stands]
  by_cases mine : g = f
  · rw [mine, Function.update_self, Function.update_self]
  · have other {owner : UInt64} (who : owner = kNoOwner ∨ owner = f.id) : owner ≠ g.id := by
      rintro rfl
      rcases who with none | own
      · exact g.real none
      · exact mine (FiberId.eq_of_id own)
    rw [Function.update_of_ne mine, Function.update_of_ne mine]
    exact standing_of_ne (other before) (other after)

theorem update_same {standing : Linearize.Standing Op Result} (same : view.standing s f = standing) :
    Function.update (view.standing s) f standing = view.standing s := by
  rw [← same, Function.update_eq_self]

/-- The first section of `lock`: of a call that begins, or of one that waited. -/
theorem follows_lock (fair : Fair s) (held : s.Held) (here : s.pc f = .idle) :
    view.Follows lock s (.lock f) (s.enterLock f) := by
  have fresh : view.standing s f = .fresh := by simp only [view, here, Pc.standing]
  cases locked : s.mutex.locked with
  | false =>
    simp only [State.enterLock, lockSection, locked, Bool.not_false, if_true]
    refine .called (o := .lock f) (r := .done) fresh ?_ ?_ ?_
    · simp [lock, view, locked]
    · exact (standing_passes rfl (.inl (fair.free locked).1) (.inr rfl) rfl).trans (update_same fresh)
    · simp [view]
  | true =>
    have notOwner : ¬ s.Owner f := by
      rintro (holds | due)
      · cases here.symm.trans holds
      · exact not_due_of_pc here (by simp) due
    simp only [State.enterLock, lockSection, locked, Bool.not_true, Bool.false_eq_true, if_false]
    refine .begins (o := .lock f) fresh (by simp [view, locked]) (standing_update rfl rfl ?_) (by simp [view])
    simp only [Pc.standing, if_neg (ne_owner fair held notOwner)]

theorem follows_retry (fair : Fair s) (here : s.pc f = .retry) : view.Follows lock s (.retry f) (s.enterLock f) :=
  absurd here (fair.settled f)

/-- `tryLock` takes the mutex if it is free, and changes nothing if it is not. -/
theorem step_tryLock (e : step s (.tryLock f) = some s') : (s.pc f = .idle ∨ s.pc f = .holding) ∧
    (s.mutex.locked = true ∧ s' = s ∨ s.mutex.locked = false ∧
      s' = { s with mutex := { s.mutex with locked := true, ownerFiberId := f.id }, pc := Function.update s.pc f .holding }) := by
  cases locked : s.mutex.locked with
  | true =>
    simp only [step, tryLockSection, locked, if_true] at e
    split at e <;> cases e
    · exact ⟨.inl ‹_›, .inl ⟨rfl, rfl⟩⟩
    · exact ⟨.inr ‹_›, .inl ⟨rfl, rfl⟩⟩
  | false =>
    simp only [step, tryLockSection, locked, Bool.false_eq_true, if_false] at e
    split at e <;> cases e
    · exact ⟨.inl ‹_›, .inr ⟨rfl, rfl⟩⟩
    · exact ⟨.inr ‹_›, .inr ⟨rfl, rfl⟩⟩

theorem follows_tryLock (fair : Fair s) (e : step s (.tryLock f) = some s') :
    view.Follows lock s (.tryLock f) s' := by
  obtain ⟨here, outcome⟩ := step_tryLock e
  have fresh : view.standing s f = .fresh := by
    rcases here with here | here <;> simp only [view, here, Pc.standing]
  rcases outcome with ⟨locked, same⟩ | ⟨locked, same⟩
  · subst same
    exact .called (o := .tryLock f) (r := .tried false) fresh (by simp [lock, view, locked]) rfl (by simp [view, locked])
  · subst same
    refine .called (o := .tryLock f) (r := .tried true) fresh (by simp [lock, view, locked]) ?_ (by simp [view, locked])
    exact (standing_passes rfl (.inl (fair.free locked).1) (.inr rfl) rfl).trans (update_same fresh)

/-- `unlock` makes the fiber in front the owner: that one's `lock` is decided too. -/
theorem standing_handed {next : FiberId} (pc : s'.pc = Function.update s.pc f (.notifying next))
    (field : s'.mutex.ownerFiberId = next.id) (asleep : s.pc next = .suspended) (apart : next ≠ f)
    (owner : s.mutex.ownerFiberId = f.id) : view.standing s' =
      Function.update (Function.update (Function.update (view.standing s) f (.pending (.unlock f))) f
        (.decided .done)) next (.decided .done) := by
  funext g
  simp only [view, pc, field]
  by_cases isNext : g = next
  · subst isNext
    simp only [Function.update_self, Function.update_of_ne apart, asleep, Pc.standing, if_true]
  · rw [Function.update_of_ne isNext, Function.update_idem]
    by_cases mine : g = f
    · subst mine
      simp only [Function.update_self, Pc.standing]
    · have other : next.id ≠ g.id := fun same => isNext (FiberId.eq_of_id same).symm
      have other' : s.mutex.ownerFiberId ≠ g.id := fun same => mine (FiberId.eq_of_id (owner.symm.trans same)).symm
      rw [Function.update_of_ne mine, Function.update_of_ne mine]
      exact standing_of_ne other' other

/-- `unlock` frees the mutex, or hands it to the fiber in front: two points in one section. -/
theorem follows_unlock (fair : Fair s) (e : step s (.unlock f) = some s') :
    view.Follows lock s (.unlock f) s' := by
  simp only [step] at e
  split at e
  · rename_i here
    have fresh : view.standing s f = .fresh := by simp only [view, here, Pc.standing]
    obtain ⟨locked, owner⟩ := fair.owner f (.inl here)
    cases queue : s.mutex.waiters with
    | nil =>
      simp only [unlockSection, locked, owner, queue, BEq.rfl, Bool.and_self, if_true, popWaiterFront_nil,
        Option.some.injEq] at e
      subst e
      refine .called (o := .unlock f) (r := .done) fresh (by simp [lock, view, locked, owner]) ?_ (by simp [view])
      have passes : view.standing { s with mutex := {}, pc := Function.update s.pc f .idle } =
          Function.update (view.standing s) f .fresh := standing_passes rfl (.inr owner) (.inl rfl) rfl
      exact passes.trans (update_same fresh)
    | cons next rest =>
      simp only [unlockSection, locked, owner, queue, BEq.rfl, Bool.and_self, if_true, popWaiterFront_cons,
        Option.some.injEq] at e
      subst e
      have asleep := (fair.asleep next (queue ▸ List.mem_cons_self)).1
      have apart : next ≠ f := by
        rintro rfl
        cases here.symm.trans asleep
      have ids : next.id ≠ f.id := fun same => apart (FiberId.eq_of_id same)
      have waits : view.standing s next = .pending (.lock next) := by
        simp only [view, asleep, Pc.standing, owner, if_neg ids.symm]
      intro history
      refine ⟨[.invoke f (.unlock f)] ++ ([.point f] ++ [.point next]), ?_⟩
      have freed : lock.apply (view.object s) (.unlock f) = some (.done, none) := by simp [lock, view, locked, owner]
      have taken : lock.apply none (.lock next) = some (.done, some next.id) := by simp [lock]
      have still : Function.update (Function.update (view.standing s) f (.pending (.unlock f))) f
          (.decided .done) next = .pending (.lock next) := by
        rw [Function.update_of_ne apart, Function.update_of_ne apart, waits]
      refine (Machine.exec_trans (Linearize.invokes fresh)
        (Machine.exec_trans (Linearize.decides (Function.update_self ..) freed) (Linearize.decides still taken))).trans ?_
      have standing : view.standing { s with
            mutex := { locked := true, ownerFiberId := next.id, waiters := rest }
            pc := Function.update s.pc f (.notifying next) } =
          Function.update (Function.update (Function.update (view.standing s) f (.pending (.unlock f))) f
            (.decided .done)) next (.decided .done) :=
        standing_handed rfl rfl asleep apart owner
      rw [standing]
      simp [view]
  · cases e

theorem follows_recheck (fair : Fair s) (e : step s (.recheck f) = some s') : view.Follows lock s (.recheck f) s' := by
  simp only [step, wokenSection, beq_iff_eq] at e
  split at e
  · rename_i here
    have owner := (fair.owner f (.inr (fair.due_of_recheck here))).2
    rw [if_pos owner] at e
    cases e
    refine .returns (p := f) (r := .done) ?_ rfl (standing_update rfl rfl rfl) (by simp [view])
    simp only [view, here, Pc.standing, owner, if_true]
  · cases e

/-- Every step of a `CoMutex` is one of the lock's clients. -/
theorem follows_step {l : Label} (fair : Fair s) (held : s.Held) (e : step s l = some s') :
    view.Follows lock s l s' := by
  cases l with
  | lock f =>
    simp only [step] at e
    split at e <;> cases e
    exact follows_lock fair held ‹_›
  | tryLock f => exact follows_tryLock fair e
  | unlock f => exact follows_unlock fair e
  | notify f =>
    simp only [step] at e
    split at e <;> cases e
    rename_i next here
    exact .returns (p := f) (r := .done) (by simp only [view, here, Pc.standing]) rfl
      (standing_update rfl rfl rfl) rfl
  | check f =>
    simp only [step] at e
    split at e <;> cases e
    rename_i here
    split
    · exact .stays rfl (standing_same rfl rfl (by rw [here]; rfl)) rfl
    · exact .stays rfl rfl rfl
  | recheck f => exact follows_recheck fair e
  | retry f =>
    simp only [step] at e
    split at e <;> cases e
    exact follows_retry fair ‹_›

end Steps

/-- **Main theorem.** Whatever the interleaving, and however a mutex is handed over,
what `lock`, `tryLock` and `unlock` return is what a lock returns to the same calls made
one after the other, in an order that respects which call had returned before which
began. -/
theorem lock_linearizable (s : State × List (Linearize.Event FiberId Op Result))
    (h : (machine.watched view.visible).Reach s) :
    Linearize.WellFormed (Linearize.number s.2) ∧ Linearize.Linearizable lock (Linearize.number s.2) :=
  Linearize.linearizable_of_follows ⟨rfl, rfl⟩
    (fun _ _ _ reach e => follows_step (fair_of_reach reach) (held_of_reach reach) e) h

/-- Fiber 1 queues behind 0 and is handed the mutex while it is suspended. -/
theorem lock_linearizable_handover :
    ∃ s, (machine.watched view.visible).exec (machine.watched view.visible).init handover = some s ∧
      s.1.pc ⟨1, by decide⟩ = .holding ∧
      Linearize.WellFormed (Linearize.number s.2) ∧ Linearize.Linearizable lock (Linearize.number s.2) := by
  refine ⟨_, rfl, rfl, ?_⟩
  exact lock_linearizable _ (Machine.reach_of_exec
    (rfl : (machine.watched view.visible).exec (machine.watched view.visible).init handover = some _))

end Mycoroutine.CoMutex
