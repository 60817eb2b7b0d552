import Mycoroutine.Sync.WaitGroup
import Mathlib.Data.List.Nodup
import Mathlib.Data.List.Count

/-!
# `WaitGroup` wakes everyone at zero

A waiter is queued, or in the `to_wake` of one `add` that has not notified it
yet, or notified. The invariant keeps the three apart for the waiter of every
suspended fiber, also when the group is used again and the waiter queued again
while an earlier notification of it is still to be scheduled.
-/

namespace Mycoroutine.WaitGroup
set_option autoImplicit false
open Interleave

variable {φ : Type*} [DecidableEq φ]

/-- Popped by the fiber's `add`, with the store of `NotifyWaiter` still to come. -/
def Pc.toStore : Pc → List Nat
  | .notifying toWake | .scheduling _ toWake => toWake
  | .idle | .suspended _ | .retry _ => []

/-- Told, with the `schedule` of `NotifyWaiter` still to come. -/
def Pc.toSchedule : Pc → List Nat
  | .scheduling waiter _ => [waiter]
  | .idle | .suspended _ | .retry _ | .notifying _ => []

@[simp] theorem Pc.toStore_notify (toWake : List Nat) : (Pc.notify toWake).toStore = toWake := by
  cases toWake <;> rfl

@[simp] theorem Pc.toSchedule_notify (toWake : List Nat) : (Pc.notify toWake).toSchedule = [] := by
  cases toWake <;> rfl

@[simp] theorem Pc.notify_ne_suspended (toWake : List Nat) (waiter : Nat) : Pc.notify toWake ≠ .suspended waiter := by
  cases toWake <;> exact nofun

@[simp] theorem Pc.notify_ne_retry (toWake : List Nat) (waiter : Nat) : Pc.notify toWake ≠ .retry waiter := by
  cases toWake <;> exact nofun

/-- What one fiber did, of a history of all. -/
def doneBy (f : φ) (history : List (φ × Nat)) : List Nat := (history.filter (·.1 = f)).map (·.2)

theorem doneBy_self (f : φ) (history : List (φ × Nat)) (ws : List Nat) :
    doneBy f (history ++ ws.map (f, ·)) = doneBy f history ++ ws := by
  have kept : (ws.map (f, ·)).filter (·.1 = f) = ws.map (f, ·) := List.filter_eq_self.2 fun p mem => by
    obtain ⟨w, -, rfl⟩ := List.mem_map.1 mem
    simp
  rw [doneBy, List.filter_append, kept, List.map_append, List.map_map]
  simp [doneBy, Function.comp_def]

theorem doneBy_other {f g : φ} (other : g ≠ f) (history : List (φ × Nat)) (ws : List Nat) :
    doneBy g (history ++ ws.map (f, ·)) = doneBy g history := by
  have none' : (ws.map (f, ·)).filter (·.1 = g) = [] := List.filter_eq_nil_iff.2 fun p mem => by
    obtain ⟨w, -, rfl⟩ := List.mem_map.1 mem
    simp [other.symm]
  rw [doneBy, List.filter_append, none', List.append_nil, doneBy]

/-- An `add` popped the waiter and has not told it. -/
def State.Owed (s : State φ) (w : Nat) : Prop := ∃ g, w ∈ (s.pc g).toStore

structure Wakes (s : State φ) : Prop where
  counts : 0 ≤ s.group.count
  positive : s.group.waiters ≠ [] → 0 < s.group.count
  once : s.group.waiters.Nodup
  made : ∀ f w, s.pc f = .suspended w ∨ s.pc f = .retry w → w < s.created ∧ s.fiber w = some f
  asleep : ∀ w, w ∈ s.group.waiters ∨ s.Owed w → s.notified w = false ∧ ∃ f, s.pc f = .suspended w
  apart : ∀ w, s.Owed w → w ∉ s.group.waiters
  single : ∀ g, (s.pc g).toStore.Nodup
  notifier : ∀ g g' w, w ∈ (s.pc g).toStore → w ∈ (s.pc g').toStore → g = g'
  told : ∀ f w, s.pc f = .suspended w → w ∈ s.group.waiters ∨ s.Owed w ∨ s.notified w = true

/-- Every pop is followed by its store and its `schedule`, in order. -/
structure Notifies (s : State φ) : Prop where
  stores : ∀ f, doneBy f s.popped = doneBy f s.told ++ (s.pc f).toStore
  schedules : ∀ f, doneBy f s.told = doneBy f s.sent ++ (s.pc f).toSchedule
  delivered : ∀ w, s.notified w = true → ∃ g, (g, w) ∈ s.told

section Steps

variable {s s' : State φ} {f : φ} {w : Nat}

theorem wakes_init : Wakes (machine φ).init := by
  constructor <;> simp [machine, State.Owed, Pc.toStore]

theorem notifies_init : Notifies (machine φ).init := by
  constructor <;> simp [machine, Pc.toStore, Pc.toSchedule, doneBy]

/-- The waiters a step leaves to be told when one fiber moves. -/
theorem owed_update {pc : φ → Pc} {p : Pc} (same : p.toStore = (pc f).toStore) (g : φ) :
    (Function.update pc f p g).toStore = (pc g).toStore := by
  by_cases mine : g = f
  · rw [mine, Function.update_self, same]
  · rw [Function.update_of_ne mine]

/-- A fiber that is in no suspension, or was told, goes on. -/
theorem Wakes.turn {p : Pc} (h : Wakes s) (same : p.toStore = (s.pc f).toStore)
    (leaves : ∀ w, s.pc f = .suspended w → s.notified w = true) (awake : ∀ w, p ≠ .suspended w)
    (keeps : ∀ w, p = .retry w → s.pc f = .suspended w) : Wakes (s.setPc f p) := by
  have owed : ∀ w, (s.setPc f p).Owed w ↔ s.Owed w := fun w => by
    simp only [State.Owed, State.setPc, owed_update same]
  have suspended : ∀ g w, Function.update s.pc f p g = .suspended w → g ≠ f ∧ s.pc g = .suspended w := by
    intro g w here
    by_cases mine : g = f
    · rw [mine, Function.update_self] at here
      exact absurd here (awake w)
    · exact ⟨mine, by rwa [Function.update_of_ne mine] at here⟩
  constructor
  case counts => exact h.counts
  case positive => exact h.positive
  case once => exact h.once
  case made =>
    intro g w here
    by_cases mine : g = f
    · simp only [State.setPc, mine, Function.update_self] at here
      rcases here with here | here
      · exact absurd here (awake w)
      · exact mine ▸ h.made f w (.inl (keeps w here))
    · simp only [State.setPc, Function.update_of_ne mine] at here
      exact h.made g w here
  case asleep =>
    intro w waits
    obtain ⟨untold, g, here⟩ := h.asleep w (waits.imp_right (owed w).1)
    have mine : g ≠ f := by
      rintro rfl
      rw [leaves w here] at untold
      cases untold
    exact ⟨untold, g, by simpa only [State.setPc, Function.update_of_ne mine] using here⟩
  case apart => exact fun w isOwed => h.apart w ((owed w).1 isOwed)
  case single =>
    intro g
    simpa only [State.setPc, owed_update same] using h.single g
  case notifier =>
    intro g g' w
    simpa only [State.setPc, owed_update same] using h.notifier g g' w
  case told =>
    intro g w here
    exact (h.told g w (suspended g w here).2).imp_right (Or.imp_left (owed w).2)

/-- A fiber queues its waiter. -/
theorem Wakes.queue (h : Wakes s) (mine : s.pc f = .idle ∨ s.pc f = .retry w) (counts : s.group.count ≠ 0)
    {fiber : Nat → Option φ} {created : Nat} (named : fiber w = some f) (fits : w < created)
    (unnamed : ∀ g, g ≠ f → s.pc g ≠ .suspended w ∧ s.pc g ≠ .retry w)
    (kept : ∀ v g, v ≠ w → v < s.created → s.fiber v = some g → v < created ∧ fiber v = some g) :
    Wakes { s with group := { s.group with waiters := s.group.waiters ++ [w] }, fiber, created,
                   notified := Function.update s.notified w false,
                   pc := Function.update s.pc f (.suspended w) } := by
  have fresh : ∀ g, s.pc g ≠ .suspended w := by
    intro g here
    by_cases own : g = f
    · rcases mine with idle | retry
      · cases idle.symm.trans (own ▸ here)
      · cases retry.symm.trans (own ▸ here)
    · exact (unnamed g own).1 here
  have unqueued : w ∉ s.group.waiters ∧ ¬ s.Owed w :=
    ⟨fun queued => (h.asleep w (.inl queued)).2.elim fresh, fun owed => (h.asleep w (.inr owed)).2.elim fresh⟩
  have same : (Pc.suspended w).toStore = (s.pc f).toStore := by rcases mine with pc | pc <;> rw [pc] <;> rfl
  have owed : ∀ v, (∃ g, v ∈ (Function.update s.pc f (.suspended w) g).toStore) ↔ s.Owed v := fun v => by
    simp only [State.Owed, owed_update same]
  constructor
  case counts => exact h.counts
  case positive => 
    have least : 0 ≤ s.group.count := h.counts
    exact fun _ => Int.lt_iff_le_and_ne.2 ⟨least, counts.symm⟩
  case once => exact (List.perm_append_singleton w _).nodup_iff.2 (List.nodup_cons.2 ⟨unqueued.1, h.once⟩)
  case made =>
    intro g v here
    by_cases own : g = f
    · simp only [own, Function.update_self, Pc.suspended.injEq, reduceCtorEq, or_false] at here
      subst here
      exact ⟨fits, own ▸ named⟩
    · simp only [Function.update_of_ne own] at here
      have other : v ≠ w := by
        rintro rfl
        exact here.elim (unnamed g own).1 (unnamed g own).2
      obtain ⟨below, fiber⟩ := h.made g v here
      exact kept v g other below fiber
  case asleep =>
    intro v waits
    by_cases new : v = w
    · exact ⟨by simp [new], f, by simp [new]⟩
    · have before : v ∈ s.group.waiters ∨ s.Owed v := by
        rcases waits with queued | isOwed
        · exact .inl (by simpa [new] using queued)
        · exact .inr ((owed v).1 isOwed)
      obtain ⟨untold, g, here⟩ := h.asleep v before
      have other : g ≠ f := by
        rintro rfl
        rcases mine with pc | pc <;> cases pc.symm.trans here
      exact ⟨by simpa only [Function.update_of_ne new] using untold, g,
        by simpa only [Function.update_of_ne other] using here⟩
  case apart =>
    intro v isOwed
    have before := (owed v).1 isOwed
    have other : v ≠ w := fun new => unqueued.2 (new ▸ before)
    simpa [other] using h.apart v before
  case single =>
    intro g
    simpa only [owed_update same] using h.single g
  case notifier =>
    intro g g' v
    simpa only [owed_update same] using h.notifier g g' v
  case told =>
    intro g v here
    by_cases own : g = f
    · simp only [own, Function.update_self, Pc.suspended.injEq] at here
      exact .inl (by simp [here])
    · simp only [Function.update_of_ne own] at here
      have other : v ≠ w := fun new => fresh g (new ▸ here)
      rcases h.told g v here with queued | isOwed | isTold
      · exact .inl (List.mem_append_left _ queued)
      · exact .inr (.inl ((owed v).2 isOwed))
      · exact .inr (.inr (by simpa only [Function.update_of_ne other] using isTold))

/-- An `add` that reaches zero pops every waiter. -/
theorem Wakes.zero (h : Wakes s) (here : s.pc f = .idle) (popped : List (φ × Nat)) :
    Wakes { s with group := { count := 0, waiters := [] }, popped,
                   pc := Function.update s.pc f (.notify s.group.waiters) } := by
  have away : ∀ w, s.pc f ≠ .suspended w ∧ s.pc f ≠ .retry w := by simp [here]
  have nothing : (s.pc f).toStore = [] := by rw [here]; rfl
  have owed : ∀ v g, v ∈ (Function.update s.pc f (.notify s.group.waiters) g).toStore ↔
      g = f ∧ v ∈ s.group.waiters ∨ g ≠ f ∧ v ∈ (s.pc g).toStore := fun v g => by
    by_cases mine : g = f
    · simp [mine]
    · simp [mine]
  have suspended : ∀ g v, s.pc g = .suspended v → Function.update s.pc f (.notify s.group.waiters) g = .suspended v :=
    fun g v pc => by
      have mine : g ≠ f := fun same => (away v).1 (same ▸ pc)
      rw [Function.update_of_ne mine, pc]
  constructor
  case counts => exact Int.le_refl 0
  case positive => exact fun some => absurd rfl some
  case once => exact .nil
  case made =>
    intro g v waits
    by_cases mine : g = f
    · simp [mine] at waits
    · simp only [Function.update_of_ne mine] at waits
      exact h.made g v waits
  case asleep =>
    rintro v (queued | ⟨g, isOwed⟩)
    · cases queued
    · have before : v ∈ s.group.waiters ∨ s.Owed v :=
        ((owed v g).1 isOwed).imp And.right fun ⟨_, before⟩ => ⟨g, before⟩
      obtain ⟨untold, u, pc⟩ := h.asleep v before
      exact ⟨untold, u, suspended u v pc⟩
  case apart => exact fun _ _ => List.not_mem_nil
  case single =>
    intro g
    by_cases mine : g = f
    · simpa [mine] using h.once
    · simpa [mine] using h.single g
  case notifier =>
    intro g g' v mine theirs
    rcases (owed v g).1 mine with ⟨rfl, queued⟩ | ⟨-, before⟩ <;>
      rcases (owed v g').1 theirs with ⟨rfl, queued'⟩ | ⟨-, before'⟩
    · rfl
    · exact absurd queued (h.apart v ⟨g', before'⟩)
    · exact absurd queued' (h.apart v ⟨g, before⟩)
    · exact h.notifier g g' v before before'
  case told =>
    intro g v pc
    have mine : g ≠ f := by
      rintro rfl
      simp at pc
    simp only [Function.update_of_ne mine] at pc
    rcases h.told g v pc with queued | ⟨u, isOwed⟩ | isTold
    · exact .inr (.inl ⟨f, (owed v f).2 (.inl ⟨rfl, queued⟩)⟩)
    · have other : u ≠ f := fun same => by simp [same, nothing] at isOwed
      exact .inr (.inl ⟨u, (owed v u).2 (.inr ⟨other, isOwed⟩)⟩)
    · exact .inr (.inr isTold)

/-- `NotifyWaiter` stores `notified`. -/
theorem Wakes.tell {rest : List Nat} (h : Wakes s) (here : s.pc f = .notifying (w :: rest)) (told : List (φ × Nat)) :
    Wakes { s with notified := Function.update s.notified w true, told,
                   pc := Function.update s.pc f (.scheduling w rest) } := by
  have mine : w ∈ (s.pc f).toStore := by rw [here, Pc.toStore]; exact List.mem_cons_self
  have single : (w :: rest).Nodup := by simpa only [here, Pc.toStore] using h.single f
  have owed : ∀ v g, v ∈ (Function.update s.pc f (.scheduling w rest) g).toStore ↔ v ≠ w ∧ v ∈ (s.pc g).toStore := by
    intro v g
    by_cases own : g = f
    · simp only [own, Function.update_self, here, Pc.toStore, List.mem_cons]
      constructor
      · exact fun later => ⟨fun same => (List.nodup_cons.1 single).1 (same ▸ later), .inr later⟩
      · exact fun ⟨other, before⟩ => before.resolve_left other
    · rw [Function.update_of_ne own]
      refine ⟨fun before => ⟨fun same => own (h.notifier g f w (same ▸ before) mine), before⟩, And.right⟩
  have suspended : ∀ g v, Function.update s.pc f (.scheduling w rest) g = .suspended v ↔ s.pc g = .suspended v := by
    intro g v
    by_cases own : g = f
    · simp [own, here]
    · rw [Function.update_of_ne own]
  constructor
  case counts => exact h.counts
  case positive => exact h.positive
  case once => exact h.once
  case made =>
    intro g v waits
    by_cases own : g = f
    · simp [own] at waits
    · simp only [Function.update_of_ne own] at waits
      exact h.made g v waits
  case asleep =>
    intro v waits
    have before : v ≠ w ∧ (v ∈ s.group.waiters ∨ s.Owed v) := by
      rcases waits with queued | ⟨g, isOwed⟩
      · exact ⟨fun same => h.apart w ⟨f, mine⟩ (same ▸ queued), .inl queued⟩
      · exact ⟨((owed v g).1 isOwed).1, .inr ⟨g, ((owed v g).1 isOwed).2⟩⟩
    obtain ⟨untold, g, pc⟩ := h.asleep v before.2
    exact ⟨by simpa only [Function.update_of_ne before.1] using untold, g, (suspended g v).2 pc⟩
  case apart => exact fun v ⟨g, isOwed⟩ => h.apart v ⟨g, ((owed v g).1 isOwed).2⟩
  case single =>
    intro g
    by_cases own : g = f
    · simpa [own, Pc.toStore] using (List.nodup_cons.1 single).2
    · simpa [own] using h.single g
  case notifier =>
    exact fun g g' v isOwed isOwed' => h.notifier g g' v ((owed v g).1 isOwed).2 ((owed v g').1 isOwed').2
  case told =>
    intro g v pc
    by_cases same : v = w
    · exact .inr (.inr (by simp [same]))
    · rcases h.told g v ((suspended g v).1 pc) with queued | ⟨u, isOwed⟩ | isTold
      · exact .inl queued
      · exact .inr (.inl ⟨u, (owed v u).2 ⟨same, isOwed⟩⟩)
      · exact .inr (.inr (by simpa only [Function.update_of_ne same] using isTold))

theorem Wakes.move (h : Wakes s) (move : Moves s s') : Wakes s' := by
  cases move with
  | counted f delta here positive =>
    exact { h with counts := Int.le_of_lt positive, positive := fun _ => positive }
  | zeroed f delta here zero => exact h.zero here _
  | told f waiter rest here => exact h.tell here _
  | sent f waiter rest here =>
    have turned := h.turn (f := f) (p := .notify rest) (by rw [Pc.toStore_notify, here, Pc.toStore]) (by simp [here]) (by simp)
      (by simp)
    exact ⟨turned.counts, turned.positive, turned.once, turned.made, turned.asleep, turned.apart, turned.single,
      turned.notifier, turned.told⟩
  | returned f here zero =>
    have away : (s.pc f).toStore = [] ∧ ∀ w, s.pc f ≠ .suspended w := by
      rcases here with idle | ⟨waiter, retry⟩
      · simp [idle, Pc.toStore]
      · simp [retry, Pc.toStore]
    have turned := h.turn (f := f) (p := .idle) away.1.symm (fun w here => absurd here (away.2 w)) nofun nofun
    exact ⟨turned.counts, turned.positive, turned.once, turned.made, turned.asleep, turned.apart, turned.single,
      turned.notifier, turned.told⟩
  | registered f here counts =>
    have fresh : ∀ g, s.pc g ≠ .suspended s.created ∧ s.pc g ≠ .retry s.created := fun g =>
      ⟨fun pc => Nat.lt_irrefl _ (h.made g _ (.inl pc)).1, fun pc => Nat.lt_irrefl _ (h.made g _ (.inr pc)).1⟩
    refine h.queue (.inl here) counts (Function.update_self ..) (Nat.lt_succ_self _) (fun g _ => fresh g) ?_
    intro v g other below named
    exact ⟨Nat.lt_succ_of_lt below, by rwa [Function.update_of_ne other]⟩
  | requeued f waiter here counts =>
    obtain ⟨below, named⟩ := h.made f waiter (.inr here)
    have mine : ∀ g, s.fiber waiter = some g → g = f := fun g theirs => Option.some.inj (theirs.symm.trans named)
    refine h.queue (.inr here) counts named below (fun g other => ?_) fun v g _ below named => ⟨below, named⟩
    exact ⟨fun pc => other (mine g (h.made g waiter (.inl pc)).2), fun pc => other (mine g (h.made g waiter (.inr pc)).2)⟩
  | woken f waiter here isTold =>
    refine h.turn (by simp [here, Pc.toStore]) (fun w suspended => ?_) nofun fun w retry => ?_
    · cases here.symm.trans suspended
      exact isTold
    · cases retry
      exact here
  | unchanged => exact h

/-- The history of the other fibers is as it was. -/
theorem Notifies.step (ws vs us : List Nat) {p : Pc} (h : Notifies s) (pcs : s'.pc = Function.update s.pc f p)
    (popped : s'.popped = s.popped ++ ws.map (f, ·)) (told : s'.told = s.told ++ vs.map (f, ·))
    (sent : s'.sent = s.sent ++ us.map (f, ·)) (stores : (s.pc f).toStore ++ ws = vs ++ p.toStore)
    (schedules : (s.pc f).toSchedule ++ vs = us ++ p.toSchedule)
    (delivered : ∀ w, s'.notified w = true → s.notified w = true ∨ w ∈ vs) : Notifies s' := by
  constructor
  case stores =>
    intro g
    rw [pcs, popped, told]
    by_cases mine : g = f
    · subst mine
      rw [doneBy_self, doneBy_self, Function.update_self, h.stores g, List.append_assoc, stores, List.append_assoc]
    · rw [doneBy_other mine, doneBy_other mine, Function.update_of_ne mine, h.stores g]
  case schedules =>
    intro g
    rw [pcs, told, sent]
    by_cases mine : g = f
    · subst mine
      rw [doneBy_self, doneBy_self, Function.update_self, h.schedules g, List.append_assoc, schedules,
        List.append_assoc]
    · rw [doneBy_other mine, doneBy_other mine, Function.update_of_ne mine, h.schedules g]
  case delivered =>
    intro w isTold
    rw [told]
    rcases delivered w isTold with before | new
    · obtain ⟨g, mem⟩ := h.delivered w before
      exact ⟨g, List.mem_append_left _ mem⟩
    · exact ⟨f, List.mem_append_right _ (List.mem_map_of_mem new)⟩

/-- Clearing a flag delivers nothing. -/
theorem cleared {notified : Nat → Bool} {v : Nat} (isTold : Function.update notified w false v = true) :
    notified v = true := by
  by_cases same : v = w
  · simp [same] at isTold
  · rwa [Function.update_of_ne same] at isTold

theorem Notifies.move (h : Notifies s) (move : Moves s s') : Notifies s' := by
  cases move with
  | counted f delta here positive => exact ⟨h.stores, h.schedules, h.delivered⟩
  | zeroed f delta here zero =>
    exact h.step s.group.waiters [] [] rfl rfl (by simp) (by simp) (by rw [here, Pc.toStore_notify]; rfl)
      (by rw [here, Pc.toSchedule_notify]; rfl) fun w isTold => .inl isTold
  | told f waiter rest here =>
    refine h.step [] [waiter] [] rfl (by simp) rfl (by simp) (by simp [here, Pc.toStore])
      (by simp [here, Pc.toSchedule]) fun w isTold => ?_
    by_cases same : w = waiter
    · exact .inr (by simp [same])
    · exact .inl (by simpa only [Function.update_of_ne same] using isTold)
  | sent f waiter rest here =>
    exact h.step [] [] [waiter] rfl (by simp) (by simp) rfl (by rw [here, Pc.toStore_notify, Pc.toStore, List.append_nil]; rfl)
      (by rw [here, Pc.toSchedule_notify]; rfl) fun w isTold => .inl isTold
  | returned f here zero =>
    have away : (s.pc f).toStore = [] ∧ (s.pc f).toSchedule = [] := by
      rcases here with here | ⟨waiter, here⟩ <;> simp [here, Pc.toStore, Pc.toSchedule]
    exact h.step [] [] [] rfl (by simp) (by simp) (by simp) (by rw [away.1]; rfl)
      (by rw [away.2]; rfl) fun w isTold => .inl isTold
  | registered f here counts | requeued f waiter here counts =>
    exact h.step [] [] [] rfl (by simp) (by simp) (by simp) (by simp [here, Pc.toStore])
      (by simp [here, Pc.toSchedule]) fun w isTold => .inl (cleared isTold)
  | woken f waiter here isTold =>
    exact h.step [] [] [] rfl (by simp [State.setPc]) (by simp [State.setPc]) (by simp [State.setPc])
      (by simp [here, Pc.toStore]) (by simp [here, Pc.toSchedule]) fun w isTold => .inl isTold
  | unchanged => exact h

theorem wakes_of_reach (h : (machine φ).Reach s) : Wakes s :=
  h.invariant wakes_init fun _ _ _ inv _ e => inv.move (step_moves e)

theorem notifies_of_reach (h : (machine φ).Reach s) : Notifies s :=
  h.invariant notifies_init fun _ _ _ inv _ e => inv.move (step_moves e)

end Steps

/-- What `WaitGroup` promises. A suspended fiber is queued once, or an `add`
that reached zero popped it, and its notification is pending or delivered; each
`add` tells and then schedules what it popped, one by one and in order. -/
structure Contract (s : State φ) : Prop where
  waitersCount : s.group.waiters ≠ [] → 0 < s.group.count
  suspended : ∀ f w, s.pc f = .suspended w →
    (s.group.waiters.map s.fiber).count (some f) = 1 ∨
      (s.group.waiters.map s.fiber).count (some f) = 0 ∧ ∃ g, (g, w) ∈ s.popped ∧
        (w ∈ (s.pc g).toStore ∨ s.notified w = true ∧ (g, w) ∈ s.told)
  notifies : ∀ g, doneBy g s.popped = doneBy g s.told ++ (s.pc g).toStore ∧
    doneBy g s.told = doneBy g s.sent ++ (s.pc g).toSchedule
  popsAtZero : ∀ l s', step s l = some s' → s'.popped ≠ s.popped → s'.group.count = 0
  returnsAtZero : ∀ l s', step s l = some s' → s'.returned ≠ s.returned → s.group.count = 0

theorem mem_doneBy {f : φ} {w : Nat} {history : List (φ × Nat)} : w ∈ doneBy f history ↔ (f, w) ∈ history := by
  simp only [doneBy, List.mem_map, List.mem_filter, decide_eq_true_eq]
  constructor
  · rintro ⟨⟨g, v⟩, ⟨mem, rfl⟩, rfl⟩
    exact mem
  · exact fun mem => ⟨(f, w), ⟨mem, rfl⟩, rfl⟩

/-- **`WaitGroup` wakes everyone at zero**, for any number of fibers and every
interleaving. -/
theorem wakes_everyone (s : State φ) (h : (machine φ).Reach s) : Contract s := by
  have wakes := wakes_of_reach h
  have notifies := notifies_of_reach h
  -- the waiters in the queue belong to fibers that are suspended with them
  have named : ∀ f w v, s.pc f = .suspended w → v ∈ s.group.waiters → s.fiber v = some f → v = w := by
    intro f w v here queued mine
    obtain ⟨-, g, suspended⟩ := wakes.asleep v (.inl queued)
    have same := (wakes.made g v (.inl suspended)).2
    cases Option.some.inj (same.symm.trans mine)
    exact Pc.suspended.inj (suspended.symm.trans here)
  constructor
  case waitersCount => exact wakes.positive
  case suspended =>
    intro f w here
    have mine := (wakes.made f w (.inl here)).2
    have count : (s.group.waiters.map s.fiber).count (some f) = s.group.waiters.count w := by
      rw [List.count, List.countP_map, List.count]
      refine List.countP_congr fun v queued => ?_
      simp only [Function.comp_apply, beq_iff_eq]
      exact ⟨named f w v here queued, fun same => same ▸ mine⟩
    rw [count]
    by_cases queued : w ∈ s.group.waiters
    · exact .inl (List.count_eq_one_of_mem wakes.once queued)
    · refine .inr ⟨List.count_eq_zero.2 queued, ?_⟩
      have popped : ∀ g, w ∈ doneBy g s.told ++ (s.pc g).toStore → (g, w) ∈ s.popped := fun g mem =>
        mem_doneBy.1 (notifies.stores g ▸ mem)
      rcases (wakes.told f w here).resolve_left queued with ⟨g, owed⟩ | isTold
      · exact ⟨g, popped g (List.mem_append_right _ owed), .inl owed⟩
      · obtain ⟨g, mem⟩ := notifies.delivered w isTold
        exact ⟨g, popped g (List.mem_append_left _ (mem_doneBy.2 mem)), .inr ⟨isTold, mem⟩⟩
  case notifies => exact fun g => ⟨notifies.stores g, notifies.schedules g⟩
  case popsAtZero =>
    intro l s' e pops
    cases step_moves e with
    | zeroed f delta here zero => rfl
    | _ => exact absurd rfl pops
  case returnsAtZero =>
    intro l s' e returns
    cases step_moves e with
    | returned f here zero => exact zero
    | _ => exact absurd rfl returns

/-- Fiber 1 waits, is popped and notified, and before it runs on the group is
used again, so it queues the same waiter a second time. -/
theorem wakes_everyone_reused : ∃ s, (machine Nat).Reach s ∧ s.pc 1 = .suspended 0 ∧ s.group.waiters = [0] ∧
    s.pc 0 = .scheduling 0 [] ∧ Contract s := by
  have reached := Machine.reach_of_exec (rfl : (machine Nat).exec (machine Nat).init
    [.add 0 1, .wait 1, .check 1, .add 0 (-1), .notify 0, .add 2 1, .check 1, .retry 1] = some _)
  exact ⟨_, reached, rfl, rfl, rfl, wakes_everyone _ reached⟩

end Mycoroutine.WaitGroup
