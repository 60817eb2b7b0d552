import Mycoroutine.Fiber.Nesting

/-!
# Nested calls return like a stack

Each operation keeps the thread in agreement with the entries that have not come
back. So control always returns to the latest of them, whatever mixture of
`call` and `resume` entered the fibers, and to any depth.
-/

namespace Mycoroutine.Thread
set_option autoImplicit false
open Interleave

variable {p : Platform} {s s' : Thread} {r x : Ref} {f : Fiber}

/-! ## The operations -/

section Operations

variable {pending rest : List Entry} {e : Entry} {sp marker : Nat} {point : Point}

theorem Nested.resume (h : Nested s pending) (issued : (s.fibers r).any fun fb => s.running = s.base fb)
    (done : s.resume p r sp marker = some s') : Nested s' (⟨r, .resumed⟩ :: pending) := by
  unfold Thread.resume at done
  split at done
  · cases done
  rename_i f here
  split at done
  · rename_i guard
    obtain ⟨alive, ready, -⟩ := guard
    obtain ⟨m, prepared, done⟩ := Option.bind_eq_some_iff.1 done
    obtain ⟨calm, f', now, init⟩ := calm_prepare here (fun unshared => (h.placed r f here).prepared (.inl unshared)) prepared
    obtain ⟨f'', now', same, -⟩ := calm.fibers r f here
    cases now.symm.trans now'
    have returns : m.base f = top pending := by
      have issuer : s.running = s.base f := by simpa [here] using issued
      unfold Thread.base at issuer ⊢
      rw [calm.scheduler, ← issuer, h.executing]
    have sameBase : m.base f' = m.base f := by
      unfold Thread.base
      rw [same.base]
    rw [returns] at done
    exact (h.calm calm).enter now (same.state.trans ready) init (same.alive.trans alive) ⟨rfl, rfl, rfl, rfl, rfl, rfl⟩
      nofun (fun _ => ⟨rfl, rfl, sameBase.trans returns, rfl⟩) done
  · cases done

/-- `call` enters the fiber, or returns an error code at once. -/
theorem Nested.call (h : Nested s pending) (here : s.fibers r = some f) (done : s.call p r sp marker = some s') :
    s.callCode f r = .ok ∧ Nested s' (⟨r, .called⟩ :: pending) ∨ s.callCode f r ≠ .ok ∧ s' = s := by
  simp only [Thread.call, here] at done
  split at done
  · cases done
  rename_i isAlive
  split at done
  · rename_i code
    obtain ⟨ready, -, -⟩ := (callCode_ok f r).1 code
    obtain ⟨m, prepared, done⟩ := Option.bind_eq_some_iff.1 done
    obtain ⟨calm, f', now, init⟩ := calm_prepare here (fun unshared => (h.placed r f here).prepared (.inl unshared)) prepared
    obtain ⟨f'', now', same, -⟩ := calm.fibers r f here
    cases now.symm.trans now'
    have nested := h.calm calm
    rw [nested.current] at done
    exact .inl ⟨code, nested.enter now (same.state.trans ready) init (same.alive.trans (Bool.not_eq_false _ ▸ isAlive))
      ⟨rfl, rfl, rfl, rfl, rfl, rfl⟩ (fun _ => ⟨rfl, rfl, rfl⟩) nofun done⟩
  · rename_i refused
    cases done
    exact .inr ⟨refused, rfl⟩

/-- What `yield` does after the state is set: `back` to a caller, or a switch to
the fiber `resume` came from. -/
theorem Nested.comeBack (h : Nested s (e :: rest)) (change : Fiber → Fiber) (here : s.fibers e.fiber = some f)
    (state : (change f).state ≠ .running) (ctx : (change f).ctx = f.ctx)
    (init : (change f).ctxInitialized = f.ctxInitialized) (shared : (change f).useSharedStack = f.useSharedStack)
    (parent : (change f).parent = f.parent) (back : (change f).returnToParent = f.returnToParent)
    (base : (change f).runInScheduler = f.runInScheduler) (alive : ∀ g, (change g).alive = g.alive)
    (suspends : (change f).state = .ready → point = .inYield ∧ (change f).curr = f.curr)
    (done : (if (change f).returnToParent ∧ (change f).parent.any (s.modify e.fiber change).alive then
      (s.modify e.fiber change).back p e.fiber sp marker point
      else (s.modify e.fiber change).swap p sp e.fiber ((s.modify e.fiber change).base (change f)) point) = some s') :
    Nested s' rest ∧ ∃ f', s'.fibers e.fiber = some f' ∧ f'.state = (change f).state ∧ f'.parent = none ∧
      f'.returnToParent = false := by
  obtain ⟨⟨g, b, joined⟩, -⟩ := h.linked
  cases here.symm.trans joined.entered
  have now : (s.modify e.fiber change).fibers e.fiber = some (change f) := by
    rw [fibers_modify, if_pos rfl, here]
    rfl
  cases entrance : e.how with
  | called =>
    obtain ⟨isParent, returns, -⟩ := joined.called entrance
    have placedB := h.placed _ b joined.below
    have memB : top rest ∈ stack (e :: rest) := List.mem_cons_of_mem _ (top_mem_stack rest)
    have initB := placedB.prepared (.inr memB)
    have parentAlive : (s.modify e.fiber change).alive (top rest) = true := by
      rw [alive_modify alive]
      simpa [Thread.alive, joined.below] using placedB.alive memB
    have bound : (some (change f)).bind (·.parent) = some (top rest) := parent.trans isParent
    rw [if_pos (by simp [back, returns, parent, isParent, parentAlive])] at done
    simp only [Thread.back, now, bound, parentAlive, if_true] at done
    obtain ⟨m, prepared, done⟩ := Option.bind_eq_some_iff.1 done
    rw [modify_modify] at prepared
    have apart : top rest ≠ e.fiber := fun same =>
      (List.nodup_cons.1 h.once).1 (show e.fiber ∈ stack rest from same ▸ top_mem_stack rest)
    have under : ∀ change', (s.modify e.fiber change').fibers (top rest) = some b := fun change' => by
      rw [fibers_modify, if_neg apart, joined.below]
    have calm := (calm_prepare (under _) (fun _ => initB) prepared).1
    have left := h.leave here calm ⟨state, ctx, init, shared, rfl, rfl⟩ suspends done
    exact left
  | resumed =>
    obtain ⟨noParent, noReturn, isBase, -⟩ := joined.resumed entrance
    have sameBase : (s.modify e.fiber change).base (change f) = top rest := by
      rw [← isBase]
      unfold Thread.base
      rw [base]
      rfl
    rw [if_neg (by simp [back, noReturn]), sameBase] at done
    exact h.leave here (.refl _) ⟨state, ctx, init, shared, parent.trans noParent, back.trans noReturn⟩ suspends done

/-- A yielding fiber comes back READY. -/
theorem Nested.yield (h : Nested s (e :: rest)) (done : s.yield p s.tFiber sp marker .inYield = some s') :
    Nested s' rest ∧ ∃ f', s'.fibers e.fiber = some f' ∧ f'.state = .ready ∧ f'.parent = none ∧
      f'.returnToParent = false := by
  obtain ⟨⟨f, b, joined⟩, -⟩ := h.linked
  have here := joined.entered
  have running : f.state = .running := ((h.placed _ f here).running).2 List.mem_cons_self
  have this : s.tFiber = e.fiber := h.current
  simp only [Thread.yield, this, here, running, true_or, reduceCtorEq, if_true, if_false] at done
  exact h.comeBack ({ · with state := .ready }) here nofun rfl rfl rfl rfl rfl rfl (fun _ => rfl)
    (fun _ => ⟨rfl, rfl⟩) done

/-- A fiber whose callback ended comes back TERM. -/
theorem Nested.finish (h : Nested s (e :: rest)) (done : s.finish p sp marker = some s') :
    Nested s' rest ∧ ∃ f', s'.fibers e.fiber = some f' ∧ f'.state = .term ∧ f'.parent = none ∧
      f'.returnToParent = false := by
  obtain ⟨⟨f, b, joined⟩, -⟩ := h.linked
  have here := joined.entered
  have this : s.running = e.fiber := h.executing
  simp only [Thread.finish, this] at done
  split at done
  · have now : (s.modify e.fiber ({ · with state := .term, curr := false })).fibers e.fiber =
        some { f with state := .term, curr := false } := by
      rw [fibers_modify, if_pos rfl, here]
      rfl
    simp only [Thread.yield, now, or_true, if_true] at done
    exact h.comeBack ({ · with state := .term, curr := false }) here nofun rfl rfl rfl rfl rfl rfl
      (fun _ => rfl) nofun done
  · cases done

/-- The main fiber runs no callback. -/
theorem Nested.no_finish (h : Nested s []) : s.finish p sp marker = none := by
  obtain ⟨f, here, placed, mem⟩ := h.top_running
  have isMain : s.running = tThreadFiber := h.executing
  have none' : f.curr = false := Bool.eq_false_iff.2 fun curr => (placed.curr mem).1 curr isMain
  simp [Thread.finish, here, none']

/-- A change to a fiber that is not on the stack. -/
theorem Nested.off (h : Nested s pending) (off : r ∉ stack pending) (running : s'.running = s.running)
    (tFiber : s'.tFiber = s.tFiber) (scheduler : s'.tSchedulerFiber = s.tSchedulerFiber)
    (others : ∀ x, x ≠ r → s'.fibers x = s.fibers x)
    (continuation : ∀ x, x ≠ r → s'.continuation x = s.continuation x)
    (placed : ∀ f', s'.fibers r = some f' → Placed s' pending r f') : Nested s' pending := by
  have apart : ∀ x ∈ stack pending, x ≠ r := fun x mem same => off (same ▸ mem)
  refine ⟨running.trans h.executing, tFiber.trans h.current, h.once, fun x mem => ?_, fun x f now => ?_, ?_⟩
  · obtain ⟨f, here⟩ := h.exist x mem
    exact ⟨f, (others x (apart x mem)).trans here⟩
  · by_cases mine : x = r
    · subst mine
      exact placed f now
    · rw [others x mine] at now
      refine (h.placed x f now).untouched (.refl x f) (fun waits => ?_) fun no yes => by cases no.symm.trans yes
      rw [continuation x mine, waits]
  · refine h.linked.keep scheduler (fun e mem f here => ?_) fun x mem b here => ?_
    · exact ⟨f, (others _ (apart _ (fiber_mem_stack mem))).trans here, rfl, rfl, rfl⟩
    · have mine := apart x (List.mem_of_mem_tail mem)
      exact ⟨b, (others x mine).trans here, rfl, fun waits => (continuation x mine).trans waits⟩

theorem Nested.destroy (h : Nested s pending) (done : s.destroy r = some s') : Nested s' pending := by
  unfold Thread.destroy at done
  split at done
  · rename_i f here
    split at done
    · rename_i guard
      obtain ⟨-, noCallback, -, -, notMain, -⟩ := guard
      cases done
      have placed := h.placed r f here
      have off : r ∉ stack pending := fun mem => by
        cases noCallback.symm.trans ((placed.curr mem).2 notMain)
      refine h.off off rfl rfl rfl (fun x other => ?_) (fun _ _ => rfl) fun f' now => ?_
      · simp [fibers_modify, other]
      · simp only [fibers_modify, if_true, here, Option.map_some, Option.some.injEq] at now
        subst now
        exact ⟨placed.own, placed.running, placed.unlinked, placed.prepared, placed.waits, fun mem => absurd mem off,
          placed.curr⟩
    · cases done
  · cases done

theorem Nested.reset (h : Nested s pending) (done : s.reset p r = some s') : Nested s' pending := by
  unfold Thread.reset at done
  split at done
  · cases done
  rename_i f here
  simp only at done
  split at done
  · rename_i guard
    have placed := h.placed r f here
    have off : r ∉ stack pending := fun mem => by cases guard.2.symm.trans (placed.running.2 mem)
    have notRunning : ¬ Fiber.State.ready = .running := nofun
    split at done
    · rename_i slotless
      cases done
      refine h.off off rfl rfl rfl (fun x other => ?_) (fun _ _ => rfl) fun f' now => ?_
      · simp [fibers_modify, other]
      · simp only [fibers_modify, if_true, here, Option.map_some, Option.some.injEq] at now
        subst now
        refine ⟨placed.own, iff_of_false notRunning off, fun _ => ⟨rfl, rfl⟩, fun needs => ?_, fun _ => nofun,
          fun mem => absurd mem off, fun mem => absurd mem off⟩
        rcases needs with unshared | mem
        · cases slotless.1.symm.trans unshared
        · exact absurd mem off
    · obtain ⟨sp, fibers, continuation, running, tFiber, scheduler⟩ := init_spec done
      refine h.off off running tFiber scheduler (fun x other => ?_) (fun x other => ?_) fun f' now => ?_
      · rw [fibers]
        simp [fibers_modify, other]
      · rw [continuation, Function.update_of_ne other]
        rfl
      · rw [fibers] at now
        simp only [fibers_modify, if_true, here, Option.map_some, Option.some.injEq] at now
        subst now
        refine ⟨rfl, iff_of_false notRunning off, fun _ => ⟨rfl, rfl⟩, fun _ => rfl, fun _ _ => ⟨?_, .inl rfl⟩,
          fun mem => absurd mem off, fun mem => absurd mem off⟩
        rw [continuation, Function.update_self]
  · cases done

theorem Nested.create {stacksize : Nat} {runInScheduler useSharedStack : Bool} (h : Nested s pending)
    (fresh : s.kind s.created = none) (done : s.create p stacksize runInScheduler useSharedStack = some s') :
    Nested s' pending := by
  have off : s.created ∉ stack pending := fun mem => by
    obtain ⟨f, here⟩ := h.exist _ mem
    simp [kind, here] at fresh
  have notRunning : ¬ Fiber.State.ready = .running := by decide
  unfold Thread.create at done
  generalize (if stacksize = 0 then 128000 else stacksize) % 2 ^ 32 = size at done
  simp only at done
  split at done
  · rename_i shared
    cases done
    refine h.off off rfl rfl rfl (fun x other => ?_) (fun _ _ => rfl) fun f' now => ?_
    · simp [add, other]
    · simp only [add, Function.update_self, Option.some.injEq] at now
      subst now
      refine ⟨rfl, iff_of_false notRunning off, fun _ => ⟨rfl, rfl⟩, fun needs => ?_, fun _ initialized => (by cases initialized),
        fun mem => absurd mem off, fun mem => absurd mem off⟩
      rcases needs with unshared | mem
      · cases shared.symm.trans unshared
      · exact absurd mem off
  · split at done
    · cases done
    · obtain ⟨sp, fibers, continuation, running, tFiber, scheduler⟩ := init_spec done
      refine h.off off running tFiber scheduler (fun x other => ?_) (fun x other => ?_) fun f' now => ?_
      · rw [fibers]
        simp [fibers_modify, add, other]
      · rw [continuation, Function.update_of_ne other]
        rfl
      · rw [fibers] at now
        simp only [fibers_modify, if_true, add, Function.update_self, Option.map_some, Option.some.injEq] at now
        subst now
        refine ⟨rfl, iff_of_false notRunning off, fun _ => ⟨rfl, rfl⟩, fun _ => rfl, fun _ _ => ⟨?_, .inl rfl⟩,
          fun mem => absurd mem off, fun mem => absurd mem off⟩
        rw [continuation, Function.update_self]

/-- Every step keeps the thread in agreement with the history. -/
theorem Nested.step {n : Nesting} {l : Label} {t : Thread} (h : Nested n.thread n.pending)
    (fresh : n.thread.kind n.thread.created = none) (proper : Proper n l) (done : step p n.thread l = some t) :
    Nested t (record n.thread n.pending l) := by
  have issued := proper.1
  cases l with
  | create stacksize runInScheduler useSharedStack => exact h.create fresh done
  | destroy f => exact h.destroy done
  | reset f => exact h.reset done
  | resume f sp marker => exact h.resume issued done
  | call f sp marker =>
    obtain ⟨fb, here⟩ : ∃ fb, n.thread.fibers f = some fb := by
      by_contra absent
      have none' : n.thread.fibers f = none := Option.not_isSome_iff_eq_none.1 fun is => absent (Option.isSome_iff_exists.1 is)
      simp [Thread.step, Thread.call, none'] at done
    rcases h.call here done with ⟨ok, entered⟩ | ⟨refused, rfl⟩
    · simpa [record, here, ok] using entered
    · simpa [record, here, refused] using h
  | yield sp marker =>
    cases hp : n.pending with
    | nil => exact absurd (h.executing.trans (by rw [hp]; rfl)) proper.2
    | cons e rest => exact ((hp ▸ h).yield done).1
  | back sp marker => exact issued.elim
  | finish sp marker =>
    cases hp : n.pending with
    | nil =>
      rw [hp] at h
      cases h.no_finish.symm.trans done
    | cons e rest => exact ((hp ▸ h).finish done).1
  | write offset value =>
    simp only [Thread.step, writeStack] at done
    split at done
    · cases done
    · split at done
      · exact Option.some.inj done ▸ h.calm (.of_same rfl rfl rfl rfl rfl)
      · cases done
  | setSharedStackSlotCount count => exact Option.some.inj done ▸ h.calm (.of_same rfl rfl rfl rfl rfl)
  | setSchedulerFiber f =>
    cases hp : n.pending with
    | cons e rest =>
      rw [hp] at h
      have isMain : e.fiber = tThreadFiber := h.executing.symm.trans issued
      have off : e.fiber ∉ stack rest := (List.nodup_cons.1 h.once).1
      rw [isMain] at off
      exact absurd (List.mem_append_right _ (List.mem_singleton_self _)) off
    | nil =>
      rw [hp] at h
      simp only [Thread.step] at done
      split at done
      · cases done
        refine ⟨h.executing, h.current, h.once, h.exist, fun x f here => ?_, trivial⟩
        exact (h.placed x f here).untouched (.refl x f) id fun no yes => by cases no.symm.trans yes
      · cases done

theorem nested_of_reach {slotCount : Nat} {n : Nesting} (h : (nesting p slotCount).ReachIf Proper n) :
    Nested n.thread n.pending := by
  induction h with
  | init => exact nested_init slotCount
  | step before proper e ih =>
    obtain ⟨thread, moved, rfl⟩ := Option.map_eq_some_iff.1 e
    exact ih.step ((kept_of_reach (thread_reach before)).fresh _ le_rfl) proper moved

/-! ## Coming back is possible -/

/-- A switch between private stacks, to a fiber that waits. -/
theorem swap_private {src dst : Ref} {g : Fiber} (executes : s.running = src) (noSlot : s.slotOf src = none)
    (apart : dst ≠ src) (target : s.fibers dst = some g) (own : g.ctx.code = dst)
    (waits : s.continuation dst = some dst) (point' : g.ctx.point ≠ .done) :
    ∃ s', s.swap p sp src dst point = some s' := by
  have inside : s.RunsInside p sp := by
    unfold RunsInside
    rw [executes, noSlot]
    exact trivial
  have there : ({ s with tFiber := dst }.save sp src point).fibers dst = some g := by
    simp only [Thread.save, modify, Function.update_of_ne apart, target]
  have waits' : ({ s with tFiber := dst }.save sp src point).continuation g.ctx.code = some dst := by
    simp only [Thread.save, executes, own, Function.update_of_ne apart, waits]
  refine ⟨({ s with tFiber := dst }.save sp src point).arrive g.ctx, ?_⟩
  rw [Thread.swap, if_pos inside, Thread.load, there, Option.bind_some, if_pos ⟨waits', point'⟩]

/-- On private stacks nothing keeps the latest entry from coming back. -/
theorem Nested.canComeBack (h : Nested s (e :: rest)) (change : Fiber → Fiber) (here : s.fibers e.fiber = some f)
    (shared : (change f).useSharedStack = false) (parent : (change f).parent = f.parent)
    (back : (change f).returnToParent = f.returnToParent) (base : (change f).runInScheduler = f.runInScheduler)
    (alive : ∀ g, (change g).alive = g.alive) (below : s.kind (top rest) = some false) :
    ∃ s', (if (change f).returnToParent ∧ (change f).parent.any (s.modify e.fiber change).alive then
      (s.modify e.fiber change).back p e.fiber sp marker point
      else (s.modify e.fiber change).swap p sp e.fiber ((s.modify e.fiber change).base (change f)) point) = some s' := by
  obtain ⟨⟨g, b, joined⟩, -⟩ := h.linked
  cases here.symm.trans joined.entered
  have off : e.fiber ∉ stack rest := (List.nodup_cons.1 h.once).1
  have apart : top rest ≠ e.fiber := fun same => off (same ▸ top_mem_stack rest)
  have placedB := h.placed _ b joined.below
  have memB : top rest ∈ stack (e :: rest) := List.mem_cons_of_mem _ (top_mem_stack rest)
  have now : ∀ change', (s.modify e.fiber change').fibers e.fiber = some (change' f) := fun change' => by
    rw [fibers_modify, if_pos rfl, here]
    rfl
  have under : ∀ change', (s.modify e.fiber change').fibers (top rest) = some b := fun change' => by
    rw [fibers_modify, if_neg apart, joined.below]
  have privateB : b.useSharedStack = false := by simpa [kind, joined.below] using below
  have noSlot : ∀ change', (change' f).useSharedStack = false → (s.modify e.fiber change').slotOf e.fiber = none :=
    fun change' unshared => by simp [slotOf, now change', unshared]
  cases entrance : e.how with
  | called =>
    obtain ⟨isParent, returns, point'⟩ := joined.called entrance
    have parentAlive : (s.modify e.fiber change).alive (top rest) = true := by
      rw [alive_modify alive]
      simpa [Thread.alive, joined.below] using placedB.alive memB
    have bound : (some (change f)).bind (·.parent) = some (top rest) := parent.trans isParent
    rw [if_pos (by simp [back, returns, parent, isParent, parentAlive])]
    simp only [Thread.back, now, bound, parentAlive, if_true, modify_modify]
    have unshared : ∀ change', ¬ (s.modify e.fiber change').isShared (top rest) = true := fun change' => by
      simp [isShared, under change', privateB]
    rw [Thread.prepare, if_neg (unshared _), Option.bind_some]
    refine swap_private h.executing (noSlot _ ?_) apart (under _) placedB.own joined.waits ?_
    · exact shared
    · rw [point']
      simp
  | resumed =>
    obtain ⟨noParent, noReturn, isBase, point'⟩ := joined.resumed entrance
    have sameBase : (s.modify e.fiber change).base (change f) = top rest := by
      rw [← isBase]
      unfold Thread.base
      rw [base]
      rfl
    rw [if_neg (by simp [back, noReturn]), sameBase]
    refine swap_private h.executing (noSlot _ shared) apart (under _) placedB.own joined.waits ?_
    rw [point']
    simp

end Operations

/-! ## The contract -/

/-- Control is back at `q`, and the fiber that left is in `state`, its parent link
cleared. -/
structure BackAt (s : Thread) (e : Entry) (q : Ref) (state : Fiber.State) : Prop where
  executing : s.running = q ∧ s.tFiber = q
  left : ∃ f, s.fibers e.fiber = some f ∧ f.state = state ∧ f.parent = none ∧ f.returnToParent = false

/-- What nested calls promise. `chain` says how each pending entry is joined to
the fiber below it: `m_parent` and `m_returnToParent` under a `call`, the fiber
that resumed it otherwise. -/
structure ReturnsLikeStack (p : Platform) (n : Nesting) : Prop where
  executing : n.thread.tFiber = n.thread.running ∧ n.thread.running = top n.pending
  running : ∀ x f, n.thread.fibers x = some f → (f.state = .running ↔ x ∈ stack n.pending)
  chain : Linked n.thread n.pending
  unlinked : ∀ x f, n.thread.fibers x = some f → ⟨x, .called⟩ ∉ n.pending → f.parent = none ∧ f.returnToParent = false
  yields : ∀ e rest, n.pending = e :: rest → ∀ sp marker t, step p n.thread (.yield sp marker) = some t →
    BackAt t e (top rest) .ready
  finishes : ∀ e rest, n.pending = e :: rest → ∀ sp marker t, step p n.thread (.finish sp marker) = some t →
    BackAt t e (top rest) .term
  enabled : ∀ e rest, n.pending = e :: rest → n.thread.kind e.fiber = some false → n.thread.kind (top rest) = some false →
    ∀ sp marker, (∃ t, step p n.thread (.yield sp marker) = some t) ∧ ∃ t, step p n.thread (.finish sp marker) = some t
  refused : ∀ x f sp marker, n.thread.fibers x = some f → f.alive = true → n.thread.callCode f x ≠ .ok →
    step p n.thread (.call x sp marker) = some n.thread

/-- **Nested calls return like a stack**, on every run of one thread in which its
main fiber does not yield. -/
theorem returns_like_a_stack {slotCount : Nat} {n : Nesting} (h : (nesting p slotCount).ReachIf Proper n) :
    ReturnsLikeStack p n := by
  have nested := nested_of_reach h
  constructor
  case executing => exact ⟨nested.current.trans nested.executing.symm, nested.executing⟩
  case running => exact fun x f here => (nested.placed x f here).running
  case chain => exact nested.linked
  case unlinked => exact fun x f here => (nested.placed x f here).unlinked
  case yields =>
    intro e rest pending sp marker t done
    obtain ⟨after, left⟩ := (pending ▸ nested).yield done
    exact ⟨⟨after.executing, after.current⟩, left⟩
  case finishes =>
    intro e rest pending sp marker t done
    obtain ⟨after, left⟩ := (pending ▸ nested).finish done
    exact ⟨⟨after.executing, after.current⟩, left⟩
  case enabled =>
    intro e rest pending privately below sp marker
    rw [pending] at nested
    obtain ⟨⟨f, b, joined⟩, -⟩ := nested.linked
    have here := joined.entered
    have unshared : f.useSharedStack = false := by simpa [kind, here] using privately
    have placed := nested.placed _ f here
    have running : f.state = .running := placed.running.2 List.mem_cons_self
    have current : n.thread.tFiber = e.fiber := nested.current
    have executing : n.thread.running = e.fiber := nested.executing
    constructor
    · simp only [Thread.step, Thread.yield, current, here, running, true_or, reduceCtorEq, if_true, if_false]
      exact nested.canComeBack ({ · with state := .ready }) here unshared rfl rfl rfl (fun _ => rfl) below
    · have notMain : e.fiber ≠ tThreadFiber := fun same => by
        have off : e.fiber ∉ stack rest := (List.nodup_cons.1 nested.once).1
        rw [same] at off
        exact off (List.mem_append_right _ (List.mem_singleton_self _))
      have curr : f.curr = true := (placed.curr List.mem_cons_self).2 notMain
      have now : (n.thread.modify e.fiber ({ · with state := .term, curr := false })).fibers e.fiber =
          some { f with state := .term, curr := false } := by
        rw [fibers_modify, if_pos rfl, here]
        rfl
      simp only [Thread.step, Thread.finish, executing, here, Option.any_some, curr, if_true, Thread.yield, now, or_true]
      exact nested.canComeBack ({ · with state := .term, curr := false }) here unshared rfl rfl rfl (fun _ => rfl) below
  case refused =>
    intro x f sp marker here alive refused
    simp [Thread.step, Thread.call, here, alive, refused]

/-- Fiber 1 is resumed and calls fiber 2, which calls fiber 3; 3 yields to 2, is
called again and ends. -/
def calls : List Label :=
  [.create 64 false false, .create 64 false false, .create 64 false false, .resume 1 0 0, .call 2 0 0, .call 3 0 0,
   .yield 0 0, .call 3 0 0, .finish 0 0]

theorem returns_like_a_stack_calls : ∃ n, (nesting smallPlatform 1).execIf Proper (nesting smallPlatform 1).init calls =
    some n ∧ n.pending = [⟨2, .called⟩, ⟨1, .resumed⟩] ∧ ReturnsLikeStack smallPlatform n :=
  ⟨_, rfl, rfl, returns_like_a_stack (Machine.reachIf_of_execIf
    (rfl : (nesting smallPlatform 1).execIf Proper (nesting smallPlatform 1).init calls = some _))⟩

/-- The main fiber has nobody to yield to: its `yield` switches to itself, and it
goes on executing while its state is READY. -/
theorem main_yields : ∃ n, (nesting smallPlatform 1).ReachIf Issued n ∧ n.thread.running = tThreadFiber ∧
    (n.thread.fibers tThreadFiber).map (·.state) = some .ready :=
  ⟨_, Machine.reachIf_of_execIf
    (rfl : (nesting smallPlatform 1).execIf Issued (nesting smallPlatform 1).init [.yield 0 0] = some _), rfl, rfl⟩

end Mycoroutine.Thread
