import Mycoroutine.Scheduler.WakeupOnce

/-!
# What a wait and its notification keep

The steps of `SuspendCurrentUntilNotified` and `NotifyWaiter` keep the
invariant of the wake-ups, so no run that meets the condition queues a fiber
twice, or while it runs past its wait. Without the condition a store that is
read before the first `yield` leaves a task behind.
-/

namespace Mycoroutine.Wakeup
set_option autoImplicit false
open Interleave Machine

section Waits

variable {s : State} {w : Worker} {f : Ref} {wait : Nat}

/-- A fiber that is executed, and was not told, is in no queue. -/
theorem Once.executing (h : Once s) (flat : Flat s.run) (here : s.current w = some f) (untold : ¬ s.Told f) :
    (∀ t ∈ s.run.tasks, t.job ≠ .fiber f) ∧ (∀ wait ∈ s.stored, (s.waiter wait).fiber ≠ f) ∧
      (∀ v, ¬ s.Takes v f) ∧ ∀ v, s.Leaves v f → ¬ s.Unwoken v := by
  have drives := flat.drives_code here untold
  obtain ⟨work, pc, -⟩ := flat.at_code here
  obtain ⟨empty, quiet⟩ := (h.single f).driven w drives
  refine ⟨fun t queued job => ?_, fun wait stored same => quiet ⟨wait, stored, same⟩, fun v takes => ?_,
    fun v leaves unwoken => ?_⟩
  · refine List.count_eq_zero.1 empty (List.mem_filterMap.2 ⟨t, queued, fiberOf_eq_some.2 job⟩)
  · have drives' : s.Drives v f := by
      unfold State.Takes at takes
      unfold State.Drives driving
      split at takes <;> simp_all
    obtain rfl := (h.single f).driver v w drives' drives
    simp [State.Takes, pc] at takes
  · have drives' : s.Drives v f := by
      obtain ⟨t, nest, here | here | here⟩ := State.leaves_iff.1 leaves <;>
        simp [State.Drives, driving, here, unwoken]
    obtain rfl := (h.single f).driver v w drives' drives
    simp [State.Leaves, pc] at leaves

/-- Who has a fiber run on takes it, executes it, or may queue it again. -/
theorem State.Drives.cases {v : Worker} (drives : s.Drives v f) (flat : Flat s.run) :
    s.Takes v f ∨ s.current v = some f ∧ ¬ s.Told f ∨ s.Leaves v f ∧ s.Unwoken v := by
  unfold State.Drives driving at drives
  split at drives
  · rename_i work pc
    exact .inl (by simpa [State.Takes, pc] using drives)
  · rename_i work pc
    exact .inl (by simpa [State.Takes, pc] using drives)
  · rename_i t g pc
    exact .inl (by simpa [State.Takes, pc] using drives)
  · rename_i work nest pc
    have nest' := (flat.nests v _ _ _ pc).1
    exact .inr (.inl ⟨drives.1 ▸ State.current_of_pc (nest' ▸ pc), drives.2⟩)
  · rename_i t g nest pc
    exact .inr (.inr ⟨by simpa [State.Leaves, pc] using drives.1, drives.2⟩)
  · rename_i t g pc
    exact .inr (.inr ⟨by simpa [State.Leaves, pc] using drives.1, drives.2⟩)
  · rename_i t g pc
    exact .inr (.inr ⟨by simpa [State.Leaves, pc] using drives.1, drives.2⟩)
  · exact drives.elim

theorem Once.passed (h : Once s) (flat : Flat s.run) (here : s.current w = some f)
    (reads : s.place f = .first wait ∨ s.place f = .yielded wait) (told : (s.waiter wait).notified = true) :
    Once { s with place := Function.update s.place f .outside } := by
  have untold : ¬ s.Told f := by rcases reads with reads | reads <;> simp [State.Told, reads]
  obtain ⟨unqueued, quiet, untaken, unleft⟩ := h.executing flat here untold
  have inWait : (s.place f).wait = some wait := by rcases reads with reads | reads <;> rw [reads, Place.wait]
  have due : ∀ id, s.Due id → (s.waiter id).fiber ≠ f →
      State.Due { s with place := Function.update s.place f .outside } id := by
    intro id due other
    simpa only [State.Due, Function.update_of_ne other] using due
  constructor
  case inWait =>
    intro g id inside
    by_cases mine : g = f
    · simp [mine, Place.wait] at inside
    · simp only [Function.update_of_ne mine] at inside
      exact h.inWait g id inside
  case waiting =>
    intro id queued
    obtain ⟨inside, notTold⟩ := h.waiting id queued
    have other : (s.waiter id).fiber ≠ f := fun same => by
      rw [same, inWait, Option.some.injEq] at inside
      rw [← inside, told] at notTold
      cases notTold
    simpa only [Function.update_of_ne other] using ⟨inside, notTold⟩
  case lists => exact h.lists
  case due => exact fun id stored => due id (h.due id stored) (quiet id stored)
  case single =>
    intro g
    refine (h.single g).mono (fun v => driving_mono ?_ id) le_rfl id id
    rintro ⟨id, sleeps, tells⟩
    have other : g ≠ f := fun same => untold ⟨id, same ▸ sleeps, tells⟩
    exact ⟨id, by simpa only [Function.update_of_ne other] using sleeps, tells⟩
  case sent =>
    intro t queued id sentFor
    obtain ⟨job, isDue⟩ := h.sent t queued id sentFor
    exact ⟨job, due id isDue fun same => unqueued t queued (same ▸ job)⟩
  case taken =>
    intro v t g id takes work sentFor
    obtain ⟨same, isDue⟩ := h.taken v t g id takes work sentFor
    exact ⟨same, due id isDue fun mine => untaken v (mine ▸ same ▸ takes)⟩
  case plain =>
    intro v g left isPlain
    by_cases mine : g = f
    · simp [mine]
    · simpa only [Function.update_of_ne mine] using h.plain v g left isPlain
  case asleep =>
    intro v g id left exit notTold
    by_cases mine : g = f
    · exact absurd (.inr ⟨id, exit, notTold⟩) (unleft v (mine ▸ left))
    · simpa only [Function.update_of_ne mine] using h.asleep v g id left exit notTold
  case exits => exact h.exits
  case executes =>
    intro g id inside
    by_cases mine : g = f
    · simp [mine] at inside
    · simp only [Function.update_of_ne mine] at inside
      exact h.executes g id inside

theorem Once.checked (h : Once s) (flat : Flat s.run) (here : s.current w = some f)
    (reads : s.place f = .first wait ∨ s.place f = .yielded wait) (notTold : (s.waiter wait).notified = false) :
    Once { s with place := Function.update s.place f (.sleeping wait) } := by
  have untold : ¬ s.Told f := by rcases reads with reads | reads <;> simp [State.Told, reads]
  obtain ⟨-, -, -, unleft⟩ := h.executing flat here untold
  have inWait : (s.place f).wait = some wait := by rcases reads with reads | reads <;> rw [reads, Place.wait]
  have waits : ∀ g, (Function.update s.place f (.sleeping wait) g).wait = (s.place g).wait := fun g => by
    by_cases mine : g = f
    · rw [mine, Function.update_self, inWait, Place.wait]
    · rw [Function.update_of_ne mine]
  have due : ∀ id, s.Due id → State.Due { s with place := Function.update s.place f (.sleeping wait) } id := by
    intro id due
    have other : (s.waiter id).fiber ≠ f := fun same => by
      have inside := due.wait
      rw [same, inWait, Option.some.injEq] at inside
      rw [inside, due.1] at notTold
      cases notTold
    simpa only [State.Due, Function.update_of_ne other] using due
  constructor
  case inWait => exact fun g id inside => h.inWait g id (waits g ▸ inside)
  case waiting =>
    intro id queued
    simpa only [waits] using h.waiting id queued
  case lists => exact h.lists
  case due => exact fun id stored => due id (h.due id stored)
  case single =>
    intro g
    refine (h.single g).mono (fun v => driving_mono ?_ id) le_rfl id id
    rintro ⟨id, sleeps, tells⟩
    have other : g ≠ f := fun same => untold ⟨id, same ▸ sleeps, tells⟩
    exact ⟨id, by simpa only [Function.update_of_ne other] using sleeps, tells⟩
  case sent => exact fun t queued id sentFor => (h.sent t queued id sentFor).imp_right (due id)
  case taken => exact fun v t g id takes work sentFor => (h.taken v t g id takes work sentFor).imp_right (due id)
  case plain =>
    intro v g left isPlain
    by_cases mine : g = f
    · exact absurd (.inl isPlain) (unleft v (mine ▸ left))
    · simpa only [Function.update_of_ne mine] using h.plain v g left isPlain
  case asleep =>
    intro v g id left exit isUntold
    by_cases mine : g = f
    · exact absurd (.inr ⟨id, exit, isUntold⟩) (unleft v (mine ▸ left))
    · simpa only [Function.update_of_ne mine] using h.asleep v g id left exit isUntold
  case exits => exact h.exits
  case executes =>
    intro g id inside
    by_cases mine : g = f
    · exact ⟨w, mine ▸ here⟩
    · simp only [Function.update_of_ne mine] at inside
      exact h.executes g id inside

theorem Once.registered (h : Once s) (flat : Flat s.run) (here : s.current w = some f) (outside : s.place f = .outside)
    (threadId : Worker) :
    Once { s with place := Function.update s.place f (.first s.waits),
                  waiter := Function.update s.waiter s.waits { fiber := f, threadId }, waits := s.waits + 1,
                  waiters := s.waiters ++ [s.waits] } := by
  have untold : ¬ s.Told f := by simp [State.Told, outside]
  obtain ⟨-, -, -, unleft⟩ := h.executing flat here untold
  have old : ∀ id, (s.place (s.waiter id).fiber).wait = some id → id ≠ s.waits := fun id inside =>
    Nat.ne_of_lt (h.inWait _ id inside).1
  have queuedOld : ∀ id, id ∈ s.waiters ∨ id ∈ s.popped → id ≠ s.waits := fun id queued =>
    old id (h.waiting id queued).1
  have other : ∀ id, (s.place (s.waiter id).fiber).wait = some id → (s.waiter id).fiber ≠ f := by
    intro id inside same
    rw [same, outside] at inside
    cases inside
  have due : ∀ id, s.Due id → State.Due { s with
      place := Function.update s.place f (.first s.waits),
      waiter := Function.update s.waiter s.waits { fiber := f, threadId }, waits := s.waits + 1,
      waiters := s.waiters ++ [s.waits] } id := by
    intro id due
    simpa only [State.Due, Function.update_of_ne (old id due.wait), Function.update_of_ne (other id due.wait)] using due
  have alive : s.run.Exists f ∧ s.run.state f ≠ .term := by
    obtain ⟨work, pc, same⟩ := flat.at_code here
    refine ⟨flat.known.held w f (by simp [pc, Run.Pc.mentions]), fun dead => ?_⟩
    exact ((h.single f).ended dead).2.2 w (flat.drives_code here untold)
  constructor
  case inWait =>
    intro g id inside
    by_cases mine : g = f
    · subst mine
      simp only [Function.update_self, Place.wait, Option.some.injEq] at inside
      subst inside
      exact ⟨Nat.lt_succ_self _, by simp, alive⟩
    · simp only [Function.update_of_ne mine] at inside
      obtain ⟨below, fiber, rest⟩ := h.inWait g id inside
      exact ⟨Nat.lt_succ_of_lt below, by simpa only [Function.update_of_ne (Nat.ne_of_lt below)] using fiber, rest⟩
  case waiting =>
    intro id queued
    by_cases new : id = s.waits
    · simp [new, Place.wait]
    · have before : id ∈ s.waiters ∨ id ∈ s.popped := by simpa [new] using queued
      have inside := h.waiting id before
      simpa only [Function.update_of_ne new, Function.update_of_ne (other id inside.1)] using inside
  case lists =>
    refine ⟨?_, h.lists.2⟩
    have fresh : s.waits ∉ s.waiters ++ s.popped := fun queued =>
      queuedOld s.waits (List.mem_append.1 queued) rfl
    rw [List.append_assoc]
    refine (List.perm_append_comm_assoc ..).nodup_iff.2 (List.nodup_cons.2 ⟨fresh, h.lists.1⟩)
  case due => exact fun id stored => due id (h.due id stored)
  case single =>
    intro g
    have tells : s.Told g → State.Told { s with
        place := Function.update s.place f (.first s.waits),
        waiter := Function.update s.waiter s.waits { fiber := f, threadId }, waits := s.waits + 1,
        waiters := s.waiters ++ [s.waits] } g := by
      rintro ⟨id, sleeps, tells⟩
      have apart : g ≠ f := fun same => untold ⟨id, same ▸ sleeps, tells⟩
      have below := (h.inWait g id (by rw [sleeps, Place.wait])).1
      exact ⟨id, by simpa only [Function.update_of_ne apart] using sleeps,
        by simpa only [Function.update_of_ne (Nat.ne_of_lt below)] using tells⟩
    refine (h.single g).mono (fun v => driving_mono tells ?_) le_rfl ?_ id
    · rintro (plain | ⟨id, exit, notTold⟩)
      · exact .inl plain
      · refine .inr ⟨id, exit, ?_⟩
        simpa only [Function.update_of_ne (Nat.ne_of_lt (h.exits v id exit))] using notTold
    · rintro ⟨id, stored, same⟩
      exact ⟨id, stored, by simpa only [Function.update_of_ne (old id (h.due id stored).wait)] using same⟩
  case sent =>
    intro t queued id sentFor
    obtain ⟨job, isDue⟩ := h.sent t queued id sentFor
    exact ⟨by simpa only [Function.update_of_ne (old id isDue.wait)] using job, due id isDue⟩
  case taken =>
    intro v t g id takes work sentFor
    obtain ⟨same, isDue⟩ := h.taken v t g id takes work sentFor
    exact ⟨by simpa only [Function.update_of_ne (old id isDue.wait)] using same, due id isDue⟩
  case plain =>
    intro v g left isPlain
    by_cases mine : g = f
    · exact absurd (.inl isPlain) (unleft v (mine ▸ left))
    · simpa only [Function.update_of_ne mine] using h.plain v g left isPlain
  case asleep =>
    intro v g id left exit notTold
    simp only [Function.update_of_ne (Nat.ne_of_lt (h.exits v id exit))] at notTold
    by_cases mine : g = f
    · exact absurd (.inr ⟨id, exit, notTold⟩) (unleft v (mine ▸ left))
    · simpa only [Function.update_of_ne mine] using h.asleep v g id left exit notTold
  case exits => exact fun v id exit => Nat.lt_succ_of_lt (h.exits v id exit)
  case executes =>
    intro g id inside
    by_cases mine : g = f
    · exact ⟨w, mine ▸ here⟩
    · simp only [Function.update_of_ne mine] at inside
      exact h.executes g id inside

theorem Once.popping (h : Once s) (queued : wait ∈ s.waiters) :
    Once { s with waiters := s.waiters.erase wait, popped := wait :: s.popped } := by
  refine { h with waiting := fun id mem => h.waiting id ?_, lists := ⟨?_, h.lists.2⟩ }
  · rcases mem with mem | mem
    · exact .inl (List.mem_of_mem_erase mem)
    · rcases List.mem_cons.1 mem with rfl | mem
      · exact .inl queued
      · exact .inr mem
  · have moved : (s.waiters.erase wait ++ wait :: s.popped).Perm (s.waiters ++ s.popped) :=
      List.perm_middle.trans ((List.perm_cons_erase queued).symm.append_right _)
    exact moved.nodup_iff.2 h.lists.1

/-- A store that finds its fiber asleep leaves the notification as the only
thing that has the fiber run on. -/
theorem Once.storing (h : Once s) (flat : Flat s.run) (cond : WakesAsleep s (.store wait)) (queued : wait ∈ s.popped) :
    Once { s with popped := s.popped.erase wait, stored := wait :: s.stored,
                  waiter := Function.update s.waiter wait { s.waiter wait with notified := true } } := by
  obtain ⟨asleep, unqueued, untaken⟩ := cond
  obtain ⟨inside, notTold⟩ := h.waiting wait (.inr queued)
  have fibers : ∀ id, (Function.update s.waiter wait { s.waiter wait with notified := true } id).fiber =
      (s.waiter id).fiber := fun id => by
    by_cases mine : id = wait <;> simp [mine]
  have told : ∀ id, (s.waiter id).notified = true →
      (Function.update s.waiter wait { s.waiter wait with notified := true } id).notified = true := fun id told => by
    by_cases mine : id = wait <;> simp [mine, told]
  have untold : ∀ id, (Function.update s.waiter wait { s.waiter wait with notified := true } id).notified = false →
      id ≠ wait ∧ (s.waiter id).notified = false := fun id notTold => by
    by_cases mine : id = wait
    · simp [mine] at notTold
    · exact ⟨mine, by simpa only [Function.update_of_ne mine] using notTold⟩
  have due : ∀ id, s.Due id → State.Due { s with
      popped := s.popped.erase wait, stored := wait :: s.stored,
      waiter := Function.update s.waiter wait { s.waiter wait with notified := true } } id := fun id due => by
    simpa only [State.Due, fibers] using And.intro (told id due.1) due.2
  have unstored : wait ∉ s.stored := fun stored => by
    rw [(h.due wait stored).1] at notTold
    cases notTold
  have stands : s.place (s.waiter wait).fiber = .sleeping wait ∨ s.place (s.waiter wait).fiber = .yielded wait := by
    cases place : s.place (s.waiter wait).fiber with
    | outside => simp [place, Place.wait] at inside
    | first id =>
      obtain ⟨w, here⟩ := h.executes _ id (.inl place)
      simp [asleep w here] at place
    | sleeping id =>
      rw [place, Place.wait, Option.some.injEq] at inside
      exact .inl (by rw [inside])
    | yielded id =>
      rw [place, Place.wait, Option.some.injEq] at inside
      exact .inr (by rw [inside])
  have parts := (List.nodup_append.1 h.lists.1)
  constructor
  case inWait =>
    intro g id inside
    simpa only [fibers] using h.inWait g id inside
  case waiting =>
    intro id mem
    have other : id ≠ wait := by
      rintro rfl
      rcases mem with mem | mem
      · exact parts.2.2 id mem id queued rfl
      · exact (List.Nodup.not_mem_erase parts.2.1) mem
    have before := h.waiting id (mem.imp_right List.mem_of_mem_erase)
    simpa only [Function.update_of_ne other] using before
  case lists =>
    exact ⟨h.lists.1.sublist ((List.Sublist.refl _).append List.erase_sublist),
      List.nodup_cons.2 ⟨unstored, h.lists.2⟩⟩
  case due =>
    intro id stored
    rcases List.mem_cons.1 stored with rfl | stored
    · exact ⟨by simp, by simpa only [fibers] using stands⟩
    · exact due id (h.due id stored)
  case single =>
    intro g
    have still : ∀ v, State.Unwoken { s with
        popped := s.popped.erase wait, stored := wait :: s.stored,
        waiter := Function.update s.waiter wait { s.waiter wait with notified := true } } v → s.Unwoken v := by
      rintro v (plain | ⟨id, exit, notTold⟩)
      · exact .inl plain
      · exact .inr ⟨id, exit, (untold id notTold).2⟩
    by_cases mine : (s.waiter wait).fiber = g
    · subst mine
      refine .undriven (fun v drives => ?_) (h.single _).atMost (fun _ => List.count_eq_zero.2 unqueued)
        fun dead => absurd dead (h.inWait _ wait inside).2.2.2
      rcases State.Drives.cases drives flat with takes | ⟨here, notTold⟩ | ⟨leaves, unwoken⟩
      · exact untaken v takes
      · exact notTold ⟨wait, asleep v here, by simp⟩
      · rcases unwoken with plain | ⟨id, exit, notTold⟩
        · have outside := h.plain v _ leaves plain
          rw [outside] at inside
          cases inside
        · obtain ⟨other, notTold⟩ := untold id notTold
          have yielded := h.asleep v _ id leaves exit notTold
          rw [yielded] at inside
          exact other (Option.some.inj inside)
    · refine (h.single g).mono (fun v => driving_mono ?_ (still v)) le_rfl ?_ id
      · rintro ⟨id, sleeps, tells⟩
        exact ⟨id, sleeps, told id tells⟩
      · rintro ⟨id, stored, same⟩
        simp only [fibers] at same
        rcases List.mem_cons.1 stored with rfl | stored
        · exact absurd same mine
        · exact ⟨id, stored, same⟩
  case sent =>
    intro t mem id sentFor
    obtain ⟨job, isDue⟩ := h.sent t mem id sentFor
    exact ⟨by simpa only [fibers] using job, due id isDue⟩
  case taken =>
    intro v t g id takes work sentFor
    obtain ⟨same, isDue⟩ := h.taken v t g id takes work sentFor
    exact ⟨by simpa only [fibers] using same, due id isDue⟩
  case plain => exact h.plain
  case asleep => exact fun v g id left exit notTold => h.asleep v g id left exit (untold id notTold).2
  case exits => exact h.exits
  case executes => exact h.executes

/-- A task is queued for a fiber that nothing else has run on, or for a callback. -/
theorem Once.pushed (h : Once s) {run : Run.State} {task : Task} (stored : List Nat) (pcs : run.pc = s.run.pc)
    (tasks : run.tasks = s.run.tasks ++ [task]) (known : ∀ f, s.run.Exists f → run.Exists f)
    (states : ∀ f, run.state f = .term → s.run.state f = .term) (sub : stored.Sublist s.stored)
    (sent : ∀ id, task.sentFor = some id → task.job = .fiber (s.waiter id).fiber ∧ s.Due id)
    (alone : ∀ f, task.job = .fiber f → (∀ v, ¬ s.Drives v f) ∧ s.queued.count f = 0 ∧
      (∀ id ∈ stored, (s.waiter id).fiber ≠ f) ∧ run.state f ≠ .term) :
    Once { s with run, stored } := by
  constructor
  case inWait =>
    intro f id inside
    obtain ⟨below, fiber, exist, alive⟩ := h.inWait f id inside
    exact ⟨below, fiber, known f exist, mt (states f) alive⟩
  case waiting => exact h.waiting
  case lists => exact ⟨h.lists.1, h.lists.2.sublist sub⟩
  case due => exact fun id mem => h.due id (sub.subset mem)
  case single =>
    intro f
    have fewer : ∀ v, State.Drives { s with run, stored } v f → s.Drives v f := fun v drives => by
      simp only [State.Drives, pcs] at drives
      exact drives
    have pending : State.Pending { s with run, stored } f → s.Pending f := by
      rintro ⟨id, mem, same⟩
      exact ⟨id, sub.subset mem, same⟩
    have queue : (s.run.tasks ++ [task]).filterMap fiberOf = s.queued ++ (fiberOf task).toList := by
      rw [List.filterMap_append, State.queued]
      cases job : fiberOf task <;> simp [job]
    have count : State.queued { s with run, stored } = s.queued ++ (fiberOf task).toList := by
      rw [State.queued, tasks, queue]
    rw [count, List.count_append]
    by_cases mine : task.job = .fiber f
    · obtain ⟨idle, empty, quiet, alive⟩ := alone f mine
      refine .undriven (fun v drives => idle v (fewer v drives)) ?_ ?_ fun dead => absurd dead alive
      · simp [empty, fiberOf_eq_some.2 mine]
      · rintro ⟨id, mem, same⟩
        exact absurd same (quiet id mem)
    · have other : (fiberOf task).toList.count f = 0 := by
        rw [List.count_eq_zero, Option.mem_toList]
        exact fun same => mine (fiberOf_eq_some.1 same)
      exact (h.single f).mono fewer (by rw [other]; exact le_rfl) pending (states f)
  case sent =>
    intro t queued id sentFor
    simp only [tasks, List.mem_append, List.mem_singleton] at queued
    rcases queued with queued | rfl
    · exact h.sent t queued id sentFor
    · exact sent id sentFor
  case taken =>
    intro v t f id takes work sentFor
    simp only [State.Takes, pcs] at takes work
    exact h.taken v t f id takes work sentFor
  case plain =>
    intro v f left isPlain
    simp only [State.Leaves, pcs] at left
    exact h.plain v f left isPlain
  case asleep =>
    intro v f id left exit notTold
    simp only [State.Leaves, pcs] at left
    exact h.asleep v f id left exit notTold
  case exits => exact h.exits
  case executes =>
    intro f id inside
    obtain ⟨v, here⟩ := h.executes f id inside
    exact ⟨v, by simpa only [State.current, pcs] using here⟩

theorem Once.move {s' : State} {l : Label} (h : Once s) (flat : Flat s.run) (cond : WakesAsleep s l)
    (move : Moves s l s') : Once s' := by
  cases move with
  | submittedFiber options born run made queued =>
    obtain ⟨idle, empty, quiet⟩ := h.unborn flat
    cases made with
    | turned l v before after here turns => cases turns
    | created =>
      cases queued with
      | turned l v before after here turns => cases turns
      | scheduled _ _ known =>
        refine h.pushed s.stored rfl rfl (fun f => Nat.lt_succ_of_lt) (fun f dead => ?_) (.refl _) nofun ?_
        · by_cases new : f = s.run.created <;> simp_all
        · intro f job
          cases job
          exact ⟨idle _, empty, fun id mem same => quiet ⟨id, mem, same⟩, by simp⟩
  | submittedCallback callback options run queued =>
    cases queued with
    | turned l v before after here turns => cases turns
    | scheduled _ _ known =>
      exact h.pushed s.stored rfl rfl (fun _ => id) (fun _ => id) (.refl _) nofun nofun
  | configured l run change =>
    obtain ⟨policy, config, n, rfl⟩ := change
    exact { h with }
  | ran w run moved elsewhere => exact h.ran flat cond moved (fun _ _ => rfl) (.inl ⟨rfl, elsewhere⟩)
  | tested w t f here run moved =>
    exact h.ran flat cond moved (fun v other => Function.update_of_ne other ..) (.inr (Function.update_self ..))
  | yielded w f here outside run moved =>
    obtain ⟨work, pc, same⟩ := flat.at_code here
    cases moved with
    | yielded _ work' x rest here' running =>
      cases pc.symm.trans here'
      exact h.left flat pc rfl rfl rfl (fun g other => Function.update_of_ne other ..) (fun _ _ => rfl)
        (.inl ⟨rfl, outside, .inl ⟨rfl, by simp⟩⟩)
    | turned l v before after here' turns =>
      cases turns
      cases pc.symm.trans here'
      exact h.left flat pc rfl rfl rfl (fun _ _ => rfl) (fun _ _ => rfl) (.inl ⟨rfl, outside, .inl ⟨rfl, id⟩⟩)
  | finished w f here outside run moved =>
    obtain ⟨work, pc, same⟩ := flat.at_code here
    cases moved with
    | finished _ work' x rest here' =>
      cases pc.symm.trans here'
      exact h.left flat pc rfl rfl rfl (fun g other => Function.update_of_ne other ..) (fun _ _ => rfl)
        (.inl ⟨rfl, outside, .inr rfl⟩)
    | turned l v before after here' turns => cases turns
  | registered w f threadId here outside => exact h.registered flat here outside threadId
  | passed w f wait here reads told => exact h.passed flat here reads told
  | checked w f wait here reads untold => exact h.checked flat here reads untold
  | slept w f wait here sleeps run moved =>
    obtain ⟨work, pc, same⟩ := flat.at_code here
    have alive := (h.inWait f wait (by rw [sleeps, Place.wait])).2.2.2
    cases moved with
    | yielded _ work' x rest here' running =>
      cases pc.symm.trans here'
      exact h.left flat pc rfl rfl rfl (fun g other => Function.update_of_ne other ..)
        (fun g other => Function.update_of_ne other ..) (.inr ⟨wait, sleeps, by simp, rfl, by simp⟩)
    | turned l v before after here' turns =>
      cases turns
      cases pc.symm.trans here'
      exact h.left flat pc rfl rfl rfl (fun _ _ => rfl) (fun g other => Function.update_of_ne other ..)
        (.inr ⟨wait, sleeps, by simp, rfl, alive⟩)
  | popped wait queued => exact h.popping queued
  | stored wait queued => exact h.storing flat cond queued
  | scheduled wait queued run pushed =>
    have isDue := h.due wait queued
    have before := h.single (s.waiter wait).fiber
    have pending : s.Pending (s.waiter wait).fiber := ⟨wait, queued, rfl⟩
    cases pushed with
    | turned l v before after here turns => cases turns
    | scheduled _ _ known =>
      refine h.pushed (s.stored.erase wait) rfl rfl (fun _ => id) (fun _ => id) List.erase_sublist ?_ ?_
      · rintro id ⟨⟩
        exact ⟨rfl, isDue⟩
      · intro f job
        cases job
        refine ⟨fun v drives => (before.driven v drives).2 pending, before.told pending, fun id mem same => ?_, ?_⟩
        · -- a fiber is in one wait at a time
          have other := (h.due id (List.mem_of_mem_erase mem)).wait
          rw [same, isDue.wait, Option.some.injEq] at other
          exact List.Nodup.not_mem_erase h.lists.2 (other ▸ mem)
        · exact fun dead => (before.ended dead).2.1 pending

end Waits

theorem once_init : Once machine.init := by
  constructor
  case single =>
    intro f
    exact .undriven (fun v => by simp [State.Drives, machine, Run.machine, driving]) (Nat.zero_le 1) (fun _ => rfl)
      fun dead => by simp [machine, Run.machine] at dead
  all_goals simp [machine, Run.machine, Place.wait, State.Takes, State.Leaves]

theorem once_of_reachIf {s : State} (h : machine.ReachIf WakesAsleep s) : Once s :=
  h.invariant_with (fun s => Flat s.run) (fun _ reached => flat_of_reach reached.reach) once_init
    fun _ _ _ flat inv cond e _ => inv.move flat cond (step_moves e)

/-- No wake-up is doubled or stale: a fiber is queued once, not while it runs
past its wait nor after its end, and whoever took it for a wait resumes it
there. -/
structure State.NeverStale (s : State) : Prop where
  once : s.queued.Nodup
  past : ∀ w f, s.current w = some f → f ∈ s.queued → s.Told f
  dead : ∀ f, s.run.state f = .term → f ∉ s.queued
  sent : ∀ t ∈ s.run.tasks, ∀ wait, t.sentFor = some wait →
    ∃ f, t.job = .fiber f ∧ (s.place f = .sleeping wait ∨ s.place f = .yielded wait)
  resumes : ∀ w t f wait, s.run.pc w = .resume (.task t f) → t.sentFor = some wait → s.place f = .yielded wait

theorem Once.neverStale {s : State} (h : Once s) (flat : Flat s.run) : s.NeverStale where
  once := List.nodup_iff_count_le_one.2 fun f => (h.single f).atMost
  past w f here queued := by
    by_contra untold
    have empty := ((h.single f).driven w (flat.drives_code here untold)).1
    exact List.count_eq_zero.1 empty queued
  dead f dead := List.count_eq_zero.1 ((h.single f).ended dead).1
  sent t queued wait sentFor := by
    obtain ⟨job, -, stands⟩ := h.sent t queued wait sentFor
    exact ⟨_, job, stands⟩
  resumes w t f wait pc sentFor := by
    obtain ⟨takes, work⟩ := State.takes_task_iff.2 (.inr (.inr pc))
    obtain ⟨rfl, -, stands⟩ := h.taken w t f wait takes work sentFor
    refine stands.resolve_left fun sleeping => ?_
    -- a fiber about to `yield` holds its mutex, so nobody is about to resume it
    obtain ⟨v, here⟩ := h.executes _ wait (.inr sleeping)
    obtain ⟨work', pc', same⟩ := flat.at_code here
    have mine := flat.guarded w _ (by rw [pc, Run.Pc.guards, Run.Work.fiber])
    have theirs := flat.guarded v _ (by rw [pc', Run.Pc.guards, same])
    cases Option.some.inj (mine.symm.trans theirs)
    simp [pc] at pc'

/-- **Main theorem.** Where every store finds its fiber past a read of
`notified` and neither queued nor taken, and `run` queues no fiber again that
was woken, wake-ups are never stale or doubled. -/
theorem never_stale (s : State) (h : machine.ReachIf WakesAsleep s) : s.NeverStale :=
  (once_of_reachIf h).neverStale (flat_of_reach h.reach)

/-- A store whose fiber nobody executes or took. -/
theorem wakesAsleep_store {s : State} {wait : Nat}
    (away : ∀ w, s.run.pc w = .pick ∨ ∃ work nest, s.run.pc w = .inside work nest .leaving)
    (unqueued : (s.waiter wait).fiber ∉ s.queued) : WakesAsleep s (.store wait) := by
  refine ⟨fun w here => ?_, unqueued, fun w takes => ?_⟩
  · rcases away w with pc | ⟨work, nest, pc⟩ <;> simp [State.current, pc] at here
  · rcases away w with pc | ⟨work, nest, pc⟩ <;> simp [State.Takes, pc] at takes

/-- Only `MLFQ` queues a fiber again. -/
theorem wakesAsleep_fifo {s : State} {w : Worker} (fifo : s.run.policy = .fifo) : WakesAsleep s (.run w) := by
  unfold WakesAsleep
  dsimp only
  split
  · intro requeues
    cases fifo.symm.trans requeues.1
  · trivial

/-- A fiber waits, is notified while it switches out, and is resumed past its
wait. -/
theorem never_stale_asleep : ∃ s, machine.ReachIf WakesAsleep s ∧ s.current 2 = some 0 ∧ s.place 0 = .outside ∧
    s.NeverStale := by
  have next {s s' : State} (h : machine.ReachIf WakesAsleep s) (l : Label) (c : WakesAsleep s l)
      (e : step s l = some s') : machine.ReachIf WakesAsleep s' := h.step c e
  -- until the store only worker 1 moves
  have alone {s s' : State} (h : machine.ReachIf WakesAsleep s ∧ ∀ w, w ≠ 1 → s.run.pc w = .pick) (l : Label)
      (c : WakesAsleep s l) (own : ∀ w, l.worker = some w → w = 1) (e : step s l = some s') :
      machine.ReachIf WakesAsleep s' ∧ ∀ w, w ≠ 1 → s'.run.pc w = .pick :=
    ⟨h.1.step c e, fun w other => ((step_moves e).others (mt (own w) other)).1.trans (h.2 w other)⟩
  have mine : ∀ w, some (1 : Worker) = some w → w = 1 := fun w same => (Option.some.inj same).symm
  have resumed := alone (alone (alone (alone (alone ⟨.init, fun _ _ => rfl⟩ (.submitFiber {}) trivial nofun rfl)
    (.run 1) trivial mine rfl) (.run 1) trivial mine rfl) (.run 1) trivial mine rfl) (.run 1) trivial mine rfl
  have left := alone (alone (alone (alone resumed (.wait 1 (-1)) trivial mine rfl) (.check 1) trivial mine rfl)
    (.sleep 1) trivial mine rfl) (.pop 0) trivial nofun rfl
  have told := next left.1 (.store 0) (wakesAsleep_store (fun w => ?_) (by decide)) rfl
  · have sent := next (next (next (next told (.schedule 0) trivial rfl) (.run 1) trivial rfl) (.run 1) trivial rfl)
      (.run 1) (wakesAsleep_fifo rfl) rfl
    have back := next (next (next (next sent (.run 2) trivial rfl) (.run 2) trivial rfl) (.run 2) trivial rfl)
      (.run 2) trivial rfl
    have passed := next back (.check 2) trivial rfl
    exact ⟨_, passed, rfl, rfl, never_stale _ passed⟩
  · by_cases same : w = 1
    · subst same
      exact .inr ⟨_, _, rfl⟩
    · exact .inl (left.2 w same)

/-- The waiter is notified before its first read and runs on; the task that
`NotifyWaiter` schedules afterwards is stale. -/
theorem stale_wakeup : ¬ ∀ s, machine.Reach s → s.NeverStale := fun h => by
  have reached := reach_of_exec (rfl : machine.exec machine.init
    [.submitFiber {}, .run 1, .run 1, .run 1, .run 1, .wait 1 (-1), .pop 0, .store 0, .check 1, .schedule 0] = some _)
  obtain ⟨wait, sleeps, -⟩ := (h _ reached).past 1 0 rfl (by decide)
  cases sleeps

end Mycoroutine.Wakeup
