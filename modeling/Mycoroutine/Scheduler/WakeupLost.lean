import Mycoroutine.Scheduler.WakeupOnce

/-!
# No lost wake-up

The waits with spurious resumes: anybody may queue any fiber that exists, at any
time. A fiber that is suspended in a wait that was notified still has a
wake-up: the notifier has yet to schedule it, it is queued, or a worker took it
and has not resumed it.
-/

namespace Mycoroutine.Wakeup
set_option autoImplicit false
open Interleave Machine

/-- A step of the waits, or a task for a fiber that nobody asked to wake. -/
inductive Spurious where
  | own (l : Label)
  | submit (f : Ref) (options : ScheduleOptions)

def spuriousStep (s : State) : Spurious → Option State
  | .own l => step s l
  | .submit f options => s.lift (.schedule (.fiber f) { options with sentFor := none })

def spurious : Machine State Spurious where
  init := machine.init
  step := spuriousStep

/-- A worker took a task of the fiber and has not resumed it. -/
def State.Picked (s : State) (w : Worker) (f : Ref) : Prop :=
  ∃ t, s.run.pc w = .lock (.task t f) ∨ s.run.pc w = .test t f ∨ s.run.pc w = .resume (.task t f)

/-- What makes a fiber read `notified` again. -/
def State.Woken (s : State) (f : Ref) (wait : Nat) : Prop :=
  (∃ t ∈ s.run.tasks, t.job = .fiber f) ∨ (∃ w, s.Picked w f) ∨ wait ∈ s.stored

/-- The fiber read `notified` as unset and did not read it again. -/
def State.Suspends (s : State) (f : Ref) (wait : Nat) : Prop :=
  s.place f = .sleeping wait ∨ s.place f = .yielded wait ∧ ∀ w, s.current w ≠ some f

structure Unlost (s : State) : Prop where
  alive : ∀ w f, s.current w = some f → s.run.state f ≠ .term
  inWait : ∀ f wait, (s.place f).wait = some wait →
    wait < s.waits ∧ (s.waiter wait).fiber = f ∧ s.run.state f ≠ .term
  executes : ∀ f wait, s.place f = .first wait ∨ s.place f = .sleeping wait → ∃ w, s.current w = some f
  woken : ∀ f wait, s.Suspends f wait → (s.waiter wait).notified = true → s.Woken f wait

section Steps

variable {s s' : State} {w : Worker} {f : Ref} {wait : Nat}

theorem suspends_wait (h : s.Suspends f wait) : (s.place f).wait = some wait := by
  rcases h with place | ⟨place, -⟩ <;> rw [place, Place.wait]

theorem unlost_init : Unlost machine.init where
  alive w f here := by simp [State.current, machine, Run.machine] at here
  inWait f wait inside := by simp [machine, Place.wait] at inside
  executes f wait reads := by simp [machine] at reads
  woken f wait suspends := by simp [machine, State.Suspends] at suspends

theorem State.current_pc (here : s.current w = some f) : ∃ work rest, s.run.pc w = .inside work (f :: rest) .code := by
  unfold State.current at here
  split at here
  · cases here
    exact ⟨_, _, ‹_›⟩
  · cases here

/-- A step of `run` keeps what wakes a fiber, or resumes it. -/
theorem State.Woken.ran {run : Run.State} {exit : Worker → Exit} (h : s.Woken f wait)
    (moved : Run.Moves s.run (.run w) run) (alive : s.run.state f ≠ .term) :
    State.Woken { s with run, exit } f wait ∨
      (∃ t, s.run.pc w = .resume (.task t f)) ∧ ∃ work, run.pc w = .inside work [f] .code := by
  rcases h with ⟨t, queued, job⟩ | ⟨v, t, picked⟩ | stored
  · cases moved with
    | pickedFiber w here pre post t' g job' queue fits =>
      rw [queue, List.mem_append, List.mem_cons] at queued
      rcases queued with before | rfl | after
      · exact .inl (.inl ⟨t, List.mem_append_left _ before, job⟩)
      · cases job'.symm.trans job
        exact .inl (.inr (.inl ⟨w, t, .inl (Function.update_self ..)⟩))
      · exact .inl (.inl ⟨t, List.mem_append_right _ after, job⟩)
    | pickedCallback w here pre post t' cb job' queue fits =>
      rw [queue, List.mem_append, List.mem_cons] at queued
      rcases queued with before | rfl | after
      · exact .inl (.inl ⟨t, List.mem_append_left _ before, job⟩)
      · cases job'.symm.trans job
      · exact .inl (.inl ⟨t, List.mem_append_right _ after, job⟩)
    | requeued => exact .inl (.inl ⟨t, List.mem_append_left _ queued, job⟩)
    | _ => exact .inl (.inl ⟨t, queued, job⟩)
  · by_cases other : v = w
    · subst other
      rcases picked with pc | pc | pc
      · cases moved with
        | lockedTask _ t' g here free =>
          cases pc.symm.trans here
          exact .inl (.inr (.inl ⟨v, t, .inr (.inl (Function.update_self ..))⟩))
        | idle => exact .inl (.inr (.inl ⟨v, t, .inl pc⟩))
        | turned l u before after here turns => cases turns <;> cases pc.symm.trans here
        | _ => simp_all
      · cases moved with
        | turned l u before after here turns =>
          cases turns <;> cases pc.symm.trans here
          · contradiction
          · exact .inl (.inr (.inl ⟨v, t, .inr (.inr (Function.update_self ..))⟩))
        | _ => simp_all
      · cases moved with
        | resumed _ work here ready =>
          cases pc.symm.trans here
          exact .inr ⟨⟨t, pc⟩, _, Function.update_self ..⟩
        | turned l u before after here turns => cases turns <;> cases pc.symm.trans here
        | _ => simp_all
    · refine .inl (.inr (.inl ⟨v, t, ?_⟩))
      rwa [moved.others (by simpa [Run.Label.worker] using Ne.symm other)]
  · exact .inl (.inr (.inr stored))

theorem Unlost.ran {run : Run.State} {exit : Worker → Exit} (h : Unlost s) (flat : Flat s.run)
    (moved : Run.Moves s.run (.run w) run) : Unlost { s with run, exit } := by
  -- who executes a fiber goes on with it
  have goes : ∀ v f, s.current v = some f → State.current { s with run, exit } v = some f := by
    intro v f here
    obtain ⟨work, pc, -⟩ := flat.at_code here
    have other : v ≠ w := by
      rintro rfl
      exact moved.run_outside _ _ pc
    have same : run.pc v = s.run.pc v := moved.others (by simpa [Run.Label.worker] using other.symm)
    simpa only [State.current, same] using here
  constructor
  case alive =>
    intro v f here
    by_cases mine : v = w
    · subst mine
      obtain ⟨work, nest, pc⟩ := State.current_pc here
      exact moved.run_enters (fun work nest phase pc => (flat.nests v work nest phase pc).1) pc
    · have same : run.pc v = s.run.pc v := moved.others (by simpa [Run.Label.worker] using Ne.symm mine)
      exact mt moved.run_alive (h.alive v f (by simpa only [State.current, same] using here))
  case inWait =>
    intro f wait inside
    obtain ⟨below, fiber, alive⟩ := h.inWait f wait inside
    exact ⟨below, fiber, mt moved.run_alive alive⟩
  case executes =>
    intro f wait reads
    obtain ⟨v, here⟩ := h.executes f wait reads
    exact ⟨v, goes v f here⟩
  case woken =>
    intro f wait suspends told
    have before : s.Suspends f wait := by
      refine suspends.imp_right fun away => ⟨away.1, fun v here => away.2 v (goes v f here)⟩
    have alive := (h.inWait f wait (suspends_wait before)).2.2
    rcases (h.woken f wait before told).ran moved alive with woken | ⟨⟨t, pc⟩, work, pc'⟩
    · exact woken
    · -- `w` resumed the fiber, so it was not about to `yield` elsewhere
      rcases suspends with sleeping | ⟨-, out⟩
      · obtain ⟨v, here⟩ := h.executes f wait (.inr sleeping)
        obtain ⟨work', code, same⟩ := flat.at_code here
        have mine := flat.guarded w f (by rw [pc, Run.Pc.guards, Run.Work.fiber])
        have theirs := flat.guarded v f (by rw [code, Run.Pc.guards, same])
        cases Option.some.inj (mine.symm.trans theirs)
        simp [pc] at code
      · exact absurd (State.current_of_pc (s := { s with run, exit }) pc') (out w)

/-- The executing fiber leaves: outside of a wait, or by the `yield` of one. -/
theorem Unlost.left {run : Run.State} {place : Ref → Place} {exit : Worker → Exit} (h : Unlost s) (flat : Flat s.run)
    {work : Run.Work} (pc : s.run.pc w = .inside work [f] .code)
    (pcs : run.pc = Function.update s.run.pc w (.inside work [f] .leaving)) (tasks : run.tasks = s.run.tasks)
    (states : ∀ g, g ≠ f → run.state g = s.run.state g) (places : ∀ g, g ≠ f → place g = s.place g)
    (how : place f = .outside ∨ ∃ wait, s.place f = .sleeping wait ∧ place f = .yielded wait ∧ run.state f ≠ .term) :
    Unlost { s with run, place, exit } := by
  have here := State.current_of_pc pc
  have others : ∀ v, v ≠ w → run.pc v = s.run.pc v := fun v other => by rw [pcs, Function.update_of_ne other]
  have goes : ∀ v g, g ≠ f → s.current v = some g → State.current { s with run, place, exit } v = some g := by
    intro v g apart there
    have other : v ≠ w := by
      rintro rfl
      exact apart (Option.some.inj (there.symm.trans here))
    simpa only [State.current, others v other] using there
  have woken : ∀ g wait, s.Woken g wait → State.Woken { s with run, place, exit } g wait := by
    rintro g wait (⟨t, queued, job⟩ | ⟨v, t, picked⟩ | stored)
    · exact .inl ⟨t, tasks ▸ queued, job⟩
    · have other : v ≠ w := by
        rintro rfl
        simp [pc] at picked
      exact .inr (.inl ⟨v, t, by simpa only [others v other] using picked⟩)
    · exact .inr (.inr stored)
  constructor
  case alive =>
    intro v g there
    have other : v ≠ w := by
      rintro rfl
      simp [State.current, pcs] at there
    have before : s.current v = some g := by simpa only [State.current, others v other] using there
    have apart : g ≠ f := fun same => other (flat.solo (same ▸ before) here)
    simpa only [states g apart] using h.alive v g before
  case inWait =>
    intro g wait inside
    by_cases mine : g = f
    · subst mine
      rcases how with outside | ⟨wait', sleeping, yielded, alive⟩
      · simp [outside, Place.wait] at inside
      · simp only [yielded, Place.wait, Option.some.injEq] at inside
        subst inside
        obtain ⟨below, fiber, -⟩ := h.inWait g wait' (by rw [sleeping, Place.wait])
        exact ⟨below, fiber, alive⟩
    · simp only [places g mine] at inside
      simpa only [states g mine] using h.inWait g wait inside
  case executes =>
    intro g wait reads
    have mine : g ≠ f := by
      rintro rfl
      rcases how with outside | ⟨wait', -, yielded, -⟩
      · simp [outside] at reads
      · simp [yielded] at reads
    simp only [places g mine] at reads
    obtain ⟨v, executes⟩ := h.executes g wait reads
    exact ⟨v, goes v g mine executes⟩
  case woken =>
    intro g wait suspends told
    refine woken g wait ?_
    by_cases mine : g = f
    · subst mine
      rcases how with outside | ⟨wait', sleeping, yielded, -⟩
      · simp [State.Suspends, outside] at suspends
      · have inside := suspends_wait suspends
        simp only [yielded, Place.wait, Option.some.injEq] at inside
        exact h.woken g wait (.inl (inside ▸ sleeping)) told
    · refine h.woken g wait ?_ told
      simp only [State.Suspends, places g mine] at suspends
      exact suspends.imp_right fun away => ⟨away.1, fun v there => away.2 v (goes v g mine there)⟩

/-- A task was queued, and the notifications it was queued for are no longer
pending. -/
theorem Unlost.pushed {run : Run.State} (h : Unlost s) {task : Task} (stored : List Nat) (pcs : run.pc = s.run.pc)
    (tasks : run.tasks = s.run.tasks ++ [task]) (states : ∀ f, run.state f = .term → s.run.state f = .term)
    (sent : ∀ id ∈ s.stored, id ∈ stored ∨ task.job = .fiber (s.waiter id).fiber) :
    Unlost { s with run, stored } := by
  constructor
  case alive =>
    intro v f here
    exact mt (states f) (h.alive v f (by simpa only [State.current, pcs] using here))
  case inWait => exact fun f id inside => (h.inWait f id inside).imp_right (And.imp_right (mt (states f)))
  case executes =>
    intro f id reads
    simpa only [State.current, pcs] using h.executes f id reads
  case woken =>
    intro f id suspends told
    have before : s.Suspends f id := by simpa only [State.Suspends, State.current, pcs] using suspends
    rcases h.woken f id before told with ⟨t, queued, job⟩ | ⟨v, t, picked⟩ | pending
    · exact .inl ⟨t, tasks ▸ List.mem_append_left _ queued, job⟩
    · exact .inr (.inl ⟨v, t, by simpa only [pcs] using picked⟩)
    · rcases sent id pending with pending | job
      · exact .inr (.inr pending)
      · rw [(h.inWait f id (suspends_wait before)).2.1] at job
        exact .inl ⟨task, tasks ▸ List.mem_append_right _ (List.mem_singleton_self _), job⟩

theorem Unlost.registered (h : Unlost s) (here : s.current w = some f) (threadId : Worker) :
    Unlost { s with place := Function.update s.place f (.first s.waits),
                    waiter := Function.update s.waiter s.waits { fiber := f, threadId }, waits := s.waits + 1,
                    waiters := s.waiters ++ [s.waits] } := by
  constructor
  case alive => exact h.alive
  case inWait =>
    intro g id inside
    by_cases mine : g = f
    · subst mine
      simp only [Function.update_self, Place.wait, Option.some.injEq] at inside
      subst inside
      exact ⟨Nat.lt_succ_self _, by simp, h.alive w g here⟩
    · simp only [Function.update_of_ne mine] at inside
      obtain ⟨below, fiber, alive⟩ := h.inWait g id inside
      exact ⟨Nat.lt_succ_of_lt below, by simpa only [Function.update_of_ne (Nat.ne_of_lt below)] using fiber, alive⟩
  case executes =>
    intro g id reads
    by_cases mine : g = f
    · exact ⟨w, mine ▸ here⟩
    · simp only [Function.update_of_ne mine] at reads
      exact h.executes g id reads
  case woken =>
    intro g id suspends told
    have mine : g ≠ f := by
      rintro rfl
      simp [State.Suspends] at suspends
    have before : s.Suspends g id := by
      simpa only [State.Suspends, State.current, Function.update_of_ne mine] using suspends
    have below := (h.inWait g id (suspends_wait before)).1
    simp only [Function.update_of_ne (Nat.ne_of_lt below)] at told
    exact h.woken g id before told

/-- The executing fiber read `notified`. -/
theorem Unlost.read (h : Unlost s) (here : s.current w = some f)
    (reads : s.place f = .first wait ∨ s.place f = .yielded wait) {place : Place}
    (next : place = .outside ∨ place = .sleeping wait ∧ (s.waiter wait).notified = false) :
    Unlost { s with place := Function.update s.place f place } := by
  have inside : (s.place f).wait = some wait := by rcases reads with reads | reads <;> rw [reads, Place.wait]
  constructor
  case alive => exact h.alive
  case inWait =>
    intro g id within
    by_cases mine : g = f
    · subst mine
      rcases next with rfl | ⟨rfl, -⟩
      · simp [Place.wait] at within
      · simp only [Function.update_self, Place.wait, Option.some.injEq] at within
        exact within ▸ h.inWait g wait inside
    · simp only [Function.update_of_ne mine] at within
      exact h.inWait g id within
  case executes =>
    intro g id reads
    by_cases mine : g = f
    · exact ⟨w, mine ▸ here⟩
    · simp only [Function.update_of_ne mine] at reads
      exact h.executes g id reads
  case woken =>
    intro g id suspends told
    by_cases mine : g = f
    · subst mine
      rcases next with rfl | ⟨rfl, untold⟩
      · simp [State.Suspends] at suspends
      · have same := suspends_wait suspends
        simp only [Function.update_self, Place.wait, Option.some.injEq] at same
        rw [← same, untold] at told
        cases told
    · refine h.woken g id ?_ told
      simpa only [State.Suspends, State.current, Function.update_of_ne mine] using suspends

/-- A store is a wake-up that is pending. -/
theorem Unlost.storing (h : Unlost s) (popped : List Nat) :
    Unlost { s with popped, stored := wait :: s.stored,
                    waiter := Function.update s.waiter wait { s.waiter wait with notified := true } } := by
  have fibers : ∀ id, (Function.update s.waiter wait { s.waiter wait with notified := true } id).fiber =
      (s.waiter id).fiber := fun id => by
    by_cases mine : id = wait <;> simp [mine]
  refine ⟨h.alive, fun g id inside => ?_, h.executes, fun g id suspends told => ?_⟩
  · simpa only [fibers] using h.inWait g id inside
  by_cases mine : id = wait
  · exact .inr (.inr (mine ▸ List.mem_cons_self))
  · simp only [Function.update_of_ne mine] at told
    exact (h.woken g id suspends told).imp_right (Or.imp_right (List.mem_cons_of_mem _))

theorem Unlost.move {l : Label} (h : Unlost s) (flat : Flat s.run) (move : Moves s l s') : Unlost s' := by
  cases move with
  | submittedFiber options born run made queued =>
    cases made with
    | turned l v before after here turns => cases turns
    | created =>
      cases queued with
      | turned l v before after here turns => cases turns
      | scheduled _ _ known =>
        refine h.pushed s.stored rfl rfl (fun f dead => ?_) fun id pending => .inl pending
        by_cases new : f = s.run.created <;> simp_all
  | submittedCallback callback options run queued =>
    cases queued with
    | turned l v before after here turns => cases turns
    | scheduled _ _ known => exact h.pushed s.stored rfl rfl (fun _ => id) fun id pending => .inl pending
  | configured l run change =>
    obtain ⟨policy, config, n, rfl⟩ := change
    exact ⟨h.alive, h.inWait, h.executes, h.woken⟩
  | ran w run moved elsewhere => exact h.ran flat moved
  | tested w t f here run moved => exact h.ran flat moved
  | yielded w f here outside run moved =>
    obtain ⟨work, pc, same⟩ := flat.at_code here
    cases moved with
    | yielded _ work' x rest here' running =>
      cases pc.symm.trans here'
      exact h.left flat pc rfl rfl (fun g other => Function.update_of_ne other ..) (fun _ _ => rfl) (.inl outside)
    | turned l v before after here' turns =>
      cases turns
      cases pc.symm.trans here'
      exact h.left flat pc rfl rfl (fun _ _ => rfl) (fun _ _ => rfl) (.inl outside)
  | finished w f here outside run moved =>
    obtain ⟨work, pc, same⟩ := flat.at_code here
    cases moved with
    | finished _ work' x rest here' =>
      cases pc.symm.trans here'
      exact h.left flat pc rfl rfl (fun g other => Function.update_of_ne other ..) (fun _ _ => rfl) (.inl outside)
    | turned l v before after here' turns => cases turns
  | registered w f threadId here outside => exact h.registered here threadId
  | passed w f wait here reads told => exact h.read here reads (.inl rfl)
  | checked w f wait here reads untold => exact h.read here reads (.inr ⟨rfl, untold⟩)
  | slept w f wait here sleeps run moved =>
    obtain ⟨work, pc, same⟩ := flat.at_code here
    have alive := h.alive w f here
    cases moved with
    | yielded _ work' x rest here' running =>
      cases pc.symm.trans here'
      exact h.left flat pc rfl rfl (fun g other => Function.update_of_ne other ..)
        (fun g other => Function.update_of_ne other ..) (.inr ⟨wait, sleeps, by simp, by simp⟩)
    | turned l v before after here' turns =>
      cases turns
      cases pc.symm.trans here'
      exact h.left flat pc rfl rfl (fun _ _ => rfl) (fun g other => Function.update_of_ne other ..)
        (.inr ⟨wait, sleeps, by simp, alive⟩)
  | popped wait queued => exact ⟨h.alive, h.inWait, h.executes, h.woken⟩
  | stored wait queued => exact h.storing _
  | scheduled wait queued run pushed =>
    cases pushed with
    | turned l v before after here turns => cases turns
    | scheduled _ _ known =>
      refine h.pushed (s.stored.erase wait) rfl rfl (fun _ => id) fun id pending => ?_
      by_cases same : id = wait
      · exact .inr (same ▸ rfl)
      · exact .inl ((List.mem_erase_of_ne same).2 pending)

theorem Unlost.step {l : Spurious} (h : Unlost s) (flat : Flat s.run) (e : spurious.step s l = some s') :
    Unlost s' ∧ Flat s'.run := by
  cases l with
  | own l => exact ⟨h.move flat (step_moves e), flat.step (step_moves e)⟩
  | submit f options =>
    obtain ⟨run, moved, rfl⟩ := lift_moves e
    refine ⟨?_, flat.move moved trivial⟩
    cases moved with
    | turned l v before after here turns => cases turns
    | scheduled _ _ known => exact h.pushed s.stored rfl rfl (fun _ => id) fun id pending => .inl pending

theorem unlost_of_reach (h : spurious.Reach s) : Unlost s ∧ Flat s.run := by
  induction h with
  | init => exact ⟨unlost_init, flat_of_reach .init⟩
  | step _ _ e ih => exact ih.1.step ih.2 e

end Steps

/-- **Main theorem.** A fiber that is suspended in a wait that was notified has
a task in the queue, or a worker took one and has not resumed the fiber, or the
notifier has not scheduled it yet. -/
theorem no_lost_wakeup (s : State) (h : spurious.Reach s) (f : Ref) (wait : Nat) (yielded : s.place f = .yielded wait)
    (out : ∀ w, s.current w ≠ some f) (told : (s.waiter wait).notified = true) :
    (∃ t ∈ s.run.tasks, t.job = .fiber f) ∨ (∃ w, s.Picked w f) ∨ wait ∈ s.stored :=
  (unlost_of_reach h).1.woken f wait (.inr ⟨yielded, out⟩) told

/-- Without spurious resumes the runs are those of the waits. -/
theorem spurious_of_reach {s : State} (h : machine.Reach s) : spurious.Reach s := by
  induction h with
  | init => exact .init
  | @step s l s' _ _ e ih => exact @ReachIf.step _ _ spurious _ s (.own l) s' ih trivial e

/-- A fiber that yielded in a wait is notified and scheduled while its worker
has not switched out of it. -/
theorem no_lost_wakeup_leaving : ∃ s, spurious.Reach s ∧ s.place 0 = .yielded 0 ∧ s.stored = [] ∧
    ((∃ t ∈ s.run.tasks, t.job = .fiber 0) ∨ (∃ w, s.Picked w 0) ∨ 0 ∈ s.stored) := by
  let ls : List Label := [.submitFiber {}, .run 1, .run 1, .run 1, .run 1, .wait 1 (-1), .check 1, .sleep 1,
    .pop 0, .store 0, .schedule 0]
  obtain ⟨s, e, away, place, told, sent⟩ : ∃ s, machine.exec machine.init ls = some s ∧ s.current 1 = none ∧
      s.place 0 = .yielded 0 ∧ (s.waiter 0).notified = true ∧ s.stored = [] := ⟨_, rfl, rfl, rfl, rfl, rfl⟩
  have reached := spurious_of_reach (reach_of_exec e)
  refine ⟨s, reached, place, sent, no_lost_wakeup s reached 0 0 place (fun w here => ?_) told⟩
  by_cases same : w = 1
  · rw [same, away] at here
    cases here
  · have idle := (exec_idle (w := w) e (by simp [ls, Label.worker, Ne.symm same])).1
    simp [State.current, idle, machine, Run.machine] at here

end Mycoroutine.Wakeup
