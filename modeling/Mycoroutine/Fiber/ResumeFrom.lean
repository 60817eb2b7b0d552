import Mycoroutine.Fiber.NestedCalls

/-!
# Where `resume` switches from

`resume` saves the executing code into the context of the thread's main fiber or of
its scheduler fiber, as `m_runInScheduler` says, whichever fiber executes. Here any
fiber may issue it. In the runs where the fiber that issues it is the one whose
context is written, the thread behaves as in `Fiber.Nesting`.
-/

namespace Mycoroutine.Thread
set_option autoImplicit false
open Interleave

variable {p : Platform} {s s' : Thread} {r x : Ref} {f : Fiber}

/-- `Fiber::resume`, issued by any fiber. -/
def resumeFrom (p : Platform) (s : Thread) (f : Ref) (sp marker : Nat) : Option Thread :=
  match s.fibers f with
  | none => none
  | some fb =>
    if fb.alive ∧ fb.state = .ready then
      (s.prepare p f marker).bind fun s => (s.setState f .running).swap p sp (s.base fb) f .inResume
    else none

/-- A step, any fiber issuing `resume`. The thread's main fiber, which nobody resumed,
does not yield, and chooses the scheduler fiber. -/
def stepFrom (p : Platform) (s : Thread) : Label → Option Thread
  | .resume f sp marker => s.resumeFrom p f sp marker
  | .yield sp marker => if s.running ≠ tThreadFiber then step p s (.yield sp marker) else none
  | .back .. => none
  | .setSchedulerFiber f => if s.running = tThreadFiber then step p s (.setSchedulerFiber f) else none
  | l => step p s l

/-- The thread with its history of entries. -/
def resuming (p : Platform) (slotCount : Nat) : Machine Nesting Label where
  init := (nesting p slotCount).init
  step n l := (stepFrom p n.thread l).map fun thread => ⟨thread, record n.thread n.pending l⟩

/-- The fiber that issues `resume` is the one that `yield` would go to. -/
def FromBase (n : Nesting) : Label → Prop
  | .resume f _ _ => (n.thread.fibers f).any fun fb => n.thread.running = n.thread.base fb
  | _ => True

instance (n : Nesting) : (l : Label) → Decidable (FromBase n l)
  | .resume f _ _ => inferInstanceAs (Decidable ((n.thread.fibers f).any fun fb => n.thread.running = n.thread.base fb))
  | .create .. | .destroy _ | .reset _ | .call .. | .yield .. | .back .. | .finish .. | .write ..
  | .setSharedStackSlotCount _ | .setSchedulerFiber _ => isTrue trivial

/-- A step stores what executes in the context of the fiber that executes, and in no
other. -/
structure Saves (s s' : Thread) : Prop where
  stored : s'.running ≠ s.running → s'.continuation s.running = some s.running
  only : ∀ x f, s'.fibers x = some f → f.ctx.code = s.running → x = s.running

/-- What the documentation of `resume` promises. The latest entry was issued by the
fiber below it, which stands right after its `resume`. -/
structure SwitchesFromCurrent (p : Platform) (n : Nesting) : Prop where
  executing : n.thread.tFiber = n.thread.running ∧ n.thread.running = top n.pending
  own : ∀ x f, n.thread.fibers x = some f → f.ctx.code = x
  suspended : ∀ x f, n.thread.fibers x = some f → f.state = .ready → f.ctxInitialized = true →
    n.thread.continuation x = some x
  caller : ∀ e rest, n.pending = e :: rest → e.how = .resumed → n.thread.continuation (top rest) = some (top rest) ∧
    ∃ b, n.thread.fibers (top rest) = some b ∧ b.ctx.point = .inResume
  yields : ∀ e rest, n.pending = e :: rest → ∀ sp marker t, stepFrom p n.thread (.yield sp marker) = some t →
    t.running = top rest ∧ t.tFiber = top rest
  finishes : ∀ e rest, n.pending = e :: rest → ∀ sp marker t, stepFrom p n.thread (.finish sp marker) = some t →
    t.running = top rest ∧ t.tFiber = top rest

/-! ## The runs that meet the condition -/

/-- Issued by the main fiber or the scheduler fiber, it is the `resume` of `Fiber.Thread`. -/
theorem resumeFrom_eq {sp marker : Nat} (issuer : s.running = tThreadFiber ∨ s.running = s.tSchedulerFiber) :
    s.resumeFrom p r sp marker = s.resume p r sp marker := by
  unfold resumeFrom Thread.resume
  cases s.fibers r with
  | none => rfl
  | some fb => simp only [issuer, and_true]

theorem base_issuer (f : Fiber) : s.base f = tThreadFiber ∨ s.base f = s.tSchedulerFiber := by
  unfold Thread.base
  split
  · exact .inr rfl
  · exact .inl rfl

/-- A step that meets the condition is one of `Fiber.Nesting`'s. -/
theorem step_of_stepFrom {n : Nesting} {l : Label} {t : Thread} (cond : FromBase n l)
    (e : stepFrom p n.thread l = some t) : step p n.thread l = some t ∧ Proper n l := by
  cases l with
  | resume f sp marker =>
    refine ⟨?_, cond, trivial⟩
    have issuer : n.thread.running = tThreadFiber ∨ n.thread.running = n.thread.tSchedulerFiber := by
      simp only [FromBase] at cond
      cases here : n.thread.fibers f with
      | none => simp [here] at cond
      | some fb =>
        simp only [here, Option.any_some, decide_eq_true_eq] at cond
        rw [cond]
        exact base_issuer fb
    exact (resumeFrom_eq issuer).symm.trans e
  | yield sp marker =>
    simp only [stepFrom] at e
    split at e
    · exact ⟨e, trivial, ‹_›⟩
    · cases e
  | back sp marker => cases e
  | setSchedulerFiber f =>
    simp only [stepFrom] at e
    split at e
    · exact ⟨e, ‹_›, trivial⟩
    · cases e
  | create | destroy | reset | call | finish | write | setSharedStackSlotCount => exact ⟨e, trivial, trivial⟩

theorem nesting_reach {slotCount : Nat} {n : Nesting} (h : (resuming p slotCount).ReachIf FromBase n) :
    (nesting p slotCount).ReachIf Proper n := by
  induction h with
  | init => exact .init
  | step _ cond e ih =>
    obtain ⟨thread, moved, rfl⟩ := Option.map_eq_some_iff.1 e
    obtain ⟨same, proper⟩ := step_of_stepFrom cond moved
    refine ih.step proper ?_
    show (step p _ _).map _ = _
    rw [same]
    rfl

/-! ## Which context a switch writes -/

section Switch

variable {sp marker : Nat} {src dst : Ref} {point : Point}

/-- The executing code goes to `src`. -/
theorem swap_continuation (done : s.swap p sp src dst point = some s') (moved : s'.running ≠ s.running) :
    s'.continuation s.running = some src := by
  unfold Thread.swap at done
  split at done
  · obtain ⟨g, there, done⟩ := Option.bind_eq_some_iff.1 done
    split at done
    · cases done
      have stored : ∀ (t : Thread) (ctx : Context), (t.arrive ctx).running = ctx.code ∧
          (t.arrive ctx).continuation = Function.update t.continuation ctx.code none := by
        intro t ctx
        unfold arrive
        split <;> exact ⟨rfl, rfl⟩
      obtain ⟨running, continuation⟩ := stored ({ s with tFiber := dst }.save sp src point) g.ctx
      rw [running] at moved
      rw [continuation, Function.update_of_ne (Ne.symm moved)]
      exact Function.update_self ..
    · cases done
  · cases done

/-- A switch whose source is the fiber that executes. -/
def Stores (s s' : Thread) : Prop := s'.running ≠ s.running → s'.continuation s.running = some s.running

theorem Stores.of_same {m : Thread} (stores : Stores m s') (same : m.running = s.running) : Stores s s' := by
  unfold Stores at stores
  rwa [same] at stores

theorem swap_stores (done : s.swap p sp src dst point = some s') (mine : s.running = src) : Stores s s' := by
  intro moved
  rw [swap_continuation done moved, mine]

theorem current_prepare (done : s.prepare p r marker = some s') :
    s'.running = s.running ∧ s'.tFiber = s.tFiber := by
  unfold prepare at done
  split at done
  · obtain ⟨m, bound, done⟩ := Option.bind_eq_some_iff.1 done
    obtain ⟨m', ensured, done⟩ := Option.bind_eq_some_iff.1 done
    have calm := (calm_bindThread bound).trans ((calm_ensureContext ensured).1.trans (calm_takeSlot done))
    exact ⟨calm.running, calm.tFiber⟩
  · cases done
    exact ⟨rfl, rfl⟩

theorem back_stores (done : s.back p r sp marker point = some s') (mine : s.running = r) : Stores s s' := by
  unfold Thread.back at done
  split at done
  · cases done
  · split at done
    · obtain ⟨m, prepared, done⟩ := Option.bind_eq_some_iff.1 done
      have same : m.running = s.running := (current_prepare prepared).1.trans (running_modify ..)
      exact (swap_stores done (same.trans mine)).of_same same
    · cases done

/-- `yield`, by either way out. -/
theorem yield_stores (done : s.yield p r sp marker point = some s') (mine : s.running = r) : Stores s s' := by
  unfold Thread.yield at done
  split at done
  · cases done
  rename_i f here
  split at done
  · obtain ⟨m, same, done⟩ : ∃ m : Thread, m.running = s.running ∧
        (if f.returnToParent ∧ f.parent.any m.alive then m.back p r sp marker point
          else m.swap p sp r (m.base f) point) = some s' := ⟨_, by split <;> rfl, done⟩
    split at done
    · exact (back_stores done (same.trans mine)).of_same same
    · exact (swap_stores done (same.trans mine)).of_same same
  · cases done

end Switch

/-! ## The contract of `resume` -/

section Steps

variable {pending : List Entry} {sp marker : Nat}

/-- What `resume` switches from, the fiber being prepared. -/
theorem Nested.resumed (h : Nested s pending) (here : s.fibers r = some f)
    (done : s.resumeFrom p r sp marker = some s') : f.state = .ready ∧ ∃ m g, Nested m pending ∧
      m.running = s.running ∧ m.fibers r = some g ∧ (m.setState r .running).swap p sp (s.base f) r .inResume = some s' := by
  simp only [resumeFrom, here] at done
  split at done
  · rename_i guard
    have placed := h.placed r f here
    obtain ⟨m, prepared, done⟩ := Option.bind_eq_some_iff.1 done
    obtain ⟨calm, g, now, -⟩ := calm_prepare here (fun unshared => placed.prepared (.inl unshared)) prepared
    have sameBase : m.base f = s.base f := by
      unfold Thread.base
      rw [calm.scheduler]
    rw [sameBase] at done
    exact ⟨guard.2, m, g, h.calm calm, calm.running, now, done⟩
  · cases done

/-- Saving the executing code elsewhere leaves it where it does not belong. -/
theorem Nested.resume_saves (h : Nested s pending) (here : s.fibers r = some f)
    (done : s.resumeFrom p r sp marker = some s') (saves : Saves s s') : s.running = s.base f := by
  obtain ⟨ready, m, g, nested, running, now, done⟩ := h.resumed here done
  have start : (m.setState r .running).running = s.running := running
  have target : (m.setState r .running).fibers r = some { g with state := .running } := by
    rw [Thread.setState, fibers_modify, if_pos rfl, now]
    rfl
  have idle : r ≠ s.running := by
    rintro rfl
    obtain ⟨b, executing, placed, mem⟩ := h.top_running
    cases here.symm.trans executing
    cases ready.symm.trans (placed.running.2 mem)
  by_cases itself : r = s.base f
  · -- the fiber's own context is overwritten before it is loaded
    rw [← itself] at done
    unfold Thread.swap at done
    split at done
    · have there : ({ m.setState r .running with tFiber := r }.save sp r .inResume).fibers r =
          some { g with state := .running, ctx := ⟨sp, s.running, .inResume⟩ } := by
        simp only [Thread.save, fibers_modify, if_pos, ← running]
        show (Option.map _ ((m.setState r .running).fibers r)) = _
        rw [target]
        rfl
      rw [Thread.load, there, Option.bind_some] at done
      split at done
      · cases done
        exact absurd (saves.only r _ there rfl) idle
      · cases done
    · cases done
  · have own : g.ctx.code = r := (nested.placed r g now).own
    have moved : s'.running ≠ s.running := by
      rw [swap_eq itself target done]
      have entered : (({ m.setState r .running with tFiber := r }.save sp (s.base f) .inResume).arrive g.ctx).running = r := by
        unfold arrive
        split <;> exact own
      rw [entered]
      exact idle
    have written := swap_continuation done (by rw [start]; exact moved)
    rw [start] at written
    exact Option.some.inj ((saves.stored moved).symm.trans written)

/-- A step stores the executing code in its own context exactly if it meets the
condition. -/
theorem Nested.saves_iff {n : Nesting} {l : Label} {t : Thread} (h : Nested n.thread n.pending)
    (fresh : n.thread.kind n.thread.created = none) (e : stepFrom p n.thread l = some t) :
    Saves n.thread t ↔ FromBase n l := by
  have same_tFiber : n.thread.running = n.thread.tFiber := h.executing.trans h.current.symm
  constructor
  · intro saves
    cases l with
    | resume f sp marker =>
      cases here : n.thread.fibers f with
      | none => simp [stepFrom, resumeFrom, here] at e
      | some fb =>
        have issuer := h.resume_saves here e saves
        simp [FromBase, here, issuer]
    | _ => trivial
  · intro cond
    obtain ⟨moved, proper⟩ := step_of_stepFrom cond e
    have after := h.step fresh proper moved
    refine ⟨?_, fun x f here code => ((after.placed x f here).own.symm.trans code)⟩
    have quiet : t.running = n.thread.running → Stores n.thread t := fun same moved => absurd same moved
    cases l with
    | resume f sp marker =>
      cases here : n.thread.fibers f with
      | none => simp [stepFrom, resumeFrom, here] at e
      | some fb =>
        obtain ⟨-, m, g, -, running, -, done⟩ := h.resumed here e
        have issuer : n.thread.running = n.thread.base fb := by simpa [FromBase, here] using cond
        have start : (m.setState f .running).running = n.thread.running := running
        exact (swap_stores done (start.trans issuer)).of_same start
    | yield sp marker => exact yield_stores moved same_tFiber
    | finish sp marker =>
      simp only [Thread.step, Thread.finish] at moved
      split at moved
      · exact (yield_stores moved rfl).of_same rfl
      · cases moved
    | call f sp marker =>
      simp only [Thread.step, Thread.call] at moved
      split at moved
      · cases moved
      split at moved
      · cases moved
      split at moved
      · obtain ⟨m, prepared, done⟩ := Option.bind_eq_some_iff.1 moved
        obtain ⟨running, tFiber⟩ := current_prepare prepared
        have mine : m.running = m.tFiber := running.trans (same_tFiber.trans tFiber.symm)
        exact (swap_stores done mine).of_same running
      · cases moved
        exact quiet rfl
    | back sp marker => exact proper.1.elim
    | create stacksize runInScheduler useSharedStack => exact quiet (running_create moved)
    | destroy f => exact quiet (running_destroy moved)
    | reset f => exact quiet (running_reset moved)
    | write offset value => exact quiet (running_write moved)
    | setSharedStackSlotCount count =>
      cases moved
      exact quiet rfl
    | setSchedulerFiber f =>
      simp only [Thread.step] at moved
      split at moved <;> cases moved
      exact quiet rfl

end Steps

/-- **Main theorem.** In every run in which `resume` is issued by the fiber that `yield`
goes to, it switches from the fiber that executes, as documented; and a step saves what
executes in its own context exactly if it meets the condition. -/
theorem switches_from_current {slotCount : Nat} (n : Nesting) (h : (resuming p slotCount).ReachIf FromBase n) :
    SwitchesFromCurrent p n ∧ ∀ l t, stepFrom p n.thread l = some t → (Saves n.thread t ↔ FromBase n l) := by
  have reached := nesting_reach h
  have nested := nested_of_reach reached
  have returns := returns_like_a_stack reached
  have fresh := (kept_of_reach (thread_reach reached)).fresh _ le_rfl
  refine ⟨?_, fun l t e => nested.saves_iff fresh e⟩
  constructor
  case executing => exact returns.executing
  case own => exact fun x f here => (nested.placed x f here).own
  case suspended => exact fun x f here ready init => ((nested.placed x f here).waits ready init).1
  case caller =>
    intro e rest pending resumed
    have linked := nested.linked
    rw [pending] at linked
    obtain ⟨⟨f, b, joined⟩, -⟩ := linked
    exact ⟨joined.waits, b, joined.below, (joined.resumed resumed).2.2.2⟩
  case yields =>
    intro e rest pending sp marker t e'
    simp only [stepFrom] at e'
    split at e'
    · exact (returns.yields e rest pending sp marker t e').executing
    · cases e'
  case finishes =>
    intro e rest pending sp marker t e'
    exact (returns.finishes e rest pending sp marker t e').executing

/-- The main fiber resumes a scheduler fiber of its own, which resumes two tasks; the
first yields and the second ends. -/
def schedules : List Label :=
  [.create 64 false false, .setSchedulerFiber 1, .create 64 true false, .create 64 true false, .resume 1 0 0,
   .resume 2 0 0, .yield 0 0, .resume 3 0 0, .finish 0 0, .resume 2 0 0]

theorem switches_from_current_schedules : ∃ n, (resuming smallPlatform 1).execIf FromBase (resuming smallPlatform 1).init
    schedules = some n ∧ n.pending = [⟨2, .resumed⟩, ⟨1, .resumed⟩] ∧ SwitchesFromCurrent smallPlatform n :=
  ⟨_, rfl, rfl, (switches_from_current _ (Machine.reachIf_of_execIf
    (rfl : (resuming smallPlatform 1).execIf FromBase (resuming smallPlatform 1).init schedules = some _))).1⟩

/-- Fiber 1, resumed by the main fiber, resumes fiber 2: what it executes goes into the
main fiber's context, over what the main fiber left there. -/
theorem resume_overwrites : ¬ ∀ n, (resuming smallPlatform 1).Reach n → SwitchesFromCurrent smallPlatform n := by
  intro all
  have run := Machine.reach_of_exec (rfl : (resuming smallPlatform 1).exec (resuming smallPlatform 1).init
    [.create 64 true false, .create 64 true false, .resume 1 0 0, .resume 2 0 0] = some _)
  have code := (all _ run).own tThreadFiber _ rfl
  cases code

end Mycoroutine.Thread
