import Mycoroutine.Hook.CloseUnregisters
import Mycoroutine.IOManager.Readiness

/-!
# Suspended calls on ready descriptors

The hooked calls over the edge-triggered epoll: what a call, a `close` or a cancellation
does with the manager is a step of `Readiness.lean` too, with the same outcome of
`epoll_ctl`, and a worker dispatches only what `epoll_wait` gave it. The files get ready
at any time, before and after the `EAGAIN` of a call.
-/

namespace Mycoroutine.ReadyCalls
set_option autoImplicit false
open Interleave IOManager Hook

structure State where
  hook : Hook.State
  io : Readiness.State

/-- `kernel` is what happens to a file, or an event that `epoll_wait` returns. -/
inductive Label where
  | kernel (l : Readiness.Label)
  | dispatch (r : EdgeTriggered.Report Nat Event)
  | hook (l : Hook.Label)

def isKernel : Readiness.Label → Bool
  | .arrives .. | .drains .. | .breaks _ | .epollWait _ => true
  | _ => false

def isDispatch : Hook.Label → Bool
  | .dispatch .. => true
  | _ => false

/-- What a step of the calls does with the manager. A number that is not open is refused. -/
def asks (s : Hook.State) : Hook.Label → Option Readiness.Label
  | .register f ok =>
    match s.calls f with
    | .io .adding io => some (.addEvent io.fd io.name.event (.fiber f) (ok && (s.opened io.fd).isSome))
    | _ => none
  | .addEvent fd event waiter ok => some (.addEvent fd event waiter (ok && (s.opened fd).isSome))
  | .cancelEvent fd event => some (.cancelEvent fd event)
  | .cancelAll fd => some (.cancelAll fd)
  | .closeStep f =>
    match s.calls f with
    | .cancelAll fd => some (.cancelAll fd)
    | .close fd _ => some (.close fd)
    | _ => none
  | _ => none

def step (inManager : Nat → Bool) (s : State) : Label → Option State
  | .kernel l => if isKernel l then (Readiness.step s.io l).map fun io => { s with io } else none
  | .dispatch r =>
    (Hook.step inManager s.hook (.dispatch r.number (Readiness.bits r.ready) r.broken)).bind fun hook =>
      (Readiness.step s.io (.dispatch r)).map fun io => { hook, io }
  | .hook l =>
    if isDispatch l then none
    else (Hook.step inManager s.hook l).bind fun hook =>
      match asks s.hook l with
      | some l' => (Readiness.step s.io l').map fun io => { hook, io }
      | none => some { s with hook }

def machine (inManager : Nat → Bool) : Machine State Label where
  init := { hook := (Hook.machine inManager).init, io := Readiness.machine.init }
  step := step inManager

/-- Nothing is added to a number in the middle of its `close`. -/
def Outside (s : State) : Label → Prop
  | .hook l => AddsOutside s.hook l
  | _ => True

/-! ## One manager -/

/-- Both parts have the same contexts, and the same numbers in epoll. -/
structure Joined (s : State) : Prop where
  contexts : s.io.contexts = s.hook.contexts
  interest : ∀ fd, s.hook.interest fd = (s.io.kernel.asked fd).isSome

section Steps

variable {inManager : Nat → Bool} {s s' : State} {hook : Hook.State} {io : Readiness.State} {f fd : Nat}

theorem joined_init : Joined (machine inManager).init := ⟨rfl, fun _ => rfl⟩

/-- A step of the calls that has nothing to do with the manager. -/
theorem untouched {s s' : Hook.State} {l : Hook.Label} (none' : asks s l = none) (other : isDispatch l = false)
    (e : Hook.step inManager s l = some s') : s'.contexts = s.contexts ∧ s'.interest = s.interest := by
  cases l with
  | enter f name fd =>
    simp only [Hook.step, Hook.State.enter] at e
    split at e
    · split at e <;> cases e <;> exact ⟨rfl, rfl⟩
    · cases e
  | test f timed =>
    simp only [Hook.step, Hook.State.test] at e
    split at e
    · split at e
      · cases e
        exact ⟨rfl, rfl⟩
      · split at e <;> cases e <;> exact ⟨rfl, rfl⟩
    · cases e
  | syscall f outcome =>
    simp only [Hook.step, Hook.State.syscall] at e
    split at e
    · split at e
      · cases outcome with
        | returned failed | accepted fd =>
          cases e
          exact ⟨rfl, rfl⟩
        | interrupted | again =>
          simp only at e
          split at e <;> cases e <;> exact ⟨rfl, rfl⟩
      · cases e
    · cases e
  | arm f =>
    simp only [Hook.step, Hook.State.arm] at e
    split at e <;> cases e
    exact ⟨rfl, rfl⟩
  | register f ok =>
    simp only [Hook.step, Hook.State.register] at e
    simp only [asks] at none'
    split at e
    · rename_i io at'
      rw [at'] at none'
      cases none'
    · cases e
  | resume f failed =>
    simp only [Hook.step, Hook.State.resume] at e
    split at e
    · split at e
      · cases e
        exact ⟨rfl, rfl⟩
      · split at e <;> cases e <;> exact ⟨rfl, rfl⟩
    · cases e
  | expire f =>
    simp only [Hook.step, Hook.State.expire] at e
    split at e
    · split at e <;> cases e
      exact ⟨rfl, rfl⟩
    · cases e
  | socket f fd =>
    simp only [Hook.step, Hook.State.socket] at e
    split at e <;> cases e
    exact ⟨rfl, rfl⟩
  | get f =>
    simp only [Hook.step, Hook.State.get] at e
    split at e <;> cases e <;> exact ⟨rfl, rfl⟩
  | close f fd =>
    simp only [Hook.step, Hook.State.close] at e
    split at e <;> cases e
    exact ⟨rfl, rfl⟩
  | closeStep f =>
    simp only [Hook.step, Hook.State.closeStep] at e
    simp only [asks] at none'
    split at e
    · cases e
      exact ⟨rfl, rfl⟩
    · rename_i at'
      rw [at'] at none'
      cases none'
    · cases e
      simp only [Hook.State.put, Hook.State.del]
      split <;> exact ⟨rfl, rfl⟩
    · rename_i at'
      rw [at'] at none'
      cases none'
    · cases e
  | opens fd socket =>
    simp only [Hook.step] at e
    split at e <;> cases e
    exact ⟨rfl, rfl⟩
  | setUserNonblock ctx v =>
    cases e
    exact ⟨rfl, rfl⟩
  | addEvent | cancelEvent | cancelAll => cases none'
  | dispatch => cases other

/-- A body that tells `epoll_ctl` what is left. -/
theorem Joined.remove {asked : Bool} {left : Mask} {body : Bool → Body} (h : Joined s)
    (e : s.hook.remove fd asked left body = some hook) (e' : s.io.remove fd asked left body = some io) :
    Joined { hook, io } := by
  obtain ⟨done, is, ran⟩ := Readiness.ran_of_body e'
  have same : done = s.hook.interest fd := by
    rw [← is, Bool.true_and, h.interest, FdContext.removeOp]
    split <;> rfl
  subst same
  simp only [Hook.State.remove] at e
  split at e <;> cases e
  refine ⟨?_, fun x => ?_⟩
  · rw [ran.contexts, h.contexts]
    rfl
  · rw [ran.kernel]
    simp only
    split
    · by_cases here : x = fd
      · subst here
        rw [Function.update_self, FdContext.removeOp]
        split <;> simp [Readiness.ctlOp, EdgeTriggered.Kernel.ctl, EdgeTriggered.Kernel.ask, EdgeTriggered.Kernel.drop]
      · rw [Function.update_of_ne here, FdContext.removeOp]
        split <;> simp [Readiness.ctlOp, EdgeTriggered.Kernel.ctl, EdgeTriggered.Kernel.ask, EdgeTriggered.Kernel.drop, here,
          h.interest]
    · exact h.interest x

/-- Both parts ask `epoll_ctl` for the same, and get the same outcome. -/
theorem Joined.accepts {ok : Bool} (h : Joined s) (clean : Clean s.hook) :
    ((ok && (s.hook.opened fd).isSome) && s.io.kernel.accepts fd (Readiness.ctlOp (s.io.contexts fd).addOp)) =
      (ok && s.hook.accepts fd (s.hook.contexts fd).addOp) := by
  have interest := h.interest fd
  have isOpen := clean.open_ fd
  rw [h.contexts, FdContext.addOp, Bool.and_assoc]
  refine congrArg (ok && ·) ?_
  split
  · simp only [Readiness.ctlOp, EdgeTriggered.Kernel.accepts, Hook.State.accepts, interest]
    cases s.io.kernel.asked fd <;> rfl
  · simp only [Readiness.ctlOp, EdgeTriggered.Kernel.accepts, Hook.State.accepts, ← interest]
    cases is : s.hook.interest fd with
    | false => exact Bool.and_false _
    | true => rw [Option.isSome_iff_ne_none.2 (isOpen is), Bool.and_true]

theorem Joined.addEvent {event : Event} {waiter : Waiter} {ok done : Bool} (h : Joined s) (clean : Clean s.hook)
    (real : event ≠ .none) (e : s.hook.addEvent fd event waiter ok = some (hook, done))
    (e' : s.io.addEvent fd event waiter (ok && (s.hook.opened fd).isSome) = some io) : Joined { hook, io } := by
  obtain ⟨told, is, ran⟩ := Readiness.ran_of_body e'
  rw [h.accepts clean] at is
  have same : ∀ {ctx : Nat → FdContext}, ctx = s.hook.contexts → (ctx fd).addEvent event waiter told =
      (s.hook.contexts fd).addEvent event waiter told := fun eq => by rw [eq]
  simp only [Hook.State.addEvent, is] at e
  rcases FdContext.addEvent_spec waiter told (clean.wellFormed fd) real with refused | ⟨free, rfl, added⟩
  · rw [refused] at e
    cases e
    refine ⟨?_, fun x => ?_⟩
    · rw [ran.contexts, same h.contexts, refused, h.contexts]
      rfl
    · -- it would not have been refused
      have silent : (!(s.io.contexts fd).events.has event && told) = false := by
        rw [h.contexts]
        by_contra both
        obtain ⟨free, rfl⟩ := Bool.and_eq_true_iff.1 (Bool.of_not_eq_false both)
        have counted := Readiness.count_addEvent waiter ((Bool.not_eq_true' _).mp free)
        rw [refused] at counted
        cases counted
      rw [ran.kernel, silent]
      exact h.interest x
  · rw [added] at e
    cases e
    refine ⟨?_, fun x => ?_⟩
    · rw [ran.contexts, same h.contexts, added, h.contexts]
      rfl
    · rw [ran.kernel, if_pos (by rw [h.contexts, free]; rfl)]
      simp only
      by_cases here : x = fd
      · subst here
        rw [Function.update_self, FdContext.addOp]
        split <;> simp [Readiness.ctlOp, EdgeTriggered.Kernel.ctl, EdgeTriggered.Kernel.ask]
      · rw [Function.update_of_ne here, FdContext.addOp]
        split <;> simp [Readiness.ctlOp, EdgeTriggered.Kernel.ctl, EdgeTriggered.Kernel.ask, here, h.interest]

/-- What follows only changes the calls. -/
theorem Joined.goes {m : Hook.State} (h : Joined { hook := m, io }) (contexts : hook.contexts = m.contexts)
    (interest : hook.interest = m.interest) : Joined { hook, io } :=
  ⟨h.contexts.trans contexts.symm, fun fd => (congrFun interest fd).trans (h.interest fd)⟩

theorem Joined.asked {l : Hook.Label} {l' : Readiness.Label} (h : Joined s) (clean : Clean s.hook)
    (is : asks s.hook l = some l') (e : Hook.step inManager s.hook l = some hook) (e' : Readiness.step s.io l' = some io) :
    Joined { hook, io } := by
  have contexts (fd : Nat) : s.io.contexts fd = s.hook.contexts fd := congrFun h.contexts fd
  cases l with
  | register f ok =>
    simp only [Hook.step, Hook.State.register] at e
    simp only [asks] at is
    split at e
    · rename_i own at'
      rw [at'] at is
      cases is
      have real : own.name.event ≠ .none := by cases own.name <;> simp [Name.event]
      obtain ⟨⟨m, done⟩, added, rfl⟩ := Option.map_eq_some_iff.1 e
      simp only [Readiness.step, if_pos real] at e'
      refine (h.addEvent clean real added e').goes ?_ ?_
      · cases done <;> rfl
      · cases done <;> rfl
    · cases e
  | addEvent fd event waiter ok =>
    cases is
    simp only [Hook.step, Readiness.step] at e e'
    split at e
    · rename_i real
      rw [if_pos real] at e'
      obtain ⟨⟨m, done⟩, added, rfl⟩ := Option.map_eq_some_iff.1 e
      exact h.addEvent clean real added e'
    · cases e
  | cancelEvent fd event =>
    cases is
    simp only [Readiness.step, contexts] at e'
    exact h.remove e e'
  | cancelAll fd =>
    cases is
    simp only [Readiness.step, contexts] at e'
    exact h.remove e e'
  | closeStep f =>
    simp only [Hook.step, Hook.State.closeStep] at e
    simp only [asks] at is
    split at is <;> cases is
    · rename_i fd at'
      rw [at'] at e
      obtain ⟨m, swept, rfl⟩ := Option.map_eq_some_iff.1 e
      simp only [Readiness.step, contexts] at e'
      exact (h.remove swept e').goes rfl rfl
    · rename_i fd swept at'
      rw [at'] at e
      cases e
      cases e'
      refine ⟨h.contexts, fun x => ?_⟩
      simp only [Hook.State.put, Hook.State.closeF, EdgeTriggered.Kernel.close, EdgeTriggered.Kernel.drop, Function.update_apply]
      split
      · rfl
      · exact h.interest x
  | _ => cases is

/-- `epoll_wait` and the files leave the registrations alone. -/
theorem Joined.kernel {l : Readiness.Label} (h : Joined s) (is : isKernel l = true) (e : Readiness.step s.io l = some io) :
    Joined { s with io } := by
  cases l with
  | arrives fd event | drains fd event | breaks fd =>
    cases e
    exact ⟨h.contexts, h.interest⟩
  | epollWait fd =>
    simp only [Readiness.step] at e
    split at e <;> cases e
    exact ⟨h.contexts, h.interest⟩
  | _ => cases is

theorem Joined.dispatch {r : EdgeTriggered.Report Nat Event} (h : Joined s)
    (e : s.hook.dispatch r.number (Readiness.bits r.ready) r.broken = some hook) (e' : Readiness.step s.io (.dispatch r) = some io) :
    Joined { hook, io } := by
  simp only [Readiness.step] at e'
  split at e'
  · obtain ⟨m, dispatched, rfl⟩ := Option.map_eq_some_iff.1 e'
    simp only [Readiness.State.dispatch, congrFun h.contexts] at dispatched
    obtain ⟨contexts, interest⟩ := h.remove e dispatched
    exact ⟨contexts, interest⟩
  · cases e'

theorem Joined.step {l : Label} (h : Joined s) (clean : Clean s.hook) (e : step inManager s l = some s') : Joined s' := by
  cases l with
  | kernel l =>
    simp only [ReadyCalls.step] at e
    split at e
    · rename_i is
      obtain ⟨io, moved, rfl⟩ := Option.map_eq_some_iff.1 e
      exact h.kernel is moved
    · cases e
  | dispatch r =>
    obtain ⟨hook, moved, e⟩ := Option.bind_eq_some_iff.1 e
    obtain ⟨io, dispatched, rfl⟩ := Option.map_eq_some_iff.1 e
    exact h.dispatch moved dispatched
  | hook l =>
    simp only [ReadyCalls.step] at e
    split at e
    · cases e
    · rename_i other
      obtain ⟨hook, moved, e⟩ := Option.bind_eq_some_iff.1 e
      split at e
      · rename_i l' is
        obtain ⟨io, told, rfl⟩ := Option.map_eq_some_iff.1 e
        exact h.asked clean is moved told
      · rename_i none'
        cases e
        obtain ⟨contexts, interest⟩ := untouched none' (Bool.eq_false_iff.2 other) moved
        exact ⟨h.contexts.trans contexts.symm, fun fd => (congrFun interest fd).trans (h.interest fd)⟩

/-! ## Its two parts -/

theorem reach_hook (h : (machine inManager).ReachIf Outside s) : (Hook.machine inManager).ReachIf AddsOutside s.hook := by
  induction h with
  | init => exact .init
  | @step s l s' _ outside e ih =>
    cases l with
    | kernel l =>
      simp only [machine, step] at e
      split at e
      · obtain ⟨io, -, rfl⟩ := Option.map_eq_some_iff.1 e
        exact ih
      · cases e
    | dispatch r =>
      obtain ⟨hook, moved, e⟩ := Option.bind_eq_some_iff.1 e
      obtain ⟨io, -, rfl⟩ := Option.map_eq_some_iff.1 e
      exact ih.next (.dispatch r.number (Readiness.bits r.ready) r.broken) trivial moved
    | hook l =>
      simp only [machine, step] at e
      split at e
      · cases e
      · obtain ⟨hook, moved, e⟩ := Option.bind_eq_some_iff.1 e
        split at e
        · obtain ⟨io, -, rfl⟩ := Option.map_eq_some_iff.1 e
          exact ih.step outside moved
        · cases e
          exact ih.step outside moved

theorem joined_of_reach (h : (machine inManager).ReachIf Outside s) : Joined s :=
  h.invariant_with (fun s => Clean s.hook) (fun _ reach => clean_of_reach (reach_hook reach)) joined_init
    fun _ _ _ clean inv _ e _ => inv.step clean e

/-- What a `close` closes is empty. -/
theorem closes_empty {l : Hook.Label} {l' : Readiness.Label} (h : Joined s) (clean : Clean s.hook) (outside : AddsOutside s.hook l)
    (is : asks s.hook l = some l') : Readiness.ClosesEmpty s.io l' := by
  cases l with
  | register f ok =>
    simp only [asks] at is
    split at is <;> cases is
    exact trivial
  | addEvent | cancelEvent | cancelAll =>
    cases is
    exact trivial
  | closeStep f =>
    simp only [asks] at is
    split at is <;> cases is
    · exact trivial
    · rename_i fd swept at'
      simp only [Readiness.ClosesEmpty, h.contexts]
      cases swept with
      | false => exact outside fd at'
      | true => exact clean.swept f fd (.inr at')
  | _ => cases is

theorem reach_io (h : (machine inManager).ReachIf Outside s) : Readiness.machine.ReachIf Readiness.ClosesEmpty s.io := by
  induction h with
  | init => exact .init
  | @step s l s' before outside e ih =>
    cases l with
    | kernel l =>
      simp only [machine, step] at e
      split at e
      · rename_i is
        obtain ⟨io, moved, rfl⟩ := Option.map_eq_some_iff.1 e
        refine ih.step ?_ moved
        cases l <;> first | exact trivial | cases is
      · cases e
    | dispatch r =>
      obtain ⟨hook, -, e⟩ := Option.bind_eq_some_iff.1 e
      obtain ⟨io, moved, rfl⟩ := Option.map_eq_some_iff.1 e
      exact ih.next (.dispatch r) trivial moved
    | hook l =>
      simp only [machine, step] at e
      split at e
      · cases e
      · obtain ⟨hook, -, e⟩ := Option.bind_eq_some_iff.1 e
        split at e
        · rename_i l' is
          obtain ⟨io, moved, rfl⟩ := Option.map_eq_some_iff.1 e
          exact ih.step (closes_empty (joined_of_reach before) (clean_of_reach (reach_hook before)) outside is) moved
        · cases e
          exact ih

/-- The dispatch of an event that tells of it wakes a suspended fiber. -/
theorem dispatch_wakes {r : EdgeTriggered.Report Nat Event} {own : Io} (h : Joined s) (clean : Clean s.hook)
    (told : Readiness.Told s.io) (suspended : s.hook.calls f = .io .waiting own) (tells : r.Tells own.fd own.name.event)
    (e : step inManager s (.dispatch r) = some s') (after : Joined s') (cleanAfter : Clean s'.hook) :
    s'.hook.calls f = .io .woken own := by
  have registered : (s.io.contexts own.fd).registered own.name.event = some (.fiber f) := by
    rw [h.contexts]
    exact clean.waiting f own suspended
  obtain ⟨hook, moved, e⟩ := Option.bind_eq_some_iff.1 e
  obtain ⟨io, dispatched, rfl⟩ := Option.map_eq_some_iff.1 e
  obtain ⟨ended, gives, mem⟩ := Readiness.dispatch_wakes told registered tells dispatched
  have gone := gives.2.2 _ ((mem _).2 ⟨by simp [registered], tells⟩)
  simp only [Hook.step, Hook.State.dispatch, Hook.State.remove] at moved
  split at moved <;> cases moved
  rcases calls_body s.hook r.number _ f with ⟨io', was, -, woken⟩ | ⟨unchanged, -⟩
  · cases suspended.symm.trans was
    exact woken
  · -- it would still be registered
    have still := cleanAfter.waiting f own (unchanged.trans suspended)
    rw [← congrFun after.contexts own.fd] at still
    cases gone.symm.trans still

end Steps

/-- **Main theorem.** A run of the calls is one of the manager's bodies, and no suspended
call waits for a file that is ready: while the file on its number is ready in its direction
or has an error, epoll has an event that tells of it, or a worker has, and the dispatch of
such an event wakes the fiber. -/
theorem ready_calls_wake (inManager : Nat → Bool) (s : State) (h : (machine inManager).ReachIf Outside s) :
    Readiness.machine.ReachIf Readiness.ClosesEmpty s.io ∧
    ∀ f io, s.hook.calls f = .io .waiting io → s.io.kernel.Hot io.fd io.name.event →
      ((∃ s', step inManager s (.kernel (.epollWait io.fd)) = some s' ∧ ∃ r ∈ s'.io.taken, r.Tells io.fd io.name.event) ∨
        ∃ r ∈ s.io.taken, r.Tells io.fd io.name.event) ∧
      ∀ r s', r.Tells io.fd io.name.event → step inManager s (.dispatch r) = some s' → s'.hook.calls f = .io .woken io := by
  refine ⟨reach_io h, fun f io suspended hot => ?_⟩
  have joined := joined_of_reach h
  have clean := clean_of_reach (reach_hook h)
  have registered : (s.io.contexts io.fd).registered io.name.event = some (.fiber f) := by
    rw [joined.contexts]
    exact clean.waiting f io suspended
  refine ⟨?_, fun r s' tells e => ?_⟩
  · rcases (Readiness.readiness_kept s.io (reach_io h) io.fd io.name.event _ registered hot).1 with ⟨io', waits, told⟩ | taken
    · refine .inl ⟨{ s with io := io' }, ?_, told⟩
      simp only [step, isKernel, if_true, waits, Option.map_some]
    · exact .inr taken
  · have next := h.next (.dispatch r) trivial e
    exact dispatch_wakes joined clean (Readiness.told_of_reach (reach_io h)).1 suspended tells e (joined_of_reach next)
      (clean_of_reach (reach_hook next))

theorem outside_alone {s : State} {io : Io} {ok : Bool} (here : s.hook.calls 0 = .io .adding io)
    (others : ∀ g, s.hook.calls (g + 1) = .idle) : Outside s (.hook (.register 0 ok)) :=
  adds_alone here others

/-- Data comes to the number 5 between the `EAGAIN` of fiber 0 and its `addEvent`. -/
theorem ready_calls_wake_between : ∃ (s s' : State) (io : Io), (machine fun _ => true).ReachIf Outside s ∧
    s.hook.calls 0 = .io .waiting io ∧
    step (fun _ => true) s (.dispatch ⟨5, {.read}, false⟩) = some s' ∧ s'.hook.calls 0 = .io .woken io := by
  have start : (machine fun _ => true).ReachIf Outside _ := .init
  have made := ((start.next (.hook (.socket 0 5)) trivial rfl).next (.hook (.get 0)) trivial rfl).next (.hook (.get 0)) trivial rfl
  have reads := ((made.next (.hook (.enter 0 .recv 5)) trivial rfl).next (.hook (.test 0 false)) trivial rfl).next
    (.hook (.syscall 0 .again)) trivial rfl
  have arrived := (reads.next (.kernel (.arrives 5 .read)) trivial rfl).next (.hook (.arm 0)) trivial rfl
  have waits := (arrived.next (.hook (.register 0 true)) (outside_alone rfl fun _ => rfl) rfl).next
    (.kernel (.epollWait 5)) trivial rfl
  have told : (⟨5, {.read}, false⟩ : EdgeTriggered.Report Nat Event).Tells 5 .read := ⟨rfl, .inl (by decide)⟩
  have wakes := ((ready_calls_wake _ _ waits).2 0 _ rfl (.inl (by decide))).2 _ _ told rfl
  exact ⟨_, _, _, waits, rfl, rfl, wakes⟩

end Mycoroutine.ReadyCalls
