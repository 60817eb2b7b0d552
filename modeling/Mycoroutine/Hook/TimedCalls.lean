import Mycoroutine.Hook.CloseUnregisters
import Mycoroutine.Hook.Sleeps
import Mycoroutine.Timer.TimerOrder

/-!
# Calls with a timeout

The hooked calls and a `TimerManager`: each round of a call with a timeout adds a timer,
and cancels it when the fiber is back or `addEvent` failed. `listExpiredCb` collects the
callback, which runs later, in any thread: it finds `timer_info` while the call has not
returned, sets `cancelled`, and goes on to `cancelEvent`.

The clock does not go back, and the fibers of a timeout's timer are its call's only:
nobody else has a pointer to it. `begun` and `late` are history.
-/

namespace Mycoroutine.TimedCalls
set_option autoImplicit false
open Interleave IOManager Hook
open Sleeps (target collected Resets leaves_of_move of_collected expiring_step)
open TimerManager (TimePoint addMillis le_addMillis_iff)

/-- What the callback of a timer has: `winfo` of a call, `fd` and `event`. -/
structure Capture where
  fiber : Nat
  call : Nat
  fd : Nat
  event : Event
deriving DecidableEq

/-- `call` is the number of a fiber's present or last call, and `timer` that of its `timer`.
`pending` are the collected callbacks, and `firing` those that go on to `cancelEvent`. -/
structure State where
  hook : Hook.State
  manager : TimerManager.State
  clock : Int
  made : Nat
  call : Nat → Nat
  timeout : Nat → Nat
  timer : Nat → Option Nat
  capture : Nat → Option Capture
  pending : List Nat
  firing : List Capture
  begun : Nat → Int
  late : Nat → Bool

/-- `hook` is a step of a call that has nothing to do with a timer, `manager` one of others
on the manager. -/
inductive Label where
  | tick (d : Nat)
  | hook (l : Hook.Label)
  | enter (f : Nat) (name : Name) (fd : Nat)
  | test (f : Nat) (timeout : Option Nat)
  | arm (f t : Nat) (now : Int)
  | register (f : Nat) (ok : Bool)
  | resume (f : Nat) (failed : Bool)
  | manager (l : TimerManager.Label)
  | callback (t : Nat)
  | fire (c : Capture)

def plain : Hook.Label → Bool
  | .enter .. | .test .. | .arm .. | .register .. | .resume .. | .expire .. => false
  | _ => true

namespace State

variable (s : State)

/-- `timer->cancel()`, if there is one. -/
def cancelTimer (f : Nat) : Option State :=
  match s.timer f with
  | some t =>
    (TimerManager.step s.manager (.cancel t)).map fun manager => { s with manager, timer := Function.update s.timer f none }
  | none => some s

/-- `listExpiredCb` reads the clock before it takes the lock. -/
def reads : TimerManager.Label → Bool
  | .listExpired now _ => decide (now ≤ s.clock)
  | _ => true

def captured (t : Nat) : Bool := (s.capture t).isSome

variable (inManager : Nat → Bool)

def enter (f : Nat) (name : Name) (fd : Nat) : Option State :=
  (Hook.step inManager s.hook (.enter f name fd)).map fun hook =>
    { s with hook, call := Function.update s.call f s.made, made := s.made + 1 }

/-- The timeout is read with the other fields of the context, and `timer_info` is made. -/
def test (f : Nat) (timeout : Option Nat) : Option State :=
  (Hook.step inManager s.hook (.test f timeout.isSome)).map fun hook =>
    { s with hook, timeout := Function.update s.timeout f (timeout.getD 0), begun := Function.update s.begun f s.clock }

/-- `addConditionTimer` of a call with a timeout: its timer is at the new address `t`, and
was made at `now`, since the call began. -/
def arm (f t : Nat) (now : Int) : Option State :=
  match s.hook.calls f with
  | .io .again io =>
    (Hook.step inManager s.hook (.arm f)).bind fun hook =>
      if inManager f && io.timed then
        if s.begun f ≤ now ∧ now ≤ s.clock then
          (TimerManager.step s.manager (.addTimer t (s.timeout f) t false now)).map fun manager =>
            { s with hook, manager, timer := Function.update s.timer f (some t),
                     capture := Function.update s.capture t (some ⟨f, s.call f, io.fd, io.name.event⟩) }
        else none
      else some { s with hook }
  | _ => none

def register (f : Nat) (ok : Bool) : Option State :=
  match s.hook.calls f with
  | .io .adding io =>
    (Hook.step inManager s.hook (.register f ok)).bind fun hook =>
      if hook.calls f = .io .waiting io then some { s with hook, late := Function.update s.late f io.cancelled }
      else { s with hook }.cancelTimer f
  | _ => none

def resume (f : Nat) (failed : Bool) : Option State :=
  (Hook.step inManager s.hook (.resume f failed)).bind fun hook => { s with hook }.cancelTimer f

/-- `OnTimer` with the callback of a call. -/
def callback (t : Nat) : Option State :=
  if t ∈ s.pending then
    match s.capture t with
    | some c =>
      match s.hook.calls c.fiber with
      | .io _ io =>
        if s.call c.fiber = c.call ∧ io.cancelled = false then
          (Hook.step inManager s.hook (.expire c.fiber)).map fun hook =>
            { s with hook, pending := s.pending.erase t, firing := s.firing ++ [c] }
        else some { s with pending := s.pending.erase t }
      | _ => some { s with pending := s.pending.erase t }
    | none => none
  else none

end State

def step (inManager : Nat → Bool) (s : State) : Label → Option State
  | .tick d => some { s with clock := s.clock + d }
  | .hook l => if plain l then (Hook.step inManager s.hook l).map fun hook => { s with hook } else none
  | .enter f name fd => s.enter inManager f name fd
  | .test f timeout => s.test inManager f timeout
  | .arm f t now => s.arm inManager f t now
  | .register f ok => s.register inManager f ok
  | .resume f failed => s.resume inManager f failed
  | .manager l =>
    if (target l).any s.captured || !s.reads l then none
    else (TimerManager.step s.manager l).map fun manager =>
      { s with manager, pending := s.pending ++ ((collected s.manager l).map (·.1)).toList.filter s.captured }
  | .callback t => s.callback inManager t
  | .fire c =>
    if c ∈ s.firing then
      (Hook.step inManager s.hook (.cancelEvent c.fd c.event)).map fun hook => { s with hook, firing := s.firing.erase c }
    else none

def machine (inManager : Nat → Bool) : Machine State Label where
  init := { hook := (Hook.machine inManager).init, manager := TimerManager.machine.init, clock := 0, made := 0,
            call := fun _ => 0, timeout := fun _ => 0, timer := fun _ => none, capture := fun _ => none,
            pending := [], firing := [], begun := fun _ => 0, late := fun _ => false }
  step := step inManager

/-! ## The other steps of the calls -/

/-- What a step that has nothing to do with a timer does with the call of any fiber. -/
inductive Goes : Hook.Call → Hook.Call → Prop where
  | same (call : Hook.Call) : Goes call call
  | woken (io : Io) : Goes (.io .waiting io) (.io .woken io)
  | again (io : Io) : Goes (.io .attempt io) (.io .again io)
  | out (phase : Phase) (io : Io) (call : Hook.Call) (issues : phase.issues = true) (off : ∀ phase io, call ≠ .io phase io) :
      Goes (.io phase io) call
  | other (call call' : Hook.Call) (before : ∀ phase io, call ≠ .io phase io) (after : ∀ phase io, call' ≠ .io phase io) :
      Goes call call'

section Goes

variable {inManager : Nat → Bool} {s s' m : Hook.State} {f fd g : Nat} {call : Hook.Call}

theorem goes_put (calls : m.calls = s.calls) (goes : Goes (s.calls f) call) : Goes (s.calls g) ((m.put f call).calls g) := by
  by_cases mine : g = f
  · subst mine
    simpa only [State.put, Function.update_self] using goes
  · simp only [State.put, Function.update_of_ne mine, calls]
    exact .same _

theorem goes_remove {asks : Bool} {left : Mask} {body : Bool → Body} (e : s.remove fd asks left body = some s') :
    Goes (s.calls g) (s'.calls g) := by
  simp only [State.remove] at e
  split at e <;> cases e
  rcases calls_body s fd (body (s.interest fd)) g with ⟨io, suspended, -, woken⟩ | ⟨unchanged, -⟩
  · rw [suspended]
    exact woken ▸ .woken io
  · exact unchanged ▸ .same _

theorem ended_addEvent (ctx : FdContext) (event : Event) (waiter : Waiter) (ok : Bool) : (ctx.addEvent event waiter ok).ended = [] := by
  unfold FdContext.addEvent
  split
  · rfl
  · split
    · simp only
      split <;> first | rfl | (split <;> rfl)
    · rfl

theorem calls_addEvent {event : Event} {waiter : Waiter} {ok done : Bool} (e : s.addEvent fd event waiter ok = some (s', done)) :
    s'.calls = s.calls := by
  simp only [State.addEvent] at e
  split at e <;> cases e <;> simp [Hook.State.body, ended_addEvent]

theorem goes_syscall {outcome : Outcome} (e : s.syscall f outcome = some s') : Goes (s.calls g) (s'.calls g) := by
  simp only [State.syscall] at e
  split at e
  · rename_i phase io at'
    split at e
    · rename_i possible
      have out (call : Hook.Call) (off : ∀ phase io, call ≠ .io phase io) : Goes (s.calls f) call := by
        rw [at']
        exact .out phase io call possible.1 off
      cases outcome with
      | returned failed =>
        cases e
        exact goes_put (m := s.issue io) rfl (out .idle (by simp))
      | accepted fd =>
        cases e
        by_cases mine : g = f
        · subst mine
          simpa only [State.put, Function.update_self] using out (.lookup fd) (by simp)
        · simp only [State.put, State.handOut, State.ret, State.issue, Function.update_of_ne mine]
          exact .same _
      | interrupted =>
        simp only at e
        split at e <;> cases e
        · exact .same _
        · exact goes_put (m := s.issue io) rfl (out .idle (by simp))
      | again =>
        simp only at e
        split at e <;> cases e
        · rename_i attempt
          subst attempt
          refine goes_put (m := s.issue io) rfl ?_
          rw [at']
          exact .again io
        · exact goes_put (m := s.issue io) rfl (out .idle (by simp))
    · cases e
  · cases e

theorem goes_closeStep (e : s.closeStep inManager f = some s') : Goes (s.calls g) (s'.calls g) := by
  simp only [State.closeStep] at e
  split at e
  · rename_i fd ctx at'
    cases e
    refine goes_put (m := s.setClosed ctx) rfl (.other _ _ (by simp [at']) ?_)
    split <;> simp
  · rename_i fd at'
    obtain ⟨m, swept, rfl⟩ := Option.map_eq_some_iff.1 e
    by_cases mine : g = f
    · subst mine
      simp only [State.put, Function.update_self]
      exact .other _ _ (by simp [at']) (by simp)
    · simp only [State.put, Function.update_of_ne mine]
      exact goes_remove swept
  · rename_i fd swept at'
    cases e
    refine goes_put (m := s.del fd) ?_ (.other _ _ (by simp [at']) (by simp))
    unfold State.del
    split <;> rfl
  · rename_i fd swept at'
    cases e
    exact goes_put (m := s.closeF fd) rfl (.other _ _ (by simp [at']) (by simp))
  · cases e

theorem goes_plain {l : Hook.Label} (other : plain l = true) (e : Hook.step inManager s l = some s') :
    Goes (s.calls g) (s'.calls g) := by
  cases l with
  | enter f name fd | test f timed | arm f | register f ok | resume f failed | expire f => cases other
  | syscall f outcome => exact goes_syscall e
  | socket f fd =>
    simp only [Hook.step, State.socket] at e
    split at e <;> cases e
    rename_i idle
    exact goes_put (m := s.handOut fd true) rfl (.other _ _ (by simp [idle.1]) (by simp))
  | get f =>
    simp only [Hook.step, State.get] at e
    split at e <;> cases e
    · rename_i fd at'
      refine goes_put rfl (.other _ _ (by simp [at']) ?_)
      split <;> simp
    · rename_i fd at'
      exact goes_put (m := s.create fd) rfl (.other _ _ (by simp [at']) (by simp))
  | close f fd =>
    simp only [Hook.step, State.close] at e
    split at e <;> cases e
    rename_i idle
    refine goes_put rfl (.other _ _ (by simp [idle]) ?_)
    split <;> simp
  | closeStep f => exact goes_closeStep e
  | opens fd socket =>
    simp only [Hook.step] at e
    split at e <;> cases e
    exact .same _
  | setUserNonblock ctx v =>
    cases e
    exact .same _
  | addEvent fd event waiter ok =>
    simp only [Hook.step] at e
    split at e
    · rename_i real
      obtain ⟨⟨m, done⟩, added, rfl⟩ := Option.map_eq_some_iff.1 e
      rw [calls_addEvent added]
      exact .same _
    · cases e
  | cancelEvent fd event => exact goes_remove e
  | cancelAll fd => exact goes_remove e
  | dispatch fd ready wake => exact goes_remove e

end Goes

/-! ## The steps of others on the manager -/

section Manager

variable {m m' : TimerManager.State} {l : TimerManager.Label} {t : Nat}

/-- Nobody has a pointer to the timer but its call, and it is no recurring one. -/
structure Private (m : TimerManager.State) (t : Nat) : Prop where
  known : t ∈ m.created
  once : (m.timer t).recurring = false
  alone : ∀ thread, ¬ Resets t (m.pc thread)
  live : t ∈ m.timers → (m.timer t).cb ≠ none

/-- Nobody puts it back. -/
theorem Private.was_in_set (h : Private m t) (untouched : target l ≠ some t) (move : TimerManager.Moves m l m')
    (present : t ∈ m'.timers) : t ∈ m.timers := by
  cases move with
  | added u ms cb recurring now new timers tickled ins =>
    rcases (ins.mem t).1 present with rfl | before
    · exact absurd h.known new
    · exact before
  | cancelled u cb known live => exact List.mem_of_mem_erase present
  | refreshed u cb now next live there timers ins =>
    rcases (ins.mem t).1 present with rfl | before
    · exact absurd rfl untouched
    · exact List.mem_of_mem_erase before
  | erased thread u ms cb fromNow here live there => exact List.mem_of_mem_erase present
  | wasReset thread u here timers tickled ins =>
    rcases (ins.mem t).1 present with rfl | before
    · exact absurd (by rw [here]; exact rfl) (h.alone thread)
    · exact before
  | firedAgain u rest queue recurs next timers ins =>
    rw [queue]
    exact List.mem_cons.2 ((ins.mem t).1 present)
  | firedOnce u rest queue once => exact queue ▸ List.mem_cons_of_mem u present
  | same | began | refused | updated | other => exact present

/-- Its callback stays while it is in the set. -/
theorem Private.keeps_cb (h : Private m t) (nodup : m.timers.Nodup) (untouched : target l ≠ some t)
    (move : TimerManager.Moves m l m') (present : t ∈ m'.timers) : (m'.timer t).cb = (m.timer t).cb := by
  have other {u : Nat} {timer : TimerManager.Timer} (ne : t ≠ u) : (Function.update m.timer u timer t).cb = (m.timer t).cb := by
    rw [Function.update_of_ne ne]
  cases move with
  | added u ms cb recurring now new timers tickled ins => exact other fun same => new (same ▸ h.known)
  | cancelled u cb known live => exact other fun same => untouched (congrArg some same.symm)
  | refreshed u cb now next live there timers ins => exact other fun same => untouched (congrArg some same.symm)
  | updated thread u ms fromNow now next here =>
    exact other fun same => h.alone thread (by rw [here, same]; exact rfl)
  | firedAgain u rest queue recurs next timers ins =>
    refine other fun same => ?_
    cases recurs.symm.trans (same ▸ h.once)
  | firedOnce u rest queue once =>
    rw [queue] at nodup
    exact other fun same => (List.nodup_cons.1 nodup).1 (same ▸ present)
  | same | began | erased | refused | wasReset | other => rfl

theorem Private.moves (h : Private m t) (nodup : m.timers.Nodup) (untouched : target l ≠ some t)
    (move : TimerManager.Moves m l m') : Private m' t ∧ (m'.timer t).next = (m.timer t).next := by
  have leaves := leaves_of_move move
  obtain ⟨next, once⟩ := leaves.timer t h.known untouched h.alone h.once
  refine ⟨⟨leaves.created t h.known, once, fun thread now => ?_, fun present => ?_⟩, next⟩
  · rcases leaves.resets thread t now with before | ⟨aimed, -⟩
    · exact h.alone thread before
    · exact untouched aimed
  · rw [h.keeps_cb nodup untouched move present]
    exact h.live (h.was_in_set untouched move present)

/-- What the loop of `listExpiredCb` takes is collected. -/
theorem collected_of_taken {rest : List Nat} (queue : m.timers = t :: rest) (e : TimerManager.step m .takeExpired = some m')
    (taken : m'.timers ≠ m.timers) : ∃ now, collected m .takeExpired = some (t, now) := by
  obtain ⟨⟨now, rollover⟩, active, rfl⟩ := Option.map_eq_some_iff.1 e
  refine ⟨now, ?_⟩
  by_cases due : m.due now rollover t = true
  · simp only [collected, active, queue, due, if_true]
  · refine absurd ?_ taken
    rw [TimerManager.State.due] at due
    simp only [TimerManager.State.takeExpired, queue, if_neg due]

/-- It stays in the set until `listExpiredCb` takes it. -/
theorem Private.stays_in_set (h : Private m t) (untouched : target l ≠ some t) (e : TimerManager.step m l = some m')
    (present : t ∈ m.timers) : t ∈ m'.timers ∨ ∃ now, collected m l = some (t, now) := by
  cases TimerManager.step_moves e with
  | added u ms cb recurring now new timers tickled ins => exact .inl ((ins.mem t).2 (.inr present))
  | cancelled u cb known live =>
    exact .inl ((List.mem_erase_of_ne fun same => untouched (congrArg some same.symm)).2 present)
  | refreshed u cb now next live there timers ins =>
    refine .inl ((ins.mem t).2 (.inr ((List.mem_erase_of_ne fun same => ?_).2 present)))
    exact untouched (congrArg some same.symm)
  | erased thread u ms cb fromNow here live there =>
    refine .inl ((List.mem_erase_of_ne fun same => h.alone thread ?_).2 present)
    rw [here]
    exact same.symm
  | wasReset thread u here timers tickled ins => exact .inl ((ins.mem t).2 (.inr present))
  | firedAgain u rest queue recurs next timers ins =>
    rw [queue] at present
    exact .inl ((ins.mem t).2 (List.mem_cons.1 present))
  | firedOnce u rest queue once =>
    rcases List.mem_cons.1 (queue ▸ present) with rfl | later
    · exact .inr (collected_of_taken queue e (by simp [queue]))
    · exact .inl later
  | same | began | refused | updated | other => exact .inl present

/-- Its own `cancel` takes it out. -/
theorem Private.cancel (h : Private m t) (nodup : m.timers.Nodup) (e : TimerManager.step m (.cancel t) = some m') :
    Private m' t ∧ t ∉ m'.timers ∧ m'.timer t = { m.timer t with cb := none } := by
  simp only [TimerManager.step, if_pos h.known] at e
  have is := TimerManager.locked_eq e
  subst is
  simp only [TimerManager.State.cancel]
  cases cb : (m.timer t).cb with
  | none =>
    exact ⟨h, fun present => h.live present cb, congrArg (fun cb => { m.timer t with cb }) cb⟩
  | some cb =>
    have out : t ∉ TimerManager.eraseTimer m.before t m.timers := by
      rw [TimerManager.eraseTimer_eq]
      exact nodup.not_mem_erase
    have timer : (m.setTimer t { m.timer t with cb := none }).timer t = { m.timer t with cb := none } := Function.update_self ..
    refine ⟨⟨h.known, ?_, h.alone, fun present => absurd present out⟩, out, timer⟩
    simp only [TimerManager.State.log, timer]
    exact h.once

/-- The call's own `addTimer`. -/
theorem Private.add {ms cb : Nat} {now : TimePoint} (resets : ∀ thread u, Resets u (m.pc thread) → u ∈ m.created)
    (e : TimerManager.step m (.addTimer t ms cb false now) = some m') :
    Private m' t ∧ t ∉ m.created ∧ t ∈ m'.timers ∧ (m'.timer t).next = addMillis now ms := by
  simp only [TimerManager.step] at e
  split at e
  · cases e
  · rename_i new
    have is := TimerManager.locked_eq e
    subst is
    have timer := m.addTimer_timer t ms cb false now
    refine ⟨⟨List.mem_cons_self, ?_, fun thread here => new (resets thread t here), fun _ => ?_⟩, new, ?_, ?_⟩
    · rw [timer, TimerManager.Timer.recurring_make]
    · rw [timer]
      simp
    · exact (TimerManager.mem_insertTimer (TimerManager.before_apart _)).2 (.inl rfl)
    · rw [timer, TimerManager.Timer.next_make]

end Manager

/-! ## The steps of a call -/

section Own

variable {inManager : Nat → Bool} {s s' : Hook.State} {f : Nat}

theorem enter_calls {name : Name} {fd : Nat} (e : Hook.step inManager s (.enter f name fd) = some s') :
    s.calls f = .idle ∧
      (s'.calls = s.calls ∨ ∃ ctx, s'.calls = Function.update s.calls f (.io .entered { name, fd, ctx })) := by
  simp only [Hook.step, Hook.State.enter] at e
  split at e
  · rename_i idle
    split at e <;> cases e
    · exact ⟨idle, .inr ⟨_, rfl⟩⟩
    · exact ⟨idle, .inl rfl⟩
  · cases e

theorem test_calls {timed : Bool} (e : Hook.step inManager s (.test f timed) = some s') :
    ∃ io, s.calls f = .io .entered io ∧ ∃ call, s'.calls = Function.update s.calls f call ∧
      (call = .idle ∨ call = .io .direct io ∨ call = .io .attempt { io with timed }) := by
  simp only [Hook.step, Hook.State.test] at e
  split at e
  · rename_i io at'
    refine ⟨io, at', ?_⟩
    split at e
    · cases e
      exact ⟨_, rfl, .inl rfl⟩
    · split at e <;> cases e
      · exact ⟨_, rfl, .inr (.inl rfl)⟩
      · exact ⟨_, rfl, .inr (.inr rfl)⟩
  · cases e

theorem arm_calls (e : Hook.step inManager s (.arm f) = some s') :
    ∃ io, s.calls f = .io .again io ∧ s'.calls = Function.update s.calls f
      (if inManager f then .io .adding { io with armed := io.armed || io.timed } else .io .fallback io) := by
  simp only [Hook.step, Hook.State.arm] at e
  split at e <;> cases e
  exact ⟨_, ‹_›, rfl⟩

/-- What `addConditionTimer` does in a round: a timer, or nothing where there is no timeout
or no manager. -/
inductive Arms (inManager : Nat → Bool) (s : State) (f t : Nat) (now : Int) : State → Prop where
  | timer (io : Io) (hook : Hook.State) (manager : TimerManager.State) (here : s.hook.calls f = .io .again io)
      (armed : Hook.step inManager s.hook (.arm f) = some hook) (managed : inManager f = true) (timed : io.timed = true)
      (since : s.begun f ≤ now) (read : now ≤ s.clock)
      (added : TimerManager.step s.manager (.addTimer t (s.timeout f) t false now) = some manager) :
      Arms inManager s f t now { s with
        hook, manager, timer := Function.update s.timer f (some t),
        capture := Function.update s.capture t (some ⟨f, s.call f, io.fd, io.name.event⟩) }
  | none (io : Io) (hook : Hook.State) (here : s.hook.calls f = .io .again io)
      (armed : Hook.step inManager s.hook (.arm f) = some hook) (without : (inManager f && io.timed) = false) :
      Arms inManager s f t now { s with hook }

theorem arms_of_arm {s s' : State} {t : Nat} {now : Int} (e : s.arm inManager f t now = some s') :
    Arms inManager s f t now s' := by
  simp only [State.arm] at e
  split at e
  · rename_i io here
    obtain ⟨hook, armed, e⟩ := Option.bind_eq_some_iff.1 e
    split at e
    · rename_i both
      obtain ⟨managed, timed⟩ := Bool.and_eq_true_iff.1 both
      split at e
      · rename_i reading
        obtain ⟨manager, added, rfl⟩ := Option.map_eq_some_iff.1 e
        exact .timer io hook manager here armed managed timed reading.1 reading.2 added
      · cases e
    · rename_i without
      cases e
      exact .none io hook here armed (Bool.eq_false_iff.2 without)
  · cases e

theorem register_calls {ok : Bool} (e : Hook.step inManager s (.register f ok) = some s') :
    ∃ io, s.calls f = .io .adding io ∧
      (s'.calls = Function.update s.calls f (.io .waiting io) ∨ s'.calls = Function.update s.calls f .idle) := by
  simp only [Hook.step, Hook.State.register] at e
  split at e
  · rename_i io at'
    refine ⟨io, at', ?_⟩
    obtain ⟨⟨m, done⟩, added, rfl⟩ := Option.map_eq_some_iff.1 e
    have calls := calls_addEvent added
    cases done with
    | true => exact .inl (by simp [Hook.State.put, calls])
    | false => exact .inr (by simp [Hook.State.ret, calls])
  · cases e

theorem resume_calls {failed : Bool} (e : Hook.step inManager s (.resume f failed) = some s') :
    ∃ io, s.calls f = .io .woken io ∧ ∃ call, s'.calls = Function.update s.calls f call ∧
      (call = .idle ∨ call = .io .attempt io ∧ io.cancelled = false) := by
  simp only [Hook.step, Hook.State.resume] at e
  split at e
  · rename_i io at'
    refine ⟨io, at', ?_⟩
    split at e
    · cases e
      exact ⟨_, rfl, .inl rfl⟩
    · rename_i going
      split at e <;> cases e
      · exact ⟨_, rfl, .inl rfl⟩
      · exact ⟨_, rfl, .inr ⟨rfl, Bool.eq_false_iff.2 going⟩⟩
  · cases e

theorem expire_calls (e : Hook.step inManager s (.expire f) = some s') :
    ∃ phase io, s.calls f = .io phase io ∧ s'.calls = Function.update s.calls f (.io phase { io with cancelled := true }) := by
  simp only [Hook.step, Hook.State.expire] at e
  split at e
  · split at e <;> cases e
    exact ⟨_, _, ‹_›, rfl⟩
  · cases e

end Own

end Mycoroutine.TimedCalls
