import Mycoroutine.Hook.TimedTimers

/-!
# Timeouts

No call is cancelled before its timeout has passed, and none is left waiting for ever: a
suspended call with a timeout has its timer in the set, or its callback is on its way, or
the `cancelEvent` that wakes it. There is one gap. A callback that runs between
`addConditionTimer` and `addEvent` finds nothing registered; the call is cancelled, and
waits without a timer.
-/

namespace Mycoroutine.TimedCalls
set_option autoImplicit false
open Interleave IOManager Hook
open Sleeps (target collected leaves_of_move of_collected expiring_step)
open TimerManager (addMillis le_addMillis_iff)

/-- The earliest time at which the present call may be cancelled. -/
def State.due (s : State) (f : Nat) : Int := s.begun f + s.timeout f * 1000000

/-- Deadlines exist, and `listExpiredCb` sees no clock rollback. -/
def Punctual (s : State) : Label → Prop
  | .arm f _ now => now + s.timeout f * 1000000 < 9223372036854775808
  | .manager (.listExpired _ rolloverNow) => s.manager.rollover rolloverNow = false
  | _ => True

structure OnTime (s : State) : Prop where
  start : 0 ≤ s.clock
  since : ∀ f, 0 ≤ s.begun f
  begun : ∀ f, s.begun f ≤ s.clock
  next : ∀ t c, s.capture t = some c → s.call c.fiber = c.call → s.due c.fiber ≤ (s.manager.timer t).next
  pending : ∀ t ∈ s.pending, ∀ c, s.capture t = some c → s.call c.fiber = c.call → s.due c.fiber ≤ s.clock
  cancelled : ∀ f phase io, s.hook.calls f = .io phase io → io.cancelled = true → s.due f ≤ s.clock
  reads : ∀ now rollover, s.manager.expiring = some (now, rollover) → rollover = false ∧ now ≤ s.clock

section Steps

variable {inManager : Nat → Bool} {s s' : State} {f t : Nat}

theorem onTime_init : OnTime (machine inManager).init := by
  constructor <;> simp [machine, Hook.machine, TimerManager.machine]

/-- A step that cancels no call, and starts none. -/
theorem OnTime.keeps (h : OnTime s) (clock : s'.clock = s.clock) (call : s'.call = s.call) (begun : s'.begun = s.begun)
    (timeout : s'.timeout = s.timeout) (capture : s'.capture = s.capture) (pending : ∀ t ∈ s'.pending, t ∈ s.pending)
    (next : ∀ t c, s.capture t = some c → (s'.manager.timer t).next = (s.manager.timer t).next)
    (calls : ∀ f phase io, s'.hook.calls f = .io phase io → io.cancelled = true →
      ∃ phase' io', s.hook.calls f = .io phase' io' ∧ io'.cancelled = true)
    (expiring : ∀ active, s'.manager.expiring = some active → s.manager.expiring = some active) : OnTime s' := by
  have due (f : Nat) : s'.due f = s.due f := by rw [State.due, State.due, begun, timeout]
  constructor
  case start => exact clock ▸ h.start
  case since => exact begun ▸ h.since
  case begun => exact begun ▸ clock ▸ h.begun
  case next =>
    intro t c captured present
    rw [capture] at captured
    rw [call] at present
    rw [due, next t c captured]
    exact h.next t c captured present
  case pending =>
    intro t waits c captured present
    rw [capture] at captured
    rw [call] at present
    rw [due, clock]
    exact h.pending t (pending t waits) c captured present
  case cancelled =>
    intro f phase io at' cancelled
    obtain ⟨phase', io', before, was⟩ := calls f phase io at' cancelled
    rw [due, clock]
    exact h.cancelled f phase' io' before was
  case reads => exact fun now rollover active => clock ▸ h.reads now rollover (expiring _ active)

theorem OnTime.tick {d : Nat} (h : OnTime s) : OnTime { s with clock := s.clock + d } := by
  have later : s.clock ≤ s.clock + d := by omega
  constructor
  case start => exact h.start.trans later
  case since => exact h.since
  case begun => exact fun f => (h.begun f).trans later
  case next => exact h.next
  case pending => exact fun t waits c captured present => (h.pending t waits c captured present).trans later
  case cancelled => exact fun f phase io at' cancelled => (h.cancelled f phase io at' cancelled).trans later
  case reads => exact fun now rollover active => (h.reads now rollover active).imp_right later.trans'

/-- The number is new, and no timer has it. -/
theorem OnTime.enter {name : Name} {fd : Nat} (h : OnTime s) (timed : Timed s) (e : s.enter inManager f name fd = some s') :
    OnTime s' := by
  obtain ⟨hook, entered, rfl⟩ := Option.map_eq_some_iff.1 e
  obtain ⟨idle, calls⟩ := enter_calls entered
  have before {u : Nat} {c : Capture} (captured : s.capture u = some c)
      (present : Function.update s.call f s.made c.fiber = c.call) : s.call c.fiber = c.call := by
    by_cases mine : c.fiber = f
    · have old := timed.made u c captured
      rw [mine, Function.update_self] at present
      omega
    · rwa [Function.update_of_ne mine] at present
  constructor
  case start => exact h.start
  case since => exact h.since
  case begun => exact h.begun
  case next => exact fun u c captured present => h.next u c captured (before captured present)
  case pending => exact fun u waits c captured present => h.pending u waits c captured (before captured present)
  case cancelled =>
    intro g phase io at' cancelled
    rcases calls with same | ⟨ctx, updated⟩
    · simp only [same] at at'
      exact h.cancelled g phase io at' cancelled
    · simp only [updated] at at'
      by_cases mine : g = f
      · subst mine
        rw [Function.update_self] at at'
        cases at'
        cases cancelled
      · rw [Function.update_of_ne mine] at at'
        exact h.cancelled g phase io at' cancelled
  case reads => exact h.reads

/-- The timeout is read before there is a timer. -/
theorem OnTime.test {timeout : Option Nat} (h : OnTime s) (timed : Timed s) (e : s.test inManager f timeout = some s') :
    OnTime s' := by
  obtain ⟨hook, tested, rfl⟩ := Option.map_eq_some_iff.1 e
  obtain ⟨io, here, call, calls, which⟩ := test_calls tested
  have other {u : Nat} {c : Capture} (captured : s.capture u = some c) (present : s.call c.fiber = c.call) : c.fiber ≠ f :=
    fun mine => by
      have armed := (timed.own u c .entered io captured (mine ▸ here) present).1
      rw [(timed.fresh f io here).1] at armed
      cases armed
  have due {g : Nat} (mine : g ≠ f) : State.due { s with
      hook, timeout := Function.update s.timeout f (timeout.getD 0), begun := Function.update s.begun f s.clock } g =
        s.due g := by
    simp only [State.due, Function.update_of_ne mine]
  constructor
  case start => exact h.start
  case since =>
    intro g
    by_cases mine : g = f
    · subst mine
      simp only [Function.update_self]
      exact h.start
    · simp only [Function.update_of_ne mine]
      exact h.since g
  case begun =>
    intro g
    by_cases mine : g = f
    · subst mine
      simp only [Function.update_self]
      exact Int.le_refl _
    · simp only [Function.update_of_ne mine]
      exact h.begun g
  case next =>
    intro u c captured present
    rw [due (other captured present)]
    exact h.next u c captured present
  case pending =>
    intro u waits c captured present
    rw [due (other captured present)]
    exact h.pending u waits c captured present
  case cancelled =>
    intro g phase own at' cancelled
    simp only [calls] at at'
    by_cases mine : g = f
    · subst mine
      rw [Function.update_self] at at'
      have new : own.cancelled = io.cancelled := by
        rcases which with rfl | rfl | rfl <;> cases at' <;> rfl
      rw [new, (timed.fresh g io here).2] at cancelled
      cases cancelled
    · rw [Function.update_of_ne mine] at at'
      rw [due mine]
      exact h.cancelled g phase own at' cancelled
  case reads => exact h.reads

/-- Who is cancelled after `addConditionTimer` was it before. -/
theorem cancelled_before_arm {hook : Hook.State} (e : Hook.step inManager s.hook (.arm f) = some hook) :
    ∀ g phase io, hook.calls g = .io phase io → io.cancelled = true →
      ∃ phase' io', s.hook.calls g = .io phase' io' ∧ io'.cancelled = true := by
  obtain ⟨own, here, calls⟩ := arm_calls e
  intro g phase io at' cancelled
  rw [calls] at at'
  by_cases mine : g = f
  · subst mine
    rw [Function.update_self] at at'
    refine ⟨.again, own, here, ?_⟩
    split at at' <;> cases at' <;> exact cancelled
  · rw [Function.update_of_ne mine] at at'
    exact ⟨phase, io, at', cancelled⟩

/-- A round's timer is not due before the timeout of the call. -/
theorem OnTime.armed {hook : Hook.State} {m : TimerManager.State} {io : Io} {now : Int} (h : OnTime s) (timed : Timed s)
    (nodup : s.manager.timers.Nodup) (armed : Hook.step inManager s.hook (.arm f) = some hook) (since : s.begun f ≤ now)
    (exists' : now + s.timeout f * 1000000 < 9223372036854775808)
    (added : TimerManager.step s.manager (.addTimer t (s.timeout f) t false now) = some m) :
    OnTime { s with hook, manager := m, timer := Function.update s.timer f (some t),
                    capture := Function.update s.capture t (some ⟨f, s.call f, io.fd, io.name.event⟩) } := by
  obtain ⟨-, new, -, deadline⟩ := Private.add timed.resets added
  have other {u : Nat} {c : Capture} (captured : s.capture u = some c) : u ≠ t := fun same =>
    new (same ▸ (timed.priv u c captured).known)
  have before {u : Nat} {c d : Capture} (ne : u ≠ t)
      (captured : Function.update s.capture t (some d) u = some c) : s.capture u = some c := by
    rwa [Function.update_of_ne ne] at captured
  constructor
  case start => exact h.start
  case since => exact h.since
  case begun => exact h.begun
  case next =>
    intro u c captured present
    by_cases same : u = t
    · subst same
      simp only [Function.update_self] at captured
      cases captured
      have start := h.since f
      have late : now + s.timeout f * 1000000 ≤ addMillis now (s.timeout f) :=
        (le_addMillis_iff (by omega) (Int.le_refl _)).2 ⟨rfl, exists'⟩
      simp only [State.due, deadline]
      omega
    · have captured := before same captured
      have kept := ((timed.priv u c captured).moves nodup (by simp [target]) (TimerManager.step_moves added)).2
      simp only [kept]
      exact h.next u c captured present
  case pending =>
    intro u waits c captured present
    obtain ⟨d, also⟩ := Option.isSome_iff_exists.1 (timed.pending u waits)
    exact h.pending u waits c (before (other also) captured) present
  case cancelled =>
    intro g phase io' at' was
    obtain ⟨phase', own, there, is⟩ := cancelled_before_arm armed g phase io' at' was
    exact h.cancelled g phase' own there is
  case reads =>
    intro now rollover active
    rcases expiring_step added active with active | ⟨_, _, is, -⟩
    · exact h.reads now rollover active
    · cases is

theorem OnTime.arm {now : Int} (h : OnTime s) (timed : Timed s) (nodup : s.manager.timers.Nodup)
    (punctual : Punctual s (.arm f t now)) (arms : Arms inManager s f t now s') : OnTime s' := by
  cases arms with
  | timer io hook m here armed managed with' since read added => exact h.armed timed nodup armed since punctual added
  | none io hook here armed without =>
    exact h.keeps rfl rfl rfl rfl rfl (fun _ => id) (fun _ _ _ => rfl) (cancelled_before_arm armed) fun _ => id

/-- `timer->cancel()` after a step that cancels no call. -/
theorem OnTime.ends {hook : Hook.State} (h : OnTime s) (timed : Timed s) (nodup : s.manager.timers.Nodup)
    (calls : ∀ g phase io, hook.calls g = .io phase io → io.cancelled = true →
      ∃ phase' io', s.hook.calls g = .io phase' io' ∧ io'.cancelled = true)
    (e : { s with hook }.cancelTimer f = some s') : OnTime s' := by
  have manager := (cancelTimer_moves e).2
  obtain ⟨m, rfl, kept, -⟩ := cancels (s := { s with hook }) timed.priv nodup (fun t is => by
    obtain ⟨_, _, _, _, captured⟩ := timed.timer f t is
    rw [captured]
    rfl) e
  refine h.keeps rfl rfl rfl rfl rfl (fun _ => id) (fun t c captured => (kept t c captured).2.1) calls ?_
  rintro ⟨now, rollover⟩ active
  rcases manager with same | ⟨t, cancelled⟩
  · exact same ▸ active
  · rcases expiring_step cancelled active with before | ⟨_, _, is, -⟩
    · exact before
    · cases is

/-- A fiber goes on in its call, or ends it. -/
theorem cancelled_before {hook : Hook.State} {call : Hook.Call} {phase : Phase} {io : Io} (here : s.hook.calls f = .io phase io)
    (calls : hook.calls = Function.update s.hook.calls f call) (after : call = .idle ∨ ∃ phase', call = .io phase' io) :
    ∀ g phase' io', hook.calls g = .io phase' io' → io'.cancelled = true →
      ∃ phase own, s.hook.calls g = .io phase own ∧ own.cancelled = true := by
  intro g phase' io' at' cancelled
  rw [calls] at at'
  by_cases mine : g = f
  · subst mine
    rw [Function.update_self] at at'
    rcases after with rfl | ⟨phase'', rfl⟩ <;> cases at'
    exact ⟨phase, io, here, cancelled⟩
  · rw [Function.update_of_ne mine] at at'
    exact ⟨phase', io', at', cancelled⟩

theorem OnTime.register {ok : Bool} (h : OnTime s) (timed : Timed s) (nodup : s.manager.timers.Nodup)
    (e : s.register inManager f ok = some s') : OnTime s' := by
  simp only [State.register] at e
  split at e
  · rename_i io here
    obtain ⟨hook, registered, e⟩ := Option.bind_eq_some_iff.1 e
    obtain ⟨own, also, calls⟩ := register_calls registered
    cases here.symm.trans also
    have cancelled := calls.elim (cancelled_before here · (.inr ⟨_, rfl⟩)) (cancelled_before here · (.inl rfl))
    split at e
    · cases e
      exact h.keeps rfl rfl rfl rfl rfl (fun _ => id) (fun _ _ _ => rfl) cancelled fun _ => id
    · exact h.ends timed nodup cancelled e
  · cases e

theorem OnTime.resume {failed : Bool} (h : OnTime s) (timed : Timed s) (nodup : s.manager.timers.Nodup)
    (e : s.resume inManager f failed = some s') : OnTime s' := by
  obtain ⟨hook, resumed, cancelled⟩ := Option.bind_eq_some_iff.1 e
  obtain ⟨io, here, call, calls, which⟩ := resume_calls resumed
  exact h.ends timed nodup (cancelled_before here calls (which.imp_right fun still => ⟨_, still.1⟩)) cancelled

/-- What `listExpiredCb` takes is due. -/
theorem OnTime.manager {l : TimerManager.Label} {m : TimerManager.State} (h : OnTime s) (timed : Timed s)
    (nodup : s.manager.timers.Nodup) (punctual : Punctual s (.manager l)) (free : ¬ (target l).any s.captured = true)
    (reads : s.reads l = true) (e : TimerManager.step s.manager l = some m) :
    OnTime { s with manager := m, pending := s.pending ++ ((collected s.manager l).map (·.1)).toList.filter s.captured } := by
  have moves := TimerManager.step_moves e
  constructor
  case start => exact h.start
  case since => exact h.since
  case begun => exact h.begun
  case next =>
    intro u c captured present
    have kept := ((timed.priv u c captured).moves nodup (not_captured free captured) moves).2
    simp only [kept]
    exact h.next u c captured present
  case pending =>
    intro u waits c captured present
    rcases List.mem_append.1 waits with before | taken
    · exact h.pending u before c captured present
    · have taken := (List.mem_filter.1 taken).1
      rw [Option.mem_toList, Option.map_eq_some_iff] at taken
      obtain ⟨⟨v, now⟩, took, rfl⟩ := taken
      obtain ⟨-, rollover, active, expired⟩ := of_collected took
      obtain ⟨forward, read⟩ := h.reads now rollover active
      calc s.due c.fiber ≤ (s.manager.timer v).next := h.next v c captured present
        _ ≤ now := expired forward
        _ ≤ s.clock := read
  case cancelled => exact h.cancelled
  case reads =>
    intro now rollover active
    rcases expiring_step e active with before | ⟨read, rolloverNow, rfl, rolled⟩
    · exact h.reads now rollover before
    · refine ⟨rolled.trans punctual, ?_⟩
      simp only [TimerManager.step] at e
      have same := TimerManager.locked_eq e
      subst same
      cases active
      exact of_decide_eq_true reads

theorem OnTime.called (h : OnTime s) (waits : t ∈ s.pending) (called : Called inManager s t s') : OnTime s' := by
  cases called with
  | expires c phase io hook captured here present going calls expired =>
    constructor
    case start => exact h.start
    case since => exact h.since
    case begun => exact h.begun
    case next => exact h.next
    case pending => exact fun u waits => h.pending u (List.mem_of_mem_erase waits)
    case cancelled =>
      intro g phase' own at' cancelled
      simp only [calls] at at'
      by_cases mine : g = c.fiber
      · subst mine
        exact h.pending t waits c captured present
      · rw [Function.update_of_ne mine] at at'
        exact h.cancelled g phase' own at' cancelled
    case reads => exact h.reads
  | stale =>
    exact h.keeps rfl rfl rfl rfl rfl (fun _ => List.mem_of_mem_erase) (fun _ _ _ => rfl)
      (fun _ phase io at' cancelled => ⟨phase, io, at', cancelled⟩) fun _ => id

theorem OnTime.goes {hook : Hook.State} {firing : List Capture} (h : OnTime s)
    (goes : ∀ g, Goes (s.hook.calls g) (hook.calls g)) : OnTime { s with hook, firing } := by
  refine h.keeps rfl rfl rfl rfl rfl (fun _ => id) (fun _ _ _ => rfl) (fun g phase io at' cancelled => ?_) fun _ => id
  obtain ⟨before, was, -⟩ := goes_io (at' ▸ goes g)
  exact ⟨before, io, was, cancelled⟩

theorem OnTime.step {l : Label} (h : OnTime s) (timed : Timed s) (nodup : s.manager.timers.Nodup) (punctual : Punctual s l)
    (e : step inManager s l = some s') : OnTime s' := by
  cases l with
  | tick d =>
    cases e
    exact h.tick
  | hook l =>
    simp only [TimedCalls.step] at e
    split at e
    · rename_i other
      obtain ⟨hook, moved, rfl⟩ := Option.map_eq_some_iff.1 e
      exact h.goes fun g => goes_plain other moved
    · cases e
  | enter f name fd => exact h.enter timed e
  | test f timeout => exact h.test timed e
  | arm f t now => exact h.arm timed nodup punctual (arms_of_arm e)
  | register f ok => exact h.register timed nodup e
  | resume f failed => exact h.resume timed nodup e
  | manager l =>
    simp only [TimedCalls.step] at e
    split at e
    · cases e
    · rename_i free
      rw [Bool.or_eq_true, not_or, Bool.not_eq_true', Bool.not_eq_false] at free
      obtain ⟨m, moved, rfl⟩ := Option.map_eq_some_iff.1 e
      exact h.manager timed nodup punctual free.1 free.2 moved
  | callback t =>
    obtain ⟨waits, called⟩ := callback_called e
    exact h.called waits called
  | fire c =>
    simp only [TimedCalls.step] at e
    split at e
    · obtain ⟨hook, cancelled, rfl⟩ := Option.map_eq_some_iff.1 e
      exact h.goes fun g => goes_plain (l := .cancelEvent c.fd c.event) rfl cancelled
    · cases e

theorem onTime_of_reach (h : (machine inManager).ReachIf Punctual s) : OnTime s :=
  h.invariant_with (fun s => Timed s ∧ s.manager.timers.Nodup) (fun _ reach => ⟨timed_of_reach reach, nodup_of_reach reach⟩)
    onTime_init fun _ _ _ known inv punctual e _ => inv.step known.1 known.2 punctual e

end Steps

/-- **Main theorem.** No call is cancelled before its timeout has passed, and a timer of a
call that is still in the set is the present timer of a call that has not returned. -/
theorem not_before_timeout (inManager : Nat → Bool) (s : State) (h : (machine inManager).ReachIf Punctual s) :
    (∀ f phase io, s.hook.calls f = .io phase io → io.cancelled = true →
      s.begun f + s.timeout f * 1000000 ≤ s.clock) ∧
    ∀ t c, s.capture t = some c → t ∈ s.manager.timers → s.timer c.fiber = some t ∧ s.call c.fiber = c.call ∧
      ∃ phase io, s.hook.calls c.fiber = .io phase io ∧ held phase = true := by
  refine ⟨(onTime_of_reach h).cancelled, fun t c captured present => ?_⟩
  have timed := timed_of_reach h
  have its := timed.set t c captured present
  obtain ⟨phase, io, at', with', also⟩ := timed.timer c.fiber t its
  have same : s.call c.fiber = c.call := congrArg Capture.call (Option.some.inj (also.symm.trans captured))
  exact ⟨its, same, phase, io, at', with'⟩

/-- Fiber 2 waits in `recv` on the number 5 with a timeout of 3 ms, which pass. -/
theorem not_before_timeout_three : ∃ (s : State) (io : Io), s.hook.calls 2 = .io .waiting io ∧ io.cancelled = true ∧
    s.manager.timers = [] ∧ 3000000 ≤ s.clock := by
  have start : (machine fun _ => true).ReachIf Punctual _ := .init
  have made := ((start.next (.hook (.socket 1 5)) trivial rfl).next (.hook (.get 1)) trivial rfl).next (.hook (.get 1)) trivial rfl
  have reads := ((made.next (.enter 2 .recv 5) trivial rfl).next (.test 2 (some 3)) trivial rfl).next
    (.hook (.syscall 2 .again)) trivial rfl
  have exists' : (0 + 3 * 1000000 : Int) < 9223372036854775808 := by decide
  have waits := (reads.next (.arm 2 7 0) exists' rfl).next (.register 2 true) trivial rfl
  have taken := ((waits.next (.tick 3000000) trivial rfl).next (.manager (.listExpired 3000000 0)) rfl rfl).next
    (.manager .takeExpired) trivial rfl
  have called := taken.next (.callback 7) trivial rfl
  exact ⟨_, _, rfl, rfl, rfl, (not_before_timeout _ _ called).1 2 _ _ rfl rfl⟩

/-! ## What wakes a call -/

/-- A suspended call that was cancelled has its `cancelEvent` before it, or was cancelled too early. -/
def Wakes (s : State) : Prop :=
  ∀ f io, s.hook.calls f = .io .waiting io → io.cancelled = true → s.late f = false →
    ⟨f, s.call f, io.fd, io.name.event⟩ ∈ s.firing

section Steps

variable {inManager : Nat → Bool} {s s' : State} {f t : Nat}

/-- It finds the fiber registered, and wakes it. -/
theorem cancelEvent_wakes {s : Hook.State} {io : Io} (clean : Clean s) (suspended : s.calls f = .io .waiting io) :
    ∃ s', Hook.step inManager s (.cancelEvent io.fd io.name.event) = some s' ∧ s'.calls f = .io .woken io := by
  have registered := clean.waiting f io suspended
  have wellFormed := clean.wellFormed io.fd
  have has := FdContext.registered_has wellFormed registered
  have subscribed : s.interest io.fd = true := (clean.interest io.fd).2 fun none => by
    rw [none] at has
    cases event : io.name.event <;> rw [event] at has <;> cases has
  have ends : (s.contexts io.fd).Ends ((s.contexts io.fd).cancelEvent io.name.event (s.interest io.fd)) := .cancelEvent wellFormed
  obtain ⟨r, exit⟩ := ends.exit
  have runs : ∃ s', Hook.step inManager s (.cancelEvent io.fd io.name.event) = some s' := by
    simp only [Hook.step, Hook.State.cancelEvent, Hook.State.remove, exit]
    exact ⟨_, rfl⟩
  obtain ⟨s', e⟩ := runs
  refine ⟨s', e, ?_⟩
  obtain ⟨after, told, -⟩ := clean.remove (.cancelEvent wellFormed) e
  have gone : (s'.contexts io.fd).events.has io.name.event = false := by
    rw [told (by rw [has, subscribed, Bool.and_self]), FdContext.has_erase]
    simp
  generalize is : s'.calls f = call
  have goes : Goes (.io .waiting io) call := by
    have goes := goes_plain (g := f) (l := .cancelEvent io.fd io.name.event) rfl e
    rwa [suspended, is] at goes
  cases goes with
  | woken => rfl
  | same =>
    have still := FdContext.registered_has (after.wellFormed io.fd) (after.waiting f io is)
    cases gone.symm.trans still
  | out phase io call issues off => cases issues
  | other call call' before after => exact absurd rfl (before _ _)

theorem wakes_init : Wakes (machine inManager).init := by
  intro f io at'
  cases at'

/-- A fiber that is suspended after a step of a call was it before, in the same call. -/
theorem Wakes.keeps (h : Wakes s) (call : ∀ f io, s'.hook.calls f = .io .waiting io → s'.call f = s.call f)
    (late : s'.late = s.late) (firing : s'.firing = s.firing)
    (calls : ∀ f io, s'.hook.calls f = .io .waiting io → s.hook.calls f = .io .waiting io) : Wakes s' := by
  intro f io at' cancelled early
  rw [call f io at', firing]
  exact h f io (calls f io at') cancelled (late ▸ early)

/-- One fiber goes on, and is not suspended. -/
theorem waiting_before {s s' : Hook.State} {call : Hook.Call} (calls : s'.calls = Function.update s.calls f call)
    (after : ∀ io, call ≠ .io .waiting io) : ∀ g io, s'.calls g = .io .waiting io → g ≠ f ∧ s.calls g = .io .waiting io := by
  intro g io at'
  rw [calls] at at'
  by_cases mine : g = f
  · subst mine
    rw [Function.update_self] at at'
    exact absurd at' (after io)
  · rw [Function.update_of_ne mine] at at'
    exact ⟨mine, at'⟩

theorem Wakes.ends {hook : Hook.State} {call : Hook.Call} (h : Wakes s) (calls : hook.calls = Function.update s.hook.calls f call)
    (after : call = .idle ∨ ∃ io, call = .io .attempt io) (e : { s with hook }.cancelTimer f = some s') : Wakes s' := by
  have before := waiting_before calls (by rcases after with rfl | ⟨io, rfl⟩ <;> simp)
  unfold State.cancelTimer at e
  split at e
  · obtain ⟨m, -, rfl⟩ := Option.map_eq_some_iff.1 e
    exact h.keeps (fun _ _ _ => rfl) rfl rfl fun g io at' => (before g io at').2
  · cases e
    exact h.keeps (fun _ _ _ => rfl) rfl rfl fun g io at' => (before g io at').2

theorem Wakes.register {ok : Bool} (h : Wakes s) (e : s.register inManager f ok = some s') : Wakes s' := by
  simp only [State.register] at e
  split at e
  · rename_i io here
    obtain ⟨hook, registered, e⟩ := Option.bind_eq_some_iff.1 e
    obtain ⟨own, also, calls⟩ := register_calls registered
    cases here.symm.trans also
    split at e
    · rename_i waits
      cases e
      intro g io' at' cancelled early
      by_cases mine : g = f
      · subst mine
        simp only [waits] at at'
        cases at'
        simp only [Function.update_self, cancelled] at early
        cases early
      · have at' : hook.calls g = .io .waiting io' := at'
        simp only [Function.update_of_ne mine] at early
        rcases calls with calls | calls <;> rw [calls, Function.update_of_ne mine] at at' <;> exact h g io' at' cancelled early
    · rename_i returned
      refine h.ends (calls.resolve_left fun waits => returned ?_) (.inl rfl) e
      rw [waits, Function.update_self]
  · cases e

/-- The callback goes on to `cancelEvent` with what the call waits for. -/
theorem Wakes.called (h : Wakes s) (timed : Timed s) (called : Called inManager s t s') : Wakes s' := by
  cases called with
  | expires c phase io hook captured here present going calls expired =>
    intro g own at' cancelled early
    simp only [calls] at at'
    by_cases mine : g = c.fiber
    · subst mine
      rw [Function.update_self] at at'
      cases at'
      obtain ⟨-, fd, event⟩ := timed.own t c .waiting io captured here present
      rw [← fd, ← event, present]
      exact List.mem_append_right _ List.mem_cons_self
    · rw [Function.update_of_ne mine] at at'
      exact List.mem_append_left _ (h g own at' cancelled early)
  | stale => exact h

/-- The fiber of the capture is awake then; the others have theirs. -/
theorem Wakes.fire {c : Capture} {hook : Hook.State} (h : Wakes s) (clean : Clean s.hook)
    (e : Hook.step inManager s.hook (.cancelEvent c.fd c.event) = some hook) :
    Wakes { s with hook, firing := s.firing.erase c } := by
  intro f io at' cancelled early
  obtain ⟨before, was, -, -, waits⟩ := goes_io (at' ▸ goes_plain (g := f) (l := .cancelEvent c.fd c.event) rfl e)
  obtain rfl := waits rfl
  refine (List.mem_erase_of_ne fun same => ?_).2 (h f io was cancelled early)
  obtain ⟨hook', e', woken⟩ : ∃ hook', Hook.step inManager s.hook (.cancelEvent io.fd io.name.event) = some hook' ∧
    hook'.calls f = .io .woken io := cancelEvent_wakes clean was
  rw [← same] at e
  cases e.symm.trans e'
  cases woken.symm.trans at'

theorem Wakes.step {l : Label} (h : Wakes s) (timed : Timed s) (clean : Clean s.hook) (e : step inManager s l = some s') :
    Wakes s' := by
  cases l with
  | tick d =>
    cases e
    exact h
  | hook l =>
    simp only [TimedCalls.step] at e
    split at e
    · rename_i other
      obtain ⟨hook, moved, rfl⟩ := Option.map_eq_some_iff.1 e
      refine h.keeps (fun _ _ _ => rfl) rfl rfl fun g io at' => ?_
      obtain ⟨before, was, -, -, waits⟩ := goes_io (at' ▸ goes_plain (g := g) other moved)
      exact waits rfl ▸ was
    · cases e
  | enter f name fd =>
    obtain ⟨hook, entered, rfl⟩ := Option.map_eq_some_iff.1 e
    obtain ⟨idle, calls⟩ := enter_calls entered
    have before (g : Nat) (io : Io) (at' : hook.calls g = .io .waiting io) : g ≠ f ∧ s.hook.calls g = .io .waiting io := by
      rcases calls with same | ⟨ctx, updated⟩
      · rw [same] at at'
        refine ⟨fun mine => ?_, at'⟩
        cases idle.symm.trans (mine ▸ at')
      · exact waiting_before updated (by simp) g io at'
    exact h.keeps (fun g io at' => Function.update_of_ne (before g io at').1 ..) rfl rfl fun g io at' => (before g io at').2
  | test f timeout =>
    obtain ⟨hook, tested, rfl⟩ := Option.map_eq_some_iff.1 e
    obtain ⟨io, -, call, calls, which⟩ := test_calls tested
    have before := waiting_before calls (by rcases which with rfl | rfl | rfl <;> simp)
    exact h.keeps (fun _ _ _ => rfl) rfl rfl fun g io at' => (before g io at').2
  | arm f t now =>
    cases arms_of_arm e with
    | timer io hook m here armed | none io hook here armed =>
      obtain ⟨own, -, calls⟩ := arm_calls armed
      have before := waiting_before calls (by split <;> simp)
      exact h.keeps (fun _ _ _ => rfl) rfl rfl fun g io at' => (before g io at').2
  | register f ok => exact h.register e
  | resume f failed =>
    obtain ⟨hook, resumed, cancelled⟩ := Option.bind_eq_some_iff.1 e
    obtain ⟨io, -, call, calls, which⟩ := resume_calls resumed
    exact h.ends calls (which.imp_right fun still => ⟨_, still.1⟩) cancelled
  | manager l =>
    simp only [TimedCalls.step] at e
    split at e
    · cases e
    · obtain ⟨m, -, rfl⟩ := Option.map_eq_some_iff.1 e
      exact h
  | callback t => exact h.called timed (callback_called e).2
  | fire c =>
    simp only [TimedCalls.step] at e
    split at e
    · obtain ⟨hook, cancelled, rfl⟩ := Option.map_eq_some_iff.1 e
      exact h.fire clean cancelled
    · cases e

theorem wakes_of_reach (h : (machine inManager).ReachIf Outside s) : Wakes s :=
  h.invariant_with (fun s => Timed s ∧ Clean s.hook) (fun _ reach => ⟨timed_of_reach reach, clean_of_reach (reach_hook reach)⟩)
    wakes_init fun _ _ _ known inv _ e _ => inv.step known.1 known.2 e

variable (inManager) in
/-- The callback of a call that waits for it runs, and goes on to `cancelEvent`. -/
theorem callback_fires {c : Capture} {phase : Phase} {io : Io} (timed : Timed s) (waits : t ∈ s.pending)
    (captured : s.capture t = some c) (here : s.hook.calls c.fiber = .io phase io) (present : s.call c.fiber = c.call)
    (going : io.cancelled = false) :
    ∃ s', step inManager s (.callback t) = some s' ∧ c ∈ s'.firing ∧
      s'.hook.calls c.fiber = .io phase { io with cancelled := true } := by
  have armed := (timed.own t c phase io captured here present).1
  refine ⟨{ s with hook := s.hook.put c.fiber (.io phase { io with cancelled := true }), pending := s.pending.erase t,
                   firing := s.firing ++ [c] }, ?_, List.mem_append_right _ List.mem_cons_self, Function.update_self ..⟩
  simp only [TimedCalls.step, State.callback, if_pos waits, captured, here, present, going, Hook.step, Hook.State.expire, armed,
    and_self, if_true, Option.map_some]

end Steps

/-- **Main theorem.** A suspended call with a timeout that is not cancelled has its timer in
the set, or its callback before it, which then goes on to `cancelEvent`; one that is
cancelled has its `cancelEvent` before it, which wakes it, unless it was cancelled before
it was registered. -/
theorem timeout_wakes (inManager : Nat → Bool) (s : State) (h : (machine inManager).ReachIf Outside s) :
    ∀ f io, s.hook.calls f = .io .waiting io →
      (io.timed = true → io.cancelled = false → ∃ t, s.capture t = some ⟨f, s.call f, io.fd, io.name.event⟩ ∧
        (t ∈ s.manager.timers ∨ t ∈ s.pending ∧ ∃ m, step inManager s (.callback t) = some m ∧
          ⟨f, s.call f, io.fd, io.name.event⟩ ∈ m.firing)) ∧
      (io.cancelled = true → s.late f = false → ∃ m, step inManager s (.fire ⟨f, s.call f, io.fd, io.name.event⟩) = some m ∧
        m.hook.calls f = .io .woken io) := by
  intro f io suspended
  have timed := timed_of_reach h
  constructor
  · intro with' going
    obtain ⟨t, is, there⟩ := timed.covered f .waiting io suspended rfl with' going
    obtain ⟨phase, own, at', -, captured⟩ := timed.timer f t is
    cases suspended.symm.trans at'
    refine ⟨t, captured, there.imp_right fun waits => ⟨waits, ?_⟩⟩
    obtain ⟨m, runs, fires, -⟩ := callback_fires inManager timed waits captured suspended rfl going
    exact ⟨m, runs, fires⟩
  · intro cancelled early
    have fires := wakes_of_reach h f io suspended cancelled early
    obtain ⟨hook, e, woken⟩ : ∃ hook, Hook.step inManager s.hook (.cancelEvent io.fd io.name.event) = some hook ∧
      hook.calls f = .io .woken io := cancelEvent_wakes (clean_of_reach (reach_hook h)) suspended
    refine ⟨{ s with hook, firing := s.firing.erase ⟨f, s.call f, io.fd, io.name.event⟩ }, ?_, woken⟩
    simp only [step, if_pos fires, e, Option.map_some]

theorem outside_alone {s : State} {io : Io} {ok : Bool} (here : s.hook.calls 0 = .io .adding io)
    (others : ∀ g, s.hook.calls (g + 1) = .idle) : Outside s (.register 0 ok) :=
  adds_alone here others

/-- Fiber 0 waits in `recv` on the number 5 with a timeout of 3 ms, and its callback runs. -/
theorem timeout_wakes_three : ∃ (s m : State) (io : Io), s.hook.calls 0 = .io .waiting io ∧ s.manager.timers = [] ∧
    step (fun _ => true) s (.fire ⟨0, 0, 5, .read⟩) = some m ∧ m.hook.calls 0 = .io .woken io := by
  have start : (machine fun _ => true).ReachIf Outside _ := .init
  have made := ((start.next (.hook (.socket 0 5)) trivial rfl).next (.hook (.get 0)) trivial rfl).next (.hook (.get 0)) trivial rfl
  have reads := (((made.next (.enter 0 .recv 5) trivial rfl).next (.test 0 (some 3)) trivial rfl).next
    (.hook (.syscall 0 .again)) trivial rfl).next (.arm 0 7 0) trivial rfl
  have waits := reads.next (.register 0 true) (outside_alone rfl fun _ => rfl) rfl
  have taken := ((waits.next (.tick 3000000) trivial rfl).next (.manager (.listExpired 3000000 0)) trivial rfl).next
    (.manager .takeExpired) trivial rfl
  have called := taken.next (.callback 7) trivial rfl
  obtain ⟨m, fires, woken⟩ := (timeout_wakes _ _ called 0 _ rfl).2 rfl rfl
  exact ⟨_, m, _, rfl, rfl, fires, woken⟩

/-- The callback of a timer of 0 ms runs before `addEvent`: fiber 2 is suspended, and
nothing is left that ends its call in time. -/
theorem waits_without_timer : ∃ (s : State) (io : Io), (machine fun _ => true).Reach s ∧ s.hook.calls 2 = .io .waiting io ∧
    io.timed = true ∧ s.manager.timers = [] ∧ s.pending = [] ∧ s.firing = [] := by
  have run := Machine.reach_of_exec (rfl : (machine fun _ => true).exec (machine fun _ => true).init
    [.hook (.socket 1 5), .hook (.get 1), .hook (.get 1), .enter 2 .recv 5, .test 2 (some 0), .hook (.syscall 2 .again), .arm 2 7 0,
     .manager (.listExpired 0 0), .manager .takeExpired, .callback 7, .fire ⟨2, 0, 5, .read⟩, .register 2 true] = some _)
  exact ⟨_, _, run, rfl, rfl, rfl, rfl, rfl⟩

end Mycoroutine.TimedCalls
