import Mycoroutine.Hook.TimedCalls

/-!
# The timers of the calls

A timer of a call is in the set, or on its way to its callback, only while the call has
not come to its `timer->cancel()`; and a call with a timeout has one from its `addTimer`
until its callback has found it. Both are kept by every step of the fibers, of the
manager and of the callbacks.
-/

namespace Mycoroutine.TimedCalls
set_option autoImplicit false
open Interleave IOManager Hook
open Sleeps (target collected Resets leaves_of_move of_collected expiring_step)
open TimerManager (addMillis)

/-! ## The invariant -/

/-- A call is between its `addTimer` and its `timer->cancel()`. -/
def held : Phase → Bool
  | .adding | .waiting | .woken => true
  | _ => false

structure Timed (s : State) : Prop where
  call : ∀ f phase io, s.hook.calls f = .io phase io → s.call f < s.made
  made : ∀ t c, s.capture t = some c → c.call < s.made
  priv : ∀ t c, s.capture t = some c → Private s.manager t
  timer : ∀ f t, s.timer f = some t →
    ∃ phase io, s.hook.calls f = .io phase io ∧ held phase = true ∧ s.capture t = some ⟨f, s.call f, io.fd, io.name.event⟩
  set : ∀ t c, s.capture t = some c → t ∈ s.manager.timers → s.timer c.fiber = some t
  own : ∀ t c phase io, s.capture t = some c → s.hook.calls c.fiber = .io phase io → s.call c.fiber = c.call →
    io.armed = true ∧ c.fd = io.fd ∧ c.event = io.name.event
  fresh : ∀ f io, s.hook.calls f = .io .entered io → io.armed = false ∧ io.cancelled = false
  pending : ∀ t ∈ s.pending, (s.capture t).isSome = true
  covered : ∀ f phase io, s.hook.calls f = .io phase io → held phase = true → io.timed = true → io.cancelled = false →
    ∃ t, s.timer f = some t ∧ (t ∈ s.manager.timers ∨ t ∈ s.pending)
  resets : ∀ thread t, Resets t (s.manager.pc thread) → t ∈ s.manager.created

section Steps

variable {inManager : Nat → Bool} {s s' : State} {f t : Nat}

theorem timed_init : Timed (machine inManager).init := by
  constructor <;> simp [machine, Hook.machine, TimerManager.machine, Resets]

/-- A call that goes on stays the same call, in a phase that is held as before. -/
theorem goes_io {call : Hook.Call} {phase : Phase} {io : Io} (goes : Goes call (.io phase io)) :
    ∃ before, call = .io before io ∧ held before = held phase ∧ (phase = .entered → before = .entered) ∧
      (phase = .waiting → before = .waiting) := by
  cases goes with
  | same => exact ⟨phase, rfl, rfl, id, id⟩
  | woken => exact ⟨.waiting, rfl, rfl, nofun, nofun⟩
  | again => exact ⟨.attempt, rfl, rfl, nofun, nofun⟩
  | out before io call issues off => exact absurd rfl (off _ _)
  | other call call' before after => exact absurd rfl (after _ _)

/-- A call with a timer stays one. -/
theorem goes_held {call call' : Hook.Call} {phase : Phase} {io : Io} (goes : Goes call call') (is : call = .io phase io)
    (with' : held phase = true) : ∃ after, call' = .io after io ∧ held after = true := by
  subst is
  generalize source : Hook.Call.io phase io = call at goes
  cases goes with
  | same => exact ⟨phase, source.symm, with'⟩
  | woken own =>
    cases source
    exact ⟨.woken, rfl, rfl⟩
  | again own =>
    cases source
    cases with'
  | out before own call issues off =>
    cases source
    cases phase <;> simp [held, Phase.issues] at with' issues
  | other call call' before after => exact absurd source.symm (before _ _)

/-- What it says nothing about. -/
theorem Timed.history {clock : Int} {timeout : Nat → Nat} {firing : List Capture} {begun : Nat → Int}
    {late : Nat → Bool} (h : Timed s) : Timed { s with clock, timeout, firing, begun, late } :=
  ⟨h.call, h.made, h.priv, h.timer, h.set, h.own, h.fresh, h.pending, h.covered, h.resets⟩

theorem Timed.hook {hook : Hook.State} (h : Timed s) (goes : ∀ g, Goes (s.hook.calls g) (hook.calls g)) :
    Timed { s with hook } := by
  constructor
  case call =>
    intro f phase io at'
    obtain ⟨before, was, -⟩ := goes_io (at' ▸ goes f)
    exact h.call f before io was
  case made => exact h.made
  case priv => exact h.priv
  case timer =>
    intro f t is
    obtain ⟨phase, io, at', with', captured⟩ := h.timer f t is
    obtain ⟨after, now, still⟩ := goes_held (goes f) at' with'
    exact ⟨after, io, now, still, captured⟩
  case set => exact h.set
  case own =>
    intro t c phase io captured at' present
    obtain ⟨before, was, -⟩ := goes_io (at' ▸ goes c.fiber)
    exact h.own t c before io captured was present
  case fresh =>
    intro f io at'
    obtain ⟨before, was, -, entered, -⟩ := goes_io (at' ▸ goes f)
    exact h.fresh f io (entered rfl ▸ was)
  case pending => exact h.pending
  case covered =>
    intro f phase io at' with' timed going
    obtain ⟨before, was, same, -⟩ := goes_io (at' ▸ goes f)
    exact h.covered f before io was (same.trans with') timed going
  case resets => exact h.resets

/-- A call begins, under a new number. -/
theorem Timed.enter {name : Name} {fd : Nat} (h : Timed s) (e : s.enter inManager f name fd = some s') : Timed s' := by
  obtain ⟨hook, entered, rfl⟩ := Option.map_eq_some_iff.1 e
  obtain ⟨idle, calls⟩ := enter_calls entered
  have other {g : Nat} {call : Hook.Call} (mine : g ≠ f) : hook.calls g = call ↔ s.hook.calls g = call := by
    rcases calls with same | ⟨ctx, updated⟩
    · rw [same]
    · rw [updated, Function.update_of_ne mine]
  have own {phase : Phase} {io : Io} (at' : hook.calls f = .io phase io) :
      phase = .entered ∧ io.armed = false ∧ io.cancelled = false := by
    rcases calls with same | ⟨ctx, updated⟩
    · cases idle.symm.trans (same ▸ at')
    · rw [updated, Function.update_self] at at'
      cases at'
      exact ⟨rfl, rfl, rfl⟩
  constructor
  case call =>
    intro g phase io at'
    by_cases mine : g = f
    · subst mine
      simp only [Function.update_self]
      exact Nat.lt_succ_self _
    · simp only [Function.update_of_ne mine]
      exact Nat.lt_succ_of_lt (h.call g phase io ((other mine).1 at'))
  case made => exact fun t c captured => Nat.lt_succ_of_lt (h.made t c captured)
  case priv => exact h.priv
  case timer =>
    intro g t is
    obtain ⟨phase, io, at', with', captured⟩ := h.timer g t is
    have mine : g ≠ f := by
      rintro rfl
      cases idle.symm.trans at'
    refine ⟨phase, io, (other mine).2 at', with', ?_⟩
    simp only [Function.update_of_ne mine]
    exact captured
  case set => exact h.set
  case own =>
    intro t c phase io captured at' present
    by_cases mine : c.fiber = f
    · -- the number is new, and the timer's is not
      have old := h.made t c captured
      simp only [mine, Function.update_self] at present
      omega
    · simp only [Function.update_of_ne mine] at present
      exact h.own t c phase io captured ((other mine).1 at') present
  case fresh =>
    intro g io at'
    by_cases mine : g = f
    · subst mine
      exact (own at').2
    · exact h.fresh g io ((other mine).1 at')
  case pending => exact h.pending
  case covered =>
    intro g phase io at' with' timed going
    by_cases mine : g = f
    · subst mine
      rw [(own at').1] at with'
      cases with'
    · exact h.covered g phase io ((other mine).1 at') with' timed going
  case resets => exact h.resets

/-- A fiber's call goes on, to a phase without a timer. -/
theorem Timed.goes {hook : Hook.State} {call : Hook.Call} {phase : Phase} {io : Io} (h : Timed s) (here : s.hook.calls f = .io phase io)
    (free : held phase = false) (calls : hook.calls = Function.update s.hook.calls f call)
    (after : ∀ phase' io', call = .io phase' io' → (held phase' = true → io'.timed = false) ∧ phase' ≠ .entered ∧
      (io.armed = true → io'.armed = true) ∧ io'.fd = io.fd ∧ io'.name = io.name) : Timed { s with hook } := by
  constructor
  case call =>
    intro g phase' io' at'
    simp only [calls] at at'
    by_cases mine : g = f
    · subst mine
      exact h.call g phase io here
    · rw [Function.update_of_ne mine] at at'
      exact h.call g phase' io' at'
  case made => exact h.made
  case priv => exact h.priv
  case timer =>
    intro g t is
    obtain ⟨phase', io', at', with', captured⟩ := h.timer g t is
    have mine : g ≠ f := by
      rintro rfl
      cases here.symm.trans at'
      cases free.symm.trans with'
    refine ⟨phase', io', ?_, with', captured⟩
    simp only [calls, Function.update_of_ne mine]
    exact at'
  case set => exact h.set
  case own =>
    intro t c phase' io' captured at' present
    simp only [calls] at at'
    by_cases mine : c.fiber = f
    · rw [mine, Function.update_self] at at'
      obtain ⟨armed, fd, event⟩ := h.own t c phase io captured (mine ▸ here) present
      obtain ⟨-, -, stays, sameFd, sameName⟩ := after phase' io' at'
      exact ⟨stays armed, fd.trans sameFd.symm, by rw [event, sameName]⟩
    · rw [Function.update_of_ne mine] at at'
      exact h.own t c phase' io' captured at' present
  case fresh =>
    intro g io' at'
    simp only [calls] at at'
    by_cases mine : g = f
    · subst mine
      rw [Function.update_self] at at'
      exact absurd rfl (after _ _ at').2.1
    · rw [Function.update_of_ne mine] at at'
      exact h.fresh g io' at'
  case pending => exact h.pending
  case covered =>
    intro g phase' io' at' with' timed going
    simp only [calls] at at'
    by_cases mine : g = f
    · subst mine
      rw [Function.update_self] at at'
      cases ((after _ _ at').1 with').symm.trans timed
    · rw [Function.update_of_ne mine] at at'
      exact h.covered g phase' io' at' with' timed going
  case resets => exact h.resets

theorem Timed.test {timeout : Option Nat} (h : Timed s) (e : s.test inManager f timeout = some s') : Timed s' := by
  obtain ⟨hook, tested, rfl⟩ := Option.map_eq_some_iff.1 e
  obtain ⟨io, here, call, calls, which⟩ := test_calls tested
  have next : Timed { s with hook } := h.goes here rfl calls fun phase' io' is => by
    rcases which with rfl | rfl | rfl
    · cases is
    · cases is
      exact ⟨fun with' => (by cases with'), by simp, id, rfl, rfl⟩
    · cases is
      exact ⟨fun with' => (by cases with'), by simp, id, rfl, rfl⟩
  exact next.history

/-- `timer->cancel()`: the timer is not in the set any more. -/
theorem cancels (priv : ∀ t c, s.capture t = some c → Private s.manager t) (nodup : s.manager.timers.Nodup)
    (known : ∀ t, s.timer f = some t → (s.capture t).isSome = true) (e : s.cancelTimer f = some s') :
    ∃ m, s' = { s with manager := m, timer := Function.update s.timer f none } ∧
      (∀ t c, s.capture t = some c → Private m t ∧ (m.timer t).next = (s.manager.timer t).next ∧
        (t ∈ m.timers ↔ t ∈ s.manager.timers ∧ s.timer f ≠ some t)) ∧
      ((∀ thread t, Resets t (s.manager.pc thread) → t ∈ s.manager.created) →
        ∀ thread t, Resets t (m.pc thread) → t ∈ m.created) := by
  unfold State.cancelTimer at e
  cases is : s.timer f with
  | none =>
    rw [is] at e
    cases e
    refine ⟨s.manager, ?_, fun t c captured => ⟨priv t c captured, rfl, by simp⟩, id⟩
    rw [← is, Function.update_eq_self]
  | some t =>
    rw [is] at e
    obtain ⟨m, cancelled, rfl⟩ := Option.map_eq_some_iff.1 e
    obtain ⟨c, captured⟩ := Option.isSome_iff_exists.1 (known t is)
    obtain ⟨kept, out, timer⟩ := (priv t c captured).cancel nodup cancelled
    refine ⟨m, rfl, fun u d other => ?_, fun resets thread u here => ?_⟩
    · by_cases same : u = t
      · subst same
        refine ⟨kept, by rw [timer], ?_⟩
        simp [out]
      · have untouched : target (.cancel t) ≠ some u := fun aimed => same (Option.some.inj aimed).symm
        have before := priv u d other
        obtain ⟨still, next⟩ := before.moves nodup untouched (TimerManager.step_moves cancelled)
        refine ⟨still, next, fun present => ⟨before.was_in_set untouched (TimerManager.step_moves cancelled) present, ?_⟩,
          fun present => ?_⟩
        · exact fun mine => same (Option.some.inj mine).symm
        · refine (before.stays_in_set untouched cancelled present.1).resolve_right fun ⟨now, taken⟩ => ?_
          cases taken
    · have leaves := leaves_of_move (TimerManager.step_moves cancelled)
      rcases leaves.resets thread u here with before | ⟨aimed, there⟩
      · exact leaves.created u (resets thread u before)
      · exact leaves.created u there

/-- A call that is held goes on without its timer. -/
theorem Timed.ends {hook : Hook.State} {call : Hook.Call} {phase : Phase} {io : Io} (h : Timed s) (nodup : s.manager.timers.Nodup)
    (here : s.hook.calls f = .io phase io) (calls : hook.calls = Function.update s.hook.calls f call)
    (after : call = .idle ∨ call = .io .attempt io) (e : { s with hook }.cancelTimer f = some s') : Timed s' := by
  have free : ∀ phase' io', call = .io phase' io' → phase' = .attempt ∧ io' = io := fun phase' io' is => by
    rcases after with rfl | rfl <;> cases is
    exact ⟨rfl, rfl⟩
  obtain ⟨m, rfl, kept, resets⟩ := cancels (s := { s with hook }) h.priv nodup (fun t is => by
    obtain ⟨_, _, _, _, captured⟩ := h.timer f t is
    rw [captured]
    rfl) e
  constructor
  case call =>
    intro g phase' io' at'
    simp only [calls] at at'
    by_cases mine : g = f
    · subst mine
      exact h.call g phase io here
    · rw [Function.update_of_ne mine] at at'
      exact h.call g phase' io' at'
  case made => exact h.made
  case priv => exact fun t c captured => (kept t c captured).1
  case timer =>
    intro g t is
    by_cases mine : g = f
    · subst mine
      simp only [Function.update_self] at is
      cases is
    · simp only [Function.update_of_ne mine] at is
      obtain ⟨phase', io', at', with', captured⟩ := h.timer g t is
      refine ⟨phase', io', ?_, with', captured⟩
      simp only [calls, Function.update_of_ne mine]
      exact at'
  case set =>
    intro t c captured present
    obtain ⟨before, other⟩ := (kept t c captured).2.2.1 present
    have its := h.set t c captured before
    have mine : c.fiber ≠ f := fun same => other (same ▸ its)
    simp only [Function.update_of_ne mine]
    exact its
  case own =>
    intro t c phase' io' captured at' present
    simp only [calls] at at'
    by_cases mine : c.fiber = f
    · rw [mine, Function.update_self] at at'
      obtain ⟨-, rfl⟩ := free phase' io' at'
      exact h.own t c phase io' captured (mine ▸ here) present
    · rw [Function.update_of_ne mine] at at'
      exact h.own t c phase' io' captured at' present
  case fresh =>
    intro g io' at'
    simp only [calls] at at'
    by_cases mine : g = f
    · subst mine
      rw [Function.update_self] at at'
      cases (free _ io' at').1
    · rw [Function.update_of_ne mine] at at'
      exact h.fresh g io' at'
  case pending => exact h.pending
  case covered =>
    intro g phase' io' at' with'' timed going
    simp only [calls] at at'
    by_cases mine : g = f
    · subst mine
      rw [Function.update_self] at at'
      rw [(free _ io' at').1] at with''
      cases with''
    · rw [Function.update_of_ne mine] at at'
      obtain ⟨t, is, there⟩ := h.covered g phase' io' at' with'' timed going
      refine ⟨t, ?_, there.imp_left fun present => ?_⟩
      · simp only [Function.update_of_ne mine]
        exact is
      · obtain ⟨_, _, _, _, captured⟩ := h.timer g t is
        refine (kept t _ captured).2.2.2 ⟨present, fun also => mine ?_⟩
        obtain ⟨_, _, _, _, captured'⟩ := h.timer f t also
        have same := captured.symm.trans captured'
        simpa using congrArg (Option.map Capture.fiber) same
  case resets => exact resets h.resets

theorem Timed.resume {failed : Bool} (h : Timed s) (nodup : s.manager.timers.Nodup) (e : s.resume inManager f failed = some s') :
    Timed s' := by
  obtain ⟨hook, resumed, cancelled⟩ := Option.bind_eq_some_iff.1 e
  obtain ⟨io, here, call, calls, which⟩ := resume_calls resumed
  exact h.ends nodup here calls (which.imp_right And.left) cancelled

/-- `addEvent` succeeds, and the fiber yields. -/
theorem Timed.waits {hook : Hook.State} {io : Io} {late : Nat → Bool} (h : Timed s) (here : s.hook.calls f = .io .adding io)
    (calls : hook.calls = Function.update s.hook.calls f (.io .waiting io)) : Timed { s with hook, late } := by
  have was {g : Nat} {phase : Phase} {own : Io} (at' : hook.calls g = .io phase own) : ∃ before, s.hook.calls g = .io before own ∧
      held before = held phase ∧ (phase = .entered → before = .entered) := by
    by_cases mine : g = f
    · subst mine
      rw [calls, Function.update_self] at at'
      cases at'
      exact ⟨.adding, here, rfl, nofun⟩
    · rw [calls, Function.update_of_ne mine] at at'
      exact ⟨phase, at', rfl, id⟩
  constructor
  case call =>
    intro g phase own at'
    obtain ⟨before, at', -⟩ := was at'
    exact h.call g before own at'
  case made => exact h.made
  case priv => exact h.priv
  case timer =>
    intro g t is
    obtain ⟨phase, own, at', with', captured⟩ := h.timer g t is
    by_cases mine : g = f
    · subst mine
      cases here.symm.trans at'
      refine ⟨.waiting, io, ?_, rfl, captured⟩
      simp only [calls, Function.update_self]
    · refine ⟨phase, own, ?_, with', captured⟩
      simp only [calls, Function.update_of_ne mine]
      exact at'
  case set => exact h.set
  case own =>
    intro t c phase own captured at' present
    obtain ⟨before, at', -⟩ := was at'
    exact h.own t c before own captured at' present
  case fresh =>
    intro g own at'
    obtain ⟨before, at', -, entered⟩ := was at'
    exact h.fresh g own (entered rfl ▸ at')
  case pending => exact h.pending
  case covered =>
    intro g phase own at' with' timed going
    obtain ⟨before, at', same, -⟩ := was at'
    exact h.covered g before own at' (same.trans with') timed going
  case resets => exact h.resets

theorem Timed.register {ok : Bool} (h : Timed s) (nodup : s.manager.timers.Nodup) (e : s.register inManager f ok = some s') :
    Timed s' := by
  simp only [State.register] at e
  split at e
  · rename_i io here
    obtain ⟨hook, registered, e⟩ := Option.bind_eq_some_iff.1 e
    obtain ⟨own, also, calls⟩ := register_calls registered
    cases here.symm.trans also
    split at e
    · rename_i waits
      cases e
      refine h.waits here (calls.resolve_right fun ended => ?_)
      rw [ended, Function.update_self] at waits
      cases waits
    · rename_i returned
      refine h.ends nodup here (calls.resolve_left fun waits => returned ?_) (.inl rfl) e
      rw [waits, Function.update_self]
  · cases e

/-- The timer of a round is new, and its call's only. -/
theorem Timed.armed {hook : Hook.State} {m : TimerManager.State} {io : Io} {now : Int} (h : Timed s) (nodup : s.manager.timers.Nodup)
    (here : s.hook.calls f = .io .again io)
    (calls : hook.calls = Function.update s.hook.calls f (.io .adding { io with armed := true }))
    (e : TimerManager.step s.manager (.addTimer t (s.timeout f) t false now) = some m) :
    Timed { s with hook, manager := m, timer := Function.update s.timer f (some t),
                   capture := Function.update s.capture t (some ⟨f, s.call f, io.fd, io.name.event⟩) } := by
  obtain ⟨priv, new, present, -⟩ := Private.add h.resets e
  have untouched {u : Nat} : target (.addTimer t (s.timeout f) t false now) ≠ some u := by simp [target]
  have other {u : Nat} {c : Capture} (captured : s.capture u = some c) : u ≠ t := fun same =>
    new (same ▸ (h.priv u c captured).known)
  have free {u : Nat} : s.timer f ≠ some u := fun is => by
    obtain ⟨phase, own, at', with', -⟩ := h.timer f u is
    cases here.symm.trans at'
    cases with'
  have moves := TimerManager.step_moves e
  have leaves := leaves_of_move moves
  constructor
  case call =>
    intro g phase own at'
    simp only [calls] at at'
    by_cases mine : g = f
    · subst mine
      exact h.call g .again io here
    · rw [Function.update_of_ne mine] at at'
      exact h.call g phase own at'
  case made =>
    intro u c captured
    by_cases same : u = t
    · subst same
      simp only [Function.update_self] at captured
      cases captured
      exact h.call f .again io here
    · simp only [Function.update_of_ne same] at captured
      exact h.made u c captured
  case priv =>
    intro u c captured
    by_cases same : u = t
    · exact same ▸ priv
    · simp only [Function.update_of_ne same] at captured
      exact ((h.priv u c captured).moves nodup untouched moves).1
  case timer =>
    intro g u is
    by_cases mine : g = f
    · subst mine
      simp only [Function.update_self, Option.some.injEq] at is
      subst is
      refine ⟨.adding, { io with armed := true }, ?_, rfl, ?_⟩
      · simp only [calls, Function.update_self]
      · simp only [Function.update_self]
    · simp only [Function.update_of_ne mine] at is
      obtain ⟨phase, own, at', with', captured⟩ := h.timer g u is
      refine ⟨phase, own, ?_, with', ?_⟩
      · simp only [calls, Function.update_of_ne mine]
        exact at'
      · simp only [Function.update_of_ne (other captured)]
        exact captured
  case set =>
    intro u c captured now
    by_cases same : u = t
    · subst same
      simp only [Function.update_self] at captured
      cases captured
      exact Function.update_self ..
    · simp only [Function.update_of_ne same] at captured
      have its := h.set u c captured ((h.priv u c captured).was_in_set untouched moves now)
      have mine : c.fiber ≠ f := fun mine => free (mine ▸ its)
      simp only [Function.update_of_ne mine]
      exact its
  case own =>
    intro u c phase own captured at' present'
    simp only [calls] at at'
    by_cases same : u = t
    · subst same
      simp only [Function.update_self] at captured
      cases captured
      rw [Function.update_self] at at'
      cases at'
      exact ⟨rfl, rfl, rfl⟩
    · simp only [Function.update_of_ne same] at captured
      by_cases mine : c.fiber = f
      · rw [mine, Function.update_self] at at'
        cases at'
        exact ⟨rfl, (h.own u c .again io captured (mine ▸ here) present').2⟩
      · rw [Function.update_of_ne mine] at at'
        exact h.own u c phase own captured at' present'
  case fresh =>
    intro g own at'
    simp only [calls] at at'
    by_cases mine : g = f
    · subst mine
      rw [Function.update_self] at at'
      cases at'
    · rw [Function.update_of_ne mine] at at'
      exact h.fresh g own at'
  case pending =>
    intro u waits
    obtain ⟨c, captured⟩ := Option.isSome_iff_exists.1 (h.pending u waits)
    simp only [Function.update_of_ne (other captured), captured, Option.isSome_some]
  case covered =>
    intro g phase own at' with' timed going
    by_cases mine : g = f
    · subst mine
      exact ⟨t, Function.update_self .., .inl present⟩
    · simp only [calls, Function.update_of_ne mine] at at'
      obtain ⟨u, is, there⟩ := h.covered g phase own at' with' timed going
      obtain ⟨_, _, _, _, captured⟩ := h.timer g u is
      refine ⟨u, ?_, there.imp_left fun before => ?_⟩
      · simp only [Function.update_of_ne mine]
        exact is
      · refine ((h.priv u _ captured).stays_in_set untouched e before).resolve_right fun taken => ?_
        obtain ⟨now, taken⟩ := taken
        cases taken
  case resets =>
    intro thread u now
    rcases leaves.resets thread u now with before | ⟨aimed, -⟩
    · exact leaves.created u (h.resets thread u before)
    · cases aimed

theorem Timed.arm {now : Int} (h : Timed s) (nodup : s.manager.timers.Nodup) (arms : Arms inManager s f t now s') :
    Timed s' := by
  cases arms with
  | timer io hook m here armed managed timed since read added =>
    obtain ⟨own, also, calls⟩ := arm_calls armed
    cases here.symm.trans also
    have round : (io.armed || io.timed) = true := by rw [timed, Bool.or_true]
    rw [if_pos managed, round] at calls
    exact h.armed nodup here calls added
  | none io hook here armed without =>
    obtain ⟨own, also, calls⟩ := arm_calls armed
    cases here.symm.trans also
    refine h.goes here rfl calls fun phase' io' is => ?_
    split at is <;> cases is
    · rename_i managed
      refine ⟨fun _ => ?_, by simp, fun armed => ?_, rfl, rfl⟩
      · simpa [managed] using without
      · simp only [armed, Bool.true_or]
    · exact ⟨fun with' => (by cases with'), by simp, id, rfl, rfl⟩

theorem not_captured {l : TimerManager.Label} {c : Capture} (free : ¬ (target l).any s.captured = true)
    (captured : s.capture t = some c) : target l ≠ some t := fun aimed => free <| by
  rw [aimed, Option.any_some, State.captured, captured, Option.isSome_some]

/-- Others on the manager: `listExpiredCb` takes a timer of a call, or it stays where it is. -/
theorem Timed.manager {l : TimerManager.Label} {m : TimerManager.State} (h : Timed s) (nodup : s.manager.timers.Nodup)
    (free : ¬ (target l).any s.captured = true) (e : TimerManager.step s.manager l = some m) :
    Timed { s with manager := m, pending := s.pending ++ ((collected s.manager l).map (·.1)).toList.filter s.captured } := by
  have moves := TimerManager.step_moves e
  have leaves := leaves_of_move moves
  constructor
  case call => exact h.call
  case made => exact h.made
  case priv => exact fun u c captured => ((h.priv u c captured).moves nodup (not_captured free captured) moves).1
  case timer => exact h.timer
  case set =>
    intro u c captured present
    exact h.set u c captured ((h.priv u c captured).was_in_set (not_captured free captured) moves present)
  case own => exact h.own
  case fresh => exact h.fresh
  case pending =>
    intro u waits
    rcases List.mem_append.1 waits with before | taken
    · exact h.pending u before
    · exact (List.mem_filter.1 taken).2
  case covered =>
    intro g phase io at' with' timed going
    obtain ⟨u, is, there⟩ := h.covered g phase io at' with' timed going
    obtain ⟨_, _, _, _, captured⟩ := h.timer g u is
    refine ⟨u, is, ?_⟩
    rcases there with present | waits
    · rcases (h.priv u _ captured).stays_in_set (not_captured free captured) e present with stays | ⟨now, taken⟩
      · exact .inl stays
      · refine .inr (List.mem_append_right _ (List.mem_filter.2 ⟨?_, ?_⟩))
        · simp [taken]
        · rw [State.captured, captured, Option.isSome_some]
    · exact .inr (List.mem_append_left _ waits)
  case resets =>
    intro thread u now
    rcases leaves.resets thread u now with before | ⟨-, known⟩
    · exact leaves.created u (h.resets thread u before)
    · exact leaves.created u known

/-- What the callback of a timer does: it finds its call waiting for it, or nothing. -/
inductive Called (inManager : Nat → Bool) (s : State) (t : Nat) : State → Prop where
  | expires (c : Capture) (phase : Phase) (io : Io) (hook : Hook.State) (captured : s.capture t = some c)
      (here : s.hook.calls c.fiber = .io phase io) (present : s.call c.fiber = c.call) (going : io.cancelled = false)
      (calls : hook.calls = Function.update s.hook.calls c.fiber (.io phase { io with cancelled := true }))
      (expired : Hook.step inManager s.hook (.expire c.fiber) = some hook) :
      Called inManager s t { s with hook, pending := s.pending.erase t, firing := s.firing ++ [c] }
  | stale (c : Capture) (captured : s.capture t = some c)
      (ended : ∀ phase io, s.hook.calls c.fiber = .io phase io → s.call c.fiber = c.call → io.cancelled = true) :
      Called inManager s t { s with pending := s.pending.erase t }

theorem callback_called (e : s.callback inManager t = some s') : t ∈ s.pending ∧ Called inManager s t s' := by
  simp only [State.callback] at e
  split at e
  · rename_i waits
    refine ⟨waits, ?_⟩
    split at e
    · rename_i c captured
      split at e
      · rename_i phase io here
        split at e
        · rename_i finds
          obtain ⟨hook, expired, rfl⟩ := Option.map_eq_some_iff.1 e
          obtain ⟨phase', io', also, calls⟩ := expire_calls expired
          cases here.symm.trans also
          exact .expires c phase io hook captured here finds.1 finds.2 calls expired
        · rename_i misses
          cases e
          refine .stale c captured fun phase' io' also present => ?_
          cases here.symm.trans also
          exact Bool.not_eq_false _ ▸ fun going => misses ⟨present, going⟩
      · rename_i off
        cases e
        exact .stale c captured fun phase io here => absurd here (off phase io)
    · cases e
  · cases e

theorem Timed.called (h : Timed s) (called : Called inManager s t s') : Timed s' := by
  have pending : ∀ u ∈ s.pending.erase t, (s.capture u).isSome = true := fun u waits => h.pending u (List.mem_of_mem_erase waits)
  cases called with
  | expires c phase io hook captured here present going calls expired =>
    have was {g : Nat} {phase' : Phase} {own : Io} (at' : hook.calls g = .io phase' own) :
        g = c.fiber ∧ phase' = phase ∧ own = { io with cancelled := true } ∨ g ≠ c.fiber ∧ s.hook.calls g = .io phase' own := by
      by_cases mine : g = c.fiber
      · rw [mine, calls, Function.update_self] at at'
        cases at'
        exact .inl ⟨mine, rfl, rfl⟩
      · rw [calls, Function.update_of_ne mine] at at'
        exact .inr ⟨mine, at'⟩
    constructor
    case call =>
      intro g phase' own at'
      rcases was at' with ⟨rfl, -, -⟩ | ⟨-, before⟩
      · exact h.call _ phase io here
      · exact h.call g phase' own before
    case made => exact h.made
    case priv => exact h.priv
    case timer =>
      intro g u is
      obtain ⟨phase', own, at', with', its⟩ := h.timer g u is
      by_cases mine : g = c.fiber
      · subst mine
        cases here.symm.trans at'
        exact ⟨phase, { io with cancelled := true }, by simp only [calls, Function.update_self], with', its⟩
      · refine ⟨phase', own, ?_, with', its⟩
        simp only [calls, Function.update_of_ne mine]
        exact at'
    case set => exact h.set
    case own =>
      intro u d phase' own its at' same
      rcases was at' with ⟨mine, rfl, rfl⟩ | ⟨-, before⟩
      · exact h.own u d phase' io its (mine ▸ here) same
      · exact h.own u d phase' own its before same
    case fresh =>
      intro g own at'
      rcases was at' with ⟨-, rfl, -⟩ | ⟨-, before⟩
      · -- a call that has just begun has no timer yet
        have none := (h.fresh c.fiber io here).1
        rw [(h.own t c .entered io captured here present).1] at none
        cases none
      · exact h.fresh g own before
    case pending => exact pending
    case covered =>
      intro g phase' own at' with' timed still
      rcases was at' with ⟨-, -, rfl⟩ | ⟨mine, before⟩
      · cases still
      · obtain ⟨u, is, there⟩ := h.covered g phase' own before with' timed still
        obtain ⟨_, _, _, _, its⟩ := h.timer g u is
        refine ⟨u, is, there.imp_right fun waits => (List.mem_erase_of_ne fun same => mine ?_).2 waits⟩
        subst same
        simpa using congrArg (Option.map Capture.fiber) (its.symm.trans captured)
    case resets => exact h.resets
  | stale c captured ended =>
    constructor
    case call => exact h.call
    case made => exact h.made
    case priv => exact h.priv
    case timer => exact h.timer
    case set => exact h.set
    case own => exact h.own
    case fresh => exact h.fresh
    case pending => exact pending
    case covered =>
      intro g phase io at' with' timed going
      obtain ⟨u, is, there⟩ := h.covered g phase io at' with' timed going
      obtain ⟨_, _, _, _, its⟩ := h.timer g u is
      refine ⟨u, is, there.imp_right fun waits => (List.mem_erase_of_ne fun same => ?_).2 waits⟩
      subst same
      obtain ⟨rfl⟩ := Option.some.inj (its.symm.trans captured)
      cases going.symm.trans (ended phase io at' rfl)
    case resets => exact h.resets

theorem Timed.step {l : Label} (h : Timed s) (nodup : s.manager.timers.Nodup) (e : step inManager s l = some s') : Timed s' := by
  cases l with
  | tick d =>
    cases e
    exact h.history
  | hook l =>
    simp only [TimedCalls.step] at e
    split at e
    · rename_i other
      obtain ⟨hook, moved, rfl⟩ := Option.map_eq_some_iff.1 e
      exact h.hook fun g => goes_plain other moved
    · cases e
  | enter f name fd => exact h.enter e
  | test f timeout => exact h.test e
  | arm f t now => exact h.arm nodup (arms_of_arm e)
  | register f ok => exact h.register nodup e
  | resume f failed => exact h.resume nodup e
  | manager l =>
    simp only [TimedCalls.step] at e
    split at e
    · cases e
    · rename_i free
      rw [Bool.or_eq_true, not_or] at free
      obtain ⟨m, moved, rfl⟩ := Option.map_eq_some_iff.1 e
      exact h.manager nodup free.1 moved
  | callback t => exact h.called (callback_called e).2
  | fire c =>
    simp only [TimedCalls.step] at e
    split at e
    · obtain ⟨hook, cancelled, rfl⟩ := Option.map_eq_some_iff.1 e
      exact (h.hook fun g => goes_plain (l := .cancelEvent c.fd c.event) rfl cancelled).history
    · cases e

/-! ## Its two parts -/

/-- What is registered, and what `close` does, is as the hooked calls promise. -/
def Outside (s : State) : Label → Prop
  | .hook l => AddsOutside s.hook l
  | .register f ok => AddsOutside s.hook (.register f ok)
  | _ => True

theorem cancelTimer_moves (e : s.cancelTimer f = some s') : s'.hook = s.hook ∧
    (s'.manager = s.manager ∨ ∃ t, TimerManager.step s.manager (.cancel t) = some s'.manager) := by
  unfold State.cancelTimer at e
  split at e
  · rename_i t is
    obtain ⟨m, cancelled, rfl⟩ := Option.map_eq_some_iff.1 e
    exact ⟨rfl, .inr ⟨t, cancelled⟩⟩
  · cases e
    exact ⟨rfl, .inl rfl⟩

/-- A step is at most one of the calls, and at most one of the manager, which starts a
`listExpiredCb` only if it is one. -/
structure Moved (inManager : Nat → Bool) (s s' : State) (l : Label) : Prop where
  hook : s'.hook = s.hook ∨ ∃ l', Hook.step inManager s.hook l' = some s'.hook ∧ (Outside s l → AddsOutside s.hook l')
  manager : s'.manager = s.manager ∨ ∃ l', TimerManager.step s.manager l' = some s'.manager ∧
    ∀ now rolloverNow, l' = .listExpired now rolloverNow → l = .manager l'

theorem moved_of_step {l : Label} (e : step inManager s l = some s') : Moved inManager s s' l := by
  cases l with
  | tick d =>
    cases e
    exact ⟨.inl rfl, .inl rfl⟩
  | hook l =>
    simp only [step] at e
    split at e
    · obtain ⟨hook, moved, rfl⟩ := Option.map_eq_some_iff.1 e
      exact ⟨.inr ⟨l, moved, id⟩, .inl rfl⟩
    · cases e
  | enter f name fd =>
    obtain ⟨hook, moved, rfl⟩ := Option.map_eq_some_iff.1 e
    exact ⟨.inr ⟨_, moved, id⟩, .inl rfl⟩
  | test f timeout =>
    obtain ⟨hook, moved, rfl⟩ := Option.map_eq_some_iff.1 e
    exact ⟨.inr ⟨_, moved, id⟩, .inl rfl⟩
  | arm f t now =>
    cases arms_of_arm e with
    | timer io hook m here armed managed timed since read added =>
      exact ⟨.inr ⟨_, armed, id⟩, .inr ⟨_, added, fun _ _ is => by cases is⟩⟩
    | none io hook here armed without => exact ⟨.inr ⟨_, armed, id⟩, .inl rfl⟩
  | register f ok =>
    simp only [step, State.register] at e
    split at e
    · obtain ⟨hook, moved, e⟩ := Option.bind_eq_some_iff.1 e
      split at e
      · cases e
        exact ⟨.inr ⟨_, moved, id⟩, .inl rfl⟩
      · obtain ⟨same, manager⟩ := cancelTimer_moves e
        refine ⟨.inr ⟨_, moved.trans (congrArg some same.symm), id⟩, manager.imp_right fun ⟨t, cancelled⟩ => ⟨_, cancelled, fun _ _ is => ?_⟩⟩
        cases is
    · cases e
  | resume f failed =>
    obtain ⟨hook, moved, e⟩ := Option.bind_eq_some_iff.1 e
    obtain ⟨same, manager⟩ := cancelTimer_moves e
    refine ⟨.inr ⟨_, moved.trans (congrArg some same.symm), id⟩, manager.imp_right fun ⟨t, cancelled⟩ => ⟨_, cancelled, fun _ _ is => ?_⟩⟩
    cases is
  | manager l =>
    simp only [step] at e
    split at e
    · cases e
    · obtain ⟨m, moved, rfl⟩ := Option.map_eq_some_iff.1 e
      exact ⟨.inl rfl, .inr ⟨l, moved, fun _ _ _ => rfl⟩⟩
  | callback t =>
    obtain ⟨-, called⟩ := callback_called e
    cases called with
    | expires c phase io hook captured here present going calls expired => exact ⟨.inr ⟨_, expired, id⟩, .inl rfl⟩
    | stale => exact ⟨.inl rfl, .inl rfl⟩
  | fire c =>
    simp only [step] at e
    split at e
    · obtain ⟨hook, moved, rfl⟩ := Option.map_eq_some_iff.1 e
      exact ⟨.inr ⟨_, moved, id⟩, .inl rfl⟩
    · cases e

variable {cond : State → Label → Prop}

theorem reach_manager (h : (machine inManager).ReachIf cond s) : TimerManager.machine.Reach s.manager := by
  induction h with
  | init => exact .init
  | step _ _ e ih =>
    rcases (moved_of_step e).manager with same | ⟨l', moved, -⟩
    · exact same ▸ ih
    · exact ih.step trivial moved

theorem nodup_of_reach (h : (machine inManager).ReachIf cond s) : s.manager.timers.Nodup :=
  (TimerManager.Keys.ordered_of_reach (reach_manager h)).nodup

theorem timed_of_reach (h : (machine inManager).ReachIf cond s) : Timed s :=
  h.invariant_with (fun s => s.manager.timers.Nodup) (fun _ reach => nodup_of_reach reach) timed_init
    fun _ _ _ nodup inv _ e _ => inv.step nodup e

theorem reach_hook (h : (machine inManager).ReachIf Outside s) : (Hook.machine inManager).ReachIf AddsOutside s.hook := by
  induction h with
  | init => exact .init
  | step _ outside e ih =>
    rcases (moved_of_step e).hook with same | ⟨l', moved, adds⟩
    · exact same ▸ ih
    · exact ih.step (adds outside) moved

end Steps

end Mycoroutine.TimedCalls
