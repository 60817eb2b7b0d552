import Mycoroutine.Hook.Calls

/-!
# Suspended calls and registrations

A fiber that waits in a hooked call is registered with its descriptor, in the direction
of the call. Where fibers are registered by hooked calls only, and a suspended fiber is
scheduled by its registration only, the converse holds as well: what is registered for
a fiber is the call in which it is suspended. Nothing outlives its call, whatever
`close`, cancellations, timeouts and failures of `epoll_ctl` do meanwhile.
-/

namespace Mycoroutine.Hook
set_option autoImplicit false
open Interleave IOManager

/-- Fiber `g` is suspended in a call that waits for the direction of `fd`. -/
def State.Waits (s : State) (g fd : Nat) (event : Event) : Prop :=
  ∃ io, s.calls g = .io .waiting io ∧ io.fd = fd ∧ io.name.event = event

/-- Events that are added outside of hooked calls have callbacks. -/
def AddsCallbacks (_ : State) : Label → Prop
  | .addEvent _ _ waiter _ => ∀ g, waiter ≠ .fiber g
  | _ => True

structure Registered (s : State) : Prop where
  wellFormed : ∀ fd, (s.contexts fd).WellFormed
  exact : ∀ fd event g, (s.contexts fd).registered event = some (.fiber g) ↔ s.Waits g fd event

/-! ## What a step does -/

/-- A body on `fd` triggers, and the fibers it triggers are not suspended any more. -/
structure Ended (s s' : State) (fd : Nat) (b : Body) : Prop where
  triggers : (s.contexts fd).Triggers b
  contexts : s'.contexts = Function.update s.contexts fd b.ctx
  waits : ∀ g x event, s'.Waits g x event ↔ s.Waits g x event ∧ some (.fiber g) ∉ b.ended.map (·.2)

/-- `event` of `fd` is registered for `waiter`, which is suspended there if it is a fiber. -/
structure Added (s s' : State) (fd : Nat) (event : Event) (waiter : Waiter) : Prop where
  real : event ≠ .none
  free : (s.contexts fd).events.has event = false
  contexts : s'.contexts = Function.update s.contexts fd
    ({ s.contexts fd with events := (s.contexts fd).events.insert event }.setEventContext (.armed waiter) event)
  waits : ∀ g x event', s'.Waits g x event' ↔ s.Waits g x event' ∨ waiter = .fiber g ∧ x = fd ∧ event' = event

inductive Effect (s s' : State) : Prop where
  | same (contexts : s'.contexts = s.contexts) (waits : ∀ g fd event, s'.Waits g fd event ↔ s.Waits g fd event)
  | ended (fd : Nat) (b : Body) (is : Ended s s' fd b)
  | added (fd : Nat) (event : Event) (waiter : Waiter) (is : Added s s' fd event waiter)

section Steps

variable {inManager : Nat → Bool} {s s' m : State} {f g fd : Nat} {event : Event} {call : Call}

/-- A fiber is suspended in one call at most. -/
theorem State.Waits.one {x : Nat} {event' : Event} (a : s.Waits g fd event) (b : s.Waits g x event') :
    x = fd ∧ event' = event := by
  obtain ⟨io, suspended, rfl, rfl⟩ := a
  obtain ⟨own, suspended', rfl, rfl⟩ := b
  cases suspended.symm.trans suspended'
  exact ⟨rfl, rfl⟩

theorem waits_congr (calls : s'.calls = s.calls) : s'.Waits g fd event ↔ s.Waits g fd event := by
  simp only [State.Waits, calls]

/-- A fiber that is not suspended goes on, and is not suspended. -/
theorem waits_put (before : ∀ io, m.calls f ≠ .io .waiting io) (after : ∀ io, call ≠ .io .waiting io) :
    (m.put f call).Waits g fd event ↔ m.Waits g fd event := by
  simp only [State.Waits, State.put]
  by_cases mine : g = f
  · subst mine
    simp only [Function.update_self]
    exact ⟨fun ⟨io, here, _⟩ => absurd here (after io), fun ⟨io, here, _⟩ => absurd here (before io)⟩
  · simp only [Function.update_of_ne mine]

/-- A fiber that is not suspended becomes suspended. -/
theorem waits_register {io : Io} (before : ∀ io, m.calls f ≠ .io .waiting io) :
    (m.put f (.io .waiting io)).Waits g fd event ↔ m.Waits g fd event ∨ f = g ∧ fd = io.fd ∧ event = io.name.event := by
  simp only [State.Waits, State.put]
  by_cases mine : g = f
  · subst mine
    simp only [Function.update_self]
    constructor
    · rintro ⟨own, here, rfl, rfl⟩
      cases here
      exact .inr ⟨trivial, rfl, rfl⟩
    · rintro (⟨own, here, -⟩ | ⟨-, rfl, rfl⟩)
      · exact absurd here (before own)
      · exact ⟨io, rfl, rfl, rfl⟩
  · simp only [Function.update_of_ne mine, Ne.symm mine, false_and, or_false]

/-- The timer's callback changes nothing of it. -/
theorem waits_expire {phase : Phase} {io : Io} (at' : s.calls f = .io phase io) :
    (s.put f (.io phase { io with cancelled := true })).Waits g fd event ↔ s.Waits g fd event := by
  simp only [State.Waits, State.put]
  by_cases mine : g = f
  · subst mine
    simp only [Function.update_self, at']
    constructor
    · rintro ⟨own, here, rfl, rfl⟩
      cases here
      exact ⟨io, rfl, rfl, rfl⟩
    · rintro ⟨own, here, rfl, rfl⟩
      cases here
      exact ⟨_, rfl, rfl, rfl⟩
  · simp only [Function.update_of_ne mine]

/-- A step of a fiber that is not suspended, besides the registrations. -/
theorem Effect.goes (contexts : m.contexts = s.contexts) (calls : m.calls = s.calls)
    (before : ∀ io, s.calls f ≠ .io .waiting io) (after : ∀ io, call ≠ .io .waiting io) : Effect s (m.put f call) :=
  .same contexts fun _ _ _ => (waits_put (calls ▸ before) after).trans (waits_congr calls)

theorem Effect.rets {io : Io} {failed : Bool} (contexts : m.contexts = s.contexts) (calls : m.calls = s.calls)
    (before : ∀ io, s.calls f ≠ .io .waiting io) : Effect s (m.ret f io failed) :=
  .same contexts fun _ _ _ => (waits_put (m := m) (calls ▸ before) (by simp)).trans (waits_congr calls)

/-- A body that triggers. -/
theorem ended_of_remove {asks : Bool} {left : Mask} {body : Bool → Body} (tells : (s.contexts fd).Tells asks left body)
    (e : s.remove fd asks left body = some s') : ∃ b, Ended s s' fd b := by
  simp only [State.remove] at e
  split at e <;> cases e
  rename_i r exit
  refine ⟨_, tells.triggers _ r exit, rfl, fun g x event => ?_⟩
  rcases calls_body s fd (body (s.interest fd)) g with ⟨own, suspended, triggered, woken⟩ | ⟨unchanged, untriggered⟩
  · refine ⟨fun ⟨io, here, _⟩ => ?_, fun ⟨_, silent⟩ => absurd triggered silent⟩
    cases woken.symm.trans here
  · refine ⟨fun ⟨io, here, at'⟩ => ?_, fun ⟨⟨io, here, at'⟩, _⟩ => ⟨io, unchanged.trans here, at'⟩⟩
    have suspended := unchanged.symm.trans here
    exact ⟨⟨io, suspended, at'⟩, untriggered io suspended⟩

/-- `addEvent` registers, or does nothing. -/
theorem addEvent_adds {waiter : Waiter} {ok done : Bool} (wellFormed : (s.contexts fd).WellFormed) (real : event ≠ .none)
    (e : s.addEvent fd event waiter ok = some (s', done)) :
    done = false ∧ s' = s ∨ done = true ∧ (s.contexts fd).events.has event = false ∧ s'.calls = s.calls ∧
      s'.contexts = Function.update s.contexts fd
        ({ s.contexts fd with events := (s.contexts fd).events.insert event }.setEventContext (.armed waiter) event) := by
  simp only [State.addEvent] at e
  rcases FdContext.addEvent_spec waiter (ok && s.accepts fd (s.contexts fd).addOp) wellFormed real with
    refused | ⟨free, -, added⟩
  · rw [refused] at e
    cases e
    exact .inl ⟨rfl, by simp [State.body]⟩
  · rw [added] at e
    cases e
    exact .inr ⟨rfl, free, by simp [State.body], rfl⟩

theorem Effect.syscalls {outcome : Outcome} (e : s.syscall f outcome = some s') : Effect s s' := by
  simp only [State.syscall] at e
  split at e
  · rename_i phase io at'
    split at e
    · rename_i possible
      have before (own : Io) : s.calls f ≠ .io .waiting own := fun here => by
        cases at'.symm.trans here
        cases possible.1
      cases outcome with
      | returned failed =>
        cases e
        exact .rets (m := s.issue io) rfl rfl before
      | accepted fd =>
        cases e
        refine .same rfl fun g x event => (waits_put ?_ (by simp)).trans ?_
        · simp [State.handOut, State.ret]
        · exact (waits_congr (s := (s.issue io).put f .idle) rfl).trans
            ((waits_put (m := s.issue io) before (by simp)).trans (waits_congr rfl))
      | interrupted =>
        simp only at e
        split at e <;> cases e
        · exact .same rfl fun _ _ _ => waits_congr rfl
        · exact .rets (m := s.issue io) rfl rfl before
      | again =>
        simp only at e
        split at e <;> cases e
        · exact .goes (m := s.issue io) rfl rfl before (by simp)
        · exact .rets (m := s.issue io) rfl rfl before
    · cases e
  · cases e

theorem Effect.closes (wellFormed : ∀ fd, (s.contexts fd).WellFormed) (e : s.closeStep inManager f = some s') : Effect s s' := by
  simp only [State.closeStep] at e
  split at e
  · rename_i fd ctx at'
    cases e
    refine .goes (m := s.setClosed ctx) rfl rfl (by simp [at']) ?_
    split <;> simp
  · rename_i fd at'
    obtain ⟨m, swept, rfl⟩ := Option.map_eq_some_iff.1 e
    obtain ⟨b, triggers, contexts, waits⟩ := ended_of_remove (.cancelAll (wellFormed fd)) swept
    refine .ended fd b ⟨triggers, contexts, fun g x event => (waits_put (fun io here => ?_) (by simp)).trans (waits g x event)⟩
    obtain ⟨⟨own, here, -⟩, -⟩ := (waits f io.fd io.name.event).1 ⟨io, here, rfl, rfl⟩
    cases at'.symm.trans here
  · rename_i fd swept at'
    cases e
    refine .goes (m := s.del fd) ?_ ?_ (by simp [at']) (by simp) <;> unfold State.del <;> split <;> rfl
  · rename_i fd swept at'
    cases e
    exact .goes (m := s.closeF fd) rfl rfl (by simp [at']) (by simp)
  · cases e

theorem Effect.of_step {l : Label} (wellFormed : ∀ fd, (s.contexts fd).WellFormed) (cond : AddsCallbacks s l)
    (e : step inManager s l = some s') : Effect s s' := by
  cases l with
  | enter f name fd =>
    simp only [Hook.step, State.enter] at e
    split at e
    · rename_i idle
      split at e <;> cases e
      · exact .goes rfl rfl (by simp [idle]) (by simp)
      · exact .same rfl fun _ _ _ => .rfl
    · cases e
  | test f timed =>
    simp only [Hook.step, State.test] at e
    split at e
    · rename_i io at'
      have before (own : Io) : s.calls f ≠ .io .waiting own := by simp [at']
      split at e
      · cases e
        exact .rets rfl rfl before
      · split at e <;> cases e
        · exact .goes rfl rfl before (by simp)
        · exact .goes rfl rfl before (by simp)
    · cases e
  | syscall f outcome => exact .syscalls e
  | arm f =>
    simp only [Hook.step, State.arm] at e
    split at e <;> cases e
    rename_i io at'
    refine .goes rfl rfl (by simp [at']) ?_
    split <;> simp
  | register f ok =>
    simp only [Hook.step, State.register] at e
    split at e
    · rename_i io at'
      obtain ⟨⟨m, done⟩, added, is⟩ := Option.map_eq_some_iff.1 e
      have real : io.name.event ≠ .none := by cases io.name <;> nofun
      have before (own : Io) : s.calls f ≠ .io .waiting own := by simp [at']
      subst is
      rcases addEvent_adds (wellFormed io.fd) real added with ⟨rfl, rfl⟩ | ⟨rfl, free, calls, contexts⟩
      · exact .rets rfl rfl before
      · refine .added io.fd io.name.event (.fiber f) ⟨real, free, contexts, fun g x event' => ?_⟩
        simp only [if_true, Waiter.fiber.injEq]
        exact (waits_register (calls ▸ before)).trans (or_congr_left (waits_congr calls))
    · cases e
  | resume f failed =>
    simp only [Hook.step, State.resume] at e
    split at e
    · rename_i io at'
      have before (own : Io) : s.calls f ≠ .io .waiting own := by simp [at']
      split at e
      · cases e
        exact .rets rfl rfl before
      · split at e <;> cases e
        · exact .rets rfl rfl before
        · exact .goes rfl rfl before (by simp)
    · cases e
  | expire f =>
    simp only [Hook.step, State.expire] at e
    split at e
    · rename_i phase io at'
      split at e <;> cases e
      exact .same rfl fun _ _ _ => waits_expire at'
    · cases e
  | socket f fd =>
    simp only [Hook.step, State.socket] at e
    split at e <;> cases e
    rename_i idle
    exact .goes (m := s.handOut fd true) rfl rfl (by simp [idle.1]) (by simp)
  | get f =>
    simp only [Hook.step, State.get] at e
    split at e <;> cases e
    · rename_i fd at'
      refine .goes rfl rfl (by simp [at']) ?_
      split <;> simp
    · rename_i fd at'
      exact .goes (m := s.create fd) rfl rfl (by simp [at']) (by simp)
  | close f fd =>
    simp only [Hook.step, State.close] at e
    split at e <;> cases e
    rename_i idle
    refine .goes rfl rfl (by simp [idle]) ?_
    split <;> simp
  | closeStep f => exact .closes wellFormed e
  | opens fd socket =>
    simp only [Hook.step] at e
    split at e <;> cases e
    exact .same rfl fun _ _ _ => waits_congr rfl
  | setUserNonblock ctx v =>
    cases e
    exact .same rfl fun _ _ _ => waits_congr rfl
  | addEvent fd event waiter ok =>
    simp only [Hook.step] at e
    split at e
    · rename_i real
      obtain ⟨⟨m, done⟩, added, rfl⟩ := Option.map_eq_some_iff.1 e
      rcases addEvent_adds (wellFormed fd) real added with ⟨-, rfl⟩ | ⟨-, free, calls, contexts⟩
      · exact .same rfl fun _ _ _ => .rfl
      · refine .added fd event waiter ⟨real, free, contexts, fun g x event' => ?_⟩
        exact (waits_congr calls).trans (or_iff_left fun ⟨mine, _⟩ => cond g mine).symm
    · cases e
  | cancelEvent fd event =>
    obtain ⟨b, is⟩ := ended_of_remove (.cancelEvent (wellFormed fd)) e
    exact .ended fd b is
  | cancelAll fd =>
    obtain ⟨b, is⟩ := ended_of_remove (.cancelAll (wellFormed fd)) e
    exact .ended fd b is
  | dispatch fd ready wake =>
    obtain ⟨b, is⟩ := ended_of_remove (.dispatch (wellFormed fd)) e
    exact .ended fd b is

/-! ## The invariant -/

theorem registered_init : Registered (machine inManager).init where
  wellFormed _ := ⟨rfl, rfl⟩
  exact fd event g := by
    constructor
    · intro registered
      cases event <;> cases registered
    · rintro ⟨io, suspended, -⟩
      cases suspended

/-- What a body ends is what was registered: a fiber that it triggers waited there, and
no other fiber did. -/
theorem Registered.ended {b : Body} (h : Registered s) (is : Ended s s' fd b) : Registered s' := by
  have handed : ∀ x w, (x, w) ∈ b.ended → w = (s.contexts fd).registered x := is.triggers.handed
  refine ⟨fun x => ?_, fun x event g => ?_⟩
  · rw [is.contexts, Function.update_apply]
    split
    · exact is.triggers.ends.wellFormed
    · exact h.wellFormed x
  rw [is.contexts, is.waits g x event, ← h.exact x event g]
  by_cases here : x = fd
  · subst here
    rw [Function.update_self]
    by_cases gone : event ∈ b.ended.map (·.1)
    · obtain ⟨⟨event, w⟩, there, rfl⟩ := List.mem_map.1 gone
      constructor
      · intro registered
        have has := FdContext.registered_has is.triggers.ends.wellFormed registered
        rw [(is.triggers.ends.ended event w there).2.1] at has
        cases has
      · rintro ⟨registered, silent⟩
        exact absurd (List.mem_map.2 ⟨_, there, (handed event w there).trans registered⟩) silent
    · rw [FdContext.registered, (is.triggers.ends.kept event gone).2, ← FdContext.registered]
      refine ⟨fun registered => ⟨registered, fun triggered => gone ?_⟩, And.left⟩
      obtain ⟨⟨other, w⟩, there, same⟩ := List.mem_map.1 triggered
      have also := (h.exact x other g).1 ((handed other w there).symm.trans same)
      obtain ⟨-, rfl⟩ := ((h.exact x event g).1 registered).one also
      exact List.mem_map.2 ⟨_, there, rfl⟩
  · rw [Function.update_of_ne here]
    refine ⟨fun registered => ⟨registered, fun triggered => here ?_⟩, And.left⟩
    obtain ⟨⟨other, w⟩, there, same⟩ := List.mem_map.1 triggered
    have also := (h.exact fd other g).1 ((handed other w there).symm.trans same)
    exact (((h.exact x event g).1 registered).one also).1.symm

theorem Registered.added {waiter : Waiter} (h : Registered s) (is : Added s s' fd event waiter) : Registered s' := by
  refine ⟨fun x => ?_, fun x event' g => ?_⟩
  · rw [is.contexts, Function.update_apply]
    split
    · exact FdContext.wellFormed_add (h.wellFormed fd)
    · exact h.wellFormed x
  rw [is.contexts, is.waits g x event', ← h.exact x event' g]
  by_cases here : x = fd
  · subst here
    rw [Function.update_self]
    by_cases mine : event' = event
    · subst mine
      have nothing : (s.contexts x).registered event' ≠ some (.fiber g) := fun registered => by
        have has := FdContext.registered_has (h.wellFormed x) registered
        rw [is.free] at has
        cases has
      have now : ({ s.contexts x with events := (s.contexts x).events.insert event' }.setEventContext (.armed waiter)
          event').registered event' = some waiter := by
        have real := is.real
        cases event' with
        | none => exact absurd rfl real
        | read | write => exact FdContext.waiter_armed waiter
      rw [now, Option.some.injEq]
      exact ⟨fun same => .inr ⟨same, rfl, rfl⟩, fun either => either.elim (absurd · nothing) (·.1)⟩
    · rw [FdContext.registered, FdContext.getEventContext_set mine, FdContext.getEventContext_events,
        ← FdContext.registered]
      exact (or_iff_left fun its => mine its.2.2).symm
  · rw [Function.update_of_ne here]
    exact (or_iff_left fun its => here its.2.1).symm

theorem Registered.step {l : Label} (h : Registered s) (cond : AddsCallbacks s l) (e : step inManager s l = some s') :
    Registered s' := by
  cases Effect.of_step h.wellFormed cond e with
  | same contexts waits =>
    refine ⟨fun x => ?_, fun x event g => ?_⟩
    · rw [contexts]
      exact h.wellFormed x
    · rw [contexts, waits]
      exact h.exact x event g
  | ended fd b is => exact h.ended is
  | added fd event waiter is => exact h.added is

theorem registered_of_reach (h : (machine inManager).ReachIf AddsCallbacks s) : Registered s := by
  induction h with
  | init => exact registered_init
  | step _ cond e ih => exact ih.step cond e

end Steps

/-- **Main theorem.** What is registered for a fiber is the call in which it is
suspended: no registration outlives its call, no suspended call is without one, and no
two fibers are suspended for one direction of one descriptor. -/
theorem registered_while_suspended (inManager : Nat → Bool) (s : State) (h : (machine inManager).ReachIf AddsCallbacks s) :
    (∀ fd event g, (s.contexts fd).registered event = some (.fiber g) ↔
      ∃ io, s.calls g = .io .waiting io ∧ io.fd = fd ∧ io.name.event = event) ∧
    ∀ f g io own, s.calls f = .io .waiting io → s.calls g = .io .waiting own → io.fd = own.fd →
      io.name.event = own.name.event → f = g := by
  have inv := registered_of_reach h
  refine ⟨inv.exact, fun f g io own first second fd event => ?_⟩
  have mine := (inv.exact own.fd own.name.event f).2 ⟨io, first, fd, event⟩
  have its := (inv.exact own.fd own.name.event g).2 ⟨own, second, rfl, rfl⟩
  cases mine.symm.trans its
  rfl

/-- Fibers 2 and 3 wait in `recv` and in `send` on the number 5; fiber 2 is woken. -/
theorem registered_while_suspended_write : ∃ s, (machine fun _ => true).ReachIf AddsCallbacks s ∧
    (∀ fd event, (s.contexts fd).registered event ≠ some (.fiber 2)) ∧
    (s.contexts 5).registered .write = some (.fiber 3) := by
  have start : (machine fun _ => true).ReachIf AddsCallbacks _ := .init
  have made := ((start.next (.socket 1 5) trivial rfl).next (.get 1) trivial rfl).next (.get 1) trivial rfl
  have reads := ((made.next (.enter 2 .recv 5) trivial rfl).next (.test 2 false) trivial rfl).next
    (.syscall 2 .again) trivial rfl
  have writes := ((reads.next (.enter 3 .send 5) trivial rfl).next (.test 3 false) trivial rfl).next
    (.syscall 3 .again) trivial rfl
  have both := (((writes.next (.arm 2) trivial rfl).next (.register 2 true) trivial rfl).next
    (.arm 3) trivial rfl).next (.register 3 true) trivial rfl
  have woken := both.next (.dispatch 5 { read := true, write := false } false) trivial rfl
  have exact' := (registered_while_suspended _ _ woken).1
  refine ⟨_, woken, fun fd event registered => ?_, (exact' 5 .write 3).2 ⟨_, rfl, rfl, rfl⟩⟩
  obtain ⟨io, suspended, -⟩ := (exact' fd event 2).1 registered
  cases suspended

end Mycoroutine.Hook
