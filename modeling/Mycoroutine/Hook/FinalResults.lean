import Mycoroutine.Hook.Calls

/-!
# What a hooked call returns

The calls of `Hook.Calls` with a reason for each return, and with the resumptions that
have nothing to do with the descriptor: a fiber that yielded in `do_io` is `READY`, and
`run()` queues it again under `MLFQ`.

`addEvent` refuses a direction that is registered already, by another fiber or by the
call itself before such a resumption. `do_io` then returns -1 and leaves `errno` as the
original call set it, to `EAGAIN`.
-/

namespace Mycoroutine.Hook
set_option autoImplicit false
open Interleave IOManager

/-- Why a call returns: an original call's result other than `EAGAIN` and `EINTR`, or
one of these; a context marked closed; a direction that was registered; `epoll_ctl`,
whose number was closed or not; a timeout, a timer of the call having expired or not. -/
inductive Why where
  | original
  | transient
  | marked
  | registered
  | epoll (closed : Bool)
  | timedOut (expired : Bool)
deriving DecidableEq

/-- The results that a blocking call may give. -/
def Why.Final : Why → Prop
  | .original | .marked => True
  | .epoll closed => closed = true
  | .timedOut expired => expired = true
  | .transient | .registered => False

/-- A return, with the place in the call that it came from. -/
structure Result where
  fiber : Nat
  phase : Phase
  ret : Return
  why : Why
deriving DecidableEq

/-- `expired` says that a timer of the fiber's current call did. It and `results` are
history. -/
structure Calling where
  hook : State
  expired : Nat → Bool
  results : List Result

/-- A step of a call, or `requeue`: a suspended fiber is scheduled for another reason. -/
inductive Move where
  | own (l : Label)
  | requeue (f : Nat)

namespace Calling

variable (s : Calling)

def result (f : Nat) (phase : Phase) (io : Io) (failed : Bool) (why : Why) : Option Result :=
  some ⟨f, phase, ⟨io.name, (s.hook.ctxs io.ctx).isClosed, failed⟩, why⟩

/-- The call that the step returns from, if it does. -/
def returns : Label → Option Result
  | .test f _ =>
    match s.hook.calls f with
    | .io .entered io => if (s.hook.ctxs io.ctx).isClosed then s.result f .entered io true .marked else none
    | _ => none
  | .syscall f outcome =>
    match s.hook.calls f with
    | .io phase io =>
      match outcome with
      | .returned failed => s.result f phase io failed .original
      | .accepted _ => s.result f phase io false .original
      | .interrupted =>
        if phase = .attempt ∧ io.name ≠ .connect then none else s.result f phase io true .transient
      | .again => if phase = .attempt then none else s.result f phase io true .transient
    | _ => none
  | .register f ok =>
    match s.hook.calls f with
    | .io .adding io =>
      if (s.hook.contexts io.fd).events.has io.name.event then s.result f .adding io true .registered
      else if ok && s.hook.accepts io.fd (s.hook.contexts io.fd).addOp then none
      else s.result f .adding io true (.epoll (s.hook.opened io.fd).isNone)
    | _ => none
  | .resume f failed =>
    match s.hook.calls f with
    | .io .woken io =>
      if io.cancelled then s.result f .woken io true (.timedOut (s.expired f))
      else if io.name = .connect then s.result f .woken io failed .original
      else none
    | _ => none
  | _ => none

/-- A call begins with no timer; a timer's callback is `expire`. -/
def expires : Label → Nat → Bool
  | .enter f _ _ => Function.update s.expired f false
  | .expire f => Function.update s.expired f true
  | _ => s.expired

def step (inManager : Nat → Bool) : Move → Option Calling
  | .own l =>
    (Hook.step inManager s.hook l).map fun hook =>
      { hook, expired := s.expires l, results := s.results ++ (s.returns l).toList }
  | .requeue f =>
    match s.hook.calls f with
    | .io .waiting io => some { s with hook := s.hook.put f (.io .woken io) }
    | _ => none

end Calling

def calling (inManager : Nat → Bool) : Machine Calling Move where
  init := { hook := (machine inManager).init, expired := fun _ => false, results := [] }
  step s := s.step inManager

/-- `epoll_ctl` succeeds on an open number. -/
def EpollWorks (s : Calling) : Move → Prop
  | .own (.register f ok) => ∀ io, s.hook.calls f = .io .adding io → (s.hook.opened io.fd).isSome = true →
      ok = true ∧ s.hook.accepts io.fd (s.hook.contexts io.fd).addOp = true
  | _ => True

/-- A `do_io` call that goes to wait finds its direction free. -/
def FindsFree (s : Calling) : Move → Prop
  | .own (.register f _) => ∀ io, s.hook.calls f = .io .adding io → io.name ≠ .connect →
      (s.hook.contexts io.fd).events.has io.name.event = false
  | _ => True

/-- What is asked of a call before `addEvent` is decided at the call. -/
instance {call : Call} {p : Io → Prop} [DecidablePred p] : Decidable (∀ io, call = .io .adding io → p io) :=
  match call with
  | .io phase io =>
    if adding : phase = .adding then
      decidable_of_iff (p io) ⟨fun holds _ is => by cases is; exact holds, fun all => all io (by rw [adding])⟩
    else isTrue fun _ is => by cases is; exact absurd rfl adding
  | .idle | .lookup _ | .create _ | .setClosed .. | .cancelAll _ | .del .. | .close .. => isTrue nofun

instance (s : Calling) (move : Move) : Decidable (EpollWorks s move) := by
  unfold EpollWorks
  split <;> infer_instance

instance (s : Calling) (move : Move) : Decidable (FindsFree s move) := by
  unfold FindsFree
  split <;> infer_instance

/-- Every return is recorded, and a `do_io` call of the manager's fibers on a socket
that is not user-non-blocking gave a final result. -/
structure FinalOnly (inManager : Nat → Bool) (s : Calling) : Prop where
  recorded : s.results.map (·.ret) = s.hook.returned
  final : ∀ r ∈ s.results, inManager r.fiber = true → r.ret.name ≠ .connect → r.phase ≠ .direct → r.why.Final

/-! ## What a step does to the calls -/

section Steps

variable {inManager : Nat → Bool} {s s' : State} {f g fd : Nat} {l : Label} {phase : Phase} {io : Io}

/-- Where a call comes from that is at `phase` after the step. -/
inductive Comes (inManager : Nat → Bool) (s : State) (l : Label) (g : Nat) (phase : Phase) (io : Io) : Prop where
  | stays (before : s.calls g = .io phase io) (entered : ∀ name fd, l = .enter g name fd → False)
  | goes (phase' : Phase) (io' : Io) (before : s.calls g = .io phase' io') (cancelled : io.cancelled = io'.cancelled)
      (waits : phase ≠ .adding ∧ phase ≠ .fallback) (entered : ∀ name fd, l = .enter g name fd → False)
  | begins (cancelled : io.cancelled = false) (waits : phase = .entered)
  | rings (io' : Io) (before : s.calls g = .io phase io') (own : l = .expire g)
  | arms (io' : Io) (before : s.calls g = .io .again io') (cancelled : io.cancelled = io'.cancelled)
      (waits : if inManager g then phase = .adding else phase = .fallback)
      (entered : ∀ name fd, l = .enter g name fd → False)

/-- A body wakes calls, and does nothing else to them. -/
theorem comes_body {b : Body} {interest : Nat → Bool} (other : ∀ g name fd, l ≠ .enter g name fd)
    (at' : ({ s.body fd b with interest }).calls g = .io phase io) : Comes inManager s l g phase io := by
  rcases calls_body s fd b g with ⟨_, suspended, -, woken⟩ | ⟨unchanged, -⟩
  · cases woken.symm.trans at'
    exact .goes _ _ suspended rfl ⟨nofun, nofun⟩ fun name fd is => other g name fd is
  · exact .stays (unchanged.symm.trans at') fun name fd is => other g name fd is

theorem comes_remove {asks : Bool} {left : Mask} {body : Bool → Body} (other : ∀ g name fd, l ≠ .enter g name fd)
    (e : s.remove fd asks left body = some s') (at' : s'.calls g = .io phase io) : Comes inManager s l g phase io := by
  simp only [State.remove] at e
  split at e <;> cases e
  exact comes_body other at'

theorem comes_addEvent {event : Event} {waiter : Waiter} {ok done : Bool} (other : ∀ g name fd, l ≠ .enter g name fd)
    (e : s.addEvent fd event waiter ok = some (s', done)) (at' : s'.calls g = .io phase io) :
    Comes inManager s l g phase io := by
  simp only [State.addEvent] at e
  split at e <;> cases e
  · exact comes_body other at'
  · have quiet : ({ s.body fd _ with interest := s.interest }).calls g = .io phase io := at'
    exact comes_body other quiet

/-- A fiber's call goes on to `call`, from a state whose calls come from `s`. -/
theorem comes_put {m : State} {call : Call} (others : ∀ x, x ≠ f → ∀ phase io, m.calls x = .io phase io →
      Comes inManager s l x phase io)
    (own : ∀ phase io, call = .io phase io → Comes inManager s l f phase io) (at' : (m.put f call).calls g = .io phase io) :
    Comes inManager s l g phase io := by
  by_cases mine : g = f
  · subst mine
    simp only [State.put, Function.update_self] at at'
    exact own phase io at'
  · simp only [State.put, Function.update_of_ne mine] at at'
    exact others g mine phase io at'

/-- The calls are those of `s`. -/
theorem comes_same {m : State} (other : ∀ g name fd, l ≠ .enter g name fd) (calls : m.calls = s.calls)
    (at' : m.calls g = .io phase io) : Comes inManager s l g phase io :=
  .stays (calls ▸ at') fun name fd is => other g name fd is

/-- A fiber's call goes on to `call`, and nobody else's. -/
theorem comes_own {m : State} {call : Call} (other : ∀ g name fd, l ≠ .enter g name fd) (calls : m.calls = s.calls)
    (own : ∀ phase io, call = .io phase io → Comes inManager s l f phase io) (at' : (m.put f call).calls g = .io phase io) :
    Comes inManager s l g phase io :=
  comes_put (fun _ _ _ _ before => comes_same other calls before) own at'

theorem enter_comes {name : Name} (e : s.enter f name fd = some s') (at' : s'.calls g = .io phase io) :
    Comes inManager s (.enter f name fd) g phase io := by
  simp only [State.enter] at e
  split at e
  · rename_i idle
    have others (x : Nat) (other : x ≠ f) (phase : Phase) (io : Io) (before : s.calls x = .io phase io) :
        Comes inManager s (.enter f name fd) x phase io := .stays before fun _ _ is => by cases is; exact other rfl
    split at e <;> cases e
    · refine comes_put others (fun phase io is => ?_) at'
      cases is
      exact .begins rfl rfl
    · refine others g (fun same => ?_) phase io at'
      rw [same, idle] at at'
      cases at'
  · cases e

theorem test_comes {timed : Bool} (e : s.test f timed = some s') (at' : s'.calls g = .io phase io) :
    Comes inManager s (.test f timed) g phase io := by
  simp only [State.test] at e
  split at e
  · rename_i io' before
    split at e
    · cases e
      exact comes_own nofun rfl (fun _ _ is => by cases is) at'
    · split at e <;> cases e
      · refine comes_own nofun rfl (fun phase io is => ?_) at'
        cases is
        exact .goes _ _ before rfl ⟨nofun, nofun⟩ nofun
      · refine comes_own nofun rfl (fun phase io is => ?_) at'
        cases is
        exact .goes _ _ before rfl ⟨nofun, nofun⟩ nofun
  · cases e

theorem syscall_comes {outcome : Outcome} (e : s.syscall f outcome = some s') (at' : s'.calls g = .io phase io) :
    Comes inManager s (.syscall f outcome) g phase io := by
  simp only [State.syscall] at e
  split at e
  · rename_i phase' io' before
    split at e
    · have returned (failed : Bool) (x : Nat) (phase : Phase) (io : Io)
          (at' : ((s.issue io').ret f io' failed).calls x = .io phase io) :
          Comes inManager s (.syscall f outcome) x phase io :=
        comes_own (m := s.issue io') nofun rfl (fun _ _ is => by cases is) at'
      cases outcome with
      | returned failed =>
        cases e
        exact returned failed g phase io at'
      | accepted fd =>
        cases e
        exact comes_put (fun x _ phase io at' => returned false x phase io at') (fun _ _ is => by cases is) at'
      | interrupted =>
        simp only at e
        split at e <;> cases e
        · exact comes_same (m := s.issue io') nofun rfl at'
        · exact returned true g phase io at'
      | again =>
        simp only at e
        split at e <;> cases e
        · refine comes_own (m := s.issue io') nofun rfl (fun phase io is => ?_) at'
          cases is
          exact .goes _ _ before rfl ⟨nofun, nofun⟩ nofun
        · exact returned true g phase io at'
    · cases e
  · cases e

theorem arm_comes (e : s.arm inManager f = some s') (at' : s'.calls g = .io phase io) :
    Comes inManager s (.arm f) g phase io := by
  simp only [State.arm] at e
  split at e <;> cases e
  rename_i io' before
  refine comes_own nofun rfl (fun phase io is => ?_) at'
  split at is <;> cases is
  · rename_i inside
    exact .arms _ before rfl (by rw [if_pos inside]) nofun
  · rename_i outside
    exact .arms _ before rfl (by rw [if_neg outside]) nofun

theorem register_comes {ok : Bool} (e : s.register f ok = some s') (at' : s'.calls g = .io phase io) :
    Comes inManager s (.register f ok) g phase io := by
  simp only [State.register] at e
  split at e
  · rename_i io' before
    obtain ⟨⟨m, done⟩, added, rfl⟩ := Option.map_eq_some_iff.1 e
    have bodies (x : Nat) (_ : x ≠ f) (phase : Phase) (io : Io) (at' : m.calls x = .io phase io) :
        Comes inManager s (.register f ok) x phase io := comes_addEvent nofun added at'
    simp only at at'
    split at at'
    · refine comes_put bodies (fun phase io is => ?_) at'
      cases is
      exact .goes _ _ before rfl ⟨nofun, nofun⟩ nofun
    · exact comes_put (m := m) bodies (fun _ _ is => by cases is) at'
  · cases e

theorem resume_comes {failed : Bool} (e : s.resume f failed = some s') (at' : s'.calls g = .io phase io) :
    Comes inManager s (.resume f failed) g phase io := by
  simp only [State.resume] at e
  split at e
  · rename_i io' before
    split at e
    · cases e
      exact comes_own nofun rfl (fun _ _ is => by cases is) at'
    · split at e <;> cases e
      · exact comes_own nofun rfl (fun _ _ is => by cases is) at'
      · refine comes_own nofun rfl (fun phase io is => ?_) at'
        cases is
        exact .goes _ _ before rfl ⟨nofun, nofun⟩ nofun
  · cases e

theorem closeStep_comes (e : s.closeStep inManager f = some s') (at' : s'.calls g = .io phase io) :
    Comes inManager s (.closeStep f) g phase io := by
  simp only [State.closeStep] at e
  split at e
  · cases e
    refine comes_own (m := s.setClosed _) nofun rfl (fun phase io is => ?_) at'
    split at is <;> cases is
  · obtain ⟨m, swept, rfl⟩ := Option.map_eq_some_iff.1 e
    exact comes_put (fun x _ phase io at' => comes_remove nofun swept at') (fun _ _ is => by cases is) at'
  · rename_i fd swept before
    cases e
    have deleted : (s.del fd).calls = s.calls := by
      unfold State.del
      split <;> rfl
    exact comes_own nofun deleted (fun _ _ is => by cases is) at'
  · cases e
    exact comes_own (m := s.closeF _) nofun rfl (fun _ _ is => by cases is) at'
  · cases e

theorem step_calls (e : Hook.step inManager s l = some s') (at' : s'.calls g = .io phase io) :
    Comes inManager s l g phase io := by
  cases l with
  | enter f name fd => exact enter_comes e at'
  | test f timed => exact test_comes e at'
  | syscall f outcome => exact syscall_comes e at'
  | arm f => exact arm_comes e at'
  | register f ok => exact register_comes e at'
  | resume f failed => exact resume_comes e at'
  | expire f =>
    simp only [Hook.step, State.expire] at e
    split at e
    · rename_i phase' io' before
      split at e <;> cases e
      refine comes_own nofun rfl (fun phase io is => ?_) at'
      cases is
      exact .rings _ before rfl
    · cases e
  | socket f fd =>
    simp only [Hook.step, State.socket] at e
    split at e <;> cases e
    exact comes_own (m := s.handOut fd true) nofun rfl (fun _ _ is => by cases is) at'
  | get f =>
    simp only [Hook.step, State.get] at e
    split at e <;> cases e
    · refine comes_own nofun rfl (fun phase io is => ?_) at'
      split at is <;> cases is
    · exact comes_own (m := s.create _) nofun rfl (fun _ _ is => by cases is) at'
  | close f fd =>
    simp only [Hook.step, State.close] at e
    split at e <;> cases e
    refine comes_own nofun rfl (fun phase io is => ?_) at'
    split at is <;> cases is
  | closeStep f => exact closeStep_comes e at'
  | opens fd socket =>
    simp only [Hook.step] at e
    split at e <;> cases e
    exact comes_same nofun rfl at'
  | setUserNonblock ctx v =>
    cases e
    exact comes_same nofun rfl at'
  | addEvent fd event waiter ok =>
    simp only [Hook.step] at e
    split at e
    · obtain ⟨⟨m, done⟩, added, rfl⟩ := Option.map_eq_some_iff.1 e
      exact comes_addEvent nofun added at'
    · cases e
  | cancelEvent fd event => exact comes_remove nofun e at'
  | cancelAll fd => exact comes_remove nofun e at'
  | dispatch fd ready wake => exact comes_remove nofun e at'

/-! ## The returns -/

theorem addEvent_done {event : Event} {waiter : Waiter} {ok done : Bool}
    (e : s.addEvent fd event waiter ok = some (s', done)) : s'.returned = s.returned ∧
      done = (!(s.contexts fd).events.has event && (ok && s.accepts fd (s.contexts fd).addOp)) := by
  unfold State.addEvent FdContext.addEvent at e
  cases has : (s.contexts fd).events.has event with
  | true =>
    simp only [has, if_true] at e
    cases e
    exact ⟨rfl, rfl⟩
  | false =>
    cases ok' : ok && s.accepts fd (s.contexts fd).addOp with
    | false =>
      simp only [has, ok', Bool.false_eq_true, if_false] at e
      cases e
      exact ⟨rfl, rfl⟩
    | true =>
      simp only [has, ok', Bool.false_eq_true, if_false, if_true] at e
      split at e
      · cases e
        exact ⟨rfl, rfl⟩
      · rename_i refused
        split at refused
        · cases refused
        · split at refused <;> cases refused
      · cases e

theorem addEvent_ctxs {event : Event} {waiter : Waiter} {ok done : Bool}
    (e : s.addEvent fd event waiter ok = some (s', done)) : s'.ctxs = s.ctxs := by
  simp only [State.addEvent] at e
  split at e <;> cases e <;> rfl

theorem remove_returned {asks : Bool} {left : Mask} {body : Bool → Body} (e : s.remove fd asks left body = some s') :
    s'.returned = s.returned := by
  simp only [State.remove] at e
  split at e <;> cases e
  rfl

end Steps

section Runs

variable {inManager : Nat → Bool} {s s' : Calling} {l : Label} {hook : State}

/-- What a step returns is what is recorded. -/
def Records (s : Calling) (l : Label) (hook : State) : Prop :=
  hook.returned = s.hook.returned ++ (s.returns l).toList.map (·.ret)

/-- A step after which no call returns. -/
theorem records_none (none' : s.returns l = none) (same : hook.returned = s.hook.returned) : Records s l hook := by
  rw [Records, none', same]
  exact (List.append_nil _).symm

theorem test_records {f : Nat} {timed : Bool} (e : s.hook.test f timed = some hook) : Records s (.test f timed) hook := by
  simp only [State.test] at e
  split at e
  · rename_i io before
    split at e
    · rename_i marked
      cases e
      simp only [Records, Calling.returns, before, marked, if_true]
      rfl
    · rename_i unmarked
      have none' : s.returns (.test f timed) = none := by simp only [Calling.returns, before, if_neg unmarked]
      split at e <;> cases e <;> exact records_none none' rfl
  · cases e

theorem syscall_records {f : Nat} {outcome : Outcome} (e : s.hook.syscall f outcome = some hook) :
    Records s (.syscall f outcome) hook := by
  simp only [State.syscall] at e
  split at e
  · rename_i phase io before
    split at e
    · cases outcome with
      | returned failed =>
        cases e
        simp only [Records, Calling.returns, before]
        rfl
      | accepted fd =>
        cases e
        simp only [Records, Calling.returns, before]
        rfl
      | interrupted =>
        simp only at e
        split at e <;> cases e
        · rename_i retries
          exact records_none (by simp only [Calling.returns, before, if_pos retries]) rfl
        · rename_i gives
          simp only [Records, Calling.returns, before, if_neg gives]
          rfl
      | again =>
        simp only at e
        split at e <;> cases e
        · rename_i waits
          exact records_none (by simp only [Calling.returns, before, if_pos waits]) rfl
        · rename_i gives
          simp only [Records, Calling.returns, before, if_neg gives]
          rfl
    · cases e
  · cases e

theorem register_records {f : Nat} {ok : Bool} (e : s.hook.register f ok = some hook) : Records s (.register f ok) hook := by
  simp only [State.register] at e
  split at e
  · rename_i io before
    obtain ⟨⟨m, done⟩, added, rfl⟩ := Option.map_eq_some_iff.1 e
    obtain ⟨same, is⟩ := addEvent_done added
    have kept : m.ctxs = s.hook.ctxs := addEvent_ctxs added
    have gives (why : Why) (refused : done = false) (is' : s.returns (.register f ok) = s.result f .adding io true why) :
        (if done then m.put f (.io .waiting io) else m.ret f io true).returned =
          s.hook.returned ++ (s.returns (.register f ok)).toList.map (·.ret) := by
      rw [refused, is', if_neg Bool.false_ne_true]
      show m.returned ++ _ = _
      rw [same, kept]
      rfl
    cases has : (s.hook.contexts io.fd).events.has io.name.event with
    | true =>
      rw [has] at is
      exact gives .registered is (by simp only [Calling.returns, before, has, if_true])
    | false =>
      rw [has, Bool.not_false, Bool.true_and] at is
      cases works : ok && s.hook.accepts io.fd (s.hook.contexts io.fd).addOp with
      | true =>
        rw [works] at is
        refine records_none (by simp only [Calling.returns, before, has, works, Bool.false_eq_true, if_false, if_true]) ?_
        show State.returned (if done then _ else _) = _
        rw [is, if_pos rfl]
        exact same
      | false =>
        rw [works] at is
        exact gives (.epoll (s.hook.opened io.fd).isNone) is
          (by simp only [Calling.returns, before, has, works, Bool.false_eq_true, if_false])
  · cases e

theorem resume_records {f : Nat} {failed : Bool} (e : s.hook.resume f failed = some hook) :
    Records s (.resume f failed) hook := by
  simp only [State.resume] at e
  split at e
  · rename_i io before
    split at e
    · rename_i cancelled
      cases e
      simp only [Records, Calling.returns, before, cancelled, if_true]
      rfl
    · rename_i live
      split at e <;> cases e
      · rename_i connect
        simp only [Records, Calling.returns, before, if_neg live, if_pos connect]
        rfl
      · rename_i other
        exact records_none (by simp only [Calling.returns, before, if_neg live, if_neg other]) rfl
  · cases e

theorem closeStep_records {f : Nat} (e : s.hook.closeStep inManager f = some hook) : Records s (.closeStep f) hook := by
  simp only [State.closeStep] at e
  split at e
  · cases e
    exact records_none rfl rfl
  · obtain ⟨m, swept, rfl⟩ := Option.map_eq_some_iff.1 e
    have kept : m.returned = s.hook.returned := remove_returned swept
    exact records_none rfl kept
  · cases e
    refine records_none rfl ?_
    show (State.del _ _).returned = _
    unfold State.del
    split <;> rfl
  · cases e
    exact records_none rfl rfl
  · cases e

theorem step_returned (e : Hook.step inManager s.hook l = some hook) : Records s l hook := by
  cases l with
  | enter f name fd =>
    simp only [Hook.step, State.enter] at e
    split at e
    · split at e <;> cases e <;> exact records_none rfl rfl
    · cases e
  | test f timed => exact test_records e
  | syscall f outcome => exact syscall_records e
  | arm f =>
    simp only [Hook.step, State.arm] at e
    split at e <;> cases e
    exact records_none rfl rfl
  | register f ok => exact register_records e
  | resume f failed => exact resume_records e
  | expire f =>
    simp only [Hook.step, State.expire] at e
    split at e
    · split at e <;> cases e
      exact records_none rfl rfl
    · cases e
  | socket f fd =>
    simp only [Hook.step, State.socket] at e
    split at e <;> cases e
    exact records_none rfl rfl
  | get f =>
    simp only [Hook.step, State.get] at e
    split at e <;> cases e <;> exact records_none rfl rfl
  | close f fd =>
    simp only [Hook.step, State.close] at e
    split at e <;> cases e
    exact records_none rfl rfl
  | closeStep f => exact closeStep_records e
  | opens fd socket =>
    simp only [Hook.step] at e
    split at e <;> cases e
    exact records_none rfl rfl
  | setUserNonblock ctx v =>
    cases e
    exact records_none rfl rfl
  | addEvent fd event waiter ok =>
    simp only [Hook.step] at e
    split at e
    · obtain ⟨⟨m, done⟩, added, rfl⟩ := Option.map_eq_some_iff.1 e
      exact records_none rfl (addEvent_done added).1
    · cases e
  | cancelEvent fd event => exact records_none rfl (remove_returned e)
  | cancelAll fd => exact records_none rfl (remove_returned e)
  | dispatch fd ready wake => exact records_none rfl (remove_returned e)

/-! ## The timers -/

/-- A call that a timer cancelled has one that expired; a call asks for `addEvent` in a
thread of the manager, and makes the last original call outside of one. -/
structure Timely (inManager : Nat → Bool) (s : Calling) : Prop where
  expired : ∀ g phase io, s.hook.calls g = .io phase io → io.cancelled = true → s.expired g = true
  adding : ∀ g io, s.hook.calls g = .io .adding io → inManager g = true
  fallback : ∀ g io, s.hook.calls g = .io .fallback io → inManager g = false

theorem expires_of_ne {g : Nat} (entered : ∀ name fd, l = .enter g name fd → False) (before : s.expired g = true) :
    s.expires l g = true := by
  cases l with
  | enter f name fd =>
    have other : g ≠ f := fun is => entered name fd (by rw [is])
    exact (Function.update_of_ne other ..).trans before
  | expire f =>
    by_cases own : g = f
    · rw [own]
      exact Function.update_self ..
    · exact (Function.update_of_ne own ..).trans before
  | _ => exact before

theorem Timely.own (h : Timely inManager s) (e : Hook.step inManager s.hook l = some hook) (results : List Result) :
    Timely inManager { hook, expired := s.expires l, results } := by
  constructor
  case expired =>
    intro g phase io at' cancelled
    cases step_calls e at' with
    | stays before entered => exact expires_of_ne entered (h.expired g phase io before cancelled)
    | goes phase' io' before same _ entered =>
      exact expires_of_ne entered (h.expired g phase' io' before (same ▸ cancelled))
    | begins live => cases live.symm.trans cancelled
    | rings io' before own =>
      subst own
      exact Function.update_self ..
    | arms io' before same _ entered => exact expires_of_ne entered (h.expired g .again io' before (same ▸ cancelled))
  case adding =>
    intro g io at'
    cases step_calls e at' with
    | stays before => exact h.adding g io before
    | goes _ _ _ _ waits => exact absurd rfl waits.1
    | begins _ waits => cases waits
    | rings io' before => exact h.adding g io' before
    | arms _ _ _ waits =>
      by_contra outside
      rw [if_neg outside] at waits
      cases waits
  case fallback =>
    intro g io at'
    cases step_calls e at' with
    | stays before => exact h.fallback g io before
    | goes _ _ _ _ waits => exact absurd rfl waits.2
    | begins _ waits => cases waits
    | rings io' before => exact h.fallback g io' before
    | arms _ _ _ waits =>
      by_contra inside
      rw [if_pos (Bool.not_eq_false _ ▸ inside)] at waits
      cases waits

theorem Timely.requeue {f : Nat} {io : Io} (h : Timely inManager s) (suspended : s.hook.calls f = .io .waiting io) :
    Timely inManager { s with hook := s.hook.put f (.io .woken io) } := by
  have others (g : Nat) (phase : Phase) (io' : Io) (at' : (s.hook.put f (.io .woken io)).calls g = .io phase io') :
      (phase = .woken ∧ s.hook.calls g = .io .waiting io') ∨ s.hook.calls g = .io phase io' := by
    by_cases own : g = f
    · subst own
      simp only [State.put, Function.update_self] at at'
      cases at'
      exact .inl ⟨rfl, suspended⟩
    · exact .inr ((Function.update_of_ne own ..).symm.trans at')
  constructor
  case expired =>
    intro g phase io' at' cancelled
    obtain ⟨-, before⟩ | before := others g phase io' at'
    · exact h.expired g _ io' before cancelled
    · exact h.expired g _ io' before cancelled
  case adding =>
    intro g io' at'
    obtain ⟨is, -⟩ | before := others g _ io' at'
    · cases is
    · exact h.adding g io' before
  case fallback =>
    intro g io' at'
    obtain ⟨is, -⟩ | before := others g _ io' at'
    · cases is
    · exact h.fallback g io' before

theorem Timely.step {move : Move} (h : Timely inManager s) (e : s.step inManager move = some s') :
    Timely inManager s' := by
  cases move with
  | own l =>
    obtain ⟨hook, moved, rfl⟩ := Option.map_eq_some_iff.1 e
    exact h.own moved _
  | requeue f =>
    simp only [Calling.step] at e
    split at e <;> cases e
    rename_i io suspended
    exact h.requeue suspended

theorem timely_of_reach {cond : Calling → Move → Prop} (h : (calling inManager).ReachIf cond s) : Timely inManager s :=
  h.invariant ⟨nofun, nofun, nofun⟩ fun _ _ _ known _ e => known.step e

/-! ## Final results -/

/-- Only `addEvent` refuses a registered direction. -/
theorem registered_at {r : Result} (is : s.returns l = some r) (registered : r.why = .registered) :
    r.phase = .adding ∧ ∃ ok io, l = .register r.fiber ok ∧ s.hook.calls r.fiber = .io .adding io ∧
      r.ret.name = io.name ∧ (s.hook.contexts io.fd).events.has io.name.event = true := by
  cases l with
  | test f timed =>
    simp only [Calling.returns] at is
    split at is
    · split at is <;> cases is
      cases registered
    · cases is
  | syscall f outcome =>
    simp only [Calling.returns] at is
    split at is
    · cases outcome with
      | returned failed =>
        cases is
        cases registered
      | accepted fd =>
        cases is
        cases registered
      | interrupted =>
        simp only at is
        split at is <;> cases is
        cases registered
      | again =>
        simp only at is
        split at is <;> cases is
        cases registered
    · cases is
  | register f ok =>
    simp only [Calling.returns] at is
    split at is
    · rename_i io before
      split at is
      · rename_i has
        cases is
        exact ⟨rfl, ok, io, rfl, before, rfl, has⟩
      · split at is <;> cases is
        cases registered
    · cases is
  | resume f failed =>
    simp only [Calling.returns] at is
    split at is
    · split at is
      · cases is
        cases registered
      · split at is <;> cases is
        cases registered
    · cases is
  | _ => cases is

/-- The result that a step returns is final exactly if it is not `addEvent`'s refusal of
a registered direction. -/
theorem returns_final {r : Result} (h : Timely inManager s) (works : EpollWorks s (.own l))
    (e : Hook.step inManager s.hook l = some hook) (is : s.returns l = some r) (inside : inManager r.fiber = true)
    (name : r.ret.name ≠ .connect) (phase : r.phase ≠ .direct) : r.why.Final ↔ r.why ≠ .registered := by
  cases l with
  | test f timed =>
    simp only [Calling.returns] at is
    split at is
    · split at is <;> cases is
      exact ⟨fun _ => by simp, fun _ => trivial⟩
    · cases is
  | syscall f outcome =>
    have issues : ∀ phase io, s.hook.calls f = .io phase io → phase.issues = true := by
      intro phase io before
      simp only [Hook.step, State.syscall, before] at e
      split at e
      · rename_i enabled
        exact enabled.1
      · cases e
    simp only [Calling.returns] at is
    split at is
    · rename_i phase' io before
      have retries (other : phase' ≠ .attempt) (fiber : r.fiber = f) (same : r.phase = phase') : False := by
        cases phase' with
        | fallback => cases (h.fallback f io before).symm.trans (fiber ▸ inside)
        | attempt => exact other rfl
        | direct => exact phase same
        | _ => cases issues _ io before
      cases outcome with
      | returned failed =>
        cases is
        exact ⟨fun _ => by simp, fun _ => trivial⟩
      | accepted fd =>
        cases is
        exact ⟨fun _ => by simp, fun _ => trivial⟩
      | interrupted =>
        simp only at is
        split at is <;> cases is
        rename_i gives
        exact (retries (fun attempt => gives ⟨attempt, name⟩) rfl rfl).elim
      | again =>
        simp only at is
        split at is <;> cases is
        rename_i gives
        exact (retries gives rfl rfl).elim
    · cases is
  | register f ok =>
    simp only [Calling.returns] at is
    split at is
    · rename_i io before
      split at is
      · cases is
        exact ⟨False.elim, fun other => other rfl⟩
      · split at is <;> cases is
        rename_i refused
        refine ⟨fun _ => by simp, fun _ => ?_⟩
        -- on an open number `epoll_ctl` would have succeeded
        cases here : s.hook.opened io.fd with
        | none => rfl
        | some file =>
          obtain ⟨succeeds, accepts⟩ := works io before (by rw [here]; rfl)
          rw [succeeds, accepts] at refused
          exact absurd rfl refused
    · cases is
  | resume f failed =>
    simp only [Calling.returns] at is
    split at is
    · rename_i io before
      split at is
      · rename_i cancelled
        cases is
        exact ⟨fun _ => by simp, fun _ => h.expired f .woken io before cancelled⟩
      · split at is <;> cases is
        exact ⟨fun _ => by simp, fun _ => trivial⟩
    · cases is
  | _ => cases is

/-- A step gives `addEvent`'s refusal exactly if it does not find the direction free. -/
theorem returns_registered (s : Calling) (l : Label) :
    (∀ r, s.returns l = some r → r.ret.name ≠ .connect → r.why ≠ .registered) ↔ FindsFree s (.own l) := by
  constructor
  · intro free
    cases l with
    | register f ok =>
      intro io before name
      by_contra has
      have registered : s.returns (.register f ok) = s.result f .adding io true .registered := by
        simp only [Calling.returns, before, if_pos (Bool.not_eq_false _ ▸ has)]
      exact free _ registered name rfl
    | _ => trivial
  · intro free r is name registered
    obtain ⟨-, ok, io, rfl, before, same, has⟩ := registered_at is registered
    cases (free io before (same ▸ name)).symm.trans has

/-- From where all results were final, a step keeps that exactly if it finds its
direction free. -/
theorem step_final {move : Move} (h : Timely inManager s) (before : FinalOnly inManager s) (works : EpollWorks s move)
    (e : s.step inManager move = some s') : FinalOnly inManager s' ↔ FindsFree s move := by
  cases move with
  | requeue f =>
    simp only [Calling.step] at e
    split at e <;> cases e
    exact ⟨fun _ => trivial, fun _ => ⟨before.recorded, before.final⟩⟩
  | own l =>
    obtain ⟨hook, moved, rfl⟩ := Option.map_eq_some_iff.1 e
    rw [← returns_registered]
    constructor
    · intro after r is name registered
      have recorded : r ∈ s.results ++ (s.returns l).toList := by simp [is]
      obtain ⟨at', -, io, -, waits, -⟩ := registered_at is registered
      have final := after.final r recorded (h.adding _ io waits) name (by rw [at']; nofun)
      rw [registered] at final
      exact final
    · intro free
      constructor
      case recorded =>
        show List.map _ (s.results ++ (s.returns l).toList) = hook.returned
        rw [List.map_append, before.recorded, step_returned moved]
      case final =>
        intro r recorded inside name phase
        rcases List.mem_append.1 recorded with old | new
        · exact before.final r old inside name phase
        · have is : s.returns l = some r := Option.mem_toList.1 new
          exact (returns_final h works moved is inside name phase).2 (free r is name)

end Runs

/-! ## Whole runs -/

/-- **Main theorem.** In every run whose waiting calls find their directions free,
`epoll_ctl` working on open numbers, the calls of a manager's fibers return final results
only; and a step keeps that exactly if it finds its direction free. -/
theorem returns_final_only {inManager : Nat → Bool} (s : Calling)
    (h : (calling inManager).ReachIf (fun s move => EpollWorks s move ∧ FindsFree s move) s) :
    FinalOnly inManager s ∧ ∀ move s', EpollWorks s move → (calling inManager).step s move = some s' →
      (FinalOnly inManager s' ↔ FindsFree s move) := by
  have final : FinalOnly inManager s := by
    refine h.invariant_with (Timely inManager) (fun _ => timely_of_reach) ⟨rfl, fun _ mem => by cases mem⟩ ?_
    intro s move s' timely before cond e _
    exact (step_final timely before cond.1 e).2 cond.2
  exact ⟨final, fun move s' works e => step_final (timely_of_reach h) final works e⟩

/-- Fiber 1 opens a socket; fiber 2 receives from it, with a timeout, and waits. -/
def receives : List Move :=
  [.own (.socket 1 5), .own (.get 1), .own (.get 1), .own (.enter 2 .recv 5), .own (.test 2 true),
   .own (.syscall 2 .again), .own (.arm 2), .own (.register 2 true)]

/-- The timeout passes. -/
def timesOut : List Move := [.own (.expire 2), .own (.cancelEvent 5 .read), .own (.resume 2 false)]

theorem returns_final_only_times_out : ∃ s,
    (calling fun _ => true).execIf (fun s move => EpollWorks s move ∧ FindsFree s move) (calling fun _ => true).init
      (receives ++ timesOut) = some s ∧
    s.results = [⟨2, .woken, ⟨.recv, false, true⟩, .timedOut true⟩] ∧ FinalOnly (fun _ => true) s :=
  ⟨_, rfl, rfl, (returns_final_only _ (Machine.reachIf_of_execIf
    (rfl : (calling fun _ => true).execIf (fun s move => EpollWorks s move ∧ FindsFree s move)
      (calling fun _ => true).init (receives ++ timesOut) = some _))).1⟩

/-- The waiting fiber is queued again by `run()`; its retry finds the registration it
made itself, and `recv` returns -1 with `EAGAIN`. -/
theorem requeue_returns_transient : ¬ ∀ s,
    (calling fun _ => true).ReachIf EpollWorks s → FinalOnly (fun _ => true) s := by
  intro all
  have run := Machine.reachIf_of_execIf (rfl : (calling fun _ => true).execIf EpollWorks (calling fun _ => true).init
    (receives ++ [.requeue 2, .own (.resume 2 false), .own (.syscall 2 .again), .own (.arm 2),
      .own (.register 2 true)]) = some _)
  exact (all _ run).final ⟨2, .adding, ⟨.recv, false, true⟩, .registered⟩ (List.mem_singleton.2 rfl) rfl nofun nofun

end Mycoroutine.Hook
