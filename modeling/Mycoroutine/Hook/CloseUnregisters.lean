import Mycoroutine.Hook.Calls
import Mycoroutine.IOManager.Registrations

/-!
# Registrations of a closed descriptor

`close` cancels what is registered on the number and closes it two steps later. A
fiber that passed the test on the context in `do_io` may register in between: the
number is then closed under a registration, which nothing ends any more.
-/

namespace Mycoroutine.Hook
set_option autoImplicit false
open Interleave IOManager

/-- What `close` promises of a number that is not open: its context is empty, and the
next user can register; no fiber waits there, and nothing is counted for it. -/
structure NothingLeft (s : State) : Prop where
  contexts : ∀ fd, s.opened fd = none → s.contexts fd = {}
  waiting : ∀ f io, s.calls f = .io .waiting io →
    s.opened io.fd ≠ none ∧ (s.contexts io.fd).registered io.name.event = some (.fiber f)
  count : ∃ fds : Finset Nat, (∀ fd ∈ fds, s.opened fd ≠ none) ∧ (∀ fd ∉ fds, (s.contexts fd).events = .none) ∧
    s.pendingEventCount = ∑ fd ∈ fds, (s.contexts fd).events.size
  next : ∀ fd event waiter socket, s.opened fd = none → event ≠ .none →
    ∃ s', (s.handOut fd socket).addEvent fd event waiter true = some (s', true)

/-! ## The condition -/

/-- A `close` of the number is between its `cancelAll` and its `close_f`. -/
def Closing (s : State) (fd : Nat) : Prop := ∃ f, s.calls f = .del fd true ∨ s.calls f = .close fd true

/-- Nothing is added to a number whose `close` has run `cancelAll`; a `close` that
did not run it closes a number on which nothing is registered. -/
def AddsOutside (s : State) : Label → Prop
  | .register f true => ∀ io, s.calls f = .io .adding io → ¬ Closing s io.fd
  | .addEvent fd _ _ true => ¬ Closing s fd
  | .closeStep f => ∀ fd, s.calls f = .close fd false → (s.contexts fd).events = .none
  | _ => True

/-- Nobody closes what the only fiber in a call registers on. -/
theorem adds_alone {s : State} {io : Io} {ok : Bool} (here : s.calls 0 = .io .adding io)
    (others : ∀ g, s.calls (g + 1) = .idle) : AddsOutside s (.register 0 ok) := by
  have nobody (fd : Nat) : ¬ Closing s fd := by
    rintro ⟨_ | g, at' | at'⟩
    · cases here.symm.trans at'
    · cases here.symm.trans at'
    · cases (others g).symm.trans at'
    · cases (others g).symm.trans at'
  cases ok with
  | false => exact trivial
  | true => exact fun io _ => nobody io.fd

/-! ## The invariant -/

structure Clean (s : State) : Prop where
  wellFormed : ∀ fd, (s.contexts fd).WellFormed
  interest : ∀ fd, s.interest fd = true ↔ (s.contexts fd).events ≠ .none
  open_ : ∀ fd, s.interest fd = true → s.opened fd ≠ none
  swept : ∀ f fd, s.calls f = .del fd true ∨ s.calls f = .close fd true → (s.contexts fd).events = .none
  waiting : ∀ f io, s.calls f = .io .waiting io → (s.contexts io.fd).registered io.name.event = some (.fiber f)
  count : ∃ fds : Finset Nat, (∀ fd ∉ fds, (s.contexts fd).events = .none) ∧
    s.pendingEventCount = ∑ fd ∈ fds, (s.contexts fd).events.size

section Steps

variable {inManager : Nat → Bool} {s s' : State} {f fd : Nat}

theorem clean_init : Clean (machine inManager).init where
  wellFormed _ := ⟨rfl, rfl⟩
  interest _ := ⟨nofun, fun some' => absurd rfl some'⟩
  open_ := nofun
  swept _ _ at' := by rcases at' with at' | at' <;> cases at'
  waiting := nofun
  count := ⟨∅, fun _ _ => rfl, rfl⟩

/-- A fiber goes on to a call. -/
theorem Clean.put {call : Call} (h : Clean s)
    (swept : ∀ fd, call = .del fd true ∨ call = .close fd true → (s.contexts fd).events = .none)
    (waiting : ∀ io, call = .io .waiting io → (s.contexts io.fd).registered io.name.event = some (.fiber f)) :
    Clean (s.put f call) := by
  refine ⟨h.wellFormed, h.interest, h.open_, fun g fd at' => ?_, fun g io at' => ?_, h.count⟩
  · by_cases mine : g = f
    · subst mine
      simp only [State.put, Function.update_self] at at'
      exact swept fd at'
    · simp only [State.put, Function.update_of_ne mine] at at'
      exact h.swept g fd at'
  · by_cases mine : g = f
    · subst mine
      simp only [State.put, Function.update_self] at at'
      exact waiting io at'
    · simp only [State.put, Function.update_of_ne mine] at at'
      exact h.waiting g io at'

/-- A call that is not one of these. -/
theorem Clean.put_other {call : Call} (h : Clean s)
    (other : ∀ fd io, call ≠ .del fd true ∧ call ≠ .close fd true ∧ call ≠ .io .waiting io) : Clean (s.put f call) :=
  h.put (fun fd is => by
      rcases is with is | is
      · exact absurd is (other fd ⟨.recv, 0, 0, false, false, false⟩).1
      · exact absurd is (other fd ⟨.recv, 0, 0, false, false, false⟩).2.1)
    fun io is => absurd is (other 0 io).2.2

theorem Clean.ret {io : Io} {failed : Bool} (h : Clean s) : Clean (s.ret f io failed) := by
  have idle : Clean (s.put f .idle) := h.put_other fun _ _ => ⟨nofun, nofun, nofun⟩
  exact ⟨h.wellFormed, h.interest, h.open_, idle.swept, idle.waiting, h.count⟩

/-- What a step leaves alone that changes only the table of contexts and the history. -/
theorem Clean.congr (h : Clean s) (contexts : s'.contexts = s.contexts) (interest : s'.interest = s.interest)
    (opened : s'.opened = s.opened) (calls : s'.calls = s.calls) (count : s'.pendingEventCount = s.pendingEventCount) :
    Clean s' := by
  obtain ⟨wellFormed, subscribed, open_, swept, waiting, counted⟩ := h
  constructor
  case wellFormed => rwa [contexts]
  case interest => rwa [contexts, interest]
  case open_ => rwa [interest, opened]
  case swept => rwa [contexts, calls]
  case waiting => rwa [contexts, calls]
  case count => rwa [contexts, count]

theorem Clean.handOut {socket : Bool} (h : Clean s) : Clean (s.handOut fd socket) := by
  refine ⟨h.wellFormed, h.interest, fun x subscribed => ?_, h.swept, h.waiting, h.count⟩
  by_cases here : x = fd
  · subst here
    simp only [State.handOut, Function.update_self]
    nofun
  · simp only [State.handOut, Function.update_of_ne here]
    exact h.open_ x subscribed

theorem Clean.closeF (h : Clean s) (nothing : (s.contexts fd).events = .none) : Clean (s.closeF fd) := by
  refine ⟨h.wellFormed, fun x => ?_, fun x subscribed => ?_, h.swept, h.waiting, h.count⟩
  · by_cases here : x = fd
    · subst here
      simp only [State.closeF, Function.update_self, Bool.false_eq_true, false_iff, not_not]
      exact nothing
    · simp only [State.closeF, Function.update_of_ne here]
      exact h.interest x
  · by_cases here : x = fd
    · subst here
      simp only [State.closeF, Function.update_self, Bool.false_eq_true] at subscribed
    · simp only [State.closeF, Function.update_of_ne here] at subscribed ⊢
      exact h.open_ x subscribed

theorem Clean.del (h : Clean s) (fd : Nat) : Clean (s.del fd) ∧ (s.del fd).contexts = s.contexts := by
  unfold State.del
  split
  · exact ⟨h.congr rfl rfl rfl rfl rfl, rfl⟩
  · exact ⟨h, rfl⟩

/-- The registrations of the other numbers are counted as before. -/
theorem count_body {b : Body} {n : Int} (before : ∃ fds : Finset Nat, (∀ fd ∉ fds, (s.contexts fd).events = .none) ∧
      s.pendingEventCount = ∑ fd ∈ fds, (s.contexts fd).events.size)
    (count : n + (s.contexts fd).events.size = b.ctx.events.size) :
    ∃ fds : Finset Nat, (∀ x ∉ fds, (Function.update s.contexts fd b.ctx x).events = .none) ∧
      s.pendingEventCount + n = ∑ x ∈ fds, (Function.update s.contexts fd b.ctx x).events.size := by
  obtain ⟨fds, outside, total⟩ := before
  have more : ∑ x ∈ insert fd fds, (s.contexts x).events.size = ∑ x ∈ fds, (s.contexts x).events.size := by
    refine (Finset.sum_subset (Finset.subset_insert fd fds) fun x _ off => ?_).symm
    rw [outside x off]
    rfl
  have sums := sum_update s.contexts b.ctx (Finset.mem_insert_self fd fds)
  refine ⟨insert fd fds, fun x off => ?_, ?_⟩
  · rw [Finset.mem_insert, not_or] at off
    rw [Function.update_of_ne off.1]
    exact outside x off.2
  · omega

/-- A body that triggers what it ends, and tells `epoll_ctl` what is left. -/
theorem Clean.remove {asks : Bool} {left : Mask} {body : Bool → Body} (h : Clean s)
    (tells : (s.contexts fd).Tells asks left body) (e : s.remove fd asks left body = some s') :
    Clean s' ∧ ((asks && s.interest fd) = true → (s'.contexts fd).events = left) ∧
      ((s.contexts fd).events = .none → (s'.contexts fd).events = .none) := by
  simp only [State.remove] at e
  split at e <;> cases e
  rename_i r exit
  have triggers := tells.triggers (s.interest fd) r exit
  have told : (asks && s.interest fd) = true → (body (s.interest fd)).ctx.events = left := fun both => by
    obtain ⟨asked, subscribed⟩ := Bool.and_eq_true_iff.1 both
    rw [subscribed] at exit ⊢
    exact tells.told r asked exit
  refine ⟨?_, fun both => ?_, fun nothing => ?_⟩
  · constructor
    case wellFormed =>
      intro x
      simp only [State.body, Function.update_apply]
      split
      · exact triggers.ends.wellFormed
      · exact h.wellFormed x
    case interest =>
      intro x
      by_cases here : x = fd
      · subst here
        simp only [State.body, Function.update_self]
        split
        · rename_i both
          rw [told both, Function.update_self, decide_eq_true_iff]
          simp only [FdContext.removeOp]
          split <;> simp [*]
        · rename_i off
          rw [tells.silent _ (Bool.eq_false_iff.2 off)]
          exact h.interest x
      · simp only [State.body, Function.update_of_ne here]
        split
        · rw [Function.update_of_ne here]
          exact h.interest x
        · exact h.interest x
    case open_ =>
      intro x subscribed
      by_cases here : x = fd
      · subst here
        refine h.open_ x ?_
        split at subscribed
        · rename_i both
          exact (Bool.and_eq_true_iff.1 both).2
        · exact subscribed
      · refine h.open_ x ?_
        split at subscribed
        · simpa only [Function.update_of_ne here] using subscribed
        · exact subscribed
    case swept =>
      intro g x at'
      have before : (s.contexts x).events = .none := by
        rcases calls_body s fd (body (s.interest fd)) g with ⟨own, -, -, woken⟩ | ⟨unchanged, -⟩
        · rcases at' with at' | at' <;> cases woken.symm.trans at'
        · exact h.swept g x (at'.imp unchanged.symm.trans unchanged.symm.trans)
      by_cases here : x = fd
      · subst here
        simp only [State.body, Function.update_self]
        exact triggers.ends.events_none before
      · simpa only [State.body, Function.update_of_ne here] using before
    case waiting =>
      intro g io at'
      rcases calls_body s fd (body (s.interest fd)) g with ⟨own, -, -, woken⟩ | ⟨unchanged, untriggered⟩
      · cases woken.symm.trans at'
      · have suspended := unchanged.symm.trans at'
        have before := h.waiting g io suspended
        by_cases here : io.fd = fd
        · rw [here] at before ⊢
          have kept : io.name.event ∉ (body (s.interest fd)).ended.map (·.1) := fun mem => by
            obtain ⟨⟨event, w⟩, there, same⟩ := List.mem_map.1 mem
            refine untriggered io suspended (List.mem_map.2 ⟨_, there, ?_⟩)
            rw [triggers.handed event w there, ← before]
            exact congrArg (s.contexts fd).registered same
          simp only [State.body, Function.update_self]
          rw [FdContext.registered, (triggers.ends.kept _ kept).2]
          exact before
        · simpa only [State.body, Function.update_of_ne here] using before
    case count => exact count_body h.count triggers.ends.count
  · simp only [State.body, Function.update_self]
    exact told both
  · simp only [State.body, Function.update_self]
    exact triggers.ends.events_none nothing

theorem calls_body_nothing {b : Body} (nothing : b.ended = []) (g : Nat) : (s.body fd b).calls g = s.calls g := by
  simp [State.body, nothing]

theorem body_nothing {exit : Exit} : s.body fd { ctx := s.contexts fd, exit } = s := by
  simp [State.body]

/-- `addEvent` outside a `close`. -/
theorem Clean.addEvent {event : Event} {waiter : Waiter} {ok done : Bool} (h : Clean s) (real : event ≠ .none)
    (outside : ok = true → ¬ Closing s fd) (e : s.addEvent fd event waiter ok = some (s', done)) :
    Clean s' ∧ (done = true → (s'.contexts fd).registered event = some waiter) := by
  simp only [State.addEvent] at e
  rcases FdContext.addEvent_spec waiter (ok && s.accepts fd (s.contexts fd).addOp) (h.wellFormed fd) real with
    refused | ⟨free, accepted, added⟩
  · rw [refused] at e
    cases e
    rw [body_nothing]
    exact ⟨h, nofun⟩
  · obtain ⟨succeeds, accepts⟩ := Bool.and_eq_true_iff.1 accepted
    have quiet := outside succeeds
    rw [added] at e
    cases e
    have unchanged : ∀ g, (s.body fd { ctx := {}, count := 1, exit := .returned true }).calls g = s.calls g :=
      calls_body_nothing rfl
    have registers : ({ s.contexts fd with events := (s.contexts fd).events.insert event }.setEventContext (.armed waiter)
        event).registered event = some waiter := by
      cases event with
      | none => exact absurd rfl real
      | read | write => exact FdContext.waiter_armed waiter
    refine ⟨?_, fun _ => by simpa only [State.body, Function.update_self] using registers⟩
    constructor
    case wellFormed =>
      intro x
      simp only [State.body, Function.update_apply]
      split
      · exact FdContext.wellFormed_add (h.wellFormed fd)
      · exact h.wellFormed x
    case interest =>
      intro x
      by_cases here : x = fd
      · subst here
        simp only [State.body, Function.update_self, FdContext.events_set, true_iff]
        intro nothing
        have has : ((s.contexts x).events.insert event).has event = true := by
          rw [FdContext.has_insert, decide_eq_true ⟨rfl, real⟩, Bool.or_true]
        rw [nothing] at has
        cases event <;> cases has
      · simp only [State.body, Function.update_of_ne here]
        exact h.interest x
    case open_ =>
      intro x subscribed
      by_cases here : x = fd
      · subst here
        simp only [FdContext.addOp] at accepts
        split at accepts
        · exact Option.isSome_iff_ne_none.1 (Bool.and_eq_true_iff.1 accepts).1
        · exact h.open_ x accepts
      · refine h.open_ x ?_
        simpa only [Function.update_of_ne here] using subscribed
    case swept =>
      intro g x at'
      have before : s.calls g = .del x true ∨ s.calls g = .close x true :=
        at'.imp (unchanged g).symm.trans (unchanged g).symm.trans
      have here : x ≠ fd := fun same => quiet ⟨g, same ▸ before⟩
      simpa only [State.body, Function.update_of_ne here] using h.swept g x before
    case waiting =>
      intro g io at'
      have before := h.waiting g io ((unchanged g).symm.trans at')
      by_cases here : io.fd = fd
      · rw [here] at before ⊢
        have other : io.name.event ≠ event := fun same => by
          have has := FdContext.registered_has (h.wellFormed fd) before
          rw [same, free] at has
          cases has
        simp only [State.body, Function.update_self]
        rw [FdContext.registered, FdContext.getEventContext_set other, FdContext.getEventContext_events]
        exact before
      · simpa only [State.body, Function.update_of_ne here] using before
    case count =>
      refine count_body h.count ?_
      rw [FdContext.events_set, FdContext.size_insert free real]
      exact Int.add_comm 1 _

/-- The first registration on a number. -/
theorem addEvent_empty {event : Event} {waiter : Waiter} (real : event ≠ .none) (empty : s.contexts fd = {})
    (accepts : s.accepts fd .add = true) : ∃ s', s.addEvent fd event waiter true = some (s', true) := by
  unfold State.addEvent
  rw [empty, show FdContext.addOp {} = .add from rfl, accepts]
  cases event with
  | none => exact absurd rfl real
  | read | write => exact ⟨_, rfl⟩

/-! ## The steps -/

theorem Clean.syscall {outcome : Outcome} (h : Clean s) (e : s.syscall f outcome = some s') : Clean s' := by
  simp only [State.syscall] at e
  split at e
  · rename_i phase io at'
    split at e
    · have issued : Clean (s.issue io) := h.congr rfl rfl rfl rfl rfl
      cases outcome with
      | returned failed =>
        cases e
        exact issued.ret
      | accepted fd =>
        cases e
        exact issued.ret.handOut.put_other fun _ _ => ⟨nofun, nofun, nofun⟩
      | interrupted =>
        simp only at e
        split at e <;> cases e
        · exact issued
        · exact issued.ret
      | again =>
        simp only at e
        split at e <;> cases e
        · exact issued.put_other fun _ _ => ⟨nofun, nofun, nofun⟩
        · exact issued.ret
    · cases e
  · cases e

theorem Clean.closeStep (h : Clean s) (cond : AddsOutside s (.closeStep f)) (e : s.closeStep inManager f = some s') :
    Clean s' := by
  simp only [State.closeStep] at e
  split at e
  · rename_i fd ctx at'
    cases e
    have marked : Clean (s.setClosed ctx) := h.congr rfl rfl rfl rfl rfl
    split
    · exact marked.put_other fun _ _ => ⟨nofun, nofun, nofun⟩
    · exact marked.put_other fun _ _ => ⟨nofun, nofun, nofun⟩
  · rename_i fd at'
    obtain ⟨m, swept, rfl⟩ := Option.map_eq_some_iff.1 e
    obtain ⟨hm, told, stays⟩ := h.remove (.cancelAll (h.wellFormed fd)) swept
    have nothing : (m.contexts fd).events = .none := by
      by_cases before : (s.contexts fd).events = .none
      · exact stays before
      · exact told (by simp [before, (h.interest fd).2 before])
    refine hm.put (fun x is => ?_) nofun
    rcases is with is | is <;> cases is
    exact nothing
  · rename_i fd swept at'
    cases e
    obtain ⟨deleted, same⟩ := h.del fd
    refine deleted.put (fun x is => ?_) nofun
    rcases is with is | is <;> cases is
    rw [same]
    exact h.swept f fd (.inl at')
  · rename_i fd swept at'
    cases e
    have nothing : (s.contexts fd).events = .none := by
      cases swept with
      | true => exact h.swept f fd (.inr at')
      | false => exact cond fd at'
    exact (h.closeF nothing).put_other fun _ _ => ⟨nofun, nofun, nofun⟩
  · cases e

theorem Clean.step {l : Label} (h : Clean s) (cond : AddsOutside s l) (e : step inManager s l = some s') : Clean s' := by
  have passes : ∀ phase io, phase ≠ .waiting → ∀ fd own,
      Call.io phase io ≠ .del fd true ∧ Call.io phase io ≠ .close fd true ∧ Call.io phase io ≠ .io .waiting own :=
    fun phase io other _ _ => ⟨nofun, nofun, fun same => by cases same; exact other rfl⟩
  cases l with
  | enter f name fd =>
    simp only [Hook.step, State.enter] at e
    split at e
    · split at e <;> cases e
      · exact h.put_other (passes _ _ nofun)
      · exact h
    · cases e
  | test f timed =>
    simp only [Hook.step, State.test] at e
    split at e
    · split at e
      · cases e
        exact h.ret
      · split at e <;> cases e
        · exact h.put_other (passes _ _ nofun)
        · exact h.put_other (passes _ _ nofun)
    · cases e
  | syscall f outcome => exact h.syscall e
  | arm f =>
    simp only [Hook.step, State.arm] at e
    split at e <;> cases e
    split
    · exact h.put_other (passes _ _ nofun)
    · exact h.put_other (passes _ _ nofun)
  | register f ok =>
    simp only [Hook.step, State.register] at e
    split at e
    · rename_i io at'
      obtain ⟨⟨m, done⟩, added, is⟩ := Option.map_eq_some_iff.1 e
      have real : io.name.event ≠ .none := by cases io.name <;> nofun
      obtain ⟨hm, registers⟩ := h.addEvent real (fun succeeds => by subst succeeds; exact cond io at') added
      subst is
      simp only
      split
      · rename_i done
        refine hm.put (fun x is => ?_) fun own is => ?_
        · rcases is with is | is <;> cases is
        · cases is
          exact registers done
      · exact hm.ret
    · cases e
  | resume f failed =>
    simp only [Hook.step, State.resume] at e
    split at e
    · split at e
      · cases e
        exact h.ret
      · split at e <;> cases e
        · exact h.ret
        · exact h.put_other (passes _ _ nofun)
    · cases e
  | expire f =>
    simp only [Hook.step, State.expire] at e
    split at e
    · rename_i phase io at'
      split at e <;> cases e
      refine h.put (fun x is => ?_) fun own is => ?_
      · rcases is with is | is <;> cases is
      · cases is
        exact h.waiting f io at'
    · cases e
  | socket f fd =>
    simp only [Hook.step, State.socket] at e
    split at e <;> cases e
    exact h.handOut.put_other fun _ _ => ⟨nofun, nofun, nofun⟩
  | get f =>
    simp only [Hook.step, State.get] at e
    split at e <;> cases e
    · split
      · exact h.put_other fun _ _ => ⟨nofun, nofun, nofun⟩
      · exact h.put_other fun _ _ => ⟨nofun, nofun, nofun⟩
    · rename_i fd at'
      have created : Clean (s.create fd) := h.congr rfl rfl rfl rfl rfl
      exact created.put_other fun _ _ => ⟨nofun, nofun, nofun⟩
  | close f fd =>
    simp only [Hook.step, State.close] at e
    split at e <;> cases e
    split
    · exact h.put_other fun _ _ => ⟨nofun, nofun, nofun⟩
    · exact h.put_other fun _ _ => ⟨nofun, nofun, nofun⟩
  | closeStep f => exact h.closeStep cond e
  | opens fd socket =>
    simp only [Hook.step] at e
    split at e <;> cases e
    exact h.handOut
  | setUserNonblock ctx v =>
    cases e
    exact h.congr rfl rfl rfl rfl rfl
  | addEvent fd event waiter ok =>
    simp only [Hook.step] at e
    split at e
    · rename_i real
      obtain ⟨⟨m, done⟩, added, rfl⟩ := Option.map_eq_some_iff.1 e
      exact (h.addEvent real (fun succeeds => by subst succeeds; exact cond) added).1
    · cases e
  | cancelEvent fd event => exact (h.remove (.cancelEvent (h.wellFormed fd)) e).1
  | cancelAll fd => exact (h.remove (.cancelAll (h.wellFormed fd)) e).1
  | dispatch fd ready wake => exact (h.remove (.dispatch (h.wellFormed fd)) e).1

theorem clean_of_reach (h : (machine inManager).ReachIf AddsOutside s) : Clean s := by
  induction h with
  | init => exact clean_init
  | step _ cond e ih => exact ih.step cond e

end Steps

/-- **Main theorem.** In every run that registers nothing on a number between the
`cancelAll` and the `close_f` of its `close`, a number that is not open has nothing
registered, and nothing counted. -/
theorem close_leaves_nothing (inManager : Nat → Bool) (s : State) (h : (machine inManager).ReachIf AddsOutside s) :
    NothingLeft s := by
  have inv := clean_of_reach h
  have nothing : ∀ fd, s.opened fd = none → (s.contexts fd).events = .none := fun fd closed => by
    by_contra some'
    exact inv.open_ fd ((inv.interest fd).2 some') closed
  have empty : ∀ fd, s.opened fd = none → s.contexts fd = {} := fun fd closed =>
    FdContext.eq_empty (inv.wellFormed fd) (nothing fd closed)
  constructor
  case contexts => exact empty
  case waiting =>
    intro f io suspended
    have registered := inv.waiting f io suspended
    refine ⟨fun closed => ?_, registered⟩
    have has := FdContext.registered_has (inv.wellFormed io.fd) registered
    rw [nothing io.fd closed] at has
    generalize io.name.event = event at has
    cases event <;> cases has
  case count =>
    obtain ⟨fds, outside, total⟩ := inv.count
    refine ⟨fds.filter fun fd => (s.contexts fd).events ≠ .none, fun fd mem => ?_, fun fd off => ?_, ?_⟩
    · exact fun closed => (Finset.mem_filter.1 mem).2 (nothing fd closed)
    · by_contra some'
      have inside : fd ∈ fds := by
        by_contra off'
        exact some' (outside fd off')
      exact off (Finset.mem_filter.2 ⟨inside, some'⟩)
    · rw [total, Finset.sum_filter_of_ne]
      intro fd _ counted nothing'
      rw [nothing'] at counted
      exact counted rfl
  case next =>
    intro fd event waiter socket closed real
    have unsubscribed : s.interest fd = false := by
      by_contra subscribed
      exact (inv.interest fd).1 (Bool.of_not_eq_false subscribed) (nothing fd closed)
    have context : (s.handOut fd socket).contexts fd = {} := empty fd closed
    have accepts : (s.handOut fd socket).accepts fd .add = true := by
      simp [State.accepts, State.handOut, unsubscribed]
    exact addEvent_empty real context accepts

/-- Fiber 2 waits in `recv` on the number 5 when fiber 1 closes it. -/
theorem close_leaves_nothing_waiting : ∃ s, NothingLeft s ∧ s.opened 5 = none ∧
    s.calls 2 = .io .woken { name := .recv, fd := 5, ctx := 0 } := by
  have start : (machine fun _ => true).ReachIf AddsOutside _ := .init
  have made := ((start.next (.socket 1 5) trivial rfl).next (.get 1) trivial rfl).next (.get 1) trivial rfl
  have tried := (made.next (.enter 2 .recv 5) trivial rfl).next (.test 2 false) trivial rfl
  have again := (tried.next (.syscall 2 .again) trivial rfl).next (.arm 2) trivial rfl
  have waits := again.next (.register 2 true) (fun io _ ⟨g, at'⟩ => ?_) rfl
  · have marked := (waits.next (.close 1 5) trivial rfl).next (.closeStep 1) (fun fd at' => by cases at') rfl
    have swept := marked.next (.closeStep 1) (fun fd at' => by cases at') rfl
    have deleted := swept.next (.closeStep 1) (fun fd at' => by cases at') rfl
    exact ⟨_, close_leaves_nothing _ _ (deleted.next (.closeStep 1) (fun fd at' => by cases at') rfl), rfl, rfl⟩
  · by_cases one : g = 1
    · subst one
      rcases at' with at' | at' <;> cases at'
    · by_cases two : g = 2
      · subst two
        rcases at' with at' | at' <;> cases at'
      · simp [State.put, State.create, State.handOut, State.issue, machine, two] at at'

/-- Fiber 2 is past its test on the number 5 when fiber 1 closes it, and registers
after `cancelAll`: it waits on a number that is closed. -/
theorem registers_on_closed : ¬ ∀ s, (machine fun _ => true).Reach s → NothingLeft s := by
  intro all
  have run := Machine.reach_of_exec (rfl : (machine fun _ => true).exec (machine fun _ => true).init
    [.socket 1 5, .get 1, .get 1, .enter 2 .recv 5, .test 2 false, .syscall 2 .again, .arm 2,
     .close 1 5, .closeStep 1, .closeStep 1, .register 2 true, .closeStep 1, .closeStep 1] = some _)
  have events := congrArg FdContext.events ((all _ run).contexts 5 rfl)
  cases events

end Mycoroutine.Hook
