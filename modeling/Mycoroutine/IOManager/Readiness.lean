import Mycoroutine.IOManager.FdContext
import Mycoroutine.Interleave.EdgeTriggered
import Mycoroutine.Interleave.Machine

/-!
# Registrations and `EPOLLET`

Every registration is edge-triggered, and a descriptor may get ready at any time: before
its `addEvent`, while a worker has an event of it that is not dispatched yet, or while
another direction of it is cancelled. The bodies of `FdContext.lean` run here against an
epoll that keeps a ready list, and `epoll_wait` hands its events to the workers one by one.

`EPOLL_CTL_ADD` fails on a number that is registered, and may fail otherwise; `MOD` and
`DEL` fail on a number that is not. A body whose assertion fails ends the process.
`woken` is history: what `triggerEvent` gave to the scheduler.
-/

namespace Mycoroutine.Readiness
set_option autoImplicit false
open Interleave IOManager

/-- The directions of a mask. -/
def directions (m : Mask) : Finset Event := (if m.read then {.read} else ∅) ∪ if m.write then {.write} else ∅

/-- `EPOLLIN` and `EPOLLOUT` of an event. -/
def bits (ready : Finset Event) : Mask := ⟨decide (.read ∈ ready), decide (.write ∈ ready)⟩

def ctlOp : EpollOp → EdgeTriggered.Op
  | .add => .add
  | .mod => .mod
  | .del => .del

structure State where
  contexts : Nat → FdContext
  kernel : EdgeTriggered.Kernel Nat Event
  taken : List (EdgeTriggered.Report Nat Event)
  woken : List Waiter

/-- What happens to a file, one locked body, or one event that `epoll_wait` returns. -/
inductive Label where
  | arrives (fd : Nat) (event : Event)
  | drains (fd : Nat) (event : Event)
  | breaks (fd : Nat)
  | close (fd : Nat)
  | addEvent (fd : Nat) (event : Event) (waiter : Waiter) (ok : Bool)
  | delEvent (fd : Nat) (event : Event)
  | cancelEvent (fd : Nat) (event : Event)
  | cancelAll (fd : Nat)
  | epollWait (fd : Nat)
  | dispatch (r : EdgeTriggered.Report Nat Event)

namespace State

variable (s : State)

/-- A body that, if `asks`, calls `epoll_ctl` for the directions `mask`. -/
def body (fd : Nat) (asks ok : Bool) (op : EpollOp) (mask : Mask) (body : Bool → Body) : Option State :=
  let done := ok && s.kernel.accepts fd (ctlOp op)
  let b := body done
  match b.exit with
  | .returned _ =>
    some { s with contexts := Function.update s.contexts fd b.ctx, woken := s.woken ++ b.ended.filterMap (·.2),
                  kernel := if asks && done then s.kernel.ctl fd (directions mask) (ctlOp op) else s.kernel }
  | _ => none

/-- The other bodies ask for what is left. -/
def remove (fd : Nat) (asks : Bool) (left : Mask) (body : Bool → Body) : Option State :=
  s.body fd asks true (FdContext.removeOp left) left body

def addEvent (fd : Nat) (event : Event) (waiter : Waiter) (ok : Bool) : Option State :=
  let ctx := s.contexts fd
  s.body fd (!ctx.events.has event) ok ctx.addOp (ctx.events.insert event) (ctx.addEvent event waiter)

def dispatch (fd : Nat) (ready : Mask) (wake : Bool) : Option State :=
  let ctx := s.contexts fd
  let real := ctx.realEvents ready wake
  s.remove fd (decide (ctx.events.inter real ≠ .none)) (ctx.events.diff real) (ctx.dispatch ready wake)

end State

def step (s : State) : Label → Option State
  | .arrives fd event => some { s with kernel := s.kernel.arrives fd event }
  | .drains fd event => some { s with kernel := s.kernel.drains fd event }
  | .breaks fd => some { s with kernel := s.kernel.breaks fd }
  | .close fd => some { s with kernel := s.kernel.close fd }
  | .addEvent fd event waiter ok => if event ≠ .none then s.addEvent fd event waiter ok else none
  | .delEvent fd event =>
    let ctx := s.contexts fd
    s.remove fd (ctx.events.has event) (ctx.events.erase event) (ctx.delEvent event)
  | .cancelEvent fd event =>
    let ctx := s.contexts fd
    s.remove fd (ctx.events.has event) (ctx.events.erase event) (ctx.cancelEvent event)
  | .cancelAll fd =>
    let ctx := s.contexts fd
    s.remove fd (decide (ctx.events ≠ .none)) .none ctx.cancelAll
  | .epollWait fd =>
    if s.kernel.queued fd then
      some { s with kernel := s.kernel.take fd, taken := s.taken ++ (s.kernel.report fd).toList }
    else none
  | .dispatch r =>
    if r ∈ s.taken then (s.dispatch r.number (bits r.ready) r.broken).map fun s => { s with taken := s.taken.erase r }
    else none

def machine : Machine State Label where
  init := { contexts := fun _ => {}, taken := [], woken := [],
            kernel := { ready := fun _ => ∅, broken := fun _ => false, asked := fun _ => none, queued := fun _ => false } }
  step := step

/-- A number is closed when nothing is registered on it. -/
def ClosesEmpty (s : State) : Label → Prop
  | .close fd => (s.contexts fd).events = .none
  | _ => True

/-! ## The invariant -/

section Steps

variable {s s' : State} {fd : Nat} {event : Event}

theorem mem_directions {m : Mask} : event ∈ directions m ↔ m.has event = true := by
  obtain ⟨read, write⟩ := m
  cases event <;> cases read <;> cases write <;> simp [directions, Mask.has]

theorem has_bits {ready : Finset Event} (real : event ≠ .none) : (bits ready).has event = true ↔ event ∈ ready := by
  cases event with
  | none => exact absurd rfl real
  | read | write => simp [bits, Mask.has]

/-- epoll is asked for what the context holds. -/
structure Told (s : State) : Prop where
  wellFormed : ∀ fd, (s.contexts fd).WellFormed
  asked : ∀ fd, s.kernel.asked fd =
    if (s.contexts fd).events = .none then none else some (directions (s.contexts fd).events)

/-- What a body that returns leaves. -/
structure Ran (s s' : State) (fd : Nat) (asks done : Bool) (op : EpollOp) (mask : Mask) (b : Body) : Prop where
  exit : ∃ r, b.exit = .returned r
  contexts : s'.contexts = Function.update s.contexts fd b.ctx
  kernel : s'.kernel = if asks && done then s.kernel.ctl fd (directions mask) (ctlOp op) else s.kernel
  woken : s'.woken = s.woken ++ b.ended.filterMap (·.2)
  taken : s'.taken = s.taken

theorem ran_of_body {asks ok : Bool} {op : EpollOp} {mask : Mask} {body : Bool → Body}
    (e : s.body fd asks ok op mask body = some s') :
    ∃ done, (ok && s.kernel.accepts fd (ctlOp op)) = done ∧ Ran s s' fd asks done op mask (body done) := by
  refine ⟨_, rfl, ?_⟩
  simp only [State.body] at e
  split at e <;> cases e
  exact ⟨⟨_, ‹_›⟩, rfl, rfl, rfl, rfl⟩

/-- A body asks for nothing, or for what its context holds then. -/
theorem Told.body {asks ok : Bool} {op : EpollOp} {mask : Mask} {body : Bool → Body} (h : Told s)
    (e : s.body fd asks ok op mask body = some s')
    (wellFormed : ∀ done r, (body done).exit = .returned r → (body done).ctx.WellFormed)
    (silent : ∀ done, (asks && done) = false → (body done).ctx.events = (s.contexts fd).events)
    (told : ∀ r, asks = true → (body true).exit = .returned r → (body true).ctx.events = mask)
    (fits : (if op = .del then none else some (directions mask)) = if mask = .none then none else some (directions mask)) :
    Told s' ∧ (EdgeTriggered.Watched s.kernel s.taken → EdgeTriggered.Watched s'.kernel s'.taken) := by
  obtain ⟨done, -, ran⟩ := ran_of_body e
  obtain ⟨r, exit⟩ := ran.exit
  refine ⟨⟨fun x => ?_, fun x => ?_⟩, fun watched => ?_⟩
  · rw [ran.contexts, Function.update_apply]
    split
    · exact wellFormed done r exit
    · exact h.wellFormed x
  · rw [ran.contexts, ran.kernel]
    by_cases here : x = fd
    · subst here
      rw [Function.update_self]
      split
      · rename_i both
        obtain ⟨asks', rfl⟩ := Bool.and_eq_true_iff.1 both
        rw [told r asks' exit, ← fits]
        cases op <;> exact Function.update_self ..
      · rename_i off
        rw [silent done (Bool.eq_false_iff.2 off)]
        exact h.asked x
    · rw [Function.update_of_ne here]
      refine Eq.trans ?_ (h.asked x)
      split
      · cases op <;> exact Function.update_of_ne here ..
      · rfl
  · rw [ran.kernel, ran.taken]
    split
    · exact watched.ctl _
    · exact watched

theorem removeOp_fits (mask : Mask) : (if FdContext.removeOp mask = .del then none else some (directions mask)) =
    if mask = .none then none else some (directions mask) := by
  by_cases nothing : mask = .none <;> simp [FdContext.removeOp, nothing]

/-- A body that tells `epoll_ctl` what is left. -/
theorem Told.remove {asks : Bool} {left : Mask} {body : Bool → Body} (h : Told s)
    (tells : (s.contexts fd).Tells asks left body) (e : s.remove fd asks left body = some s') :
    Told s' ∧ (EdgeTriggered.Watched s.kernel s.taken → EdgeTriggered.Watched s'.kernel s'.taken) :=
  h.body e (fun done r exit => (tells.triggers done r exit).ends.wellFormed)
    (fun done off => by rw [tells.silent done off]) tells.told (removeOp_fits left)

theorem count_addEvent {ctx : FdContext} (waiter : Waiter) (free : ctx.events.has event = false) :
    (ctx.addEvent event waiter true).count = 1 := by
  rw [FdContext.addEvent, if_neg (by simp [free]), if_pos rfl]
  simp only
  split
  · rfl
  · split <;> rfl

theorem Told.addEvent {waiter : Waiter} {ok : Bool} (h : Told s) (real : event ≠ .none)
    (e : s.addEvent fd event waiter ok = some s') :
    Told s' ∧ (EdgeTriggered.Watched s.kernel s.taken → EdgeTriggered.Watched s'.kernel s'.taken) := by
  have some' : (s.contexts fd).events.insert event ≠ .none := by
    cases event with
    | none => exact absurd rfl real
    | read | write => simp [Mask.insert, Mask.none]
  have spec (done : Bool) := FdContext.addEvent_spec waiter done (h.wellFormed fd) real
  refine h.body e (fun done r exit => ?_) (fun done off => ?_) (fun r asks exit => ?_) ?_
  · rcases spec done with refused | ⟨-, -, added⟩
    · rw [refused]
      exact h.wellFormed fd
    · rw [added]
      exact FdContext.wellFormed_add (h.wellFormed fd)
  · rcases spec done with refused | ⟨free, rfl, -⟩
    · rw [refused]
    · simp [free] at off
  · rcases spec true with refused | ⟨-, -, added⟩
    · have counted := count_addEvent waiter (by simpa using asks)
      rw [refused] at counted
      cases counted
    · rw [added]
      exact FdContext.events_set
  · simp only [FdContext.addOp, some', if_false]
    split <;> simp

/-- `delEvent` tells `epoll_ctl` what is left, and triggers nothing. -/
theorem Told.delEvent (h : Told s) (e : s.remove fd ((s.contexts fd).events.has event) ((s.contexts fd).events.erase event)
      ((s.contexts fd).delEvent event) = some s') :
    Told s' ∧ (EdgeTriggered.Watched s.kernel s.taken → EdgeTriggered.Watched s'.kernel s'.taken) := by
  refine h.body e (fun done r _ => (FdContext.Ends.delEvent (h.wellFormed fd)).wellFormed) (fun done off => ?_)
    (fun r asks _ => ?_) (removeOp_fits _)
  · rw [FdContext.delEvent, if_neg (by simp [off])]
  · rw [FdContext.delEvent, if_pos (by simp [asks])]
    exact FdContext.events_set

/-- An event of a direction that is registered: it is one of the real events. -/
theorem realEvents_has {r : EdgeTriggered.Report Nat Event} (has : (s.contexts r.number).events.has event = true)
    (tells : r.Tells fd event) : ((s.contexts r.number).realEvents (bits r.ready) r.broken).has event = true := by
  have real : event ≠ .none := by
    rintro rfl
    cases has
  have union {a b : Mask} (either : a.has event = true ∨ b.has event = true) : (a.union b).has event = true := by
    cases event <;> simp [Mask.union, Mask.has] at either ⊢ <;> exact either
  unfold FdContext.realEvents
  obtain ⟨-, ready | broken⟩ := tells
  · have bit := (has_bits real).2 ready
    split
    · exact union (.inl bit)
    · exact bit
  · rw [if_pos broken]
    exact union (.inr has)

theorem has_diff {a b : Mask} : (a.diff b).has event = (a.has event && !b.has event) := by
  cases event <;> simp [Mask.diff, Mask.has]

theorem has_inter {a b : Mask} (left : a.has event = true) (right : b.has event = true) : a.inter b ≠ .none := by
  intro nothing
  have both : (a.inter b).has event = true := by
    cases event <;> simp_all [Mask.inter, Mask.has]
  rw [nothing] at both
  cases event <;> cases both

/-- What the dispatch of an event asks for. -/
theorem Told.tells (h : Told s) (r : EdgeTriggered.Report Nat Event) :
    let ctx := s.contexts r.number
    let real := ctx.realEvents (bits r.ready) r.broken
    ctx.Tells (decide (ctx.events.inter real ≠ .none)) (ctx.events.diff real) (ctx.dispatch (bits r.ready) r.broken) :=
  .dispatch (h.wellFormed r.number)

/-- A registered number is accepted by `epoll_ctl`. -/
theorem Told.accepts {left : Mask} (h : Told s) (some' : (s.contexts fd).events ≠ .none) :
    s.kernel.accepts fd (ctlOp (FdContext.removeOp left)) = true := by
  have asked := h.asked fd
  rw [if_neg some'] at asked
  unfold FdContext.removeOp
  split <;> simp [ctlOp, EdgeTriggered.Kernel.accepts, asked]

/-- The dispatch of an event polls the file, where something of it is registered. -/
theorem Told.dispatch {r : EdgeTriggered.Report Nat Event} (h : Told s)
    (e : s.dispatch r.number (bits r.ready) r.broken = some s') :
    Told s' ∧ (EdgeTriggered.Watched s.kernel s.taken → EdgeTriggered.Watched s'.kernel (s'.taken.erase r)) := by
  obtain ⟨told, kept⟩ := h.remove (h.tells r) e
  refine ⟨told, fun watched => ?_⟩
  obtain ⟨done, is, ran⟩ := ran_of_body e
  refine (kept watched).dispatched fun mask d asked mem hot sees => ?_
  rw [ran.kernel] at asked hot ⊢
  generalize left : (s.contexts r.number).events.diff ((s.contexts r.number).realEvents (bits r.ready) r.broken) = mask' at *
  split at asked
  · -- what is left is asked for again, and the file is polled
    rename_i both
    rw [if_pos both] at hot ⊢
    by_cases nothing : mask' = .none
    · simp [FdContext.removeOp, nothing, ctlOp, EdgeTriggered.Kernel.ctl, EdgeTriggered.Kernel.drop] at asked
    · simp only [FdContext.removeOp, nothing, if_false, ctlOp, EdgeTriggered.Kernel.ctl] at asked hot ⊢
      have same : directions mask' = mask := by simpa [EdgeTriggered.Kernel.ask] using asked
      exact EdgeTriggered.queued_ask hot (same ▸ mem)
  · -- the event tells of nothing that is registered
    rename_i off
    have registered := h.asked r.number
    rw [asked] at registered
    split at registered
    · cases registered
    · rename_i some'
      obtain rfl := Option.some.inj registered
      have has := mem_directions.1 mem
      refine absurd ?_ off
      rw [← is, h.accepts some', Bool.and_self, Bool.and_true, decide_eq_true_iff]
      exact has_inter has (realEvents_has has sees)

theorem Told.step {l : Label} (h : Told s) (watched : EdgeTriggered.Watched s.kernel s.taken) (cond : ClosesEmpty s l)
    (e : step s l = some s') : Told s' ∧ EdgeTriggered.Watched s'.kernel s'.taken := by
  cases l with
  | arrives fd event =>
    cases e
    exact ⟨⟨h.wellFormed, h.asked⟩, watched.arrives⟩
  | drains fd event =>
    cases e
    exact ⟨⟨h.wellFormed, h.asked⟩, watched.drains⟩
  | breaks fd =>
    cases e
    exact ⟨⟨h.wellFormed, h.asked⟩, watched.breaks⟩
  | close fd =>
    cases e
    refine ⟨⟨h.wellFormed, fun x => ?_⟩, watched.close⟩
    by_cases here : x = fd
    · subst here
      have nothing : (s.contexts x).events = .none := cond
      simp only [nothing, if_true]
      exact Function.update_self ..
    · exact (Function.update_of_ne here ..).trans (h.asked x)
  | addEvent fd event waiter ok =>
    simp only [Readiness.step] at e
    split at e
    · rename_i real
      exact (h.addEvent real e).imp_right fun kept => kept watched
    · cases e
  | delEvent fd event => exact (h.delEvent e).imp_right fun kept => kept watched
  | cancelEvent fd event => exact (h.remove (.cancelEvent (h.wellFormed fd)) e).imp_right fun kept => kept watched
  | cancelAll fd => exact (h.remove (.cancelAll (h.wellFormed fd)) e).imp_right fun kept => kept watched
  | epollWait fd =>
    simp only [Readiness.step] at e
    split at e <;> cases e
    exact ⟨⟨h.wellFormed, h.asked⟩, watched.take⟩
  | dispatch r =>
    simp only [Readiness.step] at e
    split at e
    · obtain ⟨m, dispatched, rfl⟩ := Option.map_eq_some_iff.1 e
      obtain ⟨told, kept⟩ := h.dispatch dispatched
      exact ⟨⟨told.wellFormed, told.asked⟩, kept watched⟩
    · cases e

theorem told_of_reach (h : machine.ReachIf ClosesEmpty s) : Told s ∧ EdgeTriggered.Watched s.kernel s.taken := by
  induction h with
  | init =>
    refine ⟨⟨fun _ => ⟨rfl, rfl⟩, fun _ => rfl⟩, fun n mask e asked => ?_⟩
    cases asked
  | step _ cond e ih => exact ih.1.step ih.2 cond e

/-- A direction of the taken event is one that it tells of. -/
theorem tells_of_realEvents {r : EdgeTriggered.Report Nat Event}
    (real : ((s.contexts r.number).realEvents (bits r.ready) r.broken).has event = true) : r.Tells r.number event := by
  refine ⟨rfl, ?_⟩
  by_cases broken : r.broken = true
  · exact .inr broken
  · rw [FdContext.realEvents, if_neg broken] at real
    refine .inl ((has_bits ?_).1 real)
    rintro rfl
    cases real

/-- Exactly the waiters of these directions are given to the scheduler, each once. -/
def Gives (s s' : State) (fd : Nat) (ended : List Event) : Prop :=
  ended.Nodup ∧ s'.woken = s.woken ++ ended.filterMap (s.contexts fd).registered ∧
    ∀ event ∈ ended, (s'.contexts fd).registered event = none

/-- A dispatch triggers what is registered in the directions that the event tells of. -/
theorem dispatch_wakes {r : EdgeTriggered.Report Nat Event} {w : Waiter} (h : Told s)
    (registered : (s.contexts fd).registered event = some w) (tells : r.Tells fd event)
    (e : step s (.dispatch r) = some s') :
    ∃ ended, Gives s s' fd ended ∧ ∀ d, d ∈ ended ↔ (s.contexts fd).registered d ≠ none ∧ r.Tells fd d := by
  obtain rfl := tells.1
  simp only [Readiness.step] at e
  split at e
  · obtain ⟨m, dispatched, rfl⟩ := Option.map_eq_some_iff.1 e
    have wellFormed := h.wellFormed r.number
    have has := FdContext.registered_has wellFormed registered
    have real := realEvents_has has tells
    have some' : (s.contexts r.number).events ≠ .none := fun nothing => by
      rw [nothing] at has
      cases event <;> cases has
    obtain ⟨done, is, ran⟩ := ran_of_body dispatched
    obtain rfl : done = true := by rw [← is, h.accepts some', Bool.and_self]
    obtain ⟨res, exit⟩ := ran.exit
    have spec := h.tells r
    have triggers := spec.triggers true res exit
    have after := spec.told res (decide_eq_true (has_inter has real)) exit
    generalize FdContext.dispatch (s.contexts r.number) (bits r.ready) r.broken true = b at *
    have handed : b.ended.filterMap (·.2) = (b.ended.map (·.1)).filterMap (s.contexts r.number).registered := by
      rw [List.filterMap_map]
      exact List.filterMap_congr fun x there => triggers.handed x.1 x.2 there
    have cleared (d : Event) (there : d ∈ b.ended.map (·.1)) : b.ctx.events.has d = false := by
      obtain ⟨⟨d, v⟩, ended, rfl⟩ := List.mem_map.1 there
      exact (triggers.ends.ended d v ended).2.1
    refine ⟨b.ended.map (·.1), ⟨triggers.ends.once, ?_, fun d there => ?_⟩, fun d => ⟨fun there => ?_, fun ⟨held, told⟩ => ?_⟩⟩
    · rw [← handed]
      exact ran.woken
    · simp only [ran.contexts, Function.update_self]
      by_contra still
      obtain ⟨u, is⟩ := Option.ne_none_iff_exists'.1 still
      cases (cleared d there).symm.trans (FdContext.registered_has triggers.ends.wellFormed is)
    · have gone := cleared d there
      obtain ⟨⟨d, v⟩, ended, rfl⟩ := List.mem_map.1 there
      have held := (triggers.ends.ended d v ended).1
      obtain ⟨u, is⟩ := FdContext.registered_of_has wellFormed held
      refine ⟨by simp [is], tells_of_realEvents (s := s) ?_⟩
      rw [after, has_diff, held, Bool.true_and] at gone
      simpa using gone
    · obtain ⟨u, is⟩ := Option.ne_none_iff_exists'.1 held
      have set := FdContext.registered_has wellFormed is
      by_contra kept
      have stays := (triggers.ends.kept d kept).1
      rw [after, has_diff, set, realEvents_has set told] at stays
      cases stays
  · cases e

end Steps

/-- **Main theorem.** Whatever gets ready when, and however the workers come to it: while a
file is ready in a direction that is registered, or has an error, an event that tells of it
is on epoll's ready list or before a worker. A dispatch of such an event wakes the waiters of
the registered directions that it tells of, each once, unless one of its assertions fails. -/
theorem readiness_kept (s : State) (h : machine.ReachIf ClosesEmpty s) : ∀ fd event w,
    (s.contexts fd).registered event = some w → s.kernel.Hot fd event →
      ((∃ s', step s (.epollWait fd) = some s' ∧ ∃ r ∈ s'.taken, r.Tells fd event) ∨ ∃ r ∈ s.taken, r.Tells fd event) ∧
      ∀ r s', r.Tells fd event → step s (.dispatch r) = some s' →
        ∃ ended, Gives s s' fd ended ∧ ∀ d, d ∈ ended ↔ (s.contexts fd).registered d ≠ none ∧ r.Tells fd d := by
  intro fd event w registered hot
  obtain ⟨told, watched⟩ := told_of_reach h
  refine ⟨?_, fun r s' tells e => dispatch_wakes told registered tells e⟩
  have has := FdContext.registered_has (told.wellFormed fd) registered
  have asked : s.kernel.asked fd = some (directions (s.contexts fd).events) := by
    rw [told.asked fd, if_neg fun nothing => ?_]
    rw [nothing] at has
    cases event <;> cases has
  have mem := mem_directions.2 has
  rcases watched fd _ event asked mem hot with queued | taken
  · left
    refine ⟨_, if_pos queued, ⟨fd, s.kernel.ready fd ∩ directions (s.contexts fd).events, s.kernel.broken fd⟩, ?_, rfl, ?_⟩
    · refine List.mem_append_right _ ?_
      simp only [EdgeTriggered.Kernel.report, asked, EdgeTriggered.poll_of_hot hot mem, if_true, Option.toList_some,
        List.mem_singleton]
    · exact hot.imp_left fun ready => Finset.mem_inter.2 ⟨ready, mem⟩
  · exact .inr taken

/-- Data comes to the number 5 after the `EAGAIN` of fiber 7, and before its `addEvent`. -/
theorem readiness_kept_before : ∃ s s', machine.ReachIf ClosesEmpty s ∧ s.taken = [] ∧
    step s (.epollWait 5) = some s' ∧ ∃ r ∈ s'.taken, r.Tells 5 .read := by
  have start : machine.ReachIf ClosesEmpty _ := .init
  have run := (start.next (.arrives 5 .read) trivial rfl).next (.addEvent 5 .read (.fiber 7) true) trivial rfl
  obtain ⟨s', waits, told⟩ | ⟨r, there, -⟩ := (readiness_kept _ run 5 .read (.fiber 7) rfl (.inl (by decide))).1
  · exact ⟨_, s', run, rfl, waits, told⟩
  · cases there

/-- A number is closed and handed out again under a registration: the new file gets ready,
and nobody is told. -/
theorem closed_unwatched : ∃ s, machine.Reach s ∧ (s.contexts 5).registered .read = some (.fiber 7) ∧ s.kernel.Hot 5 .read ∧
    s.kernel.queued 5 = false ∧ s.taken = [] := by
  have run := Machine.reach_of_exec (rfl : machine.exec machine.init
    [.addEvent 5 .read (.fiber 7) true, .close 5, .arrives 5 .read] = some _)
  exact ⟨_, run, rfl, .inl (by decide), rfl, rfl⟩

end Mycoroutine.Readiness
