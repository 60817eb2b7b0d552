import Mathlib.Algebra.BigOperators.Group.Finset.Basic
import Mycoroutine.IOManager.FdContext
import Mycoroutine.Interleave.Machine

/-!
# Event registrations

The bodies of `FdContext.lean` interleaved by any number of threads, on the fds of
a set that the table of contexts holds. `epoll_wait` gives a worker, for each fd,
some part of what it is subscribed to; the worker works through it later.

An fd's subscription is its `events`: a body stores there what it told `epoll_ctl`.
`m_pendingEventCount` is an integer here, since it never leaves the range of
`size_t` while the count is right.

`adds`, `latest` and `ended` are history: the successful `addEvent` calls, the
latest of each direction, and by which body each ended and what that scheduled.
-/

namespace Mycoroutine.IOManager
set_option autoImplicit false
open Interleave

/-- One event that `epoll_wait` returned; `wake` says that it holds `EPOLLERR` or
`EPOLLHUP`. -/
structure Ready where
  fd : Nat
  ready : Mask
  wake : Bool

/-- A successful `addEvent`. -/
structure Registration where
  fd : Nat
  event : Event
  waiter : Waiter

/-- What ends a registration: `delEvent`, or a body that calls `triggerEvent`. -/
inductive Consumer where
  | delEvent
  | trigger
deriving DecidableEq

/-- A registration that ended, by its place among the successful `addEvent` calls;
`scheduled` is what the body handed to the scheduler. -/
structure Ended where
  registration : Option Nat
  consumer : Consumer
  scheduled : Option Waiter

structure State where
  contexts : Nat → FdContext
  pendingEventCount : Int
  harvested : Nat → List Ready
  aborted : Bool
  adds : List Registration
  latest : Nat → Event → Option Nat
  ended : List Ended

/-- One locked body, or one `epoll_wait`; `ok` is the outcome of `epoll_ctl`. -/
inductive Label where
  | addEvent (fd : Nat) (event : Event) (waiter : Waiter) (ok : Bool)
  | delEvent (fd : Nat) (event : Event) (ok : Bool)
  | cancelEvent (fd : Nat) (event : Event) (ok : Bool)
  | cancelAll (fd : Nat) (ok : Bool)
  | epollWait (worker : Nat) (ready : List Ready)
  | dispatch (worker : Nat) (ok : Bool)

namespace State

/-- What a body on `fd` leaves; `consumer` says which body it is. -/
def body (s : State) (consumer : Consumer) (fd : Nat) (b : Body) : State :=
  { s with contexts := Function.update s.contexts fd b.ctx, pendingEventCount := s.pendingEventCount + b.count,
           aborted := decide (b.exit = .aborted),
           ended := s.ended ++ b.ended.map fun end' => ⟨s.latest fd end'.1, consumer, end'.2⟩ }

/-- The history of a successful `addEvent`. -/
def added (s : State) (fd : Nat) (event : Event) (waiter : Waiter) : State :=
  { s with adds := s.adds ++ [⟨fd, event, waiter⟩],
           latest := Function.update s.latest fd (Function.update (s.latest fd) event (some s.adds.length)) }

/-- What `epoll_wait` can return for an fd at this moment. -/
def Reports (s : State) (r : Ready) : Prop :=
  (s.contexts r.fd).events ≠ .none ∧ r.ready.diff (s.contexts r.fd).events = .none

instance (s : State) (r : Ready) : Decidable (s.Reports r) := by
  unfold Reports
  infer_instance

end State

/-- A step of a machine over the fds of a set; the event is `READ` or `WRITE`. -/
def step (fds : Finset Nat) (s : State) (l : Label) : Option State :=
  if s.aborted then none
  else match l with
    | .addEvent fd event waiter ok =>
      if fd ∈ fds ∧ event ≠ .none then
        -- this body ends no registration
        let b := (s.contexts fd).addEvent event waiter ok
        let s' := s.body .trigger fd b
        some (if b.exit = .returned true then s'.added fd event waiter else s')
      else none
    | .delEvent fd event ok =>
      if fd ∈ fds then some (s.body .delEvent fd ((s.contexts fd).delEvent event ok)) else none
    | .cancelEvent fd event ok =>
      if fd ∈ fds then some (s.body .trigger fd ((s.contexts fd).cancelEvent event ok)) else none
    | .cancelAll fd ok => if fd ∈ fds then some (s.body .trigger fd ((s.contexts fd).cancelAll ok)) else none
    | .epollWait worker ready =>
      if s.harvested worker = [] ∧ ∀ r ∈ ready, r.fd ∈ fds ∧ s.Reports r then
        some { s with harvested := Function.update s.harvested worker ready }
      else none
    | .dispatch worker ok =>
      match s.harvested worker with
      | [] => none
      | r :: rest =>
        some { s.body .trigger r.fd ((s.contexts r.fd).dispatch r.ready r.wake ok) with
          harvested := Function.update s.harvested worker rest }

/-- A manager on which nothing is registered. -/
def machine (fds : Finset Nat) : Machine State Label where
  init := { contexts := fun _ => {}, pendingEventCount := 0, harvested := fun _ => [], aborted := false, adds := [],
            latest := fun _ _ => none, ended := [] }
  step := step fds

/-! ## The invariant -/

section Steps

variable {fds : Finset Nat} {s s' : State} {fd : Nat}

/-- A direction is registered, by the latest `addEvent` for it. -/
structure Holds (s : State) (fd : Nat) (e : Event) (n : Nat) : Prop where
  set : (s.contexts fd).events.has e = true
  latest : s.latest fd e = some n
  unended : some n ∉ s.ended.map (·.registration)
  added : s.adds[n]? = ((s.contexts fd).registered e).map fun w => ⟨fd, e, w⟩

/-- `delEvent` schedules nothing; a trigger schedules the waiter of its registration. -/
def Settled (adds : List Registration) (x : Ended) : Prop :=
  match x.consumer with
  | .delEvent => x.scheduled = none
  | .trigger => ∃ n v, x.registration = some n ∧ x.scheduled = some v ∧ adds[n]?.map (·.waiter) = some v

theorem Settled.append {adds : List Registration} {x : Ended} (h : Settled adds x) (more : List Registration) :
    Settled (adds ++ more) x := by
  obtain ⟨registration, consumer, scheduled⟩ := x
  cases consumer with
  | delEvent => exact h
  | trigger =>
    obtain ⟨n, v, isN, isV, at'⟩ := h
    obtain ⟨r, is, -⟩ := Option.map_eq_some_iff.1 at'
    exact ⟨n, v, isN, isV, by rwa [List.getElem?_append_left (List.getElem?_eq_some_iff.1 is).1]⟩

structure Consistent (fds : Finset Nat) (s : State) : Prop where
  wellFormed : ∀ fd, (s.contexts fd).WellFormed
  count : s.pendingEventCount = ∑ fd ∈ fds, (s.contexts fd).events.size
  lives : s.aborted = false
  harvested : ∀ worker, ∀ r ∈ s.harvested worker, r.fd ∈ fds
  held : ∀ fd e, (s.contexts fd).events.has e = true → ∃ n, Holds s fd e n
  latest : ∀ fd e n, s.latest fd e = some n → ∃ w, s.adds[n]? = some ⟨fd, e, w⟩
  open_ : ∀ n < s.adds.length, some n ∉ s.ended.map (·.registration) → ∃ fd ∈ fds, ∃ e, Holds s fd e n
  ended : ∀ x ∈ s.ended, Settled s.adds x ∧ ∃ n < s.adds.length, x.registration = some n
  once : (s.ended.map (·.registration)).Nodup

theorem consistent_init : Consistent fds (machine fds).init where
  wellFormed _ := ⟨rfl, rfl⟩
  count := by simp [machine, Mask.size, Mask.none]
  lives := rfl
  harvested := nofun
  held := by
    intro fd e has
    cases e <;> cases has
  latest := nofun
  open_ := nofun
  ended := nofun
  once := List.nodup_nil

/-- One context changes under the sum. -/
theorem sum_update (contexts : Nat → FdContext) (ctx : FdContext) (mem : fd ∈ fds) :
    (∑ x ∈ fds, (Function.update contexts fd ctx x).events.size) + (contexts fd).events.size =
      (∑ x ∈ fds, (contexts x).events.size) + ctx.events.size := by
  rw [← Finset.add_sum_erase fds _ mem, ← Finset.add_sum_erase fds (fun x => (contexts x).events.size) mem]
  have rest : ∑ x ∈ fds.erase fd, (Function.update contexts fd ctx x).events.size =
      ∑ x ∈ fds.erase fd, (contexts x).events.size := by
    refine Finset.sum_congr rfl fun x inside => ?_
    rw [Function.update_of_ne (Finset.ne_of_mem_erase inside)]
  rw [rest, Function.update_self]
  omega

/-- What a body of a consumer hands over for a registration it ends. -/
def Hands (ctx : FdContext) (e : Event) (w : Option Waiter) : Consumer → Prop
  | .delEvent => w = none
  | .trigger => ∃ v, w = some v ∧ ctx.registered e = some v

/-- A body that ends registrations. -/
theorem Consistent.body {b : Body} {consumer : Consumer} (h : Consistent fds s) (mem : fd ∈ fds)
    (ends : (s.contexts fd).Ends b) (hands : ∀ e w, (e, w) ∈ b.ended → Hands (s.contexts fd) e w consumer) :
    Consistent fds (s.body consumer fd b) := by
  obtain ⟨r, exit⟩ := ends.exit
  -- a registration ended by the body was the latest of its direction, and pending
  have pending : ∀ x ∈ b.ended.map (fun end' => (⟨s.latest fd end'.1, consumer, end'.2⟩ : Ended)),
      ∃ e w n, (e, w) ∈ b.ended ∧ x = ⟨some n, consumer, w⟩ ∧ Holds s fd e n := by
    intro x there
    obtain ⟨⟨e, w⟩, inside, rfl⟩ := List.mem_map.1 there
    obtain ⟨n, holds⟩ := h.held fd e (ends.ended e w inside).1
    exact ⟨e, w, n, inside, by simp only [holds.latest], holds⟩
  have endedNow : (s.body consumer fd b).ended.map (·.registration) =
      s.ended.map (·.registration) ++ b.ended.map fun end' => s.latest fd end'.1 := by
    simp [State.body]
  -- a registration that is not ended by the body still holds
  have stays : ∀ x e n, Holds s x e n → (x = fd → e ∉ b.ended.map (·.1)) → Holds (s.body consumer fd b) x e n := by
    intro x e n holds off
    have unended : some n ∉ (s.body consumer fd b).ended.map (·.registration) := by
      rw [endedNow, List.mem_append, not_or]
      refine ⟨holds.unended, fun there => ?_⟩
      obtain ⟨⟨e', w⟩, inside, same⟩ := List.mem_map.1 there
      obtain ⟨v, at'⟩ := h.latest fd e' n same
      obtain ⟨v', at''⟩ := h.latest x e n holds.latest
      have equal := Option.some.inj (at'.symm.trans at'')
      cases equal
      exact off rfl (List.mem_map_of_mem inside)
    by_cases mine : x = fd
    · subst mine
      obtain ⟨has, context⟩ := ends.kept e (off rfl)
      refine ⟨?_, holds.latest, unended, ?_⟩
      · simp only [State.body, Function.update_self, has]
        exact holds.set
      · have same : b.ctx.registered e = (s.contexts x).registered e := by
          rw [FdContext.registered, context, FdContext.registered]
        simp only [State.body, Function.update_self, same]
        exact holds.added
    · refine ⟨?_, holds.latest, unended, ?_⟩
      · simp only [State.body, Function.update_of_ne mine]
        exact holds.set
      · simp only [State.body, Function.update_of_ne mine]
        exact holds.added
  constructor
  case wellFormed =>
    intro x
    simp only [State.body, Function.update_apply]
    split
    · exact ends.wellFormed
    · exact h.wellFormed x
  case count =>
    have sums := sum_update s.contexts b.ctx mem
    have count := ends.count
    simp only [State.body]
    have before := h.count
    omega
  case lives => simp [State.body, exit]
  case harvested => exact h.harvested
  case held =>
    intro x e has
    by_cases mine : x = fd
    · subst mine
      simp only [State.body, Function.update_self] at has
      have off : e ∉ b.ended.map (·.1) := fun there => by
        obtain ⟨⟨e, w⟩, inside, rfl⟩ := List.mem_map.1 there
        cases has.symm.trans (ends.ended e w inside).2.1
      obtain ⟨n, holds⟩ := h.held x e ((ends.kept e off).1.symm.trans has)
      exact ⟨n, stays x e n holds fun _ => off⟩
    · simp only [State.body, Function.update_of_ne mine] at has
      obtain ⟨n, holds⟩ := h.held x e has
      exact ⟨n, stays x e n holds fun same => absurd same mine⟩
  case latest => exact h.latest
  case open_ =>
    intro n bound unended
    rw [endedNow, List.mem_append, not_or] at unended
    obtain ⟨x, inside, e, holds⟩ := h.open_ n bound unended.1
    refine ⟨x, inside, e, stays x e n holds fun mine there => unended.2 ?_⟩
    subst mine
    obtain ⟨end', was, rfl⟩ := List.mem_map.1 there
    exact List.mem_map.2 ⟨end', was, holds.latest⟩
  case ended =>
    intro x there
    rcases List.mem_append.1 there with old | new
    · exact h.ended x old
    · obtain ⟨e, w, n, inside, rfl, holds⟩ := pending x new
      obtain ⟨v, at'⟩ := h.latest fd e n holds.latest
      refine ⟨?_, n, (List.getElem?_eq_some_iff.1 at').1, rfl⟩
      have handed := hands e w inside
      cases consumer with
      | delEvent => exact handed
      | trigger =>
        obtain ⟨v', isV, registered⟩ := handed
        have added := holds.added
        rw [registered] at added
        exact ⟨n, v', rfl, isV, by simp [State.body, added]⟩
  case once =>
    rw [endedNow]
    have held : ∀ e ∈ b.ended.map (·.1), ∃ n, Holds s fd e n := fun e there => by
      obtain ⟨⟨e, w⟩, inside, rfl⟩ := List.mem_map.1 there
      exact h.held fd e (ends.ended e w inside).1
    have asMap : (b.ended.map fun end' => s.latest fd end'.1) = (b.ended.map (·.1)).map (s.latest fd) := by simp
    rw [asMap]
    refine h.once.append (ends.once.map_on fun e mem e' mem' same => ?_) (List.disjoint_left.2 fun k old new => ?_)
    · obtain ⟨n, holds⟩ := held e mem
      obtain ⟨v, at'⟩ := h.latest fd e n holds.latest
      obtain ⟨v', at''⟩ := h.latest fd e' n (same.symm.trans holds.latest)
      cases Option.some.inj (at'.symm.trans at'')
      rfl
    · obtain ⟨e, mem, rfl⟩ := List.mem_map.1 new
      obtain ⟨n, holds⟩ := held e mem
      rw [holds.latest] at old
      exact holds.unended old

/-- A body that ends registrations by `triggerEvent`. -/
theorem Consistent.triggers {asks : Bool} {left : Mask} {b : Bool → Body} (h : Consistent fds s) (ok : Bool)
    (mem : fd ∈ fds) (tells : (s.contexts fd).Tells asks left b) (ends : (s.contexts fd).Ends (b ok)) :
    Consistent fds (s.body .trigger fd (b ok)) := by
  obtain ⟨r, exit⟩ := ends.exit
  exact h.body mem ends fun e w inside => (tells.triggers ok r exit).waiter (h.wellFormed fd) inside

/-- A successful `addEvent`. -/
theorem Consistent.added {e : Event} {waiter : Waiter} {b : Body} {consumer : Consumer} (h : Consistent fds s) (mem : fd ∈ fds)
    (real : e ≠ .none) (free : (s.contexts fd).events.has e = false)
    (is : b = { ctx := { s.contexts fd with events := (s.contexts fd).events.insert e }.setEventContext (.armed waiter) e,
                count := 1, exit := .returned true }) : Consistent fds ((s.body consumer fd b).added fd e waiter) := by
  have events : b.ctx.events = (s.contexts fd).events.insert e := by rw [is, FdContext.events_set]
  have size := FdContext.size_insert free real
  -- the direction added is registered by the new call
  have mine : Holds ((s.body consumer fd b).added fd e waiter) fd e s.adds.length := by
    refine ⟨?_, ?_, ?_, ?_⟩
    · simp [State.added, State.body, events, FdContext.has_insert, real]
    · simp [State.added, State.body]
    · intro there
      have old : some s.adds.length ∈ s.ended.map (·.registration) := by simpa [State.added, State.body, is] using there
      obtain ⟨x, inside, same⟩ := List.mem_map.1 old
      obtain ⟨-, n, bound, is'⟩ := h.ended x inside
      cases same.symm.trans is'
      exact Nat.lt_irrefl _ bound
    · have registered : b.ctx.registered e = some waiter := by
        rw [is]
        cases e with
        | none => exact absurd rfl real
        | read | write => exact FdContext.waiter_armed waiter
      simp [State.added, State.body, registered]
  have stays : ∀ x e' n, Holds s x e' n → ¬ (x = fd ∧ e' = e) → Holds ((s.body consumer fd b).added fd e waiter) x e' n := by
    intro x e' n holds other
    obtain ⟨w, at'⟩ := h.latest x e' n holds.latest
    have bound := (List.getElem?_eq_some_iff.1 at').1
    have adds : ((s.body consumer fd b).added fd e waiter).adds[n]? = s.adds[n]? := List.getElem?_append_left bound
    have unended : some n ∉ ((s.body consumer fd b).added fd e waiter).ended.map (·.registration) := by
      simpa [State.added, State.body, is] using holds.unended
    by_cases same : x = fd
    · subst same
      have apart : e' ≠ e := fun equal => other ⟨rfl, equal⟩
      have context : b.ctx.getEventContext e' = (s.contexts x).getEventContext e' := by
        rw [is, FdContext.getEventContext_set apart, FdContext.getEventContext_events]
      refine ⟨?_, ?_, unended, ?_⟩
      · simp [State.added, State.body, events, FdContext.has_insert, holds.set]
      · simp [State.added, State.body, apart, holds.latest]
      · rw [adds, holds.added]
        simp [State.added, State.body, FdContext.registered, context]
    · refine ⟨?_, ?_, unended, ?_⟩
      · simpa [State.added, State.body, same] using holds.set
      · simpa [State.added, State.body, same] using holds.latest
      · rw [adds, holds.added]
        simp [State.added, State.body, same]
  constructor
  case wellFormed =>
    intro x
    simp only [State.added, State.body, Function.update_apply]
    split
    · rw [is]
      exact FdContext.wellFormed_add (h.wellFormed fd)
    · exact h.wellFormed x
  case count =>
    have sums := sum_update s.contexts b.ctx mem
    have before := h.count
    simp only [State.added, State.body]
    rw [events, size] at sums
    have one : b.count = 1 := by rw [is]
    omega
  case lives => simp [State.added, State.body, is]
  case harvested => exact h.harvested
  case held =>
    intro x e' has
    by_cases same : x = fd ∧ e' = e
    · obtain ⟨rfl, rfl⟩ := same
      exact ⟨_, mine⟩
    · have before : (s.contexts x).events.has e' = true := by
        by_cases here : x = fd
        · subst here
          have apart : e' ≠ e := fun equal => same ⟨rfl, equal⟩
          simpa [State.added, State.body, events, FdContext.has_insert, apart] using has
        · simpa [State.added, State.body, here] using has
      obtain ⟨n, holds⟩ := h.held x e' before
      exact ⟨n, stays x e' n holds same⟩
  case latest =>
    intro x e' n is'
    by_cases same : x = fd ∧ e' = e
    · obtain ⟨rfl, rfl⟩ := same
      have last : n = s.adds.length := by simpa [State.added, State.body, eq_comm] using is'
      exact ⟨waiter, by simp [State.added, State.body, last]⟩
    · have before : s.latest x e' = some n := by
        by_cases here : x = fd
        · subst here
          have apart : e' ≠ e := fun equal => same ⟨rfl, equal⟩
          simpa [State.added, State.body, apart] using is'
        · simpa [State.added, State.body, here] using is'
      obtain ⟨w, at'⟩ := h.latest x e' n before
      exact ⟨w, (List.getElem?_append_left (List.getElem?_eq_some_iff.1 at').1).trans at'⟩
  case open_ =>
    intro n bound unended
    by_cases last : n = s.adds.length
    · exact ⟨fd, mem, e, last ▸ mine⟩
    · have before : n < s.adds.length := by
        simp only [State.added, State.body, List.length_append, List.length_singleton] at bound
        omega
      obtain ⟨x, inside, e', holds⟩ := h.open_ n before (by simpa [State.added, State.body, is] using unended)
      refine ⟨x, inside, e', stays x e' n holds ?_⟩
      rintro ⟨rfl, rfl⟩
      cases free.symm.trans holds.set
  case ended =>
    intro x there
    obtain ⟨settled, n, bound, same⟩ := h.ended x (by simpa [State.added, State.body, is] using there)
    exact ⟨settled.append _, n, bound.trans_le (by simp [State.added, State.body]), same⟩
  case once => simpa [State.added, State.body, is] using h.once

/-- The dispatch, with `epoll_ctl` succeeding, takes no event for a direction that
is not registered, unless it takes it for no registered one. -/
def DispatchesRegistered (s : State) : Label → Prop
  | .dispatch worker true =>
    ∀ r rest, s.harvested worker = r :: rest →
      (s.contexts r.fd).events.inter ((s.contexts r.fd).realEvents r.ready r.wake) ≠ .none →
        ((s.contexts r.fd).realEvents r.ready r.wake).diff (s.contexts r.fd).events = .none
  | _ => True

theorem diff_none {a b : Mask} (h : a.diff b = .none) (e : Event) (has : a.has e = true) : b.has e = true := by
  obtain ⟨ar, aw⟩ := a
  obtain ⟨br, bw⟩ := b
  simp only [Mask.diff, Mask.none, Mask.mk.injEq] at h
  cases e with
  | none => cases has
  | read =>
    cases has
    simpa [Mask.has] using h.1
  | write =>
    cases has
    simpa [Mask.has] using h.2

/-- `epoll_wait`, and going on to the next event. -/
theorem Consistent.harvest {worker : Nat} {ready : List Ready} (h : Consistent fds s) (inside : ∀ r ∈ ready, r.fd ∈ fds) :
    Consistent fds { s with harvested := Function.update s.harvested worker ready } := by
  refine ⟨h.wellFormed, h.count, h.lives, fun w r mem => ?_, ?_, h.latest, ?_, h.ended, h.once⟩
  · by_cases mine : w = worker
    · subst mine
      simp only [Function.update_self] at mem
      exact inside r mem
    · simp only [Function.update_of_ne mine] at mem
      exact h.harvested w r mem
  · intro x e' has
    obtain ⟨n, holds⟩ := h.held x e' has
    exact ⟨n, holds.set, holds.latest, holds.unended, holds.added⟩
  · intro n bound unended
    obtain ⟨x, within, e', holds⟩ := h.open_ n bound unended
    exact ⟨x, within, e', holds.set, holds.latest, holds.unended, holds.added⟩

theorem Consistent.step {l : Label} (h : Consistent fds s) (cond : DispatchesRegistered s l)
    (e : step fds s l = some s') : Consistent fds s' := by
  simp only [IOManager.step, h.lives, Bool.false_eq_true, if_false] at e
  cases l with
  | addEvent fd event waiter ok =>
    simp only at e
    split at e
    · rename_i guard
      rcases FdContext.addEvent_spec waiter ok (h.wellFormed fd) guard.2 with refused | ⟨free, -, done⟩
      · rw [refused] at e
        cases e
        exact h.body guard.1 (.refl (h.wellFormed fd) false) (by simp)
      · rw [if_pos (by rw [done])] at e
        cases e
        exact h.added guard.1 guard.2 free done
    · cases e
  | delEvent fd event ok =>
    simp only at e
    split at e <;> cases e
    rename_i mem
    exact h.body mem (.delEvent (h.wellFormed fd)) fun e' w inside => FdContext.delEvent_ended inside
  | cancelEvent fd event ok =>
    simp only at e
    split at e <;> cases e
    rename_i mem
    exact h.triggers ok mem (.cancelEvent (h.wellFormed fd)) (.cancelEvent (h.wellFormed fd))
  | cancelAll fd ok =>
    simp only at e
    split at e <;> cases e
    rename_i mem
    exact h.triggers ok mem (.cancelAll (h.wellFormed fd)) (.cancelAll (h.wellFormed fd))
  | epollWait worker ready =>
    simp only at e
    split at e <;> cases e
    rename_i guard
    simpa only [h.lives] using h.harvest fun r mem => (guard.2 r mem).1
  | dispatch worker ok =>
    simp only at e
    split at e <;> cases e
    rename_i r rest queue
    have mem : r.fd ∈ fds := h.harvested worker r (queue ▸ List.mem_cons_self)
    have after := h.triggers ok mem (.dispatch (h.wellFormed r.fd)) (.dispatch (h.wellFormed r.fd)
      fun done some' => by
        subst done
        exact diff_none (cond r rest queue some'))
    have within : ∀ r' ∈ rest, r'.fd ∈ fds := fun r' mem' => h.harvested worker r' (queue ▸ List.mem_cons_of_mem r mem')
    exact after.harvest within

theorem consistent_of_reach (h : (machine fds).ReachIf DispatchesRegistered s) : Consistent fds s := by
  induction h with
  | init => exact consistent_init
  | step _ cond e ih => exact ih.step cond e

end Steps

/-! ## The contract -/

/-- What the registrations promise between two bodies. `each` says that a
successful `addEvent` is pending, or has ended; `once` that it ends once; `consumed`
that `delEvent` then scheduled nothing, and a trigger what the `addEvent` gave. -/
structure Accounted (fds : Finset Nat) (s : State) : Prop where
  slots : ∀ fd e c, (s.contexts fd).getEventContext e = some c → ((s.contexts fd).events.has e = true ↔ c.Armed)
  count : s.pendingEventCount = ∑ fd ∈ fds, (s.contexts fd).events.size
  asserts : s.aborted = false
  once : (s.ended.map (·.registration)).Nodup ∧
    ∀ k ∈ s.ended.map (·.registration), ∃ n < s.adds.length, k = some n
  each : ∀ n < s.adds.length, some n ∈ s.ended.map (·.registration) ∨ ∃ fd ∈ fds, ∃ e, Holds s fd e n
  consumed : ∀ x ∈ s.ended, Settled s.adds x

/-- **Main theorem.** In every run whose dispatches take no event for a direction
that is not registered, the registrations stay consistent and each is consumed
exactly once. -/
theorem consumed_once (fds : Finset Nat) (s : State) (h : (machine fds).ReachIf DispatchesRegistered s) :
    Accounted fds s := by
  have inv := consistent_of_reach h
  constructor
  case slots =>
    intro fd e c here
    obtain ⟨read, write⟩ := inv.wellFormed fd
    have empty : ¬ ({} : EventContext).Armed := fun armed => by cases armed.1
    cases e with
    | none => cases here
    | read =>
      cases here
      cases set : (s.contexts fd).events.read with
      | true => simpa [Mask.has, set] using read
      | false => simpa [Mask.has, set, show (s.contexts fd).read = {} by simpa [set] using read] using empty
    | write =>
      cases here
      cases set : (s.contexts fd).events.write with
      | true => simpa [Mask.has, set] using write
      | false => simpa [Mask.has, set, show (s.contexts fd).write = {} by simpa [set] using write] using empty
  case count => exact inv.count
  case asserts => exact inv.lives
  case once =>
    refine ⟨inv.once, fun k mem => ?_⟩
    obtain ⟨x, there, rfl⟩ := List.mem_map.1 mem
    exact (inv.ended x there).2
  case each => exact fun n bound => or_iff_not_imp_left.2 (inv.open_ n bound)
  case consumed => exact fun x there => (inv.ended x there).1

/-- Fd 5 is registered both ways; its write direction is dropped after `epoll_wait`
reported the read direction, which is then dispatched. -/
theorem consumed_once_dropped : ∃ s, Accounted {5} s ∧
    s.ended = [⟨some 1, .delEvent, none⟩, ⟨some 0, .trigger, some (.fiber 7)⟩] := by
  have start : (machine {5}).ReachIf DispatchesRegistered _ := .init
  have added := (start.next (.addEvent 5 .read (.fiber 7) true) trivial rfl).next
    (.addEvent 5 .write (.callback 8) true) trivial rfl
  have reported := added.next (.epollWait 0 [⟨5, ⟨true, false⟩, false⟩]) trivial rfl
  have dropped := reported.next (.delEvent 5 .write true) trivial rfl
  have dispatched := dropped.next (.dispatch 0 true) (fun r rest queue _ => ?_) rfl
  · exact ⟨_, consumed_once _ _ dispatched, rfl⟩
  · cases queue
    rfl

/-- Both directions of fd 5 are reported and the read direction is dropped before
the worker comes to it: `triggerEvent(READ)` meets a clear bit. -/
theorem dispatch_aborts : ∃ s, (machine {5}).Reach s ∧ s.aborted = true :=
  ⟨_, Machine.reach_of_exec (rfl : (machine {5}).exec (machine {5}).init
    [.addEvent 5 .read (.fiber 7) true, .addEvent 5 .write (.fiber 8) true, .epollWait 0 [⟨5, ⟨true, true⟩, false⟩],
     .delEvent 5 .read true, .dispatch 0 true] = some _), rfl⟩

end Mycoroutine.IOManager
