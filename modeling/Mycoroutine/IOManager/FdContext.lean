import Mathlib.Data.Int.Basic
import Mathlib.Data.List.Nodup

/-!
# `IOManager::FdContext`

The bodies of `addEvent`, `delEvent`, `cancelEvent`, `cancelAll` and of the event
dispatch in `idle`, each of which runs under `fd_ctx->mutex`. `epoll_ctl` is not
modelled here: the bodies take its outcome `ok`, and `addOp` and `removeOp` are
the operations they ask for.

A body's result lists what became of the registrations it ended: dropped by
`delEvent`, or handed to the scheduler.
-/

namespace Mycoroutine.IOManager
set_option autoImplicit false

/-- `IOManager::Event`, as an argument. -/
inductive Event where
  | none
  | read
  | write
deriving DecidableEq

/-- A set of directions: `READ` and `WRITE`, which have the bits of `EPOLLIN` and
`EPOLLOUT`. -/
structure Mask where
  read : Bool
  write : Bool
deriving DecidableEq

namespace Mask

def none : Mask := ⟨false, false⟩

/-- `m & event`. -/
def has (m : Mask) : Event → Bool
  | .none => false
  | .read => m.read
  | .write => m.write

/-- `m | event`. -/
def insert (m : Mask) : Event → Mask
  | .none => m
  | .read => { m with read := true }
  | .write => { m with write := true }

/-- `m & ~event`. -/
def erase (m : Mask) : Event → Mask
  | .none => m
  | .read => { m with read := false }
  | .write => { m with write := false }

def union (a b : Mask) : Mask := ⟨a.read || b.read, a.write || b.write⟩

def inter (a b : Mask) : Mask := ⟨a.read && b.read, a.write && b.write⟩

/-- `a & ~b`. -/
def diff (a b : Mask) : Mask := ⟨a.read && !b.read, a.write && !b.write⟩

/-- The number of set bits. -/
def size (m : Mask) : Nat := m.read.toNat + m.write.toNat

end Mask

/-- What an event resumes: `EventContext::fiber` or `EventContext::cb`. -/
inductive Waiter where
  | fiber (f : Nat)
  | callback (cb : Nat)
deriving DecidableEq

/-- `FdContext::EventContext`. A scheduler is always this manager. -/
structure EventContext where
  scheduler : Bool := false
  fiber : Option Nat := Option.none
  cb : Option Nat := Option.none
deriving DecidableEq

namespace EventContext

/-- The context `addEvent` leaves. -/
def armed : Waiter → EventContext
  | .fiber f => { scheduler := true, fiber := some f }
  | .callback cb => { scheduler := true, cb := some cb }

/-- What `triggerEvent` schedules. -/
def waiter (c : EventContext) : Option Waiter :=
  match c.cb with
  | some cb => some (.callback cb)
  | Option.none => c.fiber.map .fiber

/-- A scheduler, and exactly one of a fiber and a callback. -/
def Armed (c : EventContext) : Prop := c.scheduler = true ∧ (c.fiber.isSome ^^ c.cb.isSome) = true

end EventContext

structure FdContext where
  read : EventContext := {}
  write : EventContext := {}
  events : Mask := .none

/-- How a body ends. -/
inductive Exit where
  | returned (b : Bool)
  | threw
  | aborted
deriving DecidableEq

/-- What a body leaves: the context, the change of `m_pendingEventCount`, and the
registrations it ended. -/
structure Body where
  ctx : FdContext
  count : Int := 0
  ended : List (Event × Option Waiter) := []
  exit : Exit

/-- The operations of `epoll_ctl`. -/
inductive EpollOp where
  | add
  | mod
  | del
deriving DecidableEq

namespace FdContext

variable (ctx : FdContext)

/-- `getEventContext`; `none` when it throws. -/
def getEventContext : Event → Option EventContext
  | .none => Option.none
  | .read => some ctx.read
  | .write => some ctx.write

def setEventContext (c : EventContext) : Event → FdContext
  | .none => ctx
  | .read => { ctx with read := c }
  | .write => { ctx with write := c }

/-- The `op` of `addEvent`. -/
def addOp : EpollOp := if ctx.events = .none then .add else .mod

/-- The `op` of the other bodies, when the directions `left` remain. -/
def removeOp (left : Mask) : EpollOp := if left = .none then .del else .mod

/-- `triggerEvent`; `none` when its assertion fails. -/
def triggerEvent (event : Event) : Option (FdContext × Option Waiter) :=
  if ctx.events.has event then
    let ctx := { ctx with events := ctx.events.erase event }
    (ctx.getEventContext event).map fun c => (ctx.setEventContext {} event, c.waiter)
  else Option.none

/-- The body of `addEvent`. -/
def addEvent (event : Event) (waiter : Waiter) (ok : Bool) : Body :=
  if ctx.events.has event then { ctx, exit := .returned false }
  else if ok then
    let ctx := { ctx with events := ctx.events.insert event }
    match ctx.getEventContext event with
    | Option.none => { ctx, count := 1, exit := .threw }
    | some c =>
      if c.scheduler || c.fiber.isSome || c.cb.isSome then { ctx, count := 1, exit := .aborted }
      else { ctx := ctx.setEventContext (.armed waiter) event, count := 1, exit := .returned true }
  else { ctx, exit := .returned false }

/-- The body of `delEvent`. -/
def delEvent (event : Event) (ok : Bool) : Body :=
  if ctx.events.has event && ok then
    { ctx := { ctx with events := ctx.events.erase event }.setEventContext {} event, count := -1,
      ended := [(event, Option.none)], exit := .returned true }
  else { ctx, exit := .returned false }

/-- `triggerEvent` and the decrement, on the way through a body. -/
def trigger (b : Body) (wanted : Bool) (event : Event) : Body :=
  if wanted && decide (b.exit ≠ .aborted) then
    match b.ctx.triggerEvent event with
    | some (ctx, waiter) => { b with ctx, count := b.count - 1, ended := b.ended ++ [(event, waiter)] }
    | Option.none => { b with exit := .aborted }
  else b

/-- The body of `cancelEvent`. -/
def cancelEvent (event : Event) (ok : Bool) : Body :=
  if ctx.events.has event && ok then trigger { ctx, exit := .returned true } true event
  else { ctx, exit := .returned false }

/-- The body of `cancelAll`; its last assertion holds by construction. -/
def cancelAll (ok : Bool) : Body :=
  if decide (ctx.events ≠ .none) && ok then
    trigger (trigger { ctx, exit := .returned true } ctx.events.read .read) ctx.events.write .write
  else { ctx, exit := .returned false }

/-- The directions `idle` takes an epoll event for: `wake` says that it holds
`EPOLLERR` or `EPOLLHUP`. -/
def realEvents (ready : Mask) (wake : Bool) : Mask := if wake then ready.union ctx.events else ready

/-- The body of the dispatch in `idle`. -/
def dispatch (ready : Mask) (wake ok : Bool) : Body :=
  let real := ctx.realEvents ready wake
  if decide (ctx.events.inter real ≠ .none) && ok then
    trigger (trigger { ctx, exit := .returned true } real.read .read) real.write .write
  else { ctx, exit := .returned false }

/-! ## Well-formed contexts -/

/-- A set bit goes with an armed context, a clear one with an empty one. -/
structure WellFormed : Prop where
  read : if ctx.events.read then ctx.read.Armed else ctx.read = {}
  write : if ctx.events.write then ctx.write.Armed else ctx.write = {}

/-- What a direction's registration resumes. -/
def registered (event : Event) : Option Waiter := (ctx.getEventContext event).bind (·.waiter)

/-- What a body that ends registrations does to a well-formed context. -/
structure Ends (b : Body) : Prop where
  exit : ∃ r, b.exit = .returned r
  wellFormed : b.ctx.WellFormed
  count : b.count + ctx.events.size = b.ctx.events.size
  kept : ∀ e, e ∉ b.ended.map (·.1) →
    b.ctx.events.has e = ctx.events.has e ∧ b.ctx.getEventContext e = ctx.getEventContext e
  ended : ∀ e w, (e, w) ∈ b.ended →
    ctx.events.has e = true ∧ b.ctx.events.has e = false ∧ ∀ v, w = some v → ctx.registered e = some v
  once : (b.ended.map (·.1)).Nodup

variable {ctx}

theorem Ends.refl (h : ctx.WellFormed) (r : Bool) : Ends ctx { ctx, exit := .returned r } :=
  ⟨⟨r, rfl⟩, h, Int.zero_add _, fun _ _ => ⟨rfl, rfl⟩, nofun, List.nodup_nil⟩

/-- One direction's registration ends. -/
theorem wellFormed_end {e : Event} (h : ctx.WellFormed) :
    ({ ctx with events := ctx.events.erase e }.setEventContext {} e).WellFormed := by
  obtain ⟨read, write⟩ := h
  cases e with
  | none => exact ⟨read, write⟩
  | read => exact ⟨by simp [setEventContext, Mask.erase], write⟩
  | write => exact ⟨read, by simp [setEventContext, Mask.erase]⟩

theorem size_erase {m : Mask} {e : Event} (has : m.has e = true) : (m.erase e).size + 1 = m.size := by
  obtain ⟨read, write⟩ := m
  cases e with
  | none => cases has
  | read =>
    cases has
    cases write <;> rfl
  | write =>
    cases has
    cases read <;> rfl

theorem size_insert {m : Mask} {e : Event} (has : m.has e = false) (real : e ≠ .none) : (m.insert e).size = m.size + 1 := by
  obtain ⟨read, write⟩ := m
  cases e with
  | none => exact absurd rfl real
  | read =>
    cases has
    cases write <;> rfl
  | write =>
    cases has
    cases read <;> rfl

theorem has_erase {m : Mask} {e e' : Event} : (m.erase e).has e' = (m.has e' && decide (e' ≠ e)) := by
  cases e <;> cases e' <;> simp [Mask.erase, Mask.has]

theorem has_insert {m : Mask} {e e' : Event} : (m.insert e).has e' = (m.has e' || decide (e' = e ∧ e ≠ .none)) := by
  cases e <;> cases e' <;> simp [Mask.insert, Mask.has]

theorem getEventContext_set {c : EventContext} {e e' : Event} (other : e' ≠ e) :
    (ctx.setEventContext c e).getEventContext e' = ctx.getEventContext e' := by
  cases e <;> cases e' <;> first | rfl | exact absurd rfl other

theorem events_set {c : EventContext} {e : Event} : (ctx.setEventContext c e).events = ctx.events := by
  cases e <;> rfl

theorem getEventContext_events {events : Mask} {e : Event} :
    { ctx with events }.getEventContext e = ctx.getEventContext e := by
  cases e <;> rfl

theorem Ends.delEvent {e : Event} {ok : Bool} (h : ctx.WellFormed) : Ends ctx (ctx.delEvent e ok) := by
  unfold FdContext.delEvent
  split
  · rename_i guard
    obtain ⟨has, -⟩ := Bool.and_eq_true_iff.1 guard
    have size := size_erase has
    refine ⟨⟨true, rfl⟩, wellFormed_end h, ?_, fun e' off => ?_, fun e' w mem => ?_, List.pairwise_singleton ..⟩
    · simp only [events_set]
      omega
    · have other : e' ≠ e := fun same => off (by simp [same])
      simp only [events_set, has_erase, getEventContext_set other, getEventContext_events, other, ne_eq, not_false_eq_true,
        decide_true, Bool.and_true, and_self]
    · cases List.mem_singleton.1 mem
      simp only [events_set, has_erase]
      exact ⟨has, by simp, nofun⟩
  · exact .refl h false

theorem delEvent_ended {e e' : Event} {w : Option Waiter} {ok : Bool} (mem : (e', w) ∈ (ctx.delEvent e ok).ended) :
    w = Option.none := by
  unfold FdContext.delEvent at mem
  split at mem
  · cases List.mem_singleton.1 mem
    rfl
  · cases mem

/-- `triggerEvent` for a set bit, on the way through a body. -/
theorem Ends.trigger {b : Body} {wanted : Bool} {e : Event} (h : Ends ctx b) (set : wanted = true → b.ctx.events.has e = true) :
    Ends ctx (trigger b wanted e) := by
  obtain ⟨r, exit⟩ := h.exit
  cases wanted with
  | false => exact h
  | true =>
    have has := set rfl
    have size := size_erase has
    obtain ⟨c, here⟩ : ∃ c, b.ctx.getEventContext e = some c := by
      cases e with
      | none => cases has
      | read | write => exact ⟨_, rfl⟩
    have fresh : e ∉ b.ended.map (·.1) := fun mem => by
      obtain ⟨⟨e', w⟩, there, rfl⟩ := List.mem_map.1 mem
      cases has.symm.trans (h.ended e' w there).2.1
    obtain ⟨before, same⟩ := h.kept e fresh
    simp only [FdContext.trigger, exit, triggerEvent, has, getEventContext_events, here, ne_eq, reduceCtorEq, not_false_eq_true,
      decide_true, Bool.and_true, if_true, Option.map_some]
    refine ⟨⟨r, rfl⟩, wellFormed_end h.wellFormed, ?_, fun e' off => ?_, fun e' w mem => ?_, ?_⟩
    · have count := h.count
      simp only [events_set]
      omega
    · rw [List.map_append, List.mem_append, not_or] at off
      have other : e' ≠ e := fun same => off.2 (by simp [same])
      obtain ⟨has', same'⟩ := h.kept e' off.1
      simp only [events_set, has_erase, getEventContext_set other, getEventContext_events, other, ne_eq, not_false_eq_true,
        decide_true, Bool.and_true]
      exact ⟨has', same'⟩
    · simp only [events_set, has_erase]
      rcases List.mem_append.1 mem with old | new
      · obtain ⟨was, gone, whom⟩ := h.ended e' w old
        exact ⟨was, by simp [gone], whom⟩
      · cases List.mem_singleton.1 new
        refine ⟨before.symm.trans has, by simp, fun v isV => ?_⟩
        rw [registered, ← same, here]
        exact isV
    · rw [List.map_append, List.map_singleton]
      exact h.once.append (List.pairwise_singleton ..) (List.disjoint_singleton.2 fresh)

theorem Ends.cancelEvent {e : Event} {ok : Bool} (h : ctx.WellFormed) : Ends ctx (ctx.cancelEvent e ok) := by
  unfold FdContext.cancelEvent
  split
  · rename_i guard
    obtain ⟨has, -⟩ := Bool.and_eq_true_iff.1 guard
    exact (Ends.refl h true).trigger fun _ => has
  · exact .refl h false

theorem Ends.both {real : Mask} (h : ctx.WellFormed) (inside : ∀ e, real.has e = true → ctx.events.has e = true) :
    Ends ctx (FdContext.trigger (FdContext.trigger { ctx, exit := .returned true } real.read .read) real.write .write) := by
  have first : Ends ctx (FdContext.trigger { ctx, exit := .returned true } real.read .read) :=
    (Ends.refl h true).trigger fun wanted => inside .read wanted
  refine first.trigger fun wanted => ?_
  have before := inside .write wanted
  refine (first.kept .write ?_).1.trans before
  cases real.read <;> simp [FdContext.trigger, triggerEvent, getEventContext]
  split <;> simp

theorem Ends.cancelAll {ok : Bool} (h : ctx.WellFormed) : Ends ctx (ctx.cancelAll ok) := by
  unfold FdContext.cancelAll
  split
  · exact Ends.both h fun _ => id
  · exact .refl h false

/-- The dispatch is sound when it takes the event only for registered directions. -/
theorem Ends.dispatch {ready : Mask} {wake ok : Bool} (h : ctx.WellFormed)
    (inside : ok = true → ctx.events.inter (ctx.realEvents ready wake) ≠ .none →
      ∀ e, (ctx.realEvents ready wake).has e = true → ctx.events.has e = true) :
    Ends ctx (ctx.dispatch ready wake ok) := by
  simp only [FdContext.dispatch]
  split
  · rename_i guard
    obtain ⟨some', done⟩ := Bool.and_eq_true_iff.1 guard
    exact Ends.both h (inside done (of_decide_eq_true some'))
  · exact .refl h false

/-- `addEvent` registers, or changes nothing. -/
theorem addEvent_spec {e : Event} (waiter : Waiter) (ok : Bool) (h : ctx.WellFormed) (real : e ≠ .none) :
    ctx.addEvent e waiter ok = { ctx, exit := .returned false } ∨
      ctx.events.has e = false ∧ ok = true ∧ ctx.addEvent e waiter ok =
        { ctx := { ctx with events := ctx.events.insert e }.setEventContext (.armed waiter) e, count := 1,
          exit := .returned true } := by
  cases has : ctx.events.has e with
  | true => exact .inl (by simp [addEvent, has])
  | false =>
    cases ok with
    | false => exact .inl (by simp [addEvent, has])
    | true =>
      refine .inr ⟨rfl, rfl, ?_⟩
      obtain ⟨read, write⟩ := h
      cases e with
      | none => exact absurd rfl real
      | read =>
        have clear : ctx.events.read = false := has
        rw [if_neg (by simp [clear])] at read
        simp [addEvent, has, getEventContext, setEventContext, read]
      | write =>
        have clear : ctx.events.write = false := has
        rw [if_neg (by simp [clear])] at write
        simp [addEvent, has, getEventContext, setEventContext, write]

theorem armed_armed (waiter : Waiter) : (EventContext.armed waiter).Armed := by
  cases waiter <;> exact ⟨rfl, rfl⟩

theorem waiter_armed (waiter : Waiter) : (EventContext.armed waiter).waiter = some waiter := by
  cases waiter <;> rfl

theorem wellFormed_add {e : Event} {waiter : Waiter} (h : ctx.WellFormed) :
    ({ ctx with events := ctx.events.insert e }.setEventContext (.armed waiter) e).WellFormed := by
  obtain ⟨read, write⟩ := h
  cases e with
  | none => exact ⟨read, write⟩
  | read => exact ⟨by simpa [setEventContext, Mask.insert] using armed_armed waiter, write⟩
  | write => exact ⟨read, by simpa [setEventContext, Mask.insert] using armed_armed waiter⟩

theorem registered_has {e : Event} {w : Waiter} (h : ctx.WellFormed) (is : ctx.registered e = some w) :
    ctx.events.has e = true := by
  obtain ⟨read, write⟩ := h
  cases e with
  | none => cases is
  | read =>
    by_contra clear
    rw [if_neg (show ¬ ctx.events.read = true from clear)] at read
    simp [registered, getEventContext, read, EventContext.waiter] at is
  | write =>
    by_contra clear
    rw [if_neg (show ¬ ctx.events.write = true from clear)] at write
    simp [registered, getEventContext, write, EventContext.waiter] at is

theorem waiter_of_armed {c : EventContext} (h : c.Armed) : ∃ v, c.waiter = some v := by
  obtain ⟨scheduler, fiber, cb⟩ := c
  obtain ⟨-, one⟩ := h
  cases cb with
  | some cb => exact ⟨.callback cb, rfl⟩
  | none =>
    cases fiber with
    | some f => exact ⟨.fiber f, rfl⟩
    | none => cases one

/-- A set bit goes with a waiter. -/
theorem registered_of_has {e : Event} (h : ctx.WellFormed) (has : ctx.events.has e = true) :
    ∃ v, ctx.registered e = some v := by
  obtain ⟨read, write⟩ := h
  cases e with
  | none => cases has
  | read =>
    rw [if_pos (show ctx.events.read = true from has)] at read
    exact waiter_of_armed read
  | write =>
    rw [if_pos (show ctx.events.write = true from has)] at write
    exact waiter_of_armed write

/-- A well-formed context with no direction set is empty. -/
theorem eq_empty (h : ctx.WellFormed) (nothing : ctx.events = .none) : ctx = {} := by
  obtain ⟨read, write, events⟩ := ctx
  obtain ⟨noRead, noWrite⟩ := h
  subst nothing
  have clearRead : read = {} := by simpa [Mask.none] using noRead
  have clearWrite : write = {} := by simpa [Mask.none] using noWrite
  rw [clearRead, clearWrite]

theorem Ends.events_none {b : Body} (h : Ends ctx b) (nothing : ctx.events = .none) : b.ctx.events = .none := by
  have none' : ∀ e, b.ctx.events.has e = false := fun e => by
    by_cases mem : e ∈ b.ended.map (·.1)
    · obtain ⟨⟨e, w⟩, there, rfl⟩ := List.mem_map.1 mem
      exact (h.ended e w there).2.1
    · rw [(h.kept e mem).1, nothing]
      cases e <;> rfl
  show Mask.mk b.ctx.events.read b.ctx.events.write = .none
  rw [show b.ctx.events.read = false from none' .read, show b.ctx.events.write = false from none' .write]
  rfl

/-! ## Bodies that trigger -/

/-- A body that ends registrations by `triggerEvent` only. -/
structure Triggers (ctx : FdContext) (b : Body) : Prop where
  ends : ctx.Ends b
  handed : ∀ e w, (e, w) ∈ b.ended → w = ctx.registered e

/-- `triggerEvent` on the way through a body that goes on. -/
theorem trigger_lives {b : Body} {wanted : Bool} {e : Event} (lives : (trigger b wanted e).exit ≠ .aborted) :
    b.exit ≠ .aborted ∧ (wanted = true → b.ctx.events.has e = true) ∧
      (trigger b wanted e).ctx.events = if wanted then b.ctx.events.erase e else b.ctx.events := by
  cases wanted with
  | false => exact ⟨lives, nofun, rfl⟩
  | true =>
    by_cases aborted : b.exit = .aborted
    · simp [trigger, aborted] at lives
    · cases has : b.ctx.events.has e with
      | false => simp [trigger, aborted, triggerEvent, has] at lives
      | true =>
        refine ⟨aborted, fun _ => rfl, ?_⟩
        cases e with
        | none => cases has
        | read | write => simp [trigger, aborted, triggerEvent, has, getEventContext, setEventContext]

theorem Triggers.refl (h : ctx.WellFormed) (r : Bool) : Triggers ctx { ctx, exit := .returned r } := ⟨.refl h r, nofun⟩

theorem Triggers.trigger {b : Body} {wanted : Bool} {e : Event} (h : Triggers ctx b)
    (set : wanted = true → b.ctx.events.has e = true) : Triggers ctx (trigger b wanted e) := by
  refine ⟨h.ends.trigger set, fun e' w mem => ?_⟩
  obtain ⟨r, exit⟩ := h.ends.exit
  cases wanted with
  | false => exact h.handed e' w mem
  | true =>
    have has := set rfl
    obtain ⟨c, here⟩ : ∃ c, b.ctx.getEventContext e = some c := by
      cases e with
      | none => cases has
      | read | write => exact ⟨_, rfl⟩
    have fresh : e ∉ b.ended.map (·.1) := fun mem => by
      obtain ⟨⟨e', w⟩, there, rfl⟩ := List.mem_map.1 mem
      cases has.symm.trans (h.ends.ended e' w there).2.1
    simp only [FdContext.trigger, exit, triggerEvent, has, getEventContext_events, here, ne_eq, reduceCtorEq,
      not_false_eq_true, decide_true, Bool.and_true, if_true, Option.map_some] at mem
    rcases List.mem_append.1 mem with old | new
    · exact h.handed e' w old
    · cases List.mem_singleton.1 new
      rw [registered, ← (h.ends.kept e fresh).2, here]
      rfl

/-- A trigger finds a waiter. -/
theorem Triggers.waiter {b : Body} {e : Event} {w : Option Waiter} (h : Triggers ctx b) (fine : ctx.WellFormed)
    (mem : (e, w) ∈ b.ended) : ∃ v, w = some v ∧ ctx.registered e = some v := by
  obtain ⟨v, registered⟩ := registered_of_has fine (h.ends.ended e w mem).1
  exact ⟨v, (h.handed e w mem).trans registered, registered⟩

/-- A body whose `epoll_ctl` is asked for the directions `left`. -/
structure Tells (ctx : FdContext) (asks : Bool) (left : Mask) (body : Bool → Body) : Prop where
  silent : ∀ ok, (asks && ok) = false → (body ok).ctx = ctx
  told : ∀ r, asks = true → (body true).exit = .returned r → (body true).ctx.events = left
  triggers : ∀ ok r, (body ok).exit = .returned r → Triggers ctx (body ok)

theorem Tells.cancelEvent {e : Event} (h : ctx.WellFormed) :
    Tells ctx (ctx.events.has e) (ctx.events.erase e) (ctx.cancelEvent e) := by
  constructor
  case silent =>
    intro ok off
    rw [FdContext.cancelEvent, if_neg (by simp [off])]
  case told =>
    intro r asks exit
    rw [FdContext.cancelEvent, if_pos (by simp [asks])] at exit ⊢
    exact (trigger_lives (by rw [exit]; nofun)).2.2
  case triggers =>
    intro ok r _
    unfold FdContext.cancelEvent
    split
    · rename_i guard
      exact (Triggers.refl h true).trigger fun _ => (Bool.and_eq_true_iff.1 guard).1
    · exact .refl h false

theorem diff_eq_erase {m real : Mask} :
    m.diff real = if real.write then (if real.read then m.erase .read else m).erase .write
      else if real.read then m.erase .read else m := by
  obtain ⟨read, write⟩ := real
  cases read <;> cases write <;> simp [Mask.diff, Mask.erase]

/-- Both directions of a mask are triggered. -/
theorem Triggers.both {real : Mask} {r : Bool} (h : ctx.WellFormed)
    (exit : (FdContext.trigger (FdContext.trigger { ctx, exit := .returned true } real.read .read) real.write .write).exit =
      .returned r) :
    Triggers ctx (FdContext.trigger (FdContext.trigger { ctx, exit := .returned true } real.read .read) real.write .write) ∧
      (FdContext.trigger (FdContext.trigger { ctx, exit := .returned true } real.read .read) real.write .write).ctx.events =
        ctx.events.diff real := by
  obtain ⟨lives, hasWrite, write⟩ := trigger_lives (by rw [exit]; nofun)
  obtain ⟨-, hasRead, read⟩ := trigger_lives lives
  refine ⟨((Triggers.refl h true).trigger hasRead).trigger hasWrite, ?_⟩
  rw [write, read, diff_eq_erase]

theorem Tells.dispatch {ready : Mask} {wake : Bool} (h : ctx.WellFormed) :
    Tells ctx (decide (ctx.events.inter (ctx.realEvents ready wake) ≠ .none)) (ctx.events.diff (ctx.realEvents ready wake))
      (ctx.dispatch ready wake) := by
  constructor
  case silent =>
    intro ok off
    simp only [FdContext.dispatch]
    rw [if_neg (by simp only [off, Bool.false_eq_true, not_false_eq_true])]
  case told =>
    intro r asks exit
    simp only [FdContext.dispatch] at exit ⊢
    rw [if_pos (by simp only [asks, Bool.and_true])] at exit ⊢
    exact (Triggers.both h exit).2
  case triggers =>
    intro ok r exit
    simp only [FdContext.dispatch] at exit ⊢
    split at exit
    · rename_i guard
      rw [if_pos guard]
      exact (Triggers.both h exit).1
    · rename_i guard
      rw [if_neg guard]
      exact .refl h false

theorem Tells.cancelAll (h : ctx.WellFormed) :
    Tells ctx (decide (ctx.events ≠ .none)) .none ctx.cancelAll := by
  constructor
  case silent =>
    intro ok off
    simp only [FdContext.cancelAll]
    rw [if_neg (by simp only [off, Bool.false_eq_true, not_false_eq_true])]
  case told =>
    intro r asks exit
    simp only [FdContext.cancelAll] at exit ⊢
    rw [if_pos (by simp only [asks, Bool.and_true])] at exit ⊢
    rw [(Triggers.both h exit).2]
    simp [Mask.diff, Mask.none]
  case triggers =>
    intro ok r exit
    simp only [FdContext.cancelAll] at exit ⊢
    split at exit
    · rename_i guard
      rw [if_pos guard]
      exact (Triggers.both h exit).1
    · rename_i guard
      rw [if_neg guard]
      exact .refl h false

end FdContext

end Mycoroutine.IOManager
