import Mycoroutine.IOManager.FdContext
import Mycoroutine.IOManager.FdTable

/-!
# Operations that fail

`addEvent`, `delEvent`, `cancelEvent` and `cancelAll` from the range test on fd
to their last exit, on the state of the whole manager: the table, the counter,
the scheduler's queue and the interest list of epoll. `epoll_ctl` may fail or
succeed whatever the state is.
-/

namespace Mycoroutine.IOManager
set_option autoImplicit false

/-- A null pointer of the table is there only between `resize` and the loop of
`contextResize`, so an entry is the context itself. -/
structure Manager where
  fdContexts : List FdContext
  pendingEventCount : BitVec 64
  tasks : List Waiter
  /-- The events each fd is subscribed to at epoll. -/
  subscribed : Nat → Option Mask

/-- What a call does once it holds the context: whether it asks `epoll_ctl`, for
which operation and events, and its body. -/
structure Request where
  asks : Bool
  op : EpollOp
  events : Mask
  body : Body

namespace FdContext

variable (ctx : FdContext)

def addRequest (event : Event) (waiter : Waiter) (ok : Bool) : Request where
  asks := !ctx.events.has event
  op := ctx.addOp
  events := ctx.events.insert event
  body := ctx.addEvent event waiter ok

def delRequest (event : Event) (ok : Bool) : Request where
  asks := ctx.events.has event
  op := removeOp (ctx.events.erase event)
  events := ctx.events.erase event
  body := ctx.delEvent event ok

def cancelRequest (event : Event) (ok : Bool) : Request where
  asks := ctx.events.has event
  op := removeOp (ctx.events.erase event)
  events := ctx.events.erase event
  body := ctx.cancelEvent event ok

def cancelAllRequest (ok : Bool) : Request where
  asks := decide (ctx.events ≠ .none)
  op := .del
  events := .none
  body := ctx.cancelAll ok

end FdContext

/-- What `epoll_ctl` makes of an fd's subscription. -/
def EpollOp.subscribe (events : Mask) : EpollOp → Option Mask
  | .add | .mod => some events
  | .del => none

namespace Manager

/-- The test of a lookup, `(int)m_fdContexts.size() > fd`. -/
def fits (s : Manager) (fd : Int) : Bool := decide (FdTable.toInt s.fdContexts.length > fd)

def contextResize (s : Manager) (size : Nat) : Manager :=
  { s with fdContexts := s.fdContexts.take size ++ List.replicate (size - s.fdContexts.length) {} }

/-- `m_fdContexts[fd]`; `none` when that is out of bounds, as it is for a
negative fd, an index above all sizes. -/
def index (s : Manager) (fd : Int) : Option FdContext := if fd < 0 then none else s.fdContexts[fd.toNat]?

/-- A call on the context of fd. -/
def locked (s : Manager) (fd : Int) (ok : Bool) (request : FdContext → Request) : Option (Manager × Exit) :=
  (s.index fd).map fun ctx =>
    let r := request ctx
    ({ fdContexts := s.fdContexts.set fd.toNat r.body.ctx
       pendingEventCount := s.pendingEventCount + BitVec.ofInt 64 r.body.count
       tasks := s.tasks ++ r.body.ended.filterMap (·.2)
       subscribed := if r.asks && ok then Function.update s.subscribed fd.toNat (r.op.subscribe r.events)
         else s.subscribed }, r.body.exit)

/-- A call that knows only the fds of the table. -/
def known (s : Manager) (fd : Int) (ok : Bool) (request : FdContext → Request) : Option (Manager × Exit) :=
  if s.fits fd then s.locked fd ok request else some (s, .returned false)

def addEvent (s : Manager) (fd : Int) (event : Event) (waiter : Waiter) (ok : Bool) : Option (Manager × Exit) :=
  if fd < 0 then some (s, .returned false)
  else (if s.fits fd then s else s.contextResize (fd.toNat * 3 / 2)).locked fd ok (·.addRequest event waiter ok)

def delEvent (s : Manager) (fd : Int) (event : Event) (ok : Bool) : Option (Manager × Exit) :=
  s.known fd ok (·.delRequest event ok)

def cancelEvent (s : Manager) (fd : Int) (event : Event) (ok : Bool) : Option (Manager × Exit) :=
  s.known fd ok (·.cancelRequest event ok)

def cancelAll (s : Manager) (fd : Int) (ok : Bool) : Option (Manager × Exit) :=
  s.known fd ok (·.cancelAllRequest ok)

/-- The context of an fd; the table grows by empty ones. -/
def context (s : Manager) (fd : Int) : FdContext := s.fdContexts.getD fd.toNat {}

end Manager

inductive Call where
  | addEvent (fd : Int) (event : Event) (waiter : Waiter)
  | delEvent (fd : Int) (event : Event)
  | cancelEvent (fd : Int) (event : Event)
  | cancelAll (fd : Int)

def Call.fd : Call → Int
  | addEvent fd _ _ | delEvent fd _ | cancelEvent fd _ | cancelAll fd => fd

/-- `none` when the call indexes the table out of bounds. -/
def Manager.call (s : Manager) (ok : Bool) : Call → Option (Manager × Exit)
  | .addEvent fd event waiter => s.addEvent fd event waiter ok
  | .delEvent fd event => s.delEvent fd event ok
  | .cancelEvent fd event => s.cancelEvent fd event ok
  | .cancelAll fd => s.cancelAll fd ok

/-- All that a call on fd may change is as before. -/
structure Manager.Unchanged (s s' : Manager) (fd : Int) : Prop where
  context : s'.context fd = s.context fd
  pendingEventCount : s'.pendingEventCount = s.pendingEventCount
  tasks : s'.tasks = s.tasks
  subscribed : s'.subscribed = s.subscribed

/-- The call stays within the table, and changes nothing where it returns false
or throws. -/
def Manager.FailsClean (s : Manager) (c : Call) (ok : Bool) : Prop :=
  ∃ s' exit, s.call ok c = some (s', exit) ∧ (exit = .returned false ∨ exit = .threw → s.Unchanged s' c.fd)

/-- `addEvent` refuses a negative fd, but cannot grow the table for fd 0 or 1,
and has done its work when it refuses `NONE`; the others take a negative fd for
one of the table. -/
def Manager.Safe (s : Manager) (ok : Bool) : Call → Prop
  | .addEvent fd event _ => fd < 0 ∨ (s.fits fd = true ∨ 2 ≤ fd) ∧ (event ≠ .none ∨ ok = false)
  | .delEvent fd _ | .cancelEvent fd _ | .cancelAll fd => 0 ≤ fd ∨ s.fits fd = false

/-! ## The bodies -/

section Bodies

variable {ctx : FdContext} {event : Event} {ok : Bool}

/-- A request that fails left the context alone, and epoll. -/
def Request.Clean (r : Request) (ctx : FdContext) (ok : Bool) : Prop :=
  r.body.exit = .returned false ∨ r.body.exit = .threw →
    (r.asks && ok) = false ∧ r.body.ctx = ctx ∧ r.body.count = 0 ∧ r.body.ended = []

/-- A body that ended in an early return is clean, and one that went on ends in
no failure. -/
theorem Request.clean_of_guard {r : Request}
    (early : (r.asks && ok) = false → r.body = { ctx, exit := .returned false })
    (late : (r.asks && ok) = true → r.body.exit = .returned true ∨ r.body.exit = .aborted) : r.Clean ctx ok := fun fails => by
  cases guard : r.asks && ok with
  | false =>
    rw [early guard]
    exact ⟨rfl, rfl, rfl, rfl⟩
  | true =>
    exfalso
    rcases late guard with exit | exit <;> simp [exit] at fails

theorem FdContext.exit_trigger {b : Body} {wanted : Bool} (event : Event) (h : b.exit = .returned true ∨ b.exit = .aborted) :
    (trigger b wanted event).exit = .returned true ∨ (trigger b wanted event).exit = .aborted := by
  unfold trigger
  split
  · split
    · exact h
    · exact .inr rfl
  · exact h

theorem FdContext.clean_add {waiter : Waiter} (real : event ≠ .none ∨ ok = false) :
    (ctx.addRequest event waiter ok).Clean ctx ok := by
  refine Request.clean_of_guard (fun guard => ?_) fun guard => ?_
  · have early : ctx.events.has event = true ∨ ok = false := by
      simpa [addRequest, Decidable.or_iff_not_imp_left] using guard
    simp only [addRequest, addEvent]
    rcases early with has | fails
    · rw [has, if_pos rfl]
    · rw [fails, if_neg Bool.false_ne_true, ite_self]
  · obtain ⟨has, rfl⟩ : ctx.events.has event = false ∧ ok = true := by simpa [addRequest] using guard
    have real := real.resolve_right (by decide)
    simp only [addRequest, addEvent, has, Bool.false_eq_true, if_false, if_true]
    cases event with
    | none => exact absurd rfl real
    | read | write =>
      simp only [getEventContext]
      split
      · exact .inr rfl
      · exact .inl rfl

theorem FdContext.clean_del : (ctx.delRequest event ok).Clean ctx ok := by
  refine Request.clean_of_guard (fun guard => if_neg ?_) fun guard => .inl ?_
  · rw [← Bool.not_eq_true] at guard
    exact guard
  · simp only [delRequest] at guard ⊢
    rw [delEvent, if_pos guard]

theorem FdContext.clean_cancel : (ctx.cancelRequest event ok).Clean ctx ok := by
  refine Request.clean_of_guard (fun guard => if_neg ?_) fun guard => ?_
  · rw [← Bool.not_eq_true] at guard
    exact guard
  · simp only [cancelRequest] at guard ⊢
    rw [cancelEvent, if_pos guard]
    exact exit_trigger _ (.inl rfl)

theorem FdContext.clean_cancelAll : (ctx.cancelAllRequest ok).Clean ctx ok := by
  refine Request.clean_of_guard (fun guard => if_neg ?_) fun guard => ?_
  · rw [← Bool.not_eq_true] at guard
    exact guard
  · simp only [cancelAllRequest] at guard ⊢
    rw [cancelAll, if_pos guard]
    exact exit_trigger _ (exit_trigger _ (.inl rfl))

end Bodies

/-! ## The calls -/

namespace Manager

variable {s : Manager} {fd : Int} {event : Event} {waiter : Waiter} {ok : Bool} {request : FdContext → Request} {ctx : FdContext}

theorem lt_length_of_fits (fits : s.fits fd = true) (nonneg : 0 ≤ fd) : fd.toNat < s.fdContexts.length := by
  have bound : FdTable.toInt s.fdContexts.length ≤ s.fdContexts.length := by
    unfold FdTable.toInt Int.bmod
    dsimp only
    split <;> omega
  have above := of_decide_eq_true fits
  omega

theorem index_of_lt (nonneg : 0 ≤ fd) (bound : fd.toNat < s.fdContexts.length) : s.index fd = some (s.context fd) := by
  rw [index, if_neg (Int.not_lt.2 nonneg), context, List.getD_eq_getElem?_getD, List.getElem?_eq_getElem bound]
  rfl

/-- A clean request within the table leaves a failing call clean. -/
theorem locked_clean (nonneg : 0 ≤ fd) (bound : fd.toNat < s.fdContexts.length)
    (clean : (request (s.context fd)).Clean (s.context fd) ok) :
    ∃ s' exit, s.locked fd ok request = some (s', exit) ∧ (exit = .returned false ∨ exit = .threw → s.Unchanged s' fd) := by
  rw [locked, index_of_lt nonneg bound]
  refine ⟨_, _, rfl, fun fails => ?_⟩
  obtain ⟨silent, ctx, count, ended⟩ := clean fails
  constructor
  case context =>
    rw [ctx, context, List.getD_eq_getElem?_getD, List.getElem?_set_self bound]
    rfl
  case pendingEventCount =>
    rw [count]
    exact BitVec.add_zero _
  case tasks =>
    rw [ended]
    exact List.append_nil _
  case subscribed => rw [silent, if_neg Bool.false_ne_true]

theorem known_clean (clean : ∀ ctx, (request ctx).Clean ctx ok) :
    (∃ s' exit, s.known fd ok request = some (s', exit) ∧ (exit = .returned false ∨ exit = .threw → s.Unchanged s' fd)) ↔
      0 ≤ fd ∨ s.fits fd = false := by
  rw [known]
  constructor
  · rintro ⟨s', exit, e, -⟩
    rcases Int.lt_or_le fd 0 with neg | nonneg
    · split at e
      · rw [locked, index, if_pos neg] at e
        cases e
      · rename_i out
        exact .inr ((Bool.not_eq_true _).mp out)
    · exact .inl nonneg
  · intro safe
    split
    · rename_i fits
      have nonneg : 0 ≤ fd := safe.resolve_right (by simp [fits])
      exact locked_clean nonneg (lt_length_of_fits fits nonneg) (clean _)
    · exact ⟨s, _, rfl, fun _ => ⟨rfl, rfl, rfl, rfl⟩⟩

/-- The table grows by empty contexts. -/
theorem context_resize {size : Nat} (bound : fd.toNat < size) : (s.contextResize size).context fd = s.context fd := by
  simp only [context, contextResize, List.getD_eq_getElem?_getD]
  rcases Nat.lt_or_ge fd.toNat s.fdContexts.length with inside | outside
  · rw [List.getElem?_append_left (by simp; omega), List.getElem?_take_of_lt bound]
  · rw [List.getElem?_append_right (by simp; omega), List.getElem?_eq_none outside, List.getElem?_replicate]
    split <;> rfl

theorem length_resize {size : Nat} : (s.contextResize size).fdContexts.length = size := by
  simp only [contextResize, List.length_append, List.length_take, List.length_replicate]
  omega

/-- `NONE` passes every test, and is refused when the event is counted. -/
theorem addEvent_none (nonneg : 0 ≤ fd) :
    ¬ ∃ s' exit, s.addEvent fd .none waiter true = some (s', exit) ∧
      (exit = .returned false ∨ exit = .threw → s.Unchanged s' fd) := by
  rintro ⟨s', exit, e, clean⟩
  rw [addEvent, if_neg (Int.not_lt.2 nonneg)] at e
  have same : (if s.fits fd = true then s else s.contextResize (fd.toNat * 3 / 2)).pendingEventCount = s.pendingEventCount := by
    split <;> rfl
  obtain ⟨ctx, -, body⟩ := Option.map_eq_some_iff.1 e
  obtain ⟨rfl, rfl⟩ := Prod.mk.inj body
  have count := (clean (.inr rfl)).pendingEventCount
  rw [same] at count
  revert count
  simp [FdContext.addRequest, FdContext.addEvent, Mask.has, FdContext.getEventContext]

/-- The table cannot grow for fd 0 or 1. -/
theorem addEvent_small (nonneg : 0 ≤ fd) (small : fd < 2) (out : s.fits fd = false) : s.addEvent fd event waiter ok = none := by
  rw [addEvent, if_neg (Int.not_lt.2 nonneg), out, if_neg Bool.false_ne_true, locked, index, if_neg (Int.not_lt.2 nonneg),
    List.getElem?_eq_none]
  · rfl
  · rw [length_resize]
    omega

theorem addEvent_clean : (∃ s' exit, s.addEvent fd event waiter ok = some (s', exit) ∧
      (exit = .returned false ∨ exit = .threw → s.Unchanged s' fd)) ↔
    fd < 0 ∨ (s.fits fd = true ∨ 2 ≤ fd) ∧ (event ≠ .none ∨ ok = false) := by
  rcases Int.lt_or_le fd 0 with neg | nonneg
  · rw [addEvent, if_pos neg]
    exact iff_of_true ⟨s, _, rfl, fun _ => ⟨rfl, rfl, rfl, rfl⟩⟩ (.inl neg)
  · constructor
    · intro clean
      refine .inr ⟨?_, ?_⟩
      · by_contra out
        rw [not_or, Bool.not_eq_true] at out
        obtain ⟨s', exit, e, -⟩ := clean
        rw [addEvent_small nonneg (Int.not_le.1 out.2) out.1] at e
        cases e
      · by_contra bad
        rw [not_or, not_not, Bool.not_eq_false] at bad
        obtain ⟨rfl, rfl⟩ := bad
        exact addEvent_none nonneg clean
    · intro safe
      obtain ⟨bounds, asked⟩ := safe.resolve_left (Int.not_lt.2 nonneg)
      rw [addEvent, if_neg (Int.not_lt.2 nonneg)]
      cases fits : s.fits fd with
      | true => exact locked_clean nonneg (lt_length_of_fits fits nonneg) (FdContext.clean_add asked)
      | false =>
        have least : 2 ≤ fd := bounds.resolve_left (by simp [fits])
        have bound : fd.toNat < fd.toNat * 3 / 2 := by omega
        have grown : ∃ s' exit, (s.contextResize (fd.toNat * 3 / 2)).locked fd ok (·.addRequest event waiter ok) = some (s', exit) ∧
            (exit = .returned false ∨ exit = .threw → (s.contextResize (fd.toNat * 3 / 2)).Unchanged s' fd) :=
          locked_clean nonneg (by rwa [length_resize]) (FdContext.clean_add asked)
        obtain ⟨s', exit, e, same⟩ := grown
        refine ⟨s', exit, e, fun fails => ?_⟩
        obtain ⟨context, count, tasks, subscribed⟩ := same fails
        exact ⟨context.trans (context_resize bound), count, tasks, subscribed⟩

end Manager

/-- **Main theorem.** An operation stays within the table and fails without a
trace exactly where its tests do what they are there for. -/
theorem fails_clean (s : Manager) (c : Call) (ok : Bool) : s.FailsClean c ok ↔ s.Safe ok c := by
  cases c with
  | addEvent fd event waiter => exact Manager.addEvent_clean
  | delEvent fd event =>
    simp only [Manager.FailsClean, Manager.call, Manager.delEvent, Manager.Safe]
    exact Manager.known_clean fun ctx => FdContext.clean_del
  | cancelEvent fd event =>
    simp only [Manager.FailsClean, Manager.call, Manager.cancelEvent, Manager.Safe]
    exact Manager.known_clean fun ctx => FdContext.clean_cancel
  | cancelAll fd =>
    simp only [Manager.FailsClean, Manager.call, Manager.cancelAll, Manager.Safe]
    exact Manager.known_clean fun ctx => FdContext.clean_cancelAll

/-- The manager that the constructor makes. -/
def Manager.initial : Manager :=
  { fdContexts := List.replicate 32 {}, pendingEventCount := 0, tasks := [], subscribed := fun _ => none }

/-- A negative fd, and an fd of the table with `NONE`. -/
theorem fails_unclean : ¬ Manager.initial.FailsClean (.delEvent (-1) .read) true ∧
    ¬ Manager.initial.FailsClean (.addEvent 5 .none (.callback 0)) true := by
  constructor
  · have fits : Manager.initial.fits (-1) = true := by decide +kernel
    simp only [Manager.FailsClean, Manager.call, Manager.delEvent, Call.fd]
    rw [Manager.known_clean fun ctx => FdContext.clean_del, fits]
    decide
  · exact Manager.addEvent_none (by decide)

end Mycoroutine.IOManager
