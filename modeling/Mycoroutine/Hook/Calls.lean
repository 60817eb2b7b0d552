import Mycoroutine.IOManager.FdContext
import Mycoroutine.Interleave.Machine

/-!
# Hooked calls

The hooked calls of any number of fibers on descriptors of one `IOManager`: `do_io`
and `connect_with_timeout`, `socket` and `accept` with `FdManager::get(fd, true)`,
and the four steps of `close`. The hook is enabled in every thread here.

The kernel keeps what is open on a number and what is registered with epoll; it
drops a closed number from epoll. `EPOLL_CTL_ADD` fails on a number that is closed
or registered already, and may fail on any other; `MOD` and `DEL` fail only on a
number that is not registered.

A timer's callback is two steps: `expire` sets `timer_info::cancelled`, and its
`cancelEvent` is one that anyone may make.

`FdCtx.file`, `issued`, `returned` and the flags of `Call.del` and `Call.close` are
history: no step reads them.
-/

namespace Mycoroutine.Hook
set_option autoImplicit false
open Interleave IOManager

/-- An open file, with a number of its own. -/
structure File where
  number : Nat
  socket : Bool
deriving DecidableEq

/-- `file` is what was open on `fd` when the context was made. -/
structure FdCtx where
  fd : Nat
  isSocket : Bool
  userNonblock : Bool := false
  isClosed : Bool := false
  file : Option Nat
deriving DecidableEq

/-- The calls that may wait: those that `do_io` makes, and `connect`. -/
inductive Name where
  | recv
  | send
  | accept
  | connect
deriving DecidableEq

/-- The direction a call waits for. -/
def Name.event : Name → Event
  | .recv | .accept => .read
  | .send | .connect => .write

/-- The locals of `do_io` and `connect_with_timeout`. `timed` says that a timeout is
set, `armed` that a timer was added, `cancelled` is `timer_info::cancelled`. -/
structure Io where
  name : Name
  fd : Nat
  ctx : Nat
  timed : Bool := false
  armed : Bool := false
  cancelled : Bool := false
deriving DecidableEq

/-- Where such a call stands: it has its context; it is at the original call of a
descriptor that does not wait, at `retry:`, past an `EAGAIN`, at the original call
without a manager, before `addEvent`, suspended, or scheduled again. -/
inductive Phase where
  | entered
  | direct
  | attempt
  | again
  | fallback
  | adding
  | waiting
  | woken
deriving DecidableEq

/-- The next step is the original call. -/
def Phase.issues : Phase → Bool
  | .direct | .attempt | .fallback => true
  | _ => false

/-- What a fiber does: nothing hooked, a call that may wait, one of the steps of
`FdManager::get(fd, true)`, or one of the steps of `close`. The flag says that
`cancelAll` ran. -/
inductive Call where
  | idle
  | io (phase : Phase) (io : Io)
  | lookup (fd : Nat)
  | create (fd : Nat)
  | setClosed (fd ctx : Nat)
  | cancelAll (fd : Nat)
  | del (fd : Nat) (swept : Bool)
  | close (fd : Nat) (swept : Bool)
deriving DecidableEq

/-- The scheduler is given the fiber. -/
def Call.wake : Call → Call
  | .io .waiting own => .io .woken own
  | call => call

/-- An original call: whether its context was marked closed, what the context was
made for, and what was open on the number. -/
structure Syscall where
  name : Name
  closed : Bool
  made : Option Nat
  hit : Option Nat
deriving DecidableEq

/-- The return of a call, and whether its context was marked closed. -/
structure Return where
  name : Name
  closed : Bool
  failed : Bool
deriving DecidableEq

/-- `opened`, `files` and `interest` are the kernel's. -/
structure State where
  opened : Nat → Option File
  files : Nat
  interest : Nat → Bool
  datas : Nat → Option Nat
  ctxs : Nat → FdCtx
  made : Nat
  contexts : Nat → FdContext
  pendingEventCount : Int
  calls : Nat → Call
  issued : List Syscall
  returned : List Return

/-- What the original call gives; `again` is `EAGAIN`, or `EINPROGRESS`. -/
inductive Outcome where
  | returned (failed : Bool)
  | accepted (fd : Nat)
  | interrupted
  | again
deriving DecidableEq

inductive Label where
  | enter (f : Nat) (name : Name) (fd : Nat)
  | test (f : Nat) (timed : Bool)
  | syscall (f : Nat) (outcome : Outcome)
  | arm (f : Nat)
  | register (f : Nat) (ok : Bool)
  | resume (f : Nat) (failed : Bool)
  | expire (f : Nat)
  | socket (f fd : Nat)
  | get (f : Nat)
  | close (f fd : Nat)
  | closeStep (f : Nat)
  | opens (fd : Nat) (socket : Bool)
  | setUserNonblock (ctx : Nat) (v : Bool)
  | addEvent (fd : Nat) (event : Event) (waiter : Waiter) (ok : Bool)
  | cancelEvent (fd : Nat) (event : Event)
  | cancelAll (fd : Nat)
  | dispatch (fd : Nat) (ready : Mask) (wake : Bool)

namespace State

variable (s : State)

/-- Fiber `f` goes on to `call`. -/
def put (f : Nat) (call : Call) : State := { s with calls := Function.update s.calls f call }

/-- A call that may wait returns. -/
def ret (f : Nat) (io : Io) (failed : Bool) : State :=
  { s with calls := Function.update s.calls f .idle,
           returned := s.returned ++ [⟨io.name, (s.ctxs io.ctx).isClosed, failed⟩] }

/-! ## The kernel -/

/-- A number that is not open is handed out. -/
def handOut (fd : Nat) (socket : Bool) : State :=
  { s with opened := Function.update s.opened fd (some ⟨s.files, socket⟩), files := s.files + 1 }

/-- `close_f`. -/
def closeF (fd : Nat) : State :=
  { s with opened := Function.update s.opened fd none, interest := Function.update s.interest fd false }

/-- Whether `epoll_ctl` can succeed. -/
def accepts (fd : Nat) : EpollOp → Bool
  | .add => (s.opened fd).isSome && !s.interest fd
  | .mod | .del => s.interest fd

/-- The outcomes of an original call: on a closed number it fails, and `accept` hands
out a number that is not open. -/
def Possible (io : Io) : Outcome → Prop
  | .returned failed => failed = true ∨ (s.opened io.fd).isSome
  | .accepted fd => io.name = .accept ∧ (s.opened io.fd).isSome ∧ s.opened fd = none
  | .interrupted | .again => (s.opened io.fd).isSome

instance (io : Io) (outcome : Outcome) : Decidable (s.Possible io outcome) := by
  cases outcome <;> unfold Possible <;> infer_instance

/-! ## The manager -/

/-- What a body on `fd` leaves; a fiber it triggers is scheduled. -/
def body (fd : Nat) (b : Body) : State :=
  { s with contexts := Function.update s.contexts fd b.ctx, pendingEventCount := s.pendingEventCount + b.count,
           calls := fun g => if some (Waiter.fiber g) ∈ b.ended.map (·.2) then (s.calls g).wake else s.calls g }

/-- `addEvent`, and what it returns; `ok` is `epoll_ctl`'s outcome where it can succeed. -/
def addEvent (fd : Nat) (event : Event) (waiter : Waiter) (ok : Bool) : Option (State × Bool) :=
  let b := (s.contexts fd).addEvent event waiter (ok && s.accepts fd (s.contexts fd).addOp)
  match b.exit with
  | .returned true => some ({ s.body fd b with interest := Function.update s.interest fd true }, true)
  | .returned false => some (s.body fd b, false)
  | _ => none

/-- A body that, if `asks`, tells `epoll_ctl` that the directions `left` remain. -/
def remove (fd : Nat) (asks : Bool) (left : Mask) (body : Bool → Body) : Option State :=
  let b := body (s.interest fd)
  match b.exit with
  | .returned _ =>
    let remains := decide (FdContext.removeOp left ≠ .del)
    let interest := if asks && s.interest fd then Function.update s.interest fd remains else s.interest
    some { s.body fd b with interest }
  | _ => none

def cancelEvent (fd : Nat) (event : Event) : Option State :=
  let ctx := s.contexts fd
  s.remove fd (ctx.events.has event) (ctx.events.erase event) (ctx.cancelEvent event)

def cancelAll (fd : Nat) : Option State :=
  let ctx := s.contexts fd
  s.remove fd (decide (ctx.events ≠ .none)) .none ctx.cancelAll

/-- The dispatch of an event of `fd` that `epoll_wait` returned at some time. -/
def dispatch (fd : Nat) (ready : Mask) (wake : Bool) : Option State :=
  let ctx := s.contexts fd
  let real := ctx.realEvents ready wake
  s.remove fd (decide (ctx.events.inter real ≠ .none)) (ctx.events.diff real) (ctx.dispatch ready wake)

/-! ## The table of contexts -/

def setClosed (ctx : Nat) : State :=
  { s with ctxs := Function.update s.ctxs ctx { s.ctxs ctx with isClosed := true } }

/-- `FdManager::del`. -/
def del (fd : Nat) : State :=
  match s.datas fd with
  | some ctx => { s.setClosed ctx with datas := Function.update s.datas fd none }
  | none => s

/-- The second half of `FdManager::get(fd, true)`, with `FdCtx::init`. -/
def create (fd : Nat) : State :=
  let ctx : FdCtx := { fd, isSocket := (s.opened fd).any (·.socket), file := (s.opened fd).map (·.number) }
  { s with ctxs := Function.update s.ctxs s.made ctx, made := s.made + 1,
           datas := Function.update s.datas fd (some s.made) }

/-! ## The calls -/

/-- A call begins; without a context `do_io` makes the original call and `connect`
fails. -/
def enter (f : Nat) (name : Name) (fd : Nat) : Option State :=
  if s.calls f = .idle then
    match s.datas fd with
    | some ctx => some (s.put f (.io .entered { name, fd, ctx }))
    | none => some s
  else none

/-- The tests on the context. -/
def test (f : Nat) (timed : Bool) : Option State :=
  match s.calls f with
  | .io .entered io =>
    let ctx := s.ctxs io.ctx
    if ctx.isClosed then some (s.ret f io true)
    else if !ctx.isSocket || ctx.userNonblock then some (s.put f (.io .direct io))
    else some (s.put f (.io .attempt { io with timed }))
  | _ => none

def issue (io : Io) : State :=
  let ctx := s.ctxs io.ctx
  { s with issued := s.issued ++ [⟨io.name, ctx.isClosed, ctx.file, (s.opened io.fd).map (·.number)⟩] }

/-- The original call. Only `do_io` makes it again after `EINTR`. -/
def syscall (f : Nat) (outcome : Outcome) : Option State :=
  match s.calls f with
  | .io phase io =>
    if phase.issues = true ∧ s.Possible io outcome then
      let s := s.issue io
      match outcome with
      | .returned failed => some (s.ret f io failed)
      | .accepted fd => some (((s.ret f io false).handOut fd true).put f (.lookup fd))
      | .interrupted => if phase = .attempt ∧ io.name ≠ .connect then some s else some (s.ret f io true)
      | .again => if phase = .attempt then some (s.put f (.io .again io)) else some (s.ret f io true)
    else none
  | _ => none

/-- `IOManager::GetThis()`, and the timer. -/
def arm (inManager : Nat → Bool) (f : Nat) : Option State :=
  match s.calls f with
  | .io .again io =>
    some (s.put f (if inManager f then .io .adding { io with armed := io.armed || io.timed } else .io .fallback io))
  | _ => none

/-- `addEvent` of a call; the fiber yields if it succeeds. -/
def register (f : Nat) (ok : Bool) : Option State :=
  match s.calls f with
  | .io .adding io =>
    (s.addEvent io.fd io.name.event (.fiber f) ok).map fun (s, done) =>
      if done then s.put f (.io .waiting io) else s.ret f io true
  | _ => none

/-- The fiber is back from `yield`: `do_io` retries, `connect` asks for `SO_ERROR`. -/
def resume (f : Nat) (failed : Bool) : Option State :=
  match s.calls f with
  | .io .woken io =>
    if io.cancelled then some (s.ret f io true)
    else if io.name = .connect then some (s.ret f io failed)
    else some (s.put f (.io .attempt io))
  | _ => none

/-- A timer's callback runs while the call has not returned. -/
def expire (f : Nat) : Option State :=
  match s.calls f with
  | .io phase io => if io.armed then some (s.put f (.io phase { io with cancelled := true })) else none
  | _ => none

def socket (f fd : Nat) : Option State :=
  if s.calls f = .idle ∧ s.opened fd = none then some ((s.handOut fd true).put f (.lookup fd)) else none

/-- `FdManager::get(fd, true)` has two critical sections. -/
def get (f : Nat) : Option State :=
  match s.calls f with
  | .lookup fd => some (s.put f (if (s.datas fd).isSome then .idle else .create fd))
  | .create fd => some ((s.create fd).put f .idle)
  | _ => none

def close (f fd : Nat) : Option State :=
  if s.calls f = .idle then
    some (s.put f (match s.datas fd with
      | some ctx => .setClosed fd ctx
      | none => .close fd false))
  else none

def closeStep (inManager : Nat → Bool) (f : Nat) : Option State :=
  match s.calls f with
  | .setClosed fd ctx => some ((s.setClosed ctx).put f (if inManager f then .cancelAll fd else .del fd false))
  | .cancelAll fd => (s.cancelAll fd).map (·.put f (.del fd true))
  | .del fd swept => some ((s.del fd).put f (.close fd swept))
  | .close fd _ => some ((s.closeF fd).put f .idle)
  | _ => none

end State

/-- A step; `inManager` says which fibers run in a thread of the manager. -/
def step (inManager : Nat → Bool) (s : State) : Label → Option State
  | .enter f name fd => s.enter f name fd
  | .test f timed => s.test f timed
  | .syscall f outcome => s.syscall f outcome
  | .arm f => s.arm inManager f
  | .register f ok => s.register f ok
  | .resume f failed => s.resume f failed
  | .expire f => s.expire f
  | .socket f fd => s.socket f fd
  | .get f => s.get f
  | .close f fd => s.close f fd
  | .closeStep f => s.closeStep inManager f
  | .opens fd socket => if s.opened fd = none then some (s.handOut fd socket) else none
  | .setUserNonblock ctx v =>
    some { s with ctxs := Function.update s.ctxs ctx { s.ctxs ctx with userNonblock := v } }
  | .addEvent fd event waiter ok =>
    if event ≠ .none then (s.addEvent fd event waiter ok).map (·.1) else none
  | .cancelEvent fd event => s.cancelEvent fd event
  | .cancelAll fd => s.cancelAll fd
  | .dispatch fd ready wake => s.dispatch fd ready wake

/-- Nothing is open, and nobody is in a call. -/
def machine (inManager : Nat → Bool) : Machine State Label where
  init := { opened := fun _ => none, files := 0, interest := fun _ => false, datas := fun _ => none,
            ctxs := fun fd => { fd, isSocket := false, file := none }, made := 0, contexts := fun _ => {},
            pendingEventCount := 0, calls := fun _ => .idle, issued := [], returned := [] }
  step := step inManager

/-- A body schedules the suspended fibers that it triggers, and leaves the other calls. -/
theorem calls_body (s : State) (fd : Nat) (b : Body) (g : Nat) :
    (∃ io, s.calls g = .io .waiting io ∧ some (Waiter.fiber g) ∈ b.ended.map (·.2) ∧
        (s.body fd b).calls g = .io .woken io) ∨
      (s.body fd b).calls g = s.calls g ∧ ∀ io, s.calls g = .io .waiting io → some (Waiter.fiber g) ∉ b.ended.map (·.2) := by
  by_cases triggered : some (Waiter.fiber g) ∈ b.ended.map (·.2)
  · simp only [State.body, if_pos triggered]
    unfold Call.wake
    split
    · rename_i io suspended
      exact .inl ⟨io, suspended, triggered, rfl⟩
    · rename_i other
      exact .inr ⟨rfl, fun io suspended => absurd suspended (other io)⟩
  · simp only [State.body, if_neg triggered]
    exact .inr ⟨trivial, fun _ _ => triggered⟩

end Mycoroutine.Hook
