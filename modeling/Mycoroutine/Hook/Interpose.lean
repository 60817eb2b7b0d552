import Mathlib.Algebra.Group.Nat.Defs
import Mathlib.Algebra.Group.Int.Defs
import Mycoroutine.IOManager.FdContext

/-!
# The interposed functions

The functions of `hook.cpp` on one thread: each is a run of original calls and of
operations on the `IOManager`, over the contexts of `FdManager`. What these give back is
the environment's: the kernel with the memory of the process, and the other fibers, which
run while the call is suspended.

Pointers are addresses. An `int` is an `Int`, and its bits are taken where the code does.
`calls` is history: the original calls that were made.
-/

namespace Mycoroutine.Interpose
set_option autoImplicit false
open IOManager

abbrev Ptr := Nat

/-- A call of one of the functions, with its arguments. -/
inductive Call where
  | sleep (seconds : Nat)
  | usleep (usec : Nat)
  | nanosleep (req rem : Ptr)
  | socket (domain type protocol : Int)
  | connect (sockfd : Int) (addr : Ptr) (addrlen : Nat)
  | accept (sockfd : Int) (addr addrlen : Ptr)
  | read (fd : Int) (buf : Ptr) (count : Nat)
  | readv (fd : Int) (iov : Ptr) (iovcnt : Int)
  | recv (sockfd : Int) (buf : Ptr) (len : Nat) (flags : Int)
  | recvfrom (sockfd : Int) (buf : Ptr) (len : Nat) (flags : Int) (srcAddr addrlen : Ptr)
  | recvmsg (sockfd : Int) (msg : Ptr) (flags : Int)
  | write (fd : Int) (buf : Ptr) (count : Nat)
  | writev (fd : Int) (iov : Ptr) (iovcnt : Int)
  | send (sockfd : Int) (buf : Ptr) (len : Nat) (flags : Int)
  | sendto (sockfd : Int) (buf : Ptr) (len : Nat) (flags : Int) (destAddr : Ptr) (addrlen : Nat)
  | sendmsg (sockfd : Int) (msg : Ptr) (flags : Int)
  | close (fd : Int)
  | fcntl (fd cmd : Int) (arg : Option Int)
  | ioctl (fd : Int) (request : Nat) (arg : Ptr)
  | getsockopt (sockfd level optname : Int) (optval optlen : Ptr)
  | setsockopt (sockfd level optname : Int) (optval : Ptr) (optlen : Nat)
deriving DecidableEq

/-! ## Constants -/

def EINTR : Int := 4
def EBADF : Int := 9
def EAGAIN : Int := 11
def ETIMEDOUT : Int := 110
def EINPROGRESS : Int := 115

def SOL_SOCKET : Int := 1
def SO_ERROR : Int := 4
def SO_RCVTIMEO : Int := 20
def SO_SNDTIMEO : Int := 21

def FIONBIO : Nat := 0x5421

def F_DUPFD : Int := 0
def F_GETFD : Int := 1
def F_SETFD : Int := 2
def F_GETFL : Int := 3
def F_SETFL : Int := 4
def F_GETLK : Int := 5
def F_SETLK : Int := 6
def F_SETLKW : Int := 7
def F_SETOWN : Int := 8
def F_GETOWN : Int := 9
def F_SETSIG : Int := 10
def F_GETSIG : Int := 11
def F_SETOWN_EX : Int := 15
def F_GETOWN_EX : Int := 16
def F_SETLEASE : Int := 1024
def F_GETLEASE : Int := 1025
def F_NOTIFY : Int := 1026
def F_DUPFD_CLOEXEC : Int := 1030
def F_SETPIPE_SZ : Int := 1031
def F_GETPIPE_SZ : Int := 1032

def O_NONBLOCK : BitVec 32 := 0x800

/-- `flags & O_NONBLOCK`. -/
def isNonblock (flags : Int) : Bool := BitVec.ofInt 32 flags &&& O_NONBLOCK != 0

/-- `flags | O_NONBLOCK`, or `flags & ~O_NONBLOCK`. -/
def withNonblock (nonblock : Bool) (flags : Int) : Int :=
  (if nonblock then BitVec.ofInt 32 flags ||| O_NONBLOCK else BitVec.ofInt 32 flags &&& ~~~O_NONBLOCK).toInt

/-! ## The environment -/

/-- `(uint64_t)-1`, no timeout. -/
def noTimeout : Nat := 2 ^ 64 - 1

structure FdCtx where
  isInit : Bool := false
  isSocket : Bool := false
  sysNonblock : Bool := false
  userNonblock : Bool := false
  isClosed : Bool := false
  recvTimeout : Nat := noTimeout
  sendTimeout : Nat := noTimeout
deriving DecidableEq

namespace FdCtx

def setTimeout (ctx : FdCtx) (type : Int) (v : Nat) : FdCtx :=
  if type = SO_RCVTIMEO then { ctx with recvTimeout := v } else { ctx with sendTimeout := v }

def getTimeout (ctx : FdCtx) (type : Int) : Nat :=
  if type = SO_RCVTIMEO then ctx.recvTimeout else ctx.sendTimeout

end FdCtx

/-- What an original call gives: its value, and `errno` where it sets it. -/
structure Reply (σ : Type) where
  env : σ
  value : Int
  errno : Option Int

/-- What a suspended call finds when it is resumed; `expired` says that its timer set
`timer_info::cancelled`. -/
structure Resumed (σ : Type) where
  env : σ
  datas : Nat → Option FdCtx
  expired : Bool

structure Env (σ : Type) where
  original : σ → Call → Reply σ
  /-- `fstat`: whether the number is a socket. -/
  fstat : σ → Nat → Option Bool
  /-- `*(int*)p`. -/
  int : σ → Ptr → Option Int
  /-- The seconds of a `timeval` or `timespec`, with its microseconds or nanoseconds. -/
  time : σ → Ptr → Option (Int × Int)
  /-- The locals `error` and `len` of `connect_with_timeout`. -/
  error : Ptr
  len : Ptr
  addTimer : σ → Nat → σ
  cancelTimer : σ → σ
  addEvent : σ → Int → Event → σ × Bool
  cancelAll : σ → Int → σ
  suspend : σ → (Nat → Option FdCtx) → Resumed σ

/-- `t_hook_enable`, and whether `IOManager::GetThis()` is not null. -/
structure Thread where
  hookEnable : Bool
  manager : Bool

structure World (σ : Type) where
  env : σ
  datas : Nat → Option FdCtx
  errno : Int
  calls : List Call

/-- Why a call does not return: `this` is null in a method of `IOManager`, a pointer is
bad, `va_arg` has no argument, or the retries were more than the model runs. -/
inductive Halt where
  | nullManager
  | badAddress
  | noArgument
  | outOfFuel
deriving DecidableEq

abbrev Outcome (σ : Type) := Except Halt (Int × World σ)

namespace World

variable {σ : Type} (E : Env σ) (w : World σ)

/-- An original call. -/
def original (c : Call) : Int × World σ :=
  let reply := E.original w.env c
  (reply.value, { w with env := reply.env, errno := reply.errno.getD w.errno, calls := w.calls ++ [c] })

def addTimer (timeout : Nat) : World σ := { w with env := E.addTimer w.env timeout }

def cancelTimer : World σ := { w with env := E.cancelTimer w.env }

def cancelAll (fd : Int) : World σ := { w with env := E.cancelAll w.env fd }

/-- `Fiber::yield`, until the fiber is resumed. -/
def suspend : Bool × World σ :=
  let resumed := E.suspend w.env w.datas
  (resumed.expired, { w with env := resumed.env, datas := resumed.datas })

/-! ## `FdManager` -/

/-- `FdManager::get(fd)`. -/
def get (fd : Int) : Option FdCtx := if fd < 0 then none else w.datas fd.toNat

/-- A setting of the context of a number. -/
def put (fd : Int) (ctx : FdCtx) : World σ := { w with datas := Function.update w.datas fd.toNat (some ctx) }

/-- `FdCtx::init`, with the system calls it makes. -/
def init (fd : Int) : FdCtx × World σ :=
  match E.fstat w.env fd.toNat with
  | none => ({}, w)
  | some false => ({ isInit := true }, w)
  | some true =>
    let flags := w.original E (.fcntl fd F_GETFL (some 0))
    let w := if isNonblock flags.1 then flags.2
      else (flags.2.original E (.fcntl fd F_SETFL (some (withNonblock true flags.1)))).2
    ({ isInit := true, isSocket := true, sysNonblock := true }, w)

/-- `FdManager::get(fd, true)`. -/
def create (fd : Int) : World σ :=
  match w.datas fd.toNat with
  | some _ => w
  | none =>
    let made := w.init E fd
    made.2.put fd made.1

def del (fd : Int) : World σ := { w with datas := Function.update w.datas fd.toNat none }

/-- The context where `fcntl` and `ioctl` treat the number as their own. -/
def managed (fd : Int) : Option FdCtx := (w.get fd).filter fun ctx => !ctx.isClosed && ctx.isSocket

end World

section Functions

variable {σ : Type} (E : Env σ) (t : Thread) (w : World σ)

/-! ## Calls that may wait -/

/-- The original call, made again while it is interrupted by a signal. -/
def attempt (c : Call) : Nat → World σ → Outcome σ
  | 0, _ => .error .outOfFuel
  | n + 1, w =>
    let r := w.original E c
    if r.1 = -1 ∧ r.2.errno = EINTR then attempt c n r.2 else .ok r

/-- `retry:` of `do_io`. -/
def retry (fd : Int) (c : Call) (event : Event) (timeout : Nat) : Nat → World σ → Outcome σ
  | 0, _ => .error .outOfFuel
  | n + 1, w =>
    (attempt E c (n + 1) w).bind fun r =>
      if r.1 = -1 ∧ r.2.errno = EAGAIN then
        if t.manager then
          let w := if timeout ≠ noTimeout then r.2.addTimer E timeout else r.2
          let added := E.addEvent w.env fd event
          let w := { w with env := added.1 }
          if added.2 then
            let resumed := w.suspend E
            let w := if timeout ≠ noTimeout then resumed.2.cancelTimer E else resumed.2
            if timeout ≠ noTimeout ∧ resumed.1 then .ok (-1, { w with errno := ETIMEDOUT })
            else retry fd c event timeout n w
          else .ok (-1, if timeout ≠ noTimeout then w.cancelTimer E else w)
        else .ok (r.2.original E c)
      else .ok r

/-- `do_io` for the original call `c` on `fd`. -/
def doIo (n : Nat) (fd : Int) (c : Call) (event : Event) (timeoutSo : Int) : Outcome σ :=
  if t.hookEnable then
    match w.get fd with
    | none => .ok (w.original E c)
    | some ctx =>
      if ctx.isClosed then .ok (-1, { w with errno := EBADF })
      else if !ctx.isSocket || ctx.userNonblock then .ok (w.original E c)
      else retry E t fd c event (ctx.getTimeout timeoutSo) n w
  else .ok (w.original E c)

/-- The end of `connect_with_timeout`: the error of the connection. -/
def connected (fd : Int) : Outcome σ :=
  let r := w.original E (.getsockopt fd SOL_SOCKET SO_ERROR E.error E.len)
  if r.1 = -1 then .ok (-1, r.2)
  else
    match E.int r.2.env E.error with
    | none => .error .badAddress
    | some error => if error = 0 then .ok (0, r.2) else .ok (-1, { r.2 with errno := error })

/-- `connect_with_timeout` past an `EINPROGRESS`, with a manager. -/
def awaitConnection (fd : Int) (timeout : Nat) : Outcome σ :=
  let w := if timeout ≠ noTimeout then w.addTimer E timeout else w
  let added := E.addEvent w.env fd .write
  let w := { w with env := added.1 }
  if added.2 then
    let resumed := w.suspend E
    let w := if timeout ≠ noTimeout then resumed.2.cancelTimer E else resumed.2
    if timeout ≠ noTimeout ∧ resumed.1 then .ok (-1, { w with errno := ETIMEDOUT }) else connected E w fd
  else .ok (-1, if timeout ≠ noTimeout then w.cancelTimer E else w)

def connectWithTimeout (fd : Int) (addr : Ptr) (addrlen : Nat) (timeout : Nat) : Outcome σ :=
  let c := Call.connect fd addr addrlen
  if t.hookEnable then
    match w.get fd with
    | none => .ok (-1, { w with errno := EBADF })
    | some ctx =>
      if ctx.isClosed then .ok (-1, { w with errno := EBADF })
      else if !ctx.isSocket then .ok (w.original E c)
      else if ctx.userNonblock then .ok (w.original E c)
      else
        let r := w.original E c
        if r.1 = 0 then .ok (0, r.2)
        else if r.1 ≠ -1 ∨ r.2.errno ≠ EINPROGRESS then .ok r
        else if t.manager then awaitConnection E r.2 fd timeout
        else .ok (r.2.original E c)
  else .ok (w.original E c)

/-- `s_connect_timeout` is never set. -/
def connect (sockfd : Int) (addr : Ptr) (addrlen : Nat) : Outcome σ :=
  connectWithTimeout E t w sockfd addr addrlen noTimeout

def accept (n : Nat) (sockfd : Int) (addr addrlen : Ptr) : Outcome σ :=
  (doIo E t w n sockfd (.accept sockfd addr addrlen) .read SO_RCVTIMEO).map fun r =>
    if 0 ≤ r.1 then (r.1, r.2.create E r.1) else r

def read (n : Nat) (fd : Int) (buf : Ptr) (count : Nat) : Outcome σ :=
  doIo E t w n fd (.read fd buf count) .read SO_RCVTIMEO

def readv (n : Nat) (fd : Int) (iov : Ptr) (iovcnt : Int) : Outcome σ :=
  doIo E t w n fd (.readv fd iov iovcnt) .read SO_RCVTIMEO

def recv (n : Nat) (sockfd : Int) (buf : Ptr) (len : Nat) (flags : Int) : Outcome σ :=
  doIo E t w n sockfd (.recv sockfd buf len flags) .read SO_RCVTIMEO

def recvfrom (n : Nat) (sockfd : Int) (buf : Ptr) (len : Nat) (flags : Int) (srcAddr addrlen : Ptr) : Outcome σ :=
  doIo E t w n sockfd (.recvfrom sockfd buf len flags srcAddr addrlen) .read SO_RCVTIMEO

def recvmsg (n : Nat) (sockfd : Int) (msg : Ptr) (flags : Int) : Outcome σ :=
  doIo E t w n sockfd (.recvmsg sockfd msg flags) .read SO_RCVTIMEO

def write (n : Nat) (fd : Int) (buf : Ptr) (count : Nat) : Outcome σ :=
  doIo E t w n fd (.write fd buf count) .write SO_SNDTIMEO

def writev (n : Nat) (fd : Int) (iov : Ptr) (iovcnt : Int) : Outcome σ :=
  doIo E t w n fd (.writev fd iov iovcnt) .write SO_SNDTIMEO

def send (n : Nat) (sockfd : Int) (buf : Ptr) (len : Nat) (flags : Int) : Outcome σ :=
  doIo E t w n sockfd (.send sockfd buf len flags) .write SO_SNDTIMEO

def sendto (n : Nat) (sockfd : Int) (buf : Ptr) (len : Nat) (flags : Int) (destAddr : Ptr) (addrlen : Nat) : Outcome σ :=
  doIo E t w n sockfd (.sendto sockfd buf len flags destAddr addrlen) .write SO_SNDTIMEO

def sendmsg (n : Nat) (sockfd : Int) (msg : Ptr) (flags : Int) : Outcome σ :=
  doIo E t w n sockfd (.sendmsg sockfd msg flags) .write SO_SNDTIMEO

/-! ## Sleeps -/

def sleep (seconds : Nat) : Outcome σ :=
  if t.hookEnable then
    -- `iom` is not tested before `iom->addTimer`; the product is of `unsigned int`s
    if t.manager then .ok (0, ((w.addTimer E (seconds * 1000 % 2 ^ 32)).suspend E).2) else .error .nullManager
  else .ok (w.original E (.sleep seconds))

def usleep (usec : Nat) : Outcome σ :=
  if t.hookEnable then
    if t.manager then .ok (0, ((w.addTimer E (usec / 1000)).suspend E).2) else .error .nullManager
  else .ok (w.original E (.usleep usec))

def nanosleep (req rem : Ptr) : Outcome σ :=
  if t.hookEnable then
    if t.manager then
      match E.time w.env req with
      | none => .error .badAddress
      | some (sec, nsec) =>
        let timeout := (sec * 1000 + nsec.tdiv 1000000) % 2 ^ 64
        .ok (0, ((w.addTimer E timeout.toNat).suspend E).2)
    else .ok (w.original E (.nanosleep req rem))
  else .ok (w.original E (.nanosleep req rem))

/-! ## Descriptors -/

def socket (domain type protocol : Int) : Outcome σ :=
  let r := w.original E (.socket domain type protocol)
  if t.hookEnable then
    -- no number is below -1
    if r.1 = -1 then .ok r else .ok (r.1, if r.1 < 0 then r.2 else r.2.create E r.1)
  else .ok r

def close (fd : Int) : Outcome σ :=
  if t.hookEnable then
    match w.get fd with
    | none => .ok (w.original E (.close fd))
    | some ctx =>
      let w := w.put fd { ctx with isClosed := true }
      let w := if t.manager then w.cancelAll E fd else w
      .ok ((w.del fd).original E (.close fd))
  else .ok (w.original E (.close fd))

/-- The commands whose argument `fcntl` reads, as an `int` or a pointer, and forwards. -/
def forwarded : List Int :=
  [F_DUPFD, F_DUPFD_CLOEXEC, F_SETFD, F_SETOWN, F_SETSIG, F_SETLEASE, F_NOTIFY, F_SETPIPE_SZ,
    F_SETLK, F_SETLKW, F_GETLK, F_GETOWN_EX, F_SETOWN_EX]

/-- The commands that it knows to have none. -/
def bare : List Int := [F_GETFD, F_GETOWN, F_GETSIG, F_GETLEASE, F_GETPIPE_SZ]

def fcntl (fd cmd : Int) (arg : Option Int) : Outcome σ :=
  if cmd = F_SETFL then
    match arg with
    | none => .error .noArgument
    | some arg =>
      match w.managed fd with
      | none => .ok (w.original E (.fcntl fd cmd (some arg)))
      | some ctx =>
        let w := w.put fd { ctx with userNonblock := isNonblock arg }
        .ok (w.original E (.fcntl fd cmd (some (withNonblock ctx.sysNonblock arg))))
  else if cmd = F_GETFL then
    let r := w.original E (.fcntl fd cmd none)
    match r.2.managed fd with
    | none => .ok r
    | some ctx => .ok (withNonblock ctx.userNonblock r.1, r.2)
  else if cmd ∈ forwarded then
    match arg with
    | none => .error .noArgument
    | some arg => .ok (w.original E (.fcntl fd cmd (some arg)))
  else if cmd ∈ bare then .ok (w.original E (.fcntl fd cmd none))
  else .ok (w.original E (.fcntl fd cmd none))

def ioctl (fd : Int) (request : Nat) (arg : Ptr) : Outcome σ :=
  if request = FIONBIO then
    match E.int w.env arg with
    | none => .error .badAddress
    | some v =>
      match w.managed fd with
      | none => .ok (w.original E (.ioctl fd request arg))
      | some ctx => .ok ((w.put fd { ctx with userNonblock := decide (v ≠ 0) }).original E (.ioctl fd request arg))
  else .ok (w.original E (.ioctl fd request arg))

def getsockopt (sockfd level optname : Int) (optval optlen : Ptr) : Outcome σ :=
  .ok (w.original E (.getsockopt sockfd level optname optval optlen))

def setsockopt (sockfd level optname : Int) (optval : Ptr) (optlen : Nat) : Outcome σ :=
  let c := Call.setsockopt sockfd level optname optval optlen
  if t.hookEnable then
    if level = SOL_SOCKET ∧ (optname = SO_RCVTIMEO ∨ optname = SO_SNDTIMEO) then
      match w.get sockfd with
      | none => .ok (w.original E c)
      | some ctx =>
        match E.time w.env optval with
        | none => .error .badAddress
        | some (sec, usec) =>
          let timeout := (sec * 1000 + usec.tdiv 1000) % 2 ^ 64
          .ok ((w.put sockfd (ctx.setTimeout optname timeout.toNat)).original E c)
    else .ok (w.original E c)
  else .ok (w.original E c)

/-- The interposed function of a call. `n` bounds the retries. -/
def hooked (n : Nat) : Call → Outcome σ
  | .sleep seconds => sleep E t w seconds
  | .usleep usec => usleep E t w usec
  | .nanosleep req rem => nanosleep E t w req rem
  | .socket domain type protocol => socket E t w domain type protocol
  | .connect sockfd addr addrlen => connect E t w sockfd addr addrlen
  | .accept sockfd addr addrlen => accept E t w n sockfd addr addrlen
  | .read fd buf count => read E t w n fd buf count
  | .readv fd iov iovcnt => readv E t w n fd iov iovcnt
  | .recv sockfd buf len flags => recv E t w n sockfd buf len flags
  | .recvfrom sockfd buf len flags srcAddr addrlen => recvfrom E t w n sockfd buf len flags srcAddr addrlen
  | .recvmsg sockfd msg flags => recvmsg E t w n sockfd msg flags
  | .write fd buf count => write E t w n fd buf count
  | .writev fd iov iovcnt => writev E t w n fd iov iovcnt
  | .send sockfd buf len flags => send E t w n sockfd buf len flags
  | .sendto sockfd buf len flags destAddr addrlen => sendto E t w n sockfd buf len flags destAddr addrlen
  | .sendmsg sockfd msg flags => sendmsg E t w n sockfd msg flags
  | .close fd => close E t w fd
  | .fcntl fd cmd arg => fcntl E w fd cmd arg
  | .ioctl fd request arg => ioctl E w fd request arg
  | .getsockopt sockfd level optname optval optlen => getsockopt E w sockfd level optname optval optlen
  | .setsockopt sockfd level optname optval optlen => setsockopt E t w sockfd level optname optval optlen

end Functions

/-! ## An environment -/

/-- Every call succeeds, `accept` with the socket 5. -/
def succeeds : Env Unit where
  original _ c := ⟨(), match c with | .accept .. => 5 | _ => 0, none⟩
  fstat _ _ := some true
  int _ _ := some 0
  time _ _ := some (0, 0)
  error := 0
  len := 0
  addTimer _ _ := ()
  cancelTimer _ := ()
  addEvent _ _ _ := ((), true)
  cancelAll _ _ := ()
  suspend _ datas := ⟨(), datas, false⟩

end Mycoroutine.Interpose
