import Mycoroutine.Hook.Interpose
import Mycoroutine.Words.Flag

/-!
# Sockets of a kernel

An environment for the interposed functions: the open files with their status flags, and
what the calls on sockets do to them on Linux. `socket` and `accept` succeed with the
number `next`; calls that may wait are ready at once.

The memory that the calls read is the same throughout: a program that stores another
value calls with another pointer.
-/

namespace Mycoroutine.Interpose
set_option autoImplicit false
open IOManager

def O_RDWR : BitVec 32 := 2

/-- `O_APPEND`, `O_NONBLOCK`, `FASYNC`, `O_DIRECT` and `O_NOATIME`: the flags that
`F_SETFL` can change. -/
def SETFL_MASK : BitVec 32 := 0x46C00

structure File where
  socket : Bool
  flags : BitVec 32
deriving DecidableEq

structure Kernel where
  files : Nat → Option File
  next : Nat

namespace Kernel

def file (k : Kernel) (fd : Int) : Option File := if fd < 0 then none else k.files fd.toNat

/-- A new socket, at the number `next`. -/
def opens (k : Kernel) (flags : BitVec 32) : Reply Kernel :=
  ⟨{ k with files := Function.update k.files k.next (some ⟨true, flags⟩) }, k.next, none⟩

def setFlags (k : Kernel) (fd : Int) (file : File) (flags : BitVec 32) : Reply Kernel :=
  ⟨{ k with files := Function.update k.files fd.toNat (some { file with flags }) }, 0, none⟩

/-- A call on an open file; on a number that is not open it fails. -/
def on (k : Kernel) (fd : Int) (reply : File → Reply Kernel) : Reply Kernel :=
  match k.file fd with
  | none => ⟨k, -1, some EBADF⟩
  | some file => reply file

end Kernel

/-- The kernel, with the memory of the process: an `int` and a `timeval` at each address. -/
def linux (memory : Ptr → Int) (times : Ptr → Int × Int) : Env Kernel where
  original k
    | .socket _ type _ => k.opens (O_RDWR ||| (BitVec.ofInt 32 type &&& O_NONBLOCK))
    | .accept _ _ _ => k.opens O_RDWR
    | .close fd => k.on fd fun _ => ⟨{ k with files := Function.update k.files fd.toNat none }, 0, none⟩
    | .fcntl fd cmd arg => k.on fd fun file =>
      if cmd = F_GETFL then ⟨k, file.flags.toInt, none⟩
      else if cmd = F_SETFL then
        k.setFlags fd file (FlagWord.merge SETFL_MASK file.flags (BitVec.ofInt 32 (arg.getD 0)))
      else ⟨k, 0, none⟩
    | .ioctl fd request arg => k.on fd fun file =>
      if request = FIONBIO then k.setFlags fd file (FlagWord.put 11 (decide (memory arg ≠ 0)) file.flags) else ⟨k, 0, none⟩
    | _ => ⟨k, 0, none⟩
  fstat k fd := (k.files fd).map File.socket
  int _ p := some (memory p)
  time _ p := some (times p)
  error := 0
  len := 0
  addTimer k _ := k
  cancelTimer k := k
  addEvent k _ _ := (k, true)
  cancelAll k _ := k
  suspend k datas := ⟨k, datas, false⟩

/-- A call on a thread, and the number that the kernel hands out if it opens a socket. -/
structure Issue where
  thread : Thread
  call : Call
  fd : Nat

/-- No descriptor is open. -/
def noFiles : Kernel := ⟨fun _ => none, 0⟩

/-- A worker of an `IOManager`. -/
def worker : Thread := ⟨true, true⟩

/-- The world at the call. -/
def Issue.world (l : Issue) (w : World Kernel) : World Kernel := { w with env := { w.env with next := l.fd } }

/-! ## Flags -/

theorem isNonblock_eq (flags : Int) : isNonblock flags = FlagWord.has 11 (BitVec.ofInt 32 flags) := rfl

theorem withNonblock_eq (nonblock : Bool) (flags : Int) :
    withNonblock nonblock flags = (FlagWord.put 11 nonblock (BitVec.ofInt 32 flags)).toInt := rfl

/-- The flags of a new socket. -/
theorem has_opened (type : Int) : FlagWord.has 11 (O_RDWR ||| (BitVec.ofInt 32 type &&& O_NONBLOCK)) = isNonblock type := by
  rw [isNonblock_eq, FlagWord.has_eq (by decide), FlagWord.has_eq (by decide)]
  simp [O_RDWR, O_NONBLOCK]

/-! ## What the calls do to the files -/

section Calls

variable {memory : Ptr → Int} {times : Ptr → Int × Int} {w : World Kernel} {fd : Int} {f : File}

theorem original_getfl (opened : w.env.file fd = some f) (arg : Option Int) :
    w.original (linux memory times) (.fcntl fd F_GETFL arg) =
      (f.flags.toInt, { w with calls := w.calls ++ [.fcntl fd F_GETFL arg] }) := by
  simp only [World.original, linux, Kernel.on, opened, if_true, Option.getD_none]

theorem original_setfl (opened : w.env.file fd = some f) (flags : BitVec 32) :
    (w.original (linux memory times) (.fcntl fd F_SETFL (some flags.toInt))).2 =
      { w with env := (w.env.setFlags fd f (FlagWord.merge SETFL_MASK f.flags flags)).env,
               calls := w.calls ++ [.fcntl fd F_SETFL (some flags.toInt)] } := by
  have other : F_SETFL ≠ F_GETFL := by decide
  simp only [World.original, linux, Kernel.on, opened, Kernel.setFlags, if_neg other, if_true, Option.getD_none,
    Option.getD_some, BitVec.ofInt_toInt]

/-- The files after a call that changes the flags of an open file. -/
def Kernel.edit (k : Kernel) (fd : Int) (g : BitVec 32 → BitVec 32) : Nat → Option File :=
  match k.file fd with
  | none => k.files
  | some f => Function.update k.files fd.toNat (some { f with flags := g f.flags })

theorem setfl_edit (k : Kernel) (fd arg : Int) :
    ((linux memory times).original k (.fcntl fd F_SETFL (some arg))).env.files =
      k.edit fd (FlagWord.merge SETFL_MASK · (BitVec.ofInt 32 arg)) := by
  have other : F_SETFL ≠ F_GETFL := by decide
  simp only [linux, Kernel.on, Kernel.edit, if_neg other, if_true, Option.getD_some]
  cases k.file fd <;> rfl

theorem getfl_files (k : Kernel) (fd : Int) (arg : Option Int) :
    ((linux memory times).original k (.fcntl fd F_GETFL arg)).env.files = k.files := by
  simp only [linux, Kernel.on, if_true]
  cases k.file fd <;> rfl

theorem fionbio_edit (k : Kernel) (fd : Int) (arg : Ptr) :
    ((linux memory times).original k (.ioctl fd FIONBIO arg)).env.files =
      k.edit fd (FlagWord.put 11 (decide (memory arg ≠ 0))) := by
  simp only [linux, Kernel.on, Kernel.edit, if_true]
  cases k.file fd <;> rfl

/-- `FdManager::get(fd, true)` of a socket without a context: it has a new one, and the
kernel's flag is set. -/
theorem create_socket (free : w.datas fd.toNat = none) (opened : w.env.file fd = some f) (socket : f.socket = true) :
    (w.create (linux memory times) fd).datas =
        Function.update w.datas fd.toNat (some { isInit := true, isSocket := true, sysNonblock := true }) ∧
      (w.create (linux memory times) fd).env =
        { w.env with files := Function.update w.env.files fd.toNat (some { f with flags := FlagWord.put 11 true f.flags }) } := by
  have found : w.env.files fd.toNat = some f := by
    unfold Kernel.file at opened
    split at opened
    · cases opened
    · exact opened
  have fstat : (linux memory times).fstat w.env fd.toNat = some true := by
    show (w.env.files fd.toNat).map File.socket = some true
    rw [found, Option.map_some, socket]
  have init : (w.init (linux memory times) fd).1 = { isInit := true, isSocket := true, sysNonblock := true } ∧
      (w.init (linux memory times) fd).2.datas = w.datas ∧
      (w.init (linux memory times) fd).2.env =
        { w.env with files := Function.update w.env.files fd.toNat (some { f with flags := FlagWord.put 11 true f.flags }) } := by
    unfold World.init
    rw [fstat]
    dsimp only
    rw [original_getfl opened]
    dsimp only
    rw [isNonblock_eq, BitVec.ofInt_toInt]
    refine ⟨rfl, ?_⟩
    split
    · rename_i set
      -- the flag is set already
      have same : FlagWord.put 11 true f.flags = f.flags := by
        rw [← set]
        exact FlagWord.put_has (by decide)
      refine ⟨rfl, ?_⟩
      show w.env = _
      rw [same, ← found, Function.update_eq_self]
    · rw [withNonblock_eq, BitVec.ofInt_toInt,
        original_setfl (w := { w with calls := w.calls ++ [.fcntl fd F_GETFL (some 0)] }) opened,
        FlagWord.merge_self (by decide)]
      exact ⟨rfl, rfl⟩
  unfold World.create
  rw [free]
  obtain ⟨ctx, datas, env⟩ := init
  constructor
  · show Function.update (w.init (linux memory times) fd).2.datas fd.toNat (some (w.init (linux memory times) fd).1) = _
    rw [ctx, datas]
  · exact env

/-- The number that `socket` and `accept` give. -/
theorem next_positive : ¬ ((w.env.next : Int) < 0) := by omega

theorem socket_hooked {t : Thread} {domain type protocol : Int} (on : t.hookEnable = true) :
    socket (linux memory times) t w domain type protocol = .ok ((w.env.next : Int),
      (w.original (linux memory times) (.socket domain type protocol)).2.create (linux memory times) w.env.next) := by
  have other : (w.env.next : Int) ≠ -1 := by omega
  unfold socket
  rw [if_pos on]
  show (if (w.env.next : Int) = -1 then _ else (.ok (w.env.next, if (w.env.next : Int) < 0 then _ else _) : Outcome Kernel)) = _
  rw [if_neg other, if_neg next_positive]
  rfl

/-- `accept` gets its connection at once, with the hook and without, unless its context is
marked closed. -/
theorem accept_hooked {t : Thread} {sockfd : Int} {addr addrlen : Ptr}
    (unclosed : ∀ ctx, w.get sockfd = some ctx → ctx.isClosed = false) :
    accept (linux memory times) t w 1 sockfd addr addrlen = .ok ((w.env.next : Int),
      (w.original (linux memory times) (.accept sockfd addr addrlen)).2.create (linux memory times) w.env.next) := by
  have other : ¬ ((w.env.next : Int) = -1) := by omega
  have io : doIo (linux memory times) t w 1 sockfd (.accept sockfd addr addrlen) .read SO_RCVTIMEO =
      .ok (w.original (linux memory times) (.accept sockfd addr addrlen)) := by
    have tried : attempt (linux memory times) (.accept sockfd addr addrlen) (0 + 1) w =
        .ok (w.original (linux memory times) (.accept sockfd addr addrlen)) := by
      unfold attempt
      exact if_neg fun again => other again.1
    unfold doIo
    split
    · split
      · rfl
      · rename_i ctx here
        rw [unclosed ctx here, if_neg (by nofun)]
        split
        · rfl
        · unfold retry
          rw [tried]
          have done : ¬ ((w.original (linux memory times) (.accept sockfd addr addrlen)).1 = -1 ∧
              (w.original (linux memory times) (.accept sockfd addr addrlen)).2.errno = EAGAIN) := fun again => other again.1
          simp only [Except.bind, if_neg done]
    · rfl
  unfold accept
  rw [io]
  exact congrArg Except.ok (if_pos (Int.natCast_nonneg _))

end Calls

end Mycoroutine.Interpose
