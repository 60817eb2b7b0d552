import Mycoroutine.Hook.Kernel
import Mycoroutine.Interleave.Machine

/-!
# The virtual non-blocking mode

Sockets are opened by `socket` and `accept`, and their status flags are set and read by
`fcntl` and `ioctl`, on threads with the hook and without. The same calls are made to a
kernel without the library, whose flags are what the user asked for.

The library keeps `O_NONBLOCK` set in the kernel, and the mode of the user in the
context. It does not record the mode that a socket is created with, and `FIONBIO` goes to
the kernel as it is.
-/

namespace Mycoroutine.Interpose
set_option autoImplicit false
open Interleave Machine

/-- `ideal` is the kernel that gets every call as the user makes it. -/
structure Virtual where
  world : World Kernel
  ideal : Kernel

namespace Virtual

/-- The calls that open sockets and handle their flags. -/
def Handles : Call → Prop
  | .socket _ _ _ | .accept _ _ _ => True
  | .fcntl _ cmd arg => cmd = F_GETFL ∨ cmd = F_SETFL ∧ arg.isSome = true
  | .ioctl _ request _ => request = FIONBIO
  | _ => False

instance : (c : Call) → Decidable (Handles c)
  | .socket .. | .accept .. => isTrue trivial
  | .fcntl _ cmd arg => inferInstanceAs (Decidable (cmd = F_GETFL ∨ cmd = F_SETFL ∧ arg.isSome = true))
  | .ioctl _ request _ => inferInstanceAs (Decidable (request = FIONBIO))
  | .sleep _ | .usleep _ | .nanosleep .. | .connect .. | .read .. | .readv .. | .recv .. | .recvfrom .. | .recvmsg ..
  | .write .. | .writev .. | .send .. | .sendto .. | .sendmsg .. | .close _ | .getsockopt .. | .setsockopt .. => isFalse id

section Machine

variable (memory : Ptr → Int) (times : Ptr → Int × Int)

def step (s : Virtual) (l : Issue) : Option Virtual :=
  if Handles l.call ∧ s.world.env.files l.fd = none then
    match hooked (linux memory times) l.thread (l.world s.world) 1 l.call with
    | .ok r =>
      some { world := r.2, ideal := ((linux memory times).original { s.ideal with next := l.fd } l.call).env }
    | .error _ => none
  else none

/-- The library starts with descriptors open that it does not know. -/
def machine (kernel : Kernel) : Machine Virtual Issue where
  init := { world := { env := kernel, datas := fun _ => none, errno := 0, calls := [] }, ideal := kernel }
  step := step memory times

/-- What the user may rely on, of every socket that the library manages: the kernel's
flag is set, the mode is the one that was asked for last, and `F_GETFL` gives the flags
that were asked for. -/
def Virtualised (s : Virtual) : Prop :=
  ∀ fd ctx, s.world.managed fd = some ctx → ∃ file ideal, s.world.env.file fd = some file ∧ s.ideal.file fd = some ideal ∧
    (ctx.sysNonblock = true → FlagWord.has 11 file.flags = true) ∧
    ctx.userNonblock = FlagWord.has 11 ideal.flags ∧
    FlagWord.put 11 false file.flags = FlagWord.put 11 false ideal.flags ∧
    ∀ arg, ∃ w, fcntl (linux memory times) s.world fd F_GETFL arg = .ok (ideal.flags.toInt, w)

/-- No managed socket is created in non-blocking mode, and none is given blocking mode
by `FIONBIO`. -/
def Respects (s : Virtual) (l : Issue) : Prop :=
  match l.call with
  | .socket _ type _ => l.thread.hookEnable = true → isNonblock type = false
  | .ioctl fd _ arg => (s.world.managed fd).isSome = true → memory arg ≠ 0
  | _ => True

instance (s : Virtual) : (l : Issue) → Decidable (Respects memory s l)
  | ⟨t, .socket _ type _, _⟩ => inferInstanceAs (Decidable (t.hookEnable = true → isNonblock type = false))
  | ⟨_, .ioctl fd _ arg, _⟩ => inferInstanceAs (Decidable ((s.world.managed fd).isSome = true → memory arg ≠ 0))
  | ⟨_, .sleep _, _⟩ | ⟨_, .usleep _, _⟩ | ⟨_, .nanosleep .., _⟩ | ⟨_, .connect .., _⟩ | ⟨_, .accept .., _⟩ | ⟨_, .read .., _⟩
  | ⟨_, .readv .., _⟩ | ⟨_, .recv .., _⟩ | ⟨_, .recvfrom .., _⟩ | ⟨_, .recvmsg .., _⟩ | ⟨_, .write .., _⟩ | ⟨_, .writev .., _⟩
  | ⟨_, .send .., _⟩ | ⟨_, .sendto .., _⟩ | ⟨_, .sendmsg .., _⟩ | ⟨_, .close _, _⟩ | ⟨_, .fcntl .., _⟩ | ⟨_, .getsockopt .., _⟩
  | ⟨_, .setsockopt .., _⟩ => isTrue trivial

end Machine

/-! ## The invariant -/

/-- A number without a context has the flags of the user, and one with a context has
them with `O_NONBLOCK` in the kernel. -/
def Agree (ctx : Option FdCtx) (file ideal : Option File) : Prop :=
  match ctx with
  | none => file = ideal
  | some ctx => ctx.isClosed = false ∧ ctx.isSocket = true ∧ ctx.sysNonblock = true ∧
      ∃ i, ideal = some i ∧ file = some { i with flags := FlagWord.put 11 true i.flags } ∧
        ctx.userNonblock = FlagWord.has 11 i.flags

theorem Agree.managed {ctx : FdCtx} {i : File} (unclosed : ctx.isClosed = false) (socket : ctx.isSocket = true)
    (sys : ctx.sysNonblock = true) (user : ctx.userNonblock = FlagWord.has 11 i.flags) :
    Agree (some ctx) (some { i with flags := FlagWord.put 11 true i.flags }) (some i) :=
  ⟨unclosed, socket, sys, i, rfl, rfl, user⟩

def Kept (s : Virtual) : Prop := ∀ fd, Agree (s.world.datas fd) (s.world.env.files fd) (s.ideal.files fd)

section Kept

variable {memory : Ptr → Int} {times : Ptr → Int × Int} {kernel : Kernel} {s s' : Virtual} {l : Issue} {fd : Int} {ctx : FdCtx}

theorem kept_init : Kept (machine memory times kernel).init := fun _ => rfl

/-- A step that changes one number. -/
structure Changes (s s' : Virtual) (m : Nat) (d : Option FdCtx) (f i : Option File) : Prop where
  datas : s'.world.datas = Function.update s.world.datas m d
  files : s'.world.env.files = Function.update s.world.env.files m f
  ideal : s'.ideal.files = Function.update s.ideal.files m i

theorem Kept.changes (h : Kept s) {m : Nat} {d : Option FdCtx} {f i : Option File} (changes : Changes s s' m d f i)
    (agree : Agree d f i) : Kept s' := by
  intro fd
  rw [changes.datas, changes.files, changes.ideal]
  by_cases here : fd = m
  · subst here
    simp only [Function.update_self]
    exact agree
  · simp only [Function.update_of_ne here]
    exact h fd

theorem managed_iff (h : Kept s) : s.world.managed fd = some ctx ↔ 0 ≤ fd ∧ s.world.datas fd.toNat = some ctx := by
  unfold World.managed World.get
  split
  · rename_i negative
    refine iff_of_false (by nofun) ?_
    rintro ⟨positive, -⟩
    omega
  · rename_i positive
    cases here : s.world.datas fd.toNat with
    | none => exact iff_of_false (by nofun) (by nofun)
    | some own =>
      have agree := h fd.toNat
      rw [here] at agree
      obtain ⟨unclosed, socket, -⟩ := agree
      simp only [Option.filter_some, unclosed, socket, Bool.not_false, Bool.and_self, if_true, Option.some.injEq]
      exact (and_iff_right (Int.not_lt.1 positive)).symm

/-- The flags of a managed socket. -/
theorem Kept.flags (h : Kept s) (managed : s.world.managed fd = some ctx) :
    ctx.sysNonblock = true ∧ ∃ i, s.ideal.file fd = some i ∧
      s.world.env.file fd = some { i with flags := FlagWord.put 11 true i.flags } ∧
      ctx.userNonblock = FlagWord.has 11 i.flags := by
  obtain ⟨positive, here⟩ := (managed_iff h).1 managed
  have agree := h fd.toNat
  rw [here] at agree
  obtain ⟨-, -, sys, i, ideal, file, user⟩ := agree
  refine ⟨sys, i, ?_, ?_, user⟩
  · rw [Kernel.file, if_neg (Int.not_lt.2 positive), ideal]
  · rw [Kernel.file, if_neg (Int.not_lt.2 positive), file]

theorem Kept.virtualised (h : Kept s) : Virtualised memory times s := by
  intro fd ctx managed
  obtain ⟨sys, i, ideal, file, user⟩ := h.flags managed
  refine ⟨_, i, file, ideal, fun _ => FlagWord.has_put (by decide), user, FlagWord.put_put, fun arg => ?_⟩
  have other : F_GETFL ≠ F_SETFL := by decide
  unfold fcntl
  rw [if_neg other, if_pos rfl]
  dsimp only
  rw [original_getfl file]
  dsimp only
  have managed' : { s.world with calls := s.world.calls ++ [Call.fcntl fd F_GETFL none] }.managed fd = some ctx := managed
  rw [managed']
  dsimp only
  rw [withNonblock_eq, BitVec.ofInt_toInt, FlagWord.put_put, user, FlagWord.put_has (by decide)]
  exact ⟨_, rfl⟩

/-- A number that is not open has no context. -/
theorem Kept.free (h : Kept s) {m : Nat} (free : s.world.env.files m = none) : s.world.datas m = none := by
  have agree := h m
  cases here : s.world.datas m with
  | none => rfl
  | some ctx =>
    rw [here, free] at agree
    obtain ⟨-, -, -, i, -, file, -⟩ := agree
    cases file

/-- A socket is opened in both kernels, and gets its context. -/
theorem Kept.opens (h : Kept s) {m : Nat} (free : s.world.env.files m = none) {flags : BitVec 32} {w : World Kernel}
    {k : Kernel} (datas : w.datas = s.world.datas)
    (files : w.env.files = Function.update s.world.env.files m (some ⟨true, flags⟩))
    (ideal : k.files = Function.update s.ideal.files m (some ⟨true, flags⟩)) :
    Changes s ⟨w.create (linux memory times) m, k⟩ m (some { isInit := true, isSocket := true, sysNonblock := true })
      (some ⟨true, FlagWord.put 11 true flags⟩) (some ⟨true, flags⟩) := by
  have none' : w.datas (Int.toNat m) = none := by
    rw [datas, Int.toNat_natCast]
    exact h.free free
  have opened : w.env.file m = some ⟨true, flags⟩ := by
    rw [Kernel.file, if_neg (by omega), files, Int.toNat_natCast, Function.update_self]
  obtain ⟨created, env⟩ := @create_socket memory times _ _ _ none' opened rfl
  refine ⟨?_, ?_, ideal⟩
  · show (w.create (linux memory times) m).datas = _
    rw [created, datas, Int.toNat_natCast]
  · show (w.create (linux memory times) m).env.files = _
    rw [env, files, Int.toNat_natCast, Function.update_idem]

/-- The contexts and files that a call finds. -/
theorem Kept.before (h : Kept s) : Kept ⟨l.world s.world, { s.ideal with next := l.fd }⟩ := h

/-- A call that leaves contexts and files as they are. -/
theorem Kept.same (h : Kept s) (datas : s'.world.datas = s.world.datas) (files : s'.world.env.files = s.world.env.files)
    (ideal : s'.ideal.files = s.ideal.files) : Kept s' := by
  intro fd
  rw [datas, files, ideal]
  exact h fd

/-- The flags of a number without a managed socket are changed in both kernels alike. -/
theorem Kept.edit (h : Kept s) (g : BitVec 32 → BitVec 32) (unmanaged : s.world.managed fd = none) {w : World Kernel}
    {k : Kernel} (datas : w.datas = s.world.datas) (files : w.env.files = s.world.env.edit fd g)
    (ideal : k.files = s.ideal.edit fd g) : Kept ⟨w, k⟩ := by
  unfold Kernel.edit Kernel.file at files ideal
  by_cases negative : fd < 0
  · rw [if_pos negative] at files ideal
    exact h.same datas files ideal
  · rw [if_neg negative] at files ideal
    have none' : s.world.datas fd.toNat = none := by
      cases here : s.world.datas fd.toNat with
      | none => rfl
      | some ctx => cases unmanaged.symm.trans ((managed_iff h).2 ⟨Int.not_lt.1 negative, here⟩)
    have alike := h fd.toNat
    rw [none'] at alike
    rw [← (alike : s.world.env.files fd.toNat = s.ideal.files fd.toNat)] at ideal
    cases opened : s.world.env.files fd.toNat with
    | none =>
      rw [opened] at files ideal
      exact h.same datas files ideal
    | some f =>
      rw [opened] at files ideal
      refine h.changes (m := fd.toNat) (d := none) ⟨?_, files, ideal⟩ rfl
      show w.datas = _
      rw [datas, ← none', Function.update_eq_self]

/-- The flags of a managed socket are changed in both kernels, and its mode is recorded. -/
theorem Kept.editManaged (h : Kept s) {g i : BitVec 32 → BitVec 32} {mode : Bool} (managed : s.world.managed fd = some ctx)
    {w : World Kernel} {k : Kernel} (datas : w.datas = (s.world.put fd { ctx with userNonblock := mode }).datas)
    (files : w.env.files = s.world.env.edit fd g) (ideal : k.files = s.ideal.edit fd i) :
    ∃ f : File, Changes s ⟨w, k⟩ fd.toNat (some { ctx with userNonblock := mode })
      (some { f with flags := g (FlagWord.put 11 true f.flags) }) (some { f with flags := i f.flags }) := by
  obtain ⟨-, f, isIdeal, isFile, -⟩ := h.flags managed
  rw [Kernel.edit, isFile] at files
  rw [Kernel.edit, isIdeal] at ideal
  exact ⟨f, datas, files, ideal⟩

/-- The contexts are of sockets, and not marked closed. -/
theorem Kept.managed (h : Kept s) (managed : s.world.managed fd = some ctx) :
    ctx.isClosed = false ∧ ctx.isSocket = true ∧ ctx.sysNonblock = true := by
  obtain ⟨-, here⟩ := (managed_iff h).1 managed
  have agree := h fd.toNat
  rw [here] at agree
  exact ⟨agree.1, agree.2.1, agree.2.2.1⟩

/-- The flags and the mode are changed alike. -/
theorem Kept.alike (h : Kept s) {g i : BitVec 32 → BitVec 32} {mode : Bool} (managed : s.world.managed fd = some ctx) {f : File}
    (changes : Changes s s' fd.toNat (some { ctx with userNonblock := mode })
      (some { f with flags := g (FlagWord.put 11 true f.flags) }) (some { f with flags := i f.flags }))
    (same : g (FlagWord.put 11 true f.flags) = FlagWord.put 11 true (i f.flags)) (asked : FlagWord.has 11 (i f.flags) = mode) :
    Kept s' := by
  obtain ⟨unclosed, socket, sys⟩ := h.managed managed
  rw [same] at changes
  exact h.changes changes (Agree.managed unclosed socket sys asked.symm)

/-- What the user may rely on of a number that was changed. -/
theorem Virtualised.changed (virtualised : Virtualised memory times s') {m : Nat} {file ideal : File}
    (changes : Changes s s' m (some ctx) (some file) (some ideal)) (unclosed : ctx.isClosed = false)
    (socket : ctx.isSocket = true) :
    (ctx.sysNonblock = true → FlagWord.has 11 file.flags = true) ∧ ctx.userNonblock = FlagWord.has 11 ideal.flags := by
  have managed : s'.world.managed m = some ctx := by
    unfold World.managed World.get
    rw [if_neg (by omega), changes.datas, Int.toNat_natCast, Function.update_self]
    simp only [Option.filter_some, unclosed, socket, Bool.not_false, Bool.and_self, if_true]
  obtain ⟨file', ideal', isFile, isIdeal, set, user, -⟩ := virtualised m ctx managed
  unfold Kernel.file at isFile isIdeal
  rw [if_neg (by omega), Int.toNat_natCast, changes.files, Function.update_self] at isFile
  rw [if_neg (by omega), Int.toNat_natCast, changes.ideal, Function.update_self] at isIdeal
  cases isFile
  cases isIdeal
  exact ⟨set, user⟩

/-- `F_SETFL` in both kernels. -/
theorem Kept.setfl (h : Kept s) {arg : Int} {r : Int × World Kernel}
    (e : fcntl (linux memory times) s.world fd F_SETFL (some arg) = .ok r) :
    Kept ⟨r.2, ((linux memory times).original s.ideal (.fcntl fd F_SETFL (some arg))).env⟩ := by
  unfold fcntl at e
  rw [if_pos rfl] at e
  dsimp only at e
  cases managed : s.world.managed fd with
  | none =>
    rw [managed] at e
    cases e
    exact h.edit _ managed rfl (setfl_edit ..) (setfl_edit ..)
  | some ctx =>
    rw [managed] at e
    cases e
    have sys := (h.managed managed).2.2
    obtain ⟨f, changes⟩ := h.editManaged managed (w := ((s.world.put fd { ctx with userNonblock := isNonblock arg }).original
      (linux memory times) (.fcntl fd F_SETFL (some (withNonblock ctx.sysNonblock arg)))).2) rfl (setfl_edit ..)
      (@setfl_edit memory times s.ideal fd arg)
    refine h.alike (g := (FlagWord.merge SETFL_MASK · (BitVec.ofInt 32 (withNonblock ctx.sysNonblock arg))))
      (i := (FlagWord.merge SETFL_MASK · (BitVec.ofInt 32 arg))) managed changes ?_ ?_
    · rw [sys, withNonblock_eq, BitVec.ofInt_toInt]
      exact FlagWord.merge_put (by decide)
    · rw [FlagWord.has_merge (by decide) (by decide), isNonblock_eq]

theorem Kept.getfl (h : Kept s) {arg : Option Int} {r : Int × World Kernel}
    (e : fcntl (linux memory times) s.world fd F_GETFL arg = .ok r) :
    Kept ⟨r.2, ((linux memory times).original s.ideal (.fcntl fd F_GETFL arg)).env⟩ := by
  have other : F_GETFL ≠ F_SETFL := by decide
  have files := @getfl_files memory times s.world.env fd none
  unfold fcntl at e
  rw [if_neg other, if_pos rfl] at e
  dsimp only at e
  split at e <;>
    · cases e
      exact h.same rfl files (getfl_files ..)

/-- `FIONBIO` of a managed socket in both kernels. -/
theorem Kept.fionbioManaged (h : Kept s) {arg : Ptr} {r : Int × World Kernel} (managed : s.world.managed fd = some ctx)
    (e : ioctl (linux memory times) s.world fd FIONBIO arg = .ok r) :
    ∃ f : File, Changes s ⟨r.2, ((linux memory times).original s.ideal (.ioctl fd FIONBIO arg)).env⟩ fd.toNat
      (some { ctx with userNonblock := decide (memory arg ≠ 0) })
      (some { f with flags := FlagWord.put 11 (decide (memory arg ≠ 0)) (FlagWord.put 11 true f.flags) })
      (some { f with flags := FlagWord.put 11 (decide (memory arg ≠ 0)) f.flags }) := by
  unfold ioctl at e
  rw [if_pos rfl] at e
  dsimp only [linux] at e
  rw [managed] at e
  cases e
  exact h.editManaged managed rfl (fionbio_edit ..) (fionbio_edit ..)

theorem Kept.fionbio (h : Kept s) {arg : Ptr} {r : Int × World Kernel}
    (nonblock : (s.world.managed fd).isSome = true → memory arg ≠ 0)
    (e : ioctl (linux memory times) s.world fd FIONBIO arg = .ok r) :
    Kept ⟨r.2, ((linux memory times).original s.ideal (.ioctl fd FIONBIO arg)).env⟩ := by
  cases managed : s.world.managed fd with
  | none =>
    unfold ioctl at e
    rw [if_pos rfl] at e
    dsimp only [linux] at e
    rw [managed] at e
    cases e
    exact h.edit _ managed rfl (fionbio_edit ..) (fionbio_edit ..)
  | some ctx =>
    have on : decide (memory arg ≠ 0) = true := decide_eq_true (nonblock (by rw [managed]; rfl))
    obtain ⟨f, changes⟩ := h.fionbioManaged managed e
    refine h.alike managed changes ?_ (FlagWord.has_put (by decide))
    rw [on]

/-- A socket that is opened without a context. -/
theorem Kept.unhooked (h : Kept s) {m : Nat} (free : s.world.env.files m = none) {file : File} {w : World Kernel} {k : Kernel}
    (datas : w.datas = s.world.datas) (files : w.env.files = Function.update s.world.env.files m (some file))
    (ideal : k.files = Function.update s.ideal.files m (some file)) : Kept ⟨w, k⟩ := by
  refine h.changes (m := m) (d := none) (f := some file) (i := some file) ⟨?_, files, ideal⟩ rfl
  show w.datas = _
  rw [datas, ← h.free free, Function.update_eq_self]

theorem Kept.step (h : Kept s) (respects : Respects memory s l) (e : Virtual.step memory times s l = some s') : Kept s' := by
  unfold Virtual.step at e
  split at e
  · rename_i allowed
    obtain ⟨handles, free⟩ := allowed
    split at e
    · rename_i r called
      cases e
      obtain ⟨t, c, m⟩ := l
      cases c with
      | socket domain type protocol =>
        by_cases on : t.hookEnable = true
        · cases called.symm.trans (socket_hooked on)
          change Kept ⟨((Issue.world ⟨t, .socket domain type protocol, m⟩ s.world).original (linux memory times)
            (.socket domain type protocol)).2.create (linux memory times) m, _⟩
          refine h.changes (h.opens free rfl rfl rfl) (Agree.managed rfl rfl rfl ?_)
          rw [has_opened]
          exact (respects on).symm
        · have off : socket (linux memory times) t (Issue.world ⟨t, .socket domain type protocol, m⟩ s.world) domain type protocol =
              .ok ((Issue.world ⟨t, .socket domain type protocol, m⟩ s.world).original (linux memory times) (.socket domain type protocol)) :=
            if_neg on
          cases called.symm.trans off
          exact h.unhooked free rfl rfl rfl
      | accept sockfd addr addrlen =>
        have unclosed (ctx : FdCtx) (here : (Issue.world ⟨t, .accept sockfd addr addrlen, m⟩ s.world).get sockfd = some ctx) :
            ctx.isClosed = false := by
          unfold World.get at here
          split at here
          · cases here
          · have agree := h sockfd.toNat
            rw [show s.world.datas sockfd.toNat = some ctx from here] at agree
            exact agree.1
        cases called.symm.trans (accept_hooked unclosed)
        change Kept ⟨((Issue.world ⟨t, .accept sockfd addr addrlen, m⟩ s.world).original (linux memory times)
          (.accept sockfd addr addrlen)).2.create (linux memory times) m, _⟩
        exact h.changes (h.opens free rfl rfl rfl) (Agree.managed rfl rfl rfl rfl)
      | fcntl fd cmd arg =>
        rcases handles with rfl | ⟨rfl, given⟩
        · exact h.before.getfl called
        · obtain ⟨arg, rfl⟩ := Option.isSome_iff_exists.1 given
          exact h.before.setfl called
      | ioctl fd request arg =>
        cases (handles : request = FIONBIO)
        exact h.before.fionbio respects called
      | _ => cases handles
    · cases e
  · cases e

/-- A new socket whose user asked for non-blocking mode. -/
theorem created_blocking (h : Kept s) {domain type protocol : Int} {t : Thread} {m : Nat} (on : t.hookEnable = true)
    (e : Virtual.step memory times s ⟨t, .socket domain type protocol, m⟩ = some s') (virtualised : Virtualised memory times s') :
    isNonblock type = false := by
  unfold Virtual.step at e
  split at e
  · rename_i allowed
    split at e
    · rename_i r called
      cases e
      cases called.symm.trans (socket_hooked on)
      have user := (virtualised.changed (h.opens allowed.2 rfl rfl rfl) rfl rfl).2
      rw [has_opened] at user
      exact user.symm
    · cases e
  · cases e

/-- A managed socket that `FIONBIO` gives blocking mode. -/
theorem cleared_blocking (h : Kept s) {t : Thread} {arg : Ptr} {m : Nat} (managed : s.world.managed fd = some ctx)
    (e : Virtual.step memory times s ⟨t, .ioctl fd FIONBIO arg, m⟩ = some s') (virtualised : Virtualised memory times s') :
    memory arg ≠ 0 := by
  unfold Virtual.step at e
  split at e
  · split at e
    · rename_i r called
      cases e
      obtain ⟨unclosed, socket, sys⟩ := h.managed managed
      obtain ⟨f, changes⟩ := h.before.fionbioManaged managed called
      have set := (virtualised.changed changes unclosed socket).1 sys
      rw [FlagWord.has_put (by decide)] at set
      exact of_decide_eq_true set
    · cases e
  · cases e

/-- From a state of a run, one more step keeps the mode exactly under the condition. -/
theorem virtualised_iff (h : Kept s) (e : Virtual.step memory times s l = some s') :
    Virtualised memory times s' ↔ Respects memory s l := by
  constructor
  · intro virtualised
    obtain ⟨t, c, m⟩ := l
    cases c with
    | socket domain type protocol =>
      exact fun on => created_blocking h on e virtualised
    | ioctl fd request arg =>
      intro managed
      obtain ⟨ctx, managed⟩ := Option.isSome_iff_exists.1 managed
      have fionbio : request = FIONBIO := by
        unfold Virtual.step at e
        split at e
        · rename_i allowed
          exact allowed.1
        · cases e
      subst fionbio
      exact cleared_blocking h managed e virtualised
    | _ => trivial
  · exact fun respects => (h.step respects e).virtualised

end Kept

end Virtual

/-- **Main theorem.** In every run in which no thread with the hook creates a socket in
non-blocking mode, and `FIONBIO` gives no managed socket blocking mode, the mode is
virtual; and each such state keeps it in exactly these steps. -/
theorem virtualises {memory : Ptr → Int} {times : Ptr → Int × Int} {kernel : Kernel} (s : Virtual)
    (h : (Virtual.machine memory times kernel).ReachIf (Virtual.Respects memory) s) :
    Virtual.Virtualised memory times s ∧
      ∀ l s', Virtual.step memory times s l = some s' → (Virtual.Virtualised memory times s' ↔ Virtual.Respects memory s l) := by
  have kept : Virtual.Kept s := h.invariant Virtual.kept_init fun _ _ _ kept respects e => kept.step respects e
  exact ⟨kept.virtualised, fun l s' e => Virtual.virtualised_iff kept e⟩

/-- A stream socket in non-blocking mode, with `O_APPEND`. -/
theorem virtualises_setfl : ∃ s, Virtual.Virtualised (fun p => p) (fun _ => (0, 0)) s ∧
    s.ideal.files 3 = some ⟨true, 0xC02⟩ ∧ s.world.env.files 3 = some ⟨true, 0xC02⟩ ∧
    (s.world.datas 3).map FdCtx.userNonblock = some true := by
  obtain ⟨s, run, shape⟩ := Machine.reachIf_of_any (M := Virtual.machine (fun p => p) (fun _ => (0, 0)) noFiles)
    (p := fun s => decide (s.ideal.files 3 = some ⟨true, 0xC02⟩ ∧ s.world.env.files 3 = some ⟨true, 0xC02⟩ ∧
      (s.world.datas 3).map FdCtx.userNonblock = some true))
    (by decide +kernel : ((Virtual.machine (fun p => p) (fun _ => (0, 0)) noFiles).execIf (Virtual.Respects fun p => p) _
      [⟨worker, .socket 2 1 0, 3⟩, ⟨worker, .fcntl 3 F_SETFL (some 0xC00), 4⟩]).any _ = true)
  exact ⟨s, (virtualises s run).1, of_decide_eq_true shape⟩

/-- `FIONBIO` with 0 clears the kernel's flag of a managed socket, and a socket that is
created in non-blocking mode is in blocking mode for the library. -/
theorem fionbio_clears :
    (¬ ∀ (memory : Ptr → Int) (times : Ptr → Int × Int) (kernel : Kernel) (s : Virtual),
      (Virtual.machine memory times kernel).Reach s → Virtual.Virtualised memory times s) ∧
    ∃ s, (Virtual.machine (fun p => p) (fun _ => (0, 0)) noFiles).Reach s ∧ s.ideal.files 3 = some ⟨true, 0x802⟩ ∧
      (s.world.managed 3).map FdCtx.userNonblock = some false := by
  constructor
  · intro all
    obtain ⟨s, run, shape⟩ := Machine.reachIf_of_any (M := Virtual.machine (fun p => p) (fun _ => (0, 0)) noFiles)
      (p := fun s => decide (s.world.managed 3 = some { isInit := true, isSocket := true, sysNonblock := true } ∧
        s.world.env.file 3 = some ⟨true, 2⟩))
      (by decide +kernel : ((Virtual.machine (fun p => p) (fun _ => (0, 0)) noFiles).execIf (fun _ _ => True) _
        [⟨worker, .socket 2 1 0, 3⟩, ⟨worker, .ioctl 3 FIONBIO 0, 4⟩]).any _ = true)
    obtain ⟨managed, file⟩ := of_decide_eq_true shape
    obtain ⟨file', _, isFile, -, set, -⟩ := all _ _ _ s run 3 _ managed
    cases file.symm.trans isFile
    cases set rfl
  · obtain ⟨s, run, shape⟩ := Machine.reachIf_of_any (M := Virtual.machine (fun p => p) (fun _ => (0, 0)) noFiles)
      (p := fun s => decide (s.ideal.files 3 = some ⟨true, 0x802⟩ ∧ (s.world.managed 3).map FdCtx.userNonblock = some false))
      (by decide +kernel : ((Virtual.machine (fun p => p) (fun _ => (0, 0)) noFiles).execIf (fun _ _ => True) _
        [⟨worker, .socket 2 0x801 0, 3⟩]).any _ = true)
    exact ⟨s, run, of_decide_eq_true shape⟩

end Mycoroutine.Interpose
