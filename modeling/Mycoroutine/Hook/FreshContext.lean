import Mycoroutine.Hook.Kernel
import Mycoroutine.Interleave.Machine

/-!
# The context of a new socket

Sockets are opened, set and closed on threads with the hook and without, and the kernel
hands out any number that is not open. An `accept` that waited is here at its last
original call.

`FdManager::get(fd, true)` returns a context that it finds, so a new socket has a fresh
one only if the number has none: a `close` with the hook removes it, and one without
leaves it behind.
-/

namespace Mycoroutine.Interpose
set_option autoImplicit false
open Interleave Machine

/-- `last` is what `socket` or `accept` returned in the last step on a thread with the
hook, with the mode that was asked for. -/
structure Sockets where
  world : World Kernel
  last : Option (Int × Bool)

namespace Sockets

/-- The calls that open and close sockets, and set them. -/
def Handles : Call → Prop
  | .socket _ _ _ | .accept _ _ _ | .close _ | .setsockopt _ _ _ _ _ => True
  | .fcntl _ cmd arg => cmd = F_GETFL ∨ cmd = F_SETFL ∧ arg.isSome = true
  | .ioctl _ request _ => request = FIONBIO
  | _ => False

instance (c : Call) : Decidable (Handles c) := by
  unfold Handles
  split <;> infer_instance

/-- The mode that a call asks for, if it opens a socket. -/
def opens : Call → Option Bool
  | .socket _ type _ => some (isNonblock type)
  | .accept _ _ _ => some false
  | _ => none

/-- What a call returned that opened a socket with the hook. -/
def opened (l : Issue) (value : Int) : Option (Int × Bool) :=
  if l.thread.hookEnable && decide (0 ≤ value) then (opens l.call).map (value, ·) else none

section Machine

variable (memory : Ptr → Int) (times : Ptr → Int × Int)

def step (s : Sockets) (l : Issue) : Option Sockets :=
  if Handles l.call ∧ s.world.env.files l.fd = none then
    match hooked (linux memory times) l.thread (l.world s.world) 1 l.call with
    | .ok r => some { world := r.2, last := opened l r.1 }
    | .error _ => none
  else none

def machine (kernel : Kernel) : Machine Sockets Issue where
  init := { world := { env := kernel, datas := fun _ => none, errno := 0, calls := [] }, last := none }
  step := step memory times

end Machine

/-- The context is the one that `init` makes for a socket, in the mode that was asked
for, and the kernel's flag is set. -/
def Fresh (w : World Kernel) (fd : Int) (mode : Bool) : Prop :=
  w.get fd = some { isInit := true, isSocket := true, sysNonblock := true, userNonblock := mode } ∧
    ∃ f, w.env.file fd = some f ∧ f.socket = true ∧ FlagWord.has 11 f.flags = true

/-- A socket that was just returned has a fresh context. -/
def GetsFresh (s : Sockets) : Prop := ∀ fd mode, s.last = some (fd, mode) → Fresh s.world fd mode

/-- No number that has a context is closed without the hook, and no socket is created in
non-blocking mode with it. -/
def Removes (s : Sockets) (l : Issue) : Prop :=
  match l.call with
  | .close fd => l.thread.hookEnable = false → s.world.get fd = none
  | .socket _ type _ => l.thread.hookEnable = true → isNonblock type = false
  | _ => True

instance (s : Sockets) (l : Issue) : Decidable (Removes s l) := by
  unfold Removes
  split <;> infer_instance

/-- Every context is of an open number, and not marked closed. -/
def Open (w : World Kernel) : Prop :=
  ∀ m ctx, w.datas m = some ctx → ctx.isClosed = false ∧ (w.env.files m).isSome = true

section Open

variable {memory : Ptr → Int} {times : Ptr → Int × Int} {w w' : World Kernel} {fd : Int} {ctx : FdCtx} {m : Nat}

theorem Open.get (h : Open w) (here : w.get fd = some ctx) : 0 ≤ fd ∧ w.datas fd.toNat = some ctx ∧ ctx.isClosed = false := by
  unfold World.get at here
  split at here
  · cases here
  · rename_i positive
    exact ⟨Int.not_lt.1 positive, here, (h fd.toNat ctx here).1⟩

/-- No open number is closed, and the contexts stay. -/
theorem Open.mono (h : Open w) (datas : w'.datas = w.datas)
    (files : ∀ m, (w.env.files m).isSome = true → (w'.env.files m).isSome = true) : Open w' := by
  intro m ctx here
  rw [datas] at here
  exact ⟨(h m ctx here).1, files m (h m ctx here).2⟩

/-- A setting of a context. -/
theorem Open.put (h : Open w) {new : FdCtx} (here : w.get fd = some ctx) (unclosed : new.isClosed = false) : Open (w.put fd new) := by
  obtain ⟨-, here, -⟩ := h.get here
  intro m other found
  have found : Function.update w.datas fd.toNat (some new) m = some other := found
  by_cases mine : m = fd.toNat
  · subst mine
    rw [Function.update_self] at found
    cases found
    exact ⟨unclosed, (h fd.toNat ctx here).2⟩
  · rw [Function.update_of_ne mine] at found
    exact h m other found

/-- A number that is handed out. -/
theorem opened_isSome {n : Nat} {f : File} {files : Nat → Option File} (is : (files m).isSome = true) :
    (Function.update files n (some f) m).isSome = true := by
  rw [Function.update_apply]
  split
  · rfl
  · exact is

theorem edit_isSome (k : Kernel) (g : BitVec 32 → BitVec 32) (is : (k.files m).isSome = true) : (k.edit fd g m).isSome = true := by
  unfold Kernel.edit
  cases k.file fd with
  | none => exact is
  | some f => exact opened_isSome is

theorem Open.free (h : Open w) (free : w.env.files m = none) : w.datas m = none := by
  cases here : w.datas m with
  | none => rfl
  | some ctx =>
    have is := (h m ctx here).2
    rw [free] at is
    cases is

/-- A socket that is opened gets its context. -/
theorem Open.create (h : Open w) (free : w.env.files m = none) {flags : BitVec 32} (datas : w'.datas = w.datas)
    (files : w'.env.files = Function.update w.env.files m (some ⟨true, flags⟩)) :
    Open (w'.create (linux memory times) m) ∧ Fresh (w'.create (linux memory times) m) m false := by
  have none' : w'.datas (Int.toNat m) = none := by
    rw [datas, Int.toNat_natCast]
    exact h.free free
  have opened : w'.env.file m = some ⟨true, flags⟩ := by
    rw [Kernel.file, if_neg (by omega), files, Int.toNat_natCast, Function.update_self]
  obtain ⟨created, env⟩ := @create_socket memory times _ _ _ none' opened rfl
  rw [Int.toNat_natCast] at created env
  constructor
  · intro x ctx here
    rw [created] at here
    rw [env]
    by_cases mine : x = m
    · subst mine
      rw [Function.update_self] at here
      cases here
      refine ⟨rfl, ?_⟩
      dsimp only
      rw [Function.update_self]
      rfl
    · rw [Function.update_of_ne mine, datas] at here
      dsimp only
      rw [Function.update_of_ne mine, files, Function.update_of_ne mine]
      exact h x ctx here
  · refine ⟨?_, ⟨true, FlagWord.put 11 true flags⟩, ?_, rfl, FlagWord.has_put (by decide)⟩
    · rw [World.get, if_neg (by omega), Int.toNat_natCast, created, Function.update_self]
    · rw [Kernel.file, if_neg (by omega), Int.toNat_natCast, env]
      exact Function.update_self ..

/-- The calls on flags: contexts are set, and files stay open. -/
theorem Open.fcntl (h : Open w) {cmd : Int} {arg : Option Int} (own : cmd = F_GETFL ∨ cmd = F_SETFL ∧ arg.isSome = true)
    {r : Int × World Kernel} (e : Interpose.fcntl (linux memory times) w fd cmd arg = .ok r) : Open r.2 := by
  unfold Interpose.fcntl at e
  rcases own with rfl | ⟨rfl, given⟩
  · have other : F_GETFL ≠ F_SETFL := by decide
    rw [if_neg other, if_pos rfl] at e
    have same : Open (w.original (linux memory times) (.fcntl fd F_GETFL none)).2 :=
      h.mono rfl fun m is => (@getfl_files memory times w.env fd none) ▸ is
    dsimp only at e
    split at e <;>
      · cases e
        exact same
  · obtain ⟨flags, rfl⟩ := Option.isSome_iff_exists.1 given
    rw [if_pos rfl] at e
    dsimp only at e
    split at e
    · cases e
      exact h.mono rfl fun m is => (@setfl_edit memory times w.env fd flags) ▸ edit_isSome w.env _ is
    · rename_i ctx managed
      cases e
      obtain ⟨here, -⟩ := Option.filter_eq_some_iff.1 managed
      have put : Open (w.put fd { ctx with userNonblock := isNonblock flags }) := h.put here (h.get here).2.2
      exact put.mono rfl fun m is => (@setfl_edit memory times w.env fd _) ▸ edit_isSome w.env _ is

theorem Open.ioctl (h : Open w) {arg : Ptr} {r : Int × World Kernel}
    (e : Interpose.ioctl (linux memory times) w fd FIONBIO arg = .ok r) : Open r.2 := by
  unfold Interpose.ioctl at e
  rw [if_pos rfl] at e
  dsimp only [linux] at e
  split at e
  · cases e
    exact h.mono rfl fun m is => (@fionbio_edit memory times w.env fd arg) ▸ edit_isSome w.env _ is
  · rename_i ctx managed
    cases e
    obtain ⟨here, -⟩ := Option.filter_eq_some_iff.1 managed
    have put : Open (w.put fd { ctx with userNonblock := decide (memory arg ≠ 0) }) := h.put here (h.get here).2.2
    exact put.mono rfl fun m is => (@fionbio_edit memory times w.env fd arg) ▸ edit_isSome w.env _ is

theorem Open.setsockopt (h : Open w) {t : Thread} {level optname : Int} {optval : Ptr} {optlen : Nat} {r : Int × World Kernel}
    (e : Interpose.setsockopt (linux memory times) t w fd level optname optval optlen = .ok r) : Open r.2 := by
  unfold Interpose.setsockopt at e
  dsimp only [linux] at e
  split at e
  · split at e
    · split at e
      · cases e
        exact h.mono rfl fun _ => id
      · rename_i ctx here
        cases e
        have unclosed (v : Nat) : (ctx.setTimeout optname v).isClosed = false := by
          unfold FdCtx.setTimeout
          split <;> exact (h.get here).2.2
        exact (h.put here (unclosed _)).mono rfl fun _ => id
    · cases e
      exact h.mono rfl fun _ => id
  · cases e
    exact h.mono rfl fun _ => id

/-- A number without a context is closed. -/
theorem Open.closes (h : Open w) (free : 0 ≤ fd → w'.datas fd.toNat = none)
    (datas : ∀ m, m ≠ fd.toNat ∨ fd < 0 → w'.datas m = w.datas m) (files : w'.env = w.env) :
    Open (w'.original (linux memory times) (.close fd)).2 := by
  intro m ctx here
  have here : w'.datas m = some ctx := here
  by_cases mine : m = fd.toNat ∧ 0 ≤ fd
  · cases (mine.1 ▸ here).symm.trans (free mine.2)
  · have before : w.datas m = some ctx := (datas m (by omega)).symm.trans here
    obtain ⟨unclosed, is⟩ := h m ctx before
    refine ⟨unclosed, ?_⟩
    simp only [World.original, linux, Kernel.on, Kernel.file, files]
    by_cases negative : fd < 0
    · rw [if_pos negative]
      exact is
    · rw [if_neg negative]
      cases w.env.files fd.toNat with
      | none => exact is
      | some f =>
        dsimp only
        rw [Function.update_of_ne (by omega)]
        exact is

theorem Open.close (h : Open w) {t : Thread} (removes : t.hookEnable = false → w.get fd = none) {r : Int × World Kernel}
    (e : Interpose.close (linux memory times) t w fd = .ok r) : Open r.2 := by
  have without (none' : w.get fd = none) : Open (w.original (linux memory times) (.close fd)).2 := by
    refine h.closes (fun positive => ?_) (fun _ _ => rfl) rfl
    rw [World.get, if_neg (Int.not_lt.2 positive)] at none'
    exact none'
  unfold Interpose.close at e
  split at e
  · split at e
    · rename_i none'
      cases e
      exact without none'
    · rename_i ctx here
      cases e
      obtain ⟨positive, -⟩ := h.get here
      refine h.closes (fun _ => Function.update_self ..) (fun m other => ?_) ?_
      · have ne : m ≠ fd.toNat := by omega
        unfold World.del
        dsimp only
        rw [Function.update_of_ne ne]
        split <;> exact Function.update_of_ne ne ..
      · unfold World.del
        split <;> rfl
  · rename_i off
    cases e
    exact without (removes (Bool.eq_false_iff.2 off))

end Open

/-! ## Runs -/

section Kept

variable {memory : Ptr → Int} {times : Ptr → Int × Int} {kernel : Kernel} {s s' : Sockets} {l : Issue}

/-- A socket that is created without a context to find. -/
theorem socket_opened {t : Thread} {domain type protocol : Int} (on : t.hookEnable = true) {m : Nat} :
    opened ⟨t, .socket domain type protocol, m⟩ m = some ((m : Int), isNonblock type) := by
  have given : (t.hookEnable && decide (0 ≤ (m : Int))) = true := by
    rw [on, decide_eq_true (Int.natCast_nonneg m)]
    rfl
  exact if_pos given

/-- Without the hook, `socket` is the original. -/
theorem socket_unhooked {t : Thread} {w : World Kernel} {domain type protocol : Int} (off : ¬ t.hookEnable = true) :
    socket (linux memory times) t w domain type protocol = .ok (w.original (linux memory times) (.socket domain type protocol)) :=
  if_neg off

theorem unhooked_opened {t : Thread} (off : ¬ t.hookEnable = true) {c : Call} {m : Nat} {value : Int} :
    opened ⟨t, c, m⟩ value = none := by
  unfold opened
  rw [Bool.eq_false_iff.2 off]
  rfl

theorem init_open : Open (machine memory times kernel).init.world ∧ GetsFresh (machine memory times kernel).init :=
  ⟨nofun, nofun⟩

theorem step_open (h : Open s.world) (removes : Removes s l) (e : step memory times s l = some s') :
    Open s'.world ∧ GetsFresh s' := by
  unfold step at e
  split at e
  · rename_i allowed
    obtain ⟨handles, free⟩ := allowed
    split at e
    · rename_i r called
      cases e
      have h : Open (l.world s.world) := h
      obtain ⟨t, c, m⟩ := l
      -- the calls that open no socket
      have settled (none' : opens c = none) (kept : Open r.2) :
          Open r.2 ∧ GetsFresh ⟨r.2, opened ⟨t, c, m⟩ r.1⟩ := by
        refine ⟨kept, fun fd mode last => ?_⟩
        have last : opened ⟨t, c, m⟩ r.1 = some (fd, mode) := last
        unfold opened at last
        rw [none'] at last
        split at last <;> cases last
      cases c with
      | socket domain type protocol =>
        by_cases on : t.hookEnable = true
        · cases called.symm.trans (socket_hooked on)
          obtain ⟨kept, fresh⟩ := @Open.create memory times _
            ((Issue.world ⟨t, .socket domain type protocol, m⟩ s.world).original (linux memory times) (.socket domain type protocol)).2
            m h free _ rfl rfl
          refine ⟨kept, fun fd mode last => ?_⟩
          cases (socket_opened on).symm.trans last
          rw [(removes on : isNonblock type = false)]
          exact fresh
        · cases called.symm.trans (socket_unhooked on)
          refine ⟨h.mono rfl fun x is => opened_isSome is, fun fd mode last => ?_⟩
          cases (unhooked_opened on).symm.trans last
      | accept sockfd addr addrlen =>
        cases called.symm.trans (accept_hooked fun ctx here => (h.get here).2.2)
        obtain ⟨kept, fresh⟩ := @Open.create memory times _
          ((Issue.world ⟨t, .accept sockfd addr addrlen, m⟩ s.world).original (linux memory times) (.accept sockfd addr addrlen)).2
          m h free _ rfl rfl
        refine ⟨kept, fun fd mode last => ?_⟩
        have last : opened ⟨t, .accept sockfd addr addrlen, m⟩ (m : Int) = some (fd, mode) := last
        unfold opened at last
        split at last
        · cases last
          exact fresh
        · cases last
      | close fd => exact settled rfl (h.close removes called)
      | setsockopt sockfd level optname optval optlen => exact settled rfl (h.setsockopt called)
      | fcntl fd cmd arg => exact settled rfl (h.fcntl handles called)
      | ioctl fd request arg =>
        cases (handles : request = FIONBIO)
        exact settled rfl (h.ioctl called)
      | _ => cases handles
    · cases e
  · cases e

/-! ## Steps that do not remove -/

/-- What `socket` gives with the hook, at a number that is not open. -/
theorem step_socket {t : Thread} {domain type protocol : Int} {m : Nat} (on : t.hookEnable = true) (free : s.world.env.files m = none) :
    step memory times s ⟨t, .socket domain type protocol, m⟩ = some
      { world := ((Issue.world ⟨t, .socket domain type protocol, m⟩ s.world).original (linux memory times)
          (.socket domain type protocol)).2.create (linux memory times) m
        last := some ((m : Int), isNonblock type) } := by
  unfold step
  rw [if_pos ⟨trivial, free⟩]
  show (match socket (linux memory times) t (Issue.world ⟨t, .socket domain type protocol, m⟩ s.world) domain type protocol with
    | .ok r => some (Sockets.mk r.2 (opened ⟨t, .socket domain type protocol, m⟩ r.1))
    | .error _ => none) = _
  rw [socket_hooked on]
  exact congrArg (fun last => some (Sockets.mk _ last)) (socket_opened on)

/-- A context in blocking mode for a socket that is created in non-blocking mode. -/
theorem stale_mode (h : Open s.world) {t : Thread} {domain type protocol : Int} {m : Nat} (on : t.hookEnable = true)
    (e : step memory times s ⟨t, .socket domain type protocol, m⟩ = some s') (fresh : GetsFresh s') : isNonblock type = false := by
  have free : s.world.env.files m = none := by
    unfold step at e
    split at e
    · rename_i allowed
      exact allowed.2
    · cases e
  cases e.symm.trans (step_socket on free)
  obtain ⟨-, created, -⟩ := @Open.create memory times _
    ((Issue.world ⟨t, .socket domain type protocol, m⟩ s.world).original (linux memory times) (.socket domain type protocol)).2
    m h free _ rfl rfl
  obtain ⟨asked, -⟩ := fresh m _ rfl
  cases mode : isNonblock type with
  | false => rfl
  | true =>
    rw [mode] at asked
    cases created.symm.trans asked

/-- A number that has a context although it is not open: the next socket there finds it. -/
theorem stale_found {m : Nat} (here : (s.world.datas m).isSome = true) (free : s.world.env.files m = none) {t : Thread}
    (on : t.hookEnable = true) : ∃ s', step memory times s ⟨t, .socket 2 1 0, m⟩ = some s' ∧ ¬ GetsFresh s' := by
  refine ⟨_, step_socket on free, fun fresh => ?_⟩
  obtain ⟨ctx, here⟩ := Option.isSome_iff_exists.1 here
  obtain ⟨-, f, found, -, set⟩ := fresh m _ rfl
  have kept : ((Issue.world ⟨t, .socket 2 1 0, m⟩ s.world).original (linux memory times) (.socket 2 1 0)).2.create (linux memory times) m =
      ((Issue.world ⟨t, .socket 2 1 0, m⟩ s.world).original (linux memory times) (.socket 2 1 0)).2 := by
    unfold World.create
    split
    · rfl
    · rename_i none'
      cases here.symm.trans none'
  dsimp only at found
  rw [kept, Kernel.file, if_neg (by omega), Int.toNat_natCast] at found
  have flags : some ⟨true, O_RDWR ||| (BitVec.ofInt 32 1 &&& O_NONBLOCK)⟩ = some f := by
    rw [← found]
    exact (Function.update_self m (some (File.mk true _)) s.world.env.files).symm
  cases flags
  rw [has_opened] at set
  cases set

/-- A number is closed without the hook, and keeps its context. -/
theorem stale_closed (h : Open s.world) {t : Thread} {fd : Int} {m : Nat} (off : ¬ t.hookEnable = true) {ctx : FdCtx}
    (here : s.world.get fd = some ctx) (e : step memory times s ⟨t, .close fd, m⟩ = some s') :
    (s'.world.datas fd.toNat).isSome = true ∧ s'.world.env.files fd.toNat = none := by
  obtain ⟨positive, found, -⟩ := h.get here
  unfold step at e
  split at e
  · split at e
    · rename_i r called
      cases e
      have closed : Interpose.close (linux memory times) t (Issue.world ⟨t, .close fd, m⟩ s.world) fd =
          .ok ((Issue.world ⟨t, .close fd, m⟩ s.world).original (linux memory times) (.close fd)) := if_neg off
      cases called.symm.trans closed
      refine ⟨Option.isSome_iff_exists.2 ⟨ctx, found⟩, ?_⟩
      obtain ⟨f, file⟩ := Option.isSome_iff_exists.1 (h fd.toNat ctx found).2
      simp only [World.original, linux, Kernel.on, Kernel.file, Issue.world, if_neg (Int.not_lt.2 positive), file, Function.update_self]
    · cases e
  · cases e

/-- From a state of a run, one more step keeps the contexts fresh, then and after the next
step, exactly under the condition. -/
theorem removes_iff (h : Open s.world) (e : step memory times s l = some s') :
    (GetsFresh s' ∧ ∀ l' s'', Removes s' l' → step memory times s' l' = some s'' → GetsFresh s'') ↔ Removes s l := by
  constructor
  · rintro ⟨fresh, after⟩
    obtain ⟨t, c, m⟩ := l
    cases c with
    | socket domain type protocol => exact fun on => stale_mode h on e fresh
    | close fd =>
      intro off
      cases here : s.world.get fd with
      | none => rfl
      | some ctx =>
        obtain ⟨kept, free⟩ := stale_closed h (Bool.eq_false_iff.1 off) here e
        obtain ⟨s'', e', stale⟩ := @stale_found memory times _ _ kept free ⟨true, true⟩ rfl
        have blocking : Removes s' ⟨⟨true, true⟩, .socket 2 1 0, fd.toNat⟩ := fun _ => by decide
        exact absurd (after _ s'' blocking e') stale
    | _ => trivial
  · intro removes
    obtain ⟨opened, fresh⟩ := step_open h removes e
    exact ⟨fresh, fun l' s'' removes' e' => (step_open opened removes' e').2⟩

end Kept

end Sockets

/-- **Main theorem.** In every run in which no number that has a context is closed without
the hook, and no socket is created in non-blocking mode with it, each new socket has a
fresh context; and from each such state exactly these steps keep it so. -/
theorem gets_fresh_context {memory : Ptr → Int} {times : Ptr → Int × Int} {kernel : Kernel} (s : Sockets)
    (h : (Sockets.machine memory times kernel).ReachIf Sockets.Removes s) :
    Sockets.GetsFresh s ∧ ∀ l s', Sockets.step memory times s l = some s' →
      ((Sockets.GetsFresh s' ∧ ∀ l' s'', Sockets.Removes s' l' → Sockets.step memory times s' l' = some s'' →
        Sockets.GetsFresh s'') ↔ Sockets.Removes s l) := by
  have kept : Sockets.Open s.world ∧ Sockets.GetsFresh s :=
    h.invariant Sockets.init_open fun _ _ _ kept removes e => Sockets.step_open kept.1 removes e
  exact ⟨kept.2, fun l s' e => Sockets.removes_iff kept.1 e⟩

/-- A socket with a timeout and in non-blocking mode is closed, and the number is used
again. -/
theorem gets_fresh_context_reuse : ∃ s, Sockets.GetsFresh s ∧ s.last = some (3, false) ∧ s.world.calls.length = 9 := by
  obtain ⟨s, run, shape⟩ := Machine.reachIf_of_any (M := Sockets.machine (fun p => p) (fun _ => (1, 0)) noFiles)
    (p := fun s => decide (s.last = some (3, false) ∧ s.world.calls.length = 9))
    (by decide +kernel : ((Sockets.machine (fun p => p) (fun _ => (1, 0)) noFiles).execIf Sockets.Removes _
      [⟨worker, .socket 2 1 0, 3⟩, ⟨worker, .setsockopt 3 SOL_SOCKET SO_RCVTIMEO 0 16, 4⟩,
        ⟨worker, .fcntl 3 F_SETFL (some 0x800), 4⟩, ⟨worker, .close 3, 4⟩, ⟨worker, .socket 2 1 0, 3⟩]).any _ = true)
  exact ⟨s, (gets_fresh_context s run).1, of_decide_eq_true shape⟩

/-- The number is closed on a thread without the hook: the next socket there has the
timeout and the mode of the last, and the kernel's flag is not set. -/
theorem finds_old_context : (¬ ∀ (memory : Ptr → Int) (times : Ptr → Int × Int) (kernel : Kernel) (s : Sockets),
      (Sockets.machine memory times kernel).Reach s → Sockets.GetsFresh s) ∧
    ∃ s, (Sockets.machine (fun p => p) (fun _ => (1, 0)) noFiles).Reach s ∧ s.last = some (3, false) ∧
      (s.world.get 3).map FdCtx.recvTimeout = some 1000 ∧ (s.world.get 3).map FdCtx.userNonblock = some true ∧
      s.world.env.file 3 = some ⟨true, O_RDWR⟩ := by
  have stale : ∃ s, (Sockets.machine (fun p => p) (fun _ => (1, 0)) noFiles).Reach s ∧ s.last = some (3, false) ∧
      (s.world.get 3).map FdCtx.recvTimeout = some 1000 ∧ (s.world.get 3).map FdCtx.userNonblock = some true ∧
      s.world.env.file 3 = some ⟨true, O_RDWR⟩ := by
    obtain ⟨s, run, shape⟩ := Machine.reachIf_of_any (M := Sockets.machine (fun p => p) (fun _ => (1, 0)) noFiles)
      (p := fun s => decide (s.last = some (3, false) ∧ (s.world.get 3).map FdCtx.recvTimeout = some 1000 ∧
        (s.world.get 3).map FdCtx.userNonblock = some true ∧ s.world.env.file 3 = some ⟨true, O_RDWR⟩))
      (by decide +kernel : ((Sockets.machine (fun p => p) (fun _ => (1, 0)) noFiles).execIf (fun _ _ => True) _
        [⟨worker, .socket 2 1 0, 3⟩, ⟨worker, .setsockopt 3 SOL_SOCKET SO_RCVTIMEO 0 16, 4⟩,
          ⟨worker, .fcntl 3 F_SETFL (some 0x800), 4⟩, ⟨⟨false, false⟩, .close 3, 4⟩, ⟨worker, .socket 2 1 0, 3⟩]).any _ = true)
    exact ⟨s, run, of_decide_eq_true shape⟩
  refine ⟨fun all => ?_, stale⟩
  obtain ⟨s, run, last, -, -, file⟩ := stale
  obtain ⟨-, f, found, -, set⟩ := all _ _ _ s run 3 false last
  cases file.symm.trans found
  cases set

end Mycoroutine.Interpose
