import Mycoroutine.Hook.Interpose

/-!
# Calls that are the original calls

A function passes a call through when it makes this one original call, returns what it
gives, and changes nothing else. A thread whose hook is disabled expects it of every
function, and others expect it of the calls on descriptors that the library leaves alone.

`accept`, `fcntl` and `ioctl` do not test the hook for all that they do; `connect` and
`do_io` differ in what they do without a context; and `fcntl` forwards the argument of
the commands it knows only. Which commands take a third argument is the kernel's to say:
`takes` is a parameter.
-/

namespace Mycoroutine.Interpose
set_option autoImplicit false
open IOManager

section Statement

variable {σ : Type} (E : Env σ) (t : Thread) (w : World σ) (n : Nat)

/-- The call is the original call. -/
def Same (c : Call) : Prop := hooked E t w n c = .ok (w.original E c)

/-- The descriptor that a call reads or writes, in the library's terms. -/
def Call.io : Call → Option (Int × Event × Int)
  | .read fd _ _ | .readv fd _ _ | .recv fd _ _ _ | .recvfrom fd _ _ _ _ _ | .recvmsg fd _ _ =>
    some (fd, .read, SO_RCVTIMEO)
  | .write fd _ _ | .writev fd _ _ | .send fd _ _ _ | .sendto fd _ _ _ _ _ | .sendmsg fd _ _ =>
    some (fd, .write, SO_SNDTIMEO)
  | _ => none

/-- The descriptor of `connect` or of a call that reads or writes. -/
def Call.target : Call → Option Int
  | .connect fd _ _ => some fd
  | c => c.io.map (·.1)

/-- The library leaves the descriptor alone: it has no context, it is no socket, or its
user asked for non-blocking mode. -/
def Bypassed (c : Call) : Prop :=
  ∃ fd, c.target = some fd ∧ ∀ ctx, w.get fd = some ctx → ctx.isSocket = false ∨ ctx.userNonblock = true

/-- The third argument arrives at the original `fcntl`, but for the bit that the library
keeps of `F_SETFL`. -/
def Forwards (fd cmd arg : Int) : Prop :=
  ∃ r w' arg', hooked E t w n (.fcntl fd cmd (some arg)) = .ok (r, w') ∧
    w'.calls = w.calls ++ [.fcntl fd cmd (some arg')] ∧
    (arg' = arg ∨ cmd = F_SETFL ∧ ∃ nonblock, arg' = withNonblock nonblock arg)

/-- A call passes through, on a thread whose hook is disabled or on a descriptor that the
library leaves alone; and `fcntl` forwards the third argument of a command that takes one. -/
structure PassesThrough (takes : Int → Prop) (c : Call) : Prop where
  disabled : t.hookEnable = false → Same E t w n c
  bypassed : t.hookEnable = true → Bypassed w c → Same E t w n c
  forwards : ∀ fd cmd arg, c = .fcntl fd cmd (some arg) → takes cmd → Forwards E t w n fd cmd arg

/-! ## The condition -/

/-- When `fcntl` is the original call. The virtual mode of a socket that the library
manages must be that of the call. -/
def FcntlPasses (fd cmd : Int) (arg : Option Int) : Prop :=
  if cmd = F_SETFL then
    ∃ flags, arg = some flags ∧
      ∀ ctx, w.managed fd = some ctx → ctx.userNonblock = isNonblock flags ∧ withNonblock ctx.sysNonblock flags = flags
  else if cmd = F_GETFL then
    arg = none ∧ ∀ ctx, w.managed fd = some ctx →
      withNonblock ctx.userNonblock (w.original E (.fcntl fd cmd none)).1 = (w.original E (.fcntl fd cmd none)).1
  else if cmd ∈ forwarded then arg.isSome = true
  else arg = none

/-- When a thread whose hook is disabled gets the original call. -/
def Untouched : Call → Prop
  | .accept fd addr addrlen =>
    let r := w.original E (.accept fd addr addrlen)
    r.1 < 0 ∨ (w.datas r.1.toNat).isSome = true
  | .fcntl fd cmd arg => FcntlPasses E w fd cmd arg
  | .ioctl fd request arg =>
    request = FIONBIO → ∃ v, E.int w.env arg = some v ∧
      ∀ ctx, w.managed fd = some ctx → ctx.userNonblock = decide (v ≠ 0)
  | _ => True

/-- When a call on a descriptor that the library leaves alone is the original call: no
context of it is marked closed, and `connect` finds one. -/
def Unmarked (c : Call) : Prop :=
  ∀ fd, c.target = some fd →
    match w.get fd with
    | none => c.io.isSome = true
    | some ctx => ctx.isClosed = false

structure Passes (takes : Int → Prop) (c : Call) : Prop where
  disabled : t.hookEnable = false → Untouched E w c
  bypassed : t.hookEnable = true → Bypassed w c → Unmarked w c
  forwards : ∀ fd cmd arg, c = .fcntl fd cmd (some arg) → takes cmd → cmd = F_SETFL ∨ cmd ∈ forwarded

end Statement

section Original

variable {σ : Type} {E : Env σ} {t : Thread} {w : World σ} {n : Nat} {fd : Int} {c : Call}

@[simp] theorem original_datas : (w.original E c).2.datas = w.datas := rfl

@[simp] theorem original_calls : (w.original E c).2.calls = w.calls ++ [c] := rfl

@[simp] theorem original_get : (w.original E c).2.get fd = w.get fd := rfl

@[simp] theorem original_managed : (w.original E c).2.managed fd = w.managed fd := rfl

/-- A call that makes no original call is not the original call. -/
theorem halted_ne {errno : Int} : (Except.ok (-1, { w with errno }) : Outcome σ) ≠ .ok (w.original E c) := by
  intro same
  injection same with same
  have length := congrArg (·.2.calls.length) same
  simp only [original_calls, List.length_append, List.length_singleton] at length
  omega

theorem original_inj {a b : Call} (same : w.original E a = w.original E b) : a = b := by
  have calls := congrArg (·.2.calls) same
  exact List.singleton_inj.1 (List.append_cancel_left calls)

/-! ## Calls that may wait -/

theorem doIo_disabled {event : Event} {timeoutSo : Int} (off : t.hookEnable = false) :
    doIo E t w n fd c event timeoutSo = .ok (w.original E c) := by
  unfold doIo
  rw [off]
  rfl

theorem doIo_bypassed {event : Event} {timeoutSo : Int} (on : t.hookEnable = true)
    (alone : ∀ ctx, w.get fd = some ctx → ctx.isSocket = false ∨ ctx.userNonblock = true) :
    doIo E t w n fd c event timeoutSo = .ok (w.original E c) ↔ ∀ ctx, w.get fd = some ctx → ctx.isClosed = false := by
  unfold doIo
  rw [if_pos on]
  cases here : w.get fd with
  | none =>
    refine iff_of_true rfl fun ctx some => ?_
    cases some
  | some ctx =>
    have bypass : (!ctx.isSocket || ctx.userNonblock) = true := by
      rcases alone ctx here with off | user
      · rw [off]
        rfl
      · rw [user, Bool.or_true]
    simp only [bypass, if_true]
    split
    · rename_i closed
      refine iff_of_false halted_ne fun all => ?_
      cases (all ctx rfl).symm.trans closed
    · rename_i unclosed
      refine iff_of_true rfl fun other same => ?_
      cases same
      exact Bool.eq_false_iff.2 unclosed

theorem connect_bypassed {addr : Ptr} {addrlen : Nat} (on : t.hookEnable = true)
    (alone : ∀ ctx, w.get fd = some ctx → ctx.isSocket = false ∨ ctx.userNonblock = true) :
    connect E t w fd addr addrlen = .ok (w.original E (.connect fd addr addrlen)) ↔
      ∃ ctx, w.get fd = some ctx ∧ ctx.isClosed = false := by
  unfold connect connectWithTimeout
  simp only [on, if_true]
  cases here : w.get fd with
  | none => exact iff_of_false halted_ne nofun
  | some ctx =>
    dsimp only
    split
    · rename_i closed
      refine iff_of_false halted_ne ?_
      rintro ⟨other, same, unclosed⟩
      cases same
      cases unclosed.symm.trans closed
    · rename_i unclosed
      have found : ∃ other, some ctx = some other ∧ other.isClosed = false :=
        ⟨ctx, rfl, Bool.eq_false_iff.2 unclosed⟩
      split
      · exact iff_of_true rfl found
      · rename_i socket
        rw [if_pos ((alone ctx here).resolve_left fun off => socket (by rw [off]; rfl))]
        exact iff_of_true rfl found

theorem hooked_io {event : Event} {timeoutSo : Int} (io : c.io = some (fd, event, timeoutSo)) :
    hooked E t w n c = doIo E t w n fd c event timeoutSo := by
  cases c <;> cases io <;> rfl

/-! ## Settings -/

/-- A setting changes nothing exactly if the context has it already. -/
theorem put_datas {ctx : FdCtx} : (w.put fd ctx).datas = w.datas ↔ w.datas fd.toNat = some ctx := by
  constructor
  · intro same
    rw [← same]
    exact Function.update_self ..
  · intro here
    show Function.update w.datas fd.toNat (some ctx) = w.datas
    rw [← here]
    exact Function.update_eq_self ..

theorem managed_datas {ctx : FdCtx} (managed : w.managed fd = some ctx) : w.datas fd.toNat = some ctx := by
  obtain ⟨here, -⟩ := Option.filter_eq_some_iff.1 managed
  unfold World.get at here
  split at here
  · cases here
  · exact here

theorem put_managed {ctx new : FdCtx} (managed : w.managed fd = some ctx) :
    (w.put fd new).datas = w.datas ↔ ctx = new := by
  rw [put_datas, managed_datas managed, Option.some_inj]

/-- `FdManager::get(fd, true)` changes nothing exactly if it finds a context. -/
theorem create_same : w.create E fd = w ↔ (w.datas fd.toNat).isSome = true := by
  unfold World.create
  cases here : w.datas fd.toNat with
  | some ctx => exact iff_of_true rfl rfl
  | none =>
    refine iff_of_false (fun same => ?_) (by nofun)
    have datas := congrFun (congrArg World.datas same) fd.toNat
    rw [here] at datas
    exact absurd ((Function.update_self ..).symm.trans datas) (by nofun)

/-! ## The functions that do not test the hook -/

theorem accept_disabled {addr addrlen : Ptr} (off : t.hookEnable = false) :
    accept E t w n fd addr addrlen = .ok (w.original E (.accept fd addr addrlen)) ↔ Untouched E w (.accept fd addr addrlen) := by
  unfold accept
  rw [doIo_disabled off]
  show _ ↔ (w.original E (.accept fd addr addrlen)).1 < 0 ∨
    ((w.original E (.accept fd addr addrlen)).2.datas (w.original E (.accept fd addr addrlen)).1.toNat).isSome = true
  generalize w.original E (.accept fd addr addrlen) = r
  show (.ok (if 0 ≤ r.1 then (r.1, r.2.create E r.1) else r) : Outcome σ) = .ok r ↔ _
  rw [Except.ok.injEq]
  split
  · rename_i accepted
    have same : (r.1, r.2.create E r.1) = r ↔ r.2.create E r.1 = r.2 := by
      rw [Prod.ext_iff]
      exact and_iff_right rfl
    rw [same, create_same, or_iff_right (Int.not_lt.2 accepted)]
  · rename_i failed
    exact iff_of_true rfl (.inl (Int.not_le.1 failed))

theorem fcntl_same {cmd : Int} {arg : Option Int} :
    fcntl E w fd cmd arg = .ok (w.original E (.fcntl fd cmd arg)) ↔ FcntlPasses E w fd cmd arg := by
  unfold fcntl FcntlPasses
  have sent : arg = none ↔ w.original E (.fcntl fd cmd none) = w.original E (.fcntl fd cmd arg) := by
    constructor
    · rintro rfl
      rfl
    · intro same
      injection original_inj same with _ _ none'
      exact none'.symm
  split
  · cases arg with
    | none => exact iff_of_false (by nofun) (by rintro ⟨flags, absent, -⟩; cases absent)
    | some flags =>
      dsimp only
      cases managed : w.managed fd with
      | none => exact iff_of_true rfl ⟨flags, rfl, nofun⟩
      | some ctx =>
        dsimp only
        rw [Except.ok.injEq]
        constructor
        · intro same
          have datas : (w.put fd { ctx with userNonblock := isNonblock flags }).datas = w.datas := congrArg (·.2.datas) same
          have calls : w.calls ++ [.fcntl fd cmd (some (withNonblock ctx.sysNonblock flags))] = w.calls ++ [.fcntl fd cmd (some flags)] :=
            congrArg (·.2.calls) same
          have user := congrArg FdCtx.userNonblock ((put_managed managed).1 datas)
          have sent := List.singleton_inj.1 (List.append_cancel_left calls)
          injection sent with _ _ sent
          injection sent with sent
          refine ⟨flags, rfl, fun other found => ?_⟩
          cases found
          exact ⟨user, sent⟩
        · rintro ⟨_, ⟨⟩, all⟩
          obtain ⟨user, sent⟩ := all ctx rfl
          have unchanged : { ctx with userNonblock := isNonblock flags } = ctx := by rw [← user]
          have put : w.put fd ctx = w := congrArg (fun datas => { w with datas }) ((put_managed managed).2 rfl)
          rw [unchanged, sent, put]
  · split
    · dsimp only
      rw [original_managed]
      cases managed : w.managed fd with
      | none =>
        dsimp only
        rw [Except.ok.injEq, ← sent]
        exact (and_iff_left nofun).symm
      | some ctx =>
        dsimp only
        rw [Except.ok.injEq]
        constructor
        · intro same
          have calls : w.calls ++ [.fcntl fd cmd none] = w.calls ++ [.fcntl fd cmd arg] := congrArg (·.2.calls) same
          injection List.singleton_inj.1 (List.append_cancel_left calls) with _ _ none'
          subst none'
          refine ⟨rfl, fun other found => ?_⟩
          cases found
          exact congrArg (·.1) same
        · rintro ⟨rfl, all⟩
          rw [all ctx rfl]
    · split
      · cases arg with
        | none => exact iff_of_false (by nofun) (by nofun)
        | some arg => exact iff_of_true rfl rfl
      · rw [ite_self, Except.ok.injEq]
        exact sent.symm

theorem ioctl_same {request : Nat} {arg : Ptr} :
    ioctl E w fd request arg = .ok (w.original E (.ioctl fd request arg)) ↔ Untouched E w (.ioctl fd request arg) := by
  unfold ioctl
  show _ ↔ (request = FIONBIO → ∃ v, E.int w.env arg = some v ∧
    ∀ ctx, w.managed fd = some ctx → ctx.userNonblock = decide (v ≠ 0))
  split
  · rename_i fionbio
    cases here : E.int w.env arg with
    | none =>
      refine iff_of_false (by nofun) fun all => ?_
      obtain ⟨v, readable, -⟩ := all fionbio
      cases readable
    | some v =>
      dsimp only
      cases managed : w.managed fd with
      | none => exact iff_of_true rfl fun _ => ⟨v, rfl, nofun⟩
      | some ctx =>
        dsimp only
        rw [Except.ok.injEq]
        constructor
        · intro same _
          have datas : (w.put fd { ctx with userNonblock := decide (v ≠ 0) }).datas = w.datas := congrArg (·.2.datas) same
          refine ⟨v, rfl, fun other found => ?_⟩
          cases found
          exact congrArg FdCtx.userNonblock ((put_managed managed).1 datas)
        · intro all
          obtain ⟨_, ⟨⟩, user⟩ := all fionbio
          have unchanged : { ctx with userNonblock := decide (v ≠ 0) } = ctx := by rw [← user ctx rfl]
          have put : w.put fd ctx = w := congrArg (fun datas => { w with datas }) ((put_managed managed).2 rfl)
          rw [unchanged, put]
  · rename_i other
    exact iff_of_true rfl fun fionbio => absurd fionbio other

/-! ## The three parts -/

theorem disabled_iff (off : t.hookEnable = false) : Same E t w n c ↔ Untouched E w c := by
  cases c with
  | accept sockfd addr addrlen => exact accept_disabled off
  | fcntl fd cmd arg => exact fcntl_same
  | ioctl fd request arg => exact ioctl_same
  | sleep seconds =>
    refine iff_of_true ?_ trivial
    show sleep E t w seconds = _
    rw [sleep, off]
    rfl
  | usleep usec =>
    refine iff_of_true ?_ trivial
    show usleep E t w usec = _
    rw [usleep, off]
    rfl
  | nanosleep req rem =>
    refine iff_of_true ?_ trivial
    show nanosleep E t w req rem = _
    rw [nanosleep, off]
    rfl
  | socket domain type protocol =>
    refine iff_of_true ?_ trivial
    show socket E t w domain type protocol = _
    rw [socket, off]
    rfl
  | connect sockfd addr addrlen =>
    refine iff_of_true ?_ trivial
    show connect E t w sockfd addr addrlen = _
    rw [connect, connectWithTimeout, off]
    rfl
  | close fd =>
    refine iff_of_true ?_ trivial
    show close E t w fd = _
    rw [close, off]
    rfl
  | getsockopt => exact iff_of_true rfl trivial
  | setsockopt sockfd level optname optval optlen =>
    refine iff_of_true ?_ trivial
    show setsockopt E t w sockfd level optname optval optlen = _
    rw [setsockopt, off]
    rfl
  | _ =>
    refine iff_of_true ?_ trivial
    exact (hooked_io rfl).trans (doIo_disabled off)

theorem bypassed_iff (on : t.hookEnable = true) (bypassed : Bypassed w c) : Same E t w n c ↔ Unmarked w c := by
  obtain ⟨fd, target, alone⟩ := bypassed
  have unmarked : Unmarked w c ↔ match w.get fd with
      | none => c.io.isSome = true
      | some ctx => ctx.isClosed = false := by
    constructor
    · intro all
      exact all fd target
    · intro one other target'
      cases target.symm.trans target'
      exact one
  rw [unmarked]
  by_cases io : c.io.isSome = true
  · obtain ⟨⟨fd', event, timeoutSo⟩, io⟩ := Option.isSome_iff_exists.1 io
    have same : fd' = fd := by
      cases c <;> cases io <;> exact Option.some.inj target
    subst same
    rw [Same, hooked_io io, doIo_bypassed on alone]
    cases w.get fd' with
    | none => exact iff_of_true nofun (io ▸ rfl)
    | some ctx => exact ⟨fun all => all ctx rfl, fun unclosed other found => by cases found; exact unclosed⟩
  · cases c with
    | connect sockfd addr addrlen =>
      cases target
      show connect E t w fd addr addrlen = _ ↔ _
      rw [connect_bypassed on alone]
      cases w.get fd with
      | none => exact iff_of_false nofun nofun
      | some ctx => exact ⟨by rintro ⟨_, ⟨⟩, unclosed⟩; exact unclosed, fun unclosed => ⟨ctx, rfl, unclosed⟩⟩
    | sleep | usleep | nanosleep | socket | accept | close | fcntl | ioctl | getsockopt | setsockopt => cases target
    | _ => exact absurd rfl io

theorem forwards_iff {cmd arg : Int} : Forwards E t w n fd cmd arg ↔ cmd = F_SETFL ∨ cmd ∈ forwarded := by
  have bare {r : Int} {w' : World σ} (e : (.ok (r, w') : Outcome σ) = .ok (w.original E (.fcntl fd cmd none)))
      {arg' : Int} : w'.calls ≠ w.calls ++ [.fcntl fd cmd (some arg')] := by
    intro calls
    injection e with e
    cases (congrArg (·.2.calls) e).symm.trans calls |> List.append_cancel_left |> List.singleton_inj.1
  show (∃ r w' arg', fcntl E w fd cmd (some arg) = .ok (r, w') ∧ _) ↔ _
  unfold fcntl
  split
  · rename_i setfl
    refine iff_of_true ?_ (.inl setfl)
    cases managed : w.managed fd with
    | none => exact ⟨_, _, arg, rfl, rfl, .inl rfl⟩
    | some ctx => exact ⟨_, _, _, rfl, rfl, .inr ⟨setfl, ctx.sysNonblock, rfl⟩⟩
  · rename_i other
    split
    · rename_i getfl
      refine iff_of_false ?_ (by rw [getfl]; decide)
      rintro ⟨r, w', arg', e, calls, -⟩
      dsimp only at e
      split at e
      · exact bare e.symm calls
      · injection e with e
        have calls' : w.calls ++ [.fcntl fd cmd none] = w'.calls := congrArg (·.2.calls) e
        cases List.singleton_inj.1 (List.append_cancel_left (calls'.trans calls))
    · split
      · rename_i known
        exact iff_of_true ⟨_, _, arg, rfl, rfl, .inl rfl⟩ (.inr known)
      · rename_i unknown
        refine iff_of_false ?_ (not_or.2 ⟨other, unknown⟩)
        rintro ⟨r, w', arg', e, calls, -⟩
        rw [ite_self] at e
        exact bare e.symm calls

end Original

/-- **Main theorem.** A call passes through exactly under the condition: on a thread
whose hook is disabled, `accept` finds a context for its number, or fails, and `fcntl` and
`ioctl` leave the mode of a managed socket as it is; a descriptor that the library leaves
alone has no context that is marked closed, and one if the call is `connect`; and `fcntl`
knows the command, if it takes a third argument. -/
theorem passes_through {σ : Type} (E : Env σ) (t : Thread) (w : World σ) (n : Nat) (takes : Int → Prop) (c : Call) :
    PassesThrough E t w n takes c ↔ Passes E t w takes c := by
  constructor
  · intro h
    constructor
    · exact fun off => (disabled_iff off).1 (h.disabled off)
    · exact fun on bypassed => (bypassed_iff on bypassed).1 (h.bypassed on bypassed)
    · exact fun fd cmd arg call has => forwards_iff.1 (h.forwards fd cmd arg call has)
  · intro h
    constructor
    · exact fun off => (disabled_iff off).2 (h.disabled off)
    · exact fun on bypassed => (bypassed_iff on bypassed).2 (h.bypassed on bypassed)
    · exact fun fd cmd arg call has => forwards_iff.2 (h.forwards fd cmd arg call has)

/-- A command that takes an argument, and that `fcntl` does not list. -/
def F_ADD_SEALS : Int := 1033

/-- `accept` makes a context without the hook, `connect` fails without one, and `fcntl`
drops the argument of `F_ADD_SEALS`. -/
theorem calls_differ :
    (¬ ∀ (σ : Type) (E : Env σ) (t : Thread) (w : World σ) (n : Nat) (c : Call), t.hookEnable = false → Same E t w n c) ∧
    (¬ ∀ (σ : Type) (E : Env σ) (t : Thread) (w : World σ) (n : Nat) (c : Call),
      t.hookEnable = true → Bypassed w c → Same E t w n c) ∧
    ¬ ∀ (σ : Type) (E : Env σ) (t : Thread) (w : World σ) (n : Nat) (fd arg : Int), Forwards E t w n fd F_ADD_SEALS arg := by
  refine ⟨fun all => ?_, fun all => ?_, fun all => ?_⟩
  · have untouched := (disabled_iff rfl).1 (all Unit succeeds ⟨false, false⟩ ⟨(), fun _ => none, 0, []⟩ 1 (.accept 3 0 0) rfl)
    exact untouched.elim (by decide) (by decide)
  · have bypassed : Bypassed (⟨(), fun _ => none, 0, []⟩ : World Unit) (.connect 3 0 16) := ⟨3, rfl, by nofun⟩
    have unmarked := (bypassed_iff rfl bypassed).1 (all Unit succeeds ⟨true, true⟩ _ 1 _ rfl bypassed)
    have found : (Call.connect 3 0 16).io.isSome = true := unmarked 3 rfl
    cases found
  · have known := forwards_iff.1 (all Unit succeeds ⟨true, true⟩ ⟨(), fun _ => none, 0, []⟩ 1 3 1)
    exact absurd known (by decide)

end Mycoroutine.Interpose
