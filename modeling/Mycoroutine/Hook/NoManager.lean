import Mycoroutine.Hook.Interpose
import Mycoroutine.Scheduler.Run

/-!
# A scheduler that is no `IOManager`

The workers of a plain `Scheduler`, in `run()` and in `idle()`, with tasks that call any
of the interposed functions. `run()` enables the hook of its thread, and
`IOManager::GetThis()` is null there, so a hooked call has to make do without a manager.
`idle()` sleeps for a second between two tests of `stopping()`.

A call is one step: without a manager no call is suspended. Nothing steps once a null
manager was used.
-/

namespace Mycoroutine.Interpose
set_option autoImplicit false
open Interleave Machine IOManager

/-! ## Calls without a manager -/

/-- The functions that use the `IOManager`, if there is one. -/
def Call.needsManager : Call → Bool
  | .sleep _ | .usleep _ | .nanosleep _ _ | .connect _ _ _ | .accept _ _ _ | .read _ _ _ | .readv _ _ _ | .recv _ _ _ _
  | .recvfrom _ _ _ _ _ _ | .recvmsg _ _ _ | .write _ _ _ | .writev _ _ _ | .send _ _ _ _ | .sendto _ _ _ _ _ _
  | .sendmsg _ _ _ | .close _ => true
  | _ => false

/-- `sleep` and `usleep`. -/
def Call.sleeps : Call → Bool
  | .sleep _ | .usleep _ => true
  | _ => false

section Fallback

variable {σ : Type} (E : Env σ) (t : Thread) (w : World σ) (n : Nat)

/-- From `w` to `u` no original call was made but the call itself. -/
def Repeats (c : Call) (u : World σ) : Prop := ∃ k, u.calls = w.calls ++ List.replicate k c

/-- What a call that falls back returns: what the last original call of it gave, for
`accept` with a context for its number; or the context was marked closed. -/
def Original (c : Call) (r : Int × World σ) : Prop :=
  (∃ u : World σ, Repeats w c u ∧ r = u.original E c) ∨
    (∃ (u : World σ) (fd : Int) (addr addrlen : Ptr), Repeats w c u ∧ c = .accept fd addr addrlen ∧
      r = ((u.original E c).1, (u.original E c).2.create E (u.original E c).1)) ∨
    r = (-1, { w with errno := EBADF })

/-- The call uses no null manager, and falls back where it would use a manager. -/
def FallsBack (c : Call) : Prop :=
  hooked E t w n c ≠ .error .nullManager ∧
    (c.needsManager = true → ∀ r, hooked E t w n c = .ok r → Original E w c r)

/-- A thread with its hook does not sleep. -/
def Awake (c : Call) : Prop := t.hookEnable = true → c.sleeps = false

instance (c : Call) : Decidable (Awake t c) := inferInstanceAs (Decidable (_ → _))

end Fallback

section Fallback

variable {σ : Type} {E : Env σ} {t : Thread} {w : World σ} {n : Nat} {fd : Int} {c : Call} {r : Int × World σ}

theorem Repeats.refl : Repeats w c w := ⟨0, (List.append_nil _).symm⟩

theorem Repeats.next {u : World σ} (h : Repeats w c u) : Repeats w c (u.original E c).2 := by
  obtain ⟨k, calls⟩ := h
  refine ⟨k + 1, ?_⟩
  show u.calls ++ [c] = _
  rw [calls, List.append_assoc, List.replicate_succ']

theorem Original.of_ok {u : World σ} (e : (.ok (u.original E c) : Outcome σ) = .ok r) (repeats : Repeats w c u) :
    Original E w c r := by
  cases e
  exact .inl ⟨u, repeats, rfl⟩

/-- The original call, however often it is interrupted. -/
theorem attempt_original {m : Nat} {u : World σ} (repeats : Repeats w c u) (e : attempt E c m u = .ok r) :
    ∃ v : World σ, Repeats w c v ∧ r = v.original E c := by
  induction m generalizing u with
  | zero => cases e
  | succ m ih =>
    unfold attempt at e
    dsimp only at e
    split at e
    · exact ih repeats.next e
    · cases e
      exact ⟨u, repeats, rfl⟩

theorem attempt_halts {m : Nat} {w : World σ} {h : Halt} (e : attempt E c m w = .error h) : h = .outOfFuel := by
  induction m generalizing w with
  | zero =>
    cases e
    rfl
  | succ m ih =>
    unfold attempt at e
    dsimp only at e
    split at e
    · exact ih e
    · cases e

section Alone

variable (alone : t.manager = false)

include alone in
theorem retry_original {event : Event} {timeout : Nat} (e : retry E t fd c event timeout n w = .ok r) :
    ∃ u : World σ, Repeats w c u ∧ r = u.original E c := by
  cases n with
  | zero => cases e
  | succ n =>
    unfold retry at e
    cases tried : attempt E c (n + 1) w with
    | error h =>
      rw [tried] at e
      cases e
    | ok first =>
      rw [tried] at e
      simp only [Except.bind, alone, Bool.false_eq_true, if_false] at e
      obtain ⟨u, repeats, rfl⟩ := attempt_original .refl tried
      split at e
      · cases e
        exact ⟨_, repeats.next, rfl⟩
      · cases e
        exact ⟨u, repeats, rfl⟩

include alone in
theorem retry_halts {event : Event} {timeout : Nat} {h : Halt} (e : retry E t fd c event timeout n w = .error h) :
    h = .outOfFuel := by
  cases n with
  | zero =>
    cases e
    rfl
  | succ n =>
    unfold retry at e
    cases tried : attempt E c (n + 1) w with
    | error h' =>
      rw [tried] at e
      cases e
      exact attempt_halts tried
    | ok first =>
      rw [tried] at e
      simp only [Except.bind, alone, Bool.false_eq_true, if_false] at e
      split at e <;> cases e

include alone in
theorem doIo_original {event : Event} {timeoutSo : Int} (e : doIo E t w n fd c event timeoutSo = .ok r) :
    (∃ u : World σ, Repeats w c u ∧ r = u.original E c) ∨ r = (-1, { w with errno := EBADF }) := by
  unfold doIo at e
  split at e
  · split at e
    · cases e
      exact .inl ⟨w, .refl, rfl⟩
    · split at e
      · cases e
        exact .inr rfl
      · split at e
        · cases e
          exact .inl ⟨w, .refl, rfl⟩
        · exact .inl (retry_original alone e)
  · cases e
    exact .inl ⟨w, .refl, rfl⟩

include alone in
theorem doIo_halts {event : Event} {timeoutSo : Int} {h : Halt} (e : doIo E t w n fd c event timeoutSo = .error h) :
    h = .outOfFuel := by
  unfold doIo at e
  split at e
  · split at e
    · cases e
    · split at e
      · cases e
      · split at e
        · cases e
        · exact retry_halts alone e
  · cases e

include alone in
theorem doIo_falls {event : Event} {timeoutSo : Int} (is : hooked E t w n c = doIo E t w n fd c event timeoutSo) :
    FallsBack E t w n c := by
  rw [FallsBack, is]
  refine ⟨(fun null => nomatch doIo_halts alone null), fun _ r e => ?_⟩
  rcases doIo_original alone e with original | marked
  · exact .inl original
  · exact .inr (.inr marked)

include alone in
theorem accept_falls {addr addrlen : Ptr} : FallsBack E t w n (.accept fd addr addrlen) := by
  show accept E t w n fd addr addrlen ≠ _ ∧ (_ → ∀ r, accept E t w n fd addr addrlen = _ → _)
  unfold accept
  cases e : doIo E t w n fd (.accept fd addr addrlen) .read SO_RCVTIMEO with
  | error h =>
    refine ⟨fun null => ?_, fun _ r returned => nomatch returned⟩
    cases null
    cases doIo_halts alone e
  | ok first =>
    refine ⟨nofun, fun _ r returned => ?_⟩
    rcases doIo_original alone e with ⟨u, repeats, rfl⟩ | rfl
    · cases returned
      dsimp only
      split
      · exact .inr (.inl ⟨u, fd, addr, addrlen, repeats, rfl, rfl⟩)
      · exact .inl ⟨u, repeats, rfl⟩
    · cases returned
      exact .inr (.inr rfl)

include alone in
theorem connect_falls {addr : Ptr} {addrlen : Nat} : FallsBack E t w n (.connect fd addr addrlen) := by
  show connect E t w fd addr addrlen ≠ _ ∧ (_ → ∀ r, connect E t w fd addr addrlen = _ → _)
  unfold connect connectWithTimeout
  simp only [alone, Bool.false_eq_true, if_false]
  split
  · split
    · refine ⟨nofun, fun _ r e => ?_⟩
      cases e
      exact .inr (.inr rfl)
    · split
      · refine ⟨nofun, fun _ r e => ?_⟩
        cases e
        exact .inr (.inr rfl)
      · split
        · exact ⟨nofun, fun _ r e => .of_ok e .refl⟩
        · split
          · exact ⟨nofun, fun _ r e => .of_ok e .refl⟩
          · split
            · rename_i connected
              refine ⟨nofun, fun _ r e => ?_⟩
              cases e
              exact .inl ⟨w, .refl, by rw [← connected]⟩
            · split
              · exact ⟨nofun, fun _ r e => .of_ok e .refl⟩
              · exact ⟨nofun, fun _ r e => .of_ok e Repeats.refl.next⟩
  · exact ⟨nofun, fun _ r e => .of_ok e .refl⟩

include alone in
theorem nanosleep_falls {req rem : Ptr} : FallsBack E t w n (.nanosleep req rem) := by
  have original : hooked E t w n (.nanosleep req rem) = .ok (w.original E (.nanosleep req rem)) := by
    show nanosleep E t w req rem = _
    unfold nanosleep
    rw [alone]
    exact ite_self _
  exact ⟨by rw [original]; nofun, fun _ r e => .of_ok (original ▸ e) .refl⟩

include alone in
theorem close_falls : FallsBack E t w n (.close fd) := by
  show close E t w fd ≠ _ ∧ (_ → ∀ r, close E t w fd = _ → _)
  unfold close
  simp only [alone, Bool.false_eq_true, if_false]
  split
  · split
    · exact ⟨nofun, fun _ r e => .of_ok e .refl⟩
    · exact ⟨nofun, fun _ r e => .of_ok e ⟨0, (List.append_nil _).symm⟩⟩
  · exact ⟨nofun, fun _ r e => .of_ok e .refl⟩

/-- The calls that do not use the manager do not halt for it. -/
theorem other_falls (own : c.needsManager = false) : FallsBack E t w n c := by
  refine ⟨fun null => ?_, fun needs => absurd (needs.symm.trans own) (by nofun)⟩
  cases c with
  | socket domain type protocol =>
    have e : socket E t w domain type protocol = .error .nullManager := null
    unfold socket at e
    dsimp only at e
    split at e
    · split at e <;> cases e
    · cases e
  | fcntl fd cmd arg =>
    have e : fcntl E w fd cmd arg = .error .nullManager := null
    unfold fcntl at e
    dsimp only at e
    repeat' split at e
    all_goals cases e
  | ioctl fd request arg =>
    have e : ioctl E w fd request arg = .error .nullManager := null
    unfold ioctl at e
    repeat' split at e
    all_goals cases e
  | getsockopt => cases null
  | setsockopt sockfd level optname optval optlen =>
    have e : setsockopt E t w sockfd level optname optval optlen = .error .nullManager := null
    unfold setsockopt at e
    repeat' split at e
    all_goals cases e
  | _ => cases own

include alone in
/-- Without a manager a call falls back exactly if it is not a sleep of a thread with its
hook. -/
theorem fallsBack_iff : FallsBack E t w n c ↔ Awake t c := by
  by_cases sleeps : c.sleeps = true
  · by_cases on : t.hookEnable = true
    · refine iff_of_false (fun falls => falls.1 ?_) fun awake => absurd (sleeps.symm.trans (awake on)) (by nofun)
      cases c with
      | sleep seconds =>
        show sleep E t w seconds = _
        rw [sleep, on, alone]
        rfl
      | usleep usec =>
        show usleep E t w usec = _
        rw [usleep, on, alone]
        rfl
      | _ => cases sleeps
    · refine iff_of_true ?_ fun on' => absurd on' on
      have original : hooked E t w n c = .ok (w.original E c) := by
        cases c with
        | sleep seconds => exact if_neg on
        | usleep usec => exact if_neg on
        | _ => cases sleeps
      exact ⟨by rw [original]; nofun, fun _ r e => .of_ok (original ▸ e) .refl⟩
  · refine iff_of_true ?_ fun _ => Bool.eq_false_iff.2 sleeps
    cases c with
    | sleep | usleep => exact absurd rfl sleeps
    | nanosleep req rem => exact nanosleep_falls alone
    | connect sockfd addr addrlen => exact connect_falls alone
    | accept sockfd addr addrlen => exact accept_falls alone
    | close fd => exact close_falls alone
    | socket | fcntl | ioctl | getsockopt | setsockopt => exact other_falls rfl
    | _ => exact doIo_falls alone rfl

end Alone

end Fallback

/-! ## The scheduler -/

/-- Where the idle fiber of a worker is: suspended, before its test of `stopping()`, or
before `sleep(1)`; it is over once it saw `stopping()`. -/
inductive Idle where
  | away
  | test
  | sleep
  | ended
deriving DecidableEq

/-- `crashed` says that a null manager was used. -/
structure Plain (σ : Type) where
  run : Run.State
  world : World σ
  mStopping : Bool
  started : Worker → Bool
  hookEnable : Worker → Bool
  idle : Worker → Idle
  crashed : Bool

namespace Plain

/-- `setHookEnable` and `call` are of the task that the worker executes; `start` is the
entry of `run()`; the last three are of its idle fiber. -/
inductive Label where
  | own (l : Run.Label)
  | setHookEnable (w : Worker) (flag : Bool)
  | call (w : Worker) (n : Nat) (c : Call)
  | stop
  | start (w : Worker)
  | enterIdle (w : Worker)
  | testStopping (w : Worker)
  | sleep (w : Worker)

variable {σ : Type} (E : Env σ) (s : Plain σ)

def thread (w : Worker) : Thread := { hookEnable := s.hookEnable w, manager := false }

def stopping : Bool := Scheduler.stopping s.mStopping s.run.tasks s.run.activeThreadCount

/-- The worker is in the loop of `run()`. -/
def Runs (w : Worker) : Prop := s.started w = true ∧ (s.idle w = .away ∨ s.idle w = .ended)

instance (w : Worker) : Decidable (s.Runs w) := inferInstanceAs (Decidable (_ ∧ _))

/-- The worker executes the code of a task. -/
def inTask (w : Worker) : Bool :=
  match s.run.pc w with
  | .inside _ _ .code => true
  | _ => false

/-- A hooked call; a call that needs more retries goes on. -/
def call (w : Worker) (n : Nat) (c : Call) : Option (Plain σ) :=
  match hooked E (s.thread w) s.world n c with
  | .ok r => some { s with world := r.2 }
  | .error .nullManager => some { s with crashed := true }
  | .error _ => none

/-- A worker that finds no task resumes its idle fiber. -/
def enterIdle (w : Worker) : Option (Plain σ) :=
  match s.idle w with
  | .away => if s.started w && s.run.findsNone w then some { s with idle := Function.update s.idle w .test } else none
  | _ => none

/-- `while(!stopping())`. -/
def testStopping (w : Worker) : Option (Plain σ) :=
  match s.idle w with
  | .test => some { s with idle := Function.update s.idle w (if s.stopping then .ended else .sleep) }
  | _ => none

/-- `sleep(1)`, and `yield()`. -/
def sleep (w : Worker) : Option (Plain σ) :=
  match s.idle w with
  | .sleep => (s.call E w 0 (.sleep 1)).map fun s => { s with idle := Function.update s.idle w .away }
  | _ => none

def act : Label → Option (Plain σ)
  | .own l =>
    if ∀ w, l.worker = some w → s.Runs w then (Run.step s.run l).map fun run => { s with run } else none
  | .setHookEnable w flag =>
    if s.inTask w then some { s with hookEnable := Function.update s.hookEnable w flag } else none
  | .call w n c => if s.inTask w then s.call E w n c else none
  | .stop => some { s with mStopping := true }
  | .start w =>
    if s.started w then none
    else some { s with started := Function.update s.started w true, hookEnable := Function.update s.hookEnable w true }
  | .enterIdle w => s.enterIdle w
  | .testStopping w => s.testStopping w
  | .sleep w => s.sleep E w

def step (l : Label) : Option (Plain σ) := if s.crashed then none else s.act E l

def machine (world : World σ) : Machine (Plain σ) Label where
  init := { run := Run.machine.init, world, mStopping := false, started := fun _ => false, hookEnable := fun _ => false,
            idle := fun _ => .away, crashed := false }
  step s := s.step E

/-- A task does not sleep with the hook, and no worker with the hook is idle before
`stopping()` holds. -/
def Spares : Label → Prop
  | .call w _ c => Awake (s.thread w) c
  | .testStopping w => s.hookEnable w = true → s.stopping = true
  | _ => True

instance (l : Label) : Decidable (s.Spares l) := by
  unfold Spares
  split <;> infer_instance

/-- No null manager was used, and the calls that meet the condition, and no others, fall
back. -/
structure Safe : Prop where
  alive : s.crashed = false
  falls : ∀ w n c, FallsBack E (s.thread w) s.world n c ↔ Awake (s.thread w) c

/-- A worker that is to sleep in `idle()` has no hook. -/
structure Kept : Prop where
  alive : s.crashed = false
  outside : ∀ w, s.idle w = .test ∨ s.idle w = .sleep → s.started w = true ∧ s.inTask w = false
  unhooked : ∀ w, s.idle w = .sleep → s.hookEnable w = false

end Plain

section Plain

variable {σ : Type} {E : Env σ} {s s' : Plain σ} {w : Worker} {n : Nat} {c : Call}

theorem Plain.kept_init {world : World σ} : (Plain.machine E world).init.Kept where
  alive := rfl
  outside _ inIdle := inIdle.elim nofun nofun
  unhooked := nofun

/-- A call that meets the condition changes the world alone. -/
theorem Plain.call_awake (awake : Awake (s.thread w) c) (e : s.call E w n c = some s') : ∃ world, s' = { s with world } := by
  have falls : FallsBack E (s.thread w) s.world n c := (fallsBack_iff rfl).2 awake
  unfold Plain.call at e
  split at e
  · cases e
    exact ⟨_, rfl⟩
  · rename_i null
    exact absurd null falls.1
  · cases e

theorem Plain.inTask_congr {run : Run.State} (same : run.pc w = s.run.pc w) : { s with run }.inTask w = s.inTask w := by
  unfold Plain.inTask
  rw [same]

theorem Plain.Kept.call (h : s.Kept) (awake : Awake (s.thread w) c) (e : s.call E w n c = some s') : s'.Kept := by
  obtain ⟨world, rfl⟩ := Plain.call_awake awake e
  exact ⟨h.alive, h.outside, h.unhooked⟩

theorem Plain.Kept.own (h : s.Kept) {l : Run.Label} (runs : ∀ w, l.worker = some w → s.Runs w) {run : Run.State}
    (moved : Run.step s.run l = some run) : Plain.Kept { s with run } where
  alive := h.alive
  outside w inIdle := by
    have other : l.worker ≠ some w := by
      intro own
      have away := (runs w own).2
      rcases inIdle with test | sleep
      · rw [test] at away
        exact away.elim nofun nofun
      · rw [sleep] at away
        exact away.elim nofun nofun
    have ⟨started, out⟩ := h.outside w inIdle
    exact ⟨started, (Plain.inTask_congr ((Run.step_moves moved).others other)).trans out⟩
  unhooked := h.unhooked

theorem Plain.Kept.setHookEnable (h : s.Kept) {flag : Bool} (inTask : s.inTask w = true) :
    Plain.Kept { s with hookEnable := Function.update s.hookEnable w flag } where
  alive := h.alive
  outside := h.outside
  unhooked v asleep := by
    have other : v ≠ w := by
      rintro rfl
      cases (h.outside v (.inr asleep)).2.symm.trans inTask
    show Function.update s.hookEnable w flag v = false
    rw [Function.update_of_ne other]
    exact h.unhooked v asleep

theorem Plain.Kept.start (h : s.Kept) (first : s.started w = false) :
    Plain.Kept { s with started := Function.update s.started w true, hookEnable := Function.update s.hookEnable w true } where
  alive := h.alive
  outside v inIdle := by
    have ⟨started, out⟩ := h.outside v inIdle
    have other : v ≠ w := by
      rintro rfl
      cases started.symm.trans first
    exact ⟨(Function.update_of_ne other ..).trans started, out⟩
  unhooked v asleep := by
    have other : v ≠ w := by
      rintro rfl
      cases (h.outside v (.inr asleep)).1.symm.trans first
    exact (Function.update_of_ne other ..).trans (h.unhooked v asleep)

/-- The idle fiber of a worker goes on. -/
theorem Plain.Kept.moveIdle (h : s.Kept) {idle : Idle} (inside : idle = .test ∨ idle = .sleep → s.started w = true ∧ s.inTask w = false)
    (unhooked : idle = .sleep → s.hookEnable w = false) : Plain.Kept { s with idle := Function.update s.idle w idle } where
  alive := h.alive
  outside v inIdle := by
    by_cases mine : v = w
    · subst mine
      simp only [Function.update_self] at inIdle
      exact inside inIdle
    · simp only [Function.update_of_ne mine] at inIdle
      exact h.outside v inIdle
  unhooked v asleep := by
    by_cases mine : v = w
    · subst mine
      simp only [Function.update_self] at asleep
      exact unhooked asleep
    · simp only [Function.update_of_ne mine] at asleep
      exact h.unhooked v asleep

theorem Plain.Kept.enterIdle (h : s.Kept) (e : s.enterIdle w = some s') : s'.Kept := by
  unfold Plain.enterIdle at e
  split at e
  · split at e <;> cases e
    rename_i enters
    obtain ⟨started, none'⟩ := Bool.and_eq_true_iff.1 enters
    refine h.moveIdle (fun _ => ⟨started, ?_⟩) nofun
    unfold Plain.inTask
    rw [Run.State.pick_of_findsNone none']
  · cases e

theorem Plain.Kept.testStopping (h : s.Kept) (spares : s.hookEnable w = true → s.stopping = true)
    (e : s.testStopping w = some s') : s'.Kept := by
  unfold Plain.testStopping at e
  split at e
  · rename_i test
    cases e
    refine h.moveIdle (fun _ => h.outside w (.inl test)) fun sleeps => Bool.eq_false_iff.2 fun on => ?_
    rw [spares on] at sleeps
    cases sleeps
  · cases e

theorem Plain.Kept.sleep (h : s.Kept) (e : s.sleep E w = some s') : s'.Kept := by
  unfold Plain.sleep at e
  split at e
  · rename_i asleep
    obtain ⟨m, called, rfl⟩ := Option.map_eq_some_iff.1 e
    have awake : Awake (s.thread w) (.sleep 1) := fun on => absurd ((h.unhooked w asleep).symm.trans on) (by nofun)
    exact (h.call awake called).moveIdle (by nofun) (by nofun)
  · cases e

theorem Plain.Kept.step {l : Plain.Label} (h : s.Kept) (spares : s.Spares l) (e : s.step E l = some s') : s'.Kept := by
  simp only [Plain.step, h.alive, Bool.false_eq_true, if_false] at e
  cases l with
  | own l =>
    simp only [Plain.act] at e
    split at e
    · rename_i runs
      obtain ⟨run, moved, rfl⟩ := Option.map_eq_some_iff.1 e
      exact h.own runs moved
    · cases e
  | setHookEnable w flag =>
    simp only [Plain.act] at e
    split at e <;> cases e
    rename_i inTask
    exact h.setHookEnable inTask
  | call w n c =>
    simp only [Plain.act] at e
    split at e
    · exact h.call spares e
    · cases e
  | stop =>
    cases e
    exact ⟨h.alive, h.outside, h.unhooked⟩
  | start w =>
    simp only [Plain.act] at e
    split at e <;> cases e
    rename_i first
    exact h.start (Bool.eq_false_iff.2 first)
  | enterIdle w => exact h.enterIdle e
  | testStopping w => exact h.testStopping spares e
  | sleep w => exact h.sleep e

end Plain

end Mycoroutine.Interpose
