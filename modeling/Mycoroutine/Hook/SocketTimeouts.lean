import Mycoroutine.Hook.Interpose
import Mycoroutine.Interleave.Machine
import Mycoroutine.Timer.Expiry

/-!
# Timeouts of sockets

`setsockopt` stores a timeout in milliseconds before the kernel has seen the call, and
`do_io` arms a timer with it unless it is `(uint64_t)-1`. So a timeout that the kernel
refused is used as well, `{0, 0}` gives a timer of 0 ms, and a part of a millisecond is
cut off. The timer's deadline is a 64-bit number of nanoseconds: that of a long timeout
wraps into the past.

A thread with the hook sets the timeouts of its sockets and makes calls that wait, in
any order, and nobody else calls meanwhile. The environment logs the timer of each wait,
with what the clock read when it was made.
-/

namespace Mycoroutine.Interpose
set_option autoImplicit false
open Interleave IOManager
open TimerManager (TimePoint int64 addMillis)

/-- A timer with what its constructor read. -/
structure Armed where
  now : TimePoint
  timer : TimerManager.Timer

/-- The timer of `addConditionTimer`. -/
def Armed.make (now : TimePoint) (timeout : Nat) : Armed := ⟨now, .make timeout 0 false now⟩

/-- The environment with the timer that is armed, and the one of each wait so far. -/
structure Timed (σ : Type) where
  env : σ
  armed : Option Armed
  waits : List (Option Armed)

/-- `clock` is what `system_clock::now()` gives. -/
def Env.timed {σ : Type} (E : Env σ) (clock : σ → TimePoint) : Env (Timed σ) where
  original k c :=
    let reply := E.original k.env c
    ⟨{ k with env := reply.env }, reply.value, reply.errno⟩
  fstat k := E.fstat k.env
  int k := E.int k.env
  time k := E.time k.env
  error := E.error
  len := E.len
  addTimer k timeout :=
    { k with env := E.addTimer k.env timeout, armed := some (.make (int64 (clock k.env)) timeout) }
  cancelTimer k := { k with env := E.cancelTimer k.env, armed := none }
  addEvent k fd event :=
    let added := E.addEvent k.env fd event
    ({ k with env := added.1 }, added.2)
  cancelAll k fd := { k with env := E.cancelAll k.env fd }
  suspend k datas :=
    let resumed := E.suspend k.env datas
    ⟨{ k with env := resumed.env, waits := k.waits ++ [k.armed] }, datas, resumed.expired⟩

inductive Direction where
  | receive
  | send
deriving DecidableEq

/-- The socket option of the direction. -/
def Direction.so : Direction → Int
  | .receive => SO_RCVTIMEO
  | .send => SO_SNDTIMEO

def Direction.event : Direction → Event
  | .receive => .read
  | .send => .write

/-- The `timeval` of the last call that succeeded, and the timeout that it left. -/
structure Setting where
  asked : Option (Int × Int)
  timeout : Nat

/-- `waits` has what was asked for each wait so far, and its timer. -/
structure Timeouts (σ : Type) where
  world : World (Timed σ)
  setting : Nat → Direction → Setting
  waits : List (Option (Int × Int) × Option Armed)

/-- What `setsockopt` makes of a `timeval`. -/
def millis (sec usec : Int) : Nat := ((sec * 1000 + usec.tdiv 1000) % 2 ^ 64).toNat

namespace Timeouts

inductive Label where
  | setsockopt (m : Nat) (d : Direction) (optval : Ptr) (optlen : Nat)
  /-- A call of `do_io`, with at most `n` retries. -/
  | io (m : Nat) (d : Direction) (c : Call) (n : Nat)

section Machine

variable {σ : Type} (E : Env σ) (clock : σ → TimePoint) (manager : Bool)

/-- `setsockopt` on a managed socket, with a `timeval` that is not negative. -/
def set (s : Timeouts σ) (m : Nat) (d : Direction) (optval : Ptr) (optlen : Nat) : Option (Timeouts σ) :=
  match s.world.managed m, E.time s.world.env.env optval with
  | some _, some (sec, usec) =>
    if 0 ≤ sec ∧ 0 ≤ usec then
      match setsockopt (E.timed clock) ⟨true, manager⟩ s.world m SOL_SOCKET d.so optval optlen with
      | .ok r =>
        if r.1 = -1 then some { s with world := r.2 }
        else
          let timeout := ((r.2.get m).map (FdCtx.getTimeout · d.so)).getD noTimeout
          some { s with
                 world := r.2,
                 setting := Function.update s.setting m (Function.update (s.setting m) d ⟨some (sec, usec), timeout⟩) }
      | .error _ => none
    else none
  | _, _ => none

/-- A call of `do_io`, with a log of its own. -/
def call (s : Timeouts σ) (m : Nat) (d : Direction) (c : Call) (n : Nat) : Outcome (Timed σ) :=
  doIo (E.timed clock) ⟨true, manager⟩ { s.world with env := { s.world.env with waits := [] } } n m c d.event d.so

def step (s : Timeouts σ) : Label → Option (Timeouts σ)
  | .setsockopt m d optval optlen => s.set E clock manager m d optval optlen
  | .io m d c n =>
    match s.call E clock manager m d c n with
    | .ok r =>
      some { s with world := r.2, waits := s.waits ++ r.2.env.waits.map fun armed => ((s.setting m d).asked, armed) }
    | .error _ => none

/-- The contexts are any, with no timeouts set. -/
def machine (env : σ) (datas : Nat → Option FdCtx) : Machine (Timeouts σ) Label where
  init := {
    world := {
      env := ⟨env, none, []⟩
      datas m := (datas m).map fun ctx => { ctx with recvTimeout := noTimeout, sendTimeout := noTimeout }
      errno := 0
      calls := [] }
    setting _ _ := ⟨none, noTimeout⟩
    waits := [] }
  step := step E clock manager

/-- A timeout means what was asked for: `{0, 0}` asks for none, and another `timeval` for
one that is not shorter, in microseconds, and not 0. -/
def Means (timeout : Nat) : Option (Int × Int) → Prop
  | none => timeout = noTimeout
  | some (sec, usec) =>
    if sec = 0 ∧ usec = 0 then timeout = noTimeout
    else timeout ≠ noTimeout ∧ 0 < timeout ∧ sec * 1000000 + usec ≤ timeout * 1000

/-- A wait has the timer that was asked for: its deadline is not earlier than the time of
the call and the time asked for, in nanoseconds, and it is not of 0 ms. -/
def Meets (armed : Option Armed) : Option (Int × Int) → Prop
  | none => armed = none
  | some (sec, usec) =>
    if sec = 0 ∧ usec = 0 then armed = none
    else ∃ a, armed = some a ∧ 0 < a.timer.ms ∧ a.now + (sec * 1000000 + usec) * 1000 ≤ a.timer.next

/-- The timeouts of the sockets are those of the last calls that succeeded, and mean what
was asked for; every wait has the timer that was asked for. -/
structure Keeps (s : Timeouts σ) : Prop where
  timeouts : ∀ m ctx, s.world.datas m = some ctx → ∀ d, ctx.getTimeout d.so = (s.setting m d).timeout ∧
    Means (ctx.getTimeout d.so) (s.setting m d).asked
  waits : ∀ w ∈ s.waits, Meets w.2 w.1

/-- The original call fails. -/
def Fails (s : Timeouts σ) (m : Nat) (d : Direction) (optval : Ptr) (optlen : Nat) : Prop :=
  (E.original s.world.env.env (.setsockopt m SOL_SOCKET d.so optval optlen)).value = -1

/-- The milliseconds are computed without a signed overflow. -/
def Computes (s : Timeouts σ) : Label → Prop
  | .setsockopt _ _ optval _ => ∀ sec usec, E.time s.world.env.env optval = some (sec, usec) →
      sec * 1000 + usec / 1000 < 2 ^ 63
  | .io _ _ _ _ => True

/-- A call of `setsockopt` that fails asks for what the context has already; one that
succeeds asks for whole milliseconds, and not none. With the timeout that is stored when a
call of `do_io` begins, no clock reading of it makes a deadline that overflows. -/
def Suits (s : Timeouts σ) (l : Label) : Prop :=
  s.Computes E l ∧ match l with
  | .setsockopt m d optval optlen => ∀ sec usec, E.time s.world.env.env optval = some (sec, usec) →
      (s.Fails E m d optval optlen → ∀ ctx, s.world.datas m = some ctx → ctx.getTimeout d.so = millis sec usec) ∧
      (¬ s.Fails E m d optval optlen → ¬ (sec = 0 ∧ usec = 0) ∧ usec % 1000 = 0)
  | .io m d c n => ∀ ctx, s.world.datas m = some ctx → ∀ r, s.call E clock manager m d c n = .ok r →
      ∀ a, some a ∈ r.2.env.waits → a.now + ctx.getTimeout d.so * 1000000 < 2 ^ 63

end Machine

/-! ## Waits -/

section Waits

variable {σ : Type} {E : Env σ} {clock : σ → TimePoint} {t : Thread} {w : World (Timed σ)} {r : Int × World (Timed σ)}
  {c : Call}

/-- The timer of a wait with the timeout. -/
def ArmedFor (timeout : Nat) : Option Armed → Prop
  | none => timeout = noTimeout
  | some a => timeout ≠ noTimeout ∧ -2 ^ 63 ≤ a.now ∧ a = .make a.now timeout

/-- What a call leaves of the contexts and the log. -/
structure Quiet (w w' : World (Timed σ)) : Prop where
  datas : w'.datas = w.datas
  armed : w'.env.armed = w.env.armed
  waits : w'.env.waits = w.env.waits

theorem Quiet.trans {w' w'' : World (Timed σ)} (h : Quiet w w') (h' : Quiet w' w'') : Quiet w w'' :=
  ⟨h'.datas.trans h.datas, h'.armed.trans h.armed, h'.waits.trans h.waits⟩

theorem quiet_original : Quiet w (w.original (E.timed clock) c).2 := ⟨rfl, rfl, rfl⟩

theorem attempt_quiet (n : Nat) (e : attempt (E.timed clock) c n w = .ok r) : Quiet w r.2 := by
  induction n generalizing w with
  | zero => cases e
  | succ n ih =>
    rw [attempt] at e
    split at e
    · exact quiet_original.trans (ih e)
    · cases e
      exact quiet_original

/-- The world at `addEvent`. -/
theorem armed_timer (timeout : Nat) (unarmed : w.env.armed = none) :
    (if timeout ≠ noTimeout then w.addTimer (E.timed clock) timeout else w).datas = w.datas ∧
      ArmedFor timeout (if timeout ≠ noTimeout then w.addTimer (E.timed clock) timeout else w).env.armed ∧
      (if timeout ≠ noTimeout then w.addTimer (E.timed clock) timeout else w).env.waits = w.env.waits := by
  by_cases timed : timeout ≠ noTimeout
  · rw [if_pos timed]
    exact ⟨rfl, ⟨timed, Int.le_bmod (by decide), rfl⟩, rfl⟩
  · rw [if_neg timed, unarmed]
    exact ⟨rfl, not_not.1 timed, rfl⟩

/-- The timer is cancelled after the wait, and after an `addEvent` that failed. -/
theorem cancelled_timer (timeout : Nat) (armed : ArmedFor timeout w.env.armed) :
    (if timeout ≠ noTimeout then w.cancelTimer (E.timed clock) else w).datas = w.datas ∧
      (if timeout ≠ noTimeout then w.cancelTimer (E.timed clock) else w).env.armed = none ∧
      (if timeout ≠ noTimeout then w.cancelTimer (E.timed clock) else w).env.waits = w.env.waits := by
  by_cases timed : timeout ≠ noTimeout
  · rw [if_pos timed]
    exact ⟨rfl, rfl, rfl⟩
  · rw [if_neg timed]
    refine ⟨rfl, ?_, rfl⟩
    cases here : w.env.armed with
    | none => rfl
    | some a =>
      rw [here] at armed
      exact absurd armed.1 timed

/-- The waits of `retry:` all have the timer of the timeout. -/
theorem retry_waits {fd : Int} {event : Event} {timeout : Nat} (n : Nat) (unarmed : w.env.armed = none)
    (e : retry (E.timed clock) t fd c event timeout n w = .ok r) :
    r.2.datas = w.datas ∧ r.2.env.armed = none ∧
      ∃ waits, r.2.env.waits = w.env.waits ++ waits ∧ ∀ armed ∈ waits, ArmedFor timeout armed := by
  induction n generalizing w with
  | zero => cases e
  | succ n ih =>
    rw [retry] at e
    cases tried : attempt (E.timed clock) c (n + 1) w with
    | error halt => rw [tried] at e; cases e
    | ok a =>
      rw [tried] at e
      have quiet := attempt_quiet (n + 1) tried
      have still : a.2.env.armed = none := quiet.armed.trans unarmed
      replace e : (if a.1 = -1 ∧ a.2.errno = EAGAIN then _ else _) = Except.ok r := e
      split at e
      · split at e
        · obtain ⟨datas, armed, waits⟩ := @armed_timer _ E clock _ timeout still
          generalize (if timeout ≠ noTimeout then a.2.addTimer (E.timed clock) timeout else a.2) = v at datas armed waits e
          dsimp only at e
          split at e
          · -- the wait
            obtain ⟨datas', armed', waits'⟩ := @cancelled_timer _ E clock
              ({ v with env := ((E.timed clock).addEvent v.env fd event).1 }.suspend (E.timed clock)).2 timeout armed
            have logged : ({ v with env := ((E.timed clock).addEvent v.env fd event).1 }.suspend (E.timed clock)).2.env.waits =
                w.env.waits ++ [v.env.armed] := by
              show v.env.waits ++ [v.env.armed] = _
              rw [waits, quiet.waits]
            generalize (if timeout ≠ noTimeout then
              ({ v with env := ((E.timed clock).addEvent v.env fd event).1 }.suspend (E.timed clock)).2.cancelTimer (E.timed clock)
              else ({ v with env := ((E.timed clock).addEvent v.env fd event).1 }.suspend (E.timed clock)).2) = u
              at datas' armed' waits' e
            have kept : u.datas = w.datas := datas'.trans (datas.trans quiet.datas)
            split at e
            · cases e
              exact ⟨kept, armed', [v.env.armed], waits'.trans logged, fun x mem => List.mem_singleton.1 mem ▸ armed⟩
            · obtain ⟨datas'', armed'', more, waits'', rest⟩ := ih armed' e
              refine ⟨datas''.trans kept, armed'', v.env.armed :: more, ?_, fun x mem => ?_⟩
              · rw [waits'', waits', logged, List.append_assoc, List.singleton_append]
              · rcases List.mem_cons.1 mem with rfl | mem
                · exact armed
                · exact rest x mem
          · cases e
            obtain ⟨datas', armed', waits'⟩ := @cancelled_timer _ E clock
              { v with env := ((E.timed clock).addEvent v.env fd event).1 } timeout armed
            refine ⟨datas'.trans (datas.trans quiet.datas), armed', [], ?_, by simp⟩
            rw [List.append_nil]
            exact waits'.trans (waits.trans quiet.waits)
        · cases e
          exact ⟨quiet.datas, still, [], by rw [List.append_nil]; exact quiet.waits, by simp⟩
      · cases e
        exact ⟨quiet.datas, still, [], by rw [List.append_nil]; exact quiet.waits, by simp⟩

theorem get_natCast (w : World (Timed σ)) (m : Nat) : w.get m = w.datas m := by
  rw [World.get, if_neg (by omega), Int.toNat_natCast]

/-- The waits of a call have the timer of the timeout that its context has. -/
theorem doIo_waits {m : Nat} {event : Event} {so : Int} {n : Nat} (unarmed : w.env.armed = none)
    (e : doIo (E.timed clock) t w n m c event so = .ok r) :
    r.2.datas = w.datas ∧ r.2.env.armed = none ∧ ∃ waits, r.2.env.waits = w.env.waits ++ waits ∧
      ∀ armed ∈ waits, ∃ ctx, w.datas m = some ctx ∧ ArmedFor (ctx.getTimeout so) armed := by
  have once (e : .ok (w.original (E.timed clock) c) = (.ok r : Outcome (Timed σ))) : r.2.datas = w.datas ∧
      r.2.env.armed = none ∧ ∃ waits, r.2.env.waits = w.env.waits ++ waits ∧
        ∀ armed ∈ waits, ∃ ctx, w.datas m = some ctx ∧ ArmedFor (ctx.getTimeout so) armed := by
    cases e
    exact ⟨rfl, unarmed, [], (List.append_nil _).symm, by simp⟩
  unfold doIo at e
  split at e
  · rw [get_natCast] at e
    cases here : w.datas m with
    | none =>
      rw [here] at e once
      exact once e
    | some ctx =>
      rw [here] at e once
      dsimp only at e
      split at e
      · cases e
        exact ⟨rfl, unarmed, [], (List.append_nil _).symm, by simp⟩
      · split at e
        · exact once e
        · obtain ⟨datas, armed, waits, added, all⟩ := retry_waits n unarmed e
          exact ⟨datas, armed, waits, added, fun x mem => ⟨ctx, rfl, all x mem⟩⟩
  · exact once e

end Waits

/-! ## Settings -/

section Settings

variable {σ : Type} {E : Env σ} {clock : σ → TimePoint} {manager : Bool} {s s' : Timeouts σ} {m : Nat} {d : Direction} {optval : Ptr} {optlen : Nat}

/-- The directions do not affect each other. -/
theorem getTimeout_setTimeout (ctx : FdCtx) (d d' : Direction) (v : Nat) :
    (ctx.setTimeout d.so v).getTimeout d'.so = if d' = d then v else ctx.getTimeout d'.so := by
  cases d <;> cases d' <;> rfl

/-- What a call of `setsockopt` does: the timeout is stored, whatever the kernel says. -/
structure Stores (E : Env σ) (s s' : Timeouts σ) (m : Nat) (d : Direction) (optval : Ptr) (optlen : Nat) (ctx : FdCtx)
    (sec usec : Int) : Prop where
  here : s.world.datas m = some ctx
  time : E.time s.world.env.env optval = some (sec, usec)
  positive : 0 ≤ sec ∧ 0 ≤ usec
  datas : s'.world.datas = Function.update s.world.datas m (some (ctx.setTimeout d.so (millis sec usec)))
  armed : s'.world.env.armed = s.world.env.armed
  waits : s'.waits = s.waits
  failed : s.Fails E m d optval optlen → s'.setting = s.setting
  succeeded : ¬ s.Fails E m d optval optlen → s'.setting =
    Function.update s.setting m (Function.update (s.setting m) d ⟨some (sec, usec), millis sec usec⟩)

theorem stores_of_set (e : s.set E clock manager m d optval optlen = some s') :
    ∃ ctx sec usec, Stores E s s' m d optval optlen ctx sec usec := by
  unfold set at e
  split at e
  · rename_i ctx sec usec managed time
    split at e
    · rename_i positive
      obtain ⟨here, -⟩ := Option.filter_eq_some_iff.1 managed
      have option : (SOL_SOCKET = SOL_SOCKET) ∧ (d.so = SO_RCVTIMEO ∨ d.so = SO_SNDTIMEO) := by cases d <;> decide
      have called : setsockopt (E.timed clock) ⟨true, manager⟩ s.world m SOL_SOCKET d.so optval optlen =
          .ok ((s.world.put m (ctx.setTimeout d.so (millis sec usec))).original (E.timed clock)
            (.setsockopt m SOL_SOCKET d.so optval optlen)) := by
        unfold setsockopt
        rw [if_pos rfl, if_pos option, here]
        show (match E.time s.world.env.env optval with | none => _ | some (sec, usec) => _) = _
        rw [time]
        rfl
      rw [called] at e
      have stored : ((((s.world.put m (ctx.setTimeout d.so (millis sec usec))).original (E.timed clock)
          (.setsockopt m SOL_SOCKET d.so optval optlen)).2.get m).map (FdCtx.getTimeout · d.so)).getD noTimeout = millis sec usec := by
        rw [get_natCast]
        show ((Function.update s.world.datas (m : Int).toNat _ m).map (FdCtx.getTimeout · d.so)).getD noTimeout = _
        rw [Int.toNat_natCast, Function.update_self, Option.map_some, Option.getD_some, getTimeout_setTimeout, if_pos rfl]
      refine ⟨ctx, sec, usec, ?_⟩
      rw [get_natCast] at here
      have datas : (s.world.put m (ctx.setTimeout d.so (millis sec usec))).datas =
          Function.update s.world.datas m (some (ctx.setTimeout d.so (millis sec usec))) := by
        rw [World.put, Int.toNat_natCast]
      dsimp only at e
      rw [stored] at e
      split at e
      · rename_i failed
        cases e
        exact ⟨here, time, positive, datas, rfl, rfl, fun _ => rfl, fun succeeded => absurd failed succeeded⟩
      · rename_i succeeded
        cases e
        exact ⟨here, time, positive, datas, rfl, rfl, fun failed => absurd failed succeeded, fun _ => rfl⟩
    · cases e
  · cases e

theorem millis_eq {sec usec : Int} (positive : 0 ≤ sec ∧ 0 ≤ usec) (below : sec * 1000 + usec / 1000 < 2 ^ 63) :
    (millis sec usec : Int) = sec * 1000 + usec / 1000 := by
  rw [millis, Int.tdiv_eq_ediv_of_nonneg positive.2, Int.toNat_of_nonneg (Int.emod_nonneg _ (by decide))]
  omega

/-- A timeout of whole milliseconds is what was asked for exactly if nothing is cut off. -/
theorem means_iff {sec usec : Int} (positive : 0 ≤ sec ∧ 0 ≤ usec) (below : sec * 1000 + usec / 1000 < 2 ^ 63) :
    Means (millis sec usec) (some (sec, usec)) ↔ ¬ (sec = 0 ∧ usec = 0) ∧ usec % 1000 = 0 := by
  have word : noTimeout = 18446744073709551615 := rfl
  have value := millis_eq positive below
  generalize millis sec usec = v at value
  unfold Means
  dsimp only
  by_cases zero : sec = 0 ∧ usec = 0
  · rw [if_pos zero]
    refine iff_of_false ?_ fun h => h.1 zero
    omega
  · rw [if_neg zero]
    constructor
    · rintro ⟨-, -, enough⟩
      exact ⟨zero, by omega⟩
    · rintro ⟨-, whole⟩
      refine ⟨?_, ?_, ?_⟩ <;> omega

/-- The timer of a timeout that means what was asked for, to the millisecond, is as asked
exactly if its deadline does not overflow. -/
theorem meets_iff {timeout : Nat} {asked : Option (Int × Int)} {armed : Option Armed} (means : Means timeout asked)
    (whole : ∀ sec usec, asked = some (sec, usec) → ¬ (sec = 0 ∧ usec = 0) → (timeout : Int) * 1000 = sec * 1000000 + usec)
    (is : ArmedFor timeout armed) : Meets armed asked ↔ ∀ a, armed = some a → a.now + timeout * 1000000 < 2 ^ 63 := by
  have unarmed (none' : timeout = noTimeout) : armed = none := by
    cases armed with
    | none => rfl
    | some a => exact absurd none' is.1
  cases asked with
  | none =>
    have nothing := unarmed means
    exact iff_of_true nothing fun a is => by cases nothing.symm.trans is
  | some asked =>
    obtain ⟨sec, usec⟩ := asked
    simp only [Means, Meets] at means ⊢
    by_cases zero : sec = 0 ∧ usec = 0
    · rw [if_pos zero] at means ⊢
      have nothing := unarmed means
      exact iff_of_true nothing fun a is => by cases nothing.symm.trans is
    · rw [if_neg zero] at means ⊢
      cases armed with
      | none => exact absurd is means.1
      | some a =>
        obtain ⟨-, low, make⟩ := is
        have exactly : (timeout : Int) * 1000000 = (sec * 1000000 + usec) * 1000 := by
          have thousand := whole sec usec rfl zero
          omega
        have ms : a.timer.ms = timeout := by
          rw [make]
          rfl
        have next : a.timer.next = addMillis a.now timeout := by
          rw [make]
          rfl
        have late : a.now + (sec * 1000000 + usec) * 1000 ≤ a.timer.next ↔ a.now + timeout * 1000000 < 2 ^ 63 := by
          rw [next, TimerManager.le_addMillis_iff low exactly.le, and_iff_right exactly, exactly]
        constructor
        · rintro ⟨b, same, -, early⟩ c same'
          cases same
          cases same'
          exact late.1 early
        · exact fun fits => ⟨a, rfl, ms ▸ means.2.1, late.2 (fits a rfl)⟩

/-- The invariant: the timeouts are whole milliseconds, and no timer is armed between the
calls. -/
structure Kept (s : Timeouts σ) : Prop where
  keeps : Keeps s
  whole : ∀ m d sec usec, (s.setting m d).asked = some (sec, usec) → ¬ (sec = 0 ∧ usec = 0) →
    ((s.setting m d).timeout : Int) * 1000 = sec * 1000000 + usec
  unarmed : s.world.env.armed = none

theorem kept_init (env : σ) (datas : Nat → Option FdCtx) : Kept (machine E clock manager env datas).init := by
  refine ⟨⟨fun m ctx here d => ?_, by simp [machine]⟩, by simp [machine], rfl⟩
  obtain ⟨before, -, rfl⟩ := Option.map_eq_some_iff.1 here
  cases d <;> exact ⟨rfl, rfl⟩

/-- What is used after a call of `setsockopt` is as asked exactly under the condition. -/
theorem Stores.keeps_iff {ctx : FdCtx} {sec usec : Int} (h : Stores E s s' m d optval optlen ctx sec usec) (kept : Keeps s)
    (computes : Computes E s (.setsockopt m d optval optlen)) :
    Keeps s' ↔ Suits E clock manager s (.setsockopt m d optval optlen) := by
  have own : s'.world.datas m = some (ctx.setTimeout d.so (millis sec usec)) := by
    rw [h.datas, Function.update_self]
  have current := kept.timeouts m ctx h.here d
  have below := computes sec usec h.time
  constructor
  · intro keeps
    refine ⟨computes, fun sec' usec' time => ?_⟩
    cases h.time.symm.trans time
    obtain ⟨same, means⟩ := keeps.timeouts m _ own d
    rw [getTimeout_setTimeout, if_pos rfl] at same means
    constructor
    · intro failed ctx' here
      cases h.here.symm.trans here
      rw [h.failed failed] at same
      exact current.1.trans same.symm
    · intro succeeded
      rw [h.succeeded succeeded, Function.update_self, Function.update_self] at means
      exact (means_iff h.positive below).1 means
  · intro suits
    refine ⟨fun m' ctx' here d' => ?_, h.waits ▸ kept.waits⟩
    obtain ⟨refused, accepted⟩ := suits.2 sec usec h.time
    rw [h.datas] at here
    by_cases mine : m' = m
    · subst mine
      rw [Function.update_self] at here
      cases here
      rw [getTimeout_setTimeout]
      by_cases failed : s.Fails E m' d optval optlen
      · rw [h.failed failed]
        split
        · rename_i same
          subst same
          rw [← refused failed ctx h.here]
          exact current
        · exact kept.timeouts m' ctx h.here d'
      · rw [h.succeeded failed, Function.update_self]
        split
        · rename_i same
          subst same
          rw [Function.update_self]
          exact ⟨rfl, (means_iff h.positive below).2 (accepted failed)⟩
        · rename_i other
          rw [Function.update_of_ne other]
          exact kept.timeouts m' ctx h.here d'
    · rw [Function.update_of_ne mine] at here
      have setting : s'.setting m' = s.setting m' := by
        by_cases failed : s.Fails E m d optval optlen
        · rw [h.failed failed]
        · rw [h.succeeded failed, Function.update_of_ne mine]
      rw [setting]
      exact kept.timeouts m' ctx' here d'

/-- A timeout that the condition lets pass is one of whole milliseconds. -/
theorem Stores.whole {ctx : FdCtx} {sec usec : Int} (h : Stores E s s' m d optval optlen ctx sec usec) (kept : Kept s)
    (suits : Suits E clock manager s (.setsockopt m d optval optlen)) (m' : Nat) (d' : Direction) (sec' usec' : Int)
    (asked : (s'.setting m' d').asked = some (sec', usec')) (some' : ¬ (sec' = 0 ∧ usec' = 0)) :
    ((s'.setting m' d').timeout : Int) * 1000 = sec' * 1000000 + usec' := by
  by_cases failed : s.Fails E m d optval optlen
  · rw [h.failed failed] at asked ⊢
    exact kept.whole m' d' sec' usec' asked some'
  · rw [h.succeeded failed] at asked ⊢
    by_cases mine : m' = m
    · subst mine
      rw [Function.update_self] at asked ⊢
      by_cases same : d' = d
      · subst same
        rw [Function.update_self] at asked ⊢
        cases asked
        have value := millis_eq h.positive (suits.1 sec usec h.time)
        have cut := ((suits.2 sec usec h.time).2 failed).2
        show (millis sec usec : Int) * 1000 = _
        omega
      · rw [Function.update_of_ne same] at asked ⊢
        exact kept.whole m' d' sec' usec' asked some'
    · rw [Function.update_of_ne mine] at asked ⊢
      exact kept.whole m' d' sec' usec' asked some'

/-- What a call of `do_io` does: it logs its waits, each with the timer of its timeout. -/
theorem io_logs {c : Call} {n : Nat} (unarmed : s.world.env.armed = none)
    (e : s.step E clock manager (.io m d c n) = some s') :
    ∃ r, s.call E clock manager m d c n = .ok r ∧ s'.world.datas = s.world.datas ∧ s'.setting = s.setting ∧
      s'.world.env.armed = none ∧ s'.waits = s.waits ++ r.2.env.waits.map (fun armed => ((s.setting m d).asked, armed)) ∧
      ∀ armed ∈ r.2.env.waits, ∃ ctx, s.world.datas m = some ctx ∧ ArmedFor (ctx.getTimeout d.so) armed := by
  simp only [step] at e
  split at e
  · rename_i r called
    cases e
    obtain ⟨datas, armed, waits, logged, all⟩ := doIo_waits (w := { s.world with env := { s.world.env with waits := [] } })
      unarmed called
    refine ⟨r, called, datas, rfl, armed, rfl, fun x mem => all x ?_⟩
    rw [logged, List.nil_append] at mem
    exact mem
  · cases e

/-- The timers of a call are as asked exactly if their deadlines do not overflow. -/
theorem io_keeps {c : Call} {n : Nat} (h : Kept s) (e : s.step E clock manager (.io m d c n) = some s') :
    Keeps s' ↔ Suits E clock manager s (.io m d c n) := by
  obtain ⟨r, called, datas, setting, -, waits, all⟩ := io_logs h.unarmed e
  have meets {armed : Option Armed} (mem : armed ∈ r.2.env.waits) : ∃ ctx, s.world.datas m = some ctx ∧
      (Meets armed (s.setting m d).asked ↔ ∀ a, armed = some a → a.now + ctx.getTimeout d.so * 1000000 < 2 ^ 63) := by
    obtain ⟨ctx, here, armedFor⟩ := all armed mem
    obtain ⟨same, means⟩ := h.keeps.timeouts m ctx here d
    have whole := h.whole m d
    rw [← same] at whole
    exact ⟨ctx, here, meets_iff means whole armedFor⟩
  constructor
  · intro keeps
    refine ⟨trivial, fun ctx here r' called' a mem => ?_⟩
    cases called.symm.trans called'
    obtain ⟨ctx', here', exactly⟩ := meets mem
    cases here.symm.trans here'
    refine exactly.1 (keeps.waits (_, some a) ?_) a rfl
    rw [waits]
    exact List.mem_append_right _ (List.mem_map_of_mem mem)
  · rintro ⟨-, fits⟩
    refine ⟨?_, fun w mem => ?_⟩
    · rw [datas, setting]
      exact h.keeps.timeouts
    · rw [waits] at mem
      rcases List.mem_append.1 mem with old | new
      · exact h.keeps.waits w old
      · obtain ⟨armed, inside, rfl⟩ := List.mem_map.1 new
        obtain ⟨ctx, here, exactly⟩ := meets inside
        exact exactly.2 fun a is => fits ctx here r called a (is ▸ inside)

/-- From a state of a run, one more step keeps the timeouts exactly under the condition. -/
theorem keeps_iff {l : Label} (h : Kept s) (e : s.step E clock manager l = some s') (computes : Computes E s l) :
    Keeps s' ↔ Suits E clock manager s l := by
  cases l with
  | setsockopt m d optval optlen =>
    obtain ⟨ctx, sec, usec, stores⟩ := stores_of_set e
    exact stores.keeps_iff h.keeps computes
  | io m d c n => exact io_keeps h e

theorem Kept.step {l : Label} (h : Kept s) (suits : Suits E clock manager s l) (e : s.step E clock manager l = some s') :
    Kept s' := by
  have keeps := (keeps_iff h e suits.1).2 suits
  cases l with
  | setsockopt m d optval optlen =>
    obtain ⟨ctx, sec, usec, stores⟩ := stores_of_set e
    exact ⟨keeps, stores.whole h suits, stores.armed.trans h.unarmed⟩
  | io m d c n =>
    obtain ⟨-, -, -, setting, armed, -⟩ := io_logs h.unarmed e
    refine ⟨keeps, ?_, armed⟩
    rw [setting]
    exact h.whole

end Settings

end Timeouts

/-- **Main theorem.** In every run in which a call of `setsockopt` that fails asks for what
is set already, and one that succeeds for whole milliseconds and more than none, every wait
whose deadline does not overflow has the timer that was asked for; and each such state keeps
the timeouts in exactly these steps, as far as the milliseconds are computed at all. -/
theorem timeouts_as_asked {σ : Type} {E : Env σ} {clock : σ → TimePoint} {manager : Bool} {env : σ}
    {datas : Nat → Option FdCtx} (s : Timeouts σ)
    (h : (Timeouts.machine E clock manager env datas).ReachIf (Timeouts.Suits E clock manager) s) :
    Timeouts.Keeps s ∧ ∀ l s', s.step E clock manager l = some s' → Timeouts.Computes E s l →
      (Timeouts.Keeps s' ↔ Timeouts.Suits E clock manager s l) := by
  have kept : Timeouts.Kept s := h.invariant (Timeouts.kept_init env datas) fun _ _ _ kept suits e => kept.step suits e
  exact ⟨kept.keeps, fun l s' e => Timeouts.keeps_iff kept e⟩

/-- A socket without data until the first wait. A pointer is the microseconds of its
`timeval`, and the kernel takes options of 16 bytes. -/
def lateData : Env Bool where
  original ready
    | .recv _ _ _ _ => if ready then ⟨ready, 1, none⟩ else ⟨ready, -1, some EAGAIN⟩
    | .setsockopt _ _ _ _ optlen => ⟨ready, if optlen = 16 then 0 else -1, none⟩
    | _ => ⟨ready, 0, none⟩
  fstat _ _ := some true
  int _ _ := some 0
  time _ p := some (p / 1000000, p % 1000000)
  error := 0
  len := 0
  addTimer ready _ := ready
  cancelTimer ready := ready
  addEvent ready _ _ := (ready, true)
  cancelAll ready _ := ready
  suspend _ datas := ⟨true, datas, false⟩

/-- The context of socket 3. -/
def socketThree (m : Nat) : Option FdCtx :=
  if m = 3 then some { isInit := true, isSocket := true, sysNonblock := true } else none

/-- A receive timeout of 1.5 s is set, a second call that fails asks for it again, and a
receive waits. -/
theorem timeouts_as_asked_receive : ∃ s : Timeouts Bool, Timeouts.Keeps s ∧
    s.waits = [(some (1, 500000), some (.make 7 1500))] ∧ (s.world.datas 3).map FdCtx.sendTimeout = some noTimeout := by
  have start : (Timeouts.machine lateData (fun _ => 7) true false socketThree).ReachIf
    (Timeouts.Suits lateData (fun _ => 7) true) _ := .init
  have set := start.next (.setsockopt 3 .receive 1500000 16) ⟨fun sec usec time => (by cases time; decide),
    fun sec usec time => (by
      cases time
      refine ⟨fun failed => ?_, fun _ => by decide⟩
      cases failed)⟩ rfl
  have again := set.next (.setsockopt 3 .receive 1500000 0) ⟨fun sec usec time => (by cases time; decide),
    fun sec usec time => (by
      cases time
      refine ⟨fun _ ctx here => ?_, fun succeeded => absurd rfl succeeded⟩
      cases here
      rfl)⟩ rfl
  have waited := again.next (.io 3 .receive (.recv 3 0 8 0) 2) ⟨trivial, fun ctx here r called a mem => (by
    cases here
    cases called
    cases List.mem_singleton.1 mem
    decide)⟩ rfl
  exact ⟨_, (timeouts_as_asked _ waited).1, rfl, rfl⟩

/-- A timeout of 0 gives a timer of 0 ms, half a millisecond gives one as well, a call
that fails sets its timeout, and the deadline of 10^10 seconds is in the past. -/
theorem zero_times_out : (¬ ∀ (E : Env Bool) (clock : Bool → TimePoint) (manager env : Bool) (datas : Nat → Option FdCtx)
      (s : Timeouts Bool), (Timeouts.machine E clock manager env datas).Reach s → Timeouts.Keeps s) ∧
    (∃ s, (Timeouts.machine lateData (fun _ => 7) true false socketThree).Reach s ∧
      s.waits = [(some (0, 0), some (.make 7 0))]) ∧
    (∃ s, (Timeouts.machine lateData (fun _ => 7) true false socketThree).Reach s ∧
      s.waits = [(some (0, 500), some (.make 7 0))]) ∧
    (∃ s, (Timeouts.machine lateData (fun _ => 7) true false socketThree).Reach s ∧
      s.waits = [(none, some (.make 7 1500))]) ∧
    ∃ s a, (Timeouts.machine lateData (fun _ => 7) true false socketThree).Reach s ∧
      s.waits = [(some (10000000000, 0), some a)] ∧ a.timer.next < a.now := by
  have waits (optval : Ptr) (optlen : Nat) {s : Timeouts Bool}
      (e : (Timeouts.machine lateData (fun _ => 7) true false socketThree).exec
        (Timeouts.machine lateData (fun _ => 7) true false socketThree).init
        [.setsockopt 3 .receive optval optlen, .io 3 .receive (.recv 3 0 8 0) 2] = some s) :
      (Timeouts.machine lateData (fun _ => 7) true false socketThree).Reach s := Machine.reach_of_exec e
  refine ⟨fun all => ?_, ⟨_, waits 0 16 rfl, rfl⟩, ⟨_, waits 500 16 rfl, rfl⟩, ⟨_, waits 1500000 0 rfl, rfl⟩,
    ⟨_, .make 7 10000000000000, waits 10000000000000000 16 rfl, rfl, by decide⟩⟩
  obtain ⟨-, means⟩ := (all lateData (fun _ => 7) true false socketThree _ (waits 0 16 rfl)).timeouts 3 _ rfl .receive
  have word : 0 = noTimeout := means
  cases word

end Mycoroutine.Interpose
