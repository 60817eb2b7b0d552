import Mycoroutine.Interleave.Mortal
import Mycoroutine.Sync.Channel
import Mycoroutine.Sync.CoMutex

/-!
# Waiters of a destroyed scheduler

A fiber belongs to a scheduler. When the scheduler is destroyed its `SchedulerRef`
is invalidated, but the waiters its suspended fibers left in the queues stay there:
`PopWaiterFront` still takes them, and only `NotifyWaiter` finds nobody to
schedule.

`stop()` and the destructor are one step here: a waiter notified in between is put
into a task queue that no worker reads any more.
-/

namespace Mycoroutine
set_option autoImplicit false
open Interleave

/-! ## `CoMutex` -/

namespace CoMutex

/-- The fiber that takes a step. -/
def Label.fiber : Label → FiberId
  | .lock f | .tryLock f | .unlock f | .notify f | .check f | .recheck f | .retry f => f

section Mortal

variable (scheduler : FiberId → Nat)

/-- A mutex shared by the fibers of several schedulers. -/
def shared : Machine (Mortal State Nat) (MortalLabel Label Nat) := machine.mortal (scheduler ·.fiber)

variable (s : Mortal State Nat)

/-- An `unlock` made the fiber the owner, and it has not run since. -/
def Handed (f : FiberId) : Prop := s.base.mutex.ownerFiberId = f.id ∧ s.base.pc f = .suspended

/-- What `stop()` waits for: no fiber of the scheduler runs or is scheduled. One
that holds the mutex may be suspended in something else. -/
def AtRest (k : Nat) : Prop := ∀ f, scheduler f = k →
  s.base.pc f = .idle ∨ s.base.pc f = .holding ∨ s.base.pc f = .suspended ∧ s.base.notified f = false

/-- Schedulers are destroyed at rest only. -/
def Orderly : MortalLabel Label Nat → Prop
  | .leave k => AtRest scheduler s k
  | _ => True

/-- `unlock` pops a waiter that lives, or none of the others does; no fiber queues
behind an owner that is gone; no scheduler is destroyed between the pop and the
`NotifyWaiter` of one of its waiters while others wait. -/
def SkipsNoLiving : MortalLabel Label Nat → Prop
  | .own (.unlock _) =>
    match s.base.mutex.waiters with
    | [] => True
    | next :: rest => s.gone (scheduler next) = false ∨ ∀ w ∈ rest, s.gone (scheduler w) = true
  | .own (.lock _) | .own (.retry _) => ∀ g, Handed s g → s.gone (scheduler g) = false
  | .leave k => ∀ g, Handed s g → scheduler g = k →
    ∀ w ∈ s.base.mutex.waiters, scheduler w = k ∨ s.gone (scheduler w) = true
  | _ => True

/-- No `unlock` has left the mutex to a fiber that can no longer be scheduled while
another waiter is alive. -/
def SparesLiving : Prop := ∀ f, Handed s f → s.gone (scheduler f) = true →
  ∀ w ∈ s.base.mutex.waiters, s.gone (scheduler w) = true

variable {scheduler s}

/-- The queue and the owner are kept, and no fiber but a living one starts to wait. -/
theorem SparesLiving.keep {base : State} (h : SparesLiving scheduler s)
    (owner : base.mutex.ownerFiberId = s.base.mutex.ownerFiberId) (waiters : base.mutex.waiters = s.base.mutex.waiters)
    (pc : ∀ f, base.pc f = .suspended → s.base.pc f = .suspended) : SparesLiving scheduler { s with base } := by
  rintro f ⟨owns, waits⟩ gone w mem
  exact h f ⟨owner ▸ owns, pc f waits⟩ gone w (waiters ▸ mem)

theorem sparesLiving_enterLock {f : FiberId} (lives : s.gone (scheduler f) = false)
    (owners : ∀ g, Handed s g → s.gone (scheduler g) = false) :
    SparesLiving scheduler { s with base := s.base.enterLock f } := by
  cases locked : s.base.mutex.locked with
  | false =>
    simp only [State.enterLock, lockSection, locked, Bool.not_false, if_true]
    rintro g ⟨owns, waits⟩ gone
    cases FiberId.eq_of_id owns
    simp at waits
  | true =>
    simp only [State.enterLock, lockSection, locked, Bool.not_true, Bool.false_eq_true, if_false]
    rintro g ⟨owns, waits⟩ gone
    by_cases mine : g = f
    · subst mine
      cases lives.symm.trans gone
    · simp only [Function.update_of_ne mine] at waits
      cases (owners g ⟨owns, waits⟩).symm.trans gone

theorem SparesLiving.step {s' : Mortal State Nat} {l : MortalLabel Label Nat} (h : SparesLiving scheduler s)
    (cond : SkipsNoLiving scheduler s l) (e : (shared scheduler).step s l = some s') : SparesLiving scheduler s' := by
  cases l with
  | leave k =>
    cases e
    rintro f handed gone w mem
    simp only [Function.update_apply] at gone ⊢
    split at gone
    · rename_i mine
      split
      · rfl
      · rename_i apart
        exact (cond f handed mine w mem).resolve_left apart
    · split
      · rfl
      · exact h f handed gone w mem
  | own l =>
    obtain ⟨lives, base, moved, rfl⟩ := Machine.mortal_own e
    have other : ∀ {f : FiberId} {pc : Pc}, pc ≠ .suspended →
        ∀ g, Function.update s.base.pc f pc g = .suspended → s.base.pc g = .suspended := by
      intro f pc awake g waits
      rw [Function.update_apply] at waits
      split at waits
      · exact absurd waits awake
      · exact waits
    cases l with
    | lock f =>
      simp only [machine, CoMutex.step] at moved
      split at moved <;> cases moved
      exact sparesLiving_enterLock lives cond
    | retry f =>
      simp only [machine, CoMutex.step] at moved
      split at moved <;> cases moved
      exact sparesLiving_enterLock lives cond
    | tryLock f =>
      simp only [machine, CoMutex.step, tryLockSection] at moved
      cases locked : s.base.mutex.locked with
      | true =>
        simp only [locked, if_true] at moved
        split at moved <;> cases moved <;> exact h
      | false =>
        simp only [locked, Bool.false_eq_true, if_false] at moved
        split at moved <;> cases moved
        all_goals
          rintro g ⟨owns, waits⟩ gone
          cases FiberId.eq_of_id owns
          simp at waits
    | unlock f =>
      simp only [machine, CoMutex.step] at moved
      split at moved
      · cases queue : s.base.mutex.waiters with
        | nil =>
          simp only [unlockSection, queue, popWaiterFront_nil] at moved
          split at moved
          · rename_i section'
            split at section' <;> cases section'
            cases moved
            rintro g ⟨owns, waits⟩ gone w mem
            cases mem
          · rename_i section'
            split at section' <;> cases section'
          · cases moved
        | cons next rest =>
          simp only [unlockSection, queue, popWaiterFront_cons] at moved
          split at moved
          · rename_i section'
            split at section' <;> cases section'
          · rename_i section'
            split at section' <;> cases section'
            cases moved
            simp only [SkipsNoLiving, queue] at cond
            rintro g ⟨owns, waits⟩ gone w mem
            cases FiberId.eq_of_id owns
            rcases cond with living | others
            · cases living.symm.trans gone
            · exact others w mem
          · cases moved
      · cases moved
    | notify f =>
      simp only [machine, CoMutex.step] at moved
      split at moved <;> cases moved
      exact h.keep rfl rfl (other (by simp))
    | check f =>
      simp only [machine, CoMutex.step] at moved
      split at moved <;> cases moved
      split
      · exact h.keep rfl rfl (other (by simp))
      · exact h
    | recheck f =>
      simp only [machine, CoMutex.step] at moved
      split at moved
      · split at moved <;> cases moved
        · exact h.keep rfl rfl (other (by simp))
        · exact h.keep rfl rfl (other (by simp))
      · cases moved

theorem sparesLiving_of_reach (h : (shared scheduler).ReachIf (SkipsNoLiving scheduler) s) : SparesLiving scheduler s := by
  induction h with
  | init =>
    rintro f ⟨owns, -⟩
    cases f.real owns.symm
  | step _ cond e ih => exact ih.step cond e

end Mortal

end CoMutex

/-! ## `Channel<T>` -/

namespace Channel

section Mortal

variable {T : Type}

/-- The call that takes a step. -/
def Label.call : Label T → CallId
  | .send c _ _ | .recv c | .close c | .enter c | .notify c | .check c => c

/-- The waiters a call has popped and not notified yet. -/
def Pc.popped : Pc T → List CallId
  | .sendNotify _ receiverToWake => [receiverToWake]
  | .recvNotify _ senderToWake => [senderToWake]
  | .closeNotify toWake => toWake
  | _ => []

/-- The waiters a call's next locked section takes its wakeups from. -/
def State.sideToWake (s : State T) (c : CallId) : List CallId :=
  match s.pc c with
  | .sendEnter .. => if !s.ch.closed && s.ch.canSend then s.ch.receiverWaiters else []
  | .recvEnter _ => if s.ch.buffer.isEmpty && s.ch.closed then [] else s.ch.senderWaiters
  | .closeEnter => if s.ch.closed then [] else s.ch.senderWaiters ++ s.ch.receiverWaiters
  | _ => []

/-- A channel shared by the fibers of several schedulers, with history: what a
call's latest section popped, whether a living waiter was queued there, and whom
`NotifyWaiter` scheduled since. -/
structure Shared (T : Type) where
  channel : Mortal (State T) Nat
  took : CallId → List CallId
  owed : CallId → Bool
  told : CallId → List CallId

variable (scheduler : CallId → Nat)

def Shared.lives (s : Shared T) (w : CallId) : Bool := !s.channel.gone (scheduler w)

def Shared.popped (s : Shared T) (c : CallId) : List CallId := (s.channel.base.pc c).popped

/-- What a step adds to the history. -/
def Shared.log (s : Shared T) (channel : Mortal (State T) Nat) : MortalLabel (Label T) Nat → Shared T
  | .own (.enter c) =>
    { channel, took := Function.update s.took c (channel.base.pc c).popped,
      owed := Function.update s.owed c ((s.channel.base.sideToWake c).any (s.lives scheduler)),
      told := Function.update s.told c [] }
  | .own (.notify c) =>
    { s with channel, told := Function.update s.told c (s.told c ++ ((s.popped c).take 1).filter (s.lives scheduler)) }
  | _ => { s with channel }

/-- The channel with its history. -/
def shared (T : Type) (capacity : Nat) (scheduler : CallId → Nat) :
    Machine (Shared T) (MortalLabel (Label T) Nat) where
  init := ⟨((machine T capacity).mortal (scheduler ·.call)).init, fun _ => [], fun _ => false, fun _ => []⟩
  step s l := (((machine T capacity).mortal (scheduler ·.call)).step s.channel l).map (s.log scheduler · l)

variable (s : Shared T)

/-- What `stop()` waits for: no call of the scheduler runs or is scheduled. -/
def AtRest (k : Nat) : Prop := ∀ c, scheduler c = k →
  match s.channel.base.pc c with
  | .idle | .sendDone .. | .recvDone _ | .closeDone => True
  | .sendWait _ | .recvWait => s.channel.base.notified c = false
  | _ => False

/-- Schedulers are destroyed at rest only. -/
def Orderly : MortalLabel (Label T) Nat → Prop
  | .leave k => AtRest scheduler s k
  | _ => True

/-- `send` and `recv` pop a waiter that lives, or none of the others does; no
scheduler is destroyed between the pop and the `NotifyWaiter` of the only living
waiter some call has to wake. -/
def SkipsNoLiving : MortalLabel (Label T) Nat → Prop
  | .own (.enter c) =>
    match s.channel.base.pc c, s.channel.base.sideToWake c with
    | .closeEnter, _ | _, [] => True
    | _, w :: rest => s.lives scheduler w = true ∨ ∀ v ∈ rest, s.lives scheduler v = false
  | .leave k => ∀ c, s.owed c = true → s.told c = [] → ∃ w ∈ s.popped c, s.lives scheduler w = true ∧ scheduler w ≠ k
  | _ => True

/-- A section that pops waiters wakes a living one if one is queued, and `close`
wakes all that live. -/
structure WakesLiving : Prop where
  wakes : ∀ c, s.owed c = true → s.popped c = [] → s.told c ≠ []
  closes : ∀ c, s.channel.base.pc c = .closeDone → ∀ w ∈ s.took c, w ∈ s.told c ∨ s.lives scheduler w = false
  queued : ∀ c, ∀ w ∈ s.told c, w ∈ s.took c

/-- The wakeups that are owed, and those that are on their way. -/
structure Owing : Prop where
  wakes : ∀ c, s.owed c = true → s.told c ≠ [] ∨ ∃ w ∈ s.popped c, s.lives scheduler w = true
  covers : ∀ c, ∀ w ∈ s.took c, w ∈ s.told c ∨ s.lives scheduler w = false ∨ w ∈ s.popped c
  inside : ∀ c w, w ∈ s.told c ∨ w ∈ s.popped c → w ∈ s.took c

variable {scheduler s}

/-- The other steps pop nothing and notify nobody. -/
theorem step_popped {b b' : State T} {l : Label T} (plain : ∀ c, l ≠ .enter c ∧ l ≠ .notify c) (e : step b l = some b')
    (c : CallId) : (b'.pc c).popped = (b.pc c).popped := by
  have turn : ∀ {x : CallId} {pc : Pc T}, (b.pc x).popped = [] → pc.popped = [] →
      (Function.update b.pc x pc c).popped = (b.pc c).popped := by
    intro x pc before after
    rw [Function.update_apply]
    split
    · rename_i mine
      rw [mine, before, after]
    · rfl
  cases l with
  | send x value rvalue =>
    simp only [step] at e
    split at e <;> cases e
    rename_i here
    exact turn (by rw [here]; rfl) rfl
  | recv x | close x =>
    simp only [step] at e
    split at e <;> cases e
    rename_i here
    exact turn (by rw [here]; rfl) rfl
  | enter x => exact absurd rfl (plain x).1
  | notify x => exact absurd rfl (plain x).2
  | check x =>
    simp only [step] at e
    split at e <;> cases e
    all_goals
      rename_i here
      split
      · exact turn (by rw [here]; rfl) rfl
      · rfl

/-- A locked section pops the first waiter of its side, `close` all of them. -/
theorem enter_popped {b b' : State T} {c : CallId} (e : step b (.enter c) = some b') :
    (b'.pc c).popped = (if b.pc c matches .closeEnter then b.sideToWake c else (b.sideToWake c).take 1) ∧
      ∀ x, x ≠ c → b'.pc x = b.pc x := by
  simp only [step] at e
  split at e <;> cases e
  · rename_i arg waited here
    simp only [State.sideToWake, here, Bool.false_eq_true, if_false]
    cases closed : b.ch.closed with
    | true => simp +contextual [State.enterSend, sendSection, closed, Pc.popped]
    | false =>
      cases can : b.ch.canSend with
      | false => simp +contextual [State.enterSend, sendSection, closed, can, Pc.popped]
      | true =>
        cases queue : b.ch.receiverWaiters with
        | nil => simp +contextual [State.enterSend, sendSection, closed, can, queue, Pc.popped]
        | cons r rs => simp +contextual [State.enterSend, sendSection, closed, can, queue, Pc.popped]
  · rename_i waited here
    simp only [State.sideToWake, here, Bool.false_eq_true, if_false]
    cases front : b.ch.buffer with
    | cons v rest =>
      cases queue : b.ch.senderWaiters with
      | nil => simp +contextual [State.enterRecv, recvSection, front, queue, Pc.popped]
      | cons w ws => simp +contextual [State.enterRecv, recvSection, front, queue, Pc.popped]
    | nil =>
      cases closed : b.ch.closed with
      | true => simp +contextual [State.enterRecv, recvSection, front, closed, Pc.popped]
      | false =>
        cases queue : b.ch.senderWaiters with
        | nil => simp +contextual [State.enterRecv, recvSection, front, closed, queue, Pc.popped]
        | cons w ws => simp +contextual [State.enterRecv, recvSection, front, closed, queue, Pc.popped]
  · rename_i here
    simp only [State.sideToWake, here, if_true]
    cases closed : b.ch.closed with
    | true => simp +contextual [State.enterClose, closeSection, closed, Pc.popped]
    | false => simp +contextual [State.enterClose, closeSection, closed, Pc.popped]

/-- `NotifyWaiter` is about the first waiter popped. -/
theorem notify_popped {b b' : State T} {c : CallId} (e : step b (.notify c) = some b') :
    (b'.pc c).popped = (b.pc c).popped.tail ∧ ∀ x, x ≠ c → b'.pc x = b.pc x := by
  simp only [step] at e
  split at e <;> cases e
  all_goals
    rename_i here
    simp +contextual [State.setPc, State.notify, here, Pc.popped]

/-- A section that pops the first waiter of its side owes nothing but to that one. -/
theorem owed_popped {b : State T} {c : CallId} (e : step s.channel.base (.enter c) = some b)
    (cond : SkipsNoLiving scheduler s (.own (.enter c)))
    (owed : (s.channel.base.sideToWake c).any (s.lives scheduler) = true) :
    ∃ w ∈ (b.pc c).popped, s.lives scheduler w = true := by
  obtain ⟨w, mem, lives⟩ := List.any_eq_true.1 owed
  rw [(enter_popped e).1]
  by_cases closes : s.channel.base.pc c = .closeEnter
  · exact ⟨w, by simpa [closes] using mem, lives⟩
  · cases side : s.channel.base.sideToWake c with
    | nil =>
      rw [side] at mem
      cases mem
    | cons v rest =>
      have first : s.lives scheduler v = true := by
        have either : s.lives scheduler v = true ∨ ∀ u ∈ rest, s.lives scheduler u = false := by
          simpa [SkipsNoLiving, side, closes] using cond
        refine either.elim id fun dead => ?_
        rw [side, List.mem_cons] at mem
        rcases mem with rfl | mem
        · exact lives
        · cases lives.symm.trans (dead w mem)
      refine ⟨v, ?_, first⟩
      cases s.channel.base.pc c <;> simp

theorem Owing.enter {b : State T} {c : CallId} (h : Owing scheduler s) (e : step s.channel.base (.enter c) = some b)
    (cond : SkipsNoLiving scheduler s (.own (.enter c))) :
    Owing scheduler (s.log scheduler { s.channel with base := b } (.own (.enter c))) := by
  have others := (enter_popped e).2
  refine ⟨fun x owed => ?_, fun x w mem => ?_, fun x w mem => ?_⟩
  all_goals by_cases mine : x = c
  · subst mine
    have found : (s.log scheduler { s.channel with base := b } (.own (.enter x))).owed x =
        (s.channel.base.sideToWake x).any (s.lives scheduler) := Function.update_self ..
    obtain ⟨w, mem, lives⟩ := owed_popped e cond (found.symm.trans owed)
    exact .inr ⟨w, mem, lives⟩
  · have before := h.wakes x (by simpa [Shared.log, mine] using owed)
    simpa only [Shared.log, Shared.popped, Shared.lives, Function.update_of_ne mine, others x mine] using before
  · subst mine
    refine .inr (.inr ?_)
    simpa [Shared.log, Shared.popped] using mem
  · have before := h.covers x w (by simpa [Shared.log, mine] using mem)
    simpa only [Shared.log, Shared.popped, Shared.lives, Function.update_of_ne mine, others x mine] using before
  · subst mine
    simpa [Shared.log, Shared.popped] using mem
  · have before := h.inside x w (by simpa [Shared.log, Shared.popped, mine, others x mine] using mem)
    simpa [Shared.log, mine] using before

theorem Owing.notify {b : State T} {c : CallId} (h : Owing scheduler s) (e : step s.channel.base (.notify c) = some b) :
    Owing scheduler (s.log scheduler { s.channel with base := b } (.own (.notify c))) := by
  obtain ⟨popped, others⟩ := notify_popped e
  have told : (s.log scheduler { s.channel with base := b } (.own (.notify c))).told c =
      s.told c ++ ((s.popped c).take 1).filter (s.lives scheduler) := Function.update_self ..
  have left : (s.log scheduler { s.channel with base := b } (.own (.notify c))).popped c = (s.popped c).tail := popped
  refine ⟨fun x owed => ?_, fun x w mem => ?_, fun x w mem => ?_⟩
  all_goals by_cases mine : x = c
  · subst mine
    rw [told, left]
    rcases h.wakes x owed with some' | ⟨w, mem, lives⟩
    · exact .inl fun none' => some' (List.append_eq_nil_iff.1 none').1
    · cases queue : s.popped x with
      | nil =>
        rw [queue] at mem
        cases mem
      | cons v rest =>
        rw [queue, List.mem_cons] at mem
        rcases mem with rfl | mem
        · exact .inl (by simp [lives])
        · exact .inr ⟨w, mem, lives⟩
  · have before := h.wakes x owed
    simpa only [Shared.log, Shared.popped, Shared.lives, Function.update_of_ne mine, others x mine] using before
  · subst mine
    rw [told, left]
    rcases h.covers x w mem with before | dead | waiting
    · exact .inl (List.mem_append_left _ before)
    · exact .inr (.inl dead)
    · cases queue : s.popped x with
      | nil =>
        rw [queue] at waiting
        cases waiting
      | cons v rest =>
        rw [queue, List.mem_cons] at waiting
        rcases waiting with rfl | waiting
        · cases lives : s.lives scheduler w with
          | false => exact .inr (.inl lives)
          | true => exact .inl (by simp [lives])
        · exact .inr (.inr waiting)
  · have before := h.covers x w mem
    simpa only [Shared.log, Shared.popped, Shared.lives, Function.update_of_ne mine, others x mine] using before
  · subst mine
    rw [told, left, List.mem_append, List.mem_filter] at mem
    refine h.inside x w ?_
    rcases mem with (before | ⟨first, -⟩) | rest
    · exact .inl before
    · exact .inr (List.mem_of_mem_take first)
    · exact .inr (List.mem_of_mem_tail rest)
  · have before := h.inside x w (by simpa [Shared.log, Shared.popped, mine, others x mine] using mem)
    exact before

theorem Owing.step {capacity : Nat} {s' : Shared T} {l : MortalLabel (Label T) Nat} (h : Owing scheduler s)
    (cond : SkipsNoLiving scheduler s l) (e : (shared T capacity scheduler).step s l = some s') : Owing scheduler s' := by
  obtain ⟨channel, moved, rfl⟩ := Option.map_eq_some_iff.1 e
  cases l with
  | leave k =>
    cases moved
    have gone : ∀ w, s.lives scheduler w = false →
        (!Function.update s.channel.gone k true (scheduler w)) = false := fun w dead => by
      rw [Function.update_apply]
      split
      · rfl
      · exact dead
    refine ⟨fun c owed => ?_, fun c w mem => (h.covers c w mem).imp_right (Or.imp_left (gone w)), h.inside⟩
    by_cases none' : s.told c = []
    · obtain ⟨w, mem, lives, apart⟩ := cond c owed none'
      refine .inr ⟨w, mem, ?_⟩
      simp only [Shared.lives, Shared.log, Function.update_of_ne apart]
      exact lives
    · exact .inl none'
  | own l =>
    obtain ⟨-, base, step, rfl⟩ := Machine.mortal_own moved
    have plain : (∀ c, l ≠ .enter c ∧ l ≠ .notify c) →
        Owing scheduler { s with channel := { s.channel with base } } := fun plain => by
      have same := step_popped plain step
      refine ⟨fun c owed => ?_, fun c w mem => ?_, fun c w mem => ?_⟩
      · simpa only [Shared.popped, Shared.lives, same] using h.wakes c owed
      · simpa only [Shared.popped, Shared.lives, same] using h.covers c w mem
      · refine h.inside c w ?_
        simpa only [Shared.popped, same] using mem
    cases l with
    | enter c => exact h.enter step cond
    | notify c => exact h.notify step
    | send c value rvalue | recv c | close c | check c => exact plain fun x => ⟨nofun, nofun⟩

theorem owing_of_reach {capacity : Nat} (h : (shared T capacity scheduler).ReachIf (SkipsNoLiving scheduler) s) :
    Owing scheduler s := by
  induction h with
  | init => exact ⟨nofun, nofun, by rintro c w (mem | mem) <;> cases mem⟩
  | step _ cond e ih => exact ih.step cond e

theorem Owing.wakesLiving (h : Owing scheduler s) : WakesLiving scheduler s := by
  refine ⟨fun c owed none' => ?_, fun c done w mem => ?_, fun c w mem => h.inside c w (.inl mem)⟩
  · refine (h.wakes c owed).resolve_right ?_
    rintro ⟨w, mem, -⟩
    rw [none'] at mem
    cases mem
  · have none' : s.popped c = [] := by rw [Shared.popped, done]; rfl
    refine (h.covers c w mem).imp_right fun rest => rest.resolve_right fun popped => ?_
    rw [none'] at popped
    cases popped

end Mortal

end Channel

/-! ## The contract -/

/-- **Main theorem.** In every run whose steps skip no living waiter, `unlock` never
leaves the mutex to a fiber that is gone while a living one waits, and `send`,
`recv` and `close` wake a living waiter whenever one is queued. -/
theorem spares_the_living (lockers : FiberId → Nat) (T : Type) (capacity : Nat) (callers : CallId → Nat) :
    (∀ s, (CoMutex.shared lockers).ReachIf (CoMutex.SkipsNoLiving lockers) s → CoMutex.SparesLiving lockers s) ∧
    ∀ s, (Channel.shared T capacity callers).ReachIf (Channel.SkipsNoLiving callers) s →
      Channel.WakesLiving callers s :=
  ⟨fun _ h => CoMutex.sparesLiving_of_reach h, fun _ h => (Channel.owing_of_reach h).wakesLiving⟩

/-- Fiber 2 belongs to scheduler 1, the others to scheduler 0. -/
def second (f : FiberId) : Nat := if f.id = 2 then 1 else 0

theorem second_eq {f : FiberId} (h : second f = 1) : f = ⟨2, by decide⟩ := by
  refine FiberId.eq_of_id ?_
  by_contra other
  simp [second, other] at h

/-- Call 0 belongs to scheduler 1, the others to scheduler 0. -/
def first (c : CallId) : Nat := if c = 0 then 1 else 0

theorem first_eq {c : CallId} (h : first c = 1) : c = 0 := by
  by_contra other
  simp [first, other] at h

def fiber (n : Nat) (real : UInt64.ofNat n ≠ kNoOwner := by decide) : FiberId := ⟨UInt64.ofNat n, real⟩

/-- Fiber 1 unlocks with 3 and then 2 in the queue, 2 being gone. Call 2 sends with
calls 1 and then 0 in the queue, 0 being gone. -/
theorem spares_the_living_behind :
    (∃ s, CoMutex.SparesLiving second s ∧ s.gone 1 = true ∧ s.base.mutex.ownerFiberId = 3) ∧
    ∃ s : Channel.Shared Nat, Channel.WakesLiving first s ∧ s.channel.gone 1 = true ∧ s.told 2 = [1] := by
  constructor
  · have start : (CoMutex.shared second).ReachIf (CoMutex.SkipsNoLiving second) _ := .init
    have locked := start.next (.own (.lock (fiber 1))) (fun _ _ => rfl) rfl
    have queued := (locked.next (.own (.lock (fiber 3))) (fun _ _ => rfl) rfl).next (.own (.lock (fiber 2)))
      (fun _ _ => rfl) rfl
    have destroyed := queued.next (.leave 1) (fun g handed => ?_) rfl
    · exact ⟨_, (spares_the_living second Nat 1 first).1 _ (destroyed.next (.own (.unlock (fiber 1))) (.inl rfl) rfl), rfl, rfl⟩
    · cases FiberId.eq_of_id (f := fiber 1) handed.1
      cases handed.2
  · have start : (Channel.shared Nat 1 first).ReachIf (Channel.SkipsNoLiving first) _ := .init
    have waits := (start.next (.own (.recv 1)) trivial rfl).next (.own (.enter 1)) trivial rfl
    have queued := (waits.next (.own (.recv 0)) trivial rfl).next (.own (.enter 0)) trivial rfl
    have destroyed := queued.next (.leave 1) (fun c owed => ?_) rfl
    · have sent := (destroyed.next (.own (.send 2 5 false)) trivial rfl).next (.own (.enter 2)) (.inl rfl) rfl
      exact ⟨_, (spares_the_living second Nat 1 first).2 _ (sent.next (.own (.notify 2)) trivial rfl), rfl, rfl⟩
    · -- nobody has sent yet
      match c with
      | 0 => cases owed
      | 1 => cases owed
      | n + 2 => cases owed

/-- Two schedulers share a mutex and a channel, and scheduler 1 is destroyed while
its waiter is first in the queue, a living one behind it. `unlock` makes the dead
waiter the owner; `send` wakes nobody. -/
theorem dead_waiter_first :
    (∃ s, (CoMutex.shared second).ReachIf (CoMutex.Orderly second) s ∧ ¬ CoMutex.SparesLiving second s) ∧
    ∃ s, (Channel.shared Nat 1 first).ReachIf (Channel.Orderly first) s ∧ ¬ Channel.WakesLiving first s := by
  constructor
  · have start : (CoMutex.shared second).ReachIf (CoMutex.Orderly second) _ := .init
    have queued := ((start.next (.own (.lock (fiber 1))) trivial rfl).next (.own (.lock (fiber 2))) trivial rfl).next
      (.own (.lock (fiber 3))) trivial rfl
    have destroyed := queued.next (.leave 1) (fun f mine => ?_) rfl
    · have unlocked := destroyed.next (.own (.unlock (fiber 1))) trivial rfl
      refine ⟨_, unlocked, fun spares => ?_⟩
      have dead := spares (fiber 2) ⟨rfl, rfl⟩ rfl (fiber 3) (List.mem_singleton_self _)
      cases dead
    · cases second_eq mine
      exact .inr (.inr ⟨rfl, rfl⟩)
  · have start : (Channel.shared Nat 1 first).ReachIf (Channel.Orderly first) _ := .init
    have waits := (start.next (.own (.recv 0)) trivial rfl).next (.own (.enter 0)) trivial rfl
    have queued := (waits.next (.own (.recv 1)) trivial rfl).next (.own (.enter 1)) trivial rfl
    have destroyed := queued.next (.leave 1) (fun c mine => ?_) rfl
    · have sent := (destroyed.next (.own (.send 2 5 false)) trivial rfl).next (.own (.enter 2)) trivial rfl
      refine ⟨_, sent.next (.own (.notify 2)) trivial rfl, fun wakes => ?_⟩
      exact wakes.wakes 2 rfl rfl rfl
    · cases first_eq mine
      rfl

end Mycoroutine
