import Mycoroutine.Interleave.Machine
import Mycoroutine.Sync.Waiter

/-!
# `Channel<T>`

The locked sections of `sendImpl`, `recv` and `close` are pure functions on the
channel's fields. A call runs through its sections, the notifications it sends
after unlocking, and `SuspendCurrentUntilNotified`; the machine interleaves the
steps of any number of calls. A call creates at most one `FiberWaiter` and uses
it for all its rounds, so the call's number also names its waiter. A resumed
fiber re-reads `notified` and yields again while it is false, so a resumption,
spurious or not, is one `check`; what schedules the fiber is not modelled here.

`enqueued`/`delivered` events and the two in-flight lists are history: no step
reads them.
-/

namespace Mycoroutine

open Interleave

/-- A call of `send`, `recv` or `close`, and the waiter it owns. -/
abbrev CallId := Nat

/-- The fields of `Channel<T>` that `m_mutex` protects. -/
structure Channel (T : Type) where
  capacity : Nat
  closed : Bool := false
  buffer : List T := []
  senderWaiters : List CallId := []
  receiverWaiters : List CallId := []

namespace Channel

/-- The argument of a `send`: `rvalue` for the `T&&` overload, `movedFrom` once
it has been moved out of. -/
structure Arg (T : Type) where
  value : T
  rvalue : Bool
  movedFrom : Bool := false

/-- The argument after `std::forward<U>(value)` initialised an element. -/
def Arg.forward {T : Type} (arg : Arg T) : Arg T := { arg with movedFrom := arg.movedFrom || arg.rvalue }

/-- What the locked section of one round of `sendImpl` leads to. -/
inductive SendSection where
  | refused
  | sent (receiverToWake : Option CallId)
  | queued

/-- What the locked section of one round of `recv` leads to. -/
inductive RecvSection (T : Type) where
  | refused
  | received (value : T) (senderToWake : Option CallId)
  | queued (senderToWake : Option CallId)

section Sections

variable {T : Type}

/-- `can_send`. -/
def canSend (ch : Channel T) : Bool :=
  if ch.capacity = 0 then !ch.receiverWaiters.isEmpty && ch.buffer.isEmpty
  else decide (ch.buffer.length < ch.capacity)

/-- The locked section of `sendImpl`. -/
def sendSection (ch : Channel T) (self : CallId) (value : T) : SendSection × Channel T :=
  if ch.closed then (.refused, ch)
  else if ch.canSend then
    (.sent (popWaiterFront ch.receiverWaiters).1,
      { ch with buffer := ch.buffer ++ [value], receiverWaiters := (popWaiterFront ch.receiverWaiters).2 })
  else (.queued, { ch with senderWaiters := ch.senderWaiters ++ [self] })

/-- The locked section of `recv`. -/
def recvSection (ch : Channel T) (self : CallId) : RecvSection T × Channel T :=
  match ch.buffer with
  | value :: rest =>
    (.received value (popWaiterFront ch.senderWaiters).1,
      { ch with buffer := rest, senderWaiters := (popWaiterFront ch.senderWaiters).2 })
  | [] =>
    if ch.closed then (.refused, ch)
    else
      (.queued (popWaiterFront ch.senderWaiters).1,
        { ch with senderWaiters := (popWaiterFront ch.senderWaiters).2,
                  receiverWaiters := ch.receiverWaiters ++ [self] })

/-- The locked section of `close`, with `to_wake`. -/
def closeSection (ch : Channel T) : List CallId × Channel T :=
  if ch.closed then ([], ch)
  else (ch.senderWaiters ++ ch.receiverWaiters,
    { ch with closed := true, senderWaiters := [], receiverWaiters := [] })

end Sections

/-- Where a call stands. `Enter` is just before a locked section (`waited` once
`self_waiter` exists), `Notify` before the `NotifyWaiter` of a popped peer,
`Wait` inside `SuspendCurrentUntilNotified`. -/
inductive Pc (T : Type) where
  | idle
  | sendEnter (arg : Arg T) (waited : Bool)
  | sendNotify (arg : Arg T) (receiverToWake : CallId)
  | sendWait (arg : Arg T)
  | sendDone (arg : Arg T) (ret : Bool)
  | recvEnter (waited : Bool)
  | recvNotify (received : Option T) (senderToWake : CallId)
  | recvWait
  | recvDone (ret : Option T)
  | closeEnter
  | closeNotify (toWake : List CallId)
  | closeDone

/-- What a locked section did to the buffer, in critical-section order. -/
inductive Event (T : Type) where
  | enqueued (call : CallId) (value : T)
  | delivered (call : CallId) (value : T)

structure State (T : Type) where
  ch : Channel T
  pc : CallId → Pc T
  notified : CallId → Bool
  events : List (Event T)
  sendersInFlight : List CallId
  receiversInFlight : List CallId

/-- One atomic step of one call. `enter` is a locked section, `notify` one
`NotifyWaiter`, `check` one resumption in `SuspendCurrentUntilNotified`. -/
inductive Label (T : Type) where
  | send (c : CallId) (value : T) (rvalue : Bool)
  | recv (c : CallId)
  | close (c : CallId)
  | enter (c : CallId)
  | notify (c : CallId)
  | check (c : CallId)

section Step

variable {T : Type}

def State.setPc (s : State T) (c : CallId) (pc : Pc T) : State T := { s with pc := Function.update s.pc c pc }

/-- The locked section of a `send` and the branch taken after it. -/
def State.enterSend (s : State T) (c : CallId) (arg : Arg T) : State T :=
  let inFlight := s.sendersInFlight.erase c
  match s.ch.sendSection c arg.value with
  | (.refused, ch) => { s with ch, sendersInFlight := inFlight, pc := Function.update s.pc c (.sendDone arg false) }
  | (.sent none, ch) =>
    { s with ch, sendersInFlight := inFlight, events := s.events ++ [.enqueued c arg.value],
             pc := Function.update s.pc c (.sendDone arg.forward true) }
  | (.sent (some r), ch) =>
    { s with ch, sendersInFlight := inFlight, events := s.events ++ [.enqueued c arg.value],
             receiversInFlight := s.receiversInFlight ++ [r],
             pc := Function.update s.pc c (.sendNotify arg.forward r) }
  | (.queued, ch) =>
    { s with ch, sendersInFlight := inFlight, notified := Function.update s.notified c false,
             pc := Function.update s.pc c (.sendWait arg) }

/-- The locked section of a `recv` and the branch taken after it. -/
def State.enterRecv (s : State T) (c : CallId) : State T :=
  let inFlight := s.receiversInFlight.erase c
  match s.ch.recvSection c with
  | (.refused, ch) => { s with ch, receiversInFlight := inFlight, pc := Function.update s.pc c (.recvDone none) }
  | (.received v none, ch) =>
    { s with ch, receiversInFlight := inFlight, events := s.events ++ [.delivered c v],
             pc := Function.update s.pc c (.recvDone (some v)) }
  | (.received v (some w), ch) =>
    { s with ch, receiversInFlight := inFlight, events := s.events ++ [.delivered c v],
             sendersInFlight := s.sendersInFlight ++ [w],
             pc := Function.update s.pc c (.recvNotify (some v) w) }
  | (.queued none, ch) =>
    { s with ch, receiversInFlight := inFlight, notified := Function.update s.notified c false,
             pc := Function.update s.pc c .recvWait }
  | (.queued (some w), ch) =>
    { s with ch, receiversInFlight := inFlight, notified := Function.update s.notified c false,
             sendersInFlight := s.sendersInFlight ++ [w],
             pc := Function.update s.pc c (.recvNotify none w) }

/-- The locked section of a `close`. -/
def State.enterClose (s : State T) (c : CallId) : State T :=
  let popped := if s.ch.closed then ([], []) else (s.ch.senderWaiters, s.ch.receiverWaiters)
  { s with ch := s.ch.closeSection.2,
           sendersInFlight := s.sendersInFlight ++ popped.1,
           receiversInFlight := s.receiversInFlight ++ popped.2,
           pc := Function.update s.pc c (.closeNotify s.ch.closeSection.1) }

/-- `waiter->notified.store(true)`. -/
def State.notify (s : State T) (waiter : CallId) : State T :=
  { s with notified := Function.update s.notified waiter true }

def step (s : State T) : Label T → Option (State T)
  | .send c value rvalue =>
    match s.pc c with
    | .idle => some (s.setPc c (.sendEnter { value, rvalue } false))
    | _ => none
  | .recv c =>
    match s.pc c with
    | .idle => some (s.setPc c (.recvEnter false))
    | _ => none
  | .close c =>
    match s.pc c with
    | .idle => some (s.setPc c .closeEnter)
    | _ => none
  | .enter c =>
    match s.pc c with
    | .sendEnter arg _ => some (s.enterSend c arg)
    | .recvEnter _ => some (s.enterRecv c)
    | .closeEnter => some (s.enterClose c)
    | _ => none
  | .notify c =>
    match s.pc c with
    | .sendNotify arg r => some ((s.notify r).setPc c (.sendDone arg true))
    | .recvNotify (some v) w => some ((s.notify w).setPc c (.recvDone (some v)))
    | .recvNotify none w => some ((s.notify w).setPc c .recvWait)
    | .closeNotify (w :: rest) => some ((s.notify w).setPc c (.closeNotify rest))
    | .closeNotify [] => some (s.setPc c .closeDone)
    | _ => none
  | .check c =>
    match s.pc c with
    | .sendWait arg => some (if s.notified c then s.setPc c (.sendEnter arg true) else s)
    | .recvWait => some (if s.notified c then s.setPc c (.recvEnter true) else s)
    | _ => none

/-- Any number of calls on one fresh channel. -/
def machine (T : Type) (capacity : Nat) : Machine (State T) (Label T) where
  init := { ch := { capacity }, pc := fun _ => .idle, notified := fun _ => false, events := [],
            sendersInFlight := [], receiversInFlight := [] }
  step := step

/-- What one step can do, one case for each branch of the source. -/
inductive Moves (s : State T) : State T → Prop where
  | called (c : CallId) (pc : Pc T) (idle : s.pc c = .idle)
      (first : (∃ value rvalue, pc = .sendEnter { value, rvalue } false) ∨ pc = .recvEnter false ∨ pc = .closeEnter) :
      Moves s (s.setPc c pc)
  | sendRefused (c : CallId) (arg : Arg T) (waited : Bool) (here : s.pc c = .sendEnter arg waited)
      (closed : s.ch.closed = true) :
      Moves s { s with sendersInFlight := s.sendersInFlight.erase c,
                       pc := Function.update s.pc c (.sendDone arg false) }
  | sendKept (c : CallId) (arg : Arg T) (waited : Bool) (here : s.pc c = .sendEnter arg waited)
      (opened : s.ch.closed = false) (can : s.ch.canSend = true) (alone : s.ch.receiverWaiters = []) :
      Moves s { s with ch := { s.ch with buffer := s.ch.buffer ++ [arg.value], receiverWaiters := [] },
                       sendersInFlight := s.sendersInFlight.erase c,
                       events := s.events ++ [.enqueued c arg.value],
                       pc := Function.update s.pc c (.sendDone arg.forward true) }
  | sendHanded (c : CallId) (arg : Arg T) (waited : Bool) (r : CallId) (rs : List CallId)
      (here : s.pc c = .sendEnter arg waited) (opened : s.ch.closed = false) (can : s.ch.canSend = true)
      (waiting : s.ch.receiverWaiters = r :: rs) :
      Moves s { s with ch := { s.ch with buffer := s.ch.buffer ++ [arg.value], receiverWaiters := rs },
                       sendersInFlight := s.sendersInFlight.erase c,
                       receiversInFlight := s.receiversInFlight ++ [r],
                       events := s.events ++ [.enqueued c arg.value],
                       pc := Function.update s.pc c (.sendNotify arg.forward r) }
  | sendQueued (c : CallId) (arg : Arg T) (waited : Bool) (here : s.pc c = .sendEnter arg waited)
      (opened : s.ch.closed = false) (cannot : s.ch.canSend = false) :
      Moves s { s with ch := { s.ch with senderWaiters := s.ch.senderWaiters ++ [c] },
                       sendersInFlight := s.sendersInFlight.erase c,
                       notified := Function.update s.notified c false,
                       pc := Function.update s.pc c (.sendWait arg) }
  | recvTook (c : CallId) (waited : Bool) (v : T) (rest : List T) (here : s.pc c = .recvEnter waited)
      (front : s.ch.buffer = v :: rest) (alone : s.ch.senderWaiters = []) :
      Moves s { s with ch := { s.ch with buffer := rest, senderWaiters := [] },
                       receiversInFlight := s.receiversInFlight.erase c,
                       events := s.events ++ [.delivered c v],
                       pc := Function.update s.pc c (.recvDone (some v)) }
  | recvTookWaking (c : CallId) (waited : Bool) (v : T) (rest : List T) (w : CallId) (ws : List CallId)
      (here : s.pc c = .recvEnter waited) (front : s.ch.buffer = v :: rest) (waiting : s.ch.senderWaiters = w :: ws) :
      Moves s { s with ch := { s.ch with buffer := rest, senderWaiters := ws },
                       receiversInFlight := s.receiversInFlight.erase c,
                       sendersInFlight := s.sendersInFlight ++ [w],
                       events := s.events ++ [.delivered c v],
                       pc := Function.update s.pc c (.recvNotify (some v) w) }
  | recvRefused (c : CallId) (waited : Bool) (here : s.pc c = .recvEnter waited) (empty : s.ch.buffer = [])
      (closed : s.ch.closed = true) :
      Moves s { s with receiversInFlight := s.receiversInFlight.erase c,
                       pc := Function.update s.pc c (.recvDone none) }
  | recvQueued (c : CallId) (waited : Bool) (here : s.pc c = .recvEnter waited) (empty : s.ch.buffer = [])
      (opened : s.ch.closed = false) (alone : s.ch.senderWaiters = []) :
      Moves s { s with ch := { s.ch with senderWaiters := [], receiverWaiters := s.ch.receiverWaiters ++ [c] },
                       receiversInFlight := s.receiversInFlight.erase c,
                       notified := Function.update s.notified c false,
                       pc := Function.update s.pc c .recvWait }
  | recvQueuedWaking (c : CallId) (waited : Bool) (w : CallId) (ws : List CallId)
      (here : s.pc c = .recvEnter waited) (empty : s.ch.buffer = []) (opened : s.ch.closed = false)
      (waiting : s.ch.senderWaiters = w :: ws) :
      Moves s { s with ch := { s.ch with senderWaiters := ws, receiverWaiters := s.ch.receiverWaiters ++ [c] },
                       receiversInFlight := s.receiversInFlight.erase c,
                       notified := Function.update s.notified c false,
                       sendersInFlight := s.sendersInFlight ++ [w],
                       pc := Function.update s.pc c (.recvNotify none w) }
  | closedFirst (c : CallId) (here : s.pc c = .closeEnter) (opened : s.ch.closed = false) :
      Moves s { s with ch := { s.ch with closed := true, senderWaiters := [], receiverWaiters := [] },
                       sendersInFlight := s.sendersInFlight ++ s.ch.senderWaiters,
                       receiversInFlight := s.receiversInFlight ++ s.ch.receiverWaiters,
                       pc := Function.update s.pc c (.closeNotify (s.ch.senderWaiters ++ s.ch.receiverWaiters)) }
  | closedAgain (c : CallId) (here : s.pc c = .closeEnter) (closed : s.ch.closed = true) :
      Moves s (s.setPc c (.closeNotify []))
  | notified (c w : CallId) (pc : Pc T)
      (leaving : (∃ arg, s.pc c = .sendNotify arg w ∧ pc = .sendDone arg true) ∨
        (∃ v, s.pc c = .recvNotify (some v) w ∧ pc = .recvDone (some v)) ∨
        (s.pc c = .recvNotify none w ∧ pc = .recvWait) ∨
        (∃ rest, s.pc c = .closeNotify (w :: rest) ∧ pc = .closeNotify rest)) :
      Moves s ((s.notify w).setPc c pc)
  | closeReturned (c : CallId) (here : s.pc c = .closeNotify []) : Moves s (s.setPc c .closeDone)
  | sendWoken (c : CallId) (arg : Arg T) (here : s.pc c = .sendWait arg) (told : s.notified c = true) :
      Moves s (s.setPc c (.sendEnter arg true))
  | recvWoken (c : CallId) (here : s.pc c = .recvWait) (told : s.notified c = true) :
      Moves s (s.setPc c (.recvEnter true))
  | yieldedAgain : Moves s s

theorem enterSend_moves {s : State T} {c : CallId} {arg : Arg T} {waited : Bool}
    (here : s.pc c = .sendEnter arg waited) : Moves s (s.enterSend c arg) := by
  cases closed : s.ch.closed with
  | true => simpa [State.enterSend, sendSection, closed] using Moves.sendRefused c arg waited here closed
  | false =>
    cases can : s.ch.canSend with
    | false => simpa [State.enterSend, sendSection, closed, can] using Moves.sendQueued c arg waited here closed can
    | true =>
      cases queue : s.ch.receiverWaiters with
      | nil =>
        simpa [State.enterSend, sendSection, closed, can, queue] using
          Moves.sendKept c arg waited here closed can queue
      | cons r rs =>
        simpa [State.enterSend, sendSection, closed, can, queue] using
          Moves.sendHanded c arg waited r rs here closed can queue

theorem enterRecv_moves {s : State T} {c : CallId} {waited : Bool}
    (here : s.pc c = .recvEnter waited) : Moves s (s.enterRecv c) := by
  cases front : s.ch.buffer with
  | cons v rest =>
    cases queue : s.ch.senderWaiters with
    | nil =>
      simpa [State.enterRecv, recvSection, front, queue] using Moves.recvTook c waited v rest here front queue
    | cons w ws =>
      simpa [State.enterRecv, recvSection, front, queue] using
        Moves.recvTookWaking c waited v rest w ws here front queue
  | nil =>
    cases closed : s.ch.closed with
    | true => simpa [State.enterRecv, recvSection, front, closed] using Moves.recvRefused c waited here front closed
    | false =>
      cases queue : s.ch.senderWaiters with
      | nil =>
        simpa [State.enterRecv, recvSection, front, closed, queue] using
          Moves.recvQueued c waited here front closed queue
      | cons w ws =>
        simpa [State.enterRecv, recvSection, front, closed, queue] using
          Moves.recvQueuedWaking c waited w ws here front closed queue

theorem enterClose_moves {s : State T} {c : CallId} (here : s.pc c = .closeEnter) : Moves s (s.enterClose c) := by
  cases closed : s.ch.closed with
  | true => simpa [State.enterClose, closeSection, closed, State.setPc] using Moves.closedAgain c here closed
  | false => simpa [State.enterClose, closeSection, closed] using Moves.closedFirst c here closed

/-- Every enabled step is one of the moves. -/
theorem step_moves {s s' : State T} {l : Label T} (h : step s l = some s') : Moves s s' := by
  cases l with
  | send c value rvalue =>
    simp only [step] at h
    split at h <;> cases h
    exact .called c _ ‹_› (.inl ⟨value, rvalue, rfl⟩)
  | recv c =>
    simp only [step] at h
    split at h <;> cases h
    exact .called c _ ‹_› (.inr (.inl rfl))
  | close c =>
    simp only [step] at h
    split at h <;> cases h
    exact .called c _ ‹_› (.inr (.inr rfl))
  | enter c =>
    simp only [step] at h
    split at h <;> cases h
    · exact enterSend_moves ‹_›
    · exact enterRecv_moves ‹_›
    · exact enterClose_moves ‹_›
  | notify c =>
    simp only [step] at h
    split at h <;> cases h
    · exact .notified c _ _ (.inl ⟨_, ‹_›, rfl⟩)
    · exact .notified c _ _ (.inr (.inl ⟨_, ‹_›, rfl⟩))
    · exact .notified c _ _ (.inr (.inr (.inl ⟨‹_›, rfl⟩)))
    · exact .notified c _ _ (.inr (.inr (.inr ⟨_, ‹_›, rfl⟩)))
    · exact .closeReturned c ‹_›
  | check c =>
    simp only [step] at h
    split at h <;> cases h
    · split
      · exact .sendWoken c _ ‹_› ‹_›
      · exact .yieldedAgain
    · split
      · exact .recvWoken c ‹_› ‹_›
      · exact .yieldedAgain

end Step

end Channel

end Mycoroutine
