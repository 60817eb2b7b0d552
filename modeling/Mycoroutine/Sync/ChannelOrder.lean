import Mycoroutine.Sync.Channel
import Mathlib.Data.List.Chain
import Mathlib.Tactic.Cases

/-!
# Exactly-once, in-order delivery

The events of a run are the buffer operations in critical-section order. What
was delivered followed by what is buffered is what was enqueued, each call
enqueues or receives at most its own value, once, and a channel of capacity 0
alternates the two kinds of event.
-/

namespace Mycoroutine.Channel
set_option autoImplicit false
open Interleave

variable {T : Type}

def Event.isSend : Event T → Bool
  | .enqueued _ _ => true
  | .delivered _ _ => false

/-- The values enqueued, in critical-section order. -/
def enqueuedValues (events : List (Event T)) : List T :=
  events.filterMap fun | .enqueued _ v => some v | .delivered _ _ => none

/-- The values delivered, in critical-section order. -/
def deliveredValues (events : List (Event T)) : List T :=
  events.filterMap fun | .enqueued _ _ => none | .delivered _ v => some v

/-- The values call `c` enqueued. -/
def enqueuedBy (c : CallId) (events : List (Event T)) : List T :=
  events.filterMap fun | .enqueued d v => if d = c then some v else none | .delivered _ _ => none

/-- The values delivered to call `c`. -/
def deliveredTo (c : CallId) (events : List (Event T)) : List T :=
  events.filterMap fun | .enqueued _ _ => none | .delivered d v => if d = c then some v else none

/-- An enqueue first, and then the two kinds of event in turn. -/
def Alternates (events : List (Event T)) : Prop :=
  events.IsChain (fun a b => a.isSend = !b.isSend) ∧ ∀ e ∈ events.head?, e.isSend = true

/-- What a call has enqueued so far, read off where it stands. -/
def Pc.sent : Pc T → List T
  | .sendNotify arg _ | .sendDone arg true => [arg.value]
  | _ => []

/-- What a call has received so far, read off where it stands. -/
def Pc.got : Pc T → List T
  | .recvNotify (some v) _ | .recvDone (some v) => [v]
  | _ => []

/-- Whether the argument of a send that has not enqueued is still intact. -/
def Pc.Intact : Pc T → Prop
  | .sendEnter arg _ | .sendWait arg | .sendDone arg false => arg.movedFrom = false
  | _ => True

section Events

variable {events : List (Event T)} {c d : CallId} {v : T}

@[simp] theorem enqueuedValues_enqueued :
    enqueuedValues (events ++ [.enqueued c v]) = enqueuedValues events ++ [v] := by simp [enqueuedValues]

@[simp] theorem enqueuedValues_delivered :
    enqueuedValues (events ++ [.delivered c v]) = enqueuedValues events := by simp [enqueuedValues]

@[simp] theorem deliveredValues_enqueued :
    deliveredValues (events ++ [.enqueued c v]) = deliveredValues events := by simp [deliveredValues]

@[simp] theorem deliveredValues_delivered :
    deliveredValues (events ++ [.delivered c v]) = deliveredValues events ++ [v] := by simp [deliveredValues]

@[simp] theorem enqueuedBy_enqueued :
    enqueuedBy d (events ++ [.enqueued c v]) = enqueuedBy d events ++ if c = d then [v] else [] := by
  by_cases e : c = d <;> simp [enqueuedBy, e]

@[simp] theorem enqueuedBy_delivered : enqueuedBy d (events ++ [.delivered c v]) = enqueuedBy d events := by
  simp [enqueuedBy]

@[simp] theorem deliveredTo_enqueued : deliveredTo d (events ++ [.enqueued c v]) = deliveredTo d events := by
  simp [deliveredTo]

@[simp] theorem deliveredTo_delivered :
    deliveredTo d (events ++ [.delivered c v]) = deliveredTo d events ++ if c = d then [v] else [] := by
  by_cases e : c = d <;> simp [deliveredTo, e]

end Events

/-- The invariant behind ordered delivery on a channel of capacity `n`. -/
structure Ordered (n : Nat) (s : State T) : Prop where
  capacity : s.ch.capacity = n
  fifo : deliveredValues s.events ++ s.ch.buffer = enqueuedValues s.events
  bound : s.ch.buffer.length ≤ max n 1
  alternates : n = 0 → Alternates s.events
  last : n = 0 → (s.ch.buffer = [] ↔ ∀ e ∈ s.events.getLast?, e.isSend = false)
  sends : ∀ c, enqueuedBy c s.events = (s.pc c).sent
  receives : ∀ c, deliveredTo c s.events = (s.pc c).got
  intact : ∀ c, (s.pc c).Intact
  drained : ∀ c, s.pc c = .recvDone none → s.ch.closed = true ∧ s.ch.buffer = []

theorem ordered_init (n : Nat) : Ordered n (machine T n).init := by
  constructor <;> simp [machine, enqueuedValues, deliveredValues, enqueuedBy, deliveredTo, Pc.sent, Pc.got,
    Pc.Intact, Alternates]

theorem Alternates.snoc {events : List (Event T)} {e : Event T} (h : Alternates events)
    (turn : (∀ b ∈ events.getLast?, b.isSend = false) ↔ e.isSend = true) : Alternates (events ++ [e]) := by
  refine ⟨List.isChain_append.2 ⟨h.1, List.isChain_singleton _, fun a ha b hb => ?_⟩, fun a ha => ?_⟩
  · cases hb
    have : (∀ b ∈ events.getLast?, b.isSend = false) ↔ a.isSend = false := by
      constructor
      · intro all
        exact all a ha
      · intro no b hb
        rw [Option.mem_def] at ha hb
        rw [ha] at hb
        cases hb
        exact no
    rw [this] at turn
    cases ea : a.isSend <;> cases eb : e.isSend <;> simp_all
  · cases events with
    | nil =>
      cases ha
      exact turn.1 (by simp)
    | cons b rest =>
      cases ha
      exact h.2 _ rfl

/-- A step that moves one call without touching the buffer or the history. -/
theorem Ordered.advance {n : Nat} {s s' : State T} (h : Ordered n s) {c : CallId} {pc : Pc T}
    (capacity : s'.ch.capacity = s.ch.capacity) (buffer : s'.ch.buffer = s.ch.buffer)
    (closed : s.ch.closed = true → s'.ch.closed = true) (events : s'.events = s.events)
    (moved : s'.pc = Function.update s.pc c pc) (sent : pc.sent = (s.pc c).sent) (got : pc.got = (s.pc c).got)
    (intact : pc.Intact) (drained : pc = .recvDone none → s.ch.closed = true ∧ s.ch.buffer = []) :
    Ordered n s' where
  capacity := capacity.trans h.capacity
  fifo := by rw [events, buffer]; exact h.fifo
  bound := by rw [buffer]; exact h.bound
  alternates := by rw [events]; exact h.alternates
  last := by rw [events, buffer]; exact h.last
  sends d := by
    rw [events, moved, h.sends]
    by_cases e : d = c
    · subst e
      rw [Function.update_self, sent]
    · rw [Function.update_of_ne e]
  receives d := by
    rw [events, moved, h.receives]
    by_cases e : d = c
    · subst e
      rw [Function.update_self, got]
    · rw [Function.update_of_ne e]
  intact d := by
    rw [moved]
    by_cases e : d = c
    · subst e
      rwa [Function.update_self]
    · rw [Function.update_of_ne e]
      exact h.intact d
  drained d hd := by
    rw [buffer]
    rw [moved] at hd
    by_cases e : d = c
    · subst e
      rw [Function.update_self] at hd
      exact (drained hd).imp_left closed
    · rw [Function.update_of_ne e] at hd
      exact (h.drained d hd).imp_left closed

theorem canSend_empty {ch : Channel T} (h : ch.canSend = true) (zero : ch.capacity = 0) : ch.buffer = [] := by
  simp only [canSend, zero, if_true, Bool.and_eq_true, List.isEmpty_iff] at h
  exact h.2

theorem canSend_room {ch : Channel T} (h : ch.canSend = true) : ch.buffer.length < max ch.capacity 1 := by
  by_cases zero : ch.capacity = 0
  · rw [canSend_empty h zero, List.length_nil]
    omega
  · simp only [canSend, zero, if_false, decide_eq_true_eq] at h
    omega

/-- A send that enqueues: its call appends its own value, once. -/
theorem Ordered.enqueue {n : Nat} {s s' : State T} (h : Ordered n s) {c : CallId} {arg : Arg T} {waited : Bool}
    {pc : Pc T} (here : s.pc c = .sendEnter arg waited) (opened : s.ch.closed = false) (can : s.ch.canSend = true)
    (capacity : s'.ch.capacity = s.ch.capacity) (buffer : s'.ch.buffer = s.ch.buffer ++ [arg.value])
    (events : s'.events = s.events ++ [.enqueued c arg.value]) (moved : s'.pc = Function.update s.pc c pc)
    (sent : pc.sent = [arg.value]) (got : pc.got = []) (intact : pc.Intact) (returned : pc ≠ .recvDone none) :
    Ordered n s' where
  capacity := capacity.trans h.capacity
  fifo := by
    rw [events, buffer, deliveredValues_enqueued, enqueuedValues_enqueued, ← List.append_assoc, h.fifo]
  bound := by
    have room := canSend_room can
    rw [h.capacity] at room
    rw [buffer, List.length_append, List.length_singleton]
    omega
  alternates zero := by
    rw [events]
    have empty := canSend_empty can (h.capacity.trans zero)
    exact (h.alternates zero).snoc (iff_of_true ((h.last zero).1 empty) rfl)
  last zero := by
    rw [events, buffer]
    simp [Event.isSend]
  sends d := by
    rw [events, moved, enqueuedBy_enqueued, h.sends]
    by_cases e : c = d
    · subst e
      rw [Function.update_self, sent, here]
      simp [Pc.sent]
    · rw [Function.update_of_ne (Ne.symm e), if_neg e, List.append_nil]
  receives d := by
    rw [events, moved, deliveredTo_enqueued, h.receives]
    by_cases e : d = c
    · subst e
      rw [Function.update_self, got, here]
      rfl
    · rw [Function.update_of_ne e]
  intact d := by
    rw [moved]
    by_cases e : d = c
    · subst e
      rwa [Function.update_self]
    · rw [Function.update_of_ne e]
      exact h.intact d
  drained d hd := by
    rw [moved] at hd
    by_cases e : d = c
    · subst e
      rw [Function.update_self] at hd
      exact absurd hd returned
    · rw [Function.update_of_ne e] at hd
      rw [(h.drained d hd).1] at opened
      cases opened

/-- A receive that takes the front of the buffer. -/
theorem Ordered.dequeue {n : Nat} {s s' : State T} (h : Ordered n s) {c : CallId} {waited : Bool} {v : T}
    {pc : Pc T} (here : s.pc c = .recvEnter waited) (front : s.ch.buffer = v :: s'.ch.buffer)
    (capacity : s'.ch.capacity = s.ch.capacity)
    (events : s'.events = s.events ++ [.delivered c v]) (moved : s'.pc = Function.update s.pc c pc)
    (sent : pc.sent = []) (got : pc.got = [v]) (intact : pc.Intact) (returned : pc ≠ .recvDone none) :
    Ordered n s' where
  capacity := capacity.trans h.capacity
  fifo := by
    rw [events, deliveredValues_delivered, enqueuedValues_delivered, ← h.fifo, front, List.append_assoc,
      List.singleton_append]
  bound := by
    have bound := h.bound
    rw [front, List.length_cons] at bound
    omega
  alternates zero := by
    rw [events]
    refine (h.alternates zero).snoc (iff_of_false (fun all => ?_) (by simp [Event.isSend]))
    have empty := (h.last zero).2 all
    rw [front] at empty
    cases empty
  last zero := by
    have bound := h.bound
    rw [front, zero, List.length_cons] at bound
    have empty : s'.ch.buffer = [] := List.length_eq_zero_iff.1 (by omega)
    rw [events, empty]
    simp [Event.isSend]
  sends d := by
    rw [events, moved, enqueuedBy_delivered, h.sends]
    by_cases e : d = c
    · subst e
      rw [Function.update_self, sent, here]
      rfl
    · rw [Function.update_of_ne e]
  receives d := by
    rw [events, moved, deliveredTo_delivered, h.receives]
    by_cases e : c = d
    · subst e
      rw [Function.update_self, got, here]
      simp [Pc.got]
    · rw [Function.update_of_ne (Ne.symm e), if_neg e, List.append_nil]
  intact d := by
    rw [moved]
    by_cases e : d = c
    · subst e
      rwa [Function.update_self]
    · rw [Function.update_of_ne e]
      exact h.intact d
  drained d hd := by
    rw [moved] at hd
    by_cases e : d = c
    · subst e
      rw [Function.update_self] at hd
      exact absurd hd returned
    · rw [Function.update_of_ne e] at hd
      have empty := (h.drained d hd).2
      rw [front] at empty
      cases empty

theorem Ordered.move {n : Nat} {s s' : State T} (h : Ordered n s) (move : Moves s s') : Ordered n s' := by
  have intact := h.intact
  cases move with
  | called c pc idle first =>
    rcases first with ⟨value, rvalue, rfl⟩ | rfl | rfl <;>
      exact h.advance rfl rfl id rfl rfl (by rw [idle]; rfl) (by rw [idle]; rfl) (by simp [Pc.Intact]) nofun
  | sendRefused c arg waited here closed =>
    have keep : arg.movedFrom = false := by simpa [here, Pc.Intact] using intact c
    exact h.advance rfl rfl id rfl rfl (by rw [here]; rfl) (by rw [here]; rfl) keep nofun
  | sendKept c arg waited here opened can alone =>
    exact h.enqueue here opened can rfl rfl rfl rfl rfl rfl trivial nofun
  | sendHanded c arg waited r rs here opened can waiting =>
    exact h.enqueue here opened can rfl rfl rfl rfl rfl rfl trivial nofun
  | sendQueued c arg waited here opened cannot =>
    have keep : arg.movedFrom = false := by simpa [here, Pc.Intact] using intact c
    exact h.advance rfl rfl id rfl rfl (by rw [here]; rfl) (by rw [here]; rfl) keep nofun
  | recvTook c waited v rest here front alone =>
    exact h.dequeue here front rfl rfl rfl rfl rfl trivial nofun
  | recvTookWaking c waited v rest w ws here front waiting =>
    exact h.dequeue here front rfl rfl rfl rfl rfl trivial nofun
  | recvRefused c waited here empty closed =>
    exact h.advance rfl rfl id rfl rfl (by rw [here]; rfl) (by rw [here]; rfl) trivial fun _ => ⟨closed, empty⟩
  | recvQueued c waited here empty opened alone =>
    exact h.advance rfl rfl id rfl rfl (by rw [here]; rfl) (by rw [here]; rfl) trivial nofun
  | recvQueuedWaking c waited w ws here empty opened waiting =>
    exact h.advance rfl rfl id rfl rfl (by rw [here]; rfl) (by rw [here]; rfl) trivial nofun
  | closedFirst c here opened =>
    exact h.advance rfl rfl (fun _ => rfl) rfl rfl (by rw [here]; rfl) (by rw [here]; rfl) trivial nofun
  | closedAgain c here closed =>
    exact h.advance rfl rfl id rfl rfl (by rw [here]; rfl) (by rw [here]; rfl) trivial nofun
  | notified c w pc leaving =>
    rcases leaving with ⟨arg, here, rfl⟩ | ⟨v, here, rfl⟩ | ⟨here, rfl⟩ | ⟨rest, here, rfl⟩ <;>
      exact h.advance rfl rfl id rfl rfl (by rw [here]; rfl) (by rw [here]; rfl) trivial nofun
  | closeReturned c here =>
    exact h.advance rfl rfl id rfl rfl (by rw [here]; rfl) (by rw [here]; rfl) trivial nofun
  | sendWoken c arg here told =>
    have keep : arg.movedFrom = false := by simpa [here, Pc.Intact] using intact c
    exact h.advance rfl rfl id rfl rfl (by rw [here]; rfl) (by rw [here]; rfl) keep nofun
  | recvWoken c here told =>
    exact h.advance rfl rfl id rfl rfl (by rw [here]; rfl) (by rw [here]; rfl) trivial nofun
  | yieldedAgain => exact h

theorem ordered_of_reach {n : Nat} {s : State T} (h : (machine T n).Reach s) : Ordered n s :=
  h.invariant (ordered_init n) fun _ _ _ inv _ e => inv.move (step_moves e)

/-! ## Closing -/

/-- A closed channel stays closed and nothing more is enqueued. -/
theorem closed_move {s s' : State T} (move : Moves s s') (closed : s.ch.closed = true) :
    s'.ch.closed = true ∧ enqueuedValues s'.events = enqueuedValues s.events := by
  cases move with
  | sendKept _ _ _ _ opened | sendHanded _ _ _ _ _ _ opened | sendQueued _ _ _ _ opened =>
    rw [closed] at opened
    cases opened
  | recvTook c _ v | recvTookWaking c _ v =>
    refine ⟨closed, ?_⟩
    simp
  | closedFirst => exact ⟨rfl, rfl⟩
  | _ => exact ⟨closed, rfl⟩

theorem closed_exec {n : Nat} {s s' : State T} {ls : List (Label T)} (run : (machine T n).exec s ls = some s')
    (closed : s.ch.closed = true) : enqueuedValues s'.events = enqueuedValues s.events := by
  have kept := Machine.exec_keeps
    (fun t => t.ch.closed = true ∧ enqueuedValues t.events = enqueuedValues s.events)
    (fun _ _ _ inv e => (closed_move (step_moves e) inv.1).imp_right fun same => same.trans inv.2) run
  exact (kept ⟨closed, rfl⟩).2

/-! ## The contract -/

/-- What a channel of capacity `n` promises in a state reached by any
interleaving of calls. `sentOnce` and `refusedUntouched` are about a `send` that
returned, `received` and `drained` about a `recv`. -/
structure Delivers (n : Nat) (s : State T) : Prop where
  inOrder : deliveredValues s.events ++ s.ch.buffer = enqueuedValues s.events
  received : ∀ c ret, s.pc c = .recvDone ret → deliveredTo c s.events = ret.toList
  sentOnce : ∀ c arg ret, s.pc c = .sendDone arg ret → (ret = true ↔ enqueuedBy c s.events = [arg.value])
  refusedUntouched : ∀ c arg, s.pc c = .sendDone arg false →
    enqueuedBy c s.events = [] ∧ arg.movedFrom = false
  bounded : s.ch.buffer.length ≤ max n 1
  alternating : n = 0 → Alternates s.events
  shut : s.ch.closed = true → ∀ ls s', (machine T n).exec s ls = some s' →
    enqueuedValues s'.events = enqueuedValues s.events
  drained : ∀ c, s.pc c = .recvDone none →
    s.ch.closed = true ∧ deliveredValues s.events = enqueuedValues s.events

/-- **Exactly-once, in-order delivery**, for every capacity and every
interleaving of any number of calls. -/
theorem delivers_in_order (n : Nat) {s : State T} (h : (machine T n).Reach s) : Delivers n s where
  inOrder := (ordered_of_reach h).fifo
  received c ret done := by
    rw [(ordered_of_reach h).receives c, done]
    cases ret <;> rfl
  sentOnce c arg ret done := by
    rw [(ordered_of_reach h).sends c, done]
    cases ret <;> simp [Pc.sent]
  refusedUntouched c arg done := by
    have intact := (ordered_of_reach h).intact c
    rw [(ordered_of_reach h).sends c]
    rw [done] at intact ⊢
    exact ⟨rfl, intact⟩
  bounded := (ordered_of_reach h).bound
  alternating := (ordered_of_reach h).alternates
  shut closed _ _ run := closed_exec run closed
  drained c done := by
    obtain ⟨closed, empty⟩ := (ordered_of_reach h).drained c done
    have fifo := (ordered_of_reach h).fifo
    rw [empty, List.append_nil] at fifo
    exact ⟨closed, fifo⟩

/-- A rendezvous: the receiver queues, the sender hands over, the receiver
takes the value, and a late sender finds the channel closed. -/
def rendezvous : List (Label Nat) :=
  [.recv 0, .enter 0, .send 1 7 true, .enter 1, .notify 1, .check 0, .enter 0,
   .close 2, .enter 2, .send 3 8 true, .enter 3]

theorem delivers_in_order_rendezvous :
    ∃ s, (machine Nat 0).exec (machine Nat 0).init rendezvous = some s ∧
      s.pc 0 = .recvDone (some 7) ∧ s.pc 3 = .sendDone { value := 8, rvalue := true } false ∧ Delivers 0 s :=
  ⟨_, rfl, rfl, rfl, delivers_in_order 0
    (Machine.reach_of_exec (rfl : (machine Nat 0).exec (machine Nat 0).init rendezvous = some _))⟩

end Mycoroutine.Channel
