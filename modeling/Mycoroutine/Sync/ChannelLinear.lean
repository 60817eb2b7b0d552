import Mycoroutine.Interleave.Linearize
import Mycoroutine.Sync.ChannelOrder

/-!
# A channel is a bounded queue

To its clients a `Channel<T>` is a queue that can be closed: whatever the calls do
meanwhile, they return what they would have returned one after the other, in an
order that keeps a call behind those that had returned before it began. The
linearization point of a call is the section in which it does not queue.

A `send` waits while the queue is full and a `recv` while it is empty. With
capacity 0 the queue has one place; that the place is filled only for a receiver
that waits is not seen by clients.
-/

namespace Mycoroutine.Channel
set_option autoImplicit false
open Interleave

variable {T : Type}

inductive Op (T : Type) where
  | send (value : T)
  | recv
  | close

/-- What `send`, `recv` and `close` return. -/
inductive Result (T : Type) where
  | sent (ok : Bool)
  | received (value : Option T)
  | closed

/-- A queue that can be closed. -/
structure Queue (T : Type) where
  buffer : List T := []
  closed : Bool := false

def queue (T : Type) (capacity : Nat) : Linearize.Object (Op T) (Result T) (Queue T) where
  init := {}
  apply q
    | .send value =>
      if q.closed then some (.sent false, q)
      else if q.buffer.length < max capacity 1 then some (.sent true, { q with buffer := q.buffer ++ [value] })
      else none
    | .recv =>
      match q.buffer with
      | value :: rest => some (.received (some value), { q with buffer := rest })
      | [] => if q.closed then some (.received none, q) else none
    | .close => some (.closed, { q with closed := true })

/-- What a call returned. -/
def Pc.result : Pc T → Option (Result T)
  | .sendDone _ ret => some (.sent ret)
  | .recvDone ret => some (.received ret)
  | .closeDone => some .closed
  | _ => none

/-- Where a call stands in the eyes of the queue. -/
def Pc.standing : Pc T → Linearize.Standing (Op T) (Result T)
  | .idle | .sendDone _ _ | .recvDone _ | .closeDone => .fresh
  | .sendEnter arg _ | .sendWait arg => .pending (.send arg.value)
  | .sendNotify _ _ => .decided (.sent true)
  | .recvEnter _ | .recvWait | .recvNotify none _ => .pending .recv
  | .recvNotify (some value) _ => .decided (.received (some value))
  | .closeEnter => .pending .close
  | .closeNotify _ => .decided .closed

/-- A step is seen when a call begins or returns. -/
def view (T : Type) : Linearize.View (State T) (Label T) CallId (Op T) (Result T) (Queue T) where
  object s := { buffer := s.ch.buffer, closed := s.ch.closed }
  standing s c := (s.pc c).standing
  visible _ l s' :=
    match l with
    | .send c value _ => [.invoke c (.send value)]
    | .recv c => [.invoke c .recv]
    | .close c => [.invoke c .close]
    | .enter c | .notify c => (s'.pc c).result.toList.map (.respond c)
    | .check _ => []

section Steps

variable {n : Nat} {s s' : State T} {c : CallId} {p : Pc T} {arg : Arg T} {waited : Bool}

theorem standing_update {standing : Linearize.Standing (Op T) (Result T)} (pc : s'.pc = Function.update s.pc c p)
    (stands : p.standing = standing) : (view T).standing s' = Function.update ((view T).standing s) c standing := by
  funext d
  simp only [view, pc, ← stands]
  by_cases mine : d = c
  · rw [mine, Function.update_self, Function.update_self]
  · rw [Function.update_of_ne mine, Function.update_of_ne mine]

theorem standing_same (pc : s'.pc = Function.update s.pc c p) (same : p.standing = (s.pc c).standing) :
    (view T).standing s' = (view T).standing s := by
  rw [standing_update pc same]
  exact Function.update_eq_self c ((view T).standing s)

theorem follows_send (capacity : s.ch.capacity = n) (here : s.pc c = .sendEnter arg waited) :
    (view T).Follows (queue T n) s (.enter c) (s.enterSend c arg) := by
  have pending : (view T).standing s c = .pending (.send arg.value) := by simp only [view, here, Pc.standing]
  cases closed : s.ch.closed with
  | true =>
    simp only [State.enterSend, sendSection, closed, if_true]
    refine .finished (r := .sent false) pending ?_ (standing_update rfl rfl) ?_
    · simp [view, queue, closed]
    · simp [view, Pc.result]
  | false =>
    cases can : s.ch.canSend with
    | false =>
      simp only [State.enterSend, sendSection, closed, can, Bool.false_eq_true, if_false]
      exact .stays (by simp [view, closed]) (standing_same rfl (by rw [here]; rfl)) (by simp [view, Pc.result])
    | true =>
      have room : s.ch.buffer.length < max n 1 := capacity ▸ canSend_room can
      cases queued : s.ch.receiverWaiters with
      | nil =>
        simp only [State.enterSend, sendSection, closed, can, queued, Bool.false_eq_true, if_false, if_true,
          popWaiterFront_nil]
        refine .finished (r := .sent true) pending ?_ (standing_update rfl rfl) ?_
        · simp only [view, queue, closed, Bool.false_eq_true, if_false, if_pos room]
        · simp [view, Pc.result]
      | cons w rest =>
        simp only [State.enterSend, sendSection, closed, can, queued, Bool.false_eq_true, if_false, if_true,
          popWaiterFront_cons]
        refine .decided (r := .sent true) pending ?_ (standing_update rfl rfl) ?_
        · simp only [view, queue, closed, Bool.false_eq_true, if_false, if_pos room]
        · simp [view, Pc.result]

theorem follows_recv (here : s.pc c = .recvEnter waited) :
    (view T).Follows (queue T n) s (.enter c) (s.enterRecv c) := by
  have pending : (view T).standing s c = .pending .recv := by simp only [view, here, Pc.standing]
  cases front : s.ch.buffer with
  | cons value rest =>
    cases queued : s.ch.senderWaiters with
    | nil =>
      simp only [State.enterRecv, recvSection, front, queued, popWaiterFront_nil]
      refine .finished (r := .received (some value)) pending ?_ (standing_update rfl rfl) ?_
      · simp [view, queue, front]
      · simp [view, Pc.result]
    | cons w ws =>
      simp only [State.enterRecv, recvSection, front, queued, popWaiterFront_cons]
      refine .decided (r := .received (some value)) pending ?_ (standing_update rfl rfl) ?_
      · simp [view, queue, front]
      · simp [view, Pc.result]
  | nil =>
    cases closed : s.ch.closed with
    | true =>
      simp only [State.enterRecv, recvSection, front, closed, if_true]
      refine .finished (r := .received none) pending ?_ (standing_update rfl rfl) ?_
      · simp [view, queue, front, closed]
      · simp [view, Pc.result]
    | false =>
      cases queued : s.ch.senderWaiters with
      | nil =>
        simp only [State.enterRecv, recvSection, front, closed, queued, popWaiterFront_nil, Bool.false_eq_true, if_false]
        exact .stays (by simp [view, front, closed]) (standing_same rfl (by rw [here]; rfl)) (by simp [view, Pc.result])
      | cons w ws =>
        simp only [State.enterRecv, recvSection, front, closed, queued, popWaiterFront_cons, Bool.false_eq_true, if_false]
        exact .stays (by simp [view, front, closed]) (standing_same rfl (by rw [here]; rfl)) (by simp [view, Pc.result])

theorem follows_close (here : s.pc c = .closeEnter) :
    (view T).Follows (queue T n) s (.enter c) (s.enterClose c) := by
  have pending : (view T).standing s c = .pending .close := by simp only [view, here, Pc.standing]
  refine .decided (r := .closed) pending ?_ (standing_update rfl rfl) ?_
  · cases closed : s.ch.closed <;> simp [view, queue, State.enterClose, closeSection, closed]
  · simp [view, State.enterClose, Pc.result]

theorem follows_notify (e : step s (.notify c) = some s') : (view T).Follows (queue T n) s (.notify c) s' := by
  simp only [step] at e
  split at e <;> cases e
  · rename_i arg r here
    refine .returns (r := .sent true) ?_ rfl (standing_update rfl rfl) ?_
    · simp only [view, here, Pc.standing]
    · simp [view, State.setPc, Pc.result]
  · rename_i value w here
    refine .returns (r := .received (some value)) ?_ rfl (standing_update rfl rfl) ?_
    · simp only [view, here, Pc.standing]
    · simp [view, State.setPc, Pc.result]
  · rename_i w here
    exact .stays rfl (standing_same rfl (by rw [here]; rfl)) (by simp [view, State.setPc, Pc.result])
  · rename_i w rest here
    exact .stays rfl (standing_same rfl (by rw [here]; rfl)) (by simp [view, State.setPc, Pc.result])
  · rename_i here
    refine .returns (r := .closed) ?_ rfl (standing_update rfl rfl) ?_
    · simp only [view, here, Pc.standing]
    · simp [view, State.setPc, Pc.result]

theorem follows_check (e : step s (.check c) = some s') : (view T).Follows (queue T n) s (.check c) s' := by
  simp only [step] at e
  split at e
  · rename_i arg here
    split at e <;> cases e
    · exact .stays rfl (standing_same rfl (by rw [here]; rfl)) rfl
    · exact .stays rfl rfl rfl
  · rename_i here
    split at e <;> cases e
    · exact .stays rfl (standing_same rfl (by rw [here]; rfl)) rfl
    · exact .stays rfl rfl rfl
  · cases e

/-- Every step of a channel is one of the queue's clients. -/
theorem follows_step {l : Label T} (capacity : s.ch.capacity = n) (e : step s l = some s') :
    (view T).Follows (queue T n) s l s' := by
  cases l with
  | send c value rvalue =>
    simp only [step] at e
    split at e <;> cases e
    rename_i here
    exact .begins (by simp only [view, here, Pc.standing]) rfl (standing_update rfl rfl) rfl
  | recv c =>
    simp only [step] at e
    split at e <;> cases e
    rename_i here
    exact .begins (by simp only [view, here, Pc.standing]) rfl (standing_update rfl rfl) rfl
  | close c =>
    simp only [step] at e
    split at e <;> cases e
    rename_i here
    exact .begins (by simp only [view, here, Pc.standing]) rfl (standing_update rfl rfl) rfl
  | enter c =>
    simp only [step] at e
    split at e <;> cases e
    · exact follows_send capacity ‹_›
    · exact follows_recv ‹_›
    · exact follows_close ‹_›
  | notify c => exact follows_notify e
  | check c => exact follows_check e

end Steps

/-- **Main theorem.** Whatever the interleaving, what the calls on a channel return is
what a bounded queue returns to the same calls made one after the other, in an order
that respects which call had returned before which began. -/
theorem queue_linearizable (n : Nat) (s : State T × List (Linearize.Event CallId (Op T) (Result T)))
    (h : ((machine T n).watched (view T).visible).Reach s) :
    Linearize.WellFormed (Linearize.number s.2) ∧ Linearize.Linearizable (queue T n) (Linearize.number s.2) :=
  Linearize.linearizable_of_follows ⟨rfl, rfl⟩
    (fun _ _ _ reach e => follows_step (ordered_of_reach reach).capacity e) h

/-- A receiver that comes first and a sender that hands over: the `send` goes first. -/
theorem queue_linearizable_rendezvous :
    ∃ s, ((machine Nat 0).watched (view Nat).visible).exec ((machine Nat 0).watched (view Nat).visible).init
        [.recv 0, .enter 0, .send 1 7 true, .enter 1, .notify 1, .check 0, .enter 0] = some s ∧
      s.2 = [.invoke 0 .recv, .invoke 1 (.send 7), .respond 1 (.sent true), .respond 0 (.received (some 7))] ∧
      Linearize.WellFormed (Linearize.number s.2) ∧ Linearize.Linearizable (queue Nat 0) (Linearize.number s.2) := by
  refine ⟨_, rfl, rfl, ?_⟩
  exact queue_linearizable 0 _ (Machine.reach_of_exec (rfl : ((machine Nat 0).watched (view Nat).visible).exec
    ((machine Nat 0).watched (view Nat).visible).init
    [.recv 0, .enter 0, .send 1 7 true, .enter 1, .notify 1, .check 0, .enter 0] = some _))

end Mycoroutine.Channel
