import Mathlib.Logic.Function.Basic
import Mathlib.Data.List.Basic

/-!
# Waiter queues

`PopWaiterFront` on a `std::deque` of waiters, shared by every primitive of `sync.h`.
-/

namespace Mycoroutine

/-- `PopWaiterFront`. -/
def popWaiterFront {α : Type*} : List α → Option α × List α
  | [] => (none, [])
  | waiter :: queue => (some waiter, queue)

section PopWaiterFront

variable {α : Type*} {queue rest : List α} {waiter : α}

@[simp] theorem popWaiterFront_nil : popWaiterFront ([] : List α) = (none, []) := rfl

@[simp] theorem popWaiterFront_cons : popWaiterFront (waiter :: rest) = (some waiter, rest) := rfl

end PopWaiterFront

end Mycoroutine
