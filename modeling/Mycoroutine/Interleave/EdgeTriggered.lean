import Mathlib.Data.Finset.Basic
import Mathlib.Logic.Function.Basic

/-!
# Edge-triggered readiness

A kernel that reports what files are ready for, once: a number is registered with the
directions that are asked for, and is put on a ready list when its file gets ready for
one of them, or when it is registered or changed while its file is. A wait takes the
number from the list, with what its file is ready for at that moment, and does not report
it again before the next edge. An error is reported whatever is asked for.

A report is on its way from the wait until it is dispatched. `Watched` says that nothing
that is asked for and ready is forgotten: the number is on the list, or a report that
tells of it is on its way. Whoever drops a report has to see to it that the report told
of nothing that is still asked for.
-/

namespace Interleave.EdgeTriggered

variable {κ ι : Type*}

structure Kernel (κ ι : Type*) where
  ready : κ → Finset ι
  broken : κ → Bool
  asked : κ → Option (Finset ι)
  queued : κ → Bool

structure Report (κ ι : Type*) where
  number : κ
  ready : Finset ι
  broken : Bool
deriving DecidableEq

inductive Op where
  | add
  | mod
  | del
deriving DecidableEq

/-- A report tells that there is something to do for the direction. -/
def Report.Tells (r : Report κ ι) (n : κ) (e : ι) : Prop := r.number = n ∧ (e ∈ r.ready ∨ r.broken = true)

namespace Kernel

variable [DecidableEq κ] [DecidableEq ι] (k : Kernel κ ι)

/-- The file is ready for the direction, or has an error. -/
def Hot (n : κ) (e : ι) : Prop := e ∈ k.ready n ∨ k.broken n = true

/-- What a poll of the file finds. -/
def poll (n : κ) (mask : Finset ι) : Bool := decide (k.ready n ∩ mask).Nonempty || k.broken n

def arrives (n : κ) (e : ι) : Kernel κ ι :=
  { k with ready := Function.update k.ready n (insert e (k.ready n)),
           queued := Function.update k.queued n (k.queued n || (k.asked n).any fun mask => decide (e ∈ mask)) }

def drains (n : κ) (e : ι) : Kernel κ ι := { k with ready := Function.update k.ready n ((k.ready n).erase e) }

def breaks (n : κ) : Kernel κ ι :=
  { k with broken := Function.update k.broken n true,
           queued := Function.update k.queued n (k.queued n || (k.asked n).isSome) }

def accepts (n : κ) : Op → Bool
  | .add => (k.asked n).isNone
  | .mod | .del => (k.asked n).isSome

/-- The registration of a number, or its change; it may be on the list already. -/
def ask (n : κ) (mask : Finset ι) : Kernel κ ι :=
  { k with asked := Function.update k.asked n (some mask), queued := Function.update k.queued n (k.queued n || k.poll n mask) }

/-- The registration ends. -/
def drop (n : κ) : Kernel κ ι :=
  { k with asked := Function.update k.asked n none, queued := Function.update k.queued n false }

/-- The call that controls the registrations, where it is accepted. -/
def ctl (n : κ) (mask : Finset ι) : Op → Kernel κ ι
  | .add | .mod => k.ask n mask
  | .del => k.drop n

/-- The number is closed, and another file comes under it. -/
def close (n : κ) : Kernel κ ι :=
  { k.drop n with ready := Function.update k.ready n ∅, broken := Function.update k.broken n false }

/-- What a wait finds of a number on the list. -/
def report (n : κ) : Option (Report κ ι) :=
  match k.asked n with
  | some mask => if k.poll n mask then some ⟨n, k.ready n ∩ mask, k.broken n⟩ else none
  | none => none

/-- A wait takes the number from the list. -/
def take (n : κ) : Kernel κ ι := { k with queued := Function.update k.queued n false }

end Kernel

/-- Nothing is forgotten. -/
def Watched (k : Kernel κ ι) (taken : List (Report κ ι)) : Prop :=
  ∀ n mask e, k.asked n = some mask → e ∈ mask → k.Hot n e → k.queued n = true ∨ ∃ r ∈ taken, r.Tells n e

section Rules

variable [DecidableEq κ] [DecidableEq ι] {k : Kernel κ ι} {taken : List (Report κ ι)} {n : κ} {e : ι} {mask : Finset ι}

omit [DecidableEq κ] in
theorem poll_of_hot (hot : k.Hot n e) (mem : e ∈ mask) : k.poll n mask = true := by
  rw [Kernel.poll, Bool.or_eq_true, decide_eq_true_iff]
  exact hot.imp_left fun ready => ⟨e, Finset.mem_inter.2 ⟨ready, mem⟩⟩

variable (n) in
omit [DecidableEq ι] in
/-- The other numbers stay as they are. -/
theorem Watched.at {k' : Kernel κ ι} {taken' : List (Report κ ι)} (h : Watched k taken) (more : ∀ r ∈ taken, r ∈ taken')
    (others : ∀ m, m ≠ n → k'.asked m = k.asked m ∧ k'.ready m = k.ready m ∧ k'.broken m = k.broken m ∧ k'.queued m = k.queued m)
    (here : ∀ mask e, k'.asked n = some mask → e ∈ mask → k'.Hot n e → k'.queued n = true ∨ ∃ r ∈ taken', r.Tells n e) :
    Watched k' taken' := by
  intro m mask e asked mem hot
  by_cases same : m = n
  · subst same
    exact here mask e asked mem hot
  · obtain ⟨stays, ready, broken, queued⟩ := others m same
    rw [stays] at asked
    rw [Kernel.Hot, ready, broken] at hot
    rw [queued]
    exact (h m mask e asked mem hot).imp_right fun ⟨r, there, tells⟩ => ⟨r, more r there, tells⟩

theorem Watched.arrives (h : Watched k taken) : Watched (k.arrives n e) taken := by
  refine h.at n (fun _ => id) (fun m ne => by simp [Kernel.arrives, ne]) fun mask d asked mem hot => ?_
  have before : k.asked n = some mask := asked
  simp only [Kernel.Hot, Kernel.arrives, Function.update_self, Finset.mem_insert] at hot
  simp only [Kernel.arrives, Function.update_self, before, Option.any_some, Bool.or_eq_true, decide_eq_true_iff]
  rcases hot with (rfl | ready) | broken
  · exact .inl (.inr mem)
  · exact (h n mask d before mem (.inl ready)).imp_left .inl
  · exact (h n mask d before mem (.inr broken)).imp_left .inl

theorem Watched.drains (h : Watched k taken) : Watched (k.drains n e) taken := by
  refine h.at n (fun _ => id) (fun m ne => by simp [Kernel.drains, ne]) fun mask d asked mem hot => ?_
  simp only [Kernel.Hot, Kernel.drains, Function.update_self] at hot
  exact h n mask d asked mem (hot.imp_left Finset.mem_of_mem_erase)

omit [DecidableEq ι] in
theorem Watched.breaks (h : Watched k taken) : Watched (k.breaks n) taken := by
  refine h.at n (fun _ => id) (fun m ne => by simp [Kernel.breaks, ne]) fun mask d asked mem hot => .inl ?_
  have before : k.asked n = some mask := asked
  simp only [Kernel.breaks, Function.update_self, before, Option.isSome_some, Bool.or_true]

/-- The file is polled. -/
theorem queued_ask (hot : k.Hot n e) (mem : e ∈ mask) : (k.ask n mask).queued n = true := by
  simp only [Kernel.ask, Function.update_self, poll_of_hot hot mem, Bool.or_true]

theorem Watched.ask (h : Watched k taken) : Watched (k.ask n mask) taken := by
  refine h.at n (fun _ => id) (fun m ne => by simp [Kernel.ask, ne]) fun own d asked mem hot => .inl ?_
  simp only [Kernel.ask, Function.update_self, Option.some.injEq] at asked
  subst asked
  exact queued_ask hot mem

omit [DecidableEq ι] in
theorem Watched.drop (h : Watched k taken) : Watched (k.drop n) taken := by
  refine h.at n (fun _ => id) (fun m ne => by simp [Kernel.drop, ne]) fun own d asked mem hot => ?_
  simp only [Kernel.drop, Function.update_self] at asked
  cases asked

theorem Watched.ctl (h : Watched k taken) (op : Op) : Watched (k.ctl n mask op) taken := by
  cases op with
  | add | mod => exact h.ask
  | del => exact h.drop

omit [DecidableEq ι] in
theorem Watched.close (h : Watched k taken) : Watched (k.close n) taken := by
  refine h.at n (fun _ => id) (fun m ne => by simp [Kernel.close, Kernel.drop, ne]) fun own d asked mem hot => ?_
  simp only [Kernel.close, Kernel.drop, Function.update_self] at asked
  cases asked

/-- The report tells of everything that the place on the list stood for. -/
theorem Watched.take (h : Watched k taken) : Watched (k.take n) (taken ++ (k.report n).toList) := by
  refine h.at n (fun _ => List.mem_append_left _) (fun m ne => by simp [Kernel.take, ne]) fun own d asked mem hot => .inr ?_
  have before : k.asked n = some own := asked
  have found : k.poll n own = true := poll_of_hot hot mem
  refine ⟨⟨n, k.ready n ∩ own, k.broken n⟩, List.mem_append_right _ ?_, rfl, ?_⟩
  · simp only [Kernel.report, before, found, if_true, Option.toList_some, List.mem_singleton]
  · exact hot.imp_left fun ready => Finset.mem_inter.2 ⟨ready, mem⟩

/-- A report is dispatched that tells of nothing that is asked for then. -/
theorem Watched.dispatched {r : Report κ ι} (h : Watched k taken)
    (served : ∀ mask e, k.asked r.number = some mask → e ∈ mask → k.Hot r.number e → r.Tells r.number e →
      k.queued r.number = true) : Watched k (taken.erase r) := by
  intro m own d asked mem hot
  rcases h m own d asked mem hot with queued | ⟨q, there, tells⟩
  · exact .inl queued
  · by_cases same : q = r
    · subst same
      obtain ⟨rfl, what⟩ := tells
      exact .inl (served own d asked mem hot ⟨rfl, what⟩)
    · exact .inr ⟨q, (List.mem_erase_of_ne same).2 there, tells⟩

end Rules

end Interleave.EdgeTriggered
