import Mathlib.Algebra.Order.BigOperators.Group.List
import Mathlib.Data.List.Induction
import Mathlib.Data.List.Perm.Subperm

/-!
# Due dates

Jobs done one after the other, each for a time of its own. Doing them in the order
of their due dates is as good as any other order: if some order completes every job
acceptably late, for a notion of acceptable that favours early completions and late
due dates, so does the order of the due dates.

A job is complete no later than the last of those that are due before it is in the
other order, and that one is due no later.
-/

namespace Lateness
set_option autoImplicit false

variable {α M D : Type*}

/-- The jobs with the times at which they are complete. -/
def completions [AddCommMonoid M] (time : α → M) (start : M) : List α → List (α × M)
  | [] => []
  | job :: rest => (job, start + time job) :: completions time (start + time job) rest

/-- Every job is complete acceptably late. -/
def Meets [AddCommMonoid M] (time : α → M) (due : α → D) (accepts : M → D → Prop) (start : M) (order : List α) : Prop :=
  ∀ p ∈ completions time start order, accepts p.2 (due p.1)

/-- Earlier completions and later due dates are accepted more readily. -/
def Favours [LE M] [LE D] (accepts : M → D → Prop) : Prop :=
  ∀ c c' d d', c ≤ c' → d' ≤ d → accepts c' d' → accepts c d

section Orders

variable [AddCommMonoid M] {time : α → M} {due : α → D} {accepts : M → D → Prop} {start : M} {order order' : List α}

/-- A job is complete once it and those in front are done. -/
theorem mem_completions {job : α} {c : M} : (job, c) ∈ completions time start order ↔
    ∃ pre post, order = pre ++ job :: post ∧ c = start + (pre.map time).sum + time job := by
  induction order generalizing start with
  | nil => simp [completions]
  | cons first rest ih =>
    rw [completions, List.mem_cons, ih]
    constructor
    · rintro (here | ⟨pre, post, rfl, rfl⟩)
      · cases here
        exact ⟨[], rest, rfl, by simp⟩
      · exact ⟨first :: pre, post, rfl, by simp [add_assoc]⟩
    · rintro ⟨pre, post, split, rfl⟩
      cases pre with
      | nil =>
        cases split
        exact .inl (by simp)
      | cons _ pre =>
        cases split
        exact .inr ⟨pre, post, rfl, by simp [add_assoc]⟩

/-- The last job of a collection has the whole collection behind it and in front of it. -/
theorem exists_last {jobs : List α} (some' : jobs ≠ []) (within : jobs.Subperm order) :
    ∃ pre last post, order = pre ++ last :: post ∧ last ∈ jobs ∧ jobs.Subperm (pre ++ [last]) := by
  classical
  induction order using List.reverseRecOn with
  | nil => exact absurd (List.subperm_nil.1 within) some'
  | append_singleton order job ih =>
    by_cases mem : job ∈ jobs
    · exact ⟨order, job, [], rfl, mem, within⟩
    · have sooner : jobs.Subperm order := List.subperm_ext_iff.2 fun other found => by
        have apart : job ≠ other := fun same => mem (same ▸ found)
        simpa [List.count_singleton, apart] using List.subperm_ext_iff.1 within other found
      obtain ⟨pre, last, post, rfl, found, behind⟩ := ih sooner
      exact ⟨pre, last, post ++ [job], by simp, found, behind⟩

variable [PartialOrder M] [IsOrderedAddMonoid M]

theorem sum_le_of_subperm {jobs jobs' : List α} (nonneg : ∀ job, 0 ≤ time job) (within : jobs.Subperm jobs') :
    (jobs.map time).sum ≤ (jobs'.map time).sum := by
  obtain ⟨part, perm, sub⟩ := within
  rw [← (perm.map time).sum_eq]
  refine (sub.map time).sum_le_sum fun c mem => ?_
  obtain ⟨job, -, rfl⟩ := List.mem_map.1 mem
  exact nonneg job

variable [Preorder D]

/-- **Jackson's rule.** If any order will do, the order of the due dates does. -/
theorem meets_of_sorted (nonneg : ∀ job, 0 ≤ time job) (favours : Favours accepts)
    (sorted : order.Pairwise fun a b => due a ≤ due b) (perm : order.Perm order')
    (other : Meets time due accepts start order') : Meets time due accepts start order := by
  rintro ⟨job, c⟩ mem
  obtain ⟨pre, post, split, rfl⟩ := mem_completions.1 mem
  have within : (pre ++ [job]).Subperm order' := by
    refine List.Subperm.trans (List.Sublist.subperm ?_) perm.subperm
    rw [split, ← List.singleton_append (l := post), ← List.append_assoc]
    exact List.sublist_append_left _ _
  obtain ⟨pre', last, post', split', found, behind⟩ := exists_last (by simp) within
  have early : due last ≤ due job := by
    rcases List.mem_append.1 found with before | same
    · rw [split] at sorted
      exact (List.pairwise_append.1 sorted).2.2 last before job List.mem_cons_self
    · rw [List.mem_singleton.1 same]
  have sums := sum_le_of_subperm nonneg behind
  simp only [List.map_append, List.map_singleton, List.sum_append, List.sum_singleton] at sums
  refine favours _ (start + (pre'.map time).sum + time last) _ (due last) ?_ early ?_
  · rw [add_assoc, add_assoc]
    exact add_le_add_right sums start
  · exact other (last, _) (mem_completions.2 ⟨pre', post', split', rfl⟩)

end Orders

end Lateness
