import Mathlib.Logic.Function.Basic
import Mathlib.Data.List.Basic

/-!
# Interleaving machines

A concurrent component is a state and a partial step function: a label says
which party moves and resolves every choice it makes, and `none` means that
the label is not enabled (a guard fails, or an assertion would abort). A run
is any sequence of enabled labels, so a statement about every reachable state
is a statement about every interleaving.

`ReachIf cond` restricts the runs to those all of whose steps meet `cond`, a
predicate on the state before the step and the label; `Reach` is the
unrestricted case. `exec` runs a concrete list of labels.
-/

namespace Interleave

/-- An initial state and a partial labelled step. -/
structure Machine (σ : Type*) (ℓ : Type*) where
  init : σ
  step : σ → ℓ → Option σ

namespace Machine

variable {σ ℓ τ κ : Type*} {M : Machine σ ℓ} {cond : σ → ℓ → Prop}

/-- States reached by the runs all of whose steps meet `cond`. -/
inductive ReachIf (M : Machine σ ℓ) (cond : σ → ℓ → Prop) : σ → Prop where
  | init : ReachIf M cond M.init
  | step {s : σ} {l : ℓ} {s' : σ} : ReachIf M cond s → cond s l → M.step s l = some s' → ReachIf M cond s'

/-- States reached by any run. -/
abbrev Reach (M : Machine σ ℓ) : σ → Prop := M.ReachIf fun _ _ => True

/-- The state after a concrete list of labels, `none` if one is not enabled. -/
def exec (M : Machine σ ℓ) : σ → List ℓ → Option σ
  | s, [] => some s
  | s, l :: ls => (M.step s l).bind fun s' => M.exec s' ls

/-- `exec` that also requires each step to meet a decidable condition. -/
def execIf (M : Machine σ ℓ) (cond : σ → ℓ → Prop) [∀ s l, Decidable (cond s l)] : σ → List ℓ → Option σ
  | s, [] => some s
  | s, l :: ls => if cond s l then (M.step s l).bind fun s' => M.execIf cond s' ls else none

theorem exec_cons (s : σ) (l : ℓ) (ls : List ℓ) :
    M.exec s (l :: ls) = (M.step s l).bind fun s' => M.exec s' ls := rfl

/-! ## Runs -/

theorem ReachIf.weaken {s : σ} {other : σ → ℓ → Prop} (weaker : ∀ s l, cond s l → other s l)
    (h : M.ReachIf cond s) : M.ReachIf other s := by
  induction h with
  | init => exact .init
  | step _ c e ih => exact ih.step (weaker _ _ c) e

/-- `step`, the label being given. -/
theorem ReachIf.next {s s' : σ} (h : M.ReachIf cond s) (l : ℓ) (c : cond s l) (e : M.step s l = some s') :
    M.ReachIf cond s' :=
  h.step c e

theorem ReachIf.reach {s : σ} (h : M.ReachIf cond s) : M.Reach s :=
  h.weaken fun _ _ _ => trivial

/-- A concrete run of labels that meet the condition in any state. -/
theorem ReachIf.exec_always {s s' : σ} {ls : List ℓ} (h : M.ReachIf cond s) (always : ∀ l ∈ ls, ∀ s, cond s l)
    (e : M.exec s ls = some s') : M.ReachIf cond s' := by
  induction ls generalizing s with
  | nil =>
    cases e
    exact h
  | cons l ls ih =>
    obtain ⟨m, hm, rest⟩ := Option.bind_eq_some_iff.1 e
    exact ih (h.step (always l List.mem_cons_self s) hm) (fun l' mem => always l' (List.mem_cons_of_mem l mem)) rest

theorem ReachIf.exec_of {s s' : σ} {ls : List ℓ} (h : M.Reach s) (e : M.exec s ls = some s') : M.Reach s' :=
  h.exec_always (fun _ _ _ => trivial) e

/-- A concrete run from the initial state reaches its last state. -/
theorem reach_of_exec {s : σ} {ls : List ℓ} (e : M.exec M.init ls = some s) : M.Reach s :=
  ReachIf.init.exec_of e

theorem ReachIf.execIf_of [∀ s l, Decidable (cond s l)] {s s' : σ} {ls : List ℓ} (h : M.ReachIf cond s)
    (e : M.execIf cond s ls = some s') : M.ReachIf cond s' := by
  induction ls generalizing s with
  | nil =>
    cases e
    exact h
  | cons l ls ih =>
    simp only [execIf] at e
    split at e
    · rename_i c
      obtain ⟨m, hm, rest⟩ := Option.bind_eq_some_iff.1 e
      exact ih (h.step c hm) rest
    · cases e

/-- A concrete run whose steps meet the condition. -/
theorem reachIf_of_execIf [∀ s l, Decidable (cond s l)] {s : σ} {ls : List ℓ}
    (e : M.execIf cond M.init ls = some s) : M.ReachIf cond s :=
  ReachIf.init.execIf_of e

/-- A concrete run whose last state passes a test. -/
theorem reachIf_of_any [∀ s l, Decidable (cond s l)] {ls : List ℓ} {p : σ → Bool}
    (e : (M.execIf cond M.init ls).any p = true) : ∃ s, M.ReachIf cond s ∧ p s = true := by
  cases run : M.execIf cond M.init ls with
  | none =>
    rw [run] at e
    cases e
  | some s =>
    rw [run] at e
    exact ⟨s, reachIf_of_execIf run, e⟩

/-! ## Invariants -/

/-- What holds initially and is kept by every step that meets the condition
holds in every state reached. -/
theorem ReachIf.invariant {inv : σ → Prop} {s : σ} (h : M.ReachIf cond s) (base : inv M.init)
    (kept : ∀ s l s', inv s → cond s l → M.step s l = some s' → inv s') : inv s := by
  induction h with
  | init => exact base
  | step _ c e ih => exact kept _ _ _ ih c e

/-- The same, where the step may also use what is already known of every
state the run passes through. -/
theorem ReachIf.invariant_with {inv : σ → Prop} {s : σ} (h : M.ReachIf cond s) (known : σ → Prop)
    (facts : ∀ s, M.ReachIf cond s → known s) (base : inv M.init)
    (kept : ∀ s l s', known s → inv s → cond s l → M.step s l = some s' → known s' → inv s') : inv s := by
  induction h with
  | init => exact base
  | step before c e ih => exact kept _ _ _ (facts _ before) ih c e (facts _ (before.step c e))

/-- An invariant of single steps is kept by a whole run. -/
theorem exec_keeps (inv : σ → Prop) (kept : ∀ s l s', inv s → M.step s l = some s' → inv s')
    {s s' : σ} {ls : List ℓ} (e : M.exec s ls = some s') (h : inv s) : inv s' := by
  induction ls generalizing s with
  | nil =>
    cases e
    exact h
  | cons l ls ih =>
    obtain ⟨m, hm, rest⟩ := Option.bind_eq_some_iff.1 e
    exact ih rest (kept _ _ _ h hm)

end Machine

end Interleave
