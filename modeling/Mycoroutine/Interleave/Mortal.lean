import Mycoroutine.Interleave.Machine

/-!
# Parties that go away

The parties of a machine belong to groups. A group can go away between two steps,
and its parties take no step afterwards. Whatever the others keep of them (a place
in a queue, a flag) stays as it is.
-/

namespace Interleave
set_option autoImplicit false

/-- A state, and the groups that are gone. -/
structure Mortal (σ κ : Type*) where
  base : σ
  gone : κ → Bool

inductive MortalLabel (ℓ κ : Type*) where
  | own (l : ℓ)
  | leave (k : κ)

namespace Machine

variable {σ ℓ κ : Type*} [DecidableEq κ] (M : Machine σ ℓ) (actor : ℓ → κ)

/-- `M`, where `actor l` is the group whose party takes the step `l`. -/
def mortal : Machine (Mortal σ κ) (MortalLabel ℓ κ) where
  init := ⟨M.init, fun _ => false⟩
  step s
    | .own l => if s.gone (actor l) then none else (M.step s.base l).map fun base => { s with base }
    | .leave k => some { s with gone := Function.update s.gone k true }

variable {M actor}

theorem mortal_own {s s' : Mortal σ κ} {l : ℓ} (e : (M.mortal actor).step s (.own l) = some s') :
    s.gone (actor l) = false ∧ ∃ base, M.step s.base l = some base ∧ s' = { s with base } := by
  simp only [mortal] at e
  split at e
  · cases e
  · rename_i lives
    obtain ⟨base, moved, rfl⟩ := Option.map_eq_some_iff.1 e
    exact ⟨Bool.eq_false_iff.2 lives, base, moved, rfl⟩

end Machine

end Interleave
