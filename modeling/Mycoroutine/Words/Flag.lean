import Mathlib.Data.Nat.Notation

/-!
# One flag of a word

A word of status flags whose flag at one bit is tested, set and cleared, and a store that
takes some of its bits from another word.
-/

namespace FlagWord

variable {n : ℕ} {i j : ℕ} {f g mask : BitVec n} {a b : Bool}

/-- The flag at bit `i` is set. -/
def has (i : ℕ) (f : BitVec n) : Bool := f &&& BitVec.twoPow n i != 0

/-- The flag at bit `i` is set, or cleared. -/
def put (i : ℕ) (b : Bool) (f : BitVec n) : BitVec n :=
  if b then f ||| BitVec.twoPow n i else f &&& ~~~BitVec.twoPow n i

/-- The bits of `mask` from `g`, and the others from `f`. -/
def merge (mask f g : BitVec n) : BitVec n := (f &&& ~~~mask) ||| (g &&& mask)

theorem has_eq (bound : i < n) : has i f = f.getLsbD i := by
  rw [has, BitVec.and_twoPow]
  cases bit : f.getLsbD i with
  | false => rfl
  | true =>
    rw [if_pos rfl, bne_iff_ne]
    intro zero
    have bits := congrArg (·.getLsbD i) zero
    simp [bound] at bits

theorem getLsbD_put (bound : j < n) : (put i b f).getLsbD j = if j = i then b else f.getLsbD j := by
  unfold put
  by_cases same : j = i
  · subst same
    cases b <;> simp [bound]
  · cases b <;> simp [bound, same]

theorem getLsbD_merge (bound : j < n) :
    (merge mask f g).getLsbD j = if mask.getLsbD j then g.getLsbD j else f.getLsbD j := by
  simp only [merge, BitVec.getLsbD_or, BitVec.getLsbD_and, BitVec.getLsbD_not, bound, decide_true, Bool.true_and]
  cases mask.getLsbD j <;> simp

/-- Words with the same bits are the same. -/
theorem ext (bits : ∀ j < n, f.getLsbD j = g.getLsbD j) : f = g := BitVec.eq_of_getLsbD_eq fun j bound => bits j bound

theorem has_put (bound : i < n) : has i (put i b f) = b := by
  rw [has_eq bound, getLsbD_put bound, if_pos rfl]

theorem put_put : put i a (put i b f) = put i a f := by
  refine ext fun j bound => ?_
  rw [getLsbD_put bound, getLsbD_put bound, getLsbD_put bound]
  split <;> rfl

theorem put_has (bound : i < n) : put i (has i f) f = f := by
  refine ext fun j bound' => ?_
  rw [getLsbD_put bound']
  split
  · rename_i same
    rw [same, has_eq bound]
  · rfl

/-- A flag that the store takes from the other word. -/
theorem has_merge (bound : i < n) (taken : mask.getLsbD i = true) : has i (merge mask f g) = has i g := by
  rw [has_eq bound, getLsbD_merge bound, if_pos taken, has_eq bound]

theorem merge_put (taken : mask.getLsbD i = true) : merge mask (put i a f) (put i b g) = put i b (merge mask f g) := by
  refine ext fun j bound => ?_
  rw [getLsbD_merge bound, getLsbD_put bound, getLsbD_put bound, getLsbD_put bound, getLsbD_merge bound]
  by_cases same : j = i
  · rw [if_pos same, if_pos same, same, if_pos taken, if_pos rfl]
  · rw [if_neg same, if_neg same, if_neg same]

/-- Storing a word with the flag over itself. -/
theorem merge_self (taken : mask.getLsbD i = true) : merge mask f (put i b f) = put i b f := by
  refine ext fun j bound => ?_
  rw [getLsbD_merge bound, getLsbD_put bound]
  by_cases same : j = i
  · rw [if_pos same, same, if_pos taken]
  · rw [if_neg same, ite_self]

end FlagWord
