import Mathlib.Data.Finset.Card
import Mathlib.Logic.Function.Basic

/-!
# Counting the parties at a place

A counter that the parties of a machine keep, each of them adding one when it enters
some places and taking one off when it leaves them. `Tally q place n` says that the
counter tells the truth: `n` parties are at a place of `q`. Parties may be infinitely
many; finitely many of them are at such a place.
-/

namespace Interleave

variable {α β : Type*} {q : β → Prop} {place : α → β} {n : Nat} {a : α} {b : β}

/-- `n` parties are at a place of `q`. -/
def Tally (q : β → Prop) (place : α → β) (n : Nat) : Prop :=
  ∃ who : Finset α, (∀ a, a ∈ who ↔ q (place a)) ∧ who.card = n

namespace Tally

theorem zero (nobody : ∀ a, ¬ q (place a)) : Tally q place 0 :=
  ⟨∅, fun a => ⟨nofun, fun inside => absurd inside (nobody a)⟩, rfl⟩

theorem pos (h : Tally q place n) (inside : q (place a)) : 0 < n := by
  obtain ⟨who, mem, card⟩ := h
  have nonempty := Finset.card_pos.2 ⟨a, (mem a).2 inside⟩
  omega

theorem nobody (h : Tally q place 0) (a : α) : ¬ q (place a) := fun inside =>
  Nat.lt_irrefl 0 (h.pos inside)

theorem eq_zero (h : Tally q place n) (nobody : ∀ a, ¬ q (place a)) : n = 0 := by
  obtain ⟨who, mem, card⟩ := h
  have empty : who = ∅ := Finset.eq_empty_of_forall_notMem fun a counted => nobody a ((mem a).1 counted)
  rw [← card, empty, Finset.card_empty]

variable [DecidableEq α]

/-- A party moves, inside of `q` or outside. -/
theorem same (h : Tally q place n) (same : q b ↔ q (place a)) : Tally q (Function.update place a b) n := by
  obtain ⟨who, mem, card⟩ := h
  refine ⟨who, fun x => ?_, card⟩
  by_cases mine : x = a
  · rw [mine, Function.update_self, same]
    exact mem a
  · rw [Function.update_of_ne mine]
    exact mem x

theorem enter (h : Tally q place n) (out : ¬ q (place a)) (inside : q b) :
    Tally q (Function.update place a b) (n + 1) := by
  obtain ⟨who, mem, card⟩ := h
  have fresh : a ∉ who := fun counted => out ((mem a).1 counted)
  refine ⟨insert a who, fun x => ?_, ?_⟩
  · by_cases mine : x = a
    · simp only [mine, Finset.mem_insert, true_or, Function.update_self, inside]
    · simp only [Finset.mem_insert, mine, false_or, ne_eq, not_false_eq_true, Function.update_of_ne, mem]
  · rw [Finset.card_insert_of_notMem fresh, card]

theorem leave (h : Tally q place n) (inside : q (place a)) (out : ¬ q b) :
    Tally q (Function.update place a b) (n - 1) := by
  obtain ⟨who, mem, card⟩ := h
  refine ⟨who.erase a, fun x => ?_, ?_⟩
  · by_cases mine : x = a
    · simp only [mine, Finset.mem_erase, ne_eq, not_true_eq_false, false_and, Function.update_self, out]
    · simp only [Finset.mem_erase, ne_eq, mine, not_false_eq_true, true_and, Function.update_of_ne, mem]
  · rw [Finset.card_erase_of_mem ((mem a).2 inside), card]

end Tally

end Interleave
