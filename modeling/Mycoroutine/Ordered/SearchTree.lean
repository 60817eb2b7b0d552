import Mathlib.Data.List.Pairwise
import Mathlib.Data.Tree.Basic

/-!
# Search trees

Lookup and insertion as an ordered set does them: a descent from the root of a
binary tree that compares the key with one node a level. The shape of the tree is
arbitrary. If the values from left to right are ordered by the comparator, the
descent finds the key if it is there, and else the place where it belongs.
-/

namespace SearchTree

variable {α : Type*}

/-- The values from left to right. -/
def inorder : BinaryTree α → List α
  | .nil => []
  | .node a left right => inorder left ++ a :: inorder right

section Descent

variable (before : α → α → Bool) (key : α)

/-- The first value that is not before the key. -/
def lowerBound : BinaryTree α → Option α
  | .nil => none
  | .node a left right => if before a key then lowerBound right else (lowerBound left).or (some a)

/-- The value that is equivalent to the key. -/
def find (tree : BinaryTree α) : Option α := (lowerBound before key tree).filter fun a => !before key a

/-- An equivalent value stays, and the key is not inserted. -/
def insert : BinaryTree α → BinaryTree α
  | .nil => .node key .nil .nil
  | .node a left right =>
    if before key a then .node a (insert left) right
    else if before a key then .node a left (insert right)
    else .node a left right

end Descent

/-- Every list is the walk through some tree. -/
def ofList : List α → BinaryTree α
  | [] => .nil
  | a :: rest => .node a .nil (ofList rest)

theorem inorder_ofList (values : List α) : inorder (ofList values) = values := by
  induction values with
  | nil => rfl
  | cons a rest ih => rw [ofList, inorder, ih, inorder, List.nil_append]

/-- A strict order in which any two values are comparable. -/
structure Strict (before : α → α → Bool) : Prop where
  irrefl : ∀ a, before a a = false
  trans : ∀ a b c, before a b = true → before b c = true → before a c = true
  apart : ∀ a b, before a b = false → before b a = false → a = b

section Ordered

variable {before : α → α → Bool} {key : α}

/-- The descent skips only subtrees that a walk from left to right would skip. -/
theorem lowerBound_eq (strict : Strict before) {tree : BinaryTree α}
    (ordered : (inorder tree).Pairwise fun a b => before a b = true) :
    lowerBound before key tree = (inorder tree).find? fun a => !before a key := by
  induction tree with
  | nil => rfl
  | node a left right ihLeft ihRight =>
    obtain ⟨orderedLeft, orderedRight, across⟩ := List.pairwise_append.1 ordered
    rw [lowerBound, inorder, List.find?_append]
    split
    · rename_i less
      have skipped : (inorder left).find? (fun b => !before b key) = none := by
        refine List.find?_eq_none.2 fun b mem => ?_
        simp [strict.trans b a key (across b mem a List.mem_cons_self) less]
      rw [skipped, Option.none_or, List.find?_cons_of_neg (by simp [less]), ihRight (List.pairwise_cons.1 orderedRight).2]
    · rename_i notLess
      rw [ihLeft orderedLeft, List.find?_cons_of_pos (by simp [notLess])]

/-- In an ordered list the first value that is not before the key is the key, if
the list has it. -/
theorem find?_filter (strict : Strict before) [DecidableEq α] {values : List α}
    (ordered : values.Pairwise fun a b => before a b = true) :
    ((values.find? fun a => !before a key).filter fun a => !before key a) = if key ∈ values then some key else none := by
  induction values with
  | nil => rfl
  | cons a rest ih =>
    obtain ⟨first, later⟩ := List.pairwise_cons.1 ordered
    cases less : before a key with
    | true =>
      have ne : key ≠ a := by
        rintro rfl
        cases (strict.irrefl key).symm.trans less
      rw [List.find?_cons_of_neg (by simp [less]), ih later]
      simp only [List.mem_cons, ne, false_or]
    | false =>
      rw [List.find?_cons_of_pos (by simp [less])]
      cases more : before key a with
      | true =>
        -- the key would stand before the first value
        have absent : key ∉ a :: rest := by
          intro mem
          rcases List.mem_cons.1 mem with rfl | mem
          · cases (strict.irrefl key).symm.trans more
          · cases less.symm.trans (first key mem)
        rw [if_neg absent, Option.filter_some_neg (by simp [more])]
      | false =>
        have same : key = a := strict.apart key a more less
        rw [if_pos (List.mem_cons.2 (.inl same)), Option.filter_some_pos (by simp [more]), same]

/-- The descent finds exactly what is in the tree. -/
theorem find_eq (strict : Strict before) [DecidableEq α] {tree : BinaryTree α}
    (ordered : (inorder tree).Pairwise fun a b => before a b = true) :
    find before key tree = if key ∈ inorder tree then some key else none := by
  rw [find, lowerBound_eq strict ordered, find?_filter strict ordered]

/-- What the descent inserts is the key, unless it is there. -/
theorem mem_insert (strict : Strict before) {tree : BinaryTree α} {a : α} :
    a ∈ inorder (insert before key tree) ↔ a = key ∨ a ∈ inorder tree := by
  induction tree with
  | nil => simp [insert, inorder]
  | node b left right ihLeft ihRight =>
    rw [insert]
    split
    · simp only [inorder, List.mem_append, List.mem_cons, ihLeft, or_assoc]
    · rename_i notLess
      split
      · simp only [inorder, List.mem_append, List.mem_cons, ihRight]
        rw [or_left_comm (b := a = key), or_left_comm (b := a = key)]
      · rename_i notMore
        have same : key = b := strict.apart key b (by simpa using notLess) (by simpa using notMore)
        have there : a = key → a ∈ inorder (.node b left right) := by
          rintro rfl
          simp [inorder, same]
        exact (or_iff_right_of_imp there).symm

/-- The key goes where it belongs. -/
theorem insert_pairwise (strict : Strict before) {tree : BinaryTree α}
    (ordered : (inorder tree).Pairwise fun a b => before a b = true) :
    (inorder (insert before key tree)).Pairwise fun a b => before a b = true := by
  induction tree with
  | nil => exact List.pairwise_singleton ..
  | node b left right ihLeft ihRight =>
    obtain ⟨orderedLeft, orderedRight, across⟩ := List.pairwise_append.1 ordered
    obtain ⟨first, later⟩ := List.pairwise_cons.1 orderedRight
    rw [insert]
    split
    · rename_i less
      refine List.pairwise_append.2 ⟨ihLeft orderedLeft, orderedRight, fun a memLeft c memRight => ?_⟩
      rcases (mem_insert strict).1 memLeft with rfl | memLeft
      · rcases List.mem_cons.1 memRight with rfl | memRight
        · exact less
        · exact strict.trans _ _ _ less (first c memRight)
      · exact across a memLeft c memRight
    · split
      · rename_i more
        have laterKey : ∀ c ∈ inorder (insert before key right), before b c = true := by
          intro c mem
          rcases (mem_insert strict).1 mem with rfl | mem
          · exact more
          · exact first c mem
        refine List.pairwise_append.2 ⟨orderedLeft, List.pairwise_cons.2 ⟨laterKey, ihRight later⟩,
          fun a memLeft c memRight => ?_⟩
        have ahead : before a b = true := across a memLeft b List.mem_cons_self
        rcases List.mem_cons.1 memRight with rfl | memRight
        · exact ahead
        · exact strict.trans _ _ _ ahead (laterKey c memRight)
      · exact ordered

end Ordered

end SearchTree
