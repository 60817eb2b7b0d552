import Mathlib.Algebra.Group.Nat.Defs
import Mathlib.Data.List.Basic

/-!
# Words in a byte memory

A memory of bytes under 64-bit addresses, and words of eight bytes in it, the
least significant byte first. A region is given by its first address and its
length; addresses wrap, and so may a region.
-/

namespace ByteMemory
set_option autoImplicit false

/-- A byte for each address. -/
abbrev Mem := BitVec 64 → BitVec 8

variable {m m' : Mem} {a b base : BitVec 64} {v : BitVec 64}

/-- The addresses of a region. -/
def Region (base : BitVec 64) (size : Nat) (a : BitVec 64) : Prop := (a - base).toNat < size

instance (base : BitVec 64) (size : Nat) (a : BitVec 64) : Decidable (Region base size a) :=
  inferInstanceAs (Decidable (_ < _))

/-- The word at an address. -/
def read (m : Mem) (a : BitVec 64) : BitVec 64 :=
  m (a + 7#64) ++ m (a + 6#64) ++ m (a + 5#64) ++ m (a + 4#64) ++ m (a + 3#64) ++ m (a + 2#64) ++ m (a + 1#64) ++ m a

/-- A word is stored. -/
def write (m : Mem) (a v : BitVec 64) : Mem := fun b =>
  if Region a 8 b then v.extractLsb' (8 * (b - a).toNat) 8 else m b

theorem add_sub_left (a k : BitVec 64) : a + k - a = k := by rw [BitVec.add_comm, BitVec.add_sub_cancel]

theorem region_add {size k : Nat} (bound : k < 2 ^ 64) : Region base size (base + BitVec.ofNat 64 k) ↔ k < size := by
  rw [Region, add_sub_left, BitVec.toNat_ofNat, Nat.mod_eq_of_lt bound]

theorem write_of_region (inside : Region a 8 b) : write m a v b = v.extractLsb' (8 * (b - a).toNat) 8 := if_pos inside

theorem write_of_not_region (outside : ¬ Region a 8 b) : write m a v b = m b := if_neg outside

/-- A word is what its bytes are. -/
theorem read_congr (same : ∀ b, Region a 8 b → m b = m' b) : read m a = read m' a := by
  have byte (k : Nat) (small : k < 8) : m (a + BitVec.ofNat 64 k) = m' (a + BitVec.ofNat 64 k) := by
    apply same
    exact (region_add (by omega)).2 small
  simp only [read]
  rw [byte 7 (by decide), byte 6 (by decide), byte 5 (by decide), byte 4 (by decide), byte 3 (by decide), byte 2 (by decide),
    byte 1 (by decide), same a (by simp [Region])]

theorem read_write_self : read (write m a v) a = v := by
  have byte (k : Nat) (small : k < 8) : write m a v (a + BitVec.ofNat 64 k) = v.extractLsb' (8 * k) 8 := by
    have same : (BitVec.ofNat 64 k).toNat = k := by
      rw [BitVec.toNat_ofNat]
      omega
    rw [write_of_region ((region_add (by omega)).2 small), add_sub_left, same]
  have first : write m a v a = v.extractLsb' 0 8 := by
    simp [write, Region]
  have join (start len : Nat) : v.extractLsb' (start + 8) len ++ v.extractLsb' start 8 = v.extractLsb' start (len + 8) :=
    BitVec.extractLsb'_append_extractLsb'_eq_extractLsb' rfl
  simp only [read]
  rw [byte 7 (by decide), byte 6 (by decide), byte 5 (by decide), byte 4 (by decide), byte 3 (by decide), byte 2 (by decide),
    byte 1 (by decide), first, join 48, join 40, join 32, join 24, join 16, join 8, join 0]
  exact BitVec.extractLsb'_eq_self

/-- A word apart from the one written. -/
theorem read_write_apart (apart : ∀ c, Region b 8 c → ¬ Region a 8 c) : read (write m a v) b = read m b :=
  read_congr fun c inside => write_of_not_region (apart c inside)

/-! ## Consecutive words -/

/-- Words are stored one after the other. -/
def writeAll (m : Mem) (base : BitVec 64) : List (BitVec 64) → Mem
  | [] => m
  | v :: rest => writeAll (write m base v) (base + 8#64) rest

/-- How far an address is from the next word. -/
theorem toNat_next : (b - (base + 8#64)).toNat = (2 ^ 64 - 8 + (b - base).toNat) % 2 ^ 64 := by
  have next : b - (base + 8#64) = b - base - 8#64 := by bv_omega
  rw [next, BitVec.toNat_sub]
  rfl

/-- The first word and the words after it are apart. -/
theorem not_region_next {len : Nat} (fits : 8 * (len + 1) ≤ 2 ^ 64) (inside : Region base 8 b) :
    ¬ Region (base + 8#64) (8 * len) b := by
  unfold Region at inside ⊢
  rw [toNat_next]
  omega

theorem writeAll_of_not_region {words : List (BitVec 64)} (fits : 8 * words.length ≤ 2 ^ 64)
    (outside : ¬ Region base (8 * words.length) b) : writeAll m base words b = m b := by
  induction words generalizing base m with
  | nil => rfl
  | cons v rest ih =>
    rw [List.length_cons] at fits outside
    have first : ¬ Region base 8 b := fun inside => by
      unfold Region at inside outside
      omega
    have later : ¬ Region (base + 8#64) (8 * rest.length) b := by
      unfold Region at first outside ⊢
      rw [toNat_next]
      have range := (b - base).isLt
      omega
    rw [writeAll, ih (by omega) later, write_of_not_region first]

theorem read_writeAll {words : List (BitVec 64)} {i : Nat} (fits : 8 * words.length ≤ 2 ^ 64) (here : words[i]? = some v) :
    read (writeAll m base words) (base + BitVec.ofNat 64 (8 * i)) = v := by
  induction words generalizing base m i with
  | nil => cases here
  | cons w rest ih =>
    rw [List.length_cons] at fits
    cases i with
    | zero =>
      simp only [List.getElem?_cons_zero, Option.some.injEq] at here
      subst here
      rw [Nat.mul_zero, BitVec.add_zero]
      calc read (writeAll (write m base w) (base + 8#64) rest) base
          = read (write m base w) base := read_congr fun b inside =>
            writeAll_of_not_region (by omega) (not_region_next fits inside)
        _ = w := read_write_self
    | succ i =>
      rw [List.getElem?_cons_succ] at here
      have next : base + BitVec.ofNat 64 (8 * (i + 1)) = base + 8#64 + BitVec.ofNat 64 (8 * i) := by
        rw [Nat.mul_add, BitVec.ofNat_add, BitVec.add_assoc, BitVec.add_comm (BitVec.ofNat 64 (8 * i))]
      rw [writeAll, next]
      exact ih (by omega) here

end ByteMemory
