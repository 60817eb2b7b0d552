import Mathlib.Data.List.Basic
import Mathlib.Data.Nat.ModEq

/-!
# Shared stack slots

A slot is a block of memory that several fibers use in turn as their stack.
Addresses are natural numbers; `bytes` starts at the slot's lowest address, so a
stack that grows downwards keeps its live bytes at the end of the list.
-/

namespace Mycoroutine
set_option autoImplicit false

/-- A `shared_ptr<Fiber>` or a raw `Fiber*`. -/
abbrev Ref := Nat

/-- The architectures `context.h` supports. -/
inductive Arch where
  | x86_64
  | aarch64
deriving DecidableEq

def kFiberContextStackAlignment : Nat := 16

def Arch.kFiberContextEntryStackAdjust : Arch → Nat
  | .x86_64 => 8
  | .aarch64 => 0

/-- How many zero bytes `InitFiberContextStack` writes at the entry stack
pointer: a null return address on x86_64, nothing on aarch64. -/
def Arch.entryWord : Arch → Nat
  | .x86_64 => 8
  | .aarch64 => 0

/-- `AlignDown`: clears the bits below the alignment, a power of two. -/
def alignDown (value alignment : Nat) : Nat := value - value % alignment

theorem alignDown_le (value alignment : Nat) : alignDown value alignment ≤ value := Nat.sub_le ..

/-- `SharedStackSlot`; `owner` may refer to a fiber that is gone. -/
structure Slot where
  stack : Nat
  bytes : List UInt8
  owner : Option Ref := none

namespace Slot

variable {arch : Arch} {slot : Slot} {sp : Nat} {image : List UInt8}

def size (slot : Slot) : Nat := slot.bytes.length

def top (slot : Slot) : Nat := slot.stack + slot.size

/-- `entry_sp` of `InitFiberContextStack`. -/
def entry (arch : Arch) (slot : Slot) : Nat :=
  alignDown slot.top kFiberContextStackAlignment - arch.kFiberContextEntryStackAdjust

/-- The bytes from a stack pointer to the top of the slot. -/
def above (slot : Slot) (sp : Nat) : List UInt8 := slot.bytes.drop (sp - slot.stack)

/-- The memory write of `InitFiberContextStack`. -/
def initStack (arch : Arch) (slot : Slot) : Slot :=
  let offset := slot.entry arch - slot.stack
  { slot with bytes := slot.bytes.take offset ++ List.replicate arch.entryWord 0 ++
      slot.bytes.drop (offset + arch.entryWord) }

/-- `memcpy` of a snapshot to the top of the slot. -/
def restore (slot : Slot) (image : List UInt8) : Slot :=
  { slot with bytes := slot.bytes.take (slot.size - image.length) ++ image }

/-- A write of one byte at an offset from the bottom. -/
def write (slot : Slot) (offset : Nat) (value : UInt8) : Slot :=
  { slot with bytes := slot.bytes.set offset value }

/-- The entry word lies inside the slot. -/
def Room (arch : Arch) (slot : Slot) : Prop :=
  slot.stack + arch.kFiberContextEntryStackAdjust ≤ alignDown slot.top kFiberContextStackAlignment

instance : Decidable (slot.Room arch) := inferInstanceAs (Decidable (_ ≤ _))

/-- A stack pointer of a fiber that runs below its entry word. -/
def Inside (arch : Arch) (slot : Slot) (sp : Nat) : Prop := slot.stack ≤ sp ∧ sp ≤ slot.entry arch

instance : Decidable (slot.Inside arch sp) := inferInstanceAs (Decidable (_ ∧ _))

/-- The entry word is zero. -/
def Zeroed (arch : Arch) (slot : Slot) : Prop :=
  (slot.above (slot.entry arch)).take arch.entryWord = List.replicate arch.entryWord 0

/-- A saved image of the bytes above `sp`, with its zero entry word. -/
structure Holds (arch : Arch) (slot : Slot) (sp : Nat) (image : List UInt8) : Prop where
  inside : slot.Inside arch sp
  length_eq : image.length = slot.top - sp
  zeroed : (image.drop (slot.entry arch - sp)).take arch.entryWord = List.replicate arch.entryWord 0

/-! ## The block of a slot -/

/-- The same block of memory, whatever it contains. -/
def Same (slot slot' : Slot) : Prop := slot'.stack = slot.stack ∧ slot'.size = slot.size

variable {slot' : Slot}

theorem Same.entry_eq (same : slot.Same slot') : slot'.entry arch = slot.entry arch := by
  simp only [entry, top, same.1, same.2]

theorem Room.same (room : slot.Room arch) (same : slot.Same slot') : slot'.Room arch := by
  simpa only [Room, top, same.1, same.2] using room

theorem Inside.same (inside : slot.Inside arch sp) (same : slot.Same slot') : slot'.Inside arch sp := by
  simpa only [Inside, same.entry_eq, same.1] using inside

theorem Holds.same (holds : slot.Holds arch sp image) (same : slot.Same slot') : slot'.Holds arch sp image where
  inside := holds.inside.same same
  length_eq := by simpa only [top, same.1, same.2] using holds.length_eq
  zeroed := by simpa only [same.entry_eq] using holds.zeroed

/-! ## The entry word -/

theorem Room.entry_word (room : slot.Room arch) :
    slot.stack ≤ slot.entry arch ∧ slot.entry arch + arch.entryWord ≤ slot.top := by
  have := alignDown_le slot.top kFiberContextStackAlignment
  unfold Room at room
  unfold entry
  cases arch <;> simp only [Arch.kFiberContextEntryStackAdjust, Arch.entryWord] at room ⊢ <;> omega

theorem Room.offset_le (room : slot.Room arch) :
    slot.entry arch - slot.stack + arch.entryWord ≤ slot.bytes.length := by
  have := room.entry_word
  simp only [top, size] at this
  omega

theorem same_initStack (room : slot.Room arch) : slot.Same (slot.initStack arch) := by
  have := room.offset_le
  refine ⟨rfl, ?_⟩
  simp only [size, initStack, List.length_append, List.length_take, List.length_replicate, List.length_drop]
  omega

/-- Once the entry word is zero, another `InitFiberContextStack` changes nothing. -/
theorem initStack_zeroed (zeroed : slot.Zeroed arch) : slot.initStack arch = slot := by
  have split : slot.bytes = slot.bytes.take (slot.entry arch - slot.stack) ++
      ((slot.bytes.drop (slot.entry arch - slot.stack)).take arch.entryWord ++
        (slot.bytes.drop (slot.entry arch - slot.stack)).drop arch.entryWord) := by
    rw [List.take_append_drop, List.take_append_drop]
  unfold Zeroed above at zeroed
  rw [zeroed, List.drop_drop, ← List.append_assoc] at split
  simp only [initStack]
  rw [← split]

theorem zeroed_initStack (room : slot.Room arch) : (slot.initStack arch).Zeroed arch := by
  have bound := room.offset_le
  unfold Zeroed above
  rw [(same_initStack room).entry_eq]
  simp only [initStack]
  rw [List.append_assoc, List.drop_append_of_le_length (by simp; omega),
    List.drop_eq_nil_of_le (by simp), List.nil_append, List.take_left' (by simp)]

/-! ## Saving and restoring -/

/-- What `saveSharedStackSnapshot` copies. -/
theorem holds_above (inside : slot.Inside arch sp) (zeroed : slot.Zeroed arch) :
    slot.Holds arch sp (slot.above sp) := by
  obtain ⟨low, high⟩ := inside
  refine ⟨⟨low, high⟩, ?_, ?_⟩
  · simp only [above, top, size, List.length_drop]
    omega
  · unfold Zeroed above at zeroed
    rw [above, List.drop_drop, show sp - slot.stack + (slot.entry arch - sp) = slot.entry arch - slot.stack by omega]
    exact zeroed

theorem Holds.length_le (holds : slot.Holds arch sp image) : image.length ≤ slot.size := by
  have := holds.length_eq
  have := holds.inside.1
  simp only [top] at *
  omega

theorem same_restore (fits : image.length ≤ slot.size) : slot.Same (slot.restore image) := by
  refine ⟨rfl, ?_⟩
  simp only [size, restore, List.length_append, List.length_take] at fits ⊢
  omega

theorem zeroed_owner (owner : Option Ref) : ({ slot with owner } : Slot).Zeroed arch ↔ slot.Zeroed arch := by
  simp only [Zeroed, above, entry, top, size]

theorem restore_nil : slot.restore [] = slot := by
  simp [restore, size]

/-- A restored image is what lies above its stack pointer. -/
theorem above_restore (room : slot.Room arch) (holds : slot.Holds arch sp image) :
    (slot.restore image).above sp = image := by
  have len := holds.length_eq
  have inside := holds.inside
  have word := room.entry_word
  simp only [Inside, top, size] at len inside word
  simp only [above, restore, size]
  rw [List.drop_append_of_le_length (by simp; omega), List.drop_eq_nil_of_le (by simp; omega), List.nil_append]

theorem zeroed_restore (room : slot.Room arch) (holds : slot.Holds arch sp image) :
    (slot.restore image).Zeroed arch := by
  have inside := holds.inside
  unfold Inside at inside
  have split : (slot.restore image).above (slot.entry arch) =
      ((slot.restore image).above sp).drop (slot.entry arch - sp) := by
    simp only [above, List.drop_drop]
    congr 1
    simp only [restore]
    omega
  rw [Zeroed, (same_restore holds.length_le).entry_eq, split, above_restore room holds]
  exact holds.zeroed

theorem same_write (offset : Nat) (value : UInt8) : slot.Same (slot.write offset value) := by
  simp [Same, size, write]

/-- A write below the entry word leaves it zero. -/
theorem zeroed_write {offset : Nat} (value : UInt8) (below : slot.stack + offset < slot.entry arch)
    (zeroed : slot.Zeroed arch) : (slot.write offset value).Zeroed arch := by
  unfold Zeroed above at zeroed ⊢
  rw [(same_write offset value).entry_eq]
  simp only [write]
  rw [List.drop_set_of_lt (by omega)]
  exact zeroed

end Slot

end Mycoroutine
