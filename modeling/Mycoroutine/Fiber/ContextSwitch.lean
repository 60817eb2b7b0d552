import Mycoroutine.Fiber.SharedStack
import Mycoroutine.Interleave.Machine
import Mycoroutine.Words.ByteMemory

/-!
# `mycoroutine_context_swap`

The two assembly routines, instruction by instruction, the `FiberContext` they store
to and load from, and `InitFiberContextStack`. A routine ends in a jump to the address
it loaded, which is its own `.Lresume`, where it returns to its caller, or the entry
point of a fiber.

Addresses are those of the machine, and the registers of both architectures are one
type: a routine touches those of its own.
-/

namespace Mycoroutine.ContextSwitch
set_option autoImplicit false
open ByteMemory Interleave

/-! ## The machine -/

/-- General-purpose registers of x86_64; those of aarch64, its stack pointer, and the
low words of its vector registers. -/
inductive Reg where
  | rax | rbx | rcx | rdx | rsi | rdi | rbp | rsp | r8 | r9 | r10 | r11 | r12 | r13 | r14 | r15
  | x (n : Fin 31)
  | sp
  | d (n : Fin 32)
deriving DecidableEq

structure Cpu where
  regs : Reg → BitVec 64
  pc : BitVec 64
  mem : Mem

/-- The instructions the routines use; `lea` is `leaq .Lresume(%rip)` and
`adr .Lresume`. -/
inductive Instr where
  | store (src base : Reg) (offset : Nat)
  | storePair (first second base : Reg) (offset : Nat)
  | load (dst base : Reg) (offset : Nat)
  | loadPair (first second base : Reg) (offset : Nat)
  | move (dst src : Reg)
  | lea (dst : Reg)
  | jump (target : Reg)

namespace Cpu

def set (s : Cpu) (r : Reg) (v : BitVec 64) : Cpu := { s with regs := Function.update s.regs r v }

/-- The address of an operand. -/
def address (s : Cpu) (base : Reg) (offset : Nat) : BitVec 64 := s.regs base + BitVec.ofNat 64 offset

/-- One instruction, `resume` being the address of `.Lresume`. -/
def exec (resume : BitVec 64) (s : Cpu) : Instr → Cpu
  | .store src base offset => { s with mem := write s.mem (s.address base offset) (s.regs src) }
  | .storePair first second base offset =>
    { s with mem := write (write s.mem (s.address base offset) (s.regs first)) (s.address base (offset + 8)) (s.regs second) }
  | .load dst base offset => s.set dst (read s.mem (s.address base offset))
  | .loadPair first second base offset =>
    (s.set first (read s.mem (s.address base offset))).set second (read s.mem (s.address base (offset + 8)))
  | .move dst src => s.set dst (s.regs src)
  | .lea dst => s.set dst resume
  | .jump target => { s with pc := s.regs target }

def run (resume : BitVec 64) (s : Cpu) (code : List Instr) : Cpu := code.foldl (exec resume) s

end Cpu

/-! ## The routines -/

/-- The first part of `mycoroutine_context_swap`. -/
def save : Arch → List Instr
  | .x86_64 =>
    [.store .rsp .rdi 0, .lea .rax, .store .rax .rdi 8, .store .rbx .rdi 16, .store .rbp .rdi 24, .store .r12 .rdi 32,
     .store .r13 .rdi 40, .store .r14 .rdi 48, .store .r15 .rdi 56]
  | .aarch64 =>
    [.move (.x 9) .sp, .store (.x 9) (.x 0) 0, .lea (.x 9), .store (.x 9) (.x 0) 8, .storePair (.x 19) (.x 20) (.x 0) 16,
     .storePair (.x 21) (.x 22) (.x 0) 32, .storePair (.x 23) (.x 24) (.x 0) 48, .storePair (.x 25) (.x 26) (.x 0) 64,
     .storePair (.x 27) (.x 28) (.x 0) 80, .storePair (.x 29) (.x 30) (.x 0) 96, .storePair (.d 8) (.d 9) (.x 0) 112,
     .storePair (.d 10) (.d 11) (.x 0) 128, .storePair (.d 12) (.d 13) (.x 0) 144, .storePair (.d 14) (.d 15) (.x 0) 160]

/-- The second part, up to `.Lresume`. -/
def restore : Arch → List Instr
  | .x86_64 =>
    [.load .rbx .rsi 16, .load .rbp .rsi 24, .load .r12 .rsi 32, .load .r13 .rsi 40, .load .r14 .rsi 48, .load .r15 .rsi 56,
     .load .rsp .rsi 0, .load .rax .rsi 8, .jump .rax]
  | .aarch64 =>
    [.load (.x 9) (.x 1) 0, .move .sp (.x 9), .load (.x 2) (.x 1) 8, .loadPair (.x 19) (.x 20) (.x 1) 16,
     .loadPair (.x 21) (.x 22) (.x 1) 32, .loadPair (.x 23) (.x 24) (.x 1) 48, .loadPair (.x 25) (.x 26) (.x 1) 64,
     .loadPair (.x 27) (.x 28) (.x 1) 80, .loadPair (.x 29) (.x 30) (.x 1) 96, .loadPair (.d 8) (.d 9) (.x 1) 112,
     .loadPair (.d 10) (.d 11) (.x 1) 128, .loadPair (.d 12) (.d 13) (.x 1) 144, .loadPair (.d 14) (.d 15) (.x 1) 160,
     .jump (.x 2)]

/-- `ret`, at `.Lresume`. -/
def ret (arch : Arch) (s : Cpu) : Cpu :=
  match arch with
  | .x86_64 => { s.set .rsp (s.regs .rsp + 8#64) with pc := read s.mem (s.regs .rsp) }
  | .aarch64 => { s with pc := s.regs (.x 30) }

/-- `mycoroutine_context_swap`, from its entry to the code that goes on. -/
def contextSwap (arch : Arch) (resume : BitVec 64) (s : Cpu) : Cpu :=
  let s := (s.run resume (save arch)).run resume (restore arch)
  if s.pc = resume then ret arch s else s

/-- The registers a function leaves as it found them, under both ABIs. -/
def calleeSaved : Arch → List Reg
  | .x86_64 => [.rbx, .rbp, .r12, .r13, .r14, .r15]
  | .aarch64 =>
    [.x 19, .x 20, .x 21, .x 22, .x 23, .x 24, .x 25, .x 26, .x 27, .x 28, .x 29, .x 30, .d 8, .d 9, .d 10, .d 11, .d 12,
     .d 13, .d 14, .d 15]

/-- The return address of a call that begins here. -/
def Cpu.returnAddress (arch : Arch) (call : Cpu) : BitVec 64 :=
  match arch with
  | .x86_64 => read call.mem (call.regs .rsp)
  | .aarch64 => call.regs (.x 30)

/-! ## `FiberContext` -/

inductive Member where
  | sp
  | pc
  | reg (r : Reg)
deriving DecidableEq

/-- The members of `FiberContext`, in order; each is a word. -/
def members : Arch → List Member
  | .x86_64 => [.sp, .pc, .reg .rbx, .reg .rbp, .reg .r12, .reg .r13, .reg .r14, .reg .r15]
  | .aarch64 =>
    [.sp, .pc, .reg (.x 19), .reg (.x 20), .reg (.x 21), .reg (.x 22), .reg (.x 23), .reg (.x 24), .reg (.x 25),
     .reg (.x 26), .reg (.x 27), .reg (.x 28), .reg (.x 29), .reg (.x 30), .reg (.d 8), .reg (.d 9), .reg (.d 10),
     .reg (.d 11), .reg (.d 12), .reg (.d 13), .reg (.d 14), .reg (.d 15)]

def offsetOf (arch : Arch) (m : Member) : Nat := 8 * (members arch).idxOf m

def sizeOf (arch : Arch) : Nat := 8 * (members arch).length

example : sizeOf .x86_64 = 64 ∧ sizeOf .aarch64 = 176 := ⟨rfl, rfl⟩

/-- The registers of the arguments `from` and `to`, and the stack pointer. -/
def fromReg : Arch → Reg
  | .x86_64 => .rdi
  | .aarch64 => .x 0

def toReg : Arch → Reg
  | .x86_64 => .rsi
  | .aarch64 => .x 1

def spReg : Arch → Reg
  | .x86_64 => .rsp
  | .aarch64 => .sp

/-- What a caller leaves in each member. -/
def Cpu.member (arch : Arch) (resume : BitVec 64) (s : Cpu) : Member → BitVec 64
  | .sp => s.regs (spReg arch)
  | .pc => resume
  | .reg r => s.regs r

/-- The object at `base` has these members. -/
def Holds (arch : Arch) (mem : Mem) (base : BitVec 64) (value : Member → BitVec 64) : Prop :=
  ∀ m ∈ members arch, read mem (base + BitVec.ofNat 64 (offsetOf arch m)) = value m

section Routines

variable {arch : Arch} {resume : BitVec 64} {s : Cpu} {value : Member → BitVec 64} {mem mem' : Mem} {base : BitVec 64}

/-- The first part stores what the layout says, in its order. -/
theorem mem_save : (s.run resume (save arch)).mem =
    writeAll s.mem (s.regs (fromReg arch)) ((members arch).map (s.member arch resume)) := by
  cases arch with
  | x86_64 =>
    simp [Cpu.run, save, Cpu.exec, Cpu.set, Cpu.address, members, writeAll, fromReg, Cpu.member, spReg, BitVec.add_assoc]
  | aarch64 =>
    simp [Cpu.run, save, Cpu.exec, Cpu.set, Cpu.address, members, writeAll, fromReg, Cpu.member, spReg, BitVec.add_assoc]

theorem toReg_save (resume : BitVec 64) : (s.run resume (save arch)).regs (toReg arch) = s.regs (toReg arch) := by
  cases arch <;> rfl

theorem mem_restore (resume : BitVec 64) : (s.run resume (restore arch)).mem = s.mem := by
  cases arch <;> rfl

/-- The second part loads every member from where the layout has it. -/
theorem load_restore (resume : BitVec 64) (holds : Holds arch s.mem (s.regs (toReg arch)) value) :
    (s.run resume (restore arch)).regs (spReg arch) = value .sp ∧ (s.run resume (restore arch)).pc = value .pc ∧
      ∀ r, .reg r ∈ members arch → (s.run resume (restore arch)).regs r = value (.reg r) := by
  cases arch with
  | x86_64 =>
    refine ⟨holds .sp (by decide), holds .pc (by decide), fun r mem => ?_⟩
    have loaded := holds (.reg r) mem
    simp only [members, List.mem_cons, reduceCtorEq, Member.reg.injEq, List.not_mem_nil, or_false, false_or] at mem
    rcases mem with rfl | rfl | rfl | rfl | rfl | rfl <;> exact loaded
  | aarch64 =>
    refine ⟨holds .sp (by decide), holds .pc (by decide), fun r mem => ?_⟩
    have loaded := holds (.reg r) mem
    simp only [members, List.mem_cons, reduceCtorEq, Member.reg.injEq, List.not_mem_nil, or_false, false_or] at mem
    rcases mem with rfl | rfl | rfl | rfl | rfl | rfl | rfl | rfl | rfl | rfl | rfl | rfl | rfl | rfl | rfl | rfl | rfl | rfl | rfl |
      rfl <;> exact loaded

theorem lt_length {m : Member} (mem : m ∈ members arch) : (members arch).idxOf m < (members arch).length :=
  List.idxOf_lt_length_of_mem mem

theorem length_members (arch : Arch) : 8 * (members arch).length ≤ 2 ^ 64 := by
  cases arch <;> decide

/-- What was stored is held. -/
theorem holds_writeAll : Holds arch (writeAll mem base ((members arch).map value)) base value := by
  intro m mem
  refine read_writeAll (by simpa only [List.length_map] using length_members arch) ?_
  rw [List.getElem?_map, List.getElem?_idxOf mem]
  rfl

/-- The words of the members lie in the object. -/
theorem region_member {m : Member} {a : BitVec 64} (mem : m ∈ members arch)
    (inside : Region (base + BitVec.ofNat 64 (offsetOf arch m)) 8 a) : Region base (sizeOf arch) a := by
  have bound := lt_length mem
  have most := length_members arch
  unfold Region at inside ⊢
  unfold offsetOf at inside
  unfold sizeOf
  generalize (members arch).idxOf m = i at *
  generalize (members arch).length = n at *
  have apart : a - base = a - (base + BitVec.ofNat 64 (8 * i)) + BitVec.ofNat 64 (8 * i) := by
    rw [← BitVec.sub_sub, BitVec.sub_add_cancel]
  rw [apart, BitVec.toNat_add, BitVec.toNat_ofNat]
  omega

/-- An object that keeps its bytes keeps its members. -/
theorem Holds.congr (h : Holds arch mem base value) (same : ∀ a, Region base (sizeOf arch) a → mem' a = mem a) :
    Holds arch mem' base value := fun m isMember => by
  rw [← h m isMember]
  exact read_congr fun a inside => same a (region_member isMember inside)

/-- The words of two members are apart. -/
theorem region_apart {m m' : Member} {a : BitVec 64} (isMember : m ∈ members arch) (isMember' : m' ∈ members arch)
    (other : m' ≠ m) (inside : Region (base + BitVec.ofNat 64 (offsetOf arch m')) 8 a) :
    ¬ Region (base + BitVec.ofNat 64 (offsetOf arch m)) 8 a := by
  have bound := lt_length isMember
  have bound' := lt_length isMember'
  have most := length_members arch
  have apart : (members arch).idxOf m' ≠ (members arch).idxOf m := fun same => other (List.idxOf_inj isMember' |>.1 same)
  unfold Region offsetOf at inside ⊢
  generalize (members arch).idxOf m = i at *
  generalize (members arch).idxOf m' = j at *
  generalize (members arch).length = n at *
  have offset (k : Nat) : a - (base + BitVec.ofNat 64 (8 * k)) = a - base - BitVec.ofNat 64 (8 * k) := by
    rw [BitVec.sub_sub]
  rw [offset, BitVec.toNat_sub, BitVec.toNat_ofNat] at inside ⊢
  have range := (a - base).isLt
  omega

/-- A member is assigned. -/
theorem Holds.assign (h : Holds arch mem base value) {m : Member} (isMember : m ∈ members arch) (v : BitVec 64) :
    Holds arch (write mem (base + BitVec.ofNat 64 (offsetOf arch m)) v) base (Function.update value m v) := by
  intro m' isMember'
  by_cases same : m' = m
  · subst same
    rw [Function.update_self]
    exact read_write_self
  · rw [Function.update_of_ne same, ← h m' isMember']
    exact read_write_apart fun a inside => region_apart isMember isMember' same inside

end Routines

/-! ## `InitFiberContextStack` -/

def alignDown (value alignment : BitVec 64) : BitVec 64 := value &&& ~~~(alignment - 1#64)

/-- The block a context is started on. -/
structure Stack where
  bottom : BitVec 64
  size : Nat
  nonnull : bottom ≠ 0#64
  large : 32 ≤ size
  fits : bottom.toNat + size < 2 ^ 64

namespace Stack

def top (stack : Stack) : BitVec 64 := stack.bottom + BitVec.ofNat 64 stack.size

/-- `entry_sp`. -/
def entry (arch : Arch) (stack : Stack) : BitVec 64 :=
  alignDown stack.top (BitVec.ofNat 64 kFiberContextStackAlignment) - BitVec.ofNat 64 arch.kFiberContextEntryStackAdjust

end Stack

def initFiberContextStack (arch : Arch) (entryPoint : BitVec 64) (mem : Mem) (ctx : BitVec 64) (stack : Stack) : Mem :=
  let mem := writeAll mem ctx ((members arch).map fun _ => 0#64)
  let mem := match arch with
    | .x86_64 => write mem (stack.entry .x86_64) 0#64
    | .aarch64 => mem
  let mem := write mem (ctx + BitVec.ofNat 64 (offsetOf arch .sp)) (stack.entry arch)
  write mem (ctx + BitVec.ofNat 64 (offsetOf arch .pc)) entryPoint

/-- What it leaves in each member. -/
def initial (arch : Arch) (entryPoint : BitVec 64) (stack : Stack) : Member → BitVec 64 :=
  Function.update (Function.update (fun _ => 0#64) .sp (stack.entry arch)) .pc entryPoint

section Init

variable {arch : Arch} {entryPoint ctx : BitVec 64} {mem : Mem} {stack : Stack}

theorem and_not_add (value mask : BitVec 64) : (value &&& ~~~mask) + (value &&& mask) = value := by
  rw [BitVec.add_eq_or_of_and_eq_zero]
  · ext i inside
    rw [BitVec.getElem_or, BitVec.getElem_and, BitVec.getElem_and, BitVec.getElem_not]
    cases value[i] <;> cases mask[i] <;> rfl
  · ext i inside
    rw [BitVec.getElem_and, BitVec.getElem_and, BitVec.getElem_and, BitVec.getElem_not, BitVec.getElem_zero]
    cases value[i] <;> cases mask[i] <;> rfl

/-- Clearing the low bits rounds down. -/
theorem toNat_alignDown (value : BitVec 64) :
    (alignDown value (BitVec.ofNat 64 kFiberContextStackAlignment)).toNat =
      Mycoroutine.alignDown value.toNat kFiberContextStackAlignment := by
  have low : (value &&& 15#64).toNat = value.toNat % 16 := by
    rw [BitVec.toNat_and]
    exact Nat.and_two_pow_sub_one_eq_mod value.toNat 4
  have split := and_not_add value 15#64
  have high : value &&& ~~~15#64 = value - (value &&& 15#64) := BitVec.eq_sub_iff_add_eq.2 split
  calc (value &&& ~~~15#64).toNat
      = value.toNat - (value &&& 15#64).toNat := by
        rw [high, BitVec.toNat_sub_of_le (BitVec.le_def.2 (by rw [low]; exact Nat.mod_le ..))]
    _ = Mycoroutine.alignDown value.toNat kFiberContextStackAlignment := by
        rw [low]
        rfl

namespace Stack

theorem toNat_top (stack : Stack) : stack.top.toNat = stack.bottom.toNat + stack.size := by
  have fits := stack.fits
  rw [top, BitVec.toNat_add, BitVec.toNat_ofNat]
  omega

theorem toNat_entry (arch : Arch) (stack : Stack) : (stack.entry arch).toNat =
    Mycoroutine.alignDown stack.top.toNat kFiberContextStackAlignment - arch.kFiberContextEntryStackAdjust := by
  have fits := stack.fits
  have large := stack.large
  have top := stack.toNat_top
  have aligned := toNat_alignDown stack.top
  rw [entry, BitVec.toNat_sub_of_le, aligned]
  · cases arch <;> rfl
  · rw [BitVec.le_def, aligned, top]
    cases arch <;> simp only [Mycoroutine.alignDown, kFiberContextStackAlignment, Arch.kFiberContextEntryStackAdjust,
      BitVec.toNat_ofNat] <;> omega

/-- The entry word of x86_64 and the stack pointer lie on the stack. -/
theorem bottom_le_entry (arch : Arch) (stack : Stack) : stack.bottom.toNat ≤ (stack.entry arch).toNat := by
  have large := stack.large
  rw [toNat_entry, toNat_top]
  cases arch <;> simp only [Mycoroutine.alignDown, kFiberContextStackAlignment, Arch.kFiberContextEntryStackAdjust] <;> omega

theorem entry_add_le_top (arch : Arch) (stack : Stack) : (stack.entry arch).toNat + arch.entryWord ≤ stack.top.toNat := by
  have large := stack.large
  rw [toNat_entry, toNat_top]
  cases arch <;> simp only [Mycoroutine.alignDown, kFiberContextStackAlignment, Arch.kFiberContextEntryStackAdjust,
    Arch.entryWord] <;> omega

/-- What the ABI asks of the stack pointer at a function's entry. -/
theorem entry_mod (arch : Arch) (stack : Stack) :
    (stack.entry arch).toNat % kFiberContextStackAlignment = arch.kFiberContextEntryStackAdjust := by
  have large := stack.large
  rw [toNat_entry, toNat_top]
  cases arch <;> simp only [Mycoroutine.alignDown, kFiberContextStackAlignment, Arch.kFiberContextEntryStackAdjust] <;> omega

end Stack

/-- Only the object and the entry word are written. -/
theorem initFiberContextStack_frame {a : BitVec 64} (object : ¬ Region ctx (sizeOf arch) a)
    (word : ¬ Region (stack.entry arch) arch.entryWord a) : initFiberContextStack arch entryPoint mem ctx stack a = mem a := by
  have sp : ¬ Region (ctx + BitVec.ofNat 64 (offsetOf arch .sp)) 8 a := fun inside =>
    object (region_member (by cases arch <;> decide) inside)
  have pc : ¬ Region (ctx + BitVec.ofNat 64 (offsetOf arch .pc)) 8 a := fun inside =>
    object (region_member (by cases arch <;> decide) inside)
  have zeros : writeAll mem ctx ((members arch).map fun _ => 0#64) a = mem a :=
    writeAll_of_not_region (by simpa only [List.length_map] using length_members arch)
      (by simpa only [List.length_map, sizeOf] using object)
  simp only [initFiberContextStack]
  rw [write_of_not_region pc, write_of_not_region sp]
  cases arch with
  | x86_64 => exact (write_of_not_region word).trans zeros
  | aarch64 => exact zeros

theorem holds_initFiberContextStack
    (apart : ∀ a, Region (stack.entry arch) arch.entryWord a → ¬ Region ctx (sizeOf arch) a) :
    Holds arch (initFiberContextStack arch entryPoint mem ctx stack) ctx (initial arch entryPoint stack) := by
  have zeros : Holds arch (writeAll mem ctx ((members arch).map fun _ => 0#64)) ctx fun _ => 0#64 := holds_writeAll
  refine Holds.assign (Holds.assign ?_ (by cases arch <;> decide) _) (by cases arch <;> decide) _
  cases arch with
  | x86_64 => exact zeros.congr fun a inside => write_of_not_region fun word => apart a word inside
  | aarch64 => exact zeros

/-- The null return address below which an x86_64 fiber starts. -/
theorem read_initFiberContextStack (present : arch.entryWord ≠ 0)
    (apart : ∀ a, Region (stack.entry arch) arch.entryWord a → ¬ Region ctx (sizeOf arch) a) :
    read (initFiberContextStack arch entryPoint mem ctx stack) (stack.entry arch) = 0#64 := by
  cases arch with
  | x86_64 =>
    simp only [initFiberContextStack]
    rw [read_write_apart fun a word inside => apart a word (region_member (by decide) inside),
      read_write_apart fun a word inside => apart a word (region_member (by decide) inside), read_write_self]
  | aarch64 => exact absurd rfl present

/-- The entry word is on the stack. -/
theorem region_entry {a : BitVec 64} (word : Region (stack.entry arch) arch.entryWord a) :
    Region stack.bottom stack.size a := by
  have low := stack.bottom_le_entry arch
  have high := stack.entry_add_le_top arch
  have fits := stack.fits
  rw [Stack.toNat_top] at high
  unfold Region at word ⊢
  bv_omega

end Init

end Mycoroutine.ContextSwitch
