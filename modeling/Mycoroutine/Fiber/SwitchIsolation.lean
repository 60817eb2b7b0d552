import Mycoroutine.Fiber.ContextSwitch

/-!
# Contexts switched out and in

A program has any number of `FiberContext` objects. Its code changes registers and
memory as it likes between calls, starts a context on a stack, and swaps. A suspended
context is recorded with the machine as it was when its call of
`mycoroutine_context_swap` began, and with how much of the stack above the return
address it will use again.
-/

namespace Mycoroutine.ContextSwitch
set_option autoImplicit false
open ByteMemory Interleave

/-- Where the two pieces of code and the context objects lie. -/
structure Program (arch : Arch) (ι : Type) where
  /-- `.Lresume` -/
  resume : BitVec 64
  /-- `FiberEntryPoint` -/
  entryPoint : BitVec 64
  distinct : entryPoint ≠ resume
  context : ι → BitVec 64
  apart : ∀ i j, i ≠ j → ∀ a, Region (context i) (sizeOf arch) a → ¬ Region (context j) (sizeOf arch) a

/-- How much of the stack a return pops. -/
def returnWord : Arch → Nat
  | .x86_64 => 8
  | .aarch64 => 0

inductive Suspended where
  | fresh (stack : Stack)
  | out (call : Cpu) (live : Nat)

structure State (ι : Type) where
  cpu : Cpu
  suspended : ι → Option Suspended

inductive Label (ι : Type) where
  | run (cpu : Cpu)
  | init (ctx : ι) (stack : Stack)
  | swap (src dst : ι) (live : Nat)

section Machine

variable {arch : Arch} {ι : Type} (program : Program arch ι)

/-- The suspended contexts once a call has saved its own. -/
def State.saved [DecidableEq ι] (s : State ι) (src : ι) (live : Nat) : ι → Option Suspended :=
  Function.update s.suspended src (some (.out s.cpu live))

/-- A swap is to a context that was started or switched out, or to itself. -/
def step [DecidableEq ι] (s : State ι) : Label ι → Option (State ι)
  | .run cpu => some { s with cpu := cpu }
  | .init ctx stack =>
    some { cpu := { s.cpu with mem := initFiberContextStack arch program.entryPoint s.cpu.mem (program.context ctx) stack }
           suspended := Function.update s.suspended ctx (some (.fresh stack)) }
  | .swap src dst live =>
    if s.cpu.regs (fromReg arch) = program.context src ∧ s.cpu.regs (toReg arch) = program.context dst ∧
        (s.saved src live dst).isSome then
      some { cpu := contextSwap arch program.resume s.cpu
             suspended := Function.update (s.saved src live) dst none }
    else none

def machine [DecidableEq ι] (boot : Cpu) : Machine (State ι) (Label ι) where
  init := { cpu := boot, suspended := fun _ => none }
  step := step program

/-- The bytes of the context objects. -/
def Program.Object (a : BitVec 64) : Prop := ∃ i, Region (program.context i) (sizeOf arch) a

/-- The live part of the stack of a call: its return address and what is above it. -/
def Cpu.Live (arch : Arch) (call : Cpu) (live : Nat) (a : BitVec 64) : Prop :=
  Region (call.regs (spReg arch)) (returnWord arch + live) a

/-- What code between swaps leaves alone: the context objects and the live part of suspended
stacks. A context that is started again gives up what it was suspended with; the return
address of a call is not part of an object. -/
def Allowed (s : State ι) : Label ι → Prop
  | .run cpu =>
    (∀ a, program.Object a → cpu.mem a = s.cpu.mem a) ∧
      ∀ i call live, s.suspended i = some (.out call live) → ∀ a, call.Live arch live a → cpu.mem a = s.cpu.mem a
  | .init ctx stack => ∀ a, Region (stack.entry arch) arch.entryWord a →
      ¬ program.Object a ∧ ∀ i call live, i ≠ ctx → s.suspended i = some (.out call live) → ¬ call.Live arch live a
  | .swap _ _ _ => ∀ a, Region (s.cpu.regs (spReg arch)) (returnWord arch) a → ¬ program.Object a

/-! ## What a swap does -/

/-- A call goes on behind itself, with the stack pointer, the registers and the stack it had. -/
structure Continues (call : Cpu) (live : Nat) (now : Cpu) : Prop where
  pc : now.pc = call.returnAddress arch
  sp : now.regs (spReg arch) = call.regs (spReg arch) + BitVec.ofNat 64 (returnWord arch)
  regs : ∀ r ∈ calleeSaved arch, now.regs r = call.regs r
  stack : ∀ a, call.Live arch live a → ¬ program.Object a → now.mem a = call.mem a

/-- A fiber starts, at the top of its stack. -/
structure Starts (stack : Stack) (now : Cpu) : Prop where
  pc : now.pc = program.entryPoint
  bottom : stack.bottom.toNat ≤ (now.regs (spReg arch)).toNat
  top : (now.regs (spReg arch)).toNat + arch.entryWord ≤ stack.top.toNat
  aligned : (now.regs (spReg arch)).toNat % kFiberContextStackAlignment = arch.kFiberContextEntryStackAdjust

/-- The code a swap leads to is what its context was suspended with, and no other context is written. -/
structure Isolated [DecidableEq ι] (s : State ι) (src dst : ι) (live : Nat) (s' : State ι) : Prop where
  continues : ∀ call live', s.saved src live dst = some (.out call live') → Continues program call live' s'.cpu
  starts : ∀ stack, s.saved src live dst = some (.fresh stack) → Starts program stack s'.cpu
  frame : ∀ a, ¬ Region (program.context src) (sizeOf arch) a → s'.cpu.mem a = s.cpu.mem a

/-- Starting a context writes the context, and on x86_64 a null return address on its stack. -/
structure Started (s : State ι) (ctx : ι) (stack : Stack) (s' : State ι) : Prop where
  word : arch.entryWord ≠ 0 → read s'.cpu.mem (stack.entry arch) = 0#64
  frame : ∀ a, ¬ Region (program.context ctx) (sizeOf arch) a → ¬ Region stack.bottom stack.size a →
    s'.cpu.mem a = s.cpu.mem a

def Effect [DecidableEq ι] (s : State ι) (l : Label ι) (s' : State ι) : Prop :=
  match l with
  | .run _ => True
  | .init ctx stack => Started program s ctx stack s'
  | .swap src dst live => Isolated program s src dst live s'

/-! ## What holds of a suspended context -/

variable {program} {s s' : State ι} {boot : Cpu} {src dst ctx : ι} {live : Nat} {stack : Stack} {mem mem' : Mem}

def Program.value (program : Program arch ι) : Suspended → Member → BitVec 64
  | .fresh stack => initial arch program.entryPoint stack
  | .out call _ => call.member arch program.resume

/-- The object has what the context was suspended with, the live part of its stack is as it
was, and its return address is out of reach of the routine. -/
structure Program.Keeps (program : Program arch ι) (mem : Mem) (i : ι) (w : Suspended) : Prop where
  holds : Holds arch mem (program.context i) (program.value w)
  stack : ∀ call live, w = .out call live → ∀ a, call.Live arch live a → ¬ program.Object a → mem a = call.mem a
  word : ∀ call live, w = .out call live → ∀ a, Region (call.regs (spReg arch)) (returnWord arch) a → ¬ program.Object a

/-- A memory that keeps the object and the live part. -/
theorem Program.Keeps.congr {i : ι} {w : Suspended} (keeps : program.Keeps mem i w)
    (object : ∀ a, Region (program.context i) (sizeOf arch) a → mem' a = mem a)
    (stack : ∀ call live, w = .out call live → ∀ a, call.Live arch live a → ¬ program.Object a → mem' a = mem a) :
    program.Keeps mem' i w where
  holds := keeps.holds.congr object
  stack call live out a inside outside := (stack call live out a inside outside).trans (keeps.stack call live out a inside outside)
  word := keeps.word

/-! ## The routine -/

theorem mem_contextSwap {resume : BitVec 64} {cpu : Cpu} :
    (contextSwap arch resume cpu).mem = (cpu.run resume (save arch)).mem := by
  have ret_mem (c : Cpu) : (ret arch c).mem = c.mem := by cases arch <;> rfl
  unfold contextSwap
  dsimp only
  split
  · rw [ret_mem, mem_restore]
  · exact mem_restore resume

/-- A call writes its own context and nothing else. -/
theorem contextSwap_frame {resume a : BitVec 64} {cpu : Cpu} (outside : ¬ Region (cpu.regs (fromReg arch)) (sizeOf arch) a) :
    (contextSwap arch resume cpu).mem a = cpu.mem a := by
  rw [mem_contextSwap, mem_save]
  refine writeAll_of_not_region ?_ ?_
  · simpa only [List.length_map] using length_members arch
  · simpa only [List.length_map, sizeOf] using outside

theorem holds_contextSwap {resume : BitVec 64} {cpu : Cpu} :
    Holds arch (contextSwap arch resume cpu).mem (cpu.regs (fromReg arch)) (cpu.member arch resume) := by
  rw [mem_contextSwap, mem_save]
  exact holds_writeAll

theorem mem_members {r : Reg} (saved : r ∈ calleeSaved arch) : .reg r ∈ members arch := by
  cases arch <;> simpa [members, calleeSaved] using saved

/-- A context saved by a call returns from that call. -/
theorem contextSwap_out {resume : BitVec 64} {cpu call : Cpu}
    (holds : Holds arch (contextSwap arch resume cpu).mem (cpu.regs (toReg arch)) (call.member arch resume))
    (word : ∀ a, Region (call.regs (spReg arch)) (returnWord arch) a → (contextSwap arch resume cpu).mem a = call.mem a) :
    (contextSwap arch resume cpu).pc = call.returnAddress arch ∧
      (contextSwap arch resume cpu).regs (spReg arch) = call.regs (spReg arch) + BitVec.ofNat 64 (returnWord arch) ∧
      ∀ r ∈ calleeSaved arch, (contextSwap arch resume cpu).regs r = call.regs r := by
  rw [mem_contextSwap, ← toReg_save resume] at holds
  obtain ⟨sp, pc, regs⟩ := load_restore resume holds
  simp only [mem_contextSwap] at word
  have loaded : contextSwap arch resume cpu = ret arch ((cpu.run resume (save arch)).run resume (restore arch)) := if_pos pc
  rw [loaded]
  cases arch with
  | x86_64 =>
    refine ⟨?_, ?_, fun r saved => ?_⟩
    · have same := read_congr word
      rw [← mem_restore resume] at same
      simp only [ret, Cpu.returnAddress]
      simp only [spReg] at sp same
      rw [sp]
      exact same
    · simp only [spReg] at sp
      simp only [ret, spReg, Cpu.set, Function.update_self, sp]
      rfl
    · refine .trans ?_ (regs r (mem_members saved))
      simp only [ret, Cpu.set]
      refine Function.update_of_ne ?_ ..
      rintro rfl
      exact absurd saved (by decide)
  | aarch64 =>
    refine ⟨regs (.x 30) (by decide), ?_, fun r saved => regs r (mem_members saved)⟩
    exact sp.trans (BitVec.add_zero _).symm

/-- A context that was started jumps to its entry point. -/
theorem contextSwap_fresh {cpu : Cpu}
    (holds : Holds arch (contextSwap arch program.resume cpu).mem (cpu.regs (toReg arch)) (initial arch program.entryPoint stack)) :
    (contextSwap arch program.resume cpu).pc = program.entryPoint ∧
      (contextSwap arch program.resume cpu).regs (spReg arch) = stack.entry arch := by
  rw [mem_contextSwap, ← toReg_save program.resume] at holds
  obtain ⟨sp, pc, -⟩ := load_restore program.resume holds
  have elsewhere : ((cpu.run program.resume (save arch)).run program.resume (restore arch)).pc ≠ program.resume := by
    rw [pc]
    exact program.distinct
  have loaded : contextSwap arch program.resume cpu =
      (cpu.run program.resume (save arch)).run program.resume (restore arch) := if_neg elsewhere
  rw [loaded]
  exact ⟨pc, sp⟩

/-! ## Every run -/

/-- Whatever is suspended is kept. -/
def Kept (program : Program arch ι) (s : State ι) : Prop := ∀ i w, s.suspended i = some w → program.Keeps s.cpu.mem i w

theorem Kept.run {cpu : Cpu} (kept : Kept program s) (allowed : Allowed program s (.run cpu)) :
    Kept program { s with cpu := cpu } := fun i w suspended => by
  obtain ⟨objects, lives⟩ := allowed
  refine (kept i w suspended).congr (fun a inside => objects a ⟨i, inside⟩) ?_
  rintro call live rfl a inside -
  exact lives i call live suspended a inside

variable [DecidableEq ι]

theorem Kept.started (kept : Kept program s) (allowed : Allowed program s (.init ctx stack))
    (e : step program s (.init ctx stack) = some s') : Kept program s' := by
  cases e
  intro i w suspended
  by_cases same : i = ctx
  · subst same
    simp only [Function.update_self, Option.some.injEq] at suspended
    subst suspended
    exact {
      holds := holds_initFiberContextStack fun a word inside => (allowed a word).1 ⟨i, inside⟩
      stack := nofun
      word := nofun }
  · simp only [Function.update_of_ne same] at suspended
    refine (kept i w suspended).congr (fun a inside => ?_) ?_
    · exact initFiberContextStack_frame (program.apart i ctx same a inside) fun word => (allowed a word).1 ⟨i, inside⟩
    · rintro call live rfl a inside outside
      exact initFiberContextStack_frame (fun object => outside ⟨ctx, object⟩) fun word =>
        (allowed a word).2 i call live same suspended inside

/-- Once the call has saved its own context. -/
theorem Kept.saved (kept : Kept program s) (allowed : Allowed program s (.swap src dst live))
    (argument : s.cpu.regs (fromReg arch) = program.context src) {i : ι} {w : Suspended}
    (suspended : s.saved src live i = some w) : program.Keeps (contextSwap arch program.resume s.cpu).mem i w := by
  by_cases same : i = src
  · subst same
    simp only [State.saved, Function.update_self, Option.some.injEq] at suspended
    subst suspended
    have untouched {a : BitVec 64} (outside : ¬ program.Object a) : (contextSwap arch program.resume s.cpu).mem a = s.cpu.mem a :=
      contextSwap_frame fun object => outside ⟨i, by rwa [← argument]⟩
    refine { holds := ?_, stack := ?_, word := ?_ }
    · rw [← argument]
      exact holds_contextSwap
    · rintro call live' ⟨⟩ a - outside
      exact untouched outside
    · rintro call live' ⟨⟩
      exact allowed
  · simp only [State.saved, Function.update_of_ne same] at suspended
    refine (kept i w suspended).congr (fun a inside => ?_) fun call live' out a inside outside => ?_
    · refine contextSwap_frame ?_
      rw [argument]
      exact program.apart i src same a inside
    · exact contextSwap_frame fun object => outside ⟨src, by rwa [← argument]⟩

theorem step_swap (e : step program s (.swap src dst live) = some s') :
    s.cpu.regs (fromReg arch) = program.context src ∧ s.cpu.regs (toReg arch) = program.context dst ∧
      s' = { cpu := contextSwap arch program.resume s.cpu, suspended := Function.update (s.saved src live) dst none } := by
  simp only [step] at e
  split at e
  · rename_i call
    exact ⟨call.1, call.2.1, (Option.some.inj e).symm⟩
  · cases e

theorem step_swap_of (argument : s.cpu.regs (fromReg arch) = program.context src)
    (target : s.cpu.regs (toReg arch) = program.context dst) (suspended : (s.saved src live dst).isSome) :
    step program s (.swap src dst live) =
      some { cpu := contextSwap arch program.resume s.cpu, suspended := Function.update (s.saved src live) dst none } :=
  if_pos ⟨argument, target, suspended⟩

theorem Kept.step {l : Label ι} (kept : Kept program s) (allowed : Allowed program s l)
    (e : step program s l = some s') : Kept program s' := by
  cases l with
  | run cpu =>
    cases e
    exact kept.run allowed
  | init ctx stack => exact kept.started allowed e
  | swap src dst live =>
    obtain ⟨argument, -, rfl⟩ := step_swap e
    intro i w suspended
    by_cases same : i = dst
    · subst same
      simp only [Function.update_self] at suspended
      cases suspended
    · simp only [Function.update_of_ne same] at suspended
      exact kept.saved allowed argument suspended

theorem reach_swap (reached : (machine program boot).ReachIf (Allowed program) s) (src dst : ι) (live : Nat)
    (allowed : Allowed program s (.swap src dst live)) (argument : s.cpu.regs (fromReg arch) = program.context src)
    (target : s.cpu.regs (toReg arch) = program.context dst) (suspended : (s.saved src live dst).isSome) :
    (machine program boot).ReachIf (Allowed program)
      { cpu := contextSwap arch program.resume s.cpu, suspended := Function.update (s.saved src live) dst none } :=
  reached.next (.swap src dst live) allowed (step_swap_of argument target suspended)

/-- Code that leaves memory alone. -/
theorem reach_run (reached : (machine program boot).ReachIf (Allowed program) s) (regs : Reg → BitVec 64) (pc : BitVec 64) :
    (machine program boot).ReachIf (Allowed program) { s with cpu := { s.cpu with regs := regs, pc := pc } } :=
  reached.next (.run { s.cpu with regs := regs, pc := pc }) ⟨fun _ _ => rfl, fun _ _ _ _ _ _ => rfl⟩ rfl

theorem kept_of_reach (reached : (machine program boot).ReachIf (Allowed program) s) : Kept program s :=
  reached.invariant nofun fun _ _ _ kept allowed e => kept.step allowed e

theorem Kept.isolated (kept : Kept program s) (allowed : Allowed program s (.swap src dst live))
    (e : ContextSwitch.step program s (.swap src dst live) = some s') : Isolated program s src dst live s' := by
  obtain ⟨argument, target, rfl⟩ := step_swap e
  refine { continues := fun call live' suspended => ?_, starts := fun stack suspended => ?_, frame := fun a outside => ?_ }
  · obtain ⟨holds, stack, word⟩ := kept.saved allowed argument suspended
    rw [← target] at holds
    obtain ⟨pc, sp, regs⟩ := contextSwap_out holds fun a inside =>
      stack call live' rfl a (Nat.lt_of_lt_of_le inside (Nat.le_add_right ..)) (word call live' rfl a inside)
    exact ⟨pc, sp, regs, stack call live' rfl⟩
  · have holds := (kept.saved allowed argument suspended).holds
    rw [← target] at holds
    obtain ⟨pc, sp⟩ := contextSwap_fresh holds
    refine { pc := pc, bottom := ?_, top := ?_, aligned := ?_ }
    · rw [sp]
      exact stack.bottom_le_entry arch
    · rw [sp]
      exact stack.entry_add_le_top arch
    · rw [sp]
      exact stack.entry_mod arch
  · refine contextSwap_frame ?_
    rw [argument]
    exact outside

theorem started_of_allowed (allowed : Allowed program s (.init ctx stack))
    (e : step program s (.init ctx stack) = some s') : Started program s ctx stack s' := by
  cases e
  refine { word := fun present => ?_, frame := fun a object outside => ?_ }
  · exact read_initFiberContextStack present fun a word inside => (allowed a word).1 ⟨ctx, inside⟩
  · exact initFiberContextStack_frame object fun word => outside (region_entry word)

/-- Switching keeps the contexts apart, in every run of every program. -/
theorem isolates (program : Program arch ι) (boot : Cpu) {s s' : State ι} {l : Label ι}
    (reached : (machine program boot).ReachIf (Allowed program) s) (allowed : Allowed program s l)
    (e : step program s l = some s') : Effect program s l s' := by
  cases l with
  | run cpu => trivial
  | init ctx stack => exact started_of_allowed allowed e
  | swap src dst live => exact (kept_of_reach reached).isolated allowed e

end Machine

/-! ## A fiber that is started, and swaps back -/

def small : Stack where
  bottom := 0x2000#64
  size := 32
  nonnull := by decide
  large := by decide
  fits := by decide

theorem next_to_each_other (i j : Bool) (other : i ≠ j) (a : BitVec 64)
    (inside : Region (if i then 0x1040#64 else 0x1000#64) (sizeOf .x86_64) a) :
    ¬ Region (if j then 0x1040#64 else 0x1000#64) (sizeOf .x86_64) a := by
  intro inside'
  simp only [Region, sizeOf, members, List.length_cons, List.length_nil] at inside inside'
  cases i <;> cases j <;> simp only [reduceIte, Bool.false_eq_true] at inside inside' <;> first | exact other rfl | bv_omega

/-- A context of the caller and one of a fiber, next to each other. -/
def caller : Program .x86_64 Bool where
  resume := 0x400000#64
  entryPoint := 0x500000#64
  distinct := by decide
  context i := if i then 0x1040#64 else 0x1000#64
  apart := next_to_each_other

def calling : Cpu where
  regs
    | .rdi => 0x1000#64
    | .rsi => 0x1040#64
    | .rsp => 0x3000#64
    | .rbx => 7#64
    | _ => 0#64
  pc := 0#64
  mem _ := 0#8

/-- The fiber calls back with other registers. -/
def fiberRegs : Reg → BitVec 64
  | .rdi => 0x1040#64
  | .rsi => 0x1000#64
  | .rsp => 0x2010#64
  | .rbx => 99#64
  | _ => 1#64

theorem caller_object {a : BitVec 64} (inside : caller.Object a) : Region 0x1000#64 128 a := by
  obtain ⟨i, inside⟩ := inside
  simp only [Region, sizeOf, members, caller, List.length_cons, List.length_nil] at inside ⊢
  cases i <;> simp only [reduceIte, Bool.false_eq_true] at inside <;> bv_omega

/-- The stacks are elsewhere. -/
theorem caller_apart (base : BitVec 64) {a : BitVec 64} (high : 0x1080#64 ≤ base) (low : base ≤ 0x8000#64)
    (inside : Region base 8 a) : ¬ caller.Object a := fun object => by
  have object := caller_object object
  simp only [Region] at object inside
  bv_omega

theorem isolates_back : ∃ s s' : State Bool, (machine caller calling).ReachIf (Allowed caller) s ∧
    step caller s (.swap true false 0) = some s' ∧ s.cpu.regs .rbx = 99#64 ∧ s'.cpu.regs .rbx = 7#64 := by
  have boot : (machine caller calling).ReachIf (Allowed caller) _ := .init
  have started := boot.next (.init true small)
    (fun a inside => ⟨caller_apart _ (by decide) (by decide) inside, nofun⟩) rfl
  have running := reach_swap started false true 0 (fun a inside => caller_apart 0x3000#64 (by decide) (by decide) inside)
    rfl rfl rfl
  have calls := reach_run running fiberRegs 0#64
  have back := isolates caller calling calls (l := .swap true false 0)
    (fun a inside => caller_apart 0x2010#64 (by decide) (by decide) inside) (step_swap_of rfl rfl rfl)
  exact ⟨_, _, calls, step_swap_of rfl rfl rfl, rfl, (back.continues _ _ rfl).regs .rbx (by decide)⟩

end Mycoroutine.ContextSwitch
