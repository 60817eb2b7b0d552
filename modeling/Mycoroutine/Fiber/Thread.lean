import Mycoroutine.Interleave.Machine
import Mycoroutine.Fiber.SharedStack

/-!
# The fibers of one thread

`Fiber`'s functions as steps of one thread: `running` says whose stack
executes, `tFiber` and `tSchedulerFiber` are the thread-local pointers, and a
context holds a stack pointer and the place in some fiber's code it returns to.
`resume` and `yield` save the running code into the context the source names,
which is not always the context of the running fiber.

A private stack's bytes and stack pointer are read by no function here, so they
are left out. `switchedOut` is history: no step reads it.
-/

namespace Mycoroutine
set_option autoImplicit false
open Interleave

/-- `Fiber::State`. -/
inductive Fiber.State where
  | ready
  | running
  | term
deriving DecidableEq

/-- `Fiber::CallCode`. -/
inductive CallCode where
  | ok
  | notReady
  | noCurrentFiber
  | selfCall
  | sharedNestedUnsupported
deriving DecidableEq

/-- Where in a fiber's code a context resumes. -/
inductive Point where
  | entry
  | inResume
  | inCall (callee : Ref)
  | inYield
  | done
deriving DecidableEq

/-- `FiberContext`: a stack pointer, and the fiber whose code continues at `point`. -/
structure Context where
  sp : Nat
  code : Ref
  point : Point

/-- A slot of the pool of one stack size. -/
structure SlotId where
  size : Nat
  index : Nat
deriving DecidableEq

/-- `SharedStackPool`. -/
structure SharedStackPool where
  count : Nat
  next : Nat

/-- The fields of `Fiber`. `alive` ends with the destructor; `curr` is the
reference `MainFunc` holds while the callback runs. -/
structure Fiber where
  stacksize : Nat
  state : Fiber.State
  ctx : Context
  runInScheduler : Bool
  useSharedStack : Bool
  ctxInitialized : Bool
  ownerThread : Int := -1
  sharedStackSlot : Option SlotId := none
  stackSnapshot : List UInt8 := []
  parent : Option Ref := none
  returnToParent : Bool := false
  alive : Bool := true
  curr : Bool := false

def Fiber.withContext (f : Fiber) (ctx : Context) : Fiber := { f with ctx, ctxInitialized := true }

def Fiber.withSlot (f : Fiber) (slot : SlotId) : Fiber :=
  { f with sharedStackSlot := some slot, stacksize := slot.size }

def Fiber.withSnapshot (f : Fiber) (image : List UInt8) : Fiber := { f with stackSnapshot := image }

/-- What a run does not choose: the architecture, the thread's id, and the
blocks `malloc` gives the slots. -/
structure Platform where
  arch : Arch
  tid : Int
  block : SlotId → Slot
  block_size : ∀ id, (block id).size = id.size
  block_unowned : ∀ id, (block id).owner = none

structure Thread where
  fibers : Ref → Option Fiber
  created : Ref
  running : Ref
  tFiber : Ref
  tSchedulerFiber : Ref
  /-- The context that holds a suspended fiber's continuation. -/
  continuation : Ref → Option Ref
  pools : Nat → Option SharedStackPool
  slots : SlotId → Slot
  slotCount : Nat
  switchedOut : Ref → Option (List UInt8)

/-- `t_thread_fiber`, created first by `GetThis`. -/
def tThreadFiber : Ref := 0

namespace Thread

/-! ## Lookups and updates -/

def alive (s : Thread) (r : Ref) : Bool := (s.fibers r).any (·.alive)

def isShared (s : Thread) (r : Ref) : Bool := (s.fibers r).any (·.useSharedStack)

/-- The slot whose memory a shared-stack fiber uses. -/
def slotOf (s : Thread) (r : Ref) : Option SlotId :=
  (s.fibers r).bind fun f => if f.useSharedStack then f.sharedStackSlot else none

def modify (s : Thread) (r : Ref) (change : Fiber → Fiber) : Thread :=
  { s with fibers := Function.update s.fibers r ((s.fibers r).map change) }

def modifySlot (s : Thread) (id : SlotId) (change : Slot → Slot) : Thread :=
  { s with slots := Function.update s.slots id (change (s.slots id)) }

/-- `slot->owner.lock()`. -/
def lockOwner (s : Thread) (id : SlotId) : Option Ref := (s.slots id).owner.filter s.alive

/-! ## What the updates leave alone -/

section Updates

variable (s : Thread) (r : Ref) (id : SlotId) (change : Fiber → Fiber) (changeSlot : Slot → Slot)

@[simp] theorem running_modify : (s.modify r change).running = s.running := rfl

@[simp] theorem tFiber_modify : (s.modify r change).tFiber = s.tFiber := rfl

@[simp] theorem tSchedulerFiber_modify : (s.modify r change).tSchedulerFiber = s.tSchedulerFiber := rfl

@[simp] theorem slots_modify : (s.modify r change).slots = s.slots := rfl

@[simp] theorem switchedOut_modify : (s.modify r change).switchedOut = s.switchedOut := rfl

@[simp] theorem created_modify : (s.modify r change).created = s.created := rfl

@[simp] theorem fibers_modifySlot : (s.modifySlot id changeSlot).fibers = s.fibers := rfl

@[simp] theorem running_modifySlot : (s.modifySlot id changeSlot).running = s.running := rfl

@[simp] theorem tFiber_modifySlot : (s.modifySlot id changeSlot).tFiber = s.tFiber := rfl

@[simp] theorem tSchedulerFiber_modifySlot : (s.modifySlot id changeSlot).tSchedulerFiber = s.tSchedulerFiber := rfl

@[simp] theorem switchedOut_modifySlot : (s.modifySlot id changeSlot).switchedOut = s.switchedOut := rfl

@[simp] theorem created_modifySlot : (s.modifySlot id changeSlot).created = s.created := rfl

theorem slots_modifySlot (id' : SlotId) :
    (s.modifySlot id changeSlot).slots id' = if id' = id then changeSlot (s.slots id) else s.slots id' :=
  Function.update_apply ..

end Updates

/-! ## Shared stacks -/

/-- `GetSharedStackPool` and `acquireSlot`. -/
def acquireSlot (s : Thread) (size : Nat) : SlotId × Thread :=
  let pool := (s.pools size).getD { count := max s.slotCount 1, next := 0 }
  (⟨size, pool.next % pool.count⟩,
    { s with pools := Function.update s.pools size (some { pool with next := (pool.next + 1) % 2 ^ 64 }) })

/-- `initFiberContext`; `none` when an assertion fails or the entry word would
lie below the block. -/
def initFiberContext (p : Platform) (s : Thread) (this : Ref) : Option Thread :=
  match s.slotOf this with
  | none =>
    some { s.modify this (·.withContext ⟨0, this, .entry⟩) with
      continuation := Function.update s.continuation this (some this) }
  | some id =>
    let slot := s.slots id
    if 0 < slot.size ∧ slot.Room p.arch then
      some { (s.modifySlot id (·.initStack p.arch)).modify this (·.withContext ⟨slot.entry p.arch, this, .entry⟩) with
        continuation := Function.update s.continuation this (some this) }
    else none

/-- The `memcpy` of `saveSharedStackSnapshot` and `saveCurrentSharedStackSnapshot`. -/
def saveFrom (s : Thread) (this : Ref) (id : SlotId) (sp : Nat) : Option Thread :=
  let slot := s.slots id
  if slot.stack ≤ sp ∧ sp ≤ slot.top then
    some (s.modify this (·.withSnapshot (slot.above sp)))
  else none

def saveSharedStackSnapshot (s : Thread) (this : Ref) : Option Thread :=
  match s.fibers this, s.slotOf this with
  | some f, some id => if f.ctxInitialized then s.saveFrom this id f.ctx.sp else some s
  | _, _ => some s

/-- `marker` is the address of the local variable. -/
def saveCurrentSharedStackSnapshot (s : Thread) (this : Ref) (marker : Nat) : Option Thread :=
  match s.slotOf this with
  | some id => s.saveFrom this id marker
  | none => some s

def restoreSharedStackSnapshot (s : Thread) (this : Ref) : Option Thread :=
  match s.fibers this, s.slotOf this with
  | some f, some id =>
    if f.stackSnapshot.isEmpty then some s
    else if f.stackSnapshot.length ≤ (s.slots id).size then
      some (s.modifySlot id (·.restore f.stackSnapshot))
    else none
  | _, _ => some s

/-- The thread binding of `prepareSharedStack`. -/
def bindThread (p : Platform) (s : Thread) (this : Ref) : Option Thread :=
  match s.fibers this with
  | none => none
  | some f =>
    if f.ownerThread = -1 then some (s.modify this fun f => { f with ownerThread := p.tid })
    else if f.ownerThread = p.tid then some s
    else none

/-- The slot and the first context of a fiber that has none. -/
def ensureContext (p : Platform) (s : Thread) (this : Ref) : Option Thread :=
  match s.fibers this with
  | none => none
  | some f =>
    let s := match f.sharedStackSlot with
      | some _ => s
      | none =>
        let (slot, s) := s.acquireSlot f.stacksize
        s.modify this (·.withSlot slot)
    if f.ctxInitialized then some s else s.initFiberContext p this

/-- Saves the slot's owner, restores `this` and makes it the owner. -/
def takeSlot (s : Thread) (this : Ref) (marker : Nat) : Option Thread :=
  match s.slotOf this with
  | none => none
  | some id =>
    match s.lockOwner id with
    | none => (s.restoreSharedStackSnapshot this).map (·.modifySlot id ({ · with owner := some this }))
    | some owner =>
      if owner = this then some s
      else
        (if owner = s.tFiber then s.saveCurrentSharedStackSnapshot owner marker
          else s.saveSharedStackSnapshot owner).bind fun s =>
            (s.restoreSharedStackSnapshot this).map (·.modifySlot id ({ · with owner := some this }))

def prepareSharedStack (p : Platform) (s : Thread) (this : Ref) (marker : Nat) : Option Thread :=
  (s.bindThread p this).bind fun s => (s.ensureContext p this).bind fun s => s.takeSlot this marker

/-- `prepareSharedStack` where the source guards it with `m_useSharedStack`. -/
def prepare (p : Platform) (s : Thread) (this : Ref) (marker : Nat) : Option Thread :=
  if s.isShared this then s.prepareSharedStack p this marker else some s

/-! ## Switching -/

/-- `mycoroutine_context_swap`, saving half: the running code, at `point` with
stack pointer `sp`, goes into the context of `src`. -/
def save (s : Thread) (sp : Nat) (src : Ref) (point : Point) : Thread :=
  { s.modify src fun f => { f with ctx := ⟨sp, s.running, point⟩ } with
    continuation := Function.update s.continuation s.running (some src),
    switchedOut := match s.slotOf s.running with
      | some id => Function.update s.switchedOut s.running (some ((s.slots id).above sp))
      | none => s.switchedOut }

/-- The first thing the continuation does: `call` forgets the parent, `MainFunc`
takes a reference to its fiber. -/
def arrive (s : Thread) (ctx : Context) : Thread :=
  let s := { s with running := ctx.code, continuation := Function.update s.continuation ctx.code none }
  match ctx.point with
  | .inCall callee => s.modify callee fun f => { f with parent := none, returnToParent := false }
  | .entry => s.modify ctx.code fun f => { f with curr := true }
  | _ => s

/-- `mycoroutine_context_swap`, loading half. A continuation that is not the
latest of its code, or that ended, cannot be resumed. -/
def load (s : Thread) (dst : Ref) : Option Thread :=
  (s.fibers dst).bind fun f =>
    if s.continuation f.ctx.code = some dst ∧ f.ctx.point ≠ .done then some (s.arrive f.ctx) else none

/-- The running fiber's stack pointer lies below its entry word. -/
def RunsInside (p : Platform) (s : Thread) (sp : Nat) : Prop :=
  match s.slotOf s.running with
  | some id => (s.slots id).Inside p.arch sp
  | none => True

instance (p : Platform) (s : Thread) (sp : Nat) : Decidable (s.RunsInside p sp) := by
  unfold RunsInside
  split <;> infer_instance

/-- `SetThis` and `swapWithSanitizer`. -/
def swap (p : Platform) (s : Thread) (sp : Nat) (src dst : Ref) (point : Point) : Option Thread :=
  if s.RunsInside p sp then ({ s with tFiber := dst }.save sp src point).load dst else none

/-- Where `resume` comes from and `yield` goes to. -/
def base (s : Thread) (f : Fiber) : Ref := if f.runInScheduler then s.tSchedulerFiber else tThreadFiber

def setState (s : Thread) (r : Ref) (state : Fiber.State) : Thread := s.modify r ({ · with state })

/-! ## Operations -/

def add (s : Thread) (f : Fiber) : Thread :=
  { s with fibers := Function.update s.fibers s.created (some f), created := s.created + 1 }

/-- `Fiber(cb, stacksize, run_in_scheduler, use_shared_stack)`. -/
def create (p : Platform) (s : Thread) (stacksize : Nat) (runInScheduler useSharedStack : Bool) : Option Thread :=
  let f : Fiber :=
    { stacksize := (if stacksize = 0 then 128000 else stacksize) % 2 ^ 32, state := .ready,
      ctx := ⟨0, s.created, .entry⟩, runInScheduler, useSharedStack, ctxInitialized := false }
  if useSharedStack then some (s.add f)
  else if f.stacksize = 0 then none
  else (s.add f).initFiberContext p s.created

/-- The destructor runs once nobody refers to the fiber: not the thread, and not
`MainFunc` in the middle of its callback. -/
def destroy (s : Thread) (f : Ref) : Option Thread :=
  match s.fibers f with
  | some fb =>
    if fb.alive ∧ fb.curr = false ∧ f ≠ s.running ∧ f ≠ s.tFiber ∧ f ≠ tThreadFiber ∧ f ≠ s.tSchedulerFiber then
      some { s.modify f ({ · with alive := false, stackSnapshot := [] }) with
        switchedOut := Function.update s.switchedOut f none }
    else none
  | none => none

/-- `Fiber::reset`. -/
def reset (p : Platform) (s : Thread) (f : Ref) : Option Thread :=
  match s.fibers f with
  | none => none
  | some fb =>
    if fb.alive ∧ fb.state = .term then
      let s := { s.modify f ({ · with state := .ready, stackSnapshot := [], parent := none, returnToParent := false })
        with switchedOut := Function.update s.switchedOut f none }
      if fb.useSharedStack ∧ fb.sharedStackSlot = none then some (s.modify f ({ · with ctxInitialized := false }))
      else s.initFiberContext p f
    else none

/-- `Fiber::resume`, issued by the thread's main fiber or the scheduler fiber. -/
def resume (p : Platform) (s : Thread) (f : Ref) (sp marker : Nat) : Option Thread :=
  match s.fibers f with
  | none => none
  | some fb =>
    if fb.alive ∧ fb.state = .ready ∧ (s.running = tThreadFiber ∨ s.running = s.tSchedulerFiber) then
      (s.prepare p f marker).bind fun s => (s.setState f .running).swap p sp (s.base fb) f .inResume
    else none

/-- The checks of `Fiber::call`, in their order. -/
def callCode (s : Thread) (f : Fiber) (this : Ref) : CallCode :=
  if f.state ≠ .ready then .notReady
  else if s.tFiber = this then .selfCall
  else if f.useSharedStack && s.isShared s.tFiber then .sharedNestedUnsupported
  else .ok

/-- `Fiber::call`, up to the switch. -/
def call (p : Platform) (s : Thread) (f : Ref) (sp marker : Nat) : Option Thread :=
  match s.fibers f with
  | none => none
  | some fb =>
    if fb.alive = false then none
    else if s.callCode fb f = .ok then
      (s.prepare p f marker).bind fun s =>
        (s.modify f ({ · with parent := some s.tFiber, returnToParent := true, state := .running })).swap p sp
          s.tFiber f (.inCall f)
    else some s

/-- `Fiber::back`. -/
def back (p : Platform) (s : Thread) (this : Ref) (sp marker : Nat) (point : Point) : Option Thread :=
  match (s.fibers this).bind (·.parent) with
  | none => none
  | some parent =>
    if s.alive parent then
      ((s.modify this ({ · with parent := none, returnToParent := false })).prepare p parent marker).bind fun s =>
        s.swap p sp this parent point
    else none

/-- `Fiber::yield`. -/
def yield (p : Platform) (s : Thread) (this : Ref) (sp marker : Nat) (point : Point) : Option Thread :=
  match s.fibers this with
  | none => none
  | some f =>
    if f.state = .running ∨ f.state = .term then
      let s := if f.state = .term then s else s.setState this .ready
      if f.returnToParent ∧ f.parent.any s.alive then s.back p this sp marker point
      else s.swap p sp this (s.base f) point
    else none

/-- The end of `MainFunc`: the running fiber becomes TERM and yields for good. -/
def finish (p : Platform) (s : Thread) (sp marker : Nat) : Option Thread :=
  if (s.fibers s.running).any (·.curr) then
    (s.modify s.running ({ · with state := .term, curr := false })).yield p s.running sp marker .done
  else none

/-- A running shared-stack fiber writes one byte of its stack, below the entry word. -/
def writeStack (p : Platform) (s : Thread) (offset : Nat) (value : UInt8) : Option Thread :=
  match s.slotOf s.running with
  | none => none
  | some id =>
    if (s.slots id).stack + offset < (s.slots id).entry p.arch then some (s.modifySlot id (·.write offset value))
    else none

/-- One step of the thread. `sp` is the stack pointer at a switch, `marker` the
address `saveCurrentSharedStackSnapshot` takes. -/
inductive Label where
  | create (stacksize : Nat) (runInScheduler useSharedStack : Bool)
  | destroy (f : Ref)
  | reset (f : Ref)
  | resume (f : Ref) (sp marker : Nat)
  | call (f : Ref) (sp marker : Nat)
  | yield (sp marker : Nat)
  | back (sp marker : Nat)
  | finish (sp marker : Nat)
  | write (offset : Nat) (value : UInt8)
  | setSharedStackSlotCount (count : Nat)
  | setSchedulerFiber (f : Ref)

def step (p : Platform) (s : Thread) : Label → Option Thread
  | .create stacksize runInScheduler useSharedStack => s.create p stacksize runInScheduler useSharedStack
  | .destroy f => s.destroy f
  | .reset f => s.reset p f
  | .resume f sp marker => s.resume p f sp marker
  | .call f sp marker => s.call p f sp marker
  | .yield sp marker => s.yield p s.tFiber sp marker .inYield
  | .back sp marker => s.back p s.tFiber sp marker .inYield
  | .finish sp marker => s.finish p sp marker
  | .write offset value => s.writeStack p offset value
  | .setSharedStackSlotCount count => some { s with slotCount := if count = 0 then 1 else count }
  | .setSchedulerFiber f =>
    -- the scheduler fiber has a private stack, as every caller in the source passes
    if s.alive f ∧ s.isShared f = false then some { s with tSchedulerFiber := f } else none

/-- A thread whose main fiber was just created. -/
def machine (p : Platform) (slotCount : Nat) : Machine Thread Label where
  init :=
    { fibers := Function.update (fun _ => none) tThreadFiber
        (some { stacksize := 0, state := .running, ctx := ⟨0, tThreadFiber, .entry⟩, runInScheduler := true,
                useSharedStack := false, ctxInitialized := true }),
      created := 1, running := tThreadFiber, tFiber := tThreadFiber, tSchedulerFiber := tThreadFiber,
      continuation := fun _ => none, pools := fun _ => none, slots := p.block, slotCount,
      switchedOut := fun _ => none }
  step := step p

end Thread

end Mycoroutine
