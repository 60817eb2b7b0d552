import Mycoroutine.Fiber.StackSurvives

/-!
# Fibers without their stacks

What a program sees of a thread's fibers: who runs, the thread-local pointers, the
states, the links and the contexts, and none of the slots, the snapshots and the
thread binding. A position on a stack is given by its distance from the entry word,
which two slots of one size have in common. As long as a shared-stack fiber stays on
its thread, every step of the thread is a step of this view.
-/

namespace Mycoroutine
set_option autoImplicit false
open Interleave

/-- `malloc` aligns its blocks for any object, and thread ids are those of `gettid`. -/
structure Host extends Platform where
  tid_pos : 0 < tid
  aligned : ∀ id, (block id).stack % kFiberContextStackAlignment = 0
  nonnull : ∀ id, (block id).stack ≠ 0

/-- The first context of a fiber that has none yet is the one it will get. -/
def Fiber.stackless (x : Ref) (f : Fiber) : Fiber :=
  { f with
    ctx := if f.ctxInitialized then { f.ctx with sp := 0 } else ⟨0, x, .entry⟩
    ctxInitialized := true, ownerThread := -1, sharedStackSlot := none, stackSnapshot := [] }

namespace Thread

variable {p : Host} {s s' : Thread} {r x : Ref} {f : Fiber} {id : SlotId}

/-! ## The view -/

def unready (s : Thread) (x : Ref) : Bool := (s.fibers x).any fun f => !f.ctxInitialized

def stackless (s : Thread) : Thread :=
  { s with
    fibers := fun x => (s.fibers x).map (·.stackless x)
    continuation := fun x => if s.unready x then some x else s.continuation x
    pools := fun _ => none, slots := fun _ => { stack := 0, bytes := [] }, slotCount := 0, switchedOut := fun _ => none }

/-- The entry word fits into a block of this size. -/
def Fits (arch : Arch) (size : Nat) : Prop :=
  0 < size ∧ arch.kFiberContextEntryStackAdjust ≤ alignDown size kFiberContextStackAlignment

instance (arch : Arch) (size : Nat) : Decidable (Fits arch size) := inferInstanceAs (Decidable (_ ∧ _))

/-- How much of a block lies below the entry word. -/
def depth (arch : Arch) (size : Nat) : Nat :=
  alignDown size kFiberContextStackAlignment - arch.kFiberContextEntryStackAdjust

/-- A fiber gets its first context. -/
def entered (s : Thread) (r : Ref) : Thread :=
  { s.modify r ({ · with ctx := ⟨0, r, .entry⟩ }) with continuation := Function.update s.continuation r (some r) }

namespace View

/-- `prepareSharedStack`: what can fail is the size. -/
def prepare (arch : Arch) (v : Thread) (r : Ref) : Option Thread :=
  if (v.fibers r).all fun f => f.useSharedStack → Fits arch f.stacksize then some v else none

def swap (arch : Arch) (v : Thread) (sp : Nat) (src dst : Ref) (point : Point) : Option Thread :=
  if (v.fibers v.running).all fun f => f.useSharedStack → sp ≤ depth arch f.stacksize then
    ({ v with tFiber := dst }.save 0 src point).load dst
  else none

def create (v : Thread) (stacksize : Nat) (runInScheduler useSharedStack : Bool) : Option Thread :=
  let f : Fiber :=
    { stacksize := (if stacksize = 0 then 128000 else stacksize) % 2 ^ 32, state := .ready,
      ctx := ⟨0, v.created, .entry⟩, runInScheduler, useSharedStack, ctxInitialized := true }
  if useSharedStack = false ∧ f.stacksize = 0 then none
  else some ((v.add f).entered v.created)

def reset (v : Thread) (r : Ref) : Option Thread :=
  if (v.fibers r).any fun f => f.alive ∧ f.state = .term then
    some ((v.modify r ({ · with state := .ready, parent := none, returnToParent := false })).entered r)
  else none

def resume (arch : Arch) (v : Thread) (r : Ref) (sp : Nat) : Option Thread :=
  match v.fibers r with
  | none => none
  | some f =>
    if f.alive ∧ f.state = .ready ∧ (v.running = tThreadFiber ∨ v.running = v.tSchedulerFiber) then
      (prepare arch v r).bind fun v => swap arch (v.setState r .running) sp (v.base f) r .inResume
    else none

def call (arch : Arch) (v : Thread) (r : Ref) (sp : Nat) : Option Thread :=
  match v.fibers r with
  | none => none
  | some f =>
    if f.alive = false then none
    else if v.callCode f r = .ok then
      (prepare arch v r).bind fun v =>
        swap arch (v.modify r ({ · with parent := some v.tFiber, returnToParent := true, state := .running })) sp
          v.tFiber r (.inCall r)
    else some v

def back (arch : Arch) (v : Thread) (this : Ref) (sp : Nat) (point : Point) : Option Thread :=
  match (v.fibers this).bind (·.parent) with
  | none => none
  | some parent =>
    if v.alive parent then
      (prepare arch (v.modify this ({ · with parent := none, returnToParent := false })) parent).bind fun v =>
        swap arch v sp this parent point
    else none

def yield (arch : Arch) (v : Thread) (this : Ref) (sp : Nat) (point : Point) : Option Thread :=
  match v.fibers this with
  | none => none
  | some f =>
    if f.state = .running ∨ f.state = .term then
      let v := if f.state = .term then v else v.setState this .ready
      if f.returnToParent ∧ f.parent.any v.alive then back arch v this sp point
      else swap arch v sp this (v.base f) point
    else none

def finish (arch : Arch) (v : Thread) (sp : Nat) : Option Thread :=
  if (v.fibers v.running).any (·.curr) then
    yield arch (v.modify v.running ({ · with state := .term, curr := false })) v.running sp .done
  else none

def write (arch : Arch) (v : Thread) (offset : Nat) : Option Thread :=
  if (v.fibers v.running).any fun f => f.useSharedStack ∧ offset < depth arch f.stacksize then some v else none

/-- One step, `sp` being the distance from the entry word. -/
def step (p : Platform) (v : Thread) : Label → Option Thread
  | .create stacksize runInScheduler useSharedStack => create v stacksize runInScheduler useSharedStack
  | .reset f => reset v f
  | .resume f sp _ => resume p.arch v f sp
  | .call f sp _ => call p.arch v f sp
  | .yield sp _ => yield p.arch v v.tFiber sp .inYield
  | .back sp _ => back p.arch v v.tFiber sp .inYield
  | .finish sp _ => finish p.arch v sp
  | .write offset _ => write p.arch v offset
  | .setSharedStackSlotCount _ => some v
  | .destroy f => v.destroy f
  | .setSchedulerFiber f => Thread.step p v (.setSchedulerFiber f)

def run (p : Platform) (v : Thread) (ls : List Label) : Option Thread := ls.foldlM (step p) v

end View

/-- The stack pointer at a distance from the entry word of the running fiber's slot. -/
def spAt (p : Platform) (s : Thread) (below : Nat) : Nat :=
  match s.slotOf s.running with
  | some id => (s.slots id).entry p.arch - below
  | none => 0

/-- A step of the thread that takes place that far below. -/
def place (p : Platform) (s : Thread) : Label → Label
  | .resume f below marker => .resume f (s.spAt p below) marker
  | .call f below marker => .call f (s.spAt p below) marker
  | .yield below marker => .yield (s.spAt p below) marker
  | .back below marker => .back (s.spAt p below) marker
  | .finish below marker => .finish (s.spAt p below) marker
  | l => l

def stepAt (p : Platform) (s : Thread) (l : Label) : Option Thread := step p s (s.place p l)

def runAt (p : Platform) (s : Thread) (ls : List Label) : Option Thread := ls.foldlM (stepAt p) s

/-! ## Where a fiber may stand -/

/-- A private fiber, or a shared-stack fiber that has not run, or one that has: that one is
bound to the thread, and its entry word fits into its slot. -/
inductive Settles (p : Platform) (f : Fiber) : Prop where
  | privately (kind : f.useSharedStack = false) (ready : f.ctxInitialized = true) (slot : f.sharedStackSlot = none)
      (owner : f.ownerThread = -1)
  | unbound (kind : f.useSharedStack = true) (unready : f.ctxInitialized = false) (slot : f.sharedStackSlot = none)
      (owner : f.ownerThread = -1 ∨ f.ownerThread = p.tid) (state : f.state = .ready) (curr : f.curr = false)
  | bound (id : SlotId) (kind : f.useSharedStack = true) (ready : f.ctxInitialized = true)
      (slot : f.sharedStackSlot = some id) (size : id.size = f.stacksize) (fits : Fits p.arch f.stacksize)
      (owner : f.ownerThread = p.tid)

structure Settled (p : Platform) (s : Thread) : Prop where
  fibers : ∀ x f, s.fibers x = some f → Settles p f
  blocks : ∀ id, (p.block id).Same (s.slots id)

theorem settled_init (p : Platform) (slotCount : Nat) : Settled p (machine p slotCount).init := by
  refine ⟨fun x f here => ?_, fun id => ⟨rfl, rfl⟩⟩
  have same : x = tThreadFiber := by
    by_contra apart
    simp [machine, apart] at here
  subst same
  simp only [machine, Function.update_self, Option.some.injEq] at here
  subst here
  exact .privately rfl rfl rfl rfl

/-! ## Blocks -/

theorem Settled.size_slot (h : Settled p.toPlatform s) (id : SlotId) : (s.slots id).size = id.size :=
  (h.blocks id).2.trans (p.block_size id)

theorem Settled.aligned (h : Settled p.toPlatform s) (id : SlotId) :
    (s.slots id).stack % kFiberContextStackAlignment = 0 ∧ (s.slots id).stack ≠ 0 := by
  rw [(h.blocks id).1]
  exact ⟨p.aligned id, p.nonnull id⟩

theorem Settled.room_iff (h : Settled p.toPlatform s) (id : SlotId) :
    0 < (s.slots id).size ∧ (s.slots id).Room p.arch ↔ Fits p.arch id.size := by
  obtain ⟨aligned, -⟩ := h.aligned id
  unfold Fits Slot.Room Slot.top
  rw [h.size_slot]
  unfold alignDown kFiberContextStackAlignment at *
  omega

/-- The entry word lies as high in every slot of one size. -/
theorem Settled.entry_eq (h : Settled p.toPlatform s) (fits : Fits p.arch id.size) :
    (s.slots id).entry p.arch = (s.slots id).stack + depth p.arch id.size := by
  obtain ⟨aligned, -⟩ := h.aligned id
  unfold Slot.entry Slot.top depth
  unfold Fits at fits
  rw [h.size_slot]
  unfold alignDown kFiberContextStackAlignment at *
  omega

/-- A stack pointer some way below the entry word is still on the stack. -/
theorem Settled.inside_iff (h : Settled p.toPlatform s) (fits : Fits p.arch id.size) (below : Nat) :
    (s.slots id).Inside p.arch ((s.slots id).entry p.arch - below) ↔ below ≤ depth p.arch id.size := by
  obtain ⟨-, nonnull⟩ := h.aligned id
  unfold Slot.Inside
  rw [h.entry_eq fits]
  omega

/-! ## The view of an update -/

theorem unready_modify {change : Fiber → Fiber}
    (same : ∀ f, s.fibers r = some f → (change f).ctxInitialized = f.ctxInitialized) :
    (s.modify r change).unready = s.unready := by
  funext x
  simp only [unready, fibers_modify]
  split
  · rename_i isR
    subst isR
    cases here : s.fibers x with
    | none => rfl
    | some f => simp [same f here]
  · rfl

theorem stackless_modify {first second : Fiber → Fiber} (same : ∀ f, s.fibers r = some f →
    (first f).stackless r = second (f.stackless r) ∧ (first f).ctxInitialized = f.ctxInitialized) :
    (s.modify r first).stackless = s.stackless.modify r second := by
  have unready : (s.modify r first).unready = s.unready := unready_modify fun f here => (same f here).2
  simp only [stackless, unready]
  simp only [modify, Thread.mk.injEq, and_true]
  funext x
  by_cases isR : x = r
  · subst isR
    simp only [Function.update_self]
    cases here : s.fibers x with
    | none => rfl
    | some f => simp [(same f here).1]
  · simp only [Function.update_of_ne isR]

/-- A change of the fields both have. -/
theorem stackless_quiet {change : Fiber → Fiber} (same : ∀ x f, (change f).stackless x = change (f.stackless x))
    (ready : ∀ f, (change f).ctxInitialized = f.ctxInitialized) :
    (s.modify r change).stackless = s.stackless.modify r change :=
  stackless_modify fun f _ => ⟨same r f, ready f⟩

/-- A change of what the view leaves out. -/
theorem stackless_hidden {change : Fiber → Fiber} (same : ∀ f, s.fibers r = some f →
    (change f).stackless r = f.stackless r ∧ (change f).ctxInitialized = f.ctxInitialized) :
    (s.modify r change).stackless = s.stackless := by
  have erased : (s.modify r change).stackless = s.stackless.modify r fun f => f := stackless_modify same
  rw [erased]
  exact modify_self _ fun _ _ => rfl

theorem stackless_modifySlot (change : Slot → Slot) : (s.modifySlot id change).stackless = s.stackless := rfl

theorem fibers_stackless (here : s.fibers x = some f) : s.stackless.fibers x = some (f.stackless x) := by
  simp only [stackless, here, Option.map_some]

theorem fibers_stackless_none (here : s.fibers x = none) : s.stackless.fibers x = none := by
  simp only [stackless, here, Option.map_none]

theorem alive_stackless : s.stackless.alive = s.alive := by
  funext x
  simp only [alive, stackless]
  cases s.fibers x <;> rfl

theorem isShared_stackless : s.stackless.isShared = s.isShared := by
  funext x
  simp only [isShared, stackless]
  cases s.fibers x <;> rfl

theorem slotOf_stackless : s.stackless.slotOf x = none := by
  simp only [slotOf, stackless]
  cases s.fibers x with
  | none => rfl
  | some f => simp [Fiber.stackless]

theorem callCode_stackless : s.stackless.callCode (f.stackless x) r = s.callCode f r := by
  simp only [callCode, isShared_stackless]
  rfl

/-- The view of `initFiberContext`. -/
theorem stackless_entered {change : Fiber → Fiber} (same : ∀ f, s.fibers r = some f →
    (change f).stackless r = { f.stackless r with ctx := ⟨0, r, .entry⟩ }) :
    { s.modify r change with continuation := Function.update s.continuation r (some r) }.stackless =
      s.stackless.entered r := by
  simp only [stackless, entered, modify, Thread.mk.injEq, and_true, true_and]
  refine ⟨?_, ?_⟩
  · funext x
    by_cases isR : x = r
    · subst isR
      simp only [Function.update_self]
      cases here : s.fibers x with
      | none => rfl
      | some f => simp [same f here]
    · simp only [Function.update_of_ne isR]
  · funext x
    by_cases isR : x = r
    · subst isR
      simp only [Function.update_self, ite_self]
    · simp only [unready, Function.update_of_ne isR]
      rfl

/-- A fiber that has no context is seen with its first one. -/
theorem entered_unready (here : s.fibers r = some f) (unready : f.ctxInitialized = false) :
    s.stackless.entered r = s.stackless := by
  have fibers : s.stackless.modify r ({ · with ctx := ⟨0, r, .entry⟩ }) = s.stackless := by
    refine modify_self _ fun g hg => ?_
    cases (fibers_stackless here).symm.trans hg
    simp [Fiber.stackless, unready]
  unfold entered
  rw [fibers]
  have continuation : s.stackless.continuation r = some r := by
    simp [stackless, Thread.unready, here, unready]
  rw [← continuation, Function.update_eq_self]

/-! ## `prepareSharedStack` -/

/-- A change of other fields; those of a fiber that has not run stay as they are. -/
theorem Settles.keep {g : Fiber} (settles : Settles p.toPlatform f) (kind : g.useSharedStack = f.useSharedStack)
    (ready : g.ctxInitialized = f.ctxInitialized) (slot : g.sharedStackSlot = f.sharedStackSlot)
    (owner : g.ownerThread = f.ownerThread) (size : g.stacksize = f.stacksize)
    (still : f.ctxInitialized = true ∨ g.state = f.state ∧ g.curr = f.curr) : Settles p.toPlatform g := by
  cases settles with
  | privately isKind isReady noSlot free =>
    exact .privately (kind.trans isKind) (ready.trans isReady) (slot.trans noSlot) (owner.trans free)
  | unbound isKind unready noSlot isOwner isState isCurr =>
    rcases still with isReady | ⟨state, curr⟩
    · cases unready.symm.trans isReady
    · exact .unbound (kind.trans isKind) (ready.trans unready) (slot.trans noSlot) (owner ▸ isOwner) (state.trans isState)
        (curr.trans isCurr)
  | bound id isKind isReady isSlot isSize fits isOwner =>
    exact .bound id (kind.trans isKind) (ready.trans isReady) (slot.trans isSlot) (isSize.trans size.symm) (size.symm ▸ fits)
      (owner.trans isOwner)

theorem Settled.modify {change : Fiber → Fiber} (h : Settled p.toPlatform s)
    (same : ∀ f, s.fibers r = some f → Settles p.toPlatform f → Settles p.toPlatform (change f)) :
    Settled p.toPlatform (s.modify r change) := by
  refine ⟨fun x g here => ?_, h.blocks⟩
  rw [fibers_modify] at here
  split at here
  · rename_i isR
    subst isR
    obtain ⟨f, old, rfl⟩ := Option.map_eq_some_iff.1 here
    exact same f old (h.fibers x f old)
  · exact h.fibers x g here

theorem Settled.modifySlot {change : Slot → Slot} (h : Settled p.toPlatform s) (same : (s.slots id).Same (change (s.slots id))) :
    Settled p.toPlatform (s.modifySlot id change) := by
  refine ⟨h.fibers, fun id' => ?_⟩
  rw [slots_modifySlot]
  split
  · rename_i isId
    subst isId
    exact ⟨same.1.trans (h.blocks id').1, same.2.trans (h.blocks id').2⟩
  · exact h.blocks id'

/-- The thread a shared-stack fiber is bound to. -/
theorem Settles.owner (settles : Settles p.toPlatform f) : f.ownerThread = -1 ∨ f.ownerThread = p.tid := by
  cases settles with
  | privately _ _ _ owner => exact .inl owner
  | unbound _ _ _ owner _ _ => exact owner
  | bound _ _ _ _ _ _ owner => exact .inr owner

theorem bindThread_settled (h : Settled p.toPlatform s) (here : s.fibers r = some f) (shared : f.useSharedStack = true) :
    ∃ m, s.bindThread p.toPlatform r = some m ∧ m.stackless = s.stackless ∧ Settled p.toPlatform m ∧
      m.fibers r = some { f with ownerThread := p.tid } := by
  simp only [bindThread, here]
  rcases (h.fibers r f here).owner with free | mine
  · rw [if_pos free]
    refine ⟨_, rfl, stackless_hidden fun g _ => ⟨rfl, rfl⟩, h.modify fun g hg settles => ?_, ?_⟩
    · cases here.symm.trans hg
      cases settles with
      | privately kind _ _ _ => cases shared.symm.trans kind
      | unbound kind unready slot _ state curr => exact .unbound kind unready slot (.inr rfl) state curr
      | bound id kind ready slot size fits _ => exact .bound id kind ready slot size fits rfl
    · simp [fibers_modify, here]
  · have other : f.ownerThread ≠ -1 := by
      have positive := p.tid_pos
      omega
    rw [if_neg other, if_pos mine, ← mine]
    exact ⟨_, rfl, rfl, h, here⟩

/-- The slot and the first context, where the size allows one. -/
theorem ensureContext_settled (h : Settled p.toPlatform s) (here : s.fibers r = some f) (shared : f.useSharedStack = true)
    (owner : f.ownerThread = p.tid) :
    (Fits p.arch f.stacksize → ∃ m, s.ensureContext p.toPlatform r = some m ∧ m.stackless = s.stackless ∧
      Settled p.toPlatform m ∧ ∃ id, m.slotOf r = some id) ∧
    (¬ Fits p.arch f.stacksize → s.ensureContext p.toPlatform r = none) := by
  simp only [ensureContext, here]
  cases h.fibers r f here with
  | privately kind _ _ _ => cases shared.symm.trans kind
  | bound id kind ready slot size fits _ =>
    simp only [slot, ready, if_true]
    exact ⟨fun _ => ⟨s, rfl, rfl, h, id, slotOf_eq.2 ⟨f, here, kind, slot⟩⟩, fun unfit => absurd fits unfit⟩
  | unbound kind unready slot _ state curr =>
    simp only [slot, unready, Bool.false_eq_true, if_false, acquireSlot]
    generalize isId : (⟨f.stacksize, _⟩ : SlotId) = id
    generalize Function.update s.pools _ _ = pools
    have size : id.size = f.stacksize := by rw [← isId]
    have slotOf : (Thread.modify { s with pools } r (·.withSlot id)).slotOf r = some id :=
      slotOf_eq.2 ⟨f.withSlot id, by simp [fibers_modify, here], kind, rfl⟩
    have room := h.room_iff id
    rw [size] at room
    simp only [initFiberContext, slotOf]
    refine ⟨fun fits => ?_, fun unfit => if_neg fun both => unfit (room.1 both)⟩
    have slotted : (Thread.modify { s with pools } r (·.withSlot id)).stackless = s.stackless := by
      refine stackless_hidden (s := { s with pools }) fun g hg => ⟨?_, rfl⟩
      cases here.symm.trans hg
      simp only [Fiber.stackless, Fiber.withSlot, size]
    have now : (Thread.modify { s with pools } r (·.withSlot id)).fibers r = some (f.withSlot id) := by
      simp [fibers_modify, here]
    refine ⟨_, if_pos (room.2 fits), ?_, ?_, id, ?_⟩
    · refine (stackless_entered (s := (Thread.modify { s with pools } r (·.withSlot id)).modifySlot id _) fun g hg => ?_).trans ?_
      · cases now.symm.trans hg
        rfl
      · rw [stackless_modifySlot, slotted]
        exact entered_unready here unready
    · rw [modify_modifySlot, modify_modify]
      have fits' : Fits p.arch id.size := by
        rw [size]
        exact fits
      have settled : Settled p.toPlatform ((s.modifySlot id (·.initStack p.arch)).modify r
          ((·.withContext ⟨(s.slots id).entry p.arch, r, .entry⟩) ∘ (·.withSlot id))) := by
        refine (h.modifySlot (Slot.same_initStack (room.2 fits).2)).modify fun g hg _ => ?_
        cases here.symm.trans hg
        exact .bound id kind rfl rfl rfl fits' owner
      exact ⟨settled.fibers, settled.blocks⟩
    · refine slotOf_eq.2 ⟨(f.withSlot id).withContext ⟨((s.slots id).entry p.arch), r, .entry⟩, ?_, kind, rfl⟩
      exact (fibers_modify _).trans (by rw [if_pos rfl]; exact congrArg (Option.map _) now)

/-- A snapshot goes back to its slot, and the slot to its fiber. -/
theorem restore_settled {out : Option (List UInt8)} (h : Settled p.toPlatform s) (here : s.fibers r = some f)
    (slot : s.slotOf r = some id) (saved : Saved p.arch (s.slots id) out f) :
    ∃ m, (s.restoreSharedStackSnapshot r).map (·.modifySlot id ({ · with owner := some r })) = some m ∧
      m.stackless = s.stackless ∧ Settled p.toPlatform m := by
  have given : (s.restoreSharedStackSnapshot r).map (·.modifySlot id ({ · with owner := some r })) =
      some (s.modifySlot id (givenTo · r f)) := by
    simp only [restoreSharedStackSnapshot, here, slot]
    rcases saved with ⟨empty, -⟩ | ⟨holds, -⟩
    · simp [givenTo, empty, Slot.restore_nil]
    · rw [if_pos holds.length_le]
      split
      · rename_i empty
        simp [givenTo, List.isEmpty_iff.1 empty, Slot.restore_nil]
      · simp [modifySlot, givenTo]
  exact ⟨_, given, rfl, h.modifySlot (same_givenTo saved)⟩

theorem takeSlot_settled (stored : Stored p.toPlatform s) (h : Settled p.toPlatform s) (slot : s.slotOf r = some id)
    (current : s.kind s.tFiber = some false) (alive : s.alive r = true) (marker : Nat) :
    ∃ m, s.takeSlot r marker = some m ∧ m.stackless = s.stackless ∧ Settled p.toPlatform m := by
  obtain ⟨f, here, shared, fslot⟩ := slotOf_eq.1 slot
  have mine := (stored.sound r f here).stacked id shared fslot
  unfold takeSlot
  simp only [slot]
  split
  · rename_i noOwner
    refine restore_settled h here slot (mine.saved fun owned => ?_)
    simp [lockOwner, owned, alive] at noOwner
  · rename_i o owner
    obtain ⟨owned, oAlive⟩ := Option.filter_eq_some_iff.1 owner
    split
    · exact ⟨s, rfl, rfl, h⟩
    · rename_i other
      obtain ⟨fo, hfo, oShared, oSlot⟩ := slotOf_eq.1 (stored.owners id o owned)
      have stacked := (stored.sound o fo hfo).stacked id oShared oSlot
      have notCurrent : o ≠ s.tFiber := fun same => by
        rw [← same, kind_eq.2 ⟨fo, hfo, oShared⟩] at current
        cases current
      have word := stacked.room.entry_word
      have range : (s.slots id).stack ≤ fo.ctx.sp ∧ fo.ctx.sp ≤ (s.slots id).top := by
        have inside := stacked.inside
        unfold Slot.Inside at inside
        omega
      have saves : s.saveSharedStackSnapshot o = some (s.modify o (·.withSnapshot ((s.slots id).above fo.ctx.sp))) := by
        simp [saveSharedStackSnapshot, hfo, stored.owners id o owned, stacked.ready, saveFrom, range]
      rw [if_neg notCurrent, saves, Option.bind_some]
      have apart : r ≠ o := fun same => other same.symm
      have hidden : (s.modify o (·.withSnapshot ((s.slots id).above fo.ctx.sp))).stackless = s.stackless :=
        stackless_hidden fun g _ => ⟨rfl, rfl⟩
      have settled : Settled p.toPlatform (s.modify o (·.withSnapshot ((s.slots id).above fo.ctx.sp))) :=
        h.modify fun g _ settles => settles.keep rfl rfl rfl rfl rfl (.inr ⟨rfl, rfl⟩)
      rw [← hidden]
      refine restore_settled settled ?_ ?_ (mine.saved fun owned' => apart (Option.some.inj (owned'.symm.trans owned)))
      · rw [fibers_modify, if_neg apart]
        exact here
      · rw [slotOf_modify]
        · exact slot
        all_goals exact fun _ => rfl

/-- **Preparing** a stack changes nothing that is seen; it fails where the size is too small. -/
theorem Kept.prepare_settled (kept : Kept p.toPlatform s) (h : Settled p.toPlatform s)
    (privately : s.kind r = some true → s.kind s.running = some false) (alive : s.alive r = true) (marker : Nat) :
    (s.prepare p.toPlatform r marker).map stackless = View.prepare p.arch s.stackless r ∧
      ∀ m, s.prepare p.toPlatform r marker = some m → Settled p.toPlatform m := by
  obtain ⟨f, here⟩ : ∃ f, s.fibers r = some f := by
    cases here : s.fibers r with
    | none => simp [Thread.alive, here] at alive
    | some f => exact ⟨f, rfl⟩
  have seen := fibers_stackless here
  by_cases shared : f.useSharedStack = true
  · have isShared : s.kind r = some true := kind_eq.2 ⟨f, here, shared⟩
    have current := kept.kinds.trans (privately isShared)
    rw [Thread.prepare, if_pos (isShared_kind.2 isShared)]
    obtain ⟨m, bound, same, settled, now⟩ := bindThread_settled h here shared
    obtain ⟨stored, steady⟩ := kept.toStored.bindThread bound
    obtain ⟨fit, unfit⟩ := ensureContext_settled settled now shared rfl
    simp only [prepareSharedStack, bound, Option.bind_some]
    by_cases fits : Fits p.arch f.stacksize
    · obtain ⟨m', ensured, same', settled', id, slot⟩ := fit fits
      obtain ⟨stored', steady'⟩ := stored.ensureContext (by rwa [steady.kind]) ensured
      obtain ⟨m'', taken, same'', settled''⟩ := takeSlot_settled stored' settled' slot
        (by rwa [steady'.kind, steady.kind, steady'.tFiber, steady.tFiber])
        (by rwa [steady'.alive, steady.alive]) marker
      simp only [ensured, Option.bind_some, taken, Option.map_some, Option.some.injEq]
      refine ⟨?_, ?_⟩
      · rw [View.prepare, if_pos]
        · rw [same'', same', same]
        · simp [seen, Fiber.stackless, fits]
      · rintro _ rfl
        exact settled''
    · simp only [unfit fits, Option.bind_none, Option.map_none, reduceCtorEq, false_implies, implies_true, and_true]
      rw [View.prepare, if_neg]
      simp [seen, Fiber.stackless, fits, shared]
  · have notShared : ¬ s.isShared r = true := by simp [isShared, here, shared]
    rw [Thread.prepare, if_neg notShared]
    refine ⟨?_, ?_⟩
    · rw [View.prepare, if_pos]
      · rfl
      · simp [seen, Fiber.stackless, shared]
    · rintro _ ⟨⟩
      exact h

/-! ## Switching -/

/-- A fiber that has a context. -/
def Ready (s : Thread) (x : Ref) : Prop := ∃ f, s.fibers x = some f ∧ f.ctxInitialized = true

theorem Settled.ready_private (h : Settled p.toPlatform s) (privately : s.kind x = some false) : s.Ready x := by
  obtain ⟨f, here, isPrivate⟩ := kind_eq.1 privately
  cases h.fibers x f here with
  | privately _ ready _ _ => exact ⟨f, here, ready⟩
  | unbound kind _ _ _ _ _ => cases isPrivate.symm.trans kind
  | bound _ kind _ _ _ _ _ => cases isPrivate.symm.trans kind

theorem Settled.ready_slot (h : Settled p.toPlatform s) (slot : s.slotOf x = some id) : s.Ready x := by
  obtain ⟨f, here, shared, fslot⟩ := slotOf_eq.1 slot
  cases h.fibers x f here with
  | privately kind _ _ _ => cases shared.symm.trans kind
  | unbound _ _ noSlot _ _ _ => cases noSlot.symm.trans fslot
  | bound _ _ ready _ _ _ _ => exact ⟨f, here, ready⟩

/-- A fiber that holds its slot, or needs none, has a context. -/
theorem Settled.ready_holding (h : Settled p.toPlatform s) (exists_ : s.kind x ≠ none) (holding : s.Holding x) : s.Ready x := by
  cases kind : s.kind x with
  | none => exact absurd kind exists_
  | some shared =>
    cases shared with
    | false => exact h.ready_private kind
    | true =>
      obtain ⟨id, slot, -⟩ := holding kind
      exact h.ready_slot slot

theorem Ready.unready (ready : s.Ready x) : s.unready x = false := by
  obtain ⟨f, here, isReady⟩ := ready
  simp [Thread.unready, here, isReady]

theorem Ready.modify {change : Fiber → Fiber} (ready : s.Ready x) (same : ∀ f, (change f).ctxInitialized = f.ctxInitialized) :
    (s.modify r change).Ready x := by
  obtain ⟨f, here, isReady⟩ := ready
  by_cases isR : x = r
  · exact ⟨change f, by rw [fibers_modify, if_pos isR, here]; rfl, (same f).trans isReady⟩
  · exact ⟨f, by rw [fibers_modify, if_neg isR, here], isReady⟩

theorem Ready.save {sp : Nat} {src : Ref} {point : Point} (ready : s.Ready x) : (s.save sp src point).Ready x := by
  have modified : (s.modify src fun f => { f with ctx := ⟨sp, s.running, point⟩ }).Ready x := ready.modify fun _ => rfl
  exact modified

/-- A stack pointer and a distance from the entry word: both are on the running fiber's stack,
or neither is. -/
def Below (p : Platform) (s : Thread) (sp below : Nat) : Prop :=
  ∀ id, s.slotOf s.running = some id → ((s.slots id).Inside p.arch sp ↔ below ≤ depth p.arch id.size)

/-- The running fiber's stack pointer, in both. -/
theorem Kept.runsInside_iff (kept : Kept p.toPlatform s) (h : Settled p.toPlatform s) {sp below : Nat}
    (at_ : s.Below p.toPlatform sp below) :
    s.RunsInside p.toPlatform sp ↔
      ((s.stackless.fibers s.stackless.running).all fun f => f.useSharedStack → below ≤ depth p.arch f.stacksize) = true := by
  obtain ⟨f, here, -⟩ := h.ready_holding kept.exists_.1 kept.holding
  have seen : s.stackless.fibers s.stackless.running = some (f.stackless s.running) := fibers_stackless here
  rw [seen]
  simp only [Option.all_some, decide_eq_true_eq]
  cases h.fibers _ f here with
  | privately kind _ _ _ => simp [RunsInside, slotOf, here, kind, Fiber.stackless]
  | unbound kind _ noSlot _ _ _ =>
    obtain ⟨id, slot, -⟩ := kept.holding (kind_eq.2 ⟨f, here, kind⟩)
    simp [slotOf, here, noSlot] at slot
  | bound id kind _ slot size fits _ =>
    have isSlot : s.slotOf s.running = some id := slotOf_eq.2 ⟨f, here, kind, slot⟩
    simp only [RunsInside, isSlot, at_ id isSlot, size, Fiber.stackless, kind, forall_const]

theorem stackless_continuation {v : Option Ref} (ready : s.unready x = false) (running : Ref)
    (switchedOut : Ref → Option (List UInt8)) :
    { s with running, switchedOut, continuation := Function.update s.continuation x v }.stackless =
      { s.stackless with running, continuation := Function.update s.stackless.continuation x v } := by
  simp only [stackless, Thread.mk.injEq, and_true, true_and]
  funext y
  by_cases isX : y = x
  · subst isX
    have same : unready { s with running, switchedOut, continuation := Function.update s.continuation y v } y = false := ready
    simp [same]
  · simp only [Function.update_of_ne isX]
    rfl

/-- The saving half. -/
theorem stackless_save {sp : Nat} {src : Ref} {point : Point} (running : s.Ready s.running) (source : s.Ready src) :
    (s.save sp src point).stackless = s.stackless.save 0 src point := by
  obtain ⟨f, here, ready⟩ := source
  have modified : (s.modify src fun f => { f with ctx := ⟨sp, s.running, point⟩ }).stackless =
      s.stackless.modify src fun f => { f with ctx := ⟨0, s.running, point⟩ } := by
    refine stackless_modify fun g hg => ⟨?_, rfl⟩
    cases here.symm.trans hg
    simp only [Fiber.stackless, ready, if_true]
  have still : (s.modify src fun f => { f with ctx := ⟨sp, s.running, point⟩ }).unready s.running = false :=
    Ready.unready (running.modify (by intro f; rfl))
  refine (stackless_continuation still s.running _).trans ?_
  rw [modified]
  have noSlot : s.stackless.slotOf s.stackless.running = none := slotOf_stackless
  simp only [save, noSlot]
  rfl

theorem stackless_arrive {ctx : Context} (code : s.Ready ctx.code) :
    (s.arrive ctx).stackless = s.stackless.arrive { ctx with sp := 0 } := by
  have arrived := stackless_continuation (v := none) code.unready ctx.code s.switchedOut
  unfold arrive
  cases ctx.point with
  | inCall callee =>
    dsimp only
    rw [stackless_quiet, arrived]
    · exact fun _ _ => rfl
    · exact fun _ => rfl
  | entry =>
    dsimp only
    rw [stackless_quiet, arrived]
    · exact fun _ _ => rfl
    · exact fun _ => rfl
  | inResume => exact arrived
  | inYield => exact arrived
  | done => exact arrived

/-- The loading half. -/
theorem stackless_load {dst : Ref} (here : s.fibers dst = some f) (ready : f.ctxInitialized = true)
    (code : s.Ready f.ctx.code) : (s.load dst).map stackless = s.stackless.load dst := by
  have context : (f.stackless dst).ctx = { f.ctx with sp := 0 } := by simp only [Fiber.stackless, ready, if_true]
  have continuation : s.stackless.continuation f.ctx.code = s.continuation f.ctx.code := by
    simp [stackless, code.unready]
  simp only [load, here, fibers_stackless here, Option.bind_some, context, continuation]
  split
  · rw [Option.map_some, stackless_arrive code]
  · rfl

/-- What a switch changes of the fibers: a context, a parent and `curr`. -/
theorem Settled.save (h : Settled p.toPlatform s) {sp : Nat} {src : Ref} {point : Point} :
    Settled p.toPlatform (s.save sp src point) := by
  have settled : Settled p.toPlatform (s.modify src fun f => { f with ctx := ⟨sp, s.running, point⟩ }) :=
    h.modify fun f _ settles => settles.keep rfl rfl rfl rfl rfl (.inr ⟨rfl, rfl⟩)
  exact ⟨settled.fibers, settled.blocks⟩

theorem Settled.arrive (h : Settled p.toPlatform s) {ctx : Context} (code : s.Ready ctx.code) :
    Settled p.toPlatform (s.arrive ctx) := by
  have settled : Settled p.toPlatform
      { s with running := ctx.code, continuation := Function.update s.continuation ctx.code none } := ⟨h.fibers, h.blocks⟩
  unfold Thread.arrive
  cases ctx.point with
  | inCall callee => exact settled.modify fun f _ settles => settles.keep rfl rfl rfl rfl rfl (.inr ⟨rfl, rfl⟩)
  | entry =>
    obtain ⟨f, here, ready⟩ := code
    refine settled.modify fun g hg settles => settles.keep rfl rfl rfl rfl rfl (.inl ?_)
    cases here.symm.trans hg
    exact ready
  | inResume => exact settled
  | inYield => exact settled
  | done => exact settled

/-- The thread's step and the view's agree, and what is reached is settled again. -/
structure Agrees (p : Host) (o v : Option Thread) : Prop where
  view : o.map stackless = v
  settled : ∀ m, o = some m → Settled p.toPlatform m

theorem agrees_none (p : Host) : Agrees p none none := ⟨rfl, nofun⟩

theorem agrees_some (h : Settled p.toPlatform s) : Agrees p (some s) (some s.stackless) :=
  ⟨rfl, fun _ is => Option.some.inj is ▸ h⟩

theorem Agrees.bind {o v : Option Thread} {next nextView : Thread → Option Thread} (first : Agrees p o v)
    (then_ : ∀ m, o = some m → Settled p.toPlatform m → Agrees p (next m) (nextView m.stackless)) :
    Agrees p (o.bind next) (v.bind nextView) := by
  obtain ⟨view, settled⟩ := first
  subst view
  cases is : o with
  | none => exact agrees_none p
  | some m => exact then_ m is (settled m is)

/-- **A switch** between fibers that have their contexts. -/
theorem Kept.swap_settled (kept : Kept p.toPlatform s) (h : Settled p.toPlatform s) {sp below : Nat} {src dst : Ref}
    {point : Point} (at_ : s.Below p.toPlatform sp below)
    (shared : s.kind s.running = some true → src = s.running)
    (privately : s.kind s.running = some false → s.kind src = some false)
    (exists_ : s.kind dst ≠ none) (target : s.Holding dst) :
    Agrees p (s.swap p.toPlatform sp src dst point) (View.swap p.arch s.stackless below src dst point) := by
  have inside := kept.runsInside_iff h at_
  unfold Thread.swap View.swap
  by_cases runs : s.RunsInside p.toPlatform sp
  · rw [if_pos runs, if_pos (inside.1 runs)]
    have running : s.Ready s.running := h.ready_holding kept.exists_.1 kept.holding
    have source : s.Ready src := by
      cases kind : s.kind s.running with
      | none => exact absurd kind kept.exists_.1
      | some isShared =>
        cases isShared with
        | true =>
          rw [shared kind]
          exact running
        | false => exact h.ready_private (privately kind)
    have settled : Settled p.toPlatform { s with tFiber := dst } := ⟨h.fibers, h.blocks⟩
    have stored : Stored p.toPlatform { s with tFiber := dst } :=
      ⟨kept.sound, kept.fresh, kept.silent, kept.main, kept.scheduler, kept.owners⟩
    obtain ⟨saved, left⟩ := stored.save point runs shared privately kept.exists_.1 kept.holding kept.awake
    have view : ({ s with tFiber := dst }.save sp src point).stackless =
        { s.stackless with tFiber := dst }.save 0 src point := stackless_save running source
    have settled' : Settled p.toPlatform ({ s with tFiber := dst }.save sp src point) := settled.save
    obtain ⟨fd, here, ready⟩ : ({ s with tFiber := dst }.save sp src point).Ready dst :=
      Ready.save (s := { s with tFiber := dst }) (h.ready_holding exists_ target)
    generalize { s with tFiber := dst }.save sp src point = m at saved left view settled' here
    have sound := saved.sound dst fd here
    have code : m.Ready fd.ctx.code := by
      cases isShared : fd.useSharedStack with
      | true =>
        rw [sound.own isShared]
        exact ⟨fd, here, ready⟩
      | false => exact settled'.ready_private (sound.code.trans (congrArg some isShared))
    rw [← view]
    refine ⟨stackless_load here ready code, fun m' loaded => ?_⟩
    simp only [load, here, Option.bind_some] at loaded
    split at loaded
    · cases loaded
      exact settled'.arrive code
    · cases loaded
  · rw [if_neg runs, if_neg fun still => runs (inside.2 still)]
    exact agrees_none p

end Thread

end Mycoroutine
