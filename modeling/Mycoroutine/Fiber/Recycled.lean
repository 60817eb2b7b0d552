import Mycoroutine.Fiber.NestedCalls
import Mycoroutine.Fiber.StacklessSteps
import Mycoroutine.Pool.CoroutinePool

/-!
# A fiber from the pool and a new one

`acquire` resets a finished fiber, where a miss constructs one. The two are compared
on the acquiring thread, under one name: the new fiber takes the place of the old one,
whose weak references are expired. On the thread a fiber is bound to they are seen
alike in every run; on another thread `reset` leaves `m_ownerThread` as it was, and the
first `resume` fails its assertion.
-/

namespace Mycoroutine
set_option autoImplicit false
open Interleave CoroutinePool

namespace CoroutinePool.Args

/-- `m_stacksize`, a 32-bit word. -/
def size (args : Args) : Nat := (normalizeStackSize args.stacksize).toNat % 2 ^ 32

theorem size_eq (args : Args) :
    args.size = (if args.stacksize.toNat = 0 then 128000 else args.stacksize.toNat) % 2 ^ 32 := by
  have zero : args.stacksize.toNat = 0 ↔ args.stacksize = 0 := BitVec.toNat_inj (y := 0)
  unfold size normalizeStackSize
  by_cases empty : args.stacksize = 0
  · rw [if_pos empty, if_pos (zero.2 empty)]
    rfl
  · rw [if_neg empty, if_neg (empty ∘ zero.1)]

/-- Arguments of one key build the same fiber. -/
theorem of_key {args args' : Args} (same : args.key = args'.key) :
    args.size = args'.size ∧ args.runInScheduler = args'.runInScheduler ∧ args.useSharedStack = args'.useSharedStack := by
  obtain ⟨run, shared, bits⟩ := makeKey_bits same
  refine ⟨?_, run, shared⟩
  apply Nat.eq_of_testBit_eq
  intro i
  simp only [size, Nat.testBit_mod_two_pow]
  by_cases low : i < 32
  · have bit := bits i (by omega)
    simp only [BitVec.getLsbD] at bit
    rw [bit]
  · simp [low]

end CoroutinePool.Args

/-- What the constructor leaves, before the first context. -/
def Fiber.built (this : Ref) (args : Args) : Fiber where
  stacksize := args.size
  state := .ready
  ctx := ⟨0, this, .entry⟩
  runInScheduler := args.runInScheduler
  useSharedStack := args.useSharedStack
  ctxInitialized := false

/-- A fiber the constructor made of these arguments. -/
structure Fiber.BuiltWith (f : Fiber) (args : Args) : Prop where
  size : f.stacksize = args.size
  run : f.runInScheduler = args.runInScheduler
  shared : f.useSharedStack = args.useSharedStack

theorem Fiber.BuiltWith.of_key {f : Fiber} {args args' : Args} (built : f.BuiltWith args) (same : args'.key = args.key) :
    f.BuiltWith args' := by
  obtain ⟨size, run, shared⟩ := Args.of_key same
  exact ⟨built.size.trans size.symm, built.run.trans run.symm, built.shared.trans shared.symm⟩

/-- A slot of another thread is none of this one's. -/
def Fiber.abroad (f : Fiber) : Fiber := { f with sharedStackSlot := none }

namespace Thread

variable {p : Host} {s m : Thread} {r x : Ref} {f g : Fiber} {id : SlotId} {args : Args}

/-! ## The two ways to acquire -/

/-- Weak references to a fiber that is gone. -/
def expire (s : Thread) (r : Ref) : Thread :=
  { s with
    fibers := fun x => (s.fibers x).map fun g => if g.parent = some r then { g with parent := none } else g
    slots := fun id => if (s.slots id).owner = some r then { s.slots id with owner := none } else s.slots id }

/-- `Fiber(cb, stacksize, run_in_scheduler, use_shared_stack)`, at the address of a fiber that is gone. -/
def construct (p : Platform) (s : Thread) (this : Ref) (args : Args) : Option Thread :=
  let f := Fiber.built this args
  let s := { s.expire this with
    fibers := Function.update (s.expire this).fibers this (some f)
    switchedOut := Function.update s.switchedOut this none }
  if args.useSharedStack then some s else if f.stacksize = 0 then none else s.initFiberContext p this

/-- A fiber that finished and was released: nobody runs in it, refers to it or returns to it. -/
structure Over (s : Thread) (r : Ref) (f : Fiber) : Prop where
  here : s.fibers r = some f
  term : f.state = .term
  alive : f.alive = true
  curr : f.curr = false
  idle : r ≠ s.running ∧ r ≠ s.tFiber ∧ r ≠ tThreadFiber ∧ r ≠ s.tSchedulerFiber
  unlinked : ∀ x g, s.fibers x = some g → g.parent ≠ some r

/-- The states of a thread in which its `acquire` finds the fiber, and the fiber's name there:
the fiber finished here, or it comes from another thread. -/
inductive Cached (p : Host) (f : Fiber) : Thread → Ref → Prop where
  | here {slotCount : Nat} {s : Thread} {r : Ref} (reached : (machine p.toPlatform slotCount).Reach s) (isOver : Over s r f) :
    Cached p f s r
  | elsewhere {slotCount : Nat} {s : Thread} (reached : (machine p.toPlatform slotCount).Reach s)
    (other : f.useSharedStack = true → f.ownerThread ≠ p.tid) : Cached p f (s.add f.abroad) s.created

/-- The histories of a finished fiber. One with a shared stack ran on the thread it is bound to;
one with a private stack was constructed by some thread and ran anywhere. -/
inductive Ended (arch : Arch) : Fiber → Prop where
  | shared {q : Host} {slotCount : Nat} {s : Thread} {r : Ref} {f : Fiber} (same : q.arch = arch)
    (reached : (machine q.toPlatform slotCount).Reach s) (isOver : Over s r f) (kind : f.useSharedStack = true) : Ended arch f
  | privately {q : Platform} {s t : Thread} {stacksize : Nat} {run : Bool} {g : Fiber}
    (made : s.create q stacksize run false = some t) (here : t.fibers s.created = some g) (ctx : Context)
    (parent : Option Ref) (returnToParent : Bool) : Ended arch { g with state := .term, ctx, parent, returnToParent }

/-- The recycled fiber and a new one are seen alike in every run, and what a stack holds survives. -/
structure LikeNew (p : Host) (s : Thread) (r : Ref) (args : Args) : Prop where
  alike : ∀ ls, ((s.reset p.toPlatform r).bind (runAt p.toPlatform · ls)).map stackless =
    ((s.construct p.toPlatform r args).bind (runAt p.toPlatform · ls)).map stackless
  survives : ∀ ls m, (s.reset p.toPlatform r).bind (runAt p.toPlatform · ls) = some m → Survives p.toPlatform m

/-! ## Runs that nest -/

theorem Linked.joined {pending : List Entry} {e : Entry} (linked : Linked s pending) (mem : e ∈ pending) :
    ∃ q f b, q ∈ stack pending ∧ Joined s e q f b := by
  induction pending with
  | nil => cases mem
  | cons e' rest ih =>
    obtain ⟨⟨f, b, joined⟩, linked⟩ := linked
    rcases List.mem_cons.1 mem with here | later
    · subst here
      exact ⟨top rest, f, b, List.mem_cons_of_mem _ (top_mem_stack rest), joined⟩
    · obtain ⟨q, f, b, inStack, joined⟩ := ih linked later
      exact ⟨q, f, b, List.mem_cons_of_mem _ inStack, joined⟩

/-- Where calls return like a stack, a fiber that finished has nothing left to return to it. -/
theorem Nested.isOver {pending : List Entry} (h : Nested s pending) (here : s.fibers r = some f) (term : f.state = .term)
    (alive : f.alive = true) (curr : f.curr = false) (notScheduler : r ≠ s.tSchedulerFiber) : Over s r f := by
  have off : r ∉ stack pending := fun mem => by
    cases term.symm.trans ((h.placed r f here).running.2 mem)
  refine ⟨here, term, alive, curr, ⟨fun same => off ?_, fun same => off ?_, fun same => off ?_, notScheduler⟩,
    fun x g hx isParent => ?_⟩
  · rw [same, h.executing]
    exact top_mem_stack pending
  · rw [same, h.current]
    exact top_mem_stack pending
  · rw [same]
    exact List.mem_append_right _ (List.mem_singleton_self _)
  · by_cases called : ⟨x, .called⟩ ∈ pending
    · obtain ⟨q, f', b, inStack, joined⟩ := h.linked.joined called
      cases hx.symm.trans joined.entered
      cases isParent.symm.trans (joined.called rfl).1
      exact off inStack
    · cases isParent.symm.trans ((h.placed x g hx).unlinked called).1

/-! ## Weak references -/

/-- Nothing expires where only the fiber itself may still refer to it. -/
theorem expire_eq (owners : ∀ id, (s.slots id).owner ≠ some r)
    (parents : ∀ x g, x ≠ r → s.fibers x = some g → g.parent ≠ some r) (o : Option Fiber)
    (switchedOut : Ref → Option (List UInt8)) :
    { s.expire r with fibers := Function.update (s.expire r).fibers r o, switchedOut } =
      { s with fibers := Function.update s.fibers r o, switchedOut } := by
  simp only [expire, Thread.mk.injEq, and_true, true_and]
  refine ⟨?_, ?_⟩
  · funext x
    by_cases isR : x = r
    · subst isR
      simp only [Function.update_self]
    · simp only [Function.update_of_ne isR]
      cases here : s.fibers x with
      | none => rfl
      | some g => rw [Option.map_some, if_neg (parents x g isR here)]
  · funext id
    exact if_neg (owners id)

theorem Kept.unowned (kept : Kept p.toPlatform s) (unshared : s.kind r ≠ some true) (id : SlotId) :
    (s.slots id).owner ≠ some r := fun owned => by
  obtain ⟨f, here, shared, -⟩ := slotOf_eq.1 (kept.owners id r owned)
  exact unshared (kind_eq.2 ⟨f, here, shared⟩)

theorem Kept.unlinked (kept : Kept p.toPlatform s) (unknown : s.kind r = none) (here : s.fibers x = some g) :
    g.parent ≠ some r := fun isParent => by
  rcases (kept.sound x g here).parent r isParent with privately | ⟨shared, -⟩
  · cases unknown.symm.trans privately
  · cases unknown.symm.trans shared

/-- In place of a fiber that came from elsewhere, the constructor makes the fiber it makes anyway. -/
theorem Kept.construct_created (kept : Kept p.toPlatform s) (f : Fiber) (args : Args) :
    (s.add f).construct p.toPlatform s.created args =
      s.create p.toPlatform args.stacksize.toNat args.runInScheduler args.useSharedStack := by
  have unknown : s.kind s.created = none := kept.fresh _ (Nat.le_refl _)
  have old : ∀ x, x ≠ s.created → (s.add f).fibers x = s.fibers x := fun x isOld => by simp [Thread.add, isOld]
  have owners : ∀ id, ((s.add f).slots id).owner ≠ some s.created := kept.unowned fun shared => by
    cases unknown.symm.trans shared
  have parents : ∀ x g, x ≠ s.created → (s.add f).fibers x = some g → g.parent ≠ some s.created :=
    fun x g isOld here => kept.unlinked unknown ((old x isOld).symm.trans here)
  have silent : Function.update s.switchedOut s.created none = s.switchedOut :=
    Function.update_eq_self_iff.2 (kept.silent _ unknown).symm
  have state : { (s.add f).expire s.created with
      fibers := Function.update ((s.add f).expire s.created).fibers s.created (some (Fiber.built s.created args))
      switchedOut := Function.update (s.add f).switchedOut s.created none } = s.add (Fiber.built s.created args) := by
    rw [expire_eq owners parents]
    simp only [Thread.add, silent, Function.update_idem]
  unfold construct Thread.create
  simp only [state]
  rw [← args.size_eq]
  rfl

/-! ## Private stacks -/

theorem initFiberContext_private_eq (q : Platform) (here : s.fibers r = some f) (kind : f.useSharedStack = false) :
    s.initFiberContext q r = some { s with
      fibers := Function.update s.fibers r (some (f.withContext ⟨0, r, .entry⟩))
      continuation := Function.update s.continuation r (some r) } := by
  have noSlot : s.slotOf r = none := by simp [slotOf, here, kind]
  simp only [initFiberContext, noSlot, modify, here, Option.map_some]

/-- `reset` undoes everything a run left in a fiber with a private stack. -/
theorem reset_eq_construct (here : s.fibers r = some f) (term : f.state = .term) (alive : f.alive = true)
    (curr : f.curr = false) (kind : f.useSharedStack = false) (slot : f.sharedStackSlot = none) (owner : f.ownerThread = -1)
    (built : f.BuiltWith args) (sized : f.stacksize ≠ 0) (owners : ∀ id, (s.slots id).owner ≠ some r)
    (parents : ∀ x g, x ≠ r → s.fibers x = some g → g.parent ≠ some r) :
    s.reset p.toPlatform r = s.construct p.toPlatform r args := by
  have shared : args.useSharedStack = false := built.shared.symm.trans kind
  have sized' : (Fiber.built r args).stacksize ≠ 0 := fun zero => sized (built.size.trans zero)
  unfold reset construct
  simp only [here]
  rw [if_pos ⟨alive, term⟩, if_neg (by simp [kind]), if_neg (by simp [shared]), if_neg sized', expire_eq owners parents]
  rw [initFiberContext_private_eq p.toPlatform (f := { f with state := .ready, stackSnapshot := [], parent := none, returnToParent := false })
    (by simp [fibers_modify, here]) kind, initFiberContext_private_eq p.toPlatform (Function.update_self ..) shared]
  have same : { f with state := .ready, stackSnapshot := [], parent := none, returnToParent := false }.withContext ⟨0, r, .entry⟩ =
      (Fiber.built r args).withContext ⟨0, r, .entry⟩ := by
    simp only [Fiber.withContext, Fiber.built, built.size, built.run, kind, shared, slot, owner, alive, curr]
  rw [same]
  simp only [modify, Function.update_idem]

/-! ## The thread a fiber is bound to -/

theorem settles_bound (settles : Settles p.toPlatform f) (term : f.state = .term) (kind : f.useSharedStack = true) :
    f.ownerThread = p.tid ∧ Fits p.arch f.stacksize := by
  cases settles with
  | privately isPrivate _ _ _ => cases kind.symm.trans isPrivate
  | unbound _ _ _ _ state _ => cases state.symm.trans term
  | bound _ _ _ _ _ fits owner => exact ⟨owner, fits⟩

/-- The state after the constructor of a shared-stack fiber, which has no slot yet. -/
def rebuilt (s : Thread) (r : Ref) (args : Args) : Thread :=
  { s with
    fibers := Function.update s.fibers r (some (Fiber.built r args))
    slots := (s.expire r).slots
    switchedOut := Function.update s.switchedOut r none }

theorem construct_shared (isOver : Over s r f) (shared : args.useSharedStack = true) :
    s.construct p.toPlatform r args = some (s.rebuilt r args) := by
  have fibers : (s.expire r).fibers = s.fibers := by
    funext x
    simp only [expire]
    cases here : s.fibers x with
    | none => rfl
    | some g => rw [Option.map_some, if_neg (isOver.unlinked x g here)]
  simp only [construct, shared, if_true, fibers]
  rfl

theorem alive_of_fibers {t : Thread} (same : t.fibers x = s.fibers x) : t.alive x = s.alive x := by
  simp only [Thread.alive, same]

theorem owner_expire (apart : x ≠ r) : ((s.expire r).slots id).owner = some x ↔ (s.slots id).owner = some x := by
  simp only [expire]
  split
  · rename_i owned
    simp [owned, apart.symm]
  · rfl

theorem slots_expire (s : Thread) (r : Ref) (id : SlotId) :
    (s.expire r).slots id = { s.slots id with owner := ((s.expire r).slots id).owner } := by
  simp only [expire]
  split <;> rfl

theorem Stacked.owner {arch : Arch} {slot : Slot} {running : Ref} {out : Option (List UInt8)} {o : Option Ref}
    (stacked : Stacked arch slot running out x f) (same : o = some x ↔ slot.owner = some x) :
    Stacked arch { slot with owner := o } running out x f where
  ready := stacked.ready
  room := stacked.room
  zeroed := (Slot.zeroed_owner o).2 stacked.zeroed
  inside := stacked.inside
  kept owned := stacked.kept (same.1 owned)
  saved other := (stacked.saved (other ∘ same.2)).imp_right fun ⟨holds, equal⟩ =>
    ⟨⟨holds.inside, holds.length_eq, holds.zeroed⟩, equal⟩

/-- The constructor keeps what holds of the stacks: nobody else had the slot of the old fiber. -/
theorem Kept.rebuilt (kept : Kept p.toPlatform s) (isOver : Over s r f) (kind : f.useSharedStack = true)
    (shared : args.useSharedStack = true) : Kept p.toPlatform (s.rebuilt r args) := by
  have now : (s.rebuilt r args).fibers r = some (Fiber.built r args) := Function.update_self ..
  have old : ∀ x, x ≠ r → (s.rebuilt r args).fibers x = s.fibers x := fun x apart => Function.update_of_ne apart ..
  have kinds : (s.rebuilt r args).kind = s.kind := by
    funext x
    by_cases isR : x = r
    · subst isR
      simp only [Thread.kind, now, isOver.here, Option.map_some, kind]
      exact congrArg some shared
    · simp only [Thread.kind, old x isR]
  have slotOf : ∀ x, x ≠ r → (s.rebuilt r args).slotOf x = s.slotOf x := fun x apart => by
    simp only [Thread.slotOf, old x apart]
  obtain ⟨notRunning, notCurrent, -, -⟩ := isOver.idle
  refine ⟨⟨fun x g here => ?_, ?_, fun x unknown => ?_, ?_, ?_, fun id x owned => ?_⟩, ?_, ?_, ?_, ?_⟩
  · rw [kinds]
    by_cases isR : x = r
    · subst isR
      cases now.symm.trans here
      have silent : (s.rebuilt x args).switchedOut x = none := Function.update_self ..
      refine ⟨?_, fun _ => rfl, ?_, fun isPrivate => ?_, fun _ => ⟨rfl, silent⟩, fun id _ slot => ?_,
        fun _ _ => ⟨rfl, rfl, silent⟩⟩
      · exact (kind_eq.2 ⟨f, isOver.here, kind⟩).trans (congrArg some shared.symm)
      · rintro q ⟨⟩
      · cases shared.symm.trans isPrivate
      · cases slot
    · have sound := kept.sound x g ((old x isR).symm.trans here)
      have out : (s.rebuilt r args).switchedOut x = s.switchedOut x := Function.update_of_ne isR ..
      rw [out]
      refine ⟨sound.code, sound.own, sound.parent, sound.private_, sound.dead, fun id isShared slot => ?_, sound.unstacked⟩
      have stacked := sound.stacked id isShared slot
      have slots : (s.rebuilt r args).slots id = { s.slots id with owner := ((s.expire r).slots id).owner } :=
        slots_expire s r id
      rw [slots]
      exact stacked.owner (owner_expire isR)
  · rw [kinds]
    exact kept.fresh
  · rw [kinds] at unknown
    have apart : x ≠ r := fun isR => by
      rw [isR, kind_eq.2 ⟨f, isOver.here, rfl⟩] at unknown
      cases unknown
    exact (Function.update_of_ne apart ..).trans (kept.silent x unknown)
  · rw [kinds]
    exact kept.main
  · rw [kinds]
    exact kept.scheduler
  · have apart : x ≠ r := fun isR => by
      subst isR
      simp only [Thread.rebuilt, expire] at owned
      split at owned
      · cases owned
      · rename_i other
        exact other owned
    rw [slotOf x apart]
    exact kept.owners id x ((owner_expire apart).1 owned)
  · rw [kinds]
    exact kept.exists_
  · rw [kinds]
    exact kept.aligned
  · intro running
    rw [kinds] at running
    obtain ⟨id, slot, owned⟩ := kept.holding running
    exact ⟨id, (slotOf _ notRunning.symm).trans slot, (owner_expire notRunning.symm).2 owned⟩
  · intro running
    rw [kinds] at running
    have awake := kept.awake running
    exact (alive_of_fibers (old _ notRunning.symm)).trans awake

theorem Settled.rebuilt (h : Settled p.toPlatform s) (shared : args.useSharedStack = true) :
    Settled p.toPlatform (s.rebuilt r args) := by
  refine ⟨fun x g here => ?_, fun id => ?_⟩
  · by_cases isR : x = r
    · subst isR
      have now : (s.rebuilt x args).fibers x = some (Fiber.built x args) := Function.update_self ..
      cases now.symm.trans here
      exact .unbound shared rfl rfl (.inl rfl) rfl rfl
    · have old : (s.rebuilt r args).fibers x = s.fibers x := Function.update_of_ne isR ..
      exact h.fibers x g (old.symm.trans here)
  · have slots : (s.rebuilt r args).slots id = { s.slots id with owner := ((s.expire r).slots id).owner } :=
      slots_expire s r id
    rw [slots]
    exact h.blocks id

/-- Both are seen as a new fiber. -/
theorem rebuilt_view (isOver : Over s r f) (built : f.BuiltWith args) (kind : f.useSharedStack = true) :
    some (s.rebuilt r args).stackless = View.reset s.stackless r := by
  have shared : args.useSharedStack = true := built.shared.symm.trans kind
  have guard : ((s.stackless.fibers r).any fun f => f.alive ∧ f.state = .term) = true := by
    rw [fibers_stackless isOver.here]
    simp [Fiber.stackless, isOver.alive, isOver.term]
  rw [View.reset, if_pos guard]
  congr 1
  simp only [stackless, rebuilt, entered, modify, Thread.mk.injEq, and_true, true_and]
  refine ⟨?_, ?_⟩
  · funext x
    by_cases isR : x = r
    · subst isR
      simp [isOver.here, Fiber.stackless, Fiber.built, built.size, built.run, built.shared, isOver.alive, isOver.curr]
    · simp only [Function.update_of_ne isR]
  · funext x
    by_cases isR : x = r
    · subst isR
      simp [Thread.unready, Fiber.built]
    · simp only [Thread.unready, Function.update_of_ne isR]
      rfl

/-! ## The two compared -/

theorem reach_runAt {slotCount : Nat} {ls : List Label} (reached : (machine p.toPlatform slotCount).Reach s)
    (done : s.runAt p.toPlatform ls = some m) : (machine p.toPlatform slotCount).Reach m := by
  induction ls generalizing s with
  | nil =>
    cases done
    exact reached
  | cons l rest ih =>
    simp only [runAt, List.foldlM_cons] at done ih
    obtain ⟨t, first, done⟩ := Option.bind_eq_some_iff.1 done
    exact ih (reached.step trivial first) done

/-- What is acquired in a reachable thread survives. -/
theorem survives_of_reach {slotCount : Nat} {o : Option Thread} {ls : List Label}
    (reached : ∀ t, o = some t → (machine p.toPlatform slotCount).Reach t)
    (done : o.bind (runAt p.toPlatform · ls) = some m) : Survives p.toPlatform m := by
  obtain ⟨t, is, done⟩ := Option.bind_eq_some_iff.1 done
  exact contents_survive (reach_runAt (reached t is) done)

/-- On the thread it is bound to, a recycled fiber is like a new one. -/
theorem likeNew_here {slotCount : Nat} (reached : (machine p.toPlatform slotCount).Reach s) (isOver : Over s r f)
    (built : f.BuiltWith args) (kind : f.useSharedStack = true) : LikeNew p s r args := by
  have shared : args.useSharedStack = true := built.shared.symm.trans kind
  have kept := kept_of_reach reached
  have settled := settled_of_reach reached
  refine ⟨fun ls => ?_, fun ls m done => survives_of_reach (fun t is => reached.step trivial (l := .reset r) is) done⟩
  obtain ⟨view, settled'⟩ := reset_agrees (p := p) (r := r) settled
  rw [← rebuilt_view isOver built kind] at view
  obtain ⟨t, is, same⟩ := Option.map_eq_some_iff.1 view
  have hit := (kept.reset is).runAt_view (settled' t is) ls
  have miss := (kept.rebuilt isOver kind shared).runAt_view (settled.rebuilt shared) ls
  rw [is, construct_shared isOver shared, Option.bind_some, Option.bind_some, hit, miss, same]

theorem created_private {q : Platform} {s t : Thread} {stacksize : Nat} {run : Bool} {g : Fiber}
    (made : s.create q stacksize run false = some t) (here : t.fibers s.created = some g) :
    g.useSharedStack = false ∧ g.sharedStackSlot = none ∧ g.ownerThread = -1 ∧ g.stacksize ≠ 0 ∧ g.alive = true ∧
      g.curr = false := by
  simp only [Thread.create, Bool.false_eq_true, if_false] at made
  generalize (if stacksize = 0 then 128000 else stacksize) % 2 ^ 32 = size at made
  by_cases empty : size = 0
  · rw [if_pos empty] at made
    cases made
  · rw [if_neg empty, initFiberContext_private_eq q (Function.update_self ..) rfl] at made
    cases made
    simp only [Function.update_self, Option.some.injEq] at here
    subst here
    exact ⟨rfl, rfl, rfl, empty, rfl, rfl⟩

/-- A private stack is the same everywhere. -/
theorem likeNew_private (ended : Ended p.arch f) (cached : Cached p f s r) (built : f.BuiltWith args)
    (kind : f.useSharedStack = false) : LikeNew p s r args := by
  obtain ⟨term, alive, curr, slot, owner, sized⟩ : f.state = .term ∧ f.alive = true ∧ f.curr = false ∧
      f.sharedStackSlot = none ∧ f.ownerThread = -1 ∧ f.stacksize ≠ 0 := by
    cases ended with
    | shared _ _ _ isShared => cases kind.symm.trans isShared
    | privately made here ctx parent returnToParent =>
      obtain ⟨-, slot, owner, sized, alive, curr⟩ := created_private made here
      exact ⟨rfl, alive, curr, slot, owner, sized⟩
  cases cached with
  | here reached isOver =>
    have kept := kept_of_reach reached
    have unshared : s.kind r ≠ some true := by
      rw [kind_eq.2 ⟨f, isOver.here, kind⟩]
      exact nofun
    have same := reset_eq_construct (p := p) isOver.here term alive curr kind slot owner built sized (kept.unowned unshared)
      fun x g _ => isOver.unlinked x g
    exact ⟨fun ls => by rw [same], fun ls m done =>
      survives_of_reach (fun t is => reached.step trivial (l := .reset r) is) done⟩
  | @elsewhere _ s reached _ =>
    have kept := kept_of_reach reached
    have unknown : s.kind s.created = none := kept.fresh _ (Nat.le_refl _)
    have shared : args.useSharedStack = false := built.shared.symm.trans kind
    have same : (s.add f.abroad).reset p.toPlatform s.created =
        s.create p.toPlatform args.stacksize.toNat args.runInScheduler args.useSharedStack := by
      rw [← kept.construct_created f.abroad args]
      refine reset_eq_construct (f := f.abroad) (Function.update_self ..) term alive curr kind rfl owner
        ⟨built.size, built.run, built.shared⟩ sized (kept.unowned fun isShared => ?_) fun x g isOld here => ?_
      · cases unknown.symm.trans isShared
      · exact kept.unlinked unknown ((by simp [Thread.add, isOld] : (s.add f.abroad).fibers x = s.fibers x).symm.trans here)
    refine ⟨fun ls => by rw [same, kept.construct_created], fun ls m done => ?_⟩
    rw [same] at done
    exact survives_of_reach (fun t is => reached.step trivial (l := .create _ _ _) is) done

/-- On another thread than its own a fiber is not resumed. -/
theorem resume_other {sp marker : Nat} (here : s.fibers r = some f) (kind : f.useSharedStack = true)
    (bound : f.ownerThread ≠ -1) (other : f.ownerThread ≠ p.tid) : s.resume p.toPlatform r sp marker = none := by
  have refused : s.prepare p.toPlatform r marker = none := by
    rw [prepare, if_pos (isShared_kind.2 (kind_eq.2 ⟨f, here, kind⟩)), prepareSharedStack, bindThread]
    simp only [here]
    rw [if_neg bound, if_neg other]
    rfl
  simp only [resume, here, refused, Option.bind_none, ite_self]

/-- A new fiber is resumed by the thread's main fiber. -/
theorem resume_built (fits : Fits p.arch args.size) : View.resume p.arch
    ((machine p.toPlatform 1).init.add (Fiber.built 1 args)).stackless 1 0 ≠ none := by
  have prepared : View.prepare p.arch ((machine p.toPlatform 1).init.add (Fiber.built 1 args)).stackless 1 =
      some ((machine p.toPlatform 1).init.add (Fiber.built 1 args)).stackless :=
    if_pos (by simp [stackless, Thread.add, machine, Fiber.stackless, Fiber.built, fits])
  have here : ((machine p.toPlatform 1).init.add (Fiber.built 1 args)).stackless.fibers 1 =
      some ((Fiber.built 1 args).stackless 1) := rfl
  simp only [View.resume, here, prepared, Option.bind_some]
  rw [if_pos ⟨rfl, rfl, .inl rfl⟩]
  have base : (Thread.base ((machine p.toPlatform 1).init.add (Fiber.built 1 args)).stackless
      ((Fiber.built 1 args).stackless 1)) = 0 := by
    unfold Thread.base
    split <;> rfl
  have inside (o : Option Fiber) : (o.all fun f => f.useSharedStack → 0 ≤ depth p.arch f.stacksize) = true := by
    cases o <;> simp
  rw [base, View.swap, if_pos (inside _)]
  exact Option.some_ne_none _

theorem reset_abroad (here : s.fibers r = some f) (term : f.state = .term) (alive : f.alive = true)
    (kind : f.useSharedStack = true) (slot : f.sharedStackSlot = none) : ∃ t g, s.reset p.toPlatform r = some t ∧
      t.fibers r = some g ∧ g.useSharedStack = true ∧ g.ownerThread = f.ownerThread := by
  simp only [reset, here]
  rw [if_pos ⟨alive, term⟩, if_pos ⟨kind, slot⟩]
  refine ⟨_, { f with state := .ready, stackSnapshot := [], parent := none, returnToParent := false, ctxInitialized := false },
    rfl, ?_, kind, rfl⟩
  simp only [fibers_modify, if_true, here, Option.map_some]

/-- Elsewhere the first `resume` fails the assertion on `m_ownerThread`. -/
theorem reset_refused (here : s.fibers r = some f) (term : f.state = .term) (alive : f.alive = true)
    (kind : f.useSharedStack = true) (slot : f.sharedStackSlot = none) (bound : f.ownerThread ≠ -1)
    (other : f.ownerThread ≠ p.tid) : (s.reset p.toPlatform r).bind (runAt p.toPlatform · [.resume r 0 0]) = none := by
  obtain ⟨t, g, reset, here', kind', owner⟩ := reset_abroad (p := p) here term alive kind slot
  rw [← owner] at bound other
  rw [reset, Option.bind_some]
  simp only [runAt, List.foldlM_cons, stepAt, place, Thread.step, resume_other here' kind' bound other]
  rfl

/-- A new fiber of the same arguments is resumed. -/
theorem construct_resumes (fits : Fits p.arch args.size) (shared : args.useSharedStack = true) (f : Fiber) :
    (((machine p.toPlatform 1).init.add f).construct p.toPlatform 1 args).bind
      (runAt p.toPlatform · [.resume 1 0 0]) ≠ none := by
  have reached : (machine p.toPlatform 1).Reach (machine p.toPlatform 1).init := .init
  have created : (machine p.toPlatform 1).init.create p.toPlatform args.stacksize.toNat args.runInScheduler true =
      some ((machine p.toPlatform 1).init.add (Fiber.built 1 args)) := by
    simp only [Thread.create, if_true, ← args.size_eq, Fiber.built, shared]
    rfl
  have constructed : ((machine p.toPlatform 1).init.add f).construct p.toPlatform 1 args =
      some ((machine p.toPlatform 1).init.add (Fiber.built 1 args)) := by
    have same := (kept_of_reach reached).construct_created f args
    rw [shared, created] at same
    exact same
  have next := reached.next (.create args.stacksize.toNat args.runInScheduler true) trivial created
  have seen := (kept_of_reach next).runAt_view (settled_of_reach next) [.resume 1 0 0]
  rw [constructed, Option.bind_some]
  intro refused
  rw [refused, Option.map_none] at seen
  have resumed : View.resume p.arch ((machine p.toPlatform 1).init.add (Fiber.built 1 args)).stackless 1 0 ≠ none :=
    resume_built fits
  exact resumed (by simpa [View.run, View.step] using seen.symm)

theorem ended_shared (ended : Ended p.arch f) (kind : f.useSharedStack = true) :
    f.state = .term ∧ f.alive = true ∧ f.ownerThread ≠ -1 ∧ Fits p.arch f.stacksize := by
  cases ended with
  | @shared q _ s r _ same reached isOver _ =>
    obtain ⟨owner, fits⟩ := settles_bound ((settled_of_reach reached).fibers r f isOver.here) isOver.term kind
    have positive := q.tid_pos
    exact ⟨isOver.term, isOver.alive, by omega, same ▸ fits⟩
  | privately made here => cases kind.symm.trans (created_private made here).1

theorem not_likeNew_elsewhere (ended : Ended p.arch f) (built : f.BuiltWith args) (kind : f.useSharedStack = true)
    (other : f.ownerThread ≠ p.tid) : ∃ s r, Cached p f s r ∧ ¬ LikeNew p s r args := by
  obtain ⟨term, alive, bound, fits⟩ := ended_shared ended kind
  rw [built.size] at fits
  have reached : (machine p.toPlatform 1).Reach (machine p.toPlatform 1).init := .init
  refine ⟨_, _, .elsewhere reached fun _ => other, fun like => ?_⟩
  have refused := reset_refused (p := p) (s := (machine p.toPlatform 1).init.add f.abroad) (r := 1) (f := f.abroad)
    rfl term alive kind rfl bound other
  have resumed := construct_resumes fits (built.shared.symm.trans kind) f.abroad
  have alike := like.alike [.resume 1 0 0]
  refine resumed (Option.map_eq_none_iff.1 (alike.symm.trans ?_))
  exact Option.map_eq_none_iff.2 refused

/-- **Main theorem.** A fiber from the pool is like a new one, on every thread that acquires it with
the same key, just where its stack is private or the thread is the one it is bound to. -/
theorem recycled_like_new (p : Host) {f : Fiber} (args : Args) (built : f.BuiltWith args) (ended : Ended p.arch f) :
    (∀ s r args', Cached p f s r → args'.key = args.key → LikeNew p s r args') ↔
      f.useSharedStack = false ∨ f.ownerThread = p.tid := by
  constructor
  · intro alike
    by_contra neither
    obtain ⟨shared, other⟩ := not_or.1 neither
    obtain ⟨s, r, cached, different⟩ := not_likeNew_elsewhere ended built (Bool.eq_true_of_not_eq_false shared) other
    exact different (alike s r args cached rfl)
  · intro either s r args' cached same
    have built' := built.of_key same
    by_cases kind : f.useSharedStack = true
    · have mine : f.ownerThread = p.tid := either.resolve_left fun isPrivate => by cases kind.symm.trans isPrivate
      cases cached with
      | here reached isOver => exact likeNew_here reached isOver built' kind
      | elsewhere _ other => exact absurd mine (other kind)
    · exact likeNew_private ended cached built' (Bool.eq_false_of_not_eq_true kind)

/-! ## A fiber on its thread, and on another -/

theorem length_host (id : SlotId) : Slot.size { stack := 4096, bytes := List.replicate id.size 0 } = id.size :=
  List.length_replicate

def host (tid : Int) (tid_pos : 0 < tid) : Host where
  arch := .x86_64
  tid := tid
  block id := { stack := 4096, bytes := List.replicate id.size 0 }
  block_size := length_host
  block_unowned _ := rfl
  tid_pos := tid_pos
  aligned _ := by simp [kFiberContextStackAlignment]
  nonnull _ := nofun

def seven : Host := host 7 (by decide)

def eight : Host := host 8 (by decide)

def sharedArgs : Args where
  stacksize := 16384#64
  runInScheduler := false
  useSharedStack := true

/-- A fiber of these arguments runs on thread 7 to its end. -/
def finishes : List Label := [.create 16384 false true, .resume 1 0 0, .finish 20472 0]

def finishedOn (tid : Int) (n : Nesting) : Bool :=
  (n.thread.fibers 1).any (fun f => f.state = .term ∧ f.alive ∧ f.curr = false ∧ f.stacksize = sharedArgs.size ∧
    f.runInScheduler = false ∧ f.useSharedStack ∧ f.ownerThread = tid) && n.thread.tSchedulerFiber ≠ 1

theorem ended_on_seven : ∃ f, f.BuiltWith sharedArgs ∧ Ended .x86_64 f ∧ f.useSharedStack = true ∧ f.ownerThread = 7 := by
  obtain ⟨n, ran, finished⟩ := Machine.reachIf_of_any (M := nesting seven.toPlatform 1) (p := finishedOn 7)
    (by decide +kernel : (((nesting seven.toPlatform 1).execIf Proper _ finishes).any (finishedOn 7)) = true)
  simp only [finishedOn, Bool.and_eq_true, Option.any_eq_true, decide_eq_true_eq] at finished
  obtain ⟨⟨f, here, term, alive, curr, size, run, shared, owner⟩, notScheduler⟩ := finished
  have isOver := (nested_of_reach ran).isOver here term alive curr notScheduler.symm
  exact ⟨f, ⟨size, run, shared⟩, .shared rfl (thread_reach ran) isOver shared, shared, owner⟩

/-- Back on thread 7 it is like a new one. -/
theorem recycled_like_new_seven : ∃ f, Ended .x86_64 f ∧ f.useSharedStack = true ∧ ∀ s r args',
    Cached seven f s r → args'.key = sharedArgs.key → LikeNew seven s r args' := by
  obtain ⟨f, built, ended, shared, owner⟩ := ended_on_seven
  exact ⟨f, ended, shared, (recycled_like_new seven sharedArgs built ended).2 (.inr owner)⟩

/-- Thread 8 acquires it with the same key, and may not resume it. -/
theorem not_resumed_on_eight : ∃ f, f.BuiltWith sharedArgs ∧ Ended .x86_64 f ∧
    ¬ ∀ s r args', Cached eight f s r → args'.key = sharedArgs.key → LikeNew eight s r args' := by
  obtain ⟨f, built, ended, shared, owner⟩ := ended_on_seven
  have other : f.ownerThread ≠ eight.tid := by
    rw [owner]
    decide
  obtain ⟨s, r, cached, different⟩ := not_likeNew_elsewhere (p := eight) ended built shared other
  exact ⟨f, built, ended, fun alike => different (alike s r sharedArgs cached rfl)⟩

end Thread

end Mycoroutine
