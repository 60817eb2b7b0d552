import Mycoroutine.Fiber.Thread

/-!
# Where a shared stack's contents are

The save is lazy: a fiber's live bytes stay in the slot until another fiber
takes it. The invariant says where they are: in the slot for its owner, in
`stackSnapshot` for everyone else. It rests on two facts: `prepareSharedStack`
only runs on private stacks, and every fiber keeps a slot's entry word zero, so
the initial write of another fiber's context changes nothing.
-/

namespace Mycoroutine.Thread
set_option autoImplicit false
open Interleave

variable {p : Platform} {s s' : Thread} {r x : Ref} {f : Fiber} {id : SlotId}

/-! ## The invariant -/

/-- Whether a fiber has a shared stack, once it exists. -/
def kind (s : Thread) (x : Ref) : Option Bool := (s.fibers x).map (·.useSharedStack)

/-- Where the live bytes of a shared-stack fiber are, `out` being those at its
last switch-out: in its slot, or in its snapshot. -/
structure Stacked (arch : Arch) (slot : Slot) (running : Ref) (out : Option (List UInt8)) (x : Ref) (f : Fiber) :
    Prop where
  ready : f.ctxInitialized = true
  room : slot.Room arch
  zeroed : slot.Zeroed arch
  inside : slot.Inside arch f.ctx.sp
  kept : slot.owner = some x → x ≠ running → ∀ b, out = some b → slot.above f.ctx.sp = b
  saved : slot.owner ≠ some x →
    f.stackSnapshot = [] ∧ out = none ∨
      slot.Holds arch f.ctx.sp f.stackSnapshot ∧ ∀ b, out = some b → f.stackSnapshot = b

/-- A shared-stack fiber without a slot has not run. -/
structure Unstacked (out : Option (List UInt8)) (f : Fiber) : Prop where
  unready : f.ctxInitialized = false
  empty : f.stackSnapshot = []
  never : out = none

structure Sound (arch : Arch) (kind : Ref → Option Bool) (slots : SlotId → Slot) (running : Ref)
    (out : Option (List UInt8)) (x : Ref) (f : Fiber) : Prop where
  code : kind f.ctx.code = some f.useSharedStack
  own : f.useSharedStack = true → f.ctx.code = x
  parent : ∀ q, f.parent = some q → kind q = some false ∨ kind q = some true ∧ f.useSharedStack = false
  private_ : f.useSharedStack = false → out = none
  dead : f.alive = false → f.stackSnapshot = [] ∧ out = none
  stacked : ∀ id, f.useSharedStack = true → f.sharedStackSlot = some id → Stacked arch (slots id) running out x f
  unstacked : f.useSharedStack = true → f.sharedStackSlot = none → Unstacked out f

/-- What holds of the fibers and the slots, also in the middle of a switch. -/
structure Stored (p : Platform) (s : Thread) : Prop where
  sound : ∀ x f, s.fibers x = some f → Sound p.arch s.kind s.slots s.running (s.switchedOut x) x f
  fresh : ∀ x, s.created ≤ x → s.kind x = none
  silent : ∀ x, s.kind x = none → s.switchedOut x = none
  main : s.kind tThreadFiber = some false
  scheduler : s.kind s.tSchedulerFiber = some false
  owners : ∀ id x, (s.slots id).owner = some x → s.slotOf x = some id

/-- A fiber with a shared stack owns its slot. -/
def Holding (s : Thread) (x : Ref) : Prop :=
  s.kind x = some true → ∃ id, s.slotOf x = some id ∧ (s.slots id).owner = some x

/-- What also holds between the steps: `t_fiber` is exact unless two private
stacks are involved, and a running shared-stack fiber owns its slot. -/
structure Kept (p : Platform) (s : Thread) : Prop extends Stored p s where
  exists_ : s.kind s.running ≠ none ∧ s.kind s.tFiber ≠ none
  aligned : s.kind s.running = some true ∨ s.kind s.tFiber = some true → s.tFiber = s.running
  holding : s.Holding s.running
  awake : s.kind s.running = some true → s.alive s.running = true

theorem kept_init (slotCount : Nat) : Kept p (machine p slotCount).init := by
  refine ⟨⟨?_, ?_, ?_, ?_, ?_, ?_⟩, ?_, ?_, ?_, ?_⟩
  · intro x f here
    have same : x = tThreadFiber := by
      by_contra apart
      simp [machine, apart] at here
    subst same
    simp [machine] at here
    subst here
    constructor <;> simp [machine, kind]
  · intro x beyond
    have apart : x ≠ tThreadFiber := Nat.one_le_iff_ne_zero.1 beyond
    simp [machine, kind, apart]
  all_goals simp [machine, kind, p.block_unowned, Holding]

/-! ## Lookups -/

theorem kind_eq {k : Bool} : s.kind x = some k ↔ ∃ f, s.fibers x = some f ∧ f.useSharedStack = k := by
  simp [kind]

theorem isShared_kind : s.isShared x = true ↔ s.kind x = some true := by
  simp [isShared, kind_eq, Option.any_eq_true]

theorem slotOf_eq :
    s.slotOf x = some id ↔ ∃ f, s.fibers x = some f ∧ f.useSharedStack = true ∧ f.sharedStackSlot = some id := by
  simp [slotOf, Option.bind_eq_some_iff]

theorem fibers_modify (change : Fiber → Fiber) :
    (s.modify r change).fibers x = if x = r then (s.fibers x).map change else s.fibers x := by
  by_cases same : x = r
  · simp [modify, same]
  · simp [modify, same]

theorem modify_modify (first second : Fiber → Fiber) :
    (s.modify r first).modify r second = s.modify r (second ∘ first) := by
  simp [modify, Option.map_map]

theorem modify_modifySlot (change : Fiber → Fiber) (changeSlot : Slot → Slot) :
    (s.modify r change).modifySlot id changeSlot = (s.modifySlot id changeSlot).modify r change := rfl

theorem kind_modify {change : Fiber → Fiber} (same : ∀ f, (change f).useSharedStack = f.useSharedStack) :
    (s.modify r change).kind = s.kind := by
  funext x
  simp only [kind, fibers_modify]
  split
  · simp [Function.comp_def, same]
  · rfl

theorem alive_modify {change : Fiber → Fiber} (same : ∀ f, (change f).alive = f.alive) :
    (s.modify r change).alive = s.alive := by
  funext x
  simp only [alive, fibers_modify]
  split
  · cases s.fibers x <;> simp [same]
  · rfl

theorem slotOf_modify {change : Fiber → Fiber} (same : ∀ f, (change f).useSharedStack = f.useSharedStack)
    (slot : ∀ f, (change f).sharedStackSlot = f.sharedStackSlot) : (s.modify r change).slotOf = s.slotOf := by
  funext x
  simp only [slotOf, fibers_modify]
  split
  · cases s.fibers x <;> simp [same, slot]
  · rfl

/-! ## Changes the invariant does not see -/

/-- A change of the fields the invariant does not read, or of the parent. -/
structure Quiet (change : Fiber → Fiber) : Prop where
  shared : ∀ f, (change f).useSharedStack = f.useSharedStack := by intro f; rfl
  ctx : ∀ f, (change f).ctx = f.ctx := by intro f; rfl
  ready : ∀ f, (change f).ctxInitialized = f.ctxInitialized := by intro f; rfl
  slot : ∀ f, (change f).sharedStackSlot = f.sharedStackSlot := by intro f; rfl
  snapshot : ∀ f, (change f).stackSnapshot = f.stackSnapshot := by intro f; rfl
  alive : ∀ f, (change f).alive = f.alive := by intro f; rfl

theorem Stored.quiet (h : Stored p s) {change : Fiber → Fiber} (quiet : Quiet change)
    (parent : ∀ f, s.fibers r = some f → ∀ q, (change f).parent = some q →
      f.parent = some q ∨ s.kind q = some false ∨ s.kind q = some true ∧ f.useSharedStack = false) :
    Stored p (s.modify r change) := by
  have kinds := kind_modify (s := s) (r := r) quiet.shared
  have slots := slotOf_modify (s := s) (r := r) quiet.shared quiet.slot
  obtain ⟨sound, fresh, silent, main, scheduler, owners⟩ := h
  constructor
  case sound =>
    intro x f here
    rw [kinds]
    rw [fibers_modify] at here
    split at here
    · rename_i same
      obtain ⟨f, old, rfl⟩ := Option.map_eq_some_iff.1 here
      obtain ⟨code, own, parents, private_, dead, stacked, unstacked⟩ := sound x f old
      constructor
      · rw [quiet.ctx, quiet.shared]
        exact code
      · rw [quiet.ctx, quiet.shared]
        exact own
      · intro q hq
        rw [quiet.shared]
        exact (parent f (same ▸ old) q hq).elim (parents q) id
      · rw [quiet.shared]
        exact private_
      · rw [quiet.alive, quiet.snapshot]
        exact dead
      · intro id shared slot
        obtain ⟨ready, room, zeroed, inside, kept, saved⟩ :=
          stacked id (quiet.shared f ▸ shared) (quiet.slot f ▸ slot)
        refine ⟨(quiet.ready f).trans ready, room, zeroed, ?_, ?_, ?_⟩
        · rwa [quiet.ctx]
        · rwa [quiet.ctx]
        · rwa [quiet.ctx, quiet.snapshot]
      · intro shared slot
        obtain ⟨unready, empty, never⟩ := unstacked (quiet.shared f ▸ shared) (quiet.slot f ▸ slot)
        exact ⟨(quiet.ready f).trans unready, (quiet.snapshot f).trans empty, never⟩
    · exact sound x f here
  all_goals simp only [kinds, slots]
  all_goals assumption

/-- A private fiber's context may change, as long as private code stays in it. -/
theorem Stored.private_ctx (h : Stored p s) (privately : s.kind r = some false) {change : Fiber → Fiber}
    (shared : ∀ f, (change f).useSharedStack = f.useSharedStack) (parent : ∀ f, (change f).parent = f.parent)
    (slot : ∀ f, (change f).sharedStackSlot = f.sharedStackSlot)
    (snapshot : ∀ f, (change f).stackSnapshot = f.stackSnapshot) (alive : ∀ f, (change f).alive = f.alive)
    (code : ∀ f, s.kind (change f).ctx.code = some false) : Stored p (s.modify r change) := by
  have kinds := kind_modify (s := s) (r := r) shared
  have slots := slotOf_modify (s := s) (r := r) shared slot
  obtain ⟨sound, fresh, silent, main, scheduler, owners⟩ := h
  constructor
  case sound =>
    intro x f here
    rw [kinds]
    rw [fibers_modify] at here
    split at here
    · rename_i same
      obtain ⟨f, old, rfl⟩ := Option.map_eq_some_iff.1 here
      have isPrivate : f.useSharedStack = false := by simpa [kind, ← same, old] using privately
      obtain ⟨-, -, parents, private_, dead, -, -⟩ := sound x f old
      refine ⟨?_, ?_, ?_, ?_, ?_, ?_, ?_⟩ <;> simp only [shared, isPrivate, alive, snapshot, parent]
      · exact code f
      · exact nofun
      · simpa only [isPrivate] using parents
      · exact fun _ => private_ isPrivate
      · exact dead
      · exact nofun
      · exact nofun
    · exact sound x f here
  all_goals simp only [kinds, slots]
  all_goals assumption

/-! ## Entering a slot -/

/-- `InitFiberContextStack` changes nothing in a slot some fiber has used. -/
theorem Stored.initStack_used (h : Stored p s) (here : s.fibers x = some f) (shared : f.useSharedStack = true)
    (slot : f.sharedStackSlot = some id) : (s.modifySlot id (·.initStack p.arch)).slots = s.slots := by
  have zeroed := ((h.sound x f here).stacked id shared slot).zeroed
  simp [modifySlot, Slot.initStack_zeroed zeroed]

/-- The first context of a shared-stack fiber in its slot. -/
theorem Stored.enter (h : Stored p s) (here : s.fibers r = some f) (shared : f.useSharedStack = true)
    (slot : f.sharedStackSlot = none ∨ f.sharedStackSlot = some id) (fresh : s.switchedOut r = none)
    (empty : f.stackSnapshot = []) (room : (s.slots id).Room p.arch) (change : Fiber → Fiber)
    (same : ∀ g, (change g).useSharedStack = g.useSharedStack) (entered : (change f).sharedStackSlot = some id)
    (context : (change f).ctx = ⟨(s.slots id).entry p.arch, r, .entry⟩) (ready : (change f).ctxInitialized = true)
    (parent : (change f).parent = f.parent) (snapshot : (change f).stackSnapshot = f.stackSnapshot) :
    Stored p ((s.modifySlot id (·.initStack p.arch)).modify r change) := by
  have kinds : ((s.modifySlot id (·.initStack p.arch)).modify r change).kind = s.kind := kind_modify same
  have word := room.entry_word
  have sameBlock := Slot.same_initStack room
  have rKind : s.kind r = some true := kind_eq.2 ⟨f, here, shared⟩
  constructor
  case sound =>
    intro x g hg
    rw [kinds]
    rw [fibers_modify] at hg
    split at hg
    · rename_i isR
      subst isR
      obtain ⟨g, old, rfl⟩ := Option.map_eq_some_iff.1 hg
      cases here.symm.trans old
      constructor
      · rw [context, same, shared]
        exact rKind
      · intro _
        rw [context]
      · rw [parent, same]
        exact (h.sound x f here).parent
      · intro notShared
        rw [same, shared] at notShared
        cases notShared
      · exact fun _ => ⟨snapshot.trans empty, fresh⟩
      · intro id' _ slot'
        cases entered.symm.trans slot'
        refine ⟨ready, ?_, ?_, ?_, ?_, ?_⟩
        · simpa [slots_modifySlot] using room.same sameBlock
        · simpa [slots_modifySlot] using Slot.zeroed_initStack room
        · rw [context]
          simpa [slots_modifySlot] using Slot.Inside.same ⟨word.1, Nat.le_refl _⟩ sameBlock
        · intro _ _ b out
          have := fresh.symm.trans out
          cases this
        · intro _
          exact .inl ⟨snapshot.trans empty, fresh⟩
      · intro _ none'
        rw [entered] at none'
        cases none'
    · -- another fiber: its slot is `id` only if the entry word was already zero
      have sound := h.sound x g hg
      refine ⟨sound.code, sound.own, sound.parent, sound.private_, sound.dead, ?_, sound.unstacked⟩
      intro id' shared' slot'
      have stacked := sound.stacked id' shared' slot'
      by_cases sameSlot : id' = id
      · subst sameSlot
        simpa [h.initStack_used hg shared' slot'] using stacked
      · simpa [slots_modifySlot, sameSlot] using stacked
  case owners =>
    intro id' x owner
    have owner' : (s.slots id').owner = some x := by
      by_cases sameSlot : id' = id
      · subst sameSlot
        simpa [slots_modifySlot, Slot.initStack] using owner
      · simpa [slots_modifySlot, sameSlot] using owner
    have before := h.owners id' x owner'
    rw [slotOf_eq] at before ⊢
    obtain ⟨g, hg, shared', slot'⟩ := before
    rw [fibers_modify]
    split
    · rename_i isR
      subst isR
      cases here.symm.trans hg
      refine ⟨change f, by simp [hg], by rw [same, shared'], ?_⟩
      rcases slot with noSlot | hasSlot
      · rw [noSlot] at slot'
        cases slot'
      · exact entered.trans (hasSlot.symm.trans slot')
    · exact ⟨g, hg, shared', slot'⟩
  case fresh =>
    rw [kinds]
    exact h.fresh
  case silent =>
    rw [kinds]
    exact h.silent
  case main =>
    rw [kinds]
    exact h.main
  case scheduler =>
    rw [kinds]
    exact h.scheduler

/-! ## Taking a slot -/

/-- The bytes of a fiber that does not own its slot are in its snapshot. -/
def Saved (arch : Arch) (slot : Slot) (out : Option (List UInt8)) (f : Fiber) : Prop :=
  f.stackSnapshot = [] ∧ out = none ∨
    slot.Holds arch f.ctx.sp f.stackSnapshot ∧ ∀ b, out = some b → f.stackSnapshot = b

theorem Saved.same {arch : Arch} {slot slot' : Slot} {out : Option (List UInt8)} (h : Saved arch slot out f)
    (same : slot.Same slot') : Saved arch slot' out f :=
  h.imp_right fun ⟨holds, equal⟩ => ⟨holds.same same, equal⟩

/-- `restoreSharedStackSnapshot`, then the new owner. -/
def givenTo (slot : Slot) (r : Ref) (f : Fiber) : Slot := { slot.restore f.stackSnapshot with owner := some r }

section Given

variable {slot : Slot} {out : Option (List UInt8)}

theorem same_givenTo {arch : Arch} (saved : Saved arch slot out f) : slot.Same (givenTo slot r f) := by
  rcases saved with ⟨empty, -⟩ | ⟨holds, -⟩
  · simp [givenTo, empty, Slot.restore_nil, Slot.Same, Slot.size]
  · exact Slot.same_restore holds.length_le

theorem zeroed_givenTo {arch : Arch} (room : slot.Room arch) (zeroed : slot.Zeroed arch)
    (saved : Saved arch slot out f) : (givenTo slot r f).Zeroed arch := by
  rw [givenTo, Slot.zeroed_owner]
  rcases saved with ⟨empty, -⟩ | ⟨holds, -⟩
  · rwa [empty, Slot.restore_nil]
  · exact Slot.zeroed_restore room holds

theorem above_givenTo {arch : Arch} {b : List UInt8} (room : slot.Room arch) (saved : Saved arch slot out f)
    (left : out = some b) : (givenTo slot r f).above f.ctx.sp = b := by
  rcases saved with ⟨-, none'⟩ | ⟨holds, equal⟩
  · rw [none'] at left
    cases left
  · rw [← equal b left]
    exact Slot.above_restore room holds

end Given

/-- A slot changes hands, its previous owner having been saved. -/
theorem Stored.give (h : Stored p s) (here : s.fibers r = some f) (shared : f.useSharedStack = true)
    (slot : f.sharedStackSlot = some id) (other : (s.slots id).owner ≠ some r)
    (evicted : ∀ o fo, (s.slots id).owner = some o → s.fibers o = some fo →
      Saved p.arch (s.slots id) (s.switchedOut o) fo) :
    Stored p (s.modifySlot id (givenTo · r f)) := by
  have mine := (h.sound r f here).stacked id shared slot
  have sameBlock : (s.slots id).Same (givenTo (s.slots id) r f) := same_givenTo (mine.saved other)
  have zeroed : (givenTo (s.slots id) r f).Zeroed p.arch := zeroed_givenTo mine.room mine.zeroed (mine.saved other)
  refine ⟨?_, h.fresh, h.silent, h.main, h.scheduler, ?_⟩
  · intro x g hg
    have sound := h.sound x g hg
    refine ⟨sound.code, sound.own, sound.parent, sound.private_, sound.dead, ?_, sound.unstacked⟩
    intro id' shared' slot'
    have stacked := sound.stacked id' shared' slot'
    rw [slots_modifySlot]
    split
    · rename_i sameSlot
      subst sameSlot
      refine ⟨stacked.ready, stacked.room.same sameBlock, zeroed, stacked.inside.same sameBlock, ?_, ?_⟩
      · intro owner _ b left
        have isR : r = x := Option.some.inj owner
        subst isR
        cases here.symm.trans hg
        exact above_givenTo mine.room (mine.saved other) left
      · intro notOwner
        refine Saved.same ?_ sameBlock
        by_cases owned : (s.slots id').owner = some x
        · exact evicted x g owned hg
        · exact stacked.saved owned
    · exact stacked
  · intro id' x owner
    rw [slots_modifySlot] at owner
    split at owner
    · rename_i sameSlot
      have isR : r = x := Option.some.inj owner
      subst sameSlot isR
      exact slotOf_eq.2 ⟨f, here, shared, slot⟩
    · exact h.owners id' x owner

/-- `saveSharedStackSnapshot` on the owner of a slot. -/
theorem Stored.evict (h : Stored p s) {o : Ref} {fo : Fiber} (here : s.fibers o = some fo)
    (owned : (s.slots id).owner = some o) (alive : fo.alive = true) (image : List UInt8) :
    Stored p (s.modify o (·.withSnapshot image)) := by
  have kinds : (s.modify o (·.withSnapshot image)).kind = s.kind := kind_modify fun _ => rfl
  have slots : (s.modify o (·.withSnapshot image)).slotOf = s.slotOf :=
    slotOf_modify (fun _ => rfl) fun _ => rfl
  obtain ⟨fo', here', shared, slot⟩ := slotOf_eq.1 (h.owners id o owned)
  cases here.symm.trans here'
  refine ⟨?_, by rw [kinds]; exact h.fresh, by rw [kinds]; exact h.silent, by rw [kinds]; exact h.main,
    by rw [kinds]; exact h.scheduler, by rw [slots]; exact h.owners⟩
  intro x g hg
  rw [kinds]
  rw [fibers_modify] at hg
  split at hg
  · rename_i isO
    subst isO
    obtain ⟨g, old, rfl⟩ := Option.map_eq_some_iff.1 hg
    cases here.symm.trans old
    have sound := h.sound x fo here
    refine ⟨sound.code, sound.own, sound.parent, sound.private_, ?_, ?_, ?_⟩
    · intro isDead
      cases alive.symm.trans isDead
    · intro id' shared' slot'
      cases slot.symm.trans slot'
      have stacked := sound.stacked id shared slot
      exact ⟨stacked.ready, stacked.room, stacked.zeroed, stacked.inside, stacked.kept, fun other => absurd owned other⟩
    · intro _ noSlot
      cases slot.symm.trans noSlot
  · exact h.sound x g hg

/-- What `prepareSharedStack` leaves alone. -/
structure Steady (s s' : Thread) : Prop where
  kind : s'.kind = s.kind
  running : s'.running = s.running
  tFiber : s'.tFiber = s.tFiber
  tSchedulerFiber : s'.tSchedulerFiber = s.tSchedulerFiber
  alive : s'.alive = s.alive
  switchedOut : s'.switchedOut = s.switchedOut

theorem Steady.refl (s : Thread) : Steady s s := ⟨rfl, rfl, rfl, rfl, rfl, rfl⟩

theorem Steady.trans {s s' s'' : Thread} (first : Steady s s') (second : Steady s' s'') : Steady s s'' :=
  ⟨second.kind.trans first.kind, second.running.trans first.running, second.tFiber.trans first.tFiber,
    second.tSchedulerFiber.trans first.tSchedulerFiber, second.alive.trans first.alive,
    second.switchedOut.trans first.switchedOut⟩

theorem restore_give {s s' : Thread} (here : s.fibers r = some f) (slot : s.slotOf r = some id)
    (done : (s.restoreSharedStackSnapshot r).map (·.modifySlot id ({ · with owner := some r })) = some s') :
    s' = s.modifySlot id (givenTo · r f) := by
  simp only [restoreSharedStackSnapshot, here, slot] at done
  split at done
  · rename_i empty
    cases done
    simp [givenTo, List.isEmpty_iff.1 empty, Slot.restore_nil]
  · split at done
    · cases done
      simp [modifySlot, givenTo]
    · cases done

theorem Stored.takeSlot (h : Stored p s) {marker : Nat} (privately : s.kind s.running = some false)
    (current : s.kind s.tFiber = some false) (alive : s.alive r = true) (done : s.takeSlot r marker = some s') : Stored p s' ∧ Steady s s' ∧ s'.Holding r := by
  unfold Thread.takeSlot at done
  split at done
  · cases done
  rename_i id slot
  obtain ⟨f, here, shared, fslot⟩ := slotOf_eq.1 slot
  have given : ∀ m : Thread, (m.slotOf r = some id) → (m.modifySlot id (givenTo · r f)).Holding r :=
    fun m hm _ => ⟨id, hm, by simp [slots_modifySlot, givenTo]⟩
  split at done
  · -- no owner is left: a destroyed owner has no bytes to save
    rename_i noOwner
    cases restore_give here slot done
    refine ⟨h.give here shared fslot ?_ ?_, ⟨rfl, rfl, rfl, rfl, rfl, rfl⟩, given s slot⟩
    · intro owned
      simp [lockOwner, owned, alive] at noOwner
    · intro o fo owned hfo
      have isDead : fo.alive = false := by simpa [lockOwner, owned, Thread.alive, hfo] using noOwner
      exact .inl ((h.sound o fo hfo).dead isDead)
  · rename_i o owner
    obtain ⟨owned, oAlive⟩ := Option.filter_eq_some_iff.1 owner
    split at done
    · rename_i same
      subst same
      cases done
      exact ⟨h, .refl s, fun _ => ⟨id, slot, owned⟩⟩
    · rename_i other
      obtain ⟨fo, hfo, oShared, oSlot⟩ := slotOf_eq.1 (h.owners id o owned)
      have stacked := (h.sound o fo hfo).stacked id oShared oSlot
      -- the running fiber has a private stack, so the owner was switched out
      have notCurrent : o ≠ s.tFiber := by
        intro same
        rw [← same, kind_eq.2 ⟨fo, hfo, oShared⟩] at current
        cases current
      have notRunning : o ≠ s.running := by
        intro same
        rw [← same, kind_eq.2 ⟨fo, hfo, oShared⟩] at privately
        cases privately
      have below : (s.slots id).entry p.arch ≤ (s.slots id).top := by
        have := stacked.room.entry_word
        omega
      have range : (s.slots id).stack ≤ fo.ctx.sp ∧ fo.ctx.sp ≤ (s.slots id).top :=
        ⟨stacked.inside.1, stacked.inside.2.trans below⟩
      have saves : s.saveSharedStackSnapshot o =
          some (s.modify o (·.withSnapshot ((s.slots id).above fo.ctx.sp))) := by
        simp [saveSharedStackSnapshot, hfo, h.owners id o owned, stacked.ready, saveFrom, range]
      rw [if_neg notCurrent, saves, Option.bind_some] at done
      have apart : r ≠ o := fun same => other same.symm
      have here' : (s.modify o (·.withSnapshot ((s.slots id).above fo.ctx.sp))).fibers r = some f := by
        rw [fibers_modify, if_neg apart]
        exact here
      have slot' : (s.modify o (·.withSnapshot ((s.slots id).above fo.ctx.sp))).slotOf r = some id := by
        rw [slotOf_modify]
        · exact slot
        all_goals exact fun _ => rfl
      cases restore_give here' slot' done
      have evicted := h.evict hfo owned (by simpa [Thread.alive, hfo] using oAlive)
        ((s.slots id).above fo.ctx.sp)
      refine ⟨evicted.give here' shared fslot ?_ ?_, ?_, given _ slot'⟩
      · intro owned'
        exact apart (Option.some.inj (owned'.symm.trans owned))
      · intro o' fo' owned' hfo'
        cases owned.symm.trans owned'
        rw [fibers_modify, if_pos rfl, hfo] at hfo'
        cases hfo'
        exact .inr ⟨Slot.holds_above stacked.inside stacked.zeroed, stacked.kept owned notRunning⟩
      · exact ⟨kind_modify fun _ => rfl, rfl, rfl, rfl, alive_modify fun _ => rfl, rfl⟩

/-! ## `prepareSharedStack` -/

theorem Stored.bindThread (h : Stored p s) (done : s.bindThread p r = some s') :
    Stored p s' ∧ Steady s s' := by
  unfold Thread.bindThread at done
  split at done
  · cases done
  · rename_i f here
    split at done
    · cases done
      exact ⟨h.quiet {} fun f _ q hq => .inl hq,
        ⟨kind_modify fun _ => rfl, rfl, rfl, rfl, alive_modify fun _ => rfl, rfl⟩⟩
    · split at done
      · cases done
        exact ⟨h, .refl _⟩
      · cases done

theorem initFiberContext_shared (slot : s.slotOf r = some id) (done : s.initFiberContext p r = some s') :
    (s.slots id).Room p.arch ∧
      s' = { (s.modifySlot id (·.initStack p.arch)).modify r (·.withContext ⟨(s.slots id).entry p.arch, r, .entry⟩) with
        continuation := Function.update s.continuation r (some r) } := by
  simp only [initFiberContext, slot] at done
  split at done
  · rename_i fits
    cases done
    exact ⟨fits.2, rfl⟩
  · cases done

theorem Stored.ensureContext (h : Stored p s) (shared : s.kind r = some true) (done : s.ensureContext p r = some s') :
    Stored p s' ∧ Steady s s' := by
  obtain ⟨f, here, isShared⟩ := kind_eq.1 shared
  simp only [Thread.ensureContext, here] at done
  have sound := h.sound r f here
  cases slot : f.sharedStackSlot with
  | some id =>
    simp only [slot, (sound.stacked id isShared slot).ready, if_true] at done
    cases done
    exact ⟨h, .refl _⟩
  | none =>
    have unstacked := sound.unstacked isShared slot
    simp only [slot, unstacked.unready, Bool.false_eq_true, if_false, acquireSlot] at done
    generalize (⟨f.stacksize, _⟩ : SlotId) = id at done
    generalize Function.update s.pools _ _ = pools at done
    have slotOf : (Thread.modify { s with pools } r (·.withSlot id)).slotOf r = some id :=
      slotOf_eq.2 ⟨f.withSlot id, by simp [fibers_modify, here], isShared, rfl⟩
    obtain ⟨room, rfl⟩ := initFiberContext_shared slotOf done
    have entered := h.enter here isShared (.inl slot) unstacked.never unstacked.empty room
      (fun g => (g.withSlot id).withContext ⟨(s.slots id).entry p.arch, r, .entry⟩) (fun _ => rfl) rfl rfl rfl rfl rfl
    rw [modify_modifySlot, modify_modify]
    refine ⟨⟨entered.sound, entered.fresh, entered.silent, entered.main, entered.scheduler, entered.owners⟩, ?_⟩
    exact ⟨kind_modify fun _ => rfl, rfl, rfl, rfl, alive_modify fun _ => rfl, rfl⟩

theorem prepare_private {marker : Nat} (privately : s.kind r ≠ some true) (done : s.prepare p r marker = some s') :
    s' = s := by
  rw [Thread.prepare, if_neg (privately ∘ isShared_kind.1)] at done
  exact (Option.some.inj done).symm

theorem Stored.prepare (h : Stored p s) {marker : Nat}
    (privately : s.kind r = some true → s.kind s.running = some false ∧ s.kind s.tFiber = some false)
    (alive : s.alive r = true) (done : s.prepare p r marker = some s') : Stored p s' ∧ Steady s s' ∧ s'.Holding r := by
  by_cases shared : s.kind r = some true
  · rw [Thread.prepare, if_pos (isShared_kind.2 shared)] at done
    obtain ⟨running, tFiber⟩ := privately shared
    obtain ⟨m, bound, done⟩ := Option.bind_eq_some_iff.1 done
    obtain ⟨m', entered, done⟩ := Option.bind_eq_some_iff.1 done
    obtain ⟨stored, steady⟩ := h.bindThread bound
    obtain ⟨stored', steady'⟩ := stored.ensureContext (by rwa [steady.kind]) entered
    have steady := steady.trans steady'
    obtain ⟨stored'', steady'', holding⟩ := stored'.takeSlot (by rwa [steady.kind, steady.running])
      (by rwa [steady.kind, steady.tFiber]) (by rwa [steady.alive]) done
    exact ⟨stored'', steady.trans steady'', holding⟩
  · rw [prepare_private shared done]
    exact ⟨h, .refl s, fun is => absurd is shared⟩

end Mycoroutine.Thread
