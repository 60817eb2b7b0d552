import Mycoroutine.Fiber.StackSwitch

/-!
# Shared-stack contents survive slot sharing

Creating, resetting and destroying fibers, and writing to a stack, keep the
invariant too, so it holds on every run.
-/

namespace Mycoroutine.Thread
set_option autoImplicit false
open Interleave

variable {p : Platform} {s s' : Thread} {r x : Ref} {f : Fiber} {id : SlotId}

/-! ## Fibers come and go -/

/-- A new fiber, before its first context. -/
theorem Kept.add (h : Kept p s) (code : f.ctx.code = s.created) (slot : f.sharedStackSlot = none)
    (unready : f.ctxInitialized = false) (empty : f.stackSnapshot = []) (orphan : f.parent = none) :
    Kept p (s.add f) := by
  have never : s.kind s.created = none := h.fresh _ (Nat.le_refl _)
  have old : ∀ x k, s.kind x = some k → x ≠ s.created := by
    rintro x k known rfl
    cases never.symm.trans known
  have fibers : ∀ x, x ≠ s.created → (s.add f).fibers x = s.fibers x := fun x apart => by simp [Thread.add, apart]
  have kinds : ∀ x, x ≠ s.created → (s.add f).kind x = s.kind x := fun x apart => by simp [kind, fibers x apart]
  have known : ∀ x k, s.kind x = some k → (s.add f).kind x = some k := fun x k is =>
    (kinds x (old x k is)).trans is
  have slots : ∀ x id, s.slotOf x = some id → (s.add f).slotOf x = some id := by
    intro x id is
    obtain ⟨g, hg, shared, hslot⟩ := slotOf_eq.1 is
    exact slotOf_eq.2 ⟨g, (fibers x (old x _ (kind_eq.2 ⟨g, hg, rfl⟩))).trans hg, shared, hslot⟩
  have newKind : (s.add f).kind s.created = some f.useSharedStack := by simp [kind, Thread.add]
  have runningOld : s.running ≠ s.created := fun same => h.exists_.1 (same ▸ never)
  have currentOld : s.tFiber ≠ s.created := fun same => h.exists_.2 (same ▸ never)
  refine ⟨⟨?_, ?_, ?_, known _ _ h.main, known _ _ h.scheduler, fun id x owner => slots x id (h.owners id x owner)⟩,
    ?_, ?_, ?_, ?_⟩
  · intro x g hg
    by_cases same : x = s.created
    · subst same
      have isNew : f = g := by simpa [Thread.add] using hg
      subst isNew
      have silent : (s.add f).switchedOut s.created = none := h.silent _ never
      refine ⟨by rw [code, newKind], fun _ => code, fun q hq => ?_, fun _ => silent, fun _ => ⟨empty, silent⟩,
        fun id _ hslot => ?_, fun _ _ => ⟨unready, empty, silent⟩⟩
      · cases orphan.symm.trans hq
      · cases slot.symm.trans hslot
    · have sound := h.sound x g ((fibers x same).symm.trans hg)
      refine ⟨known _ _ sound.code, sound.own, fun q hq => ?_, sound.private_, sound.dead, sound.stacked,
        sound.unstacked⟩
      exact (sound.parent q hq).imp (known q _) fun both => ⟨known q _ both.1, both.2⟩
  · intro x beyond
    have beyond' : s.created + 1 ≤ x := beyond
    rw [kinds x (Nat.ne_of_gt beyond')]
    exact h.fresh x (Nat.le_of_lt beyond')
  · intro x none'
    by_cases same : x = s.created
    · rw [same]
      exact h.silent _ never
    · exact h.silent x ((kinds x same).symm.trans none')
  · exact ⟨fun gone => h.exists_.1 ((kinds _ runningOld).symm.trans gone),
      fun gone => h.exists_.2 ((kinds _ currentOld).symm.trans gone)⟩
  · rintro (running | current)
    · exact h.aligned (.inl ((kinds _ runningOld).symm.trans running))
    · exact h.aligned (.inr ((kinds _ currentOld).symm.trans current))
  · intro running
    obtain ⟨id, hslot, owned⟩ := h.holding ((kinds _ runningOld).symm.trans running)
    exact ⟨id, slots _ id hslot, owned⟩
  · intro running
    have alive := h.awake ((kinds _ runningOld).symm.trans running)
    have same := fibers s.running runningOld
    simpa [Thread.alive, Thread.add, runningOld] using alive

theorem Kept.init_private (h : Kept p s) (privately : s.kind r = some false)
    (done : s.initFiberContext p r = some s') : Kept p s' := by
  have noSlot : s.slotOf r = none := by
    obtain ⟨f, here, isPrivate⟩ := kind_eq.1 privately
    simp [slotOf, here, isPrivate]
  simp only [initFiberContext, noSlot] at done
  cases done
  have stored : Stored p (s.modify r (·.withContext ⟨0, r, .entry⟩)) :=
    h.toStored.private_ctx privately (fun _ => rfl) (fun _ => rfl) (fun _ => rfl) (fun _ => rfl) (fun _ => rfl)
      fun _ => privately
  have kinds : (s.modify r (·.withContext ⟨0, r, .entry⟩)).kind = s.kind := kind_modify fun _ => rfl
  have slots : (s.modify r (·.withContext ⟨0, r, .entry⟩)).slotOf = s.slotOf :=
    slotOf_modify (fun _ => rfl) fun _ => rfl
  have alive : (s.modify r (·.withContext ⟨0, r, .entry⟩)).alive = s.alive := alive_modify fun _ => rfl
  refine ⟨⟨stored.sound, stored.fresh, stored.silent, stored.main, stored.scheduler, stored.owners⟩, ?_, ?_, ?_, ?_⟩
  · exact kinds ▸ h.exists_
  · exact kinds ▸ h.aligned
  · intro running
    obtain ⟨id, slot, owned⟩ := h.holding ((congrFun kinds _).symm.trans running)
    exact ⟨id, (congrFun slots _).trans slot, owned⟩
  · exact fun running => (congrFun alive _).trans (h.awake ((congrFun kinds _).symm.trans running))

theorem Kept.create (h : Kept p s) {stacksize : Nat} {runInScheduler useSharedStack : Bool}
    (done : s.create p stacksize runInScheduler useSharedStack = some s') : Kept p s' := by
  cases useSharedStack with
  | true =>
    simp only [Thread.create, if_true] at done
    cases done
    exact h.add rfl rfl rfl rfl rfl
  | false =>
    simp only [Thread.create, Bool.false_eq_true, if_false] at done
    generalize (if stacksize = 0 then 128000 else stacksize) = size at done
    split at done
    · cases done
    · refine (h.add rfl rfl rfl rfl rfl).init_private ?_ done
      simp [kind, Thread.add]

theorem Stored.forget (h : Stored p s) {change : Fiber → Fiber}
    (shared : ∀ f, (change f).useSharedStack = f.useSharedStack) (ctx : ∀ f, (change f).ctx = f.ctx)
    (ready : ∀ f, (change f).ctxInitialized = f.ctxInitialized)
    (slot : ∀ f, (change f).sharedStackSlot = f.sharedStackSlot) (empty : ∀ f, (change f).stackSnapshot = [])
    (parent : ∀ f q, (change f).parent = some q → f.parent = some q) :
    Stored p { s.modify r change with switchedOut := Function.update s.switchedOut r none } := by
  have kinds : (s.modify r change).kind = s.kind := kind_modify shared
  have slots : (s.modify r change).slotOf = s.slotOf := slotOf_modify shared slot
  refine ⟨?_, ?_, ?_, ?_, ?_, ?_⟩
  · intro x g hg
    change Sound p.arch (s.modify r change).kind s.slots s.running (Function.update s.switchedOut r none x) x g
    rw [kinds]
    have hg' : (s.modify r change).fibers x = some g := hg
    rw [fibers_modify] at hg'
    split at hg'
    · rename_i same
      subst same
      obtain ⟨f, old, rfl⟩ := Option.map_eq_some_iff.1 hg'
      have sound := h.sound x f old
      rw [Function.update_self]
      refine ⟨?_, ?_, ?_, fun _ => rfl, fun _ => ⟨empty f, rfl⟩, ?_, ?_⟩
      · rw [ctx, shared]
        exact sound.code
      · rw [ctx, shared]
        exact sound.own
      · rw [shared]
        exact fun q hq => sound.parent q (parent f q hq)
      · intro id isShared hslot
        have stacked := sound.stacked id (shared f ▸ isShared) (slot f ▸ hslot)
        refine ⟨(ready f).trans stacked.ready, stacked.room, stacked.zeroed, ?_, fun _ _ b out => ?_, fun _ =>
          .inl ⟨empty f, rfl⟩⟩
        · rw [ctx]
          exact stacked.inside
        · cases out
      · intro isShared hslot
        have unstacked := sound.unstacked (shared f ▸ isShared) (slot f ▸ hslot)
        exact ⟨(ready f).trans unstacked.unready, empty f, rfl⟩
    · rename_i apart
      rw [Function.update_of_ne apart]
      exact h.sound x g hg'
  · intro x beyond
    exact (congrFun kinds x).trans (h.fresh x beyond)
  · intro x never
    have never' : s.kind x = none := (congrFun kinds x).symm.trans never
    change Function.update s.switchedOut r none x = none
    by_cases same : x = r
    · rw [same, Function.update_self]
    · rw [Function.update_of_ne same]
      exact h.silent x never'
  · exact (congrFun kinds _).trans h.main
  · exact (congrFun kinds _).trans h.scheduler
  · intro id x owner
    exact (congrFun slots x).trans (h.owners id x owner)

theorem Kept.forget (h : Kept p s) (change : Fiber → Fiber)
    (shared : ∀ f, (change f).useSharedStack = f.useSharedStack) (ctx : ∀ f, (change f).ctx = f.ctx)
    (ready : ∀ f, (change f).ctxInitialized = f.ctxInitialized)
    (slot : ∀ f, (change f).sharedStackSlot = f.sharedStackSlot) (empty : ∀ f, (change f).stackSnapshot = [])
    (parent : ∀ f q, (change f).parent = some q → f.parent = some q)
    (alive : (∀ f, (change f).alive = f.alive) ∨ r ≠ s.running) :
    Kept p { s.modify r change with switchedOut := Function.update s.switchedOut r none } := by
  have kinds : (s.modify r change).kind = s.kind := kind_modify shared
  have slots : (s.modify r change).slotOf = s.slotOf := slotOf_modify shared slot
  refine ⟨h.toStored.forget shared ctx ready slot empty parent, kinds ▸ h.exists_, kinds ▸ h.aligned, ?_, ?_⟩
  · intro running
    obtain ⟨id, hslot, owned⟩ := h.holding ((congrFun kinds _).symm.trans running)
    exact ⟨id, (congrFun slots _).trans hslot, owned⟩
  · intro running
    have before := h.awake ((congrFun kinds _).symm.trans running)
    rcases alive with same | apart
    · exact (congrFun (alive_modify same) _).trans before
    · have untouched : (s.modify r change).fibers s.running = s.fibers s.running := by
        rw [fibers_modify, if_neg apart.symm]
      exact (congrArg (fun o => o.any (·.alive)) untouched).trans before

theorem Kept.destroy (h : Kept p s) (done : s.destroy r = some s') : Kept p s' := by
  unfold Thread.destroy at done
  split at done
  · split at done
    · rename_i guard
      cases done
      exact h.forget _ (fun _ => rfl) (fun _ => rfl) (fun _ => rfl) (fun _ => rfl) (fun _ => rfl) (fun _ _ hq => hq)
        (.inr guard.2.2.1)
    · cases done
  · cases done

/-- A change that leaves the fiber as it is. -/
theorem modify_self (change : Fiber → Fiber) (same : ∀ f, s.fibers r = some f → change f = f) :
    s.modify r change = s := by
  have fibers : Function.update s.fibers r ((s.fibers r).map change) = s.fibers := by
    refine Function.update_eq_self_iff.2 ?_
    cases here : s.fibers r with
    | none => rfl
    | some f => exact congrArg some (same f here)
  simp only [modify, fibers]

theorem Kept.init_shared (h : Kept p s) (here : s.fibers r = some f) (shared : f.useSharedStack = true)
    (slot : f.sharedStackSlot = some id) (never : s.switchedOut r = none) (empty : f.stackSnapshot = [])
    (done : s.initFiberContext p r = some s') : Kept p s' := by
  obtain ⟨room, rfl⟩ := initFiberContext_shared (slotOf_eq.2 ⟨f, here, shared, slot⟩) done
  have stored := h.enter here shared (.inr slot) never empty room
    (·.withContext ⟨(s.slots id).entry p.arch, r, .entry⟩) (fun _ => rfl) slot rfl rfl rfl rfl
  have kinds : ((s.modifySlot id (·.initStack p.arch)).modify r
      (·.withContext ⟨(s.slots id).entry p.arch, r, .entry⟩)).kind = s.kind := kind_modify fun _ => rfl
  have slots : ((s.modifySlot id (·.initStack p.arch)).modify r
      (·.withContext ⟨(s.slots id).entry p.arch, r, .entry⟩)).slotOf = s.slotOf :=
    slotOf_modify (fun _ => rfl) fun _ => rfl
  have alive : ((s.modifySlot id (·.initStack p.arch)).modify r
      (·.withContext ⟨(s.slots id).entry p.arch, r, .entry⟩)).alive = s.alive := alive_modify fun _ => rfl
  have unchanged := h.initStack_used here shared slot
  refine ⟨⟨stored.sound, stored.fresh, stored.silent, stored.main, stored.scheduler, stored.owners⟩,
    kinds ▸ h.exists_, kinds ▸ h.aligned, ?_, ?_⟩
  · intro running
    obtain ⟨id', hslot, owned⟩ := h.holding ((congrFun kinds _).symm.trans running)
    exact ⟨id', (congrFun slots _).trans hslot, (congrArg Slot.owner (congrFun unchanged id')).trans owned⟩
  · exact fun running => (congrFun alive _).trans (h.awake ((congrFun kinds _).symm.trans running))

theorem Kept.reset (h : Kept p s) (done : s.reset p r = some s') : Kept p s' := by
  unfold Thread.reset at done
  split at done
  · cases done
  rename_i fb here
  split at done
  · have forgot := h.forget (r := r)
      (fun f => { f with state := .ready, stackSnapshot := [], parent := none, returnToParent := false })
      (fun _ => rfl) (fun _ => rfl) (fun _ => rfl) (fun _ => rfl) (fun _ => rfl) (fun _ _ hq => by cases hq)
      (.inl fun _ => rfl)
    simp only at done
    have now : (s.modify r fun f =>
        { f with state := .ready, stackSnapshot := [], parent := none, returnToParent := false }).fibers r =
        some { fb with state := .ready, stackSnapshot := [], parent := none, returnToParent := false } := by
      simp [fibers_modify, here]
    have never : Function.update s.switchedOut r none r = none := Function.update_self ..
    split at done
    · rename_i unslotted
      have unready := ((forgot.sound r _ now).unstacked unslotted.1 unslotted.2).unready
      rw [modify_self (fun f => { f with ctxInitialized := false }) fun f hf => by
        cases now.symm.trans hf
        exact congrArg (fun ready : Bool => ({ fb with
          state := .ready, stackSnapshot := [], parent := none, returnToParent := false, ctxInitialized := ready }
            : Fiber)) unready.symm] at done
      exact Option.some.inj done ▸ forgot
    · rename_i slotted
      cases shared : fb.useSharedStack with
      | false =>
        refine forgot.init_private ?_ done
        exact kind_eq.2 ⟨_, now, shared⟩
      | true =>
        cases hslot : fb.sharedStackSlot with
        | none => exact absurd ⟨shared, hslot⟩ slotted
        | some id => exact forgot.init_shared now shared hslot never rfl done
  · cases done

theorem running_init (done : s.initFiberContext p r = some s') : s'.running = s.running := by
  unfold initFiberContext at done
  split at done
  · cases done
    rfl
  · simp only at done
    split at done <;> cases done
    rfl

theorem running_create {stacksize : Nat} {runInScheduler useSharedStack : Bool}
    (done : s.create p stacksize runInScheduler useSharedStack = some s') : s'.running = s.running := by
  unfold Thread.create at done
  generalize (if stacksize = 0 then 128000 else stacksize) = size at done
  simp only at done
  split at done
  · cases done
    rfl
  · split at done
    · cases done
    · exact (running_init done).trans rfl

theorem running_destroy (done : s.destroy r = some s') : s'.running = s.running := by
  unfold Thread.destroy at done
  split at done
  · split at done <;> cases done
    rfl
  · cases done

theorem running_reset (done : s.reset p r = some s') : s'.running = s.running := by
  unfold Thread.reset at done
  split at done
  · cases done
  · simp only at done
    split at done
    · split at done
      · cases done
        rfl
      · exact (running_init done).trans rfl
    · cases done

theorem running_write {offset : Nat} {value : UInt8} (done : s.writeStack p offset value = some s') :
    s'.running = s.running := by
  unfold Thread.writeStack at done
  split at done
  · cases done
  · split at done <;> cases done
    rfl

/-- Every step keeps the invariant. -/
theorem Kept.step (h : Kept p s) {l : Label} (done : step p s l = some s') : Kept p s' ∧ Regains s s' := by
  have stays : s'.running = s.running → Regains s s' := fun same b other => absurd same other
  cases l with
  | create stacksize runInScheduler useSharedStack => exact ⟨h.create done, stays (running_create done)⟩
  | destroy f => exact ⟨h.destroy done, stays (running_destroy done)⟩
  | reset f => exact ⟨h.reset done, stays (running_reset done)⟩
  | resume f sp marker => exact h.resume done
  | call f sp marker => exact h.call done
  | yield sp marker => exact h.yield (.inr rfl) done
  | back sp marker => exact h.back (.inr rfl) done
  | finish sp marker => exact h.finish done
  | write offset value => exact ⟨h.writeStack done, stays (running_write done)⟩
  | setSharedStackSlotCount count =>
    cases done
    exact ⟨⟨⟨h.sound, h.fresh, h.silent, h.main, h.scheduler, h.owners⟩, h.exists_, h.aligned, h.holding, h.awake⟩, stays rfl⟩
  | setSchedulerFiber f =>
    simp only [Thread.step] at done
    split at done
    · rename_i guard
      cases done
      refine ⟨⟨⟨h.sound, h.fresh, h.silent, h.main, ?_, h.owners⟩, h.exists_, h.aligned, h.holding, h.awake⟩, stays rfl⟩
      obtain ⟨f', here⟩ : ∃ f', s.fibers f = some f' := by
        have alive := guard.1
        unfold Thread.alive at alive
        cases known : s.fibers f with
        | none => simp [known] at alive
        | some f' => exact ⟨f', rfl⟩
      exact kind_eq.2 ⟨f', here, by simpa [isShared, here] using guard.2⟩
    · cases done

theorem kept_of_reach {slotCount : Nat} (h : (machine p slotCount).Reach s) : Kept p s :=
  h.invariant (kept_init slotCount) fun _ _ _ inv _ e => (inv.step e).1

/-! ## The contract -/

/-- What slot sharing promises. `resumed` is about any step that gives a
shared-stack fiber control back; `owner` and `others` say where the bytes of a
switched-out fiber are meanwhile, `others` with the length of its snapshot. -/
structure Survives (p : Platform) (s : Thread) : Prop where
  resumed : ∀ l s' x b, step p s l = some s' → s'.running = x → s.running ≠ x → s.kind x = some true →
    s.switchedOut x = some b → s'.live x = some b
  owner : ∀ x f id b, s.fibers x = some f → f.useSharedStack = true → f.sharedStackSlot = some id →
    s.switchedOut x = some b → x ≠ s.running → (s.slots id).owner = some x → (s.slots id).above f.ctx.sp = b
  others : ∀ x f id b, s.fibers x = some f → f.useSharedStack = true → f.sharedStackSlot = some id →
    s.switchedOut x = some b → x ≠ s.running → (s.slots id).owner ≠ some x →
    f.stackSnapshot = b ∧ f.stackSnapshot.length = (s.slots id).top - f.ctx.sp

/-- **Shared-stack contents survive slot sharing**, on every run of one thread. -/
theorem contents_survive {slotCount : Nat} (h : (machine p slotCount).Reach s) : Survives p s := by
  have kept := kept_of_reach h
  constructor
  case resumed =>
    rintro l s' x b done rfl other - out
    exact (kept.step done).2 b (Ne.symm other) out
  case owner =>
    intro x f id b here shared slot out away owned
    exact ((kept.sound x f here).stacked id shared slot).kept owned away b out
  case others =>
    intro x f id b here shared slot out away other
    rcases ((kept.sound x f here).stacked id shared slot).saved other with ⟨-, none'⟩ | ⟨holds, equal⟩
    · cases none'.symm.trans out
    · exact ⟨equal b out, holds.length_eq⟩

/-- One slot of 64 bytes on x86_64. -/
def smallPlatform : Platform where
  arch := .x86_64
  tid := 7
  block id := { stack := 0, bytes := List.replicate id.size 0 }
  block_size _ := List.length_replicate
  block_unowned _ := rfl

/-- Fiber 1 leaves a byte in the slot and calls the private fiber 2, which calls
fiber 3 on the same slot; 3 overwrites the byte. -/
def nested : List Label :=
  [.create 64 false true, .create 64 false false, .create 64 false true, .resume 1 0 0, .write 40 7,
   .call 2 32 0, .call 3 0 0, .write 40 9, .yield 24 0]

theorem contents_survive_nested :
    ∃ s, (machine smallPlatform 1).exec (machine smallPlatform 1).init nested = some s ∧ s.running = 2 ∧
      s.live 1 ≠ s.switchedOut 1 ∧ Survives smallPlatform s :=
  ⟨_, rfl, rfl, by decide, contents_survive
    (Machine.reach_of_exec (rfl : (machine smallPlatform 1).exec (machine smallPlatform 1).init nested = some _))⟩

end Mycoroutine.Thread
