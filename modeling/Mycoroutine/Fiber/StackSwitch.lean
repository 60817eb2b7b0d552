import Mycoroutine.Fiber.StackInvariant

/-!
# Switching between fibers

The saving half of a switch records the running fiber's bytes, the loading half
hands control to a fiber that owns its slot. `resume`, `call`, `back` and
`yield` prepare the target and switch.
-/

namespace Mycoroutine.Thread
set_option autoImplicit false
open Interleave

variable {p : Platform} {s s' : Thread} {r x : Ref} {f : Fiber} {id : SlotId}

/-! ## Switching -/

/-- The slot bytes from a fiber's saved stack pointer to the top. -/
def live (s : Thread) (x : Ref) : Option (List UInt8) :=
  (s.fibers x).bind fun f => (s.slotOf x).map fun id => (s.slots id).above f.ctx.sp

theorem live_eq (here : s.fibers x = some f) (slot : s.slotOf x = some id) :
    s.live x = some ((s.slots id).above f.ctx.sp) := by
  simp [live, here, slot]

/-- After the saving half, the running fiber's bytes are those recorded. -/
structure Left (s s' : Thread) : Prop where
  kind : s'.kind = s.kind
  alive : s'.alive = s.alive
  slotOf : s'.slotOf = s.slotOf
  slots : s'.slots = s.slots
  running : s'.running = s.running
  tFiber : s'.tFiber = s.tFiber
  others : ∀ x, x ≠ s.running → s'.switchedOut x = s.switchedOut x
  recorded : ∀ b, s.kind s.running = some true → s'.switchedOut s.running = some b → s'.live s.running = some b

theorem Stored.save_private (h : Stored p s) {sp : Nat} {src : Ref} (point : Point)
    (running : s.kind s.running = some false) (privately : s.kind src = some false) :
    Stored p (s.save sp src point) ∧ Left s (s.save sp src point) := by
  have noSlot : s.slotOf s.running = none := by
    obtain ⟨f, here, isPrivate⟩ := kind_eq.1 running
    simp [slotOf, here, isPrivate]
  have stored : Stored p (s.modify src fun f => { f with ctx := ⟨sp, s.running, point⟩ }) :=
    h.private_ctx privately (fun _ => rfl) (fun _ => rfl) (fun _ => rfl) (fun _ => rfl) (fun _ => rfl)
      fun _ => running
  simp only [Thread.save, noSlot]
  refine ⟨⟨stored.sound, stored.fresh, stored.silent, stored.main, stored.scheduler, stored.owners⟩, ?_⟩
  refine ⟨kind_modify fun _ => rfl, alive_modify fun _ => rfl, slotOf_modify (fun _ => rfl) fun _ => rfl, rfl, rfl, rfl,
    fun _ _ => rfl, fun b shared => ?_⟩
  rw [running] at shared
  cases shared

theorem Stored.save_shared (h : Stored p s) {sp : Nat} (point : Point) (inside : s.RunsInside p sp)
    (running : s.kind s.running = some true) (holding : s.Holding s.running) (awake : s.alive s.running = true) :
    Stored p (s.save sp s.running point) ∧ Left s (s.save sp s.running point) := by
  obtain ⟨id, slot, owned⟩ := holding running
  obtain ⟨f, here, shared, fslot⟩ := slotOf_eq.1 slot
  have fits : (s.slots id).Inside p.arch sp := by simpa [RunsInside, slot] using inside
  have kinds : (s.save sp s.running point).kind = s.kind := kind_modify fun _ => rfl
  have slots : (s.save sp s.running point).slotOf = s.slotOf := slotOf_modify (fun _ => rfl) fun _ => rfl
  have now : (s.save sp s.running point).fibers s.running = some { f with ctx := ⟨sp, s.running, point⟩ } := by
    simp [Thread.save, modify, here]
  have out : (s.save sp s.running point).switchedOut =
      Function.update s.switchedOut s.running (some ((s.slots id).above sp)) := by
    simp [Thread.save, slot]
  refine ⟨⟨?_, ?_, ?_, ?_, ?_, ?_⟩, ?_⟩
  · intro x g hg
    rw [kinds]
    by_cases isRunning : x = s.running
    · subst isRunning
      cases now.symm.trans hg
      have sound := h.sound _ f here
      have stacked := sound.stacked id shared fslot
      refine ⟨?_, fun _ => rfl, sound.parent, ?_, ?_, ?_, ?_⟩
      · simpa [shared] using running
      · intro isPrivate
        cases shared.symm.trans isPrivate
      · intro isDead
        have isAlive : f.alive = true := by simpa [alive, here] using awake
        cases isAlive.symm.trans isDead
      · intro id' _ slot'
        cases fslot.symm.trans slot'
        exact ⟨stacked.ready, stacked.room, stacked.zeroed, fits, fun _ apart => absurd rfl apart,
          fun other => absurd owned other⟩
      · intro _ noSlot
        cases fslot.symm.trans noSlot
    · have old : s.fibers x = some g := by simpa [Thread.save, modify, isRunning] using hg
      rw [out, Function.update_of_ne isRunning]
      exact h.sound x g old
  · rw [kinds]
    exact h.fresh
  · intro x never
    rw [kinds] at never
    have apart : x ≠ s.running := by
      intro same
      rw [same, running] at never
      cases never
    rw [out, Function.update_of_ne apart]
    exact h.silent x never
  · rw [kinds]
    exact h.main
  · rw [kinds]
    exact h.scheduler
  · rw [slots]
    exact h.owners
  · refine ⟨kinds, alive_modify fun _ => rfl, slots, rfl, rfl, rfl, fun x apart => ?_, fun b _ left => ?_⟩
    · rw [out, Function.update_of_ne apart]
    · rw [out, Function.update_self] at left
      rw [live_eq now (by rw [slots]; exact slot), ← left]
      rfl

theorem Stored.save (h : Stored p s) {sp : Nat} {src : Ref} (point : Point) (inside : s.RunsInside p sp)
    (shared : s.kind s.running = some true → src = s.running)
    (privately : s.kind s.running = some false → s.kind src = some false)
    (exists_ : s.kind s.running ≠ none) (holding : s.Holding s.running)
    (awake : s.kind s.running = some true → s.alive s.running = true) :
    Stored p (s.save sp src point) ∧ Left s (s.save sp src point) := by
  cases running : s.kind s.running with
  | none => exact absurd running exists_
  | some isShared =>
    cases isShared with
    | false => exact h.save_private point running (privately running)
    | true =>
      rw [shared running]
      exact h.save_shared point inside running holding (awake running)

/-- Another fiber becomes the running one. -/
theorem Stored.run (h : Stored p s) (code : Ref) (continuation : Ref → Option Ref)
    (left : ∀ b, s.kind s.running = some true → s.switchedOut s.running = some b → s.live s.running = some b) :
    Stored p { s with running := code, continuation } := by
  refine ⟨?_, h.fresh, h.silent, h.main, h.scheduler, h.owners⟩
  intro x f here
  have sound := h.sound x f here
  refine ⟨sound.code, sound.own, sound.parent, sound.private_, sound.dead, ?_, sound.unstacked⟩
  intro id shared slot
  have stacked := sound.stacked id shared slot
  refine ⟨stacked.ready, stacked.room, stacked.zeroed, stacked.inside, ?_, stacked.saved⟩
  intro owned _ b out
  by_cases wasRunning : x = s.running
  · subst wasRunning
    have slotOf : s.slotOf s.running = some id := slotOf_eq.2 ⟨f, here, shared, slot⟩
    have bytes : s.live s.running = some b := left b (kind_eq.2 ⟨f, here, shared⟩) out
    rw [live_eq (s := s) here slotOf] at bytes
    exact Option.some.inj bytes
  · exact stacked.kept owned wasRunning b out

/-- What a change of other fields leaves alone. -/
structure Alike (s s' : Thread) : Prop where
  kind : s'.kind = s.kind
  alive : s'.alive = s.alive
  slotOf : s'.slotOf = s.slotOf
  slots : s'.slots = s.slots
  live : s'.live = s.live
  running : s'.running = s.running
  tFiber : s'.tFiber = s.tFiber

theorem Alike.holding (alike : Alike s s') (h : s.Holding x) : s'.Holding x := by
  unfold Holding
  rw [alike.kind, alike.slotOf, alike.slots]
  exact h

theorem Quiet.alike {change : Fiber → Fiber} (quiet : Quiet change) : Alike s (s.modify r change) := by
  have slots := slotOf_modify (s := s) (r := r) quiet.shared quiet.slot
  refine ⟨kind_modify quiet.shared, alive_modify quiet.alive, slots, rfl, ?_, rfl, rfl⟩
  funext x
  simp only [Thread.live, fibers_modify, slots, slots_modify]
  split
  · cases s.fibers x <;> simp [quiet.ctx]
  · rfl

theorem Stored.arrive (h : Stored p s) (ctx : Context)
    (left : ∀ b, s.kind s.running = some true → s.switchedOut s.running = some b → s.live s.running = some b) :
    Stored p (s.arrive ctx) ∧
      Alike { s with running := ctx.code, continuation := Function.update s.continuation ctx.code none } (s.arrive ctx) := by
  have ran := h.run ctx.code (Function.update s.continuation ctx.code none) left
  unfold Thread.arrive
  cases ctx.point with
  | inCall callee =>
    have quiet : Quiet fun f => { f with parent := none, returnToParent := false } := {}
    exact ⟨ran.quiet quiet fun _ _ q hq => (by cases hq), quiet.alike⟩
  | entry =>
    have quiet : Quiet fun f => { f with curr := true } := {}
    exact ⟨ran.quiet quiet fun _ _ q hq => .inl hq, quiet.alike⟩
  | _ => exact ⟨ran, rfl, rfl, rfl, rfl, rfl, rfl, rfl⟩

/-- A fiber that got control in this step is back to the bytes it left. -/
def Regains (s s' : Thread) : Prop :=
  ∀ b, s'.running ≠ s.running → s.switchedOut s'.running = some b → s'.live s'.running = some b

/-- **A switch** keeps the invariant, and brings a shared-stack fiber back to
the bytes it left. -/
theorem Kept.swap (h : Kept p s) {sp : Nat} {src dst : Ref} {point : Point}
    (shared : s.kind s.running = some true → src = s.running)
    (privately : s.kind s.running = some false → s.kind src = some false)
    (target : s.Holding dst) (targetAlive : s.kind dst = some true → s.alive dst = true)
    (done : s.swap p sp src dst point = some s') : Kept p s' ∧ Regains s s' := by
  unfold Thread.swap at done
  split at done
  · rename_i inside
    have stored : Stored p { s with tFiber := dst } :=
      ⟨h.sound, h.fresh, h.silent, h.main, h.scheduler, h.owners⟩
    obtain ⟨saved, left⟩ := stored.save point inside shared privately h.exists_.1 h.holding h.awake
    generalize { s with tFiber := dst }.save sp src point = m at done saved left
    obtain ⟨fd, here, done⟩ := Option.bind_eq_some_iff.1 done
    split at done
    · cases done
      obtain ⟨arrived, alike⟩ := saved.arrive fd.ctx (by rw [left.running, left.kind]; exact left.recorded)
      have sound := saved.sound dst fd here
      have kinds : (m.arrive fd.ctx).kind = m.kind := alike.kind
      have running : (m.arrive fd.ctx).running = fd.ctx.code := alike.running
      have current : (m.arrive fd.ctx).tFiber = dst := alike.tFiber.trans left.tFiber
      have dstKind : m.kind dst = some fd.useSharedStack := kind_eq.2 ⟨fd, here, rfl⟩
      -- a shared-stack fiber is only entered through its own context
      have itself : m.kind fd.ctx.code = some true ∨ m.kind dst = some true → fd.ctx.code = dst := by
        intro either
        refine sound.own ?_
        rcases either with code | code
        · exact Option.some.inj (sound.code.symm.trans code)
        · exact Option.some.inj (dstKind.symm.trans code)
      refine ⟨⟨arrived, ?_, ?_, ?_, ?_⟩, ?_⟩
      · rw [kinds, running, current, sound.code, dstKind]
        exact ⟨nofun, nofun⟩
      · rw [kinds, running, current]
        exact fun either => (itself either).symm
      · intro shared
        rw [kinds, running] at shared
        rw [running, itself (.inl shared)]
        obtain ⟨id, slot, owned⟩ := target (left.kind ▸ itself (.inl shared) ▸ shared)
        refine ⟨id, ?_, ?_⟩
        · exact (congrFun (alike.slotOf.trans left.slotOf) dst).trans slot
        · rw [alike.slots]
          exact (congrArg Slot.owner (congrFun left.slots id)).trans owned
      · intro shared
        rw [kinds, running] at shared
        rw [running, itself (.inl shared)]
        exact (congrFun (alike.alive.trans left.alive) dst).trans
          (targetAlive (left.kind ▸ itself (.inl shared) ▸ shared))
      · intro b other out
        rw [running] at other out ⊢
        have out' : m.switchedOut fd.ctx.code = some b := (left.others _ other).trans out
        cases isShared : fd.useSharedStack with
        | false =>
          obtain ⟨c, hc, isPrivate⟩ := kind_eq.1 (sound.code.trans (congrArg some isShared))
          cases out'.symm.trans ((saved.sound _ c hc).private_ isPrivate)
        | true =>
          have code := sound.own isShared
          rw [code] at other out' ⊢
          obtain ⟨id, slot, owned⟩ := target (left.kind ▸ dstKind.trans (congrArg some isShared))
          have slot' : m.slotOf dst = some id := (congrFun left.slotOf dst).trans slot
          obtain ⟨fd', here', -, fslot⟩ := slotOf_eq.1 slot'
          cases here.symm.trans here'
          have owned' : (m.slots id).owner = some dst := (congrArg Slot.owner (congrFun left.slots id)).trans owned
          have apart : dst ≠ m.running := fun same => other (same.trans left.running)
          have bytes := (sound.stacked id isShared fslot).kept owned' apart b out'
          exact (congrFun alike.live dst).trans ((live_eq here slot').trans (congrArg some bytes))
    · cases done
  · cases done

/-! ## Between the switches -/

/-- Both thread-local views of the current fiber have the same kind of stack. -/
theorem Kept.kinds (h : Kept p s) : s.kind s.tFiber = s.kind s.running := by
  obtain ⟨running, current⟩ := h.exists_
  cases k : s.kind s.running with
  | none => exact absurd k running
  | some shared =>
    cases l : s.kind s.tFiber with
    | none => exact absurd l current
    | some shared' =>
      cases shared with
      | true => rw [← k, ← l, h.aligned (.inl k)]
      | false =>
        cases shared' with
        | true => rw [← k, ← l, h.aligned (.inr l)]
        | false => rfl

theorem Kept.quiet (h : Kept p s) {change : Fiber → Fiber} (quiet : Quiet change)
    (parent : ∀ f, s.fibers r = some f → ∀ q, (change f).parent = some q →
      f.parent = some q ∨ s.kind q = some false ∨ s.kind q = some true ∧ f.useSharedStack = false) :
    Kept p (s.modify r change) := by
  have alike := quiet.alike (s := s) (r := r)
  refine ⟨h.toStored.quiet quiet parent, ?_, ?_, ?_, ?_⟩
  · rw [alike.kind]
    exact h.exists_
  · rw [alike.kind]
    exact h.aligned
  · exact alike.holding h.holding
  · rw [alike.kind, alike.alive]
    exact h.awake

theorem Kept.prepare (h : Kept p s) {marker : Nat}
    (privately : s.kind r = some true → s.kind s.running = some false)
    (alive : s.alive r = true) (done : s.prepare p r marker = some s') : Kept p s' ∧ Steady s s' ∧ s'.Holding r := by
  obtain ⟨stored, steady, holding⟩ :=
    h.toStored.prepare (fun shared => ⟨privately shared, h.kinds.trans (privately shared)⟩) alive done
  refine ⟨⟨stored, ?_, ?_, ?_, ?_⟩, steady, holding⟩
  · rw [steady.kind, steady.running, steady.tFiber]
    exact h.exists_
  · rw [steady.kind, steady.running, steady.tFiber]
    exact h.aligned
  · rw [steady.running]
    by_cases shared : s.kind r = some true
    · intro running
      cases (privately shared).symm.trans (steady.kind ▸ running)
    · rw [prepare_private shared done]
      exact h.holding
  · rw [steady.kind, steady.running, steady.alive]
    exact h.awake

/-! ## The operations -/

theorem Kept.base (h : Kept p s) (f : Fiber) : s.kind (s.base f) = some false := by
  unfold Thread.base
  split
  · exact h.scheduler
  · exact h.main

theorem Kept.issuer_private (h : Kept p s) (issuer : s.running = tThreadFiber ∨ s.running = s.tSchedulerFiber) :
    s.kind s.running = some false := by
  rcases issuer with main | scheduler
  · rw [main]
    exact h.main
  · rw [scheduler]
    exact h.scheduler

theorem Kept.resume (h : Kept p s) {sp marker : Nat} (done : s.resume p r sp marker = some s') :
    Kept p s' ∧ Regains s s' := by
  unfold Thread.resume at done
  split at done
  · cases done
  rename_i fb here
  split at done
  · rename_i guard
    obtain ⟨alive, -, issuer⟩ := guard
    have privately := h.issuer_private issuer
    obtain ⟨m, prepared, done⟩ := Option.bind_eq_some_iff.1 done
    have aliveR : s.alive r = true := by simp [Thread.alive, here, alive]
    obtain ⟨kept, steady, holding⟩ := h.prepare (fun _ => privately) aliveR prepared
    have quiet : Quiet fun f => { f with state := .running } := {}
    have alike := quiet.alike (s := m) (r := r)
    have kept' : Kept p (m.setState r .running) := kept.quiet quiet fun _ _ q hq => .inl hq
    have kinds : (m.setState r .running).kind = s.kind := alike.kind.trans steady.kind
    have running : (m.setState r .running).running = s.running := steady.running
    obtain ⟨after, regains⟩ := kept'.swap
      (fun shared => by rw [kinds, running, privately] at shared; cases shared) (fun _ => kept'.base fb)
      (alike.holding holding) (fun _ => (congrFun (alike.alive.trans steady.alive) r).trans aliveR) done
    refine ⟨after, fun b other out => regains b (running ▸ other) ?_⟩
    exact (congrFun steady.switchedOut _).trans out
  · cases done

theorem callCode_ok (f : Fiber) (this : Ref) : s.callCode f this = .ok ↔
    f.state = .ready ∧ s.tFiber ≠ this ∧ (f.useSharedStack = true → s.isShared s.tFiber = false) := by
  unfold callCode
  split_ifs with state self both
  · simp [state]
  · simp [self]
  · simp_all
  · simp_all

/-- A shared-stack callee is only entered from private stacks. -/
theorem Kept.callee_private (h : Kept p s) (here : s.fibers r = some f) (code : s.callCode f r = .ok) :
    s.kind r = some true → s.kind s.running = some false := by
  intro shared
  have current := ((callCode_ok f r).1 code).2.2 (by simpa [kind, here] using shared)
  obtain ⟨g, hg⟩ : ∃ g, s.fibers s.tFiber = some g := by
    simpa [kind, Option.ne_none_iff_exists'] using h.exists_.2
  rw [← h.kinds, kind_eq]
  exact ⟨g, hg, by simpa [isShared, hg] using current⟩

/-- So a caller with a shared stack calls a private one. -/
theorem Kept.caller_kind (h : Kept p s) (privately : s.kind r = some true → s.kind s.running = some false)
    (here : s.fibers r = some f) :
    s.kind s.tFiber = some false ∨ s.kind s.tFiber = some true ∧ f.useSharedStack = false := by
  cases shared : f.useSharedStack with
  | true =>
    refine .inl ?_
    rw [h.kinds]
    exact privately (kind_eq.2 ⟨f, here, shared⟩)
  | false =>
    cases current : s.kind s.tFiber with
    | none => exact absurd current h.exists_.2
    | some k =>
      cases k with
      | false => exact .inl rfl
      | true => exact .inr ⟨rfl, rfl⟩

theorem Kept.call (h : Kept p s) {sp marker : Nat} (done : s.call p r sp marker = some s') :
    Kept p s' ∧ Regains s s' := by
  unfold Thread.call at done
  split at done
  · cases done
  rename_i fb here
  split at done
  · cases done
  rename_i isAlive
  split at done
  · rename_i code
    have aliveR : s.alive r = true := by simpa [Thread.alive, here] using isAlive
    have privately := h.callee_private here code
    obtain ⟨m, prepared, done⟩ := Option.bind_eq_some_iff.1 done
    obtain ⟨kept, steady, holding⟩ := h.prepare privately aliveR prepared
    have quiet : Quiet fun f => { f with parent := some m.tFiber, returnToParent := true, state := .running } := {}
    have alike := quiet.alike (s := m) (r := r)
    have kept' := kept.quiet (r := r) quiet fun f hf q hq => by
      cases hq
      exact .inr (kept.caller_kind (by rwa [steady.kind, steady.running]) hf)
    obtain ⟨after, regains⟩ := kept'.swap
      (fun running => kept.aligned (.inl (alike.kind ▸ running)))
      (fun running => by
        rw [alike.kind] at running ⊢
        exact kept.kinds.trans running)
      (alike.holding holding)
      (fun _ => (congrFun (alike.alive.trans steady.alive) r).trans aliveR) done
    exact ⟨after, fun b other out => regains b (fun same => other (same.trans steady.running))
      ((congrFun steady.switchedOut _).trans out)⟩
  · cases done
    exact ⟨h, fun b other => absurd rfl other⟩

/-- The fiber a switch saves: the running one, or a private one if that runs. -/
def Switches (s : Thread) (this : Ref) : Prop := this = s.running ∨ this = s.tFiber

theorem Kept.switches_shared (h : Kept p s) {this : Ref} (is : s.Switches this)
    (shared : s.kind s.running = some true) : this = s.running :=
  is.elim (fun running => running) fun current => current.trans (h.aligned (.inl shared))

theorem Kept.switches_kind (h : Kept p s) {this : Ref} (is : s.Switches this) : s.kind this = s.kind s.running := by
  rcases is with rfl | rfl
  · rfl
  · exact h.kinds

/-- A parent with a shared stack called a private fiber. -/
theorem Kept.parent_private (h : Kept p s) {this parent : Ref} (is : s.Switches this) (here : s.fibers this = some f)
    (isParent : f.parent = some parent) : s.kind parent = some true → s.kind s.running = some false := by
  intro shared
  rcases (h.sound this f here).parent parent isParent with privately | ⟨-, isPrivate⟩
  · cases privately.symm.trans shared
  · rw [← h.switches_kind is, kind_eq]
    exact ⟨f, here, isPrivate⟩

theorem Kept.back (h : Kept p s) {this : Ref} (is : s.Switches this) {sp marker : Nat} {point : Point}
    (done : s.back p this sp marker point = some s') : Kept p s' ∧ Regains s s' := by
  unfold Thread.back at done
  split at done
  · cases done
  rename_i parent hasParent
  split at done
  · rename_i alive
    obtain ⟨f, here, isParent⟩ := Option.bind_eq_some_iff.1 hasParent
    have quiet : Quiet fun f => { f with parent := none, returnToParent := false } := {}
    have alike := quiet.alike (s := s) (r := this)
    have kept := h.quiet (r := this) quiet fun _ _ q hq => by cases hq
    obtain ⟨m, prepared, done⟩ := Option.bind_eq_some_iff.1 done
    have apart := h.parent_private is here isParent
    obtain ⟨kept', steady, holding⟩ := kept.prepare (by rw [alike.kind]; exact apart)
      ((congrFun alike.alive parent).trans alive) prepared
    have kinds : m.kind = s.kind := steady.kind.trans alike.kind
    obtain ⟨after, regains⟩ := kept'.swap
      (fun shared => (h.switches_shared is (by rwa [kinds, steady.running] at shared)).trans steady.running.symm)
      (fun privately => by
        rw [kinds, steady.running] at privately
        rw [kinds, h.switches_kind is]
        exact privately)
      holding (fun _ => (congrFun (steady.alive.trans alike.alive) parent).trans alive) done
    exact ⟨after, fun b other out => regains b (fun same => other (same.trans steady.running))
      ((congrFun steady.switchedOut _).trans out)⟩
  · cases done

theorem Kept.yield (h : Kept p s) {this : Ref} (is : s.Switches this) {sp marker : Nat} {point : Point}
    (done : s.yield p this sp marker point = some s') : Kept p s' ∧ Regains s s' := by
  unfold Thread.yield at done
  split at done
  · cases done
  rename_i f here
  split at done
  · have quiet : Quiet fun f => { f with state := .ready } := {}
    have ready : Kept p (if f.state = .term then s else s.setState this .ready) := by
      split
      · exact h
      · exact h.quiet quiet fun _ _ q hq => .inl hq
    have same : ∀ m : Thread, m = (if f.state = .term then s else s.setState this .ready) →
        m.Switches this ∧ m.switchedOut = s.switchedOut ∧ m.running = s.running := by
      rintro m rfl
      split
      · exact ⟨is, rfl, rfl⟩
      · exact ⟨is, rfl, rfl⟩
    obtain ⟨is', out', running'⟩ := same _ rfl
    simp only at done
    generalize (if f.state = .term then s else s.setState this .ready) = m at done ready is' out' running'
    have regain : Regains m s' → Regains s s' := fun regains b other out =>
      regains b (running' ▸ other) ((congrFun out' _).trans out)
    split at done
    · exact (ready.back is' done).imp_right regain
    · refine (ready.swap (ready.switches_shared is') (fun privately => ?_) ?_ ?_ done).imp_right regain
      · rw [ready.switches_kind is', privately]
      · intro shared
        cases (ready.base f).symm.trans shared
      · intro shared
        cases (ready.base f).symm.trans shared
  · cases done

theorem Kept.finish (h : Kept p s) {sp marker : Nat} (done : s.finish p sp marker = some s') :
    Kept p s' ∧ Regains s s' := by
  unfold Thread.finish at done
  split at done
  · have quiet : Quiet fun f => { f with state := .term, curr := false } := {}
    have kept := h.quiet (r := s.running) quiet fun _ _ q hq => .inl hq
    obtain ⟨after, regains⟩ := kept.yield (.inl rfl) done
    exact ⟨after, regains⟩
  · cases done

theorem Kept.writeStack (h : Kept p s) {offset : Nat} {value : UInt8}
    (done : s.writeStack p offset value = some s') : Kept p s' := by
  unfold Thread.writeStack at done
  split at done
  · cases done
  rename_i id slot
  split at done
  · rename_i below
    cases done
    have sameBlock : (s.slots id).Same ((s.slots id).write offset value) := Slot.same_write offset value
    obtain ⟨f, here, shared, fslot⟩ := slotOf_eq.1 slot
    obtain ⟨id', slot', owned⟩ := h.holding (kind_eq.2 ⟨f, here, shared⟩)
    cases slot.symm.trans slot'
    have owners : ∀ id', (((s.modifySlot id (·.write offset value)).slots id').owner) = (s.slots id').owner := by
      intro id'
      rw [slots_modifySlot]
      split
      · rename_i same
        rw [same]
        rfl
      · rfl
    refine ⟨⟨?_, h.fresh, h.silent, h.main, h.scheduler, fun id' x owner => h.owners id' x (owners id' ▸ owner)⟩,
      h.exists_, h.aligned, fun _ => ⟨id, slot, (owners id).trans owned⟩, h.awake⟩
    intro x g hg
    have sound := h.sound x g hg
    refine ⟨sound.code, sound.own, sound.parent, sound.private_, sound.dead, ?_, sound.unstacked⟩
    intro id' shared' slot''
    have stacked := sound.stacked id' shared' slot''
    rw [slots_modifySlot]
    split
    · rename_i same
      subst same
      -- the running fiber owns the slot: everybody else's bytes are in a snapshot
      refine ⟨stacked.ready, stacked.room.same sameBlock, Slot.zeroed_write value below stacked.zeroed,
        stacked.inside.same sameBlock, ?_, ?_⟩
      · intro owner apart
        exact absurd (Option.some.inj (owner.symm.trans owned)) apart
      · intro other
        exact Saved.same (stacked.saved other) sameBlock
    · exact stacked
  · cases done

end Mycoroutine.Thread
