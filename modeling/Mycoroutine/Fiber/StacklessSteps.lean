import Mycoroutine.Fiber.Stackless

/-!
# Every step is a step of the view

`resume`, `call`, `back` and `yield` prepare and switch, and so does the view. Creating,
resetting and destroying fibers and writing to a stack follow the thread too.
-/

namespace Mycoroutine.Thread
set_option autoImplicit false
open Interleave

variable {p : Host} {s m : Thread} {r x : Ref} {f : Fiber} {id : SlotId} {sp below marker : Nat} {point : Point}

/-- A running shared-stack fiber has run, so its entry word fits. -/
theorem Settled.fits (h : Settled p.toPlatform s) (slot : s.slotOf x = some id) : Fits p.arch id.size := by
  obtain ⟨f, here, shared, fslot⟩ := slotOf_eq.1 slot
  cases h.fibers x f here with
  | privately kind _ _ _ => cases shared.symm.trans kind
  | unbound _ _ noSlot _ _ _ => cases noSlot.symm.trans fslot
  | bound id' _ _ slot' size fits _ =>
    cases slot'.symm.trans fslot
    rw [size]
    exact fits

theorem Settled.below_spAt (h : Settled p.toPlatform s) (below : Nat) :
    s.Below p.toPlatform (s.spAt p.toPlatform below) below := fun id slot => by
  simp only [spAt, slot]
  exact h.inside_iff (h.fits slot) below

/-- Every stack pointer is at some distance. -/
theorem exists_below (p : Host) (s : Thread) (sp : Nat) : ∃ below, s.Below p.toPlatform sp below := by
  cases slot : s.slotOf s.running with
  | none => exact ⟨0, fun id is => by cases slot.symm.trans is⟩
  | some id =>
    by_cases inside : (s.slots id).Inside p.arch sp
    · refine ⟨0, fun id' is => ?_⟩
      cases slot.symm.trans is
      simp [inside]
    · refine ⟨depth p.arch id.size + 1, fun id' is => ?_⟩
      cases slot.symm.trans is
      simp [inside]

theorem Below.quiet {change : Fiber → Fiber} (at_ : s.Below p.toPlatform sp below) (quiet : Quiet change) :
    (s.modify r change).Below p.toPlatform sp below := fun id slot => by
  rw [quiet.alike.slotOf] at slot
  exact at_ id slot

/-- A private stack runs, or nothing is prepared. -/
theorem Below.prepare (at_ : s.Below p.toPlatform sp below) (privately : s.kind r = some true → s.kind s.running = some false)
    (steady : Steady s m) (done : s.prepare p.toPlatform r marker = some m) : m.Below p.toPlatform sp below := by
  intro id slot
  by_cases shared : s.kind r = some true
  · obtain ⟨f, here, isShared, -⟩ := slotOf_eq.1 slot
    have kind : m.kind m.running = some true := kind_eq.2 ⟨f, here, isShared⟩
    rw [steady.kind, steady.running] at kind
    cases kind.symm.trans (privately shared)
  · have same := prepare_private shared done
    subst same
    exact at_ id slot

/-! ## Changes both make -/

/-- A quiet change that the view makes too. -/
structure Plain (change : Fiber → Fiber) : Prop extends Quiet change where
  owner : ∀ f, (change f).ownerThread = f.ownerThread := by intro f; rfl
  size : ∀ f, (change f).stacksize = f.stacksize := by intro f; rfl
  seen : ∀ x f, (change f).stackless x = change (f.stackless x) := by intro x f; rfl

theorem Plain.stackless {change : Fiber → Fiber} (plain : Plain change) :
    (s.modify r change).stackless = s.stackless.modify r change :=
  stackless_quiet plain.seen plain.ready

/-- A fiber that has no context keeps its state. -/
theorem Plain.settled {change : Fiber → Fiber} (plain : Plain change) (h : Settled p.toPlatform s)
    (still : s.Ready r ∨ ∀ f, (change f).state = f.state ∧ (change f).curr = f.curr) :
    Settled p.toPlatform (s.modify r change) := by
  refine h.modify fun f here settles =>
    settles.keep (plain.shared f) (plain.toQuiet.ready f) (plain.slot f) (plain.owner f) (plain.size f) ?_
  rcases still with ⟨f', here', ready⟩ | same
  · cases here.symm.trans here'
    exact .inl ready
  · exact .inr (same f)

/-! ## Switches -/

/-- What `resume` and `call` do once the fiber is prepared. -/
theorem Kept.enter_agrees (kept : Kept p.toPlatform m) (h : Settled p.toPlatform m) (at_ : m.Below p.toPlatform sp below)
    (exists_ : m.kind r ≠ none) (holding : m.Holding r) {change : Fiber → Fiber} (plain : Plain change) {src : Ref}
    (parent : ∀ f, m.fibers r = some f → ∀ q, (change f).parent = some q →
      f.parent = some q ∨ m.kind q = some false ∨ m.kind q = some true ∧ f.useSharedStack = false)
    (shared : m.kind m.running = some true → src = m.running)
    (privately : m.kind m.running = some false → m.kind src = some false) :
    Agrees p ((m.modify r change).swap p.toPlatform sp src r point)
      (View.swap p.arch (m.stackless.modify r change) below src r point) := by
  have quiet := plain.toQuiet
  have alike := quiet.alike (s := m) (r := r)
  have kept' := kept.quiet quiet parent
  rw [← plain.stackless]
  refine kept'.swap_settled (plain.settled h (.inl (h.ready_holding exists_ holding))) (at_.quiet quiet) ?_ ?_ ?_
    (alike.holding holding)
  · rw [alike.kind]
    exact shared
  · rw [alike.kind]
    exact privately
  · rw [alike.kind]
    exact exists_

theorem Kept.resume_agrees (kept : Kept p.toPlatform s) (h : Settled p.toPlatform s) (at_ : s.Below p.toPlatform sp below) :
    Agrees p (s.resume p.toPlatform r sp marker) (View.resume p.arch s.stackless r below) := by
  unfold Thread.resume View.resume
  cases here : s.fibers r with
  | none =>
    rw [fibers_stackless_none here]
    exact agrees_none p
  | some fb =>
    rw [fibers_stackless here]
    dsimp only
    by_cases guard : fb.alive ∧ fb.state = .ready ∧ (s.running = tThreadFiber ∨ s.running = s.tSchedulerFiber)
    · have guard' : (fb.stackless r).alive ∧ (fb.stackless r).state = .ready ∧
          (s.stackless.running = tThreadFiber ∨ s.stackless.running = s.stackless.tSchedulerFiber) := guard
      rw [if_pos guard, if_pos guard']
      have privately := kept.issuer_private guard.2.2
      have alive : s.alive r = true := by simp [Thread.alive, here, guard.1]
      obtain ⟨view, settled⟩ := kept.prepare_settled h (fun _ => privately) alive marker
      refine Agrees.bind ⟨view, settled⟩ fun m prepared settled => ?_
      obtain ⟨kept', steady, holding⟩ := kept.prepare (fun _ => privately) alive prepared
      have private' : m.kind m.running = some false := by
        rw [steady.kind, steady.running]
        exact privately
      refine kept'.enter_agrees settled (at_.prepare (fun _ => privately) steady prepared) ?_ holding {}
        (fun _ _ q hq => .inl hq) (fun shared => ?_) (fun _ => kept'.base fb)
      · rw [steady.kind, kind_eq.2 ⟨fb, here, rfl⟩]
        exact Option.some_ne_none _
      · cases private'.symm.trans shared
    · have guard' : ¬ ((fb.stackless r).alive ∧ (fb.stackless r).state = .ready ∧
          (s.stackless.running = tThreadFiber ∨ s.stackless.running = s.stackless.tSchedulerFiber)) := guard
      rw [if_neg guard, if_neg guard']
      exact agrees_none p

theorem Kept.call_agrees (kept : Kept p.toPlatform s) (h : Settled p.toPlatform s) (at_ : s.Below p.toPlatform sp below) :
    Agrees p (s.call p.toPlatform r sp marker) (View.call p.arch s.stackless r below) := by
  unfold Thread.call View.call
  cases here : s.fibers r with
  | none =>
    rw [fibers_stackless_none here]
    exact agrees_none p
  | some fb =>
    rw [fibers_stackless here]
    dsimp only
    by_cases dead : fb.alive = false
    · have dead' : (fb.stackless r).alive = false := dead
      rw [if_pos dead, if_pos dead']
      exact agrees_none p
    have dead' : ¬ (fb.stackless r).alive = false := dead
    rw [if_neg dead, if_neg dead', callCode_stackless]
    by_cases code : s.callCode fb r = .ok
    · rw [if_pos code, if_pos code]
      have alive : s.alive r = true := by simpa [Thread.alive, here] using dead
      have privately := kept.callee_private here code
      obtain ⟨view, settled⟩ := kept.prepare_settled h privately alive marker
      refine Agrees.bind ⟨view, settled⟩ fun m prepared settled => ?_
      obtain ⟨kept', steady, holding⟩ := kept.prepare privately alive prepared
      have tFiber : m.stackless.tFiber = m.tFiber := rfl
      rw [tFiber]
      refine kept'.enter_agrees settled (at_.prepare privately steady prepared) ?_ holding {} (fun f hf q hq => ?_)
        (fun running => kept'.aligned (.inl running)) (fun running => kept'.kinds.trans running)
      · rw [steady.kind, kind_eq.2 ⟨fb, here, rfl⟩]
        exact Option.some_ne_none _
      · cases hq
        exact .inr (kept'.caller_kind (by rwa [steady.kind, steady.running]) hf)
    · rw [if_neg code, if_neg code]
      exact agrees_some h

theorem Kept.back_agrees (kept : Kept p.toPlatform s) (h : Settled p.toPlatform s) {this : Ref} (is : s.Switches this)
    (at_ : s.Below p.toPlatform sp below) :
    Agrees p (s.back p.toPlatform this sp marker point) (View.back p.arch s.stackless this below point) := by
  unfold Thread.back View.back
  have parents : (s.stackless.fibers this).bind (·.parent) = (s.fibers this).bind (·.parent) := by
    simp only [stackless]
    cases s.fibers this <;> rfl
  rw [parents]
  cases hasParent : (s.fibers this).bind (·.parent) with
  | none => exact agrees_none p
  | some parent =>
    dsimp only
    rw [alive_stackless]
    by_cases alive : s.alive parent = true
    · rw [if_pos alive, if_pos alive]
      obtain ⟨f, here, isParent⟩ := Option.bind_eq_some_iff.1 hasParent
      have plain : Plain fun f => { f with parent := none, returnToParent := false } := {}
      have quiet := plain.toQuiet
      have alike := quiet.alike (s := s) (r := this)
      have kept' := kept.quiet (r := this) quiet fun _ _ q hq => by cases hq
      have settled := plain.settled (r := this) h (.inr fun _ => ⟨rfl, rfl⟩)
      have apart := kept.parent_private is here isParent
      rw [← plain.stackless]
      have aliveParent := (congrFun alike.alive parent).trans alive
      have privately : (s.modify this fun f => { f with parent := none, returnToParent := false }).kind parent = some true →
          (s.modify this fun f => { f with parent := none, returnToParent := false }).kind s.running = some false := by
        rw [alike.kind]
        exact apart
      obtain ⟨view, settled'⟩ := kept'.prepare_settled settled privately aliveParent marker
      refine Agrees.bind ⟨view, settled'⟩ fun m prepared settled => ?_
      obtain ⟨kept'', steady, holding⟩ := kept'.prepare privately aliveParent prepared
      have kinds : m.kind = s.kind := steady.kind.trans alike.kind
      refine kept''.swap_settled settled ((at_.quiet quiet).prepare privately steady prepared) (fun shared => ?_)
        (fun privately => ?_) ?_ holding
      · exact (kept.switches_shared is (by rwa [kinds, steady.running] at shared)).trans steady.running.symm
      · rw [kinds, steady.running] at privately
        rw [kinds, kept.switches_kind is]
        exact privately
      · intro missing
        rw [kinds] at missing
        unfold Thread.alive at alive
        cases known : s.fibers parent with
        | none => simp [known] at alive
        | some g => simp [kind, known] at missing
    · rw [if_neg alive, if_neg alive]
      exact agrees_none p

theorem Kept.yield_agrees (kept : Kept p.toPlatform s) (h : Settled p.toPlatform s) {this : Ref} (is : s.Switches this)
    (at_ : s.Below p.toPlatform sp below) :
    Agrees p (s.yield p.toPlatform this sp marker point) (View.yield p.arch s.stackless this below point) := by
  unfold Thread.yield View.yield
  cases here : s.fibers this with
  | none =>
    rw [fibers_stackless_none here]
    exact agrees_none p
  | some f =>
    rw [fibers_stackless here]
    dsimp only
    by_cases state : f.state = .running ∨ f.state = .term
    · have state' : (f.stackless this).state = .running ∨ (f.stackless this).state = .term := state
      rw [if_pos state, if_pos state']
      have middle : ∃ m, (if f.state = .term then s else s.setState this .ready) = m ∧
          (if (f.stackless this).state = .term then s.stackless else s.stackless.setState this .ready) = m.stackless ∧
          Kept p.toPlatform m ∧ Settled p.toPlatform m ∧ m.Switches this ∧ m.Below p.toPlatform sp below := by
        by_cases term : f.state = .term
        · have term' : (f.stackless this).state = .term := term
          rw [if_pos term, if_pos term']
          exact ⟨s, rfl, rfl, kept, h, is, at_⟩
        · have term' : ¬ (f.stackless this).state = .term := term
          rw [if_neg term, if_neg term']
          have plain : Plain fun f => { f with state := .ready } := {}
          refine ⟨_, rfl, plain.stackless.symm, kept.quiet plain.toQuiet fun _ _ q hq => .inl hq, plain.settled h (.inl ?_), is,
            at_.quiet plain.toQuiet⟩
          cases h.fibers this f here with
          | privately _ ready _ _ => exact ⟨f, here, ready⟩
          | unbound _ _ _ _ isReady _ => simp [isReady] at state
          | bound _ _ ready _ _ _ _ => exact ⟨f, here, ready⟩
      obtain ⟨m, isM, seenM, kept', settled, is', at'⟩ := middle
      rw [isM, seenM, alive_stackless]
      by_cases returns : f.returnToParent ∧ f.parent.any m.alive
      · have returns' : (f.stackless this).returnToParent ∧ (f.stackless this).parent.any m.alive := returns
        rw [if_pos returns, if_pos returns']
        exact kept'.back_agrees settled is' at'
      · have returns' : ¬ ((f.stackless this).returnToParent ∧ (f.stackless this).parent.any m.alive) := returns
        rw [if_neg returns, if_neg returns']
        have base : m.kind (m.base f) = some false := kept'.base f
        refine kept'.swap_settled settled at' (kept'.switches_shared is') (fun privately => ?_) (fun missing => ?_) fun shared => ?_
        · rw [kept'.switches_kind is', privately]
        · cases base.symm.trans missing
        · cases base.symm.trans shared
    · have state' : ¬ ((f.stackless this).state = .running ∨ (f.stackless this).state = .term) := state
      rw [if_neg state, if_neg state']
      exact agrees_none p

theorem Kept.finish_agrees (kept : Kept p.toPlatform s) (h : Settled p.toPlatform s) (at_ : s.Below p.toPlatform sp below) :
    Agrees p (s.finish p.toPlatform sp marker) (View.finish p.arch s.stackless below) := by
  unfold Thread.finish View.finish
  have same : ((s.stackless.fibers s.stackless.running).any (·.curr)) = ((s.fibers s.running).any (·.curr)) := by
    simp only [stackless]
    cases s.fibers s.running <;> rfl
  rw [same]
  by_cases inside : (s.fibers s.running).any (·.curr) = true
  · rw [if_pos inside, if_pos inside]
    have plain : Plain fun f => { f with state := .term, curr := false } := {}
    have settled := plain.settled h (.inl (h.ready_holding kept.exists_.1 kept.holding))
    have kept' := kept.quiet (r := s.running) plain.toQuiet fun _ _ q hq => .inl hq
    have seen := plain.stackless (s := s) (r := s.running)
    have running : s.stackless.running = s.running := rfl
    rw [running, ← seen]
    exact kept'.yield_agrees settled (.inl rfl) (at_.quiet plain.toQuiet)
  · rw [if_neg inside, if_neg inside]
    exact agrees_none p

/-! ## The other steps -/

theorem Kept.write_agrees (kept : Kept p.toPlatform s) (h : Settled p.toPlatform s) (offset : Nat) (value : UInt8) :
    Agrees p (s.writeStack p.toPlatform offset value) (View.write p.arch s.stackless offset) := by
  obtain ⟨f, here, -⟩ := h.ready_holding kept.exists_.1 kept.holding
  have seen : s.stackless.fibers s.stackless.running = some (f.stackless s.running) := fibers_stackless here
  unfold Thread.writeStack View.write
  rw [seen]
  cases h.fibers _ f here with
  | privately kind _ _ _ =>
    have noSlot : s.slotOf s.running = none := by simp [slotOf, here, kind]
    simp only [noSlot]
    rw [if_neg (by simp [Fiber.stackless, kind])]
    exact agrees_none p
  | unbound kind _ noSlot _ _ _ =>
    obtain ⟨id, slot, -⟩ := kept.holding (kind_eq.2 ⟨f, here, kind⟩)
    simp [slotOf, here, noSlot] at slot
  | bound id kind _ slot size fits _ =>
    have isSlot : s.slotOf s.running = some id := slotOf_eq.2 ⟨f, here, kind, slot⟩
    rw [← size] at fits
    have same : (s.slots id).stack + offset < (s.slots id).entry p.arch ↔ offset < depth p.arch f.stacksize := by
      rw [h.entry_eq fits, size]
      omega
    simp only [isSlot, same]
    by_cases inside : offset < depth p.arch f.stacksize
    · rw [if_pos inside, if_pos (by simp [Fiber.stackless, kind, inside])]
      exact ⟨rfl, fun _ is => Option.some.inj is ▸ h.modifySlot (Slot.same_write offset value)⟩
    · rw [if_neg inside, if_neg (by simp [Fiber.stackless, inside])]
      exact agrees_none p

/-- A new fiber is seen with its first context, which it may have to wait for. -/
theorem stackless_add (f : Fiber) : (s.add f).stackless.entered s.created =
    (s.stackless.add (f.stackless s.created)).entered s.created := by
  simp only [entered, stackless, Thread.add, Thread.modify, Thread.mk.injEq, and_true, true_and]
  refine ⟨?_, ?_⟩
  · funext x
    by_cases isNew : x = s.created
    · subst isNew
      simp
    · simp only [Function.update_of_ne isNew]
  · funext x
    by_cases isNew : x = s.created
    · subst isNew
      simp
    · simp only [Thread.unready, Function.update_of_ne isNew]
      rfl

theorem Settled.add (h : Settled p.toPlatform s) (settles : Settles p.toPlatform f) : Settled p.toPlatform (s.add f) := by
  refine ⟨fun x g here => ?_, h.blocks⟩
  by_cases isNew : x = s.created
  · subst isNew
    have same : f = g := by simpa [Thread.add] using here
    exact same ▸ settles
  · have old : s.fibers x = some g := by simpa [Thread.add, isNew] using here
    exact h.fibers x g old

theorem initFiberContext_private (here : s.fibers r = some f) (kind : f.useSharedStack = false) :
    ∃ m, s.initFiberContext p.toPlatform r = some m ∧ m.stackless = s.stackless.entered r ∧
      m.fibers = (s.modify r (·.withContext ⟨0, r, .entry⟩)).fibers ∧ m.slots = s.slots := by
  have noSlot : s.slotOf r = none := by simp [slotOf, here, kind]
  simp only [initFiberContext, noSlot]
  exact ⟨_, rfl, stackless_entered fun _ _ => rfl, rfl, rfl⟩

/-- Another first context, for a fiber that has run. -/
theorem initFiberContext_agrees (h : Settled p.toPlatform s) (here : s.fibers r = some f) (ready : f.ctxInitialized = true) :
    Agrees p (s.initFiberContext p.toPlatform r) (some (s.stackless.entered r)) := by
  have keeps : ∀ ctx g, s.fibers r = some g → Settles p.toPlatform g → Settles p.toPlatform (g.withContext ctx) :=
    fun ctx g hg settles => by
      cases here.symm.trans hg
      exact settles.keep rfl ready.symm rfl rfl rfl (.inl ready)
  cases h.fibers r f here with
  | unbound _ unready _ _ _ _ => cases unready.symm.trans ready
  | privately kind _ _ _ =>
    obtain ⟨m, done, seen, fibers, slots⟩ := initFiberContext_private (p := p) here kind
    have settled := h.modify (keeps ⟨0, r, .entry⟩)
    rw [done, ← seen]
    exact agrees_some ⟨fibers ▸ settled.fibers, slots ▸ h.blocks⟩
  | bound id kind _ slot size fits _ =>
    have isSlot : s.slotOf r = some id := slotOf_eq.2 ⟨f, here, kind, slot⟩
    rw [← size] at fits
    have room := (h.room_iff id).2 fits
    have settled := (h.modifySlot (Slot.same_initStack room.2)).modify (keeps ⟨(s.slots id).entry p.arch, r, .entry⟩)
    simp only [initFiberContext, isSlot]
    rw [if_pos room]
    refine ⟨congrArg some ?_, ?_⟩
    · exact stackless_entered (s := s.modifySlot id _) fun _ _ => rfl
    · rintro _ ⟨⟩
      exact ⟨settled.fibers, settled.blocks⟩

theorem add_unbound (h : Settled p.toPlatform s) (f : Fiber) (kind : f.useSharedStack = true)
    (unready : f.ctxInitialized = false) (slot : f.sharedStackSlot = none) (owner : f.ownerThread = -1)
    (state : f.state = .ready) (curr : f.curr = false) :
    Agrees p (some (s.add f)) (some ((s.stackless.add (f.stackless s.created)).entered s.created)) := by
  have here : (s.add f).fibers s.created = some f := Function.update_self ..
  rw [← stackless_add, entered_unready here unready]
  exact agrees_some (h.add (.unbound kind unready slot (.inl owner) state curr))

theorem add_private (h : Settled p.toPlatform s) (f : Fiber) (kind : f.useSharedStack = false)
    (slot : f.sharedStackSlot = none) (owner : f.ownerThread = -1) :
    Agrees p ((s.add f).initFiberContext p.toPlatform s.created)
      (some ((s.stackless.add (f.stackless s.created)).entered s.created)) := by
  have here : (s.add f).fibers s.created = some f := Function.update_self ..
  obtain ⟨m, done, seen, fibers, slots⟩ := initFiberContext_private (p := p) here kind
  rw [done, ← stackless_add, ← seen]
  refine agrees_some ⟨fun x g hg => ?_, fun id => by rw [slots]; exact h.blocks id⟩
  rw [fibers, fibers_modify] at hg
  split at hg
  · rename_i isNew
    rw [isNew, here] at hg
    cases hg
    exact .privately kind rfl slot owner
  · rename_i isOld
    have old : s.fibers x = some g := by simpa [Thread.add, isOld] using hg
    exact h.fibers x g old

theorem create_agrees (h : Settled p.toPlatform s) (stacksize : Nat) (runInScheduler useSharedStack : Bool) :
    Agrees p (s.create p.toPlatform stacksize runInScheduler useSharedStack)
      (View.create s.stackless stacksize runInScheduler useSharedStack) := by
  unfold Thread.create View.create
  generalize (if stacksize = 0 then 128000 else stacksize) % 2 ^ 32 = size
  dsimp only
  cases useSharedStack with
  | true =>
    rw [if_pos rfl, if_neg (by simp)]
    exact add_unbound h _ rfl rfl rfl rfl rfl rfl
  | false =>
    rw [if_neg (by simp)]
    by_cases empty : size = 0
    · rw [if_pos empty, if_pos ⟨rfl, empty⟩]
      exact agrees_none p
    · rw [if_neg empty, if_neg (by simp [empty])]
      exact add_private h _ rfl rfl rfl

/-- `reset` finds a fiber that has run, so a shared-stack one is bound to its slot. -/
theorem reset_agrees (h : Settled p.toPlatform s) :
    Agrees p (s.reset p.toPlatform r) (View.reset s.stackless r) := by
  unfold Thread.reset View.reset
  cases here : s.fibers r with
  | none =>
    rw [fibers_stackless_none here]
    exact agrees_none p
  | some f =>
    rw [fibers_stackless here]
    dsimp only
    have same : ((some (f.stackless r)).any fun f => f.alive ∧ f.state = .term) = true ↔ f.alive ∧ f.state = .term := by
      simp [Fiber.stackless]
    simp only [same]
    by_cases guard : f.alive ∧ f.state = .term
    · rw [if_pos guard, if_pos guard]
      have reset : (s.modify r ({ · with state := .ready, stackSnapshot := [], parent := none, returnToParent := false })).stackless =
          s.stackless.modify r ({ · with state := .ready, parent := none, returnToParent := false }) :=
        stackless_modify fun _ _ => ⟨rfl, rfl⟩
      have now : (s.modify r ({ · with state := .ready, stackSnapshot := [], parent := none, returnToParent := false })).fibers r =
          some { f with state := .ready, stackSnapshot := [], parent := none, returnToParent := false } := by
        simp [fibers_modify, here]
      have ready : f.ctxInitialized = true := by
        cases h.fibers r f here with
        | privately _ ready _ _ => exact ready
        | unbound _ _ _ _ state _ => cases state.symm.trans guard.2
        | bound _ _ ready _ _ _ _ => exact ready
      have slotted : ¬ (f.useSharedStack = true ∧ f.sharedStackSlot = none) := by
        cases h.fibers r f here with
        | privately kind _ _ _ => simp [kind]
        | unbound _ _ _ _ state _ => cases state.symm.trans guard.2
        | bound _ _ _ slot _ _ _ => simp [slot]
      have settled : Settled p.toPlatform
          (s.modify r ({ · with state := .ready, stackSnapshot := [], parent := none, returnToParent := false })) := by
        refine h.modify fun g hg settles => settles.keep rfl rfl rfl rfl rfl (.inl ?_)
        cases here.symm.trans hg
        exact ready
      rw [if_neg slotted, ← reset]
      refine initFiberContext_agrees (s := { s.modify r _ with switchedOut := _ }) ⟨settled.fibers, settled.blocks⟩ now ready
    · rw [if_neg guard, if_neg guard]
      exact agrees_none p

theorem destroy_agrees (h : Settled p.toPlatform s) : Agrees p (s.destroy r) (s.stackless.destroy r) := by
  unfold Thread.destroy
  cases here : s.fibers r with
  | none =>
    rw [fibers_stackless_none here]
    exact agrees_none p
  | some f =>
    rw [fibers_stackless here]
    dsimp only
    by_cases guard : f.alive ∧ f.curr = false ∧ r ≠ s.running ∧ r ≠ s.tFiber ∧ r ≠ tThreadFiber ∧ r ≠ s.tSchedulerFiber
    · have guard' : (f.stackless r).alive ∧ (f.stackless r).curr = false ∧ r ≠ s.stackless.running ∧ r ≠ s.stackless.tFiber ∧
          r ≠ tThreadFiber ∧ r ≠ s.stackless.tSchedulerFiber := guard
      rw [if_pos guard, if_pos guard']
      have seen : (s.modify r ({ · with alive := false, stackSnapshot := [] })).stackless =
          s.stackless.modify r ({ · with alive := false, stackSnapshot := [] }) :=
        stackless_quiet (fun _ _ => rfl) fun _ => rfl
      have nobody : Function.update s.stackless.switchedOut r none = s.stackless.switchedOut := Function.update_eq_self r _
      have settled : Settled p.toPlatform (s.modify r ({ · with alive := false, stackSnapshot := [] })) :=
        h.modify fun g _ settles => settles.keep rfl rfl rfl rfl rfl (.inr ⟨rfl, rfl⟩)
      refine ⟨congrArg some ?_, ?_⟩
      · rw [nobody]
        exact seen
      · rintro _ ⟨⟩
        exact ⟨settled.fibers, settled.blocks⟩
    · have guard' : ¬ ((f.stackless r).alive ∧ (f.stackless r).curr = false ∧ r ≠ s.stackless.running ∧
          r ≠ s.stackless.tFiber ∧ r ≠ tThreadFiber ∧ r ≠ s.stackless.tSchedulerFiber) := guard
      rw [if_neg guard, if_neg guard']
      exact agrees_none p

/-! ## Every step -/

theorem setSchedulerFiber_agrees (h : Settled p.toPlatform s) (f : Ref) :
    Agrees p (step p.toPlatform s (.setSchedulerFiber f)) (step p.toPlatform s.stackless (.setSchedulerFiber f)) := by
  simp only [step, alive_stackless, isShared_stackless]
  by_cases guard : s.alive f = true ∧ s.isShared f = false
  · rw [if_pos guard, if_pos guard]
    refine ⟨rfl, ?_⟩
    rintro _ ⟨⟩
    exact ⟨h.fibers, h.blocks⟩
  · rw [if_neg guard, if_neg guard]
    exact agrees_none p

/-- Every step of the thread is one of the view. -/
theorem Kept.step_agrees (kept : Kept p.toPlatform s) (h : Settled p.toPlatform s) (l : Label) :
    Agrees p (s.stepAt p.toPlatform l) (View.step p.toPlatform s.stackless l) := by
  cases l with
  | create stacksize runInScheduler useSharedStack => exact create_agrees h stacksize runInScheduler useSharedStack
  | destroy f => exact destroy_agrees h
  | reset f => exact reset_agrees h
  | resume f below marker => exact kept.resume_agrees h (h.below_spAt below)
  | call f below marker => exact kept.call_agrees h (h.below_spAt below)
  | yield below marker => exact kept.yield_agrees h (.inr rfl) (h.below_spAt below)
  | back below marker => exact kept.back_agrees h (.inr rfl) (h.below_spAt below)
  | finish below marker => exact kept.finish_agrees h (h.below_spAt below)
  | write offset value => exact kept.write_agrees h offset value
  | setSharedStackSlotCount count => exact ⟨rfl, fun _ is => Option.some.inj is ▸ ⟨h.fibers, h.blocks⟩⟩
  | setSchedulerFiber f => exact setSchedulerFiber_agrees h f

theorem Kept.step_settled (kept : Kept p.toPlatform s) (h : Settled p.toPlatform s) {l : Label}
    (done : Thread.step p.toPlatform s l = some m) : Settled p.toPlatform m := by
  cases l with
  | create stacksize runInScheduler useSharedStack =>
    exact (create_agrees h stacksize runInScheduler useSharedStack).settled m done
  | destroy f => exact (destroy_agrees h).settled m done
  | reset f => exact (reset_agrees h).settled m done
  | resume f sp marker =>
    obtain ⟨below, at_⟩ := exists_below p s sp
    exact (kept.resume_agrees h at_).settled m done
  | call f sp marker =>
    obtain ⟨below, at_⟩ := exists_below p s sp
    exact (kept.call_agrees h at_).settled m done
  | yield sp marker =>
    obtain ⟨below, at_⟩ := exists_below p s sp
    exact (kept.yield_agrees h (.inr rfl) at_).settled m done
  | back sp marker =>
    obtain ⟨below, at_⟩ := exists_below p s sp
    exact (kept.back_agrees h (.inr rfl) at_).settled m done
  | finish sp marker =>
    obtain ⟨below, at_⟩ := exists_below p s sp
    exact (kept.finish_agrees h at_).settled m done
  | write offset value => exact (kept.write_agrees h offset value).settled m done
  | setSharedStackSlotCount count =>
    cases done
    exact ⟨h.fibers, h.blocks⟩
  | setSchedulerFiber f => exact (setSchedulerFiber_agrees h f).settled m done

theorem settled_of_reach {slotCount : Nat} (h : (machine p.toPlatform slotCount).Reach s) : Settled p.toPlatform s :=
  h.invariant_with (Kept p.toPlatform) (fun _ => kept_of_reach) (settled_init p.toPlatform slotCount)
    fun _ _ _ kept settled _ done _ => kept.step_settled settled done

/-- **Refinement.** A run from a settled thread is seen as a run of the view. -/
theorem Kept.runAt_view (kept : Kept p.toPlatform s) (h : Settled p.toPlatform s) (ls : List Label) :
    (s.runAt p.toPlatform ls).map stackless = View.run p.toPlatform s.stackless ls := by
  induction ls generalizing s with
  | nil => rfl
  | cons l rest ih =>
    obtain ⟨view, settled⟩ := kept.step_agrees h l
    simp only [runAt, View.run, List.foldlM_cons] at ih ⊢
    rw [← view]
    cases done : s.stepAt p.toPlatform l with
    | none => rfl
    | some m => exact ih (kept.step done).1 (settled m done)

end Mycoroutine.Thread
