import Mycoroutine.Fiber.StackSurvives

/-!
# Entries that have not returned

`resume` and `call` enter a fiber and come back when it yields or ends. The
history kept beside the thread is the list of entries that have not come back,
latest first: the abstract control stack. The invariant says that the thread's
four fields (`t_fiber`, the parent links, the states, the saved contexts) agree
with it.
-/

namespace Mycoroutine.Thread
set_option autoImplicit false
open Interleave

variable {p : Platform} {s s' : Thread} {r x : Ref} {f : Fiber}

/-! ## The entries -/

inductive Entrance where
  | resumed
  | called
deriving DecidableEq

/-- A fiber that was entered and has not come back. -/
structure Entry where
  fiber : Ref
  how : Entrance
deriving DecidableEq

/-- The fibers on the control stack, the latest first. -/
def stack (pending : List Entry) : List Ref := pending.map (·.fiber) ++ [tThreadFiber]

/-- The latest fiber entered. -/
def top : List Entry → Ref
  | [] => tThreadFiber
  | e :: _ => e.fiber

structure Nesting where
  thread : Thread
  pending : List Entry

/-- What a step adds to the history, or takes from it. -/
def record (s : Thread) (pending : List Entry) : Label → List Entry
  | .resume f _ _ => ⟨f, .resumed⟩ :: pending
  | .call f _ _ => if (s.fibers f).any fun fb => s.callCode fb f = .ok then ⟨f, .called⟩ :: pending else pending
  | .yield .. | .back .. | .finish .. => pending.tail
  | _ => pending

/-- The thread with its history. -/
def nesting (p : Platform) (slotCount : Nat) : Machine Nesting Label where
  init := ⟨(machine p slotCount).init, []⟩
  step s l := (step p s.thread l).map fun thread => ⟨thread, record s.thread s.pending l⟩

/-- `resume` is issued by the fiber that `yield` would return to, `back` by
`yield` only, and the scheduler fiber is chosen outside of any entry. -/
def Issued (s : Nesting) : Label → Prop
  | .resume f _ _ => (s.thread.fibers f).any fun fb => s.thread.running = s.thread.base fb
  | .back .. => False
  | .setSchedulerFiber _ => s.thread.running = tThreadFiber
  | _ => True

/-- The same, in runs where the thread's main fiber, which nothing entered, does
not yield. -/
def Proper (s : Nesting) (l : Label) : Prop :=
  Issued s l ∧ match l with
    | .yield .. => s.thread.running ≠ tThreadFiber
    | _ => True

instance (s : Nesting) (l : Label) : Decidable (Issued s l) := by
  cases l <;> unfold Issued <;> infer_instance

instance (s : Nesting) (l : Label) : Decidable (Proper s l) := by
  cases l <;> unfold Proper <;> infer_instance

/-- The history changes nothing. -/
theorem thread_reach {slotCount : Nat} {cond : Nesting → Label → Prop} {n : Nesting}
    (h : (nesting p slotCount).ReachIf cond n) : (machine p slotCount).Reach n.thread := by
  induction h with
  | init => exact .init
  | step _ _ e ih =>
    obtain ⟨thread, moved, rfl⟩ := Option.map_eq_some_iff.1 e
    exact ih.step trivial moved

@[simp] theorem stack_cons (e : Entry) (rest : List Entry) : stack (e :: rest) = e.fiber :: stack rest := rfl

theorem top_mem_stack (pending : List Entry) : top pending ∈ stack pending := by
  cases pending with
  | nil => simp [stack, top]
  | cons e rest => exact List.mem_cons_self

theorem fiber_mem_stack {pending : List Entry} {e : Entry} (mem : e ∈ pending) : e.fiber ∈ stack pending :=
  List.mem_append_left _ (List.mem_map_of_mem mem)

/-! ## The invariant -/

/-- How an entered fiber and the one below it are joined. The one below stands in
`call` or `resume` until the entered fiber comes back. -/
structure Joined (s : Thread) (e : Entry) (q : Ref) (f b : Fiber) : Prop where
  entered : s.fibers e.fiber = some f
  below : s.fibers q = some b
  waits : s.continuation q = some q
  called : e.how = .called → f.parent = some q ∧ f.returnToParent = true ∧ b.ctx.point = .inCall e.fiber
  resumed : e.how = .resumed → f.parent = none ∧ f.returnToParent = false ∧ s.base f = q ∧ b.ctx.point = .inResume

def Linked (s : Thread) : List Entry → Prop
  | [] => True
  | e :: rest => (∃ f b, Joined s e (top rest) f b) ∧ Linked s rest

/-- What the invariant says about one fiber. -/
structure Placed (s : Thread) (pending : List Entry) (x : Ref) (f : Fiber) : Prop where
  own : f.ctx.code = x
  running : f.state = .running ↔ x ∈ stack pending
  unlinked : ⟨x, .called⟩ ∉ pending → f.parent = none ∧ f.returnToParent = false
  prepared : f.useSharedStack = false ∨ x ∈ stack pending → f.ctxInitialized = true
  waits : f.state = .ready → f.ctxInitialized = true →
    s.continuation x = some x ∧ (f.ctx.point = .entry ∨ f.ctx.point = .inYield ∧ f.curr = true)
  alive : x ∈ stack pending → f.alive = true
  curr : x ∈ stack pending → (f.curr = true ↔ x ≠ tThreadFiber)

/-- The thread agrees with the history. -/
structure Nested (s : Thread) (pending : List Entry) : Prop where
  executing : s.running = top pending
  current : s.tFiber = top pending
  once : (stack pending).Nodup
  exist : ∀ x ∈ stack pending, ∃ f, s.fibers x = some f
  placed : ∀ x f, s.fibers x = some f → Placed s pending x f
  linked : Linked s pending

theorem nested_init (slotCount : Nat) : Nested (nesting p slotCount).init.thread (nesting p slotCount).init.pending := by
  refine ⟨rfl, rfl, List.pairwise_singleton .., ?_, ?_, trivial⟩
  · intro x mem
    rw [List.mem_singleton.1 mem]
    exact ⟨_, rfl⟩
  · intro x f here
    have same : x = tThreadFiber := by
      by_contra apart
      simp [nesting, machine, apart] at here
    subst same
    cases here
    exact ⟨rfl, by simp [nesting, stack], fun _ => ⟨rfl, rfl⟩, fun _ => rfl, fun ready => (by cases ready), fun _ => rfl, by simp⟩

theorem Nested.top_running {pending : List Entry} (h : Nested s pending) :
    ∃ f, s.fibers s.running = some f ∧ Placed s pending s.running f ∧ s.running ∈ stack pending := by
  have mem : s.running ∈ stack pending := h.executing ▸ top_mem_stack pending
  obtain ⟨f, here⟩ := h.exist _ mem
  exact ⟨f, here, h.placed _ f here, mem⟩

/-- A chain of entries only depends on the links of the fibers entered and on the
contexts of those below the latest. -/
theorem Linked.keep {pending : List Entry} (h : Linked s pending) (scheduler : s'.tSchedulerFiber = s.tSchedulerFiber)
    (entered : ∀ e ∈ pending, ∀ f, s.fibers e.fiber = some f → ∃ f', s'.fibers e.fiber = some f' ∧
      f'.parent = f.parent ∧ f'.returnToParent = f.returnToParent ∧ f'.runInScheduler = f.runInScheduler)
    (below : ∀ x ∈ (stack pending).tail, ∀ b, s.fibers x = some b → ∃ b', s'.fibers x = some b' ∧
      b'.ctx.point = b.ctx.point ∧ (s.continuation x = some x → s'.continuation x = some x)) : Linked s' pending := by
  induction pending with
  | nil => exact trivial
  | cons e rest ih =>
    obtain ⟨⟨f, b, joined⟩, linked⟩ := h
    obtain ⟨f', here, parent, back, base⟩ := entered e List.mem_cons_self f joined.entered
    obtain ⟨b', under, point, waits⟩ := below (top rest) (top_mem_stack rest) b joined.below
    refine ⟨⟨f', b', here, under, waits joined.waits, ?_, ?_⟩, ?_⟩
    · rw [parent, back, point]
      exact joined.called
    · have sameBase : s'.base f' = s.base f := by
        unfold Thread.base
        rw [base, scheduler]
      rw [parent, back, point, sameBase]
      exact joined.resumed
    · exact ih linked (fun e' mem => entered e' (List.mem_cons_of_mem _ mem))
        fun x mem => below x (List.mem_of_mem_tail mem)

/-! ## What `prepareSharedStack` leaves alone -/

/-- What `prepareSharedStack` leaves alone in a fiber that has a context. One that
has none may get its first. -/
structure Untouched (x : Ref) (f f' : Fiber) : Prop where
  state : f'.state = f.state
  parent : f'.parent = f.parent
  back : f'.returnToParent = f.returnToParent
  base : f'.runInScheduler = f.runInScheduler
  shared : f'.useSharedStack = f.useSharedStack
  alive : f'.alive = f.alive
  curr : f'.curr = f.curr
  own : f.ctx.code = x → f'.ctx.code = x
  prepared : f.ctxInitialized = true → f'.ctxInitialized = true
  ctx : f.ctxInitialized = true → f'.ctx = f.ctx
  first : f.ctxInitialized = false → f'.ctxInitialized = true → f'.ctx.point = .entry

theorem Untouched.refl (x : Ref) (f : Fiber) : Untouched x f f :=
  ⟨rfl, rfl, rfl, rfl, rfl, rfl, rfl, id, id, fun _ => rfl, fun unready ready => by cases unready.symm.trans ready⟩

theorem Untouched.trans {g k : Fiber} (a : Untouched x f g) (b : Untouched x g k) : Untouched x f k := by
  refine ⟨b.state.trans a.state, b.parent.trans a.parent, b.back.trans a.back, b.base.trans a.base,
    b.shared.trans a.shared, b.alive.trans a.alive, b.curr.trans a.curr, b.own ∘ a.own, b.prepared ∘ a.prepared,
    fun ready => (b.ctx (a.prepared ready)).trans (a.ctx ready), fun unready ready => ?_⟩
  cases now : g.ctxInitialized with
  | false => exact b.first now ready
  | true =>
    rw [b.ctx now]
    exact a.first unready now

/-- A part of `prepareSharedStack`. -/
structure Calm (s s' : Thread) : Prop where
  running : s'.running = s.running
  tFiber : s'.tFiber = s.tFiber
  scheduler : s'.tSchedulerFiber = s.tSchedulerFiber
  waits : ∀ x, s.continuation x = some x → s'.continuation x = some x
  known : ∀ x f', s'.fibers x = some f' → ∃ f, s.fibers x = some f
  fibers : ∀ x f, s.fibers x = some f → ∃ f', s'.fibers x = some f' ∧ Untouched x f f' ∧
    (f.ctxInitialized = false → f'.ctxInitialized = true → s'.continuation x = some x)

theorem Calm.of_same (fibers : s'.fibers = s.fibers) (continuation : s'.continuation = s.continuation)
    (running : s'.running = s.running) (tFiber : s'.tFiber = s.tFiber)
    (scheduler : s'.tSchedulerFiber = s.tSchedulerFiber) : Calm s s' := by
  refine ⟨running, tFiber, scheduler, fun x waits => continuation ▸ waits, fun x f here => ⟨f, fibers ▸ here⟩,
    fun x f here => ⟨f, by rw [fibers, here], .refl x f, fun unready ready => ?_⟩⟩
  cases unready.symm.trans ready

theorem Calm.refl (s : Thread) : Calm s s := .of_same rfl rfl rfl rfl rfl

theorem Calm.trans {s s' s'' : Thread} (a : Calm s s') (b : Calm s' s'') : Calm s s'' := by
  refine ⟨b.running.trans a.running, b.tFiber.trans a.tFiber, b.scheduler.trans a.scheduler,
    fun x => b.waits x ∘ a.waits x, fun x f'' here => ?_, fun x f here => ?_⟩
  · obtain ⟨f', before⟩ := b.known x f'' here
    exact a.known x f' before
  · obtain ⟨f', now, same, enters⟩ := a.fibers x f here
    obtain ⟨f'', now', same', enters'⟩ := b.fibers x f' now
    refine ⟨f'', now', same.trans same', fun unready ready => ?_⟩
    cases middle : f'.ctxInitialized with
    | false => exact enters' middle ready
    | true => exact b.waits x (enters unready middle)

/-- A change of fields that no switch reads. -/
theorem calm_modify {change : Fiber → Fiber} (same : ∀ f, s.fibers r = some f → Untouched r f (change f))
    (ready : ∀ f, (change f).ctxInitialized = f.ctxInitialized) : Calm s (s.modify r change) := by
  refine ⟨rfl, rfl, rfl, fun _ => id, fun x f' here => ?_, fun x f here => ?_⟩
  · rw [fibers_modify] at here
    split at here
    · obtain ⟨f, before, -⟩ := Option.map_eq_some_iff.1 here
      exact ⟨f, before⟩
    · exact ⟨f', here⟩
  · rw [fibers_modify]
    split
    · rename_i mine
      subst mine
      refine ⟨change f, by rw [here]; rfl, same f here, fun unready now => ?_⟩
      rw [ready f, unready] at now
      cases now
    · exact ⟨f, here, .refl x f, fun unready now => by cases unready.symm.trans now⟩

theorem init_spec (done : s.initFiberContext p r = some s') :
    ∃ sp, s'.fibers = (s.modify r (·.withContext ⟨sp, r, .entry⟩)).fibers ∧
      s'.continuation = Function.update s.continuation r (some r) ∧ s'.running = s.running ∧ s'.tFiber = s.tFiber ∧
      s'.tSchedulerFiber = s.tSchedulerFiber := by
  unfold initFiberContext at done
  split at done
  · cases done
    exact ⟨0, rfl, rfl, rfl, rfl, rfl⟩
  · simp only at done
    split at done
    · cases done
      exact ⟨_, rfl, rfl, rfl, rfl, rfl⟩
    · cases done

/-- A fiber's first context. -/
theorem calm_init (here : s.fibers r = some f) (unready : f.ctxInitialized = false)
    (done : s.initFiberContext p r = some s') :
    Calm s s' ∧ ∃ f', s'.fibers r = some f' ∧ f'.ctxInitialized = true := by
  obtain ⟨sp, fibers, continuation, running, tFiber, scheduler⟩ := init_spec done
  have now : s'.fibers r = some (f.withContext ⟨sp, r, .entry⟩) := by
    rw [fibers, fibers_modify, if_pos rfl, here]
    rfl
  refine ⟨⟨running, tFiber, scheduler, fun x => ?_, fun x f' there => ?_, fun x g there => ?_⟩, _, now, rfl⟩
  · rw [continuation, Function.update_apply]
    split
    · rename_i mine
      rw [mine]
      exact fun _ => rfl
    · exact id
  · by_cases mine : x = r
    · exact ⟨f, mine ▸ here⟩
    · rw [fibers, fibers_modify, if_neg mine] at there
      exact ⟨f', there⟩
  · by_cases mine : x = r
    · subst mine
      cases here.symm.trans there
      refine ⟨_, now, ⟨rfl, rfl, rfl, rfl, rfl, rfl, rfl, fun _ => rfl, fun _ => rfl, fun ready => ?_, fun _ _ => rfl⟩,
        fun _ _ => ?_⟩
      · cases unready.symm.trans ready
      · rw [continuation, Function.update_self]
    · refine ⟨g, ?_, .refl x g, fun no yes => by cases no.symm.trans yes⟩
      rw [fibers, fibers_modify, if_neg mine, there]

theorem calm_bindThread (done : s.bindThread p r = some s') : Calm s s' := by
  unfold bindThread at done
  split at done
  · cases done
  · split at done
    · cases done
      refine calm_modify (fun f _ => ?_) fun _ => rfl
      exact ⟨rfl, rfl, rfl, rfl, rfl, rfl, rfl, id, id, fun _ => rfl, fun no yes => by cases no.symm.trans yes⟩
    · split at done
      · cases done
        exact .refl s
      · cases done

theorem calm_withSlot (id : SlotId) : Calm s (s.modify r (·.withSlot id)) :=
  calm_modify (fun _ _ => ⟨rfl, rfl, rfl, rfl, rfl, rfl, rfl, fun own => own, fun ready => ready, fun _ => rfl,
    fun no yes => by cases no.symm.trans yes⟩) fun _ => rfl

theorem calm_ensureContext (done : s.ensureContext p r = some s') :
    Calm s s' ∧ ∃ f', s'.fibers r = some f' ∧ f'.ctxInitialized = true := by
  unfold ensureContext at done
  split at done
  · cases done
  rename_i f here
  -- the slot first, then the context
  obtain ⟨m, slotted, ⟨f', now, same⟩, done⟩ : ∃ m, Calm s m ∧
      (∃ f', m.fibers r = some f' ∧ f'.ctxInitialized = f.ctxInitialized) ∧
      (if f.ctxInitialized then some m else m.initFiberContext p r) = some s' := by
    cases slot : f.sharedStackSlot with
    | some id =>
      simp only [slot] at done
      exact ⟨s, .refl s, ⟨f, here, rfl⟩, done⟩
    | none =>
      simp only [slot, acquireSlot] at done
      generalize (⟨f.stacksize, _⟩ : SlotId) = id at done
      generalize Function.update s.pools _ _ = pools at done
      have taken : Calm s { s with pools } := .of_same rfl rfl rfl rfl rfl
      refine ⟨_, taken.trans (calm_withSlot id), ⟨f.withSlot id, ?_, rfl⟩, done⟩
      rw [fibers_modify, if_pos rfl, here]
      rfl
  split at done
  · rename_i ready
    cases done
    exact ⟨slotted, f', now, same.trans ready⟩
  · rename_i unready
    obtain ⟨calm, after⟩ := calm_init now (same.trans (Bool.eq_false_iff.2 unready)) done
    exact ⟨slotted.trans calm, after⟩

/-- Neither the slot's bytes nor a snapshot matter to a switch. -/
theorem calm_takeSlot {marker : Nat} (done : s.takeSlot r marker = some s') : Calm s s' := by
  have slot : ∀ (m : Thread) id change, Calm m (m.modifySlot id change) := fun _ _ _ => .of_same rfl rfl rfl rfl rfl
  have given : ∀ (m m' : Thread) id, (m.restoreSharedStackSnapshot r).map (·.modifySlot id ({ · with owner := some r })) =
      some m' → Calm m m' := by
    intro m m' id done
    obtain ⟨restored, copied, rfl⟩ := Option.map_eq_some_iff.1 done
    have calm : Calm m restored := by
      unfold restoreSharedStackSnapshot at copied
      split at copied
      · split at copied
        · exact Option.some.inj copied ▸ .refl m
        · split at copied
          · exact Option.some.inj copied ▸ slot m _ _
          · cases copied
      · exact Option.some.inj copied ▸ .refl m
    exact calm.trans (slot restored id _)
  have saved : ∀ (m m' : Thread) o id sp, m.saveFrom o id sp = some m' → Calm m m' := by
    intro m m' o id sp done
    unfold saveFrom at done
    simp only at done
    split at done
    · cases done
      exact calm_modify (fun _ _ => ⟨rfl, rfl, rfl, rfl, rfl, rfl, rfl, fun own => own, fun ready => ready, fun _ => rfl,
        fun no yes => by cases no.symm.trans yes⟩) fun _ => rfl
    · cases done
  unfold takeSlot at done
  split at done
  · cases done
  split at done
  · exact given s s' _ done
  split at done
  · cases done
    exact .refl s
  obtain ⟨m, evicted, done⟩ := Option.bind_eq_some_iff.1 done
  refine Calm.trans ?_ (given m s' _ done)
  split at evicted
  · unfold saveCurrentSharedStackSnapshot at evicted
    split at evicted
    · exact saved _ _ _ _ _ evicted
    · cases evicted
      exact .refl s
  · unfold saveSharedStackSnapshot at evicted
    split at evicted
    · split at evicted
      · exact saved _ _ _ _ _ evicted
      · cases evicted
        exact .refl s
    · cases evicted
      exact .refl s

/-- The fiber prepared has a context afterwards, if private fibers always do. -/
theorem calm_prepare {marker : Nat} (here : s.fibers r = some f)
    (privately : f.useSharedStack = false → f.ctxInitialized = true) (done : s.prepare p r marker = some s') :
    Calm s s' ∧ ∃ f', s'.fibers r = some f' ∧ f'.ctxInitialized = true := by
  unfold prepare at done
  split at done
  · obtain ⟨m, bound, done⟩ := Option.bind_eq_some_iff.1 done
    obtain ⟨m', ensured, done⟩ := Option.bind_eq_some_iff.1 done
    obtain ⟨calm, f', now, ready⟩ := calm_ensureContext ensured
    have taken := calm_takeSlot done
    obtain ⟨f'', now', same, -⟩ := taken.fibers r f' now
    exact ⟨(calm_bindThread bound).trans (calm.trans taken), f'', now', same.prepared ready⟩
  · rename_i unshared
    cases done
    exact ⟨.refl s, f, here, privately (by simpa [isShared, here] using unshared)⟩

theorem Placed.untouched {pending : List Entry} {f' : Fiber} (placed : Placed s pending x f) (same : Untouched x f f')
    (waits : s.continuation x = some x → s'.continuation x = some x)
    (enters : f.ctxInitialized = false → f'.ctxInitialized = true → s'.continuation x = some x) :
    Placed s' pending x f' := by
  refine ⟨same.own placed.own, same.state ▸ placed.running, fun off => ?_, fun needs => ?_, fun ready init => ?_,
    fun mem => same.alive.trans (placed.alive mem), fun mem => same.curr ▸ placed.curr mem⟩
  · rw [same.parent, same.back]
    exact placed.unlinked off
  · exact same.prepared (placed.prepared (needs.imp (fun unshared => same.shared ▸ unshared) id))
  · cases before : f.ctxInitialized with
    | false => exact ⟨enters before init, .inl (same.first before init)⟩
    | true =>
      obtain ⟨waiting, point⟩ := placed.waits (same.state ▸ ready) before
      rw [same.ctx before, same.curr]
      exact ⟨waits waiting, point⟩

/-- Another fiber's entry does not matter. -/
theorem placed_cons {e : Entry} {rest : List Entry} (apart : x ≠ e.fiber) :
    Placed s (e :: rest) x f ↔ Placed s rest x f := by
  have memIff : (x ∈ stack (e :: rest)) = (x ∈ stack rest) := by simp [apart]
  have calledIff : (⟨x, Entrance.called⟩ ∈ e :: rest) = (⟨x, .called⟩ ∈ rest) := by
    rw [List.mem_cons, or_iff_right]
    rintro rfl
    exact apart rfl
  constructor
  · rintro ⟨own, running, unlinked, prepared, waits, alive, curr⟩
    exact ⟨own, memIff ▸ running, calledIff ▸ unlinked, memIff ▸ prepared, waits, memIff ▸ alive, memIff ▸ curr⟩
  · rintro ⟨own, running, unlinked, prepared, waits, alive, curr⟩
    exact ⟨own, memIff ▸ running, calledIff ▸ unlinked, memIff ▸ prepared, waits, memIff ▸ alive, memIff ▸ curr⟩

theorem Nested.calm {pending : List Entry} (h : Nested s pending) (calm : Calm s s') : Nested s' pending := by
  refine ⟨calm.running.trans h.executing, calm.tFiber.trans h.current, h.once, fun x mem => ?_, fun x f' now => ?_, ?_⟩
  · obtain ⟨f, here⟩ := h.exist x mem
    obtain ⟨f', now, -⟩ := calm.fibers x f here
    exact ⟨f', now⟩
  · obtain ⟨f, here⟩ := calm.known x f' now
    obtain ⟨f'', now', same, enters⟩ := calm.fibers x f here
    cases now.symm.trans now'
    exact (h.placed x f here).untouched same (calm.waits x) enters
  · refine h.linked.keep calm.scheduler (fun e _ f here => ?_) fun x mem b here => ?_
    · obtain ⟨f', now, same, -⟩ := calm.fibers e.fiber f here
      exact ⟨f', now, same.parent, same.back, same.base⟩
    · obtain ⟨b', now, same, -⟩ := calm.fibers x b here
      have init := (h.placed x b here).prepared (.inr (List.mem_of_mem_tail mem))
      exact ⟨b', now, by rw [same.ctx init], calm.waits x⟩

/-! ## Entering and coming back -/

theorem swap_eq {sp : Nat} {src dst : Ref} {point : Point} {d : Fiber} (apart : dst ≠ src)
    (here : s.fibers dst = some d) (done : s.swap p sp src dst point = some s') :
    s' = ({ s with tFiber := dst }.save sp src point).arrive d.ctx := by
  unfold Thread.swap at done
  split at done
  · have there : ({ s with tFiber := dst }.save sp src point).fibers dst = some d := by
      simp only [Thread.save, modify, Function.update_of_ne apart, here]
    rw [Thread.load, there, Option.bind_some] at done
    split at done
    · exact (Option.some.inj done).symm
    · cases done
  · cases done

/-- The switch from `src`, whose code runs, to `dst`. -/
structure Switched (s s' : Thread) (src dst : Ref) (f g : Fiber) : Prop where
  running : s'.running = dst
  tFiber : s'.tFiber = dst
  scheduler : s'.tSchedulerFiber = s.tSchedulerFiber
  left : s'.fibers src = some f
  into : s'.fibers dst = some g
  others : ∀ x, x ≠ src → x ≠ dst → s'.fibers x = s.fibers x
  continuation : s'.continuation = Function.update (Function.update s.continuation src (some src)) dst none

section Switch

variable {sp : Nat} {src dst : Ref} {point : Point} {b g : Fiber}

/-- A fiber starts, or comes back from its own `yield`. -/
theorem switched_enter (executes : s.running = src) (apart : dst ≠ src) (source : s.fibers src = some b)
    (target : s.fibers dst = some g) (own : g.ctx.code = dst)
    (start : g.ctx.point = .entry ∨ g.ctx.point = .inYield ∧ g.curr = true)
    (done : s.swap p sp src dst point = some s') :
    Switched s s' src dst { b with ctx := ⟨sp, src, point⟩ } { g with curr := true } := by
  obtain rfl := swap_eq apart target done
  rcases start with entry | ⟨inYield, curr⟩
  · simp only [arrive, entry]
    refine ⟨own, rfl, rfl, ?_, ?_, fun x notSrc notDst => ?_, ?_⟩
    · simp [Thread.save, modify, executes, source, own, Ne.symm apart]
    · simp [Thread.save, modify, target, own, apart]
    · simp [Thread.save, modify, own, notSrc, notDst]
    · simp [Thread.save, modify, executes, own]
  · have same : { g with curr := true } = g := by rw [← curr]
    simp only [arrive, inYield, same]
    refine ⟨own, rfl, rfl, ?_, ?_, fun x notSrc notDst => ?_, ?_⟩
    · simp [Thread.save, modify, executes, source]
    · simp [Thread.save, modify, target, apart]
    · simp [Thread.save, modify, notSrc]
    · simp [Thread.save, modify, executes, own]

/-- A fiber whose links are clear comes back to the one that stands in `call` or
`resume`. -/
theorem switched_leave (executes : s.running = src) (apart : dst ≠ src) (source : s.fibers src = some b)
    (target : s.fibers dst = some g) (own : g.ctx.code = dst) (clear : b.parent = none ∧ b.returnToParent = false)
    (start : g.ctx.point = .inCall src ∨ g.ctx.point = .inResume)
    (done : s.swap p sp src dst point = some s') : Switched s s' src dst { b with ctx := ⟨sp, src, point⟩ } g := by
  obtain rfl := swap_eq apart target done
  rcases start with inCall | inResume
  · simp only [arrive, inCall]
    refine ⟨own, rfl, rfl, ?_, ?_, fun x notSrc notDst => ?_, ?_⟩
    · simp [Thread.save, modify, executes, source, clear]
    · simp [Thread.save, modify, target, apart]
    · simp [Thread.save, modify, notSrc]
    · simp [Thread.save, modify, executes, own]
  · simp only [arrive, inResume]
    refine ⟨own, rfl, rfl, ?_, ?_, fun x notSrc notDst => ?_, ?_⟩
    · simp [Thread.save, modify, executes, source]
    · simp [Thread.save, modify, target, apart]
    · simp [Thread.save, modify, notSrc]
    · simp [Thread.save, modify, executes, own]

end Switch

/-- What `resume` and `call` do to the fiber they enter, before the switch. -/
structure Starts (f g : Fiber) : Prop where
  state : g.state = .running
  ctx : g.ctx = f.ctx
  prepared : g.ctxInitialized = f.ctxInitialized
  base : g.runInScheduler = f.runInScheduler
  alive : g.alive = f.alive
  curr : g.curr = f.curr

/-- A READY fiber is entered. -/
theorem Nested.enter {pending : List Entry} {sp : Nat} {point : Point} {change : Fiber → Fiber} {how : Entrance}
    (h : Nested s pending) (here : s.fibers r = some f) (ready : f.state = .ready) (init : f.ctxInitialized = true)
    (alive : f.alive = true) (starts : Starts f (change f))
    (called : how = .called →
      (change f).parent = some (top pending) ∧ (change f).returnToParent = true ∧ point = .inCall r)
    (resumed : how = .resumed → (change f).parent = f.parent ∧ (change f).returnToParent = f.returnToParent ∧
      s.base f = top pending ∧ point = .inResume)
    (done : (s.modify r change).swap p sp (top pending) r point = some s') : Nested s' (⟨r, how⟩ :: pending) := by
  have placed := h.placed r f here
  have off : r ∉ stack pending := fun mem => by
    cases ready.symm.trans (placed.running.2 mem)
  have apart : r ≠ top pending := fun same => off (same ▸ top_mem_stack pending)
  have notCalled : ⟨r, .called⟩ ∉ pending := fun mem => off (fiber_mem_stack mem)
  obtain ⟨b, under⟩ := h.exist _ (top_mem_stack pending)
  have placedB := h.placed _ b under
  obtain ⟨waits, start⟩ := placed.waits ready init
  have others : ∀ x, x ≠ r → (s.modify r change).fibers x = s.fibers x := fun x other => by
    rw [fibers_modify, if_neg other]
  have executes : (s.modify r change).running = top pending := h.executing
  have switched := switched_enter executes apart
    ((others _ (Ne.symm apart)).trans under) (by rw [fibers_modify, if_pos rfl, here]; rfl)
    (by rw [starts.ctx, placed.own]) (by rw [starts.ctx, starts.curr]; exact start) done
  have continuation : ∀ x, x ≠ r → x ≠ top pending → s'.continuation x = s.continuation x := fun x other notTop => by
    rw [switched.continuation, Function.update_of_ne other, Function.update_of_ne notTop]
    rfl
  have notMain : r ≠ tThreadFiber := fun same => off (same ▸ List.mem_append_right _ (List.mem_singleton_self _))
  refine ⟨switched.running, switched.tFiber, List.nodup_cons.2 ⟨off, h.once⟩, fun x mem => ?_, fun x f' now => ?_, ?_⟩
  case refine_1 =>
    by_cases mine : x = r
    · exact ⟨_, mine ▸ switched.into⟩
    · by_cases isTop : x = top pending
      · exact ⟨_, isTop ▸ switched.left⟩
      · obtain ⟨g, there⟩ := h.exist x ((List.mem_cons.1 mem).resolve_left mine)
        exact ⟨g, (switched.others x isTop mine).trans ((others x mine).trans there)⟩
  case refine_2 =>
    by_cases mine : x = r
    · subst mine
      cases now.symm.trans switched.into
      have mem : x ∈ stack (⟨x, how⟩ :: pending) := List.mem_cons_self
      refine ⟨by rw [starts.ctx, placed.own], ⟨fun _ => mem, fun _ => starts.state⟩, fun notOn => ?_,
        fun _ => starts.prepared.trans init, fun isReady => absurd (isReady.symm.trans starts.state) (by decide),
        fun _ => starts.alive.trans alive, fun _ => ⟨fun _ => notMain, fun _ => rfl⟩⟩
      cases how with
      | called => exact absurd List.mem_cons_self notOn
      | resumed =>
        obtain ⟨parent, back, -⟩ := resumed rfl
        rw [parent, back]
        exact placed.unlinked notCalled
    · rw [placed_cons mine]
      by_cases isTop : x = top pending
      · subst isTop
        cases now.symm.trans switched.left
        have isRunning : b.state = .running := placedB.running.2 (top_mem_stack pending)
        exact ⟨rfl, placedB.running, placedB.unlinked, placedB.prepared,
          fun isReady => absurd (isReady.symm.trans isRunning) (by decide), placedB.alive, placedB.curr⟩
      · rw [switched.others x isTop mine, others x mine] at now
        refine (h.placed x f' now).untouched (.refl x f') (fun waits => ?_) fun no yes => by cases no.symm.trans yes
        rw [continuation x mine isTop, waits]
  case refine_3 =>
    refine ⟨⟨_, _, switched.into, switched.left, ?_, fun isCalled => ?_, fun isResumed => ?_⟩, ?_⟩
    · rw [switched.continuation, Function.update_of_ne (Ne.symm apart), Function.update_self]
    · exact called isCalled
    · obtain ⟨parent, back, base, inResume⟩ := resumed isResumed
      obtain ⟨noParent, noBack⟩ := placed.unlinked notCalled
      refine ⟨parent.trans noParent, back.trans noBack, ?_, inResume⟩
      rw [← base]
      simp only [Thread.base, switched.scheduler, starts.base]
      rfl
    · refine h.linked.keep switched.scheduler (fun e mem g there => ?_) fun x mem c there => ?_
      · have mem' := fiber_mem_stack mem
        have mine : e.fiber ≠ r := fun same => off (same ▸ mem')
        by_cases isTop : e.fiber = top pending
        · cases under.symm.trans (isTop ▸ there)
          have left := switched.left
          rw [← isTop] at left
          exact ⟨_, left, rfl, rfl, rfl⟩
        · exact ⟨g, (switched.others _ isTop mine).trans ((others _ mine).trans there), rfl, rfl, rfl⟩
      · have mem' := List.mem_of_mem_tail mem
        have mine : x ≠ r := fun same => off (same ▸ mem')
        have isTop : x ≠ top pending := by
          rintro rfl
          cases pending with
          | nil => cases mem
          | cons e rest => exact (List.nodup_cons.1 h.once).1 mem
        exact ⟨c, (switched.others x isTop mine).trans ((others x mine).trans there), rfl,
          fun waits => (continuation x mine isTop).trans waits⟩

/-- What `yield` and `finish` do to the fiber they leave, before the switch. -/
structure Stops (f g : Fiber) : Prop where
  state : g.state ≠ .running
  own : g.ctx = f.ctx
  prepared : g.ctxInitialized = f.ctxInitialized
  shared : g.useSharedStack = f.useSharedStack
  clear : g.parent = none ∧ g.returnToParent = false

/-- The latest entry comes back. -/
theorem Nested.leave {e : Entry} {rest : List Entry} {sp : Nat} {point : Point} {change : Fiber → Fiber} {m : Thread}
    (h : Nested s (e :: rest)) (here : s.fibers e.fiber = some f) (calm : Calm (s.modify e.fiber change) m)
    (stops : Stops f (change f)) (suspends : (change f).state = .ready → point = .inYield ∧ (change f).curr = f.curr)
    (done : m.swap p sp e.fiber (top rest) point = some s') :
    Nested s' rest ∧ ∃ f', s'.fibers e.fiber = some f' ∧ f'.state = (change f).state ∧ f'.parent = none ∧
      f'.returnToParent = false := by
  have off : e.fiber ∉ stack rest := (List.nodup_cons.1 h.once).1
  have placed := h.placed _ f here
  have notMain : e.fiber ≠ tThreadFiber := fun same => off (same ▸ List.mem_append_right _ (List.mem_singleton_self _))
  have apart : top rest ≠ e.fiber := fun same => off (same ▸ top_mem_stack rest)
  obtain ⟨⟨g, b, joined⟩, linked⟩ := h.linked
  cases here.symm.trans joined.entered
  have placedB := h.placed _ b joined.below
  have others : ∀ x, x ≠ e.fiber → (s.modify e.fiber change).fibers x = s.fibers x := fun x other => by
    rw [fibers_modify, if_neg other]
  have mine : (s.modify e.fiber change).fibers e.fiber = some (change f) := by
    rw [fibers_modify, if_pos rfl, here]
    rfl
  obtain ⟨f₁, source, same, -⟩ := calm.fibers _ _ mine
  obtain ⟨b₁, target, sameB, -⟩ := calm.fibers _ _ ((others _ apart).trans joined.below)
  have initB := placedB.prepared (.inr (List.mem_cons_of_mem _ (top_mem_stack rest)))
  have sameCtx : b₁.ctx = b.ctx := sameB.ctx initB
  have start : b₁.ctx.point = .inCall e.fiber ∨ b₁.ctx.point = .inResume := by
    rw [sameCtx]
    cases entrance : e.how with
    | called => exact .inl (joined.called entrance).2.2
    | resumed => exact .inr (joined.resumed entrance).2.2.2
  have clear : f₁.parent = none ∧ f₁.returnToParent = false := by
    rw [same.parent, same.back]
    exact stops.clear
  have executes : m.running = e.fiber := calm.running.trans h.executing
  have switched := switched_leave executes apart source target (by rw [sameCtx, placedB.own]) clear
    start done
  have notTop : ∀ x, x ≠ e.fiber → s'.fibers x = m.fibers x := fun x other => by
    by_cases isTop : x = top rest
    · rw [isTop, switched.into, target]
    · exact switched.others x other isTop
  have stays : ∀ x g, x ≠ e.fiber → s.fibers x = some g → ∃ g', s'.fibers x = some g' ∧ Untouched x g g' ∧
      (g.ctxInitialized = false → g'.ctxInitialized = true → m.continuation x = some x) := fun x g other there => by
    obtain ⟨g', now, untouched, enters⟩ := calm.fibers x g ((others x other).trans there)
    exact ⟨g', (notTop x other).trans now, untouched, enters⟩
  have continuation : ∀ x, x ≠ e.fiber → x ≠ top rest → s'.continuation x = m.continuation x := fun x other isTop => by
    rw [switched.continuation, Function.update_of_ne isTop, Function.update_of_ne other]
  refine ⟨⟨switched.running, switched.tFiber, (List.nodup_cons.1 h.once).2, fun x mem => ?_, fun x f' now => ?_, ?_⟩,
    _, switched.left, same.state, clear⟩
  case refine_1 =>
    obtain ⟨g, there⟩ := h.exist x (List.mem_cons_of_mem _ mem)
    obtain ⟨g', now, -⟩ := stays x g (fun same => off (same ▸ mem)) there
    exact ⟨g', now⟩
  case refine_2 =>
    by_cases left : x = e.fiber
    · subst left
      cases now.symm.trans switched.left
      refine ⟨rfl, iff_of_false (fun running => stops.state (same.state.symm.trans running)) off, fun _ => clear,
        fun _ => same.prepared (stops.prepared.trans (placed.prepared (.inr List.mem_cons_self))), fun ready _ => ?_,
        fun mem => absurd mem off, fun mem => absurd mem off⟩
      obtain ⟨inYield, curr⟩ := suspends (same.state.symm.trans ready)
      refine ⟨?_, .inr ⟨inYield, ?_⟩⟩
      · rw [switched.continuation, Function.update_of_ne (Ne.symm apart), Function.update_self]
      · rw [same.curr, curr]
        exact (placed.curr List.mem_cons_self).2 notMain
    · rw [notTop x left] at now
      obtain ⟨g₀, there₀⟩ := calm.known x f' now
      rw [others x left] at there₀
      obtain ⟨g', now', untouched, enters⟩ := calm.fibers x g₀ ((others x left).trans there₀)
      cases now.symm.trans now'
      have placedX := (placed_cons left).1 (h.placed x g₀ there₀)
      by_cases isTop : x = top rest
      · subst isTop
        cases joined.below.symm.trans there₀
        -- the caller runs, so it waits for nothing
        have isRunning : b.state = .running := placedX.running.2 (top_mem_stack rest)
        have entered : Placed m rest (top rest) f' := placedX.untouched untouched (calm.waits _) enters
        refine ⟨entered.own, entered.running, entered.unlinked, entered.prepared, fun ready => ?_, entered.alive,
          entered.curr⟩
        exact absurd (ready.symm.trans (untouched.state.trans isRunning)) (by decide)
      · refine placedX.untouched untouched (fun waits => ?_) fun no yes => ?_
        · rw [continuation x left isTop, calm.waits x waits]
        · rw [continuation x left isTop, enters no yes]
  case refine_3 =>
    refine linked.keep (switched.scheduler.trans calm.scheduler) (fun e' mem g there => ?_) fun x mem c there => ?_
    · have mem' := fiber_mem_stack mem
      obtain ⟨g', now, untouched, -⟩ := stays e'.fiber g (fun same => off (same ▸ mem')) there
      exact ⟨g', now, untouched.parent, untouched.back, untouched.base⟩
    · have mem' := List.mem_of_mem_tail mem
      have left : x ≠ e.fiber := fun same => off (same ▸ mem')
      have isTop : x ≠ top rest := by
        rintro rfl
        cases rest with
        | nil => cases mem
        | cons e' rest => exact (List.nodup_cons.1 (List.nodup_cons.1 h.once).2).1 mem
      obtain ⟨c', now, untouched, -⟩ := stays x c left there
      have init := (h.placed x c there).prepared (.inr (List.mem_cons_of_mem _ mem'))
      exact ⟨c', now, by rw [untouched.ctx init], fun waits => (continuation x left isTop).trans (calm.waits x waits)⟩

end Mycoroutine.Thread
