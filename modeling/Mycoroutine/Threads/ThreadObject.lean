import Mycoroutine.Threads.Semaphore

/-!
# `Thread`

One `Thread` object, from its constructor to its destructor, and the thread that it
starts. The constructor waits on `m_semaphore`, which the new thread signals when it
has taken what it needs from the object; the semaphore is the monitor of
`Semaphore`, stepped by both.

`touches` and `releases` are history: whether the object lived when the new thread
used it, and how often its handle was joined or detached.
-/

namespace Mycoroutine.ThreadObject
set_option autoImplicit false
open Interleave

/-- The bytes of a `std::string`. -/
abbrev Name := List UInt8

inductive Party where
  | creator
  | runner
deriving DecidableEq

/-- Where the creator is: `waiting` is in `m_semaphore.wait()`, `failed` after the exception
of the constructor. -/
inductive Creator where
  | start
  | waiting
  | constructed
  | failed
  | destroyed
deriving DecidableEq

/-- The next thing that `run` does. -/
inductive Runner where
  | absent
  | setThis
  | setName
  | setId
  | setOsName
  | swap
  | signal
  | call
  | inside
  | done
deriving DecidableEq

/-- The new thread has returned from `m_semaphore.signal()`. -/
def Runner.signalled : Runner → Bool
  | .call | .inside | .done => true
  | _ => false

structure State where
  creator : Creator
  runner : Runner
  sem : Monitor.State Party Semaphore.Op Unit Int
  /-- The thread id the kernel gave to the new thread. -/
  tid : Int
  mId : Int
  /-- `m_thread` is not 0. -/
  mThread : Bool
  mCb : Option Nat
  mName : Name
  /-- `t_thread` of the new thread, which is the object or null. -/
  tThread : Bool
  tThreadName : Name
  osName : Name
  /-- `cb` in `run`. -/
  cb : Option Nat
  calls : List (Option Nat)
  touches : List Bool
  releases : Nat

/-- What is done to the object: by its creator, by the new thread, and later by its owner.
`join` says whether `pthread_join` succeeds. -/
inductive Label where
  | create (tid : Option Int)
  | sem (l : Monitor.Label Party Semaphore.Op)
  | run
  | setName (name : Name)
  | finish
  | join (ok : Bool)
  | destroy

namespace State

/-- The object is there for those that have a pointer to it. -/
def Alive (s : State) : Prop := s.creator = .waiting ∨ s.creator = .constructed

instance (s : State) : Decidable s.Alive := inferInstanceAs (Decidable (_ ∨ _))

def touch (s : State) : State := { s with touches := s.touches ++ [decide s.Alive] }

end State

/-- Who takes a step of the semaphore. -/
def party : Monitor.Label Party Semaphore.Op → Party
  | .enter t _ | .lock t | .test t | .notify t _ | .unlock t | .spurious t => t

/-- `wait` is called by the constructor and `signal` by `run`. -/
def allows (s : State) : Monitor.Label Party Semaphore.Op → Bool
  | .enter .creator op => decide (s.creator = .waiting ∧ op = .wait)
  | .enter .runner op => decide (s.runner = .signal ∧ op = .signal)
  | _ => true

/-- The call on the semaphore returns. -/
def returned (s : State) : Monitor.Label Party Semaphore.Op → State
  | .unlock .creator => { s with creator := .constructed }
  | .unlock .runner => { s with runner := .call }
  | _ => s

/-- `none` is also where the code has no meaning: a name set through a pointer to an object
that is gone. -/
def step (s : State) : Label → Option State
  | .create tid =>
    match s.creator, tid with
    | .start, some tid =>
      if 0 < tid then some { s with creator := .waiting, runner := .setThis, tid, mThread := true } else none
    | .start, none => some { s with creator := .failed }
    | _, _ => none
  | .sem l =>
    if allows s l then
      ((Semaphore.semaphore 0).step s.sem l).map fun sem =>
        returned { (if party l = .runner then s.touch else s) with sem } l
    else none
  | .run =>
    match s.runner with
    | .setThis => some { s with runner := .setName, tThread := true }
    | .setName => some { s.touch with runner := .setId, tThreadName := s.mName }
    | .setId => some { s.touch with runner := .setOsName, mId := s.tid }
    | .setOsName => some { s.touch with runner := .swap, osName := s.mName.take 15 }
    | .swap => some { s.touch with runner := .signal, cb := s.mCb, mCb := none }
    | .call => some { s with runner := .inside, calls := s.calls ++ [s.cb] }
    | _ => none
  | .setName name =>
    match s.runner with
    | .inside =>
      if s.tThread then if s.Alive then some { s with mName := name, tThreadName := name } else none
      else some { s with tThreadName := name }
    | _ => none
  | .finish =>
    match s.runner with
    | .inside => some { s with runner := .done }
    | _ => none
  | .join ok =>
    if s.creator = .constructed ∧ s.mThread then
      if ok then if s.runner = .done then some { s with mThread := false, releases := s.releases + 1 } else none
      else some s
    else none
  | .destroy =>
    if s.creator = .constructed then
      some { s with creator := .destroyed, mThread := false, releases := s.releases + if s.mThread then 1 else 0 }
    else none

/-- `Thread(cb, name)`, with its initializers done. -/
def machine (cb : Nat) (name : Name) : Machine State Label where
  init := {
    creator := .start, runner := .absent, sem := ((Semaphore.semaphore 0).machine Party).init, tid := 0, mId := -1,
    mThread := false, mCb := some cb, mName := name, tThread := false, tThreadName := [], osName := [], cb := none,
    calls := [], touches := [], releases := 0 }
  step := step

/-! ## The handshake -/

/-- The new thread has added to the count. -/
def State.Given (s : State) : Prop := s.runner.signalled = true ∨ (s.sem.pc .runner).acted = true

/-- The constructor has taken from the count. -/
def State.Taken (s : State) : Prop :=
  (s.sem.pc .creator).acted = true ∨ s.creator = .constructed ∨ s.creator = .destroyed

instance (s : State) : Decidable s.Given := inferInstanceAs (Decidable (_ ∨ _))

instance (s : State) : Decidable s.Taken := inferInstanceAs (Decidable (_ ∨ _ ∨ _))

/-- The constructor is past the semaphore only if the new thread is. -/
structure Handshake (s : State) : Prop where
  sem : ((Semaphore.semaphore 0).machine Party).Reach s.sem
  creatorOp : ∀ op, (s.sem.pc .creator).op = some op → op = .wait
  runnerOp : ∀ op, (s.sem.pc .runner).op = some op → op = .signal
  outside : s.creator ≠ .waiting → s.sem.pc .creator = .out
  quiet : s.runner ≠ .signal → s.sem.pc .runner = .out
  given : s.sem.data ≠ 0 → s.Given
  taken : (s.sem.pc .creator).acted = true → s.runner.signalled = true
  returned : s.creator = .constructed ∨ s.creator = .destroyed → s.runner.signalled = true
  started : s.runner = .absent ↔ s.creator = .start ∨ s.creator = .failed
  count : s.sem.data = (if s.Given then 1 else 0) - if s.Taken then 1 else 0

section Handshake

variable {s s' : State} {l : Monitor.Label Party Semaphore.Op} {sem : Monitor.State Party Semaphore.Op Unit Int}

theorem handshake_init (cb : Nat) (name : Name) : Handshake (machine cb name).init where
  sem := .init
  creatorOp := nofun
  runnerOp := nofun
  outside _ := rfl
  quiet _ := rfl
  given h := absurd rfl h
  taken := nofun
  returned := by rintro (h | h) <;> cases h
  started := by simp [machine]
  count := by
    have notGiven : ¬ (machine cb name).init.Given := by rintro (h | h) <;> cases h
    have notTaken : ¬ (machine cb name).init.Taken := by rintro (h | h | h) <;> cases h
    rw [if_neg notGiven, if_neg notTaken]
    rfl

/-- A step outside the semaphore. -/
theorem Handshake.elsewhere (h : Handshake s) (sem : s'.sem = s.sem) (signalled : s'.runner.signalled = s.runner.signalled)
    (passed : s'.creator = .constructed ∨ s'.creator = .destroyed ↔ s.creator = .constructed ∨ s.creator = .destroyed)
    (outside : s'.creator ≠ .waiting → s.sem.pc .creator = .out) (quiet : s'.runner ≠ .signal → s.sem.pc .runner = .out)
    (started : s'.runner = .absent ↔ s'.creator = .start ∨ s'.creator = .failed) : Handshake s' := by
  have given : s'.Given ↔ s.Given := by rw [State.Given, State.Given, signalled, sem]
  have taken : s'.Taken ↔ s.Taken := by rw [State.Taken, State.Taken, passed, sem]
  constructor
  case sem => exact sem ▸ h.sem
  case creatorOp => exact sem ▸ h.creatorOp
  case runnerOp => exact sem ▸ h.runnerOp
  case outside => exact sem ▸ outside
  case quiet => exact sem ▸ quiet
  case given => exact fun some' => given.2 (h.given (sem ▸ some'))
  case taken => exact fun acted => signalled.trans (h.taken (sem ▸ acted))
  case returned => exact fun returned => signalled.trans (h.returned (passed.1 returned))
  case started => exact started
  case count => rw [sem, h.count]; simp only [given, taken]

/-- The constructor takes the count only when the new thread has left the semaphore. -/
theorem Handshake.takes (h : Handshake s) {w : Bool} {op : Semaphore.Op} (here : s.sem.pc .creator = .testing op w)
    (ready : (Semaphore.semaphore 0).ready s.sem.data op = true) : s.runner.signalled = true := by
  have waits : op = .wait := h.creatorOp op (by rw [here]; rfl)
  subst waits
  rcases h.given (bne_iff_ne.1 ready) with signalled | inside
  · exact signalled
  · -- both would be under the mutex
    have both : Party.creator = .runner := (Monitor.locked_of_reach h.sem).alone
      (by rw [here]; rfl) (by cases at' : s.sem.pc .runner <;> rw [at'] at inside <;> first | rfl | cases inside)
    cases both

/-- A step of the semaphore by which no call on it returns. -/
theorem Handshake.within (h : Handshake s) (move : (Semaphore.semaphore 0).Moves s.sem l s'.sem)
    (runner : s'.runner = s.runner) (creator : s'.creator = s.creator) (allowed : allows s l = true)
    (stays : l ≠ .unlock .creator ∧ l ≠ .unlock .runner) (reach : ((Semaphore.semaphore 0).machine Party).Reach s'.sem) :
    Handshake s' := by
  have keeps {t : Party} (unlocks : l ≠ .unlock t) (acted : (s.sem.pc t).acted = true) : (s'.sem.pc t).acted = true :=
    (move.stays_acted acted).resolve_right unlocks
  have taken (acted : (s'.sem.pc .creator).acted = true) : s.runner.signalled = true := by
    rcases move.acts acted with before | ⟨op, w, r, here, ready, -⟩
    · exact h.taken before
    · exact h.takes here ready
  have count : (s'.sem.data : Int) = (if s'.Given then 1 else 0) - if s'.Taken then 1 else 0 := by
    rcases move.changes with ⟨same, acts⟩ | ⟨t, op, w, r, -, here, ready, act, acted, others⟩
    · have given : s'.Given ↔ s.Given := by
        rw [State.Given, State.Given, runner]
        exact or_congr .rfl ⟨acts _, keeps stays.2⟩
      have taken : s'.Taken ↔ s.Taken := by
        rw [State.Taken, State.Taken, creator]
        exact or_congr ⟨acts _, keeps stays.1⟩ .rfl
      rw [same, h.count]
      simp only [given, taken]
    · cases t with
      | creator =>
        have waits : op = .wait := h.creatorOp op (by rw [here]; rfl)
        subst waits
        have within : s.creator = .waiting := by
          by_contra outside
          cases here.symm.trans (h.outside outside)
        have given : s'.Given ↔ s.Given := by rw [State.Given, State.Given, runner, others .runner (by simp)]
        have before : ¬ s.Taken := by simp [State.Taken, here, Monitor.Pc.acted, within]
        have after : s'.Taken := .inl acted
        simp only [Semaphore.semaphore] at act
        split at act
        case isFalse => cases act
        have data := (Prod.mk.inj (Option.some.inj act)).2
        have old := h.count
        simp only [given, if_pos after, if_neg before] at old ⊢
        omega
      | runner =>
        have signals : op = .signal := h.runnerOp op (by rw [here]; rfl)
        subst signals
        have within : s.runner = .signal := by
          by_contra elsewhere
          cases here.symm.trans (h.quiet elsewhere)
        have taken : s'.Taken ↔ s.Taken := by rw [State.Taken, State.Taken, creator, others .creator (by simp)]
        have before : ¬ s.Given := by simp [State.Given, here, Monitor.Pc.acted, within, Runner.signalled]
        have after : s'.Given := .inr acted
        simp only [Semaphore.semaphore] at act
        split at act
        case isFalse => cases act
        have data := (Prod.mk.inj (Option.some.inj act)).2
        have old := h.count
        simp only [taken, if_pos after, if_neg before] at old ⊢
        omega
  constructor
  case sem => exact reach
  case creatorOp =>
    intro op stands
    rcases move.keeps_op stands with before | entered
    · exact h.creatorOp op before
    · subst entered
      exact (of_decide_eq_true allowed).2
  case runnerOp =>
    intro op stands
    rcases move.keeps_op stands with before | entered
    · exact h.runnerOp op before
    · subst entered
      exact (of_decide_eq_true allowed).2
  case outside =>
    intro elsewhere
    rcases move.keeps_out (h.outside (creator ▸ elsewhere)) with out | ⟨op, entered⟩
    · exact out
    · subst entered
      exact absurd (of_decide_eq_true allowed).1 (creator ▸ elsewhere)
  case quiet =>
    intro elsewhere
    rcases move.keeps_out (h.quiet (runner ▸ elsewhere)) with out | ⟨op, entered⟩
    · exact out
    · subst entered
      exact absurd (of_decide_eq_true allowed).1 (runner ▸ elsewhere)
  case given =>
    intro some'
    by_contra notGiven
    rw [count, if_neg notGiven] at some'
    have isTaken : s'.Taken := by
      by_contra notTaken
      exact some' (by rw [if_neg notTaken]; rfl)
    refine notGiven (.inl ?_)
    rw [runner]
    rcases isTaken with acted | returned
    · exact taken acted
    · exact h.returned (creator ▸ returned)
  case taken => exact fun acted => runner ▸ taken acted
  case returned => exact fun returned => runner ▸ h.returned (creator ▸ returned)
  case started => exact runner ▸ creator ▸ h.started
  case count => exact count

/-- `wait` returns in the constructor. -/
theorem Handshake.constructed (h : Handshake s) (move : (Semaphore.semaphore 0).Moves s.sem (.unlock .creator) sem)
    (reach : ((Semaphore.semaphore 0).machine Party).Reach sem) : Handshake { s with sem, creator := .constructed } := by
  obtain ⟨acted, out, same, others⟩ := move.unlocks
  have signalled := h.taken acted
  have others := others .runner nofun
  have given : State.Given { s with sem, creator := .constructed } := .inl signalled
  have taken : State.Taken { s with sem, creator := .constructed } := .inr (.inl rfl)
  constructor
  case sem => exact reach
  case creatorOp =>
    intro op stands
    simp only [out] at stands
    cases stands
  case runnerOp => exact others ▸ h.runnerOp
  case outside => exact fun _ => out
  case quiet => exact others ▸ h.quiet
  case given => exact fun _ => given
  case taken => exact fun _ => signalled
  case returned => exact fun _ => signalled
  case started =>
    simp only [reduceCtorEq, or_self, iff_false]
    intro absent
    rw [absent] at signalled
    cases signalled
  case count =>
    rw [same, h.count, if_pos given, if_pos taken, if_pos (show s.Given from .inl signalled),
      if_pos (show s.Taken from .inl acted)]

/-- `signal` returns in the new thread. -/
theorem Handshake.signals (h : Handshake s) (move : (Semaphore.semaphore 0).Moves s.sem (.unlock .runner) sem)
    (reach : ((Semaphore.semaphore 0).machine Party).Reach sem) (runner : s'.runner = .call) (creator : s'.creator = s.creator)
    (same' : s'.sem = sem) : Handshake s' := by
  obtain ⟨acted, out, same, others⟩ := move.unlocks
  have waiting : s.runner = .signal := by
    by_contra elsewhere
    rw [h.quiet elsewhere] at acted
    cases acted
  have others := others .creator nofun
  have signalled : s'.runner.signalled = true := by rw [runner]; rfl
  have given : s'.Given := .inl signalled
  have taken : s'.Taken ↔ s.Taken := by rw [State.Taken, State.Taken, creator, same', others]
  constructor
  case sem => exact same' ▸ reach
  case creatorOp => exact same' ▸ others ▸ h.creatorOp
  case runnerOp =>
    intro op stands
    rw [same', out] at stands
    cases stands
  case outside => exact same' ▸ others ▸ creator ▸ h.outside
  case quiet => exact fun _ => same' ▸ out
  case given => exact fun _ => given
  case taken => exact fun _ => signalled
  case returned => exact fun _ => signalled
  case started =>
    have started := h.started
    rw [waiting] at started
    rw [runner, creator, ← started]
    simp
  case count =>
    rw [same', same, h.count, if_pos given, if_pos (show s.Given from .inr acted)]
    simp only [taken]

theorem Handshake.step {label : Label} (h : Handshake s) (e : ThreadObject.step s label = some s') : Handshake s' := by
  cases label with
  | create tid =>
    simp only [ThreadObject.step] at e
    split at e
    · rename_i here
      split at e <;> cases e
      have absent := h.started.2 (.inl here)
      refine h.elsewhere rfl (by rw [absent]; rfl) (by simp [here]) (by simp) (fun _ => h.quiet (by simp [absent])) (by simp)
    · rename_i here
      cases e
      exact h.elsewhere rfl rfl (by simp [here]) (fun _ => h.outside (by simp [here])) h.quiet (by simp [h.started, here])
    · cases e
  | sem l =>
    simp only [ThreadObject.step] at e
    split at e
    · rename_i allowed
      obtain ⟨sem, moved, rfl⟩ := Option.map_eq_some_iff.1 e
      have move := Monitor.step_moves moved
      have reach : ((Semaphore.semaphore 0).machine Party).Reach sem := h.sem.step trivial moved
      by_cases mine : l = .unlock .creator
      · subst mine
        exact h.constructed move reach
      · by_cases other : l = .unlock .runner
        · subst other
          exact h.signals move reach rfl rfl rfl
        · have same (t : State) : ThreadObject.returned t l = t := by
            unfold ThreadObject.returned
            split
            · exact absurd rfl mine
            · exact absurd rfl other
            · rfl
          rw [same]
          refine h.within move ?_ ?_ allowed ⟨mine, other⟩ reach <;> dsimp only <;> split <;> rfl
    · cases e
  | run =>
    simp only [ThreadObject.step] at e
    have started := h.started
    split at e <;> cases e <;> rename_i here <;> rw [here] at started
    all_goals
      refine h.elsewhere rfl (by rw [here]; rfl) .rfl h.outside (fun _ => h.quiet (by simp [here])) ?_
      simpa [State.touch] using started
  | setName name =>
    simp only [ThreadObject.step] at e
    split at e
    · split at e
      · split at e <;> cases e
        exact h.elsewhere rfl rfl .rfl h.outside h.quiet h.started
      · cases e
        exact h.elsewhere rfl rfl .rfl h.outside h.quiet h.started
    · cases e
  | finish =>
    simp only [ThreadObject.step] at e
    have started := h.started
    split at e <;> cases e
    rename_i here
    rw [here] at started
    exact h.elsewhere rfl (by rw [here]; rfl) .rfl h.outside (fun _ => h.quiet (by simp [here])) (by simpa using started)
  | join ok =>
    simp only [ThreadObject.step] at e
    split at e
    · split at e
      · split at e <;> cases e
        exact h.elsewhere rfl rfl .rfl h.outside h.quiet h.started
      · cases e
        exact h
    · cases e
  | destroy =>
    simp only [ThreadObject.step] at e
    split at e
    · rename_i here
      cases e
      have started := h.started
      rw [here] at started
      exact h.elsewhere rfl rfl (by simp [here]) (fun _ => h.outside (by simp [here])) h.quiet (by simpa using started)
    · cases e

theorem handshake_of_reach {cb : Nat} {name : Name} (h : (machine cb name).Reach s) : Handshake s :=
  h.invariant (handshake_init cb name) fun _ _ _ inv _ e => inv.step e

end Handshake

/-! ## What the two do -/

/-- How far `run` is. -/
def Runner.stage : Runner → Nat
  | .absent => 0
  | .setThis => 1
  | .setName => 2
  | .setId => 3
  | .setOsName => 4
  | .swap => 5
  | .signal => 6
  | .call => 7
  | .inside => 8
  | .done => 9

theorem Runner.signalled_iff (runner : Runner) : runner.signalled = true ↔ 7 ≤ runner.stage := by
  cases runner <;> decide

/-- What `run` has done, and what became of the handle. -/
structure Progress (cb : Nat) (name : Name) (s : State) : Prop where
  tid : 1 ≤ s.runner.stage → 0 < s.tid
  tThread : 2 ≤ s.runner.stage → s.tThread = true
  mId : 4 ≤ s.runner.stage → s.mId = s.tid
  osName : 5 ≤ s.runner.stage → s.osName = name.take 15
  named : s.runner.stage ≤ 7 → s.mName = name
  threadNamed : 3 ≤ s.runner.stage → s.runner.stage ≤ 7 → s.tThreadName = name
  kept : s.runner.stage ≤ 5 → s.mCb = some cb
  swapped : 6 ≤ s.runner.stage → s.mCb = none ∧ s.cb = some cb
  calls : s.calls = if 8 ≤ s.runner.stage then [some cb] else []
  touches : ∀ b ∈ s.touches, b = true
  handle : s.releases + (if s.mThread then 1 else 0) = if s.creator = .start ∨ s.creator = .failed then 0 else 1
  gone : s.creator = .destroyed → s.mThread = false

section Progress

variable {cb : Nat} {name : Name} {s s' : State} {l : Monitor.Label Party Semaphore.Op}
  {sem : Monitor.State Party Semaphore.Op Unit Int}

theorem progress_init : Progress cb name (machine cb name).init := by
  constructor <;> simp [machine, Runner.stage]

/-- Until it has signalled, the new thread has a live object. -/
theorem Handshake.alive (h : Handshake s) (started : 1 ≤ s.runner.stage) (early : s.runner.stage ≤ 6) : s.Alive := by
  have notStarted : ¬ (s.creator = .start ∨ s.creator = .failed) := fun idle => by
    rw [h.started.2 idle] at started
    cases started
  have notReturned : ¬ (s.creator = .constructed ∨ s.creator = .destroyed) := fun returned => by
    have late := (Runner.signalled_iff _).1 (h.returned returned)
    omega
  cases at' : s.creator <;> simp_all [State.Alive]

/-- A touch by the new thread before it has signalled. -/
theorem Progress.touched (p : Progress cb name s) (alive : s.Alive) : ∀ b ∈ s.touch.touches, b = true := by
  intro b mem
  rcases List.mem_append.1 mem with old | new
  · exact p.touches b old
  · rw [List.mem_singleton.1 new]
    exact decide_eq_true alive

theorem Progress.step_run (h : Handshake s) (p : Progress cb name s) (e : step s .run = some s') : Progress cb name s' := by
  have touched := p.touched
  obtain ⟨tid, tThread, mId, osName, named, threadNamed, kept, swapped, calls, touches, handle, gone⟩ := p
  simp only [step] at e
  split at e <;> cases e <;> rename_i here <;>
    simp only [here, Runner.stage] at tid tThread mId osName named threadNamed kept swapped calls
  case h_1 | h_6 =>
    constructor
    case touches => exact touches
    case handle => exact handle
    case gone => exact gone
    all_goals simp_all [Runner.stage]
  all_goals
    -- the steps before `signal` touch the object
    constructor
    case touches => exact touched (h.alive (by rw [here]; decide) (by rw [here]; decide))
    case handle => exact handle
    case gone => exact gone
    all_goals simp_all [Runner.stage, State.touch]

/-- A step that leaves `run` where it is, and the fields that only `run` uses. -/
theorem Progress.same (p : Progress cb name s) (runner : s'.runner = s.runner)
    (fields : s'.tid = s.tid ∧ s'.mId = s.mId ∧ s'.mCb = s.mCb ∧ s'.mName = s.mName ∧ s'.tThread = s.tThread ∧
      s'.tThreadName = s.tThreadName ∧ s'.osName = s.osName ∧ s'.cb = s.cb ∧ s'.calls = s.calls)
    (touches : ∀ b ∈ s'.touches, b = true)
    (handle : s'.releases + (if s'.mThread then 1 else 0) = if s'.creator = .start ∨ s'.creator = .failed then 0 else 1)
    (gone : s'.creator = .destroyed → s'.mThread = false) : Progress cb name s' := by
  obtain ⟨tid, mId, mCb, mName, tThread, tThreadName, osName, cb', calls⟩ := fields
  constructor
  case tid => rw [runner, tid]; exact p.tid
  case tThread => rw [runner, tThread]; exact p.tThread
  case mId => rw [runner, mId, tid]; exact p.mId
  case osName => rw [runner, osName]; exact p.osName
  case named => rw [runner, mName]; exact p.named
  case threadNamed => rw [runner, tThreadName]; exact p.threadNamed
  case kept => rw [runner, mCb]; exact p.kept
  case swapped => rw [runner, mCb, cb']; exact p.swapped
  case calls => rw [runner, calls]; exact p.calls
  case touches => exact touches
  case handle => exact handle
  case gone => exact gone

/-- `signal` returns, and `run` goes on to the callback. -/
theorem Progress.signalled (p : Progress cb name s) (here : s.runner = .signal) : Progress cb name { s with runner := .call } := by
  obtain ⟨tid, tThread, mId, osName, named, threadNamed, kept, swapped, calls, touches, handle, gone⟩ := p
  simp only [here, Runner.stage] at tid tThread mId osName named threadNamed kept swapped calls
  constructor
  case touches => exact touches
  case handle => exact handle
  case gone => exact gone
  all_goals simp_all [Runner.stage]

/-- The new thread uses the semaphore only to signal. -/
theorem Handshake.signalling (h : Handshake s) (move : (Semaphore.semaphore 0).Moves s.sem l sem) (allowed : allows s l = true)
    (mine : party l = .runner) : s.runner = .signal := by
  by_contra elsewhere
  have out := h.quiet elsewhere
  cases move with
  | entered t op here =>
    cases mine
    exact elsewhere (of_decide_eq_true allowed).1
  | woke t asleep =>
    cases mine
    obtain ⟨op, sleeps⟩ := ((Monitor.locked_of_reach h.sem).asleep .runner).1 (List.mem_append_left _ asleep)
    cases out.symm.trans sleeps
  | locked t op here | relocked t op here | acted t op w r data here | slept t op w here | notified t r v here
  | nobody t r here | unlocked t r here =>
    cases mine
    cases out.symm.trans here

theorem Progress.step_sem (h : Handshake s) (p : Progress cb name s) (e : step s (.sem l) = some s') : Progress cb name s' := by
  simp only [ThreadObject.step] at e
  split at e
  case isFalse => cases e
  rename_i allowed
  obtain ⟨sem, moved, rfl⟩ := Option.map_eq_some_iff.1 e
  have move := Monitor.step_moves moved
  have within : Progress cb name { (if party l = .runner then s.touch else s) with sem } := by
    split
    · rename_i mine
      have signalling := h.signalling move allowed mine
      have alive := h.alive (by rw [signalling]; decide) (by rw [signalling]; decide)
      exact p.same rfl ⟨rfl, rfl, rfl, rfl, rfl, rfl, rfl, rfl, rfl⟩ (p.touched alive) p.handle p.gone
    · exact p.same rfl ⟨rfl, rfl, rfl, rfl, rfl, rfl, rfl, rfl, rfl⟩ p.touches p.handle p.gone
  unfold returned
  split
  · have signalled := h.taken move.unlocks.1
    have begun : ¬ (s.creator = .start ∨ s.creator = .failed) := fun idle => by
      rw [h.started.2 idle] at signalled
      cases signalled
    have handle : s.releases + (if s.mThread then 1 else 0) = 1 := p.handle.trans (if_neg begun)
    exact within.same rfl ⟨rfl, rfl, rfl, rfl, rfl, rfl, rfl, rfl, rfl⟩ within.touches (by simpa [party] using handle) (by simp)
  · exact within.signalled (h.signalling move allowed rfl)
  · exact within

theorem Progress.step {label : Label} (h : Handshake s) (p : Progress cb name s) (e : ThreadObject.step s label = some s') :
    Progress cb name s' := by
  cases label with
  | create tid =>
    simp only [ThreadObject.step] at e
    split at e
    · rename_i here
      split at e <;> cases e
      rename_i positive
      have absent := h.started.2 (.inl here)
      obtain ⟨tid, tThread, mId, osName, named, threadNamed, kept, swapped, calls, touches, handle, gone⟩ := p
      simp only [absent, here, Runner.stage] at named kept calls handle
      constructor
      case touches => exact touches
      all_goals simp_all [Runner.stage]
    · rename_i here
      cases e
      have handle : s.releases + (if s.mThread then 1 else 0) = 0 := p.handle.trans (if_pos (.inl here))
      exact p.same rfl ⟨rfl, rfl, rfl, rfl, rfl, rfl, rfl, rfl, rfl⟩ p.touches (by simpa using handle) (by simp)
    · cases e
  | sem l => exact p.step_sem h e
  | run => exact p.step_run h e
  | setName name' =>
    simp only [ThreadObject.step] at e
    obtain ⟨tid, tThread, mId, osName, named, threadNamed, kept, swapped, calls, touches, handle, gone⟩ := p
    split at e
    · rename_i here
      simp only [here, Runner.stage] at tid tThread mId osName named threadNamed kept swapped calls
      split at e
      · split at e <;> cases e
        constructor <;> simp_all [Runner.stage]
      · cases e
        constructor <;> simp_all
    · cases e
  | finish =>
    simp only [ThreadObject.step] at e
    obtain ⟨tid, tThread, mId, osName, named, threadNamed, kept, swapped, calls, touches, handle, gone⟩ := p
    split at e <;> cases e
    rename_i here
    simp only [here, Runner.stage] at tid tThread mId osName named threadNamed kept swapped calls
    constructor <;> simp_all [Runner.stage]
  | join ok =>
    simp only [ThreadObject.step] at e
    split at e
    · rename_i joinable
      have handle : s.releases + 1 = 1 := by
        have handle := p.handle
        rwa [if_pos joinable.2, if_neg (by simp [joinable.1])] at handle
      split at e
      · split at e <;> cases e
        exact p.same rfl ⟨rfl, rfl, rfl, rfl, rfl, rfl, rfl, rfl, rfl⟩ p.touches (by simp [joinable.1]; omega) (fun _ => rfl)
      · cases e
        exact p
    · cases e
  | destroy =>
    simp only [ThreadObject.step] at e
    split at e
    · rename_i here
      cases e
      have handle : s.releases + (if s.mThread then 1 else 0) = 1 := p.handle.trans (if_neg (by simp [here]))
      exact p.same rfl ⟨rfl, rfl, rfl, rfl, rfl, rfl, rfl, rfl, rfl⟩ p.touches (by simpa using handle) (fun _ => rfl)
    · cases e

theorem progress_of_reach (h : (machine cb name).Reach s) : Progress cb name s :=
  h.invariant_with Handshake (fun _ => handshake_of_reach) progress_init fun _ _ _ shake inv _ e _ => inv.step shake e

/-- Once the new thread has signalled, the constructor is not left asleep. -/
theorem Handshake.awake (h : Handshake s) (signalled : s.runner.signalled = true) : s.sem.waiting = [] := by
  by_contra asleep
  have locked := Monitor.locked_of_reach h.sem
  have out : s.sem.pc .runner = .out := h.quiet fun at' => by
    rw [at'] at signalled
    cases signalled
  have only (t : Party) (mem : t ∈ s.sem.waiting ++ s.sem.woken) : t = .creator := by
    obtain ⟨op, sleeps⟩ := (locked.asleep t).1 mem
    cases t with
    | creator => rfl
    | runner => cases out.symm.trans sleeps
  obtain ⟨t, waits⟩ := List.exists_mem_of_ne_nil _ asleep
  have creator := only t (List.mem_append_left _ waits)
  subst creator
  obtain ⟨op, sleeps⟩ := (locked.asleep .creator).1 (List.mem_append_left _ waits)
  -- it is in the queue, so it is not among those that were woken, and nobody is inside
  have woken : s.sem.woken = [] := by
    refine List.eq_nil_iff_forall_not_mem.2 fun t mem => ?_
    have same := only t (List.mem_append_right _ mem)
    subst same
    exact List.disjoint_of_nodup_append locked.once waits mem
  have free : s.sem.owner = none := by
    cases owner : s.sem.owner with
    | none => rfl
    | some t =>
      have inside := (locked.owner t).1 owner
      cases t with
      | creator =>
        rw [sleeps] at inside
        cases inside
      | runner =>
        rw [out] at inside
        cases inside
  have enough := (Monitor.balanced_of_reach (Semaphore.supplies (Int.le_refl 0)) h.sem).enough asleep
  rw [woken, Monitor.credit_of_free free, List.length_nil] at enough
  have waiting : s.creator = .waiting := by
    by_contra elsewhere
    cases (h.outside elsewhere).symm.trans sleeps
  have notTaken : ¬ s.Taken := by simp [State.Taken, sleeps, Monitor.Pc.acted, waiting]
  have count := h.count
  rw [if_pos (show s.Given from .inl signalled), if_neg notTaken] at count
  rw [count] at enough
  cases enough

end Progress

/-- **Main theorem.** However the constructor and the new thread interleave, with spurious
wake-ups: when the constructor has returned, the object has the id of the new thread, the
callback has been moved out of it and the thread has its name; the new thread does not
use the object in `run` once that may be gone, and once it has signalled, the constructor
is not left asleep; the callback is called once; and the handle is joined or detached
once, at the latest by the destructor. -/
theorem constructs_once (cb : Nat) (name : Name) (s : State) (h : (machine cb name).Reach s) :
    (s.creator = .constructed ∨ s.creator = .destroyed →
        s.runner.signalled = true ∧ 0 < s.tid ∧ s.mId = s.tid ∧ s.mCb = none ∧ s.osName = name.take 15) ∧
      (∀ b ∈ s.touches, b = true) ∧
      (s.runner.signalled = true → s.sem.waiting = []) ∧
      s.calls = (if s.runner = .inside ∨ s.runner = .done then [some cb] else []) ∧
      s.releases ≤ 1 ∧ (s.creator = .destroyed → s.releases = 1) ∧
      (s.creator = .failed → s.runner = .absent ∧ s.releases = 0) := by
  have shake := handshake_of_reach h
  have progress := progress_of_reach h
  refine ⟨fun returned => ?_, progress.touches, shake.awake, ?_, ?_, fun gone => ?_, fun failed => ?_⟩
  · have signalled := shake.returned returned
    have late := (Runner.signalled_iff _).1 signalled
    exact ⟨signalled, progress.tid (by omega), progress.mId (by omega), (progress.swapped (by omega)).1, progress.osName (by omega)⟩
  · rw [progress.calls]
    cases s.runner <;> rfl
  · have handle := progress.handle
    have one : (if s.creator = .start ∨ s.creator = .failed then 0 else 1) ≤ 1 := by split <;> decide
    omega
  · have handle := progress.handle
    rw [progress.gone gone, if_neg (by simp), if_neg (by simp [gone])] at handle
    exact handle
  · have handle : s.releases + (if s.mThread then 1 else 0) = 0 := progress.handle.trans (if_pos (.inr failed))
    exact ⟨shake.started.2 (.inr failed), by omega⟩

/-- The constructor sleeps, the new thread signals, and the object is destroyed while the
callback runs. -/
def detached : List Label :=
  [.create (some 7), .sem (.enter .creator .wait), .sem (.lock .creator), .sem (.test .creator), .run, .run, .run, .run, .run,
    .sem (.enter .runner .signal), .sem (.lock .runner), .sem (.test .runner), .sem (.notify .runner (some .creator)),
    .sem (.unlock .runner), .run, .sem (.lock .creator), .sem (.test .creator), .sem (.unlock .creator), .destroy]

theorem constructs_once_detached : ∃ s, (machine 5 []).exec (machine 5 []).init detached = some s ∧
    s.creator = .destroyed ∧ s.runner = .inside ∧ s.mId = s.tid ∧ s.releases = 1 := by
  have run : ∃ s, (machine 5 []).exec (machine 5 []).init detached = some s ∧ s.creator = .destroyed ∧ s.runner = .inside :=
    ⟨_, rfl, rfl, rfl⟩
  obtain ⟨s, e, gone, inside⟩ := run
  have holds := constructs_once 5 [] s (Machine.reach_of_exec e)
  exact ⟨s, e, gone, inside, (holds.1 (.inr gone)).2.2.1, holds.2.2.2.2.2.1 gone⟩

end Mycoroutine.ThreadObject
