import Mycoroutine.Scheduler.RunSole

/-!
# The owner of a shared-stack fiber

The fibers of `scheduleShared` in `Scheduler.Run`. `prepareSharedStack` binds such a
fiber to the thread that resumes it first, and asserts that later ones are the same. The
fiber suspends through the library, which registers how it is put into the queue again:
the primitives of `Sync` name the thread that it runs in, the timers of the hooked
sleeps and the triggers of `epoll` name none, and `run()` keeps what the task has.

Nobody but its own code holds a fiber of `scheduleShared`: it is not called, and put
into the queue only as it registered. The workers are the threads of a list; their ids
are positive.
-/

namespace Mycoroutine.SharedOwner
set_option autoImplicit false
open Interleave Run

/-- How a fiber suspends: a primitive of `Sync`, a hooked sleep, or `do_io` and `connect`. -/
inductive Path where
  | sync
  | sleep
  | io

/-- The `thread` that its wake-up schedules the fiber with. -/
def Path.thread (w : Worker) : Path → Int
  | .sync => w
  | .sleep | .io => -1

/-- `shared` are the fibers of `scheduleShared`, and `owner` is `m_ownerThread`. `waits`
are the wake-ups that are registered, with their `thread`. -/
structure State where
  run : Run.State
  shared : Ref → Bool
  owner : Ref → Option Worker
  waits : List (Ref × Int)

inductive Label where
  | run (l : Run.Label)
  | scheduleShared (thread : Int)
  | suspend (w : Worker) (path : Path)
  | wake (f : Ref) (thread : Int)

namespace State

variable (s : State)

/-- What may happen in `run()`: a worker is a thread of the scheduler, and others do not
hold shared fibers. -/
def Allows (workers : List Worker) : Run.Label → Prop
  | .run w => w ∈ workers ∧ 0 < w
  | .schedule (.fiber f) _ | .call _ f => s.shared f = false
  | _ => True

instance (workers : List Worker) (l : Run.Label) : Decidable (s.Allows workers l) := by
  unfold Allows
  split <;> infer_instance

/-- `prepareSharedStack` of the fiber that a worker resumes; `none` when its assertion
fails. -/
def bindThread (w : Worker) : Option (Ref → Option Worker) :=
  match s.run.pc w with
  | .resume work =>
    if s.shared work.fiber then
      match s.owner work.fiber with
      | none => some (Function.update s.owner work.fiber (some w))
      | some v => if v = w then some s.owner else none
    else some s.owner
  | _ => some s.owner

def bind : Run.Label → Option (Ref → Option Worker)
  | .run w => s.bindThread w
  | _ => some s.owner

/-- `scheduleShared`: a new fiber that is not bound, and its task. -/
def scheduleShared (thread : Int) : Option State :=
  let f := s.run.created
  ((Run.step s.run .create).bind (Run.step · (.schedule (.fiber f) { thread }))).map fun run =>
    { s with run, shared := Function.update s.shared f true, owner := Function.update s.owner f none }

/-- The executing fiber registers a wake-up. -/
def suspend (w : Worker) (path : Path) : Option State :=
  match s.run.pc w with
  | .inside _ (x :: _) .code => if s.shared x then some { s with waits := s.waits ++ [(x, path.thread w)] } else none
  | _ => none

def wake (f : Ref) (thread : Int) : Option State :=
  if (f, thread) ∈ s.waits then
    (Run.step s.run (.schedule (.fiber f) { thread })).map fun run =>
      { s with run, waits := s.waits.erase (f, thread) }
  else none

end State

def step (workers : List Worker) (s : State) : Label → Option State
  | .run l =>
    if s.Allows workers l then
      (Run.step s.run l).bind fun run => (s.bind l).map fun owner => { s with run, owner }
    else none
  | .scheduleShared thread => s.scheduleShared thread
  | .suspend w path => s.suspend w path
  | .wake f thread => s.wake f thread

def machine (workers : List Worker) : Machine State Label where
  init := { run := Run.machine.init, shared := fun _ => false, owner := fun _ => none, waits := [] }
  step := step workers

/-! ## Resumed by the owner -/

/-- The assertion of `prepareSharedStack` holds for every worker that comes to it, and a
worker is inside of its own shared fibers only. -/
structure StaysOnThread (s : State) : Prop where
  asserts : ∀ w work, s.run.pc w = .resume work → s.shared work.fiber = true → ∀ v, s.owner work.fiber = some v → v = w
  runs : ∀ w, ∀ f ∈ (s.run.pc w).nest, s.shared f = true → s.owner f = some w

/-! ## The condition -/

/-- A task with `thread` reaches the owner of its fiber only. -/
def Names (workers : List Worker) (s : State) (thread : Int) (f : Ref) : Prop :=
  match s.owner f with
  | some v => thread = v ∨ ∀ w ∈ workers, 0 < w → w = v
  | none => True

instance (workers : List Worker) (s : State) (thread : Int) (f : Ref) : Decidable (Names workers s thread f) := by
  unfold Names
  split <;> infer_instance

/-- A shared fiber that is not over is put into the queue again with its owner's thread,
or there is no other worker. -/
def Pins (workers : List Worker) (s : State) : Label → Prop
  | .run (.run w) =>
    match s.run.pc w with
    | .requeue t f => s.shared f = true → s.run.Requeues f → Names workers s t.thread f
    | _ => True
  | .wake f thread => s.run.state f ≠ .term → Names workers s thread f
  | _ => True

instance (workers : List Worker) (s : State) (l : Label) : Decidable (Pins workers s l) := by
  unfold Pins
  split
  · split <;> infer_instance
  · infer_instance
  · infer_instance

/-! ## The owner -/

/-- What a move does to the owners: nothing, the worker that resumes a shared fiber being
its owner, or it binds the fiber. -/
inductive Binds (s : State) (l : Run.Label) (owner : Ref → Option Worker) : Prop where
  | same (is : owner = s.owner) (bound : ∀ w work, l = .run w → s.run.pc w = .resume work → s.shared work.fiber = true →
      s.owner work.fiber = some w)
  | binds (w : Worker) (work : Work) (label : l = .run w) (here : s.run.pc w = .resume work)
      (shared : s.shared work.fiber = true) (free : s.owner work.fiber = none)
      (is : owner = Function.update s.owner work.fiber (some w))

section Binds

variable {s : State} {l : Run.Label} {owner : Ref → Option Worker} {f : Ref} {v w : Worker} {work : Work}

theorem bind_binds (e : s.bind l = some owner) : Binds s l owner := by
  unfold State.bind at e
  split at e
  · rename_i w
    unfold State.bindThread at e
    split at e
    · rename_i work here
      split at e
      · rename_i shared
        split at e
        · rename_i free
          cases e
          exact .binds w work rfl here shared free rfl
        · rename_i v bound
          split at e <;> cases e
          rename_i mine
          refine .same rfl fun w' work' own here' _ => ?_
          cases own
          cases here.symm.trans here'
          rw [bound, mine]
      · rename_i unshared
        cases e
        refine .same rfl fun w' work' own here' shared => ?_
        cases own
        cases here.symm.trans here'
        exact absurd shared unshared
    · rename_i elsewhere
      cases e
      refine .same rfl fun w' work' own here' _ => ?_
      cases own
      exact absurd here' (elsewhere work')
  · rename_i other
    cases e
    exact .same rfl fun w work own => absurd own (other w)

theorem Binds.mono (h : Binds s l owner) (bound : s.owner f = some v) : owner f = some v := by
  cases h with
  | same is => rw [is, bound]
  | binds w work _ _ _ free is =>
    have other : f ≠ work.fiber := by
      rintro rfl
      cases free.symm.trans bound
    rw [is, Function.update_of_ne other, bound]

theorem Binds.free (h : Binds s l owner) (free : owner f = none) : s.owner f = none := by
  cases bound : s.owner f with
  | none => rfl
  | some v => cases (h.mono bound).symm.trans free

theorem Binds.resumes (h : Binds s l owner) (label : l = .run w) (here : s.run.pc w = .resume work)
    (shared : s.shared work.fiber = true) : owner work.fiber = some w := by
  cases h with
  | same is bound => rw [is, bound w work label here shared]
  | binds x work' label' here' _ _ is =>
    cases label.symm.trans label'
    cases here.symm.trans here'
    rw [is, Function.update_self]

/-- A bound fiber was bound, or the worker that resumes it binds it. -/
theorem Binds.back (h : Binds s l owner) (bound : owner f = some v) :
    s.owner f = some v ∨ l = .run v ∧ s.owner f = none ∧ s.shared f = true ∧
      ∃ work, s.run.pc v = .resume work ∧ work.fiber = f := by
  cases h with
  | same is => exact .inl (is ▸ bound)
  | binds w work label here shared free is =>
    by_cases mine : f = work.fiber
    · subst mine
      rw [is, Function.update_self] at bound
      cases bound
      exact .inr ⟨label, free, shared, work, here, rfl⟩
    · rw [is, Function.update_of_ne mine] at bound
      exact .inl bound

end Binds

/-! ## The invariant -/

/-- What is known of every state: shared fibers are nobody's callback and are not called;
the tasks of a bound fiber that is not over reach its owner only, and its owner holds
them; and one that is not bound is queued once, or one worker holds it. -/
structure Kept (workers : List Worker) (s : State) : Prop where
  known : Known s.run
  own : ∀ f, s.shared f = true → s.run.Exists f ∧ f ∉ s.run.pool ∧ ∀ w, ¬ s.run.Owns w f
  uncalled : ∀ w work nest f, s.run.pc w = .inside work nest (.calling f) → s.shared f = false
  positive : ∀ f v, s.owner f = some v → 0 < v
  queued : ∀ t ∈ s.run.tasks, ∀ f, t.job = .fiber f → s.shared f = true → s.run.state f ≠ .term →
    Names workers s t.thread f
  taken : ∀ w t f, (s.run.pc w).work = some (.task t f) → s.shared f = true → s.run.state f ≠ .term →
    ∀ v, s.owner f = some v → v = w
  unbound : ∀ f, s.shared f = true → s.owner f = none → Sole s.run f
  waiting : ∀ p ∈ s.waits, s.shared p.1 = true ∧ s.owner p.1 ≠ none
  stays : StaysOnThread s

section Steps

variable {workers : List Worker} {s s' : State} {l : Run.Label} {run : Run.State} {owner : Ref → Option Worker}
  {f : Ref} {v w : Worker} {t : Task}

theorem kept_init : Kept workers (machine workers).init where
  known := known_init
  own := nofun
  uncalled := nofun
  positive := nofun
  queued := nofun
  taken := nofun
  unbound := nofun
  waiting := nofun
  stays := ⟨nofun, nofun⟩

/-- A worker that picks a task of a bound fiber is its owner. -/
theorem Names.picks (h : Names workers s t.thread f) (bound : s.owner f = some v) (positive : 0 < v)
    (fits : t.matchThread w = true) (member : w ∈ workers ∧ 0 < w) : v = w := by
  rw [Names, bound] at h
  rcases h with pinned | alone
  · simp only [Task.matchThread, pinned, Bool.or_eq_true, beq_iff_eq] at fits
    rcases fits with any | mine
    · rw [any] at positive
      exact absurd positive (by decide)
    · exact mine
  · exact (alone w member.1 member.2).symm

/-- A fiber that is being bound is in no other hands. -/
theorem Kept.fresh (h : Kept workers s) (binds : Binds s l owner) (bound : owner f = some v) (free : s.owner f ≠ some v) :
    l = .run v ∧ Sole s.run f ∧ ∃ work, s.run.pc v = .resume work ∧ s.run.Holds v f := by
  rcases binds.back bound with before | ⟨label, unbound, shared, work, here, fiber⟩
  · exact absurd before free
  · exact ⟨label, h.unbound f shared unbound, work, here, work, by rw [here]; rfl, fiber⟩

/-- A move of `run()`, with what it binds. -/
theorem Kept.move (h : Kept workers s) (allows : s.Allows workers l) (move : Moves s.run l run) (binds : Binds s l owner)
    (pins : Pins workers s (.run l)) : Kept workers { s with run, owner } := by
  have exists' (f : Ref) (known : s.run.Exists f) : run.Exists f := by
    cases move <;> first | exact known | exact Nat.lt_succ_of_lt known
  have unscheduled (f : Ref) (shared : s.shared f = true) (options : ScheduleOptions) : l ≠ .schedule (.fiber f) options := by
    rintro rfl
    cases shared.symm.trans allows
  have alive (f : Ref) (shared : s.shared f = true) (state : run.state f ≠ .term) : s.run.state f ≠ .term := fun isOver =>
    state (move.stays_over (h.own f shared).1 (h.own f shared).2.1 isOver)
  have held (w : Worker) (t : Task) (f : Ref) (holds : (run.pc w).work = some (.task t f)) (shared : s.shared f = true)
      (state : s.run.state f ≠ .term) (v : Worker) (bound : owner f = some v) : v = w := by
    by_cases before : s.owner f = some v
    · rcases move.takes holds with held | ⟨rfl, _, queued, job, fits⟩
      · exact h.taken w t f held shared state v before
      · exact (h.queued t queued f job shared state).picks before (h.positive f v before) fits allows
    · obtain ⟨rfl, sole, work, here, holder⟩ := h.fresh binds bound before
      rcases move.takes holds with held | ⟨own, pick, -⟩
      · exact sole.one v w holder (.of_work held)
      · cases own
        cases here.symm.trans pick
  constructor
  case known => exact h.known.move move
  case own =>
    intro f shared
    obtain ⟨known, unpooled, unowned⟩ := h.own f shared
    refine ⟨exists' f known, fun pooled => ?_, fun w owns => ?_⟩
    · rcases move.pools with same | ⟨g, pool, before, after⟩ | ⟨w, g, here, -, after⟩
      · exact unpooled (same ▸ pooled)
      · exact unpooled (before ▸ List.mem_cons_of_mem g (after ▸ pooled))
      · rcases List.mem_cons.1 (after ▸ pooled) with rfl | older
        · exact unowned w (by rw [Run.State.Owns, here]; rfl)
        · exact unpooled older
    · rcases move.owns owns with before | ⟨-, ⟨pool, before, -⟩ | rfl⟩
      · exact unowned w before
      · exact unpooled (before ▸ List.mem_cons_self)
      · exact Nat.lt_irrefl _ known
  case uncalled =>
    intro w work nest f here
    rcases move.comes_to_call here with before | rfl
    · exact h.uncalled w work nest f before
    · exact allows
  case positive =>
    intro f v bound
    rcases binds.back bound with before | ⟨rfl, -⟩
    · exact h.positive f v before
    · exact allows.2
  case queued =>
    intro t queued f job shared state
    have living := alive f shared state
    unfold Names
    split
    · rename_i v bound
      by_cases before : s.owner f = some v
      · have names : Names workers s t.thread f := by
          rcases move.queues queued with old | ⟨options, label, -⟩ | ⟨w, u, g, rfl, here, requeues, same, thread⟩
          · exact h.queued t old f job shared living
          · exact absurd (label.trans (by rw [job])) (unscheduled f shared options)
          · have mine : u.job = .fiber g := h.known.jobs w u g (by rw [here]; rfl)
            cases (same.symm.trans job).symm.trans mine
            simp only [Pins, here] at pins
            rw [thread]
            exact pins shared requeues
        rw [Names, before] at names
        exact names
      · obtain ⟨rfl, sole, work, here, holder⟩ := h.fresh binds bound before
        rcases move.queues queued with old | ⟨options, label, -⟩ | ⟨w, u, g, label, requeue, -⟩
        · exact absurd job ((sole.apart v holder).1 t old)
        · cases label
        · cases label
          cases here.symm.trans requeue
    · trivial
  case taken => exact fun w t f holds shared state => held w t f holds shared (alive f shared state)
  case unbound =>
    intro f shared free
    exact (h.unbound f shared (binds.free free)).move h.known (h.own f shared).1 (unscheduled f shared) move
  case waiting =>
    intro p mem
    obtain ⟨shared, bound⟩ := h.waiting p mem
    refine ⟨shared, ?_⟩
    obtain ⟨v, is⟩ := Option.ne_none_iff_exists'.1 bound
    show owner p.1 ≠ none
    rw [binds.mono is]
    exact Option.some_ne_none v
  case stays =>
    constructor
    case asserts =>
      intro w work here shared v bound
      rcases move.comes_to_resume here with before | ⟨t, f, rfl, before, state⟩ | ⟨f, rfl, before⟩
      · by_cases old : s.owner work.fiber = some v
        · exact h.stays.asserts w work before shared v old
        · obtain ⟨rfl, sole, -, -, holder⟩ := h.fresh binds bound old
          exact sole.one v w holder ⟨work, by rw [before]; rfl, rfl⟩
      · exact held w t f (by rw [here]; rfl) shared state v bound
      · exact absurd (by rw [Run.State.Owns, before]; rfl) ((h.own f shared).2.2 w)
    case runs =>
      intro w f inside shared
      rcases move.comes_inside inside with before | ⟨work, label, here, rfl⟩ | ⟨work, nest, here⟩
      · exact binds.mono (h.stays.runs w f before shared)
      · exact binds.resumes label here shared
      · cases (h.uncalled w work nest f here).symm.trans shared

/-- A push of a task of a shared fiber. -/
theorem Kept.push (h : Kept workers s) {thread : Int} (moved : Run.step s.run (.schedule (.fiber f) { thread }) = some run)
    (names : s.run.state f ≠ .term → Names workers s thread f)
    (sole : ∀ g, s.shared g = true → s.owner g = none → Sole run g) : Kept workers { s with run } := by
  have known := h.known.move (step_moves moved)
  simp only [Run.step] at moved
  split at moved <;> cases moved
  refine ⟨known, h.own, h.uncalled, h.positive, fun t queued g job shared state => ?_, h.taken, sole, h.waiting,
    h.stays.asserts, h.stays.runs⟩
  rcases List.mem_append.1 queued with old | new
  · exact h.queued t old g job shared state
  · cases List.mem_singleton.1 new
    cases job
    exact names state

theorem Kept.wake (h : Kept workers s) {thread : Int} (pins : Pins workers s (.wake f thread))
    (e : s.wake f thread = some s') : Kept workers s' := by
  unfold State.wake at e
  split at e
  · rename_i there
    obtain ⟨run, moved, rfl⟩ := Option.map_eq_some_iff.1 e
    have bound := (h.waiting _ there).2
    have pushed : Kept workers { s with run } := by
      refine h.push moved pins fun g shared free => ?_
      refine (h.unbound g shared free).move h.known (h.own g shared).1 (fun options label => ?_) (step_moves moved)
      cases label
      exact bound free
    exact ⟨pushed.known, pushed.own, pushed.uncalled, pushed.positive, pushed.queued, pushed.taken, pushed.unbound,
      fun p mem => h.waiting p (List.mem_of_mem_erase mem), pushed.stays.asserts, pushed.stays.runs⟩
  · cases e

theorem Kept.suspend (h : Kept workers s) {path : Path} (e : s.suspend w path = some s') : Kept workers s' := by
  unfold State.suspend at e
  split at e
  · rename_i work x rest here
    split at e <;> cases e
    rename_i shared
    refine ⟨h.known, h.own, h.uncalled, h.positive, h.queued, h.taken, h.unbound, fun p mem => ?_,
      h.stays.asserts, h.stays.runs⟩
    rcases List.mem_append.1 mem with old | new
    · exact h.waiting p old
    · cases List.mem_singleton.1 new
      have inside : x ∈ (s.run.pc w).nest := by
        rw [here]
        exact List.mem_cons_self
      have owner := h.stays.runs w x inside shared
      exact ⟨shared, by rw [owner]; nofun⟩
  · cases e

/-- A new fiber of `scheduleShared`, before its task is pushed. -/
theorem Kept.created (h : Kept workers s) (moved : Run.step s.run .create = some run) :
    Kept workers { s with run, shared := Function.update s.shared s.run.created true,
                          owner := Function.update s.owner s.run.created none } := by
  have known := h.known.move (step_moves moved)
  cases moved
  have unborn {f : Ref} (is : s.run.Exists f) : f ≠ s.run.created := Nat.ne_of_lt is
  have sharedOf {f : Ref} (is : s.run.Exists f) (shared : Function.update s.shared s.run.created true f = true) :
      s.shared f = true := by rwa [Function.update_of_ne (unborn is)] at shared
  have ownerOf {f : Ref} (is : s.run.Exists f) : Function.update s.owner s.run.created none f = s.owner f :=
    Function.update_of_ne (unborn is) ..
  have stateOf {f : Ref} (is : s.run.Exists f) : Function.update s.run.state s.run.created .ready f = s.run.state f :=
    Function.update_of_ne (unborn is) ..
  have queuedOf {t : Task} {f : Ref} (queued : t ∈ s.run.tasks) (job : t.job = .fiber f) : s.run.Exists f :=
    h.known.queued t queued f job
  have heldOf {w : Worker} {f : Ref} (holds : f ∈ (s.run.pc w).mentions) : s.run.Exists f := h.known.held w f holds
  constructor
  case known => exact known
  case own =>
    intro f shared
    by_cases fresh : f = s.run.created
    · subst fresh
      exact ⟨Nat.lt_succ_self _, fun pooled => Nat.lt_irrefl _ (h.known.pooled _ pooled), fun w => h.known.unowned w⟩
    · simp only [Function.update_of_ne fresh] at shared
      obtain ⟨is, unpooled, unowned⟩ := h.own f shared
      exact ⟨Nat.lt_succ_of_lt is, unpooled, unowned⟩
  case uncalled =>
    intro w work nest f here
    have is : s.run.Exists f := heldOf (w := w) (by rw [here]; exact List.mem_cons_self)
    show Function.update s.shared s.run.created true f = false
    rw [Function.update_of_ne (unborn is)]
    exact h.uncalled w work nest f here
  case positive =>
    intro f v bound
    by_cases fresh : f = s.run.created
    · simp only [fresh, Function.update_self] at bound
      cases bound
    · simp only [Function.update_of_ne fresh] at bound
      exact h.positive f v bound
  case queued =>
    intro t queued f job shared state
    have is := queuedOf queued job
    have names := h.queued t queued f job (sharedOf is shared) fun isOver => state ((stateOf is).trans isOver)
    unfold Names at names ⊢
    rwa [← ownerOf is] at names
  case taken =>
    intro w t f holds shared state v bound
    have is : s.run.Exists f := heldOf (Pc.work_mentions holds)
    exact h.taken w t f holds (sharedOf is shared) (fun isOver => state ((stateOf is).trans isOver)) v
      ((ownerOf is).symm.trans bound)
  case unbound =>
    intro f shared free
    by_cases fresh : f = s.run.created
    · subst fresh
      have sole := Sole.unborn h.known (Nat.lt_irrefl s.run.created)
      exact ⟨sole.one, sole.apart, sole.once, sole.unqueued, sole.cached⟩
    · simp only [Function.update_of_ne fresh] at shared free
      have sole := h.unbound f shared free
      exact ⟨sole.one, sole.apart, sole.once, sole.unqueued, sole.cached⟩
  case waiting =>
    intro p mem
    obtain ⟨shared, bound⟩ := h.waiting p mem
    have is := (h.own p.1 shared).1
    exact ⟨(Function.update_of_ne (unborn is) ..).trans shared, fun free => bound ((ownerOf is).symm.trans free)⟩
  case stays =>
    constructor
    case asserts =>
      intro w work here shared v bound
      have is : s.run.Exists work.fiber := heldOf (Pc.work_mentions (by rw [here]; rfl))
      exact h.stays.asserts w work here (sharedOf is shared) v ((ownerOf is).symm.trans bound)
    case runs =>
      intro w f inside shared
      have is : s.run.Exists f := heldOf (Pc.nest_mentions inside)
      exact (ownerOf is).trans (h.stays.runs w f inside (sharedOf is shared))

theorem Kept.scheduleShared (h : Kept workers s) {thread : Int} (e : s.scheduleShared thread = some s') : Kept workers s' := by
  unfold State.scheduleShared at e
  obtain ⟨run, moved, rfl⟩ := Option.map_eq_some_iff.1 e
  obtain ⟨made, creates, pushes⟩ := Option.bind_eq_some_iff.1 moved
  have created := h.created creates
  have sole := Sole.unborn h.known (Nat.lt_irrefl s.run.created)
  have nothing (t : Task) (queued : t ∈ s.run.tasks) : t.job ≠ .fiber s.run.created := fun job =>
    Nat.lt_irrefl _ (h.known.queued t queued _ job)
  refine created.push pushes (fun _ => ?_) fun g shared free => ?_
  · unfold Names
    simp only [Function.update_self]
  · by_cases fresh : g = s.run.created
    · subst fresh
      cases creates
      simp only [Run.step] at pushes
      split at pushes <;> cases pushes
      refine ⟨sole.one, fun w hw => ?_, pairwise_snoc sole.once fun _ => nothing, fun cached => ?_, sole.cached⟩
      · obtain ⟨work, busy, fiber⟩ := hw
        exact absurd (h.known.held w _ (Pc.work_mentions busy)) (fiber ▸ Nat.lt_irrefl _)
      · exact absurd (h.known.pooled _ cached) (Nat.lt_irrefl _)
    · refine (created.unbound g shared free).move created.known (created.own g shared).1 (fun options label => ?_) (step_moves pushes)
      cases label
      exact fresh rfl

theorem Kept.step {l : Label} (h : Kept workers s) (pins : Pins workers s l)
    (e : SharedOwner.step workers s l = some s') : Kept workers s' := by
  cases l with
  | run l =>
    simp only [SharedOwner.step] at e
    split at e
    · rename_i allows
      obtain ⟨run, moved, e⟩ := Option.bind_eq_some_iff.1 e
      obtain ⟨owner, binds, rfl⟩ := Option.map_eq_some_iff.1 e
      exact h.move allows (step_moves moved) (bind_binds binds) pins
    · cases e
  | scheduleShared thread => exact h.scheduleShared e
  | suspend w path => exact h.suspend e
  | wake f thread => exact h.wake pins e

end Steps

/-- **Main theorem.** In every run in which a shared fiber is put into the queue again
with its owner's thread, or there is no other worker, the assertion of
`prepareSharedStack` holds, and only the owner is inside of the fiber. -/
theorem stays_on_thread {workers : List Worker} (s : State) (h : (machine workers).ReachIf (Pins workers) s) :
    StaysOnThread s :=
  (h.invariant kept_init fun _ _ _ kept pins e => kept.step pins e).stays

/-- Worker `w` picks the fiber and comes to its code. -/
def takes (w : Worker) : List Label := [.run (.run w), .run (.run w), .run (.run w), .run (.run w)]

/-- The executing fiber of worker `w` suspends, and the worker comes back to its pick. -/
def suspends (w : Worker) (path : Path) : List Label :=
  [.suspend w path, .run (.yield w), .run (.run w), .run (.run w), .run (.run w), .run (.run w)]

/-- A fiber that waited for a `CoMutex` on worker 1 is resumed there; worker 2 does not
get it. -/
theorem stays_on_thread_sync : ∃ s, StaysOnThread s ∧ s.owner 0 = some 1 ∧ (s.run.pc 1).nest = [0] := by
  have run := Machine.reachIf_of_execIf (rfl : (machine [1, 2]).execIf (Pins [1, 2]) (machine [1, 2]).init
    (.scheduleShared (-1) :: takes 1 ++ suspends 1 .sync ++ .wake 0 1 :: .run (.run 2) :: takes 1) = some _)
  exact ⟨_, stays_on_thread _ run, rfl, rfl⟩

/-- A fiber that slept on worker 1 is about to be resumed by worker 2. -/
theorem sleep_moves_fiber : ¬ ∀ s, (machine [1, 2]).Reach s → StaysOnThread s := by
  intro all
  have run := Machine.reach_of_exec (rfl : (machine [1, 2]).exec (machine [1, 2]).init
    (.scheduleShared (-1) :: takes 1 ++ suspends 1 .sleep ++ .wake 0 (-1) ::
      [.run (.run 2), .run (.run 2), .run (.run 2)]) = some _)
  have same := (all _ run).asserts 2 _ rfl rfl 1 rfl
  cases same

end Mycoroutine.SharedOwner
