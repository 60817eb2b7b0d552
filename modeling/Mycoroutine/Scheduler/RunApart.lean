import Mycoroutine.Scheduler.Run
import Mathlib.Data.List.Chain
import Mathlib.Data.List.Nodup

/-!
# One fiber, one worker

`run` protects a fiber with its `m_mutex`, and `call` does not take it. The
invariant describes the runs in which no worker meets a fiber that `call`
entered: the workers' nests are disjoint, and a worker that is about to resume
a fiber finds it `READY`.
-/

namespace Mycoroutine.Run
set_option autoImplicit false
open Interleave Machine

/-- Some worker is inside of the fiber. -/
def State.Executing (s : State) (f : Ref) : Prop := ∃ w, f ∈ (s.pc w).nest

/-- Some worker is inside of the fiber, and `call` entered it. -/
def State.Entered (s : State) (f : Ref) : Prop := ∃ w, f ∈ (s.pc w).nest.dropLast

/-- The step does not let `run` meet a fiber entered through `call`: `run`
neither recycles nor goes on to resume such a fiber, `call` enters no fiber that
a worker is inside of or about to resume, and no fiber ends while the worker
that `acquire` gave it to still waits for its mutex. -/
def CallsApart (s : State) : Label → Prop
  | .run w =>
    match s.pc w with
    | .acquire _ => ∀ f, s.pool.head? = some f → ¬ s.Entered f
    | .lock (.callback f) => ¬ s.Entered f
    | .test _ f => s.state f = .term ∨ ¬ s.Entered f
    | .inside _ _ (.calling g) => ¬ s.Executing g ∧ ∀ v work, s.pc v = .resume work → work.fiber ≠ g
    | _ => True
  | .finish w => ∀ x, (s.pc w).nest.head? = some x → ∀ v, s.pc v ≠ .lock (.callback x)
  | _ => True

/-- The fibers a worker's place in `run()` names. -/
def Pc.mentions : Pc → List Ref
  | .pick | .acquire _ | .finish => []
  | .lock work | .resume work | .unlock work => [work.fiber]
  | .test _ f | .requeue _ f | .testTerm f | .release f => [f]
  | .inside work nest (.calling g) => g :: work.fiber :: nest
  | .inside work nest _ => work.fiber :: nest

/-- Only fibers that exist are named. -/
structure Known (s : State) : Prop where
  queued : ∀ t ∈ s.tasks, ∀ f, t.job = .fiber f → s.Exists f
  held : ∀ w, ∀ f ∈ (s.pc w).mentions, s.Exists f
  pooled : ∀ f ∈ s.pool, s.Exists f
  jobs : ∀ w t f, (s.pc w).work = some (.task t f) → t.job = .fiber f

theorem Pc.nest_mentions {pc : Pc} {f : Ref} (inside : f ∈ pc.nest) : f ∈ pc.mentions := by
  cases pc with
  | inside work nest phase => cases phase <;> simp_all [Pc.nest, Pc.mentions]
  | _ => cases inside

theorem known_init : Known machine.init := by
  constructor <;> simp [machine, Pc.mentions, Pc.work]

/-- Fibers stay: a task or a cached fiber that was there before exists, as does what the places name. -/
theorem Known.grow {s s' : State} (h : Known s) (older : s.created ≤ s'.created)
    (queued : ∀ t ∈ s'.tasks, t ∈ s.tasks ∨ ∀ f, t.job = .fiber f → s'.Exists f)
    (pooled : ∀ f ∈ s'.pool, f ∈ s.pool ∨ s'.Exists f)
    (held : ∀ w, ∀ f ∈ (s'.pc w).mentions, f ∈ (s.pc w).mentions ∨ s'.Exists f)
    (jobs : ∀ w t f, (s'.pc w).work = some (.task t f) → t.job = .fiber f) : Known s' := by
  have still : ∀ f, s.Exists f → s'.Exists f := fun f known => Nat.lt_of_lt_of_le known older
  constructor
  case queued =>
    intro t mem f job
    rcases queued t mem with before | known
    · exact still f (h.queued t before f job)
    · exact known f job
  case held =>
    intro w f mem
    rcases held w f mem with before | known
    · exact still f (h.held w f before)
    · exact known
  case pooled =>
    intro f mem
    rcases pooled f mem with before | known
    · exact still f (h.pooled f before)
    · exact known
  case jobs => exact jobs

/-- One worker goes to another place. -/
theorem Known.place {s s' : State} (h : Known s) (w : Worker) (pc : Pc) (moved : s'.pc = Function.update s.pc w pc)
    (older : s.created ≤ s'.created) (queued : ∀ t ∈ s'.tasks, t ∈ s.tasks ∨ ∀ f, t.job = .fiber f → s'.Exists f)
    (pooled : ∀ f ∈ s'.pool, f ∈ s.pool ∨ s'.Exists f) (held : ∀ f ∈ pc.mentions, f ∈ (s.pc w).mentions ∨ s'.Exists f)
    (jobs : ∀ t f, pc.work = some (.task t f) → t.job = .fiber f) : Known s' := by
  apply h.grow older queued pooled
  · intro v f mem
    rw [moved] at mem
    by_cases mine : v = w
    · subst mine
      rw [Function.update_self] at mem
      exact held f mem
    · rw [Function.update_of_ne mine] at mem
      exact .inl mem
  · intro v t f work
    rw [moved] at work
    by_cases mine : v = w
    · subst mine
      rw [Function.update_self] at work
      exact jobs t f work
    · rw [Function.update_of_ne mine] at work
      exact h.jobs v t f work

/-- The worker's next place names only what its last one did. -/
theorem Known.turn {s s' : State} (h : Known s) {w : Worker} {before after : Pc} (here : s.pc w = before)
    (moved : s'.pc = Function.update s.pc w after) (created : s'.created = s.created) (tasks : s'.tasks = s.tasks)
    (pool : s'.pool = s.pool) (named : after.mentions ⊆ before.mentions)
    (jobs : ∀ t f, after.work = some (.task t f) → before.work = some (.task t f)) : Known s' := by
  refine h.place w after moved (Nat.le_of_eq created.symm) (fun t mem => .inl (tasks ▸ mem)) (fun f mem => .inl (pool ▸ mem))
    (fun f mem => .inl ?_) fun t f work => ?_
  · rw [here]
    exact named mem
  · apply h.jobs w
    rw [here]
    exact jobs t f work

theorem Turns.named {s : State} {w : Worker} {l : Label} {before after : Pc} (turns : Turns s w l before after) :
    ∀ f ∈ after.mentions, f ∈ before.mentions ∨ s.Exists f := by
  intro f mem
  cases turns with
  | asked known =>
    rcases List.mem_cons.1 mem with rfl | before
    · exact .inr known
    · exact .inl before
  | _ => grind [Pc.mentions, Work.fiber]

theorem Turns.same_work {s : State} {w : Worker} {l : Label} {before after : Pc} (turns : Turns s w l before after) :
    ∀ t f, after.work = some (.task t f) → before.work = some (.task t f) := by
  cases turns <;> simp [Pc.work]

theorem Known.move {s s' : State} {l : Label} (h : Known s) (move : Moves s l s') : Known s' := by
  cases move with
  | created =>
    exact h.grow (Nat.le_succ _) (fun _ => .inl) (fun _ => .inl) (fun _ _ => .inl) h.jobs
  | scheduled job options known =>
    refine h.grow (Nat.le_refl _) (fun t mem => ?_) (fun _ => .inl) (fun _ _ => .inl) h.jobs
    rcases List.mem_append.1 mem with before | added
    · exact .inl before
    · cases List.mem_singleton.1 added
      exact .inr known
  | setPolicy | setMLFQConfig | setMaxCachedPerKey | idle | refused =>
    exact h.grow (Nat.le_refl _) (fun _ => .inl) (fun _ => .inl) (fun _ _ => .inl) h.jobs
  | pickedFiber w here pre post t f job queue fits =>
    have mem : t ∈ s.tasks := by simp [queue]
    refine h.place w _ rfl (Nat.le_refl _) (fun t mem => .inl ?_) (fun _ => .inl) (fun x mentioned => .inr ?_) fun t' f' work => ?_
    · grind
    · cases List.mem_singleton.1 mentioned
      exact h.queued t mem f job
    · cases work
      exact job
  | pickedCallback w here pre post t cb job queue fits =>
    refine h.place w _ rfl (Nat.le_refl _) (fun t mem => .inl ?_) (fun _ => .inl) nofun nofun
    grind
  | reused w cb here f pool cached dead =>
    refine h.place w _ rfl (Nat.le_refl _) (fun _ => .inl) (fun x mem => .inl ?_) (fun x mentioned => .inr ?_) nofun
    · rw [cached]
      exact List.mem_cons_of_mem _ mem
    · cases List.mem_singleton.1 mentioned
      exact h.pooled f (by simp [cached])
  | built w cb here =>
    refine h.place w _ rfl (Nat.le_succ _) (fun _ => .inl) (fun _ => .inl) (fun x mentioned => .inr ?_) nofun
    cases List.mem_singleton.1 mentioned
    exact Nat.lt_succ_self _
  | entered w work nest g here alive =>
    refine h.turn here rfl rfl rfl rfl (fun f mem => ?_) fun t f => id
    grind [Pc.mentions]
  | requeued w t f here requeues =>
    have job := h.jobs w t f (by rw [here, Pc.work])
    have known := h.held w f (by simp [here, Pc.mentions])
    refine h.place w _ rfl (Nat.le_refl _) (fun t' mem => ?_) (fun _ => .inl) nofun nofun
    rcases List.mem_append.1 mem with before | added
    · exact .inl before
    · cases List.mem_singleton.1 added
      refine .inr fun f' job' => ?_
      cases job.symm.trans job'
      exact known
  | cached w f here dead room =>
    refine h.place w _ rfl (Nat.le_refl _) (fun _ => .inl) (fun x mem => ?_) nofun nofun
    rcases List.mem_cons.1 mem with rfl | before
    · exact .inr (h.held w x (by simp [here, Pc.mentions]))
    · exact .inl before
  | turned l w before after here turns =>
    refine h.place w after rfl (Nat.le_refl _) (fun _ => .inl) (fun _ => .inl) ?_ fun t f work => ?_
    · rw [here]
      exact turns.named
    · apply h.jobs w
      rw [here]
      exact turns.same_work t f work
  | lockedTask w _ _ here | lockedCallback w _ here | resumed w _ here | yielded w _ _ _ here | finished w _ _ _ here
  | returned w _ _ _ _ here | unlockedTask w _ _ here | unlockedCallback w _ here | dropped w _ here | done w here =>
    exact h.turn here rfl rfl rfl rfl (by simp [Pc.mentions, Work.fiber]) (by simp [Pc.work])

theorem known_of_reach {s : State} (h : machine.Reach s) : Known s :=
  h.invariant known_init fun _ _ _ inv _ e => inv.move (step_moves e)

theorem Known.fresh {s : State} (h : Known s) : ¬ s.Executing s.created := fun ⟨w, inside⟩ =>
  Nat.lt_irrefl s.created (h.held w _ (Pc.nest_mentions inside))

/-! ## The mutex of a fiber -/

theorem Turns.guards {s : State} {w : Worker} {l : Label} {before after : Pc} (turns : Turns s w l before after) :
    ∀ f, after.guards = some f → before.guards = some f := by
  cases turns <;> simp [Pc.guards, Work.fiber]

/-- A worker that takes a fiber's mutex holds it until it lets go. -/
theorem Moves.guarded {s s' : State} {l : Label} (move : Moves s l s')
    (guarded : ∀ w f, (s.pc w).guards = some f → s.holder f = some w) :
    ∀ w f, (s'.pc w).guards = some f → s'.holder f = some w := by
  cases move with
  | turned l w before after here turns =>
    have same := turns.guards
    grind
  | _ => grind [Pc.guards, Work.fiber]

/-! ## Nests -/

/-- One worker's nest, from the executing fiber to the one `resume` entered: all
are `RUNNING`, but for the first while it leaves, and each was called by the next. -/
structure Neat (state : Ref → Fiber.State) (parent : Ref → Option Ref) (work : Work) (nest : List Ref)
    (phase : Phase) : Prop where
  rooted : nest.getLast? = some work.fiber
  once : nest.Nodup
  head : ∀ x, nest.head? = some x → (state x = .running ↔ phase ≠ .leaving)
  tail : ∀ f ∈ nest.tail, state f = .running
  linked : nest.IsChain fun x p => parent x = some p

/-- The nests are disjoint, and no fiber outside of them is `RUNNING`. -/
structure Nests (s : State) : Prop where
  neat : ∀ w work nest phase, s.pc w = .inside work nest phase → Neat s.state s.parent work nest phase
  apart : ∀ w v f, f ∈ (s.pc w).nest → f ∈ (s.pc v).nest → w = v
  outside : ∀ f, s.state f = .running → s.Executing f

/-- Only the workers that moved can be inside of a fiber. -/
theorem not_executing {s : State} {f : Ref} {ls : List Label} (moved : List Worker)
    (e : machine.exec machine.init ls = some s) (named : ∀ l ∈ ls, ∀ w, l.worker = some w → w ∈ moved)
    (out : ∀ w ∈ moved, f ∉ (s.pc w).nest) : ¬ s.Executing f := by
  rintro ⟨w, inside⟩
  by_cases moves : w ∈ moved
  · exact out w moves inside
  · rw [exec_idle e fun l here mine => moves (named l here w mine)] at inside
    cases inside

theorem State.Entered.executing {s : State} {f : Ref} (h : s.Entered f) : s.Executing f :=
  h.imp fun _ called => List.dropLast_subset _ called

/-- Only the parents of called fibers matter. -/
theorem linked_congr {nest : List Ref} {parent parent' : Ref → Option Ref}
    (same : ∀ f ∈ nest.dropLast, parent' f = parent f) (linked : nest.IsChain fun x p => parent x = some p) :
    nest.IsChain fun x p => parent' x = some p := by
  induction nest with
  | nil => exact .nil
  | cons x rest ih =>
    cases rest with
    | nil => exact .singleton _
    | cons p rest =>
      rw [List.isChain_cons_cons] at linked ⊢
      simp only [List.dropLast_cons_cons, List.mem_cons, forall_eq_or_imp] at same
      exact ⟨same.1 ▸ linked.1, ih same.2 linked.2⟩

theorem Neat.congr {state state' : Ref → Fiber.State} {parent parent' : Ref → Option Ref} {work : Work}
    {nest : List Ref} {phase : Phase} (h : Neat state parent work nest phase)
    (states : ∀ f ∈ nest, state' f = .running ↔ state f = .running)
    (parents : ∀ f ∈ nest.dropLast, parent' f = parent f) : Neat state' parent' work nest phase where
  rooted := h.rooted
  once := h.once
  head x first := (states x (List.mem_of_head? first)).trans (h.head x first)
  tail f called := (states f (List.mem_of_mem_tail called)).2 (h.tail f called)
  linked := linked_congr parents h.linked

/-- One worker moves: the others' fibers stay as they are and stay out of its
nest, and what it leaves behind is not `RUNNING`. -/
theorem Nests.change {s s' : State} (h : Nests s) (w : Worker) (others : ∀ v, v ≠ w → s'.pc v = s.pc v)
    (states : ∀ v, v ≠ w → ∀ f ∈ (s.pc v).nest, s'.state f = .running ↔ s.state f = .running)
    (parents : ∀ v, v ≠ w → ∀ f ∈ (s.pc v).nest.dropLast, s'.parent f = s.parent f)
    (away : ∀ v, v ≠ w → ∀ f ∈ (s.pc v).nest, f ∉ (s'.pc w).nest)
    (mine : ∀ work nest phase, s'.pc w = .inside work nest phase → Neat s'.state s'.parent work nest phase)
    (left : ∀ f, s'.state f = .running → f ∉ (s'.pc w).nest → s.state f = .running ∧ f ∉ (s.pc w).nest) :
    Nests s' := by
  constructor
  case neat =>
    intro v work nest phase here
    by_cases same : v = w
    · exact mine work nest phase (same ▸ here)
    · rw [others v same] at here
      have nestIs : (s.pc v).nest = nest := by rw [here, Pc.nest]
      exact (h.neat v work nest phase here).congr (nestIs ▸ states v same) (nestIs ▸ parents v same)
  case apart =>
    intro u v f hu hv
    by_cases uw : u = w <;> by_cases vw : v = w
    · rw [uw, vw]
    · rw [others v vw] at hv
      exact absurd (uw ▸ hu) (away v vw f hv)
    · rw [others u uw] at hu
      exact absurd (vw ▸ hv) (away u uw f hu)
    · rw [others u uw] at hu
      rw [others v vw] at hv
      exact h.apart u v f hu hv
  case outside =>
    intro f running
    by_cases inside : f ∈ (s'.pc w).nest
    · exact ⟨w, inside⟩
    · obtain ⟨before, notMine⟩ := left f running inside
      obtain ⟨v, there⟩ := h.outside f before
      have other : v ≠ w := fun same => notMine (same ▸ there)
      exact ⟨v, by rwa [others v other]⟩

/-- Steps outside of the nests: no fiber starts or stops being `RUNNING`, and
no called fiber's parent changes. -/
theorem Nests.frame {s s' : State} (h : Nests s) (w : Worker) (others : ∀ v, v ≠ w → s'.pc v = s.pc v)
    (before : (s.pc w).nest = []) (after : ∀ work nest phase, s'.pc w ≠ .inside work nest phase)
    (states : ∀ f, s'.state f = .running ↔ s.state f = .running)
    (parents : ∀ f, s.Entered f → s'.parent f = s.parent f) : Nests s' := by
  have empty : (s'.pc w).nest = [] := by
    cases here : s'.pc w with
    | inside work nest phase => exact absurd here (after _ _ _)
    | _ => rfl
  refine h.change w others (fun _ _ f _ => states f) (fun v _ f called => parents f ⟨v, called⟩) ?_ ?_ ?_
  · simp [empty]
  · exact fun work nest phase here => absurd here (after _ _ _)
  · exact fun f running _ => ⟨(states f).1 running, by simp [before]⟩

/-- A change of state that does not touch `RUNNING`. -/
theorem running_update {state : Ref → Fiber.State} {f : Ref} {new : Fiber.State} (before : state f ≠ .running)
    (after : new ≠ .running) (g : Ref) : Function.update state f new g = .running ↔ state g = .running := by
  by_cases same : g = f
  · subst same
    simp [before, after]
  · rw [Function.update_of_ne same]

/-! ## The invariant -/

structure Apart (s : State) : Prop where
  nests : Nests s
  guarded : ∀ w f, (s.pc w).guards = some f → s.holder f = some w
  ready : ∀ w work, s.pc w = .resume work → s.state work.fiber = .ready ∧ ¬ s.Executing work.fiber
  waiting : ∀ w f, s.pc w = .lock (.callback f) → s.state f ≠ .term

theorem apart_init : Apart machine.init := by
  refine ⟨?_, ?_, ?_, ?_⟩
  · constructor <;> simp [machine, Pc.nest]
  all_goals simp [machine, Pc.guards]

section Moves

variable {s s' : State} {w : Worker} {work : Work} {nest rest : List Ref} {x g : Ref} {phase : Phase}

/-- Another worker's fiber is not in this worker's nest. -/
theorem Nests.elsewhere (h : Nests s) (here : s.pc w = .inside work nest phase) {v : Worker} (other : v ≠ w)
    {f : Ref} (there : f ∈ (s.pc v).nest) : f ∉ nest := fun inside =>
  other (h.apart v w f there (by rwa [here, Pc.nest]))

/-- One worker moves, and only its own fibers change. -/
theorem Nests.owned {pc : Pc} {state : Ref → Fiber.State} {parent : Ref → Option Ref} (h : Nests s) (w : Worker)
    (own : Ref → Prop) (away : ∀ v, v ≠ w → ∀ f ∈ (s.pc v).nest, ¬ own f)
    (states : ∀ f, ¬ own f → state f = s.state f) (parents : ∀ f, ¬ own f → parent f = s.parent f)
    (keeps : ∀ f ∈ pc.nest, own f)
    (mine : ∀ work nest phase, pc = .inside work nest phase → Neat state parent work nest phase)
    (left : ∀ f, state f = .running → f ∉ pc.nest → s.state f = .running ∧ f ∉ (s.pc w).nest) :
    Nests { s with state, parent, pc := Function.update s.pc w pc } := by
  have now : Function.update s.pc w pc w = pc := Function.update_self ..
  refine h.change w (fun v other => Function.update_of_ne other ..) ?_ ?_ ?_ ?_ ?_
  · intro v other f there
    exact iff_of_eq (congrArg (· = Fiber.State.running) (states f (away v other f there)))
  · intro v other f called
    exact parents f (away v other f (List.dropLast_subset _ called))
  · intro v other f there inside
    exact away v other f there (keeps f (now ▸ inside))
  · intro work nest phase place
    exact mine work nest phase (now.symm.trans place)
  · intro f running out
    exact left f running (now ▸ out)

/-- The executing fiber stops, and its worker stays at it. -/
theorem Nests.leaving (h : Nests s) (here : s.pc w = .inside work (x :: rest) .code) (new : Fiber.State)
    (stops : new ≠ .running) :
    Nests { s with state := Function.update s.state x new,
                   pc := Function.update s.pc w (.inside work (x :: rest) .leaving) } := by
  have ⟨rooted, once, _, tail, linked⟩ := h.neat w _ _ _ here
  have other {f : Ref} (ne : f ≠ x) : Function.update s.state x new f = s.state f := Function.update_of_ne ne ..
  refine h.owned w (· ∈ x :: rest) (fun v ne f => h.elsewhere here ne)
    (fun f out => other (List.ne_of_not_mem_cons out)) (fun _ _ => rfl) (fun _ => id) ?_ ?_
  · rintro _ _ _ ⟨⟩
    refine ⟨rooted, once, fun y first => ?_, fun f called => ?_, linked⟩
    · cases first
      rw [Function.update_self]
      exact iff_of_false stops (absurd rfl)
    · rw [other fun same => (List.nodup_cons.1 once).1 (same ▸ called)]
      exact tail f called
  · intro f running out
    rw [other (List.ne_of_not_mem_cons out)] at running
    exact ⟨running, by rwa [here, Pc.nest]⟩

theorem Nests.turn (h : Nests s) (here : s.pc w = .inside work nest phase) (after : Phase)
    (same : phase = .leaving ↔ after = .leaving) :
    Nests { s with pc := Function.update s.pc w (.inside work nest after) } := by
  have ⟨rooted, once, head, tail, linked⟩ := h.neat w _ _ _ here
  refine h.owned w (· ∈ nest) (fun v ne f => h.elsewhere here ne) (fun _ _ => rfl) (fun _ _ => rfl) (fun _ => id) ?_ ?_
  · rintro _ _ _ ⟨⟩
    exact ⟨rooted, once, fun y first => (head y first).trans (not_congr same), tail, linked⟩
  · exact fun f running out => ⟨running, by rwa [here, Pc.nest]⟩

theorem Nests.resumed (h : Nests s) (here : s.pc w = .resume work) (out : ¬ s.Executing work.fiber) :
    Nests { s with state := Function.update s.state work.fiber .running,
                   pc := Function.update s.pc w (.inside work [work.fiber] .code) } := by
  have other {f : Ref} (ne : f ≠ work.fiber) : Function.update s.state work.fiber .running f = s.state f :=
    Function.update_of_ne ne ..
  refine h.owned w (· = work.fiber) (fun v _ f there same => out ⟨v, same ▸ there⟩) (fun f => other) (fun _ _ => rfl)
    (fun f => List.mem_singleton.1) ?_ ?_
  · rintro _ _ _ ⟨⟩
    refine ⟨rfl, List.nodup_singleton _, fun y first => ?_, nofun, .singleton _⟩
    cases first
    rw [Function.update_self]
    exact iff_of_true rfl nofun
  · intro f running away
    rw [other fun same => away (List.mem_singleton.2 same)] at running
    exact ⟨running, by simp [here, Pc.nest]⟩

theorem Nests.entered (h : Nests s) (here : s.pc w = .inside work nest (.calling g)) (out : ¬ s.Executing g) :
    Nests { s with state := Function.update s.state g .running, parent := Function.update s.parent g nest.head?,
                   pc := Function.update s.pc w (.inside work (g :: nest) .code) } := by
  have ⟨rooted, once, head, tail, linked⟩ := h.neat w _ _ _ here
  have fresh : g ∉ nest := fun inside => out ⟨w, by rwa [here, Pc.nest]⟩
  have other {f : Ref} (ne : f ≠ g) : Function.update s.state g .running f = s.state f := Function.update_of_ne ne ..
  refine h.owned w (· ∈ g :: nest) (fun v ne f there inside => ?_) (fun f away => other (List.ne_of_not_mem_cons away))
    (fun f away => Function.update_of_ne (List.ne_of_not_mem_cons away) ..) (fun _ => id) ?_ ?_
  · rcases List.mem_cons.1 inside with rfl | inside
    · exact out ⟨v, there⟩
    · exact h.elsewhere here ne there inside
  · rintro _ _ _ ⟨⟩
    cases nest with
    | nil => cases rooted
    | cons x rest =>
      have still {f : Ref} (inside : f ∈ x :: rest) : f ≠ g := fun same => fresh (same ▸ inside)
      have runs : s.state x = .running := (head x rfl).2 nofun
      have below : (x :: rest).IsChain fun y p => Function.update s.parent g (some x) y = some p :=
        linked_congr (fun f called => Function.update_of_ne (still (List.dropLast_subset _ called)) ..) linked
      refine ⟨rooted, List.nodup_cons.2 ⟨fresh, once⟩, fun y first => ?_, fun f called => ?_,
        List.isChain_cons_cons.2 ⟨Function.update_self .., below⟩⟩
      · cases first
        rw [Function.update_self]
        exact iff_of_true rfl nofun
      · rw [other (still called)]
        rcases List.mem_cons.1 called with rfl | called
        · exact runs
        · exact tail f called
  · intro f running away
    rw [other (List.ne_of_not_mem_cons away)] at running
    exact ⟨running, by simpa [here, Pc.nest] using List.not_mem_of_not_mem_cons away⟩

theorem Nests.returned (h : Nests s) {p : Ref} (here : s.pc w = .inside work (x :: p :: rest) .leaving) :
    Nests { s with parent := Function.update s.parent x none,
                   pc := Function.update s.pc w (.inside work (p :: rest) .code) } := by
  have ⟨rooted, once, head, tail, linked⟩ := h.neat w _ _ _ here
  obtain ⟨gone, once⟩ := List.nodup_cons.1 once
  refine h.owned w (· ∈ x :: p :: rest) (fun v ne f => h.elsewhere here ne) (fun _ _ => rfl)
    (fun f away => Function.update_of_ne (List.ne_of_not_mem_cons away) ..) (fun f => List.mem_cons_of_mem x) ?_ ?_
  · rintro _ _ _ ⟨⟩
    refine ⟨by simpa using rooted, once, fun y first => ?_, fun f called => ?_,
      linked_congr (fun f called => ?_) (List.isChain_cons_cons.1 linked).2⟩
    · exact iff_of_true (tail y (List.mem_of_head? first)) nofun
    · exact tail f (List.mem_cons_of_mem p called)
    · have below : f ∈ p :: rest := List.dropLast_subset _ called
      have ne : f ≠ x := fun same => gone (same ▸ below)
      exact Function.update_of_ne ne ..
  · intro f running away
    have out : f ∉ x :: p :: rest := fun inside => by
      rcases List.mem_cons.1 inside with rfl | inside
      · exact (head f rfl).1 running rfl
      · exact away inside
    exact ⟨running, by rwa [here, Pc.nest]⟩

/-- A fiber without a parent is the one `resume` entered. -/
theorem Nests.alone (h : Nests s) (here : s.pc w = .inside work (x :: rest) phase) (root : s.parent x = none) :
    rest = [] := by
  have linked := (h.neat w _ _ _ here).linked
  cases rest with
  | nil => rfl
  | cons p rest => simp [(List.isChain_cons_cons.1 linked).1] at root

theorem Nests.switchedOut (h : Nests s) (here : s.pc w = .inside work (x :: rest) .leaving)
    (root : s.parent x = none) : Nests { s with pc := Function.update s.pc w (.unlock work) } := by
  obtain rfl := h.alone here root
  have stopped : s.state x ≠ .running := fun running => ((h.neat w _ _ _ here).head x rfl).1 running rfl
  refine h.owned w (· ∈ [x]) (fun v ne f => h.elsewhere here ne) (fun _ _ => rfl) (fun _ _ => rfl) nofun nofun ?_
  intro f running _
  refine ⟨running, ?_⟩
  rw [here, Pc.nest, List.mem_singleton]
  exact fun same => stopped (same ▸ running)

theorem Nests.move {s s' : State} {l : Label} (h : Apart s) (known : Known s) (cond : CallsApart s l)
    (move : Moves s l s') : Nests s' := by
  have nests := h.nests
  have fresh : s.state s.created ≠ .running := mt (nests.outside _) known.fresh
  have unborn : ¬ s.Entered s.created := mt State.Entered.executing known.fresh
  cases move with
  | created =>
    have same := @running_update s.state s.created .ready fresh nofun
    refine ⟨fun v work nest phase here => ?_, nests.apart, fun f running => nests.outside f ((same f).1 running)⟩
    refine (nests.neat v work nest phase here).congr (fun f _ => same f) fun f called => ?_
    exact Function.update_of_ne (fun born => unborn ⟨v, by rwa [here, Pc.nest, ← born]⟩) ..
  | scheduled | setPolicy | setMLFQConfig | setMaxCachedPerKey | idle | refused =>
    exact ⟨nests.neat, nests.apart, nests.outside⟩
  | reused w cb here f pool cached dead =>
    simp only [CallsApart, here, cached, List.head?_cons, Option.some.injEq, forall_eq'] at cond
    exact nests.frame w (by grind) (by simp [here, Pc.nest]) (by simp) (running_update (by simp [dead]) nofun)
      (by grind)
  | built w cb here =>
    exact nests.frame w (by grind) (by simp [here, Pc.nest]) (by simp) (running_update fresh nofun) (by grind)
  | resumed w work here ready => exact nests.resumed here (h.ready w work here).2
  | entered w work nest g here alive =>
    simp only [CallsApart, here] at cond
    exact nests.entered here cond.1
  | yielded w work x rest here running => exact nests.leaving here .ready nofun
  | finished w work x rest here => exact nests.leaving here .term nofun
  | returned w work x p rest here parent => exact nests.returned here
  | turned l w before after here turns =>
    cases turns with
    | asked => exact nests.turn here _ (by simp)
    | yieldedOver dead =>
      have running := ((nests.neat w _ _ _ here).head _ rfl).2 nofun
      exact absurd (dead.symm.trans running) nofun
    | switchedOut root => exact nests.switchedOut here root
    | _ => exact nests.frame w (by grind) (by simp [here, Pc.nest]) (by simp) (fun _ => .rfl) (fun _ _ => rfl)
  | pickedFiber w here | pickedCallback w here | lockedTask w _ _ here | lockedCallback w _ here
  | unlockedTask w _ _ here | unlockedCallback w _ here | requeued w _ _ here | cached w _ here | dropped w _ here
  | done w here => exact nests.frame w (by grind) (by simp [here, Pc.nest]) (by simp) (fun _ => .rfl) (fun _ _ => rfl)

/-- The mutex keeps every other worker off the fiber that one of them resumes. -/
theorem Apart.root_held (h : Apart s) {f : Ref} (inside : f ∈ (s.pc w).nest) :
    s.Entered f ∨ s.holder f = some w := by
  cases here : s.pc w with
  | inside work nest phase =>
    rw [here, Pc.nest] at inside
    have last := (h.nests.neat w _ _ _ here).rooted
    rw [← List.dropLast_append_getLast? _ last, List.mem_append, List.mem_singleton] at inside
    refine inside.imp (fun called => ⟨w, by rwa [here, Pc.nest]⟩) fun root => ?_
    exact h.guarded w f (by rw [here, Pc.guards, root])
  | _ => simp [here, Pc.nest] at inside

/-- A fiber that `call` did not enter and whose mutex no executing worker holds
is at rest. -/
theorem Apart.at_rest (h : Apart s) {f : Ref} (uncalled : ¬ s.Entered f)
    (free : ∀ v, s.holder f = some v → (s.pc v).nest = []) (alive : s.state f ≠ .term) :
    s.state f = .ready ∧ ¬ s.Executing f := by
  have out : ¬ s.Executing f := fun ⟨v, inside⟩ => by
    have root := (h.root_held inside).resolve_left uncalled
    rw [free v root] at inside
    cases inside
  have still := mt (h.nests.outside f) out
  cases state : s.state f with
  | ready => exact ⟨rfl, out⟩
  | running => exact absurd state still
  | term => exact absurd state alive

/-- Two workers are not about to resume one fiber. -/
theorem Apart.resume_once (h : Apart s) {v : Worker} {a b : Work} (hw : s.pc w = .resume a) (hv : s.pc v = .resume b)
    (same : a.fiber = b.fiber) : w = v := by
  have first := h.guarded w a.fiber (by rw [hw, Pc.guards])
  have second := h.guarded v a.fiber (by rw [hv, Pc.guards, same])
  exact Option.some.inj (first.symm.trans second)

/-- A worker moves, and leaves alone the fibers that others are about to resume. -/
theorem Apart.ready_place (h : Apart s) (w : Worker) {pc : Pc} (moved : s'.pc = Function.update s.pc w pc)
    (others : ∀ v work, v ≠ w → s.pc v = .resume work → s'.state work.fiber = s.state work.fiber ∧ work.fiber ∉ pc.nest)
    (own : ∀ work, pc = .resume work → s'.state work.fiber = .ready ∧ ¬ s.Executing work.fiber) :
    ∀ v work, s'.pc v = .resume work → s'.state work.fiber = .ready ∧ ¬ s'.Executing work.fiber := by
  have outside : ∀ f, ¬ s.Executing f → f ∉ pc.nest → ¬ s'.Executing f := by
    rintro f out away ⟨u, inside⟩
    rw [moved] at inside
    by_cases mine : u = w
    · subst mine
      rw [Function.update_self] at inside
      exact away inside
    · rw [Function.update_of_ne mine] at inside
      exact out ⟨u, inside⟩
  intro v work here
  rw [moved] at here
  by_cases mine : v = w
  · subst mine
    rw [Function.update_self] at here
    obtain ⟨ready, out⟩ := own work here
    refine ⟨ready, outside _ out ?_⟩
    rw [here]
    exact List.not_mem_nil
  · rw [Function.update_of_ne mine] at here
    obtain ⟨ready, out⟩ := h.ready v work here
    obtain ⟨same, away⟩ := others v work mine here
    exact ⟨same.trans ready, outside _ out away⟩

theorem Apart.ready_move {l : Label} (h : Apart s) (known : Known s) (cond : CallsApart s l) (move : Moves s l s') :
    ∀ w work, s'.pc w = .resume work → s'.state work.fiber = .ready ∧ ¬ s'.Executing work.fiber := by
  have away : ∀ {v work x}, s.pc v = .resume work → s.Executing x → work.fiber ≠ x := fun there inside same =>
    (h.ready _ _ there).2 (same ▸ inside)
  have born : ∀ {v work}, s.pc v = .resume work → work.fiber ≠ s.created := fun {v work} there =>
    Nat.ne_of_lt (known.held v work.fiber (by simp [there, Pc.mentions]))
  cases move with
  | created =>
    intro w work here
    obtain ⟨ready, out⟩ := h.ready w work here
    exact ⟨(Function.update_of_ne (born here) ..).trans ready, out⟩
  | scheduled | setPolicy | setMLFQConfig | setMaxCachedPerKey | idle | refused => exact h.ready
  | pickedFiber w | pickedCallback w | lockedTask w | unlockedTask w | unlockedCallback w | requeued w | cached w
  | dropped w | done w => exact h.ready_place w rfl (fun _ _ _ _ => ⟨rfl, List.not_mem_nil⟩) nofun
  | lockedCallback w f here free =>
    simp only [CallsApart, here] at cond
    refine h.ready_place w rfl (fun _ _ _ _ => ⟨rfl, List.not_mem_nil⟩) ?_
    rintro _ ⟨⟩
    exact h.at_rest cond (fun v holds => by cases free.symm.trans holds) (h.waiting w f here)
  | reused w cb here f pool cached dead =>
    refine h.ready_place w rfl (fun v work _ there => ⟨Function.update_of_ne ?_ .., List.not_mem_nil⟩) nofun
    rintro rfl
    cases dead.symm.trans (h.ready v work there).1
  | built w cb here =>
    exact h.ready_place w rfl (fun v work _ there => ⟨Function.update_of_ne (born there) .., List.not_mem_nil⟩) nofun
  | resumed w work here ready =>
    refine h.ready_place w rfl (fun v other ne there => ?_) nofun
    have apart : other.fiber ≠ work.fiber := fun same => ne (h.resume_once there here same)
    exact ⟨Function.update_of_ne apart .., by simpa [Pc.nest] using apart⟩
  | entered w work nest g here alive =>
    simp only [CallsApart, here] at cond
    refine h.ready_place w rfl (fun v other _ there => ?_) nofun
    have apart : other.fiber ≠ g := cond.2 v other there
    have out : other.fiber ∉ nest := fun inside => away there ⟨w, by rwa [here, Pc.nest]⟩ rfl
    exact ⟨Function.update_of_ne apart .., by simp [Pc.nest, apart, out]⟩
  | yielded w work x rest here | finished w work x rest here =>
    refine h.ready_place w rfl (fun v other _ there => ?_) nofun
    have out : ∀ y ∈ x :: rest, other.fiber ≠ y := fun y inside => away there ⟨w, by rwa [here, Pc.nest]⟩
    exact ⟨Function.update_of_ne (out x List.mem_cons_self) .., fun inside => out _ inside rfl⟩
  | returned w work x p rest here =>
    refine h.ready_place w rfl (fun v other _ there => ⟨rfl, fun inside => ?_⟩) nofun
    exact away there ⟨w, by rw [here, Pc.nest]; exact List.mem_cons_of_mem x inside⟩ rfl
  | turned l w before after here turns =>
    cases turns with
    | @tested t f alive =>
      simp only [CallsApart, here, alive, false_or] at cond
      have mine := h.guarded w f (by rw [here, Pc.guards])
      refine h.ready_place w rfl (fun _ _ _ _ => ⟨rfl, List.not_mem_nil⟩) ?_
      rintro _ ⟨⟩
      refine h.at_rest cond (fun v holds => ?_) alive
      cases mine.symm.trans holds
      rw [here]
      rfl
    | asked | yieldedOver =>
      refine h.ready_place w rfl (fun v other _ there => ⟨rfl, fun inside => ?_⟩) nofun
      exact away there ⟨w, by rw [here]; exact inside⟩ rfl
    | _ => exact h.ready_place w rfl (fun _ _ _ _ => ⟨rfl, List.not_mem_nil⟩) nofun

theorem Apart.waiting_move {l : Label} (h : Apart s) (cond : CallsApart s l) (move : Moves s l s') :
    ∀ w f, s'.pc w = .lock (.callback f) → s'.state f ≠ .term := by
  have waiting := h.waiting
  cases move with
  | finished w work x rest here =>
    simp only [CallsApart, here, Pc.nest, List.head?_cons, Option.some.injEq, forall_eq'] at cond
    grind
  | turned l w before after here turns => cases turns <;> grind
  | _ => grind

theorem Apart.move {l : Label} (h : Apart s) (known : Known s) (cond : CallsApart s l) (move : Moves s l s') :
    Apart s' :=
  ⟨Nests.move h known cond move, move.guarded h.guarded, h.ready_move known cond move, h.waiting_move cond move⟩

end Moves

theorem apart_of_reachIf {s : State} (h : machine.ReachIf CallsApart s) : Apart s :=
  h.invariant_with Known (fun _ reached => known_of_reach reached.reach) apart_init
    fun _ _ _ known inv cond e _ => inv.move known cond (step_moves e)

/-! ## One worker at a time -/

/-- No two workers are inside of one fiber, no worker is inside of one twice,
and a worker that reaches `resume()` passes its assertion. -/
structure State.NeverTwice (s : State) : Prop where
  apart : ∀ w v f, f ∈ (s.pc w).nest → f ∈ (s.pc v).nest → w = v
  once : ∀ w, (s.pc w).nest.Nodup
  ready : ∀ w work, s.pc w = .resume work → s.state work.fiber = .ready

/-- **Main theorem.** As long as `call` keeps apart from the workers, a fiber
never executes on two of them. -/
theorem never_twice {s : State} (h : machine.ReachIf CallsApart s) : s.NeverTwice := by
  have ⟨nests, _, ready, _⟩ := apart_of_reachIf h
  refine ⟨nests.apart, fun w => ?_, fun w work here => (ready w work here).1⟩
  cases here : s.pc w with
  | inside work nest phase => exact (nests.neat w work nest phase here).once
  | _ => exact List.nodup_nil

/-- Worker 1 resumes fiber 0, which calls fiber 1. -/
theorem never_twice_called : ∃ s, machine.ReachIf CallsApart s ∧ (s.pc 1).nest = [1, 0] ∧ s.NeverTwice := by
  have next {s s' : State} (h : machine.ReachIf CallsApart s) (l : Label) (c : CallsApart s l)
      (e : step s l = some s') : machine.ReachIf CallsApart s' := h.step c e
  let start : List Label := [.create, .schedule (.fiber 0) {}, .run 1, .run 1]
  let calling : List Label := start ++ [.run 1, .run 1, .create, .call 1 1]
  have locked := next (next (next (next .init .create trivial rfl) (.schedule (.fiber 0) {}) trivial rfl)
    (.run 1) trivial rfl) (.run 1) trivial rfl
  have free := not_executing (f := 0) [1] (rfl : machine.exec machine.init start = some _)
    (by simp [start, Label.worker]) (by decide)
  have resumed := next (next locked (.run 1) (.inr fun called => free called.executing) rfl) (.run 1) trivial rfl
  have asked := next (next resumed .create trivial rfl) (.call 1 1) trivial rfl
  have idle {w : Worker} (other : w ≠ 1) := exec_idle (w := w) (rfl : machine.exec machine.init calling = some _)
    (by simp [calling, start, Label.worker, other.symm])
  have fresh := not_executing (f := 1) [1] (rfl : machine.exec machine.init calling = some _)
    (by simp [calling, start, Label.worker]) (by decide)
  have entered := next asked (.run 1) ⟨fresh, fun v work here => ?_⟩ rfl
  · exact ⟨_, entered, rfl, never_twice entered⟩
  · by_cases same : v = 1
    · subst same
      cases here
    · cases (idle same).symm.trans here

/-- Fiber 0 schedules fiber 1 and calls it; worker 2 takes the task, finds the
mutex free, and reaches `resume()` while fiber 1 is `RUNNING`. -/
theorem call_meets_run : ¬ ∀ s, machine.Reach s → s.NeverTwice := fun h => by
  have reached := reach_of_exec (rfl : machine.exec machine.init
    [.create, .schedule (.fiber 0) {}, .run 1, .run 1, .run 1, .run 1, .create, .schedule (.fiber 1) {},
      .call 1 1, .run 1, .run 2, .run 2, .run 2] = some _)
  exact absurd ((h _ reached).ready 2 _ rfl) nofun

end Mycoroutine.Run
