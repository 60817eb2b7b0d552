import Mycoroutine.Scheduler.Wakeup

/-!
# Wake-ups that are neither stale nor doubled

A fiber has at most one thing that can make it run on: a queued task, a
notification between its store and its `schedule`, or a worker that resumes it,
runs it, or is going to queue it again. The invariant holds as long as a store
finds its fiber asleep and `run` queues no fiber again that was told.
-/

namespace Mycoroutine.Wakeup
set_option autoImplicit false
open Interleave Machine

/-- `task.fiber`. -/
def fiberOf (t : Task) : Option Ref :=
  match t.job with
  | .fiber f => some f
  | .cb _ => none

theorem fiberOf_eq_some {t : Task} {f : Ref} : fiberOf t = some f ↔ t.job = .fiber f := by
  cases job : t.job <;> simp [fiberOf, job]

/-- The wait a fiber is in. -/
def Place.wait : Place → Option Nat
  | .outside => none
  | .first wait | .sleeping wait | .yielded wait => some wait

/-- Whether a worker at `pc` has the fiber run on: it resumes it, executes it,
or may queue it again. -/
def driving (pc : Run.Pc) (told unwoken : Prop) (f : Ref) : Prop :=
  match pc with
  | .lock work | .resume work => work.fiber = f
  | .test _ g => g = f
  | .inside work _ .code => work.fiber = f ∧ ¬ told
  | .inside (.task _ g) _ .leaving | .unlock (.task _ g) | .requeue _ g => g = f ∧ unwoken
  | _ => False

namespace State

/-- The fibers queued in `m_tasks`. -/
def queued (s : State) : List Ref := s.run.tasks.filterMap fiberOf

/-- A worker took the fiber, and resumes it or finds it over. -/
def Takes (s : State) (w : Worker) (f : Ref) : Prop :=
  match s.run.pc w with
  | .lock work | .resume work => work.fiber = f
  | .test _ g => g = f
  | _ => False

/-- The fiber is about to `yield` in a wait that has been notified. -/
def Told (s : State) (f : Ref) : Prop := ∃ wait, s.place f = .sleeping wait ∧ (s.waiter wait).notified = true

/-- A worker's `resume` returned from a `yield` of the fiber's own, or from one
in a wait that is not notified yet. -/
def Unwoken (s : State) (w : Worker) : Prop :=
  s.exit w = .plain ∨ ∃ wait, s.exit w = .wait wait ∧ (s.waiter wait).notified = false

/-- A worker resumes the fiber, executes it, or may queue it again. -/
def Drives (s : State) (w : Worker) (f : Ref) : Prop := driving (s.run.pc w) (s.Told f) (s.Unwoken w) f

/-- A notification of the fiber is between its store and its `schedule`. -/
def Pending (s : State) (f : Ref) : Prop := ∃ wait ∈ s.stored, (s.waiter wait).fiber = f

end State

/-- The step wakes or queues again no fiber that runs on anyhow: a store finds
its fiber past a read of `notified`, and neither queued nor taken by a worker,
and `run` queues no fiber again that was told, or that ended, since it left. -/
def WakesAsleep (s : State) : Label → Prop
  | .store wait =>
    let f := (s.waiter wait).fiber
    (∀ w, s.current w = some f → s.place f = .sleeping wait) ∧ f ∉ s.queued ∧ ∀ w, ¬ s.Takes w f
  | .run w =>
    match s.run.pc w with
    | .requeue _ f => s.run.Requeues f → s.Unwoken w
    | _ => True
  | _ => True

/-- Nobody calls, so a nest is what `resume` entered. -/
structure Flat (r : Run.State) : Prop where
  nests : ∀ w work nest phase, r.pc w = .inside work nest phase → nest = [work.fiber] ∧ ∀ g, phase ≠ .calling g
  parents : ∀ f, r.parent f = none
  guarded : ∀ w f, (r.pc w).guards = some f → r.holder f = some w
  known : Run.Known r

/-- The labels of `run` that this machine uses. -/
def Uncalled : Run.Label → Prop
  | .call _ _ => False
  | _ => True

theorem Flat.nests_place {r r' : Run.State} (h : Flat r) {w : Worker} {pc : Run.Pc} (moved : r'.pc = Function.update r.pc w pc)
    (own : ∀ work nest phase, pc = .inside work nest phase → nest = [work.fiber] ∧ ∀ g, phase ≠ .calling g) :
    ∀ v work nest phase, r'.pc v = .inside work nest phase → nest = [work.fiber] ∧ ∀ g, phase ≠ .calling g := by
  intro v work nest phase here
  rw [moved] at here
  by_cases mine : v = w
  · subst mine
    rw [Function.update_self] at here
    exact own work nest phase here
  · rw [Function.update_of_ne mine] at here
    exact h.nests v work nest phase here

theorem Flat.nests_move {r r' : Run.State} {l : Run.Label} (h : Flat r) (move : Run.Moves r l r') (uncalled : Uncalled l) :
    ∀ v work nest phase, r'.pc v = .inside work nest phase → nest = [work.fiber] ∧ ∀ g, phase ≠ .calling g := by
  cases move with
  | created | scheduled | setPolicy | setMLFQConfig | setMaxCachedPerKey | idle | refused => exact h.nests
  | resumed w work here =>
    apply h.nests_place rfl
    rintro _ _ _ ⟨⟩
    exact ⟨rfl, nofun⟩
  | entered w work nest g here => exact absurd rfl ((h.nests w _ _ _ here).2 g)
  | yielded w work x rest here | finished w work x rest here =>
    apply h.nests_place rfl
    rintro _ _ _ ⟨⟩
    exact ⟨(h.nests w _ _ _ here).1, nofun⟩
  | returned w work x p rest here => exact absurd (h.nests w _ _ _ here).1 (by simp)
  | turned l w before after here turns =>
    cases turns with
    | asked => exact uncalled.elim
    | yieldedOver =>
      apply h.nests_place rfl
      rintro _ _ _ ⟨⟩
      exact ⟨(h.nests w _ _ _ here).1, nofun⟩
    | _ => exact h.nests_place rfl nofun
  | _ => exact h.nests_place rfl nofun

theorem Flat.move {r r' : Run.State} {l : Run.Label} (h : Flat r) (move : Run.Moves r l r') (uncalled : Uncalled l) :
    Flat r' := by
  refine ⟨h.nests_move move uncalled, ?_, move.guarded h.guarded, h.known.move move⟩
  have cleared : ∀ f g, Function.update r.parent f none g = none := fun f g => by
    rw [Function.update_apply]
    split
    · rfl
    · exact h.parents g
  cases move with
  | created | built => exact cleared r.created
  | reused w cb here f => exact cleared f
  | returned w work x => exact cleared x
  | entered w work nest g here => exact absurd rfl ((h.nests w _ _ _ here).2 g)
  | _ => exact h.parents

theorem Flat.step {s s' : State} {l : Label} (h : Flat s.run) (move : Moves s l s') : Flat s'.run := by
  cases move with
  | submittedFiber options born run made queued => exact (h.move made trivial).move queued trivial
  | submittedCallback _ _ _ moved | ran _ _ moved | tested _ _ _ _ _ moved | yielded _ _ _ _ _ moved
  | finished _ _ _ _ _ moved | slept _ _ _ _ _ _ moved | scheduled _ _ _ moved => exact h.move moved trivial
  | configured l run change =>
    obtain ⟨policy, config, n, rfl⟩ := change
    exact ⟨h.nests, h.parents, h.guarded, ⟨h.known.queued, h.known.held, h.known.pooled, h.known.jobs⟩⟩
  | _ => exact h

theorem flat_of_reach {s : State} (h : machine.Reach s) : Flat s.run := by
  have base : Flat machine.init.run := ⟨nofun, fun _ => rfl, nofun, Run.known_init⟩
  exact h.invariant base fun _ _ _ inv _ e => Flat.step inv (step_moves e)

/-- `run` may still queue the fiber again. -/
def State.Leaves (s : State) (w : Worker) (f : Ref) : Prop :=
  match s.run.pc w with
  | .inside (.task _ g) _ .leaving | .unlock (.task _ g) | .requeue _ g => g = f
  | _ => False

/-- A wait that was notified and whose fiber has not read it. -/
def State.Due (s : State) (wait : Nat) : Prop :=
  (s.waiter wait).notified = true ∧ (s.place (s.waiter wait).fiber = .sleeping wait ∨
    s.place (s.waiter wait).fiber = .yielded wait)

/-- What can have one fiber run on: a task, a pending notification, a worker.
There is at most one, and none once the fiber is over. -/
structure Single {ω : Type*} (drives : ω → Prop) (queued : Nat) (pending dead : Prop) : Prop where
  atMost : queued ≤ 1
  driver : ∀ w v, drives w → drives v → w = v
  driven : ∀ w, drives w → queued = 0 ∧ ¬ pending
  told : pending → queued = 0
  ended : dead → queued = 0 ∧ ¬ pending ∧ ∀ w, ¬ drives w

theorem Single.mono {ω : Type*} {drives drives' : ω → Prop} {queued queued' : Nat} {pending pending' dead dead' : Prop}
    (h : Single drives queued pending dead) (fewer : ∀ w, drives' w → drives w) (less : queued' ≤ queued)
    (was : pending' → pending) (before : dead' → dead) : Single drives' queued' pending' dead' where
  atMost := less.trans h.atMost
  driver w v hw hv := h.driver w v (fewer w hw) (fewer v hv)
  driven w hw := by
    have ⟨empty, quiet⟩ := h.driven w (fewer w hw)
    exact ⟨Nat.le_zero.1 (empty ▸ less), quiet ∘ was⟩
  told hp := Nat.le_zero.1 (h.told (was hp) ▸ less)
  ended ho := by
    have ⟨empty, quiet, idle⟩ := h.ended (before ho)
    exact ⟨Nat.le_zero.1 (empty ▸ less), quiet ∘ was, fun w => idle w ∘ fewer w⟩

/-- Nobody has the fiber run on but the queue, or a notification. -/
theorem Single.undriven {ω : Type*} {drives : ω → Prop} {queued : Nat} {pending dead : Prop} (idle : ∀ w, ¬ drives w)
    (atMost : queued ≤ 1) (told : pending → queued = 0) (ended : dead → queued = 0 ∧ ¬ pending) :
    Single drives queued pending dead where
  atMost := atMost
  driver w _ hw := absurd hw (idle w)
  driven w hw := absurd hw (idle w)
  told := told
  ended ho := ⟨(ended ho).1, (ended ho).2, idle⟩

/-- One worker has the fiber run on. -/
theorem Single.of_driver {ω : Type*} {drives : ω → Prop} {queued : Nat} {pending dead : Prop} (w : ω)
    (only : ∀ v, drives v → v = w) (empty : queued = 0) (quiet : ¬ pending) (alive : ¬ dead) :
    Single drives queued pending dead where
  atMost := empty ▸ Nat.zero_le 1
  driver u v hu hv := (only u hu).trans (only v hv).symm
  driven _ _ := ⟨empty, quiet⟩
  told _ := empty
  ended ho := absurd ho alive

structure Once (s : State) : Prop where
  inWait : ∀ f wait, (s.place f).wait = some wait →
    wait < s.waits ∧ (s.waiter wait).fiber = f ∧ s.run.Exists f ∧ s.run.state f ≠ .term
  waiting : ∀ wait, wait ∈ s.waiters ∨ wait ∈ s.popped →
    (s.place (s.waiter wait).fiber).wait = some wait ∧ (s.waiter wait).notified = false
  lists : (s.waiters ++ s.popped).Nodup ∧ s.stored.Nodup
  due : ∀ wait ∈ s.stored, s.Due wait
  single : ∀ f, Single (s.Drives · f) (s.queued.count f) (s.Pending f) (s.run.state f = .term)
  sent : ∀ t ∈ s.run.tasks, ∀ wait, t.sentFor = some wait → t.job = .fiber (s.waiter wait).fiber ∧ s.Due wait
  taken : ∀ w t f wait, s.Takes w f → (s.run.pc w).work = some (.task t f) → t.sentFor = some wait →
    (s.waiter wait).fiber = f ∧ s.Due wait
  plain : ∀ w f, s.Leaves w f → s.exit w = .plain → s.place f = .outside
  asleep : ∀ w f wait, s.Leaves w f → s.exit w = .wait wait → (s.waiter wait).notified = false →
    s.place f = .yielded wait
  exits : ∀ w wait, s.exit w = .wait wait → wait < s.waits
  executes : ∀ f wait, s.place f = .first wait ∨ s.place f = .sleeping wait → ∃ w, s.current w = some f

theorem driving_mono {pc : Run.Pc} {told told' unwoken unwoken' : Prop} {f : Ref} (tells : told → told')
    (still : unwoken' → unwoken) (drives : driving pc told' unwoken' f) : driving pc told unwoken f := by
  revert drives
  cases pc with
  | inside work nest phase =>
    cases phase with
    | code => exact And.imp_right (mt tells)
    | _ => cases work <;> simp +contextual [driving, still]
  | unlock work => cases work <;> simp +contextual [driving, still]
  | _ => simp +contextual [driving, still]

/-- A worker has only fibers run on that it names. -/
theorem driving_mentions {pc : Run.Pc} {told unwoken : Prop} {f : Ref} (drives : driving pc told unwoken f) :
    f ∈ pc.mentions := by
  revert drives
  cases pc with
  | inside work nest phase =>
    cases phase <;> cases work <;> simp +contextual [driving, Run.Pc.mentions, Run.Work.fiber]
  | unlock work => cases work <;> simp +contextual [driving, Run.Pc.mentions, Run.Work.fiber]
  | _ => simp +contextual [driving, Run.Pc.mentions]

/-- A fiber that does not exist yet is nowhere. -/
theorem Once.unborn {s : State} (h : Once s) (flat : Flat s.run) :
    (∀ told v, ¬ driving (s.run.pc v) told (s.Unwoken v) s.run.created) ∧ s.queued.count s.run.created = 0 ∧
      ¬ s.Pending s.run.created := by
  have named : ∀ v, s.run.created ∉ (s.run.pc v).mentions := fun v here =>
    Nat.lt_irrefl _ (flat.known.held v _ here)
  refine ⟨fun told v drives => ?_, ?_, ?_⟩
  · exact named v (driving_mentions drives)
  · rw [List.count_eq_zero]
    intro queued
    obtain ⟨t, here, job⟩ := List.mem_filterMap.1 queued
    exact Nat.lt_irrefl _ (flat.known.queued t here s.run.created (fiberOf_eq_some.1 job))
  · rintro ⟨wait, stored, same⟩
    have due := (h.due wait stored).2
    have inWait : (s.place (s.waiter wait).fiber).wait = some wait := by
      rcases due with place | place <;> rw [place, Place.wait]
    rw [same] at inWait
    exact Nat.lt_irrefl _ (h.inWait _ _ inWait).2.2.1

theorem Once.single_ran {s : State} {w : Worker} {run : Run.State} {unwoken : Worker → Prop} (h : Once s)
    (flat : Flat s.run) (cond : WakesAsleep s (.run w)) (moved : Run.Moves s.run (.run w) run)
    (still : ∀ v, unwoken v → s.Unwoken v) (f : Ref) :
    Single (fun v => driving (run.pc v) (s.Told f) (unwoken v) f) ((run.tasks.filterMap fiberOf).count f)
      (s.Pending f) (run.state f = .term) := by
  have before := h.single f
  simp only [State.Drives, State.queued] at before
  have other {v : Worker} {after : Run.Pc} (apart : v ≠ w)
      (drives : driving (Function.update s.run.pc w after v) (s.Told f) (unwoken v) f) :
      driving (s.run.pc v) (s.Told f) (s.Unwoken v) f := by
    rw [Function.update_of_ne apart] at drives
    exact driving_mono id (still v) drives
  have turn (after : Run.Pc) (mine : driving after (s.Told f) (unwoken w) f →
      driving (s.run.pc w) (s.Told f) (s.Unwoken w) f) (v : Worker)
      (drives : driving (Function.update s.run.pc w after v) (s.Told f) (unwoken v) f) :
      driving (s.run.pc v) (s.Told f) (s.Unwoken v) f := by
    by_cases same : v = w
    · subst same
      exact mine (by rwa [Function.update_self] at drives)
    · exact other same drives
  -- `w` is the one that drives the fiber afterwards
  have takes (after : Run.Pc) (idle : ∀ v, ¬ driving (s.run.pc v) (s.Told f) (s.Unwoken v) f) (v : Worker)
      (drives : driving (Function.update s.run.pc w after v) (s.Told f) (unwoken v) f) : v = w := by
    by_contra apart
    exact idle v (other apart drives)
  cases moved with
  | pickedFiber w here pre post t g job queue fits =>
    have queue' : s.run.tasks.filterMap fiberOf = pre.filterMap fiberOf ++ g :: post.filterMap fiberOf := by
      simp [queue, fiberOf, job]
    by_cases same : g = f
    · subst same
      have one := before.atMost
      simp only [queue', List.count_append, List.count_cons_self] at one
      have idle : ∀ v, ¬ driving (s.run.pc v) (s.Told g) (s.Unwoken v) g := fun v drives => by
        have := (before.driven v drives).1
        simp [queue'] at this
      refine .of_driver w (takes _ idle) ?_ (fun told => ?_) fun dead => ?_
      · rw [List.filterMap_append, List.count_append]
        omega
      · have := before.told told
        simp [queue'] at this
      · have := (before.ended dead).1
        simp [queue'] at this
    · refine before.mono (turn _ (by simp [driving, Run.Work.fiber, same])) ?_ id id
      simp [queue', List.count_cons_of_ne same]
  | pickedCallback w here pre post t cb job queue fits =>
    have queue' : s.run.tasks.filterMap fiberOf = (pre ++ post).filterMap fiberOf := by simp [queue, fiberOf, job]
    exact before.mono (turn _ (by simp [driving])) (by simp [queue']) id id
  | reused w cb here g pool cached dead =>
    by_cases same : g = f
    · subst same
      obtain ⟨empty, quiet, idle⟩ := before.ended dead
      exact .of_driver w (takes _ idle) empty quiet (by simp)
    · refine before.mono (turn _ (by simp [driving, Run.Work.fiber, same])) le_rfl id ?_
      simp [Function.update_of_ne (Ne.symm same)]
  | built w cb here =>
    by_cases same : s.run.created = f
    · subst same
      obtain ⟨idle, empty, quiet⟩ := h.unborn flat
      exact .of_driver w (takes _ (idle _)) empty quiet (by simp)
    · refine before.mono (turn _ (by simp [driving, Run.Work.fiber, same])) le_rfl id ?_
      simp [Function.update_of_ne (Ne.symm same)]
  | requeued w t g here requeues =>
    simp only [WakesAsleep, here] at cond
    have job : fiberOf { s.run.demoted t with sequence := s.run.taskSequence } = some g :=
      fiberOf_eq_some.2 (flat.known.jobs w t g (by rw [here, Run.Pc.work]))
    have queue : ((s.run.tasks ++ [{ s.run.demoted t with sequence := s.run.taskSequence }]).filterMap fiberOf) =
        s.run.tasks.filterMap fiberOf ++ [g] := by
      rw [List.filterMap_append, List.filterMap_cons_some job, List.filterMap_nil]
    have drove (same : g = f) : driving (s.run.pc w) (s.Told f) (s.Unwoken w) f := by
      simp [driving, here, same, cond requeues]
    simp only [queue, List.count_append, List.count_singleton]
    by_cases same : g = f
    · obtain ⟨empty, quiet⟩ := before.driven w (drove same)
      refine .undriven (fun v drives => ?_) (by simp [empty, same]) (fun told => absurd told quiet) fun dead => ?_
      · by_cases mine : v = w
        · simp [mine, driving] at drives
        · exact mine (before.driver v w (other mine drives) (drove same))
      · rw [← same, requeues.2] at dead
        cases dead
    · exact before.mono (turn _ (by simp [driving])) (by simp [same]) id id
  | resumed w work here ready =>
    refine before.mono (turn _ ?_) le_rfl id ?_
    · simp +contextual [driving, here]
    · by_cases same : f = work.fiber <;> simp [same]
  | entered w work nest g here => exact absurd rfl ((flat.nests w _ _ _ here).2 g)
  | returned w work x p rest here => cases (flat.nests w _ _ _ here).1
  | turned l v before' after here turns =>
    cases turns with
    | skipped | tested | kept | dead | notOver =>
      exact before.mono (turn _ (by simp +contextual [driving, here, Run.Work.fiber])) le_rfl id id
    | @switchedOut work =>
      refine before.mono (turn _ ?_) le_rfl id id
      cases work <;> simp +contextual [driving, here, still]
  | idle w here fits =>
    have stay := turn (s.run.pc w) (driving_mono id (still w))
    simp only [Function.update_eq_self] at stay
    exact before.mono stay le_rfl id id
  | done w here | cached w f here | dropped w f here => exact before.mono (turn _ (by simp [driving])) le_rfl id id
  | unlockedTask w _ _ here =>
    exact before.mono (turn _ (by simp +contextual [driving, here, still])) le_rfl id id
  | lockedTask w _ _ here | lockedCallback w _ here | unlockedCallback w _ here =>
    exact before.mono (turn _ (by simp [driving, here, Run.Work.fiber])) le_rfl id id

/-- The mutex lets one worker at a time execute a fiber. -/
theorem Flat.solo {s : State} (flat : Flat s.run) {w v : Worker} {f : Ref} (hw : s.current w = some f)
    (hv : s.current v = some f) : w = v := by
  have held : ∀ u, s.current u = some f → s.run.holder f = some u := by
    intro u here
    unfold State.current at here
    split at here
    · rename_i work g rest pc
      cases here
      have nest := (flat.nests u _ _ _ pc).1
      refine flat.guarded u _ ?_
      rw [pc, Run.Pc.guards, ← (List.cons.inj nest).1]
    · cases here
  exact Option.some.inj ((held w hw).symm.trans (held v hv))

theorem State.leaves_iff {s : State} {w : Worker} {f : Ref} : s.Leaves w f ↔ ∃ t nest,
    s.run.pc w = .inside (.task t f) nest .leaving ∨ s.run.pc w = .unlock (.task t f) ∨ s.run.pc w = .requeue t f := by
  unfold State.Leaves
  split <;> simp_all

theorem State.takes_task_iff {s : State} {w : Worker} {t : Task} {f : Ref} :
    s.Takes w f ∧ (s.run.pc w).work = some (.task t f) ↔
      s.run.pc w = .lock (.task t f) ∨ s.run.pc w = .test t f ∨ s.run.pc w = .resume (.task t f) := by
  unfold State.Takes
  cases s.run.pc w with
  | lock work | resume work => cases work <;> simp [Run.Pc.work, Run.Work.fiber]
  | _ => simp +contextual [Run.Pc.work]

theorem Once.ran {s : State} {w : Worker} {run : Run.State} {exit : Worker → Exit} (h : Once s)
    (flat : Flat s.run) (cond : WakesAsleep s (.run w)) (moved : Run.Moves s.run (.run w) run)
    (others : ∀ v, v ≠ w → exit v = s.exit v)
    (mine : exit w = s.exit w ∧ (∀ t f, s.run.pc w ≠ .test t f) ∨ exit w = .dead) :
    Once { s with run, exit } := by
  have still : ∀ v, State.Unwoken { s with run, exit } v → s.Unwoken v := by
    intro v unwoken
    simp only [State.Unwoken] at unwoken ⊢
    by_cases same : v = w
    · subst same
      rcases mine with ⟨kept, -⟩ | dead
      · rwa [kept] at unwoken
      · simp [dead] at unwoken
    · rwa [others v same] at unwoken
  have pcs : ∀ v, v ≠ w → run.pc v = s.run.pc v := fun v other => moved.others (by simpa [Run.Label.worker] using other.symm)
  have outside := moved.run_outside
  -- a worker that may queue a fiber again was at that before, with the same exit
  have leaves : ∀ v f, State.Leaves { s with run, exit } v f → exit v ≠ .dead → s.Leaves v f ∧ exit v = s.exit v := by
    intro v f leaves alive
    by_cases same : v = w
    · subst same
      obtain ⟨kept, untested⟩ := mine.resolve_right alive
      obtain ⟨t, nest, leaves⟩ := State.leaves_iff.1 leaves
      refine ⟨State.leaves_iff.2 ⟨t, ?_⟩, kept⟩
      rcases moved.run_leaves leaves with ⟨nest', here⟩ | here | here | here
      · exact ⟨nest', .inl here⟩
      · exact ⟨nest, .inr (.inl here)⟩
      · exact ⟨nest, .inr (.inr here)⟩
      · exact absurd here (untested t f)
    · simp only [State.Leaves, pcs v same] at leaves ⊢
      exact ⟨leaves, others v same⟩
  constructor
  case single => exact h.single_ran flat cond moved still
  case waiting => exact h.waiting
  case lists => exact h.lists
  case due => exact h.due
  case inWait =>
    intro f wait here
    obtain ⟨below, fiber, known, alive⟩ := h.inWait f wait here
    exact ⟨below, fiber, moved.run_exists known, mt moved.run_alive alive⟩
  case sent =>
    intro t queued wait sentFor
    rcases moved.run_tasks queued with before | unsent
    · exact h.sent t before wait sentFor
    · rw [unsent] at sentFor
      cases sentFor
  case taken =>
    intro v t f wait takes work sentFor
    by_cases same : v = w
    · subst same
      rcases moved.run_taken (State.takes_task_iff.1 ⟨takes, work⟩) with here | here | here | ⟨queued, job⟩
      · have := State.takes_task_iff.2 (.inl here)
        exact h.taken v t f wait this.1 this.2 sentFor
      · have := State.takes_task_iff.2 (.inr (.inl here))
        exact h.taken v t f wait this.1 this.2 sentFor
      · have := State.takes_task_iff.2 (.inr (.inr here))
        exact h.taken v t f wait this.1 this.2 sentFor
      · obtain ⟨named, due⟩ := h.sent t queued wait sentFor
        exact ⟨Job.fiber.inj (named.symm.trans job), due⟩
    · simp only [State.Takes, pcs v same] at takes work
      exact h.taken v t f wait takes work sentFor
  case plain =>
    intro v f left isPlain
    simp only at isPlain
    obtain ⟨before, same⟩ := leaves v f left (by simp [isPlain])
    exact h.plain v f before (same ▸ isPlain)
  case asleep =>
    intro v f wait left inWait
    simp only at inWait
    obtain ⟨before, same⟩ := leaves v f left (by simp [inWait])
    exact h.asleep v f wait before (same ▸ inWait)
  case exits =>
    intro v wait left
    simp only at left
    by_cases same : v = w
    · subst same
      rcases mine with ⟨kept, -⟩ | dead
      · exact h.exits v wait (kept ▸ left)
      · simp [dead] at left
    · exact h.exits v wait (others v same ▸ left)
  case executes =>
    intro f wait sleeps
    obtain ⟨v, here⟩ := h.executes f wait sleeps
    have other : v ≠ w := by
      rintro rfl
      unfold State.current at here
      split at here
      · exact outside _ _ ‹_›
      · cases here
    exact ⟨v, by simpa only [State.current, pcs v other] using here⟩

section Moves

variable {s s' : State} {w : Worker} {f : Ref}

/-- A worker that executes a fiber is in a nest of that fiber alone. -/
theorem Flat.at_code (flat : Flat s.run) (here : s.current w = some f) :
    ∃ work, s.run.pc w = .inside work [f] .code ∧ work.fiber = f := by
  unfold State.current at here
  split at here
  · rename_i work g rest pc
    cases here
    have nest := List.cons.inj (flat.nests w _ _ _ pc).1
    exact ⟨work, by rw [pc, nest.2], nest.1.symm⟩
  · cases here

/-- A fiber in code that has not been told to go on is driven by its worker. -/
theorem Flat.drives_code (flat : Flat s.run) (here : s.current w = some f) (untold : ¬ s.Told f) : s.Drives w f := by
  obtain ⟨work, pc, same⟩ := flat.at_code here
  simp [State.Drives, driving, pc, same, untold]

theorem State.current_of_pc {work : Run.Work} {rest : List Ref} (pc : s.run.pc w = .inside work (f :: rest) .code) :
    s.current w = some f := by
  simp [State.current, pc]

/-- Only the worker that executes a fiber asks whether it was told. -/
theorem driving_told {pc : Run.Pc} {told told' unwoken : Prop} (elsewhere : ∀ work nest, pc = .inside work nest .code → work.fiber ≠ f)
    (drives : driving pc told' unwoken f) : driving pc told unwoken f := by
  revert drives
  cases pc with
  | inside work nest phase =>
    cases phase with
    | code => simp [driving, elsewhere work nest rfl]
    | _ => cases work <;> simp [driving]
  | unlock work => cases work <;> simp [driving]
  | _ => simp [driving]

/-- The notification of a wait stays due while the fiber stays in it. -/
theorem State.Due.wait {wait : Nat} (due : s.Due wait) : (s.place (s.waiter wait).fiber).wait = some wait := by
  rcases due.2 with place | place <;> rw [place, Place.wait]

/-- The executing fiber leaves: by a `yield` of its own or its end, outside of a
wait, or by the `yield` of a wait. -/
structure Left (s : State) (w : Worker) (f : Ref) (work : Run.Work) (run : Run.State) (place : Ref → Place) (exit : Exit) :
    Prop where
  flat : Flat s.run
  pc : s.run.pc w = .inside work [f] .code
  pcs : run.pc = Function.update s.run.pc w (.inside work [f] .leaving)
  states : ∀ g, g ≠ f → run.state g = s.run.state g
  places : ∀ g, g ≠ f → place g = s.place g
  how : place f = s.place f ∧ s.place f = .outside ∧
      (exit = .plain ∧ (run.state f = .term → s.run.state f = .term) ∨ exit = .dead) ∨
    ∃ wait, s.place f = .sleeping wait ∧ place f = .yielded wait ∧ exit = .wait wait ∧ run.state f ≠ .term

section Left

variable {run : Run.State} {place : Ref → Place} {exit : Exit} {work : Run.Work} {v : Worker} {g : Ref} {wait : Nat}

theorem Left.waits (left : Left s w f work run place exit) (g : Ref) : (place g).wait = (s.place g).wait := by
  by_cases mine : g = f
  · subst mine
    rcases left.how with ⟨kept, -⟩ | ⟨wait, before, after, -⟩
    · rw [kept]
    · rw [before, after, Place.wait, Place.wait]
  · rw [left.places g mine]

theorem Left.others (left : Left s w f work run place exit) (other : v ≠ w) : run.pc v = s.run.pc v := by
  rw [left.pcs, Function.update_of_ne other]

theorem Left.after (left : Left s w f work run place exit) : run.pc w = .inside work [f] .leaving := by
  rw [left.pcs, Function.update_self]

theorem Left.fiber (left : Left s w f work run place exit) : f = work.fiber := by
  simpa using (left.flat.nests w _ _ _ left.pc).1

theorem Left.due (left : Left s w f work run place exit) (due : s.Due wait) : State.Due { s with run, place, exit := Function.update s.exit w exit } wait := by
  obtain ⟨told, stands⟩ := due
  refine ⟨told, ?_⟩
  by_cases mine : (s.waiter wait).fiber = f
  · simp only [mine] at stands ⊢
    rcases left.how with ⟨kept, -⟩ | ⟨wait', before, after, -⟩
    · rwa [kept]
    · rw [before] at stands
      simp only [Place.sleeping.injEq, reduceCtorEq, or_false] at stands
      exact .inr (by rw [after, stands])
  · simpa only [left.places _ mine] using stands

theorem Left.takes (left : Left s w f work run place exit) (takes : State.Takes { s with run, place, exit := Function.update s.exit w exit } v g) : v ≠ w ∧ s.Takes v g := by
  have other : v ≠ w := fun mine => by simp [State.Takes, mine, left.after] at takes
  simp only [State.Takes, left.others other] at takes ⊢
  exact ⟨other, takes⟩

theorem Left.leaves (left : Left s w f work run place exit) (leaves : State.Leaves { s with run, place, exit := Function.update s.exit w exit } v g) :
    v = w ∧ g = f ∨ v ≠ w ∧ s.Leaves v g := by
  by_cases mine : v = w
  · obtain ⟨t, nest, here | here | here⟩ := State.leaves_iff.1 leaves <;> simp only [mine, left.after] at here
    · cases here
      exact .inl ⟨mine, left.fiber.symm⟩
    · cases here
    · cases here
  · simp only [State.Leaves, left.others mine] at leaves ⊢
    exact .inr ⟨mine, leaves⟩

/-- The other workers have the fibers run on as before. -/
theorem Left.elsewhere (left : Left s w f work run place exit) (other : v ≠ w) (drives : State.Drives { s with run, place, exit := Function.update s.exit w exit } v g) :
    s.Drives v g := by
  have apart : ∀ work nest, s.run.pc v = .inside work nest .code → work.fiber ≠ f := by
    rintro work nest pc' rfl
    have nest' := (left.flat.nests v _ _ _ pc').1
    exact other (left.flat.solo (State.current_of_pc (nest' ▸ pc')) (State.current_of_pc left.pc))
  have unwoken : State.Unwoken { s with run, place, exit := Function.update s.exit w exit } v ↔ s.Unwoken v := by
    simp only [State.Unwoken, Function.update_of_ne other]
  simp only [State.Drives, left.others other, unwoken] at drives ⊢
  by_cases mine : g = f
  · subst mine
    exact driving_told apart drives
  · simpa only [State.Told, left.places g mine] using drives

theorem Left.drives (left : Left s w f work run place exit) (drives : State.Drives { s with run, place, exit := Function.update s.exit w exit } w g) :
    g = f ∧ State.Unwoken { s with run, place, exit := Function.update s.exit w exit } w := by
  simp only [State.Drives, left.after] at drives
  cases work with
  | task t f' =>
    simp only [driving] at drives
    exact ⟨drives.1.symm.trans left.fiber.symm, drives.2⟩
  | callback f' => cases drives

/-- A fiber that did not leave is driven as before. -/
theorem Left.single_other (left : Left s w f work run place exit) (h : Once s) (mine : g ≠ f) :
    Single (State.Drives { s with run, place, exit := Function.update s.exit w exit } · g) (s.queued.count g) (State.Pending { s with run, place, exit := Function.update s.exit w exit } g) (run.state g = .term) := by
  refine (h.single g).mono (fun v drives => ?_) le_rfl id fun dead => by simpa only [left.states g mine] using dead
  by_cases own : v = w
  · subst own
    exact absurd (left.drives drives).1 mine
  · exact left.elsewhere own drives

theorem Left.single_self (left : Left s w f work run place exit) (h : Once s) :
    Single (State.Drives { s with run, place, exit := Function.update s.exit w exit } · f) (s.queued.count f) (State.Pending { s with run, place, exit := Function.update s.exit w exit } f) (run.state f = .term) := by
  have here := State.current_of_pc left.pc
  have before := h.single f
  rcases left.how with ⟨-, outside, ⟨plain, alive⟩ | dead⟩ | ⟨wait, sleeps, yielded, exit, alive⟩
  · have driven := left.flat.drives_code here (by simp [State.Told, outside])
    refine before.mono (fun v drives => ?_) le_rfl id alive
    by_cases mine : v = w
    · exact mine ▸ driven
    · exact left.elsewhere mine drives
  · -- nobody has a finished fiber run on
    have driven := left.flat.drives_code here (by simp [State.Told, outside])
    have ⟨empty, quiet⟩ := before.driven w driven
    refine .undriven (fun v drives => ?_) (empty ▸ Nat.zero_le 1) (fun _ => empty) fun _ => ⟨empty, quiet⟩
    by_cases mine : v = w
    · subst mine
      simpa [State.Unwoken, dead] using (left.drives drives).2
    · exact mine (before.driver v w (left.elsewhere mine drives) driven)
  · -- its worker queues it again, unless it is notified before
    refine before.mono (fun v drives => ?_) le_rfl id fun dead => absurd dead alive
    by_cases mine : v = w
    · subst mine
      have untold := (left.drives drives).2
      simp only [State.Unwoken, Function.update_self, exit, reduceCtorEq, Exit.wait.injEq, false_or,
        exists_eq_left'] at untold
      exact left.flat.drives_code here (by simp [State.Told, sleeps, untold])
    · exact left.elsewhere mine drives

theorem Left.inWait (left : Left s w f work run place exit) (h : Once s) (created : run.created = s.run.created)
    (inWait : (place g).wait = some wait) :
    wait < s.waits ∧ (s.waiter wait).fiber = g ∧ run.Exists g ∧ run.state g ≠ .term := by
  rw [left.waits] at inWait
  obtain ⟨below, fiber, known, alive⟩ := h.inWait g wait inWait
  refine ⟨below, fiber, by simpa [Run.State.Exists, created] using known, ?_⟩
  by_cases mine : g = f
  · subst mine
    rcases left.how with ⟨-, outside, -⟩ | ⟨wait', -, -, -, alive⟩
    · rw [outside] at inWait
      cases inWait
    · exact alive
  · simpa only [left.states g mine] using alive

theorem Left.plain (left : Left s w f work run place exit) (h : Once s) (left' : State.Leaves { s with run, place, exit := Function.update s.exit w exit } v g)
    (isPlain : Function.update s.exit w exit v = .plain) : place g = .outside := by
  rcases left.leaves left' with ⟨rfl, rfl⟩ | ⟨other, before⟩
  · rw [Function.update_self] at isPlain
    rcases left.how with ⟨kept, outside, -⟩ | ⟨wait, -, -, exit, -⟩
    · rw [kept, outside]
    · cases exit.symm.trans isPlain
  · rw [Function.update_of_ne other] at isPlain
    have outside := h.plain v g before isPlain
    by_cases mine : g = f
    · subst mine
      rcases left.how with ⟨kept, -⟩ | ⟨wait, sleeps, -⟩
      · rwa [kept]
      · cases sleeps.symm.trans outside
    · rwa [left.places g mine]

theorem Left.asleep (left : Left s w f work run place exit) (h : Once s) (left' : State.Leaves { s with run, place, exit := Function.update s.exit w exit } v g)
    (inWait : Function.update s.exit w exit v = .wait wait) (untold : (s.waiter wait).notified = false) :
    place g = .yielded wait := by
  rcases left.leaves left' with ⟨rfl, rfl⟩ | ⟨other, before⟩
  · rw [Function.update_self] at inWait
    rcases left.how with ⟨-, -, ⟨plain, -⟩ | dead⟩ | ⟨wait', -, yielded, exit, -⟩
    · cases plain.symm.trans inWait
    · cases dead.symm.trans inWait
    · cases exit.symm.trans inWait
      exact yielded
  · rw [Function.update_of_ne other] at inWait
    have yielded := h.asleep v g wait before inWait untold
    by_cases mine : g = f
    · subst mine
      rcases left.how with ⟨kept, outside, -⟩ | ⟨wait, sleeps, -⟩
      · cases outside.symm.trans yielded
      · cases sleeps.symm.trans yielded
    · rwa [left.places g mine]

theorem Left.exits (left : Left s w f work run place exit) (h : Once s) (is : Function.update s.exit w exit v = .wait wait) :
    wait < s.waits := by
  by_cases mine : v = w
  · subst mine
    rw [Function.update_self] at is
    rcases left.how with ⟨-, -, ⟨plain, -⟩ | dead⟩ | ⟨wait', sleeps, -, exit, -⟩
    · cases plain.symm.trans is
    · cases dead.symm.trans is
    · cases exit.symm.trans is
      exact (h.inWait f wait (by rw [sleeps, Place.wait])).1
  · rw [Function.update_of_ne mine] at is
    exact h.exits v wait is

theorem Left.executes (left : Left s w f work run place exit) (h : Once s)
    (reads : place g = .first wait ∨ place g = .sleeping wait) : ∃ v, State.current { s with run, place, exit := Function.update s.exit w exit } v = some g := by
  have mine : g ≠ f := by
    rintro rfl
    rcases left.how with ⟨kept, outside, -⟩ | ⟨wait', -, yielded, -⟩
    · simp [kept, outside] at reads
    · simp [yielded] at reads
  simp only [left.places g mine] at reads
  obtain ⟨v, executes⟩ := h.executes g wait reads
  have other : v ≠ w := by
    rintro rfl
    exact mine (Option.some.inj (executes.symm.trans (State.current_of_pc left.pc)))
  exact ⟨v, by simpa only [State.current, left.others other] using executes⟩

end Left

theorem Once.left {run : Run.State} {place : Ref → Place} {exit : Exit} (h : Once s) (flat : Flat s.run)
    {work : Run.Work} (pc : s.run.pc w = .inside work [f] .code)
    (pcs : run.pc = Function.update s.run.pc w (.inside work [f] .leaving)) (tasks : run.tasks = s.run.tasks)
    (created : run.created = s.run.created) (states : ∀ g, g ≠ f → run.state g = s.run.state g)
    (places : ∀ g, g ≠ f → place g = s.place g)
    (how : place f = s.place f ∧ s.place f = .outside ∧
        (exit = .plain ∧ (run.state f = .term → s.run.state f = .term) ∨ exit = .dead) ∨
      ∃ wait, s.place f = .sleeping wait ∧ place f = .yielded wait ∧ exit = .wait wait ∧ run.state f ≠ .term) :
    Once { s with run, place, exit := Function.update s.exit w exit } := by
  have left : Left s w f work run place exit := ⟨flat, pc, pcs, states, places, how⟩
  constructor
  case inWait => exact fun g wait inWait => left.inWait h created inWait
  case waiting =>
    intro wait queued
    simpa only [left.waits] using h.waiting wait queued
  case lists => exact h.lists
  case due => exact fun wait stored => left.due (h.due wait stored)
  case single =>
    intro g
    simp only [State.queued, tasks]
    by_cases mine : g = f
    · exact mine ▸ left.single_self h
    · exact left.single_other h mine
  case sent =>
    intro t queued wait sentFor
    simp only [tasks] at queued
    exact (h.sent t queued wait sentFor).imp_right left.due
  case taken =>
    intro v t g wait taken work sentFor
    obtain ⟨other, before⟩ := left.takes taken
    simp only [left.others other] at work
    exact (h.taken v t g wait before work sentFor).imp_right left.due
  case plain => exact fun v g left' isPlain => left.plain h left' isPlain
  case asleep => exact fun v g wait left' inWait untold => left.asleep h left' inWait untold
  case exits => exact fun v wait is => left.exits h is
  case executes => exact fun g wait reads => left.executes h reads

end Moves

end Mycoroutine.Wakeup
