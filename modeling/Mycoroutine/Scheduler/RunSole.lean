import Mycoroutine.Scheduler.RunPool

/-!
# One place for a fiber

A fiber that nobody schedules is in one place: it is queued once, or one worker holds
it, or the pool does, or nobody. `run()` takes it from one of these to another.
-/

namespace Mycoroutine.Run
set_option autoImplicit false
open Interleave Machine

/-! ## What a move of `run()` does to one fiber -/

section Moves

variable {s s' : State} {l : Label} {w v : Worker} {f : Ref} {t u : Task} {work : Work}

/-- A worker holds a task that it held, or it has just picked it. -/
theorem Moves.takes (move : Moves s l s') (holds : (s'.pc w).work = some (.task t f)) :
    (s.pc w).work = some (.task t f) ∨
      l = .run w ∧ s.pc w = .pick ∧ t ∈ s.tasks ∧ t.job = .fiber f ∧ t.matchThread w = true := by
  cases move with
  | created | scheduled | setPolicy | setMLFQConfig | setMaxCachedPerKey | idle | refused => exact .inl holds
  | pickedFiber x here pre post u g job queue fits =>
    refine (place_update (P := (·.work = _)) holds).imp_right ?_
    rintro ⟨rfl, mine⟩
    cases mine
    exact ⟨rfl, here, queue ▸ List.mem_append_right _ List.mem_cons_self, job, fits⟩
  | turned l x before after here turns =>
    rcases place_update (P := (·.work = _)) holds with before | ⟨rfl, mine⟩
    · exact .inl before
    · refine .inl ?_
      rw [here]
      cases turns <;> first | exact mine | cases mine
  | _ x =>
    rcases place_update (P := (·.work = _)) holds with before | ⟨rfl, mine⟩
    · exact .inl before
    · cases mine <;> exact .inl (by rw [‹s.pc w = _›]; rfl)

/-- A queued task was queued, or it is scheduled, or a worker puts it back. -/
theorem Moves.queues (move : Moves s l s') (queued : u ∈ s'.tasks) :
    u ∈ s.tasks ∨ (∃ options, l = .schedule u.job options ∧ u.thread = options.thread) ∨
      ∃ w t f, l = .run w ∧ s.pc w = .requeue t f ∧ s.Requeues f ∧ u.job = t.job ∧ u.thread = t.thread := by
  cases move with
  | scheduled job options =>
    rcases List.mem_append.1 queued with old | new
    · exact .inl old
    · rw [List.mem_singleton.1 new]
      exact .inr (.inl ⟨options, rfl, rfl⟩)
  | requeued w t f here requeues =>
    rcases List.mem_append.1 queued with old | new
    · exact .inl old
    · rw [List.mem_singleton.1 new]
      exact .inr (.inr ⟨w, t, f, rfl, here, requeues, rfl, rfl⟩)
  | pickedFiber w here pre post t f job queue | pickedCallback w here pre post t cb job queue =>
    left
    rw [queue]
    rcases List.mem_append.1 queued with before | after
    · exact List.mem_append_left _ before
    · exact List.mem_append_right _ (List.mem_cons_of_mem _ after)
  | _ => exact .inl queued

/-- A fiber that is over stays so, unless the pool gives it out again. -/
theorem Moves.stays_over (move : Moves s l s') (known : s.Exists f) (unpooled : f ∉ s.pool) (isOver : s.state f = .term) :
    s'.state f = .term := by
  have other {g : Ref} {new : Fiber.State} (ne : f ≠ g) : Function.update s.state g new f = .term := by
    rw [Function.update_of_ne ne]
    exact isOver
  have alive {g : Ref} (state : s.state g ≠ .term) : f ≠ g := by
    rintro rfl
    exact state isOver
  cases move with
  | created | built => exact other (Nat.ne_of_lt known)
  | reused w cb here g pool cached =>
    refine other fun same => unpooled ?_
    rw [cached, same]
    exact List.mem_cons_self
  | resumed w work here ready => exact other (alive (by rw [ready]; nofun))
  | entered w work nest g here state => exact other (alive state)
  | yielded w work x rest here running => exact other (alive (by rw [running]; nofun))
  | finished w work x rest here =>
    show Function.update s.state x .term f = .term
    by_cases same : f = x
    · rw [same]
      exact Function.update_self ..
    · exact other same
  | _ => exact isOver

/-- A worker comes into a fiber by resuming it or calling it. -/
theorem Moves.comes_inside (move : Moves s l s') (inside : f ∈ (s'.pc w).nest) :
    f ∈ (s.pc w).nest ∨ (∃ work, l = .run w ∧ s.pc w = .resume work ∧ f = work.fiber) ∨
      ∃ work nest, s.pc w = .inside work nest (.calling f) := by
  cases move with
  | created | scheduled | setPolicy | setMLFQConfig | setMaxCachedPerKey | idle | refused => exact .inl inside
  | resumed x work here =>
    refine (place_update (P := (f ∈ ·.nest)) inside).imp_right ?_
    rintro ⟨rfl, mine⟩
    exact .inl ⟨work, rfl, here, List.mem_singleton.1 mine⟩
  | entered x work nest g here =>
    rcases place_update (P := (f ∈ ·.nest)) inside with before | ⟨rfl, mine⟩
    · exact .inl before
    · rcases List.mem_cons.1 mine with rfl | older
      · exact .inr (.inr ⟨work, nest, here⟩)
      · rw [here]
        exact .inl older
  | returned x work y p rest here =>
    rcases place_update (P := (f ∈ ·.nest)) inside with before | ⟨rfl, mine⟩
    · exact .inl before
    · rw [here]
      exact .inl (List.mem_cons_of_mem _ mine)
  | yielded x work y rest here | finished x work y rest here =>
    rcases place_update (P := (f ∈ ·.nest)) inside with before | ⟨rfl, mine⟩
    · exact .inl before
    · rw [here]
      exact .inl mine
  | turned l x before after here turns =>
    rcases place_update (P := (f ∈ ·.nest)) inside with before | ⟨rfl, mine⟩
    · exact .inl before
    · rw [here]
      exact .inl (turns.lets_go.1 f mine)
  | _ =>
    refine .inl ((place_update (P := (f ∈ ·.nest)) inside).resolve_right ?_)
    rintro ⟨-, mine⟩
    cases mine

/-- A worker comes to resume a fiber that is not over, or one for a callback. -/
theorem Moves.comes_to_resume (move : Moves s l s') (here' : s'.pc w = .resume work) :
    s.pc w = .resume work ∨ (∃ t f, work = .task t f ∧ s.pc w = .test t f ∧ s.state f ≠ .term) ∨
      ∃ f, work = .callback f ∧ s.pc w = .lock work := by
  cases move with
  | created | scheduled | setPolicy | setMLFQConfig | setMaxCachedPerKey | idle | refused => exact .inl here'
  | lockedCallback x f here =>
    refine (place_update (P := (· = _)) here').imp_right ?_
    rintro ⟨rfl, mine⟩
    cases mine
    exact .inr ⟨f, rfl, here⟩
  | turned l x before after here turns =>
    refine (place_update (P := (· = _)) here').imp_right ?_
    rintro ⟨rfl, mine⟩
    cases turns with
    | tested alive =>
      cases mine
      exact .inl ⟨_, _, rfl, here, alive⟩
    | _ => cases mine
  | _ => exact .inl ((place_update (P := (· = _)) here').resolve_right fun mover => nomatch mover.2)

/-- `call()` is entered by the executing code. -/
theorem Moves.comes_to_call {nest : List Ref} (move : Moves s l s') (here' : s'.pc w = .inside work nest (.calling f)) :
    s.pc w = .inside work nest (.calling f) ∨ l = .call w f := by
  cases move with
  | created | scheduled | setPolicy | setMLFQConfig | setMaxCachedPerKey | idle | refused => exact .inl here'
  | turned l x before after here turns =>
    refine (place_update (P := (· = _)) here').imp_right ?_
    rintro ⟨rfl, mine⟩
    cases turns with
    | asked =>
      cases mine
      rfl
    | _ => cases mine
  | _ => exact .inl ((place_update (P := (· = _)) here').resolve_right fun mover => nomatch mover.2)

end Moves

/-! ## The place of a fiber -/

/-- A worker is busy with the fiber. -/
def State.Holds (s : State) (w : Worker) (f : Ref) : Prop := ∃ work, (s.pc w).work = some work ∧ work.fiber = f

/-- The fiber is queued once, or one worker holds it, or it is in the pool once. -/
structure Sole (s : State) (f : Ref) : Prop where
  one : ∀ w v, s.Holds w f → s.Holds v f → w = v
  apart : ∀ w, s.Holds w f → (∀ u ∈ s.tasks, u.job ≠ .fiber f) ∧ f ∉ s.pool
  once : s.tasks.Pairwise fun t u => t.job = .fiber f → u.job ≠ .fiber f
  unqueued : f ∈ s.pool → ∀ u ∈ s.tasks, u.job ≠ .fiber f
  cached : s.pool.Pairwise fun x y => x = f → y ≠ f

section Sole

variable {s s' : State} {l : Label} {w : Worker} {f : Ref} {t : Task} {work : Work}

theorem State.Holds.of_work (busy : (s.pc w).work = some work) : s.Holds w work.fiber := ⟨work, busy, rfl⟩

/-- No worker gets the fiber, and neither the queue nor the pool does. -/
theorem Sole.keep (h : Sole s f) (holds : ∀ w, s'.Holds w f → s.Holds w f) (tasks : ∀ u ∈ s'.tasks, u.job = .fiber f → u ∈ s.tasks)
    (once : s'.tasks.Pairwise fun t u => t.job = .fiber f → u.job ≠ .fiber f) (pool : s'.pool.Sublist s.pool) : Sole s' f where
  one w v hw hv := h.one w v (holds w hw) (holds v hv)
  apart w hw := ⟨fun u queued mine => (h.apart w (holds w hw)).1 u (tasks u queued mine) mine,
    fun cached => (h.apart w (holds w hw)).2 (pool.subset cached)⟩
  once := once
  unqueued cached u queued mine := h.unqueued (pool.subset cached) u (tasks u queued mine) mine
  cached := h.cached.sublist pool

theorem pairwise_snoc (once : s.tasks.Pairwise fun t u => t.job = .fiber f → u.job ≠ .fiber f)
    (fresh : t.job = .fiber f → ∀ u ∈ s.tasks, u.job ≠ .fiber f) :
    (s.tasks ++ [t]).Pairwise fun t u => t.job = .fiber f → u.job ≠ .fiber f := by
  refine List.pairwise_append.2 ⟨once, List.pairwise_singleton _ _, fun u queued t' new mine => ?_⟩
  rw [List.mem_singleton.1 new]
  exact fun mine' => fresh mine' u queued mine

/-- A worker's place after one of them moved on without the fiber. -/
theorem holds_update {after : Pc} {v : Worker} (others : ∀ work, after.work = some work → work.fiber ≠ f)
    (holds : ∃ work, (Function.update s.pc w after v).work = some work ∧ work.fiber = f) : v ≠ w ∧ s.Holds v f := by
  obtain ⟨work, busy, fiber⟩ := holds
  by_cases mine : v = w
  · rw [mine, Function.update_self] at busy
    exact absurd fiber (others work busy)
  · rw [Function.update_of_ne mine] at busy
    exact ⟨mine, work, busy, fiber⟩

theorem holds_idle {after : Pc} {v : Worker} (idle : after.work = none)
    (holds : ∃ work, (Function.update s.pc w after v).work = some work ∧ work.fiber = f) : v ≠ w ∧ s.Holds v f :=
  holds_update (fun work busy => by cases idle.symm.trans busy) holds

/-- A worker takes the fiber, from the queue or the pool. -/
theorem Sole.take {after : Pc} (h : Sole s f) (free : ∀ v, ¬ s.Holds v f) (pc : s'.pc = Function.update s.pc w after)
    (tasks : s'.tasks.Sublist s.tasks) (untasked : ∀ u ∈ s'.tasks, u.job ≠ .fiber f) (pool : s'.pool.Sublist s.pool)
    (unpooled : f ∉ s'.pool) : Sole s' f := by
  have only (v : Worker) (holds : s'.Holds v f) : v = w := by
    obtain ⟨work, busy, fiber⟩ := holds
    rw [pc] at busy
    by_contra other
    rw [Function.update_of_ne other] at busy
    exact free v ⟨work, busy, fiber⟩
  exact ⟨fun v x hv hx => (only v hv).trans (only x hx).symm, fun _ _ => ⟨untasked, unpooled⟩, h.once.sublist tasks,
    fun cached => absurd cached unpooled, h.cached.sublist pool⟩

/-- A worker lets the fiber go. -/
theorem Sole.let_go {after : Pc} (h : Sole s f) (held : s.Holds w f) (pc : s'.pc = Function.update s.pc w after)
    (idle : after.work = none) (once : s'.tasks.Pairwise fun t u => t.job = .fiber f → u.job ≠ .fiber f)
    (unqueued : f ∈ s'.pool → ∀ u ∈ s'.tasks, u.job ≠ .fiber f) (cached : s'.pool.Pairwise fun x y => x = f → y ≠ f) :
    Sole s' f := by
  have nobody (v : Worker) : ¬ s'.Holds v f := by
    rintro ⟨work, busy, fiber⟩
    rw [pc] at busy
    by_cases mine : v = w
    · rw [mine, Function.update_self, idle] at busy
      cases busy
    · rw [Function.update_of_ne mine] at busy
      exact mine (h.one v w ⟨work, busy, fiber⟩ held)
  exact ⟨fun v _ hv => absurd hv (nobody v), fun v hv => absurd hv (nobody v), once, unqueued, cached⟩

/-- A fiber that exists keeps to one place in every move that does not schedule it. -/
theorem Sole.move (h : Sole s f) (known : Known s) (exists' : s.Exists f)
    (unscheduled : ∀ options, l ≠ .schedule (.fiber f) options) (move : Moves s l s') : Sole s' f := by
  cases move with
  | pickedFiber w here pre post t g job queue =>
    have sub : (pre ++ post).Sublist s.tasks := by
      rw [queue]
      exact List.Sublist.append_left (List.sublist_cons_self t post) pre
    have there : t ∈ s.tasks := queue ▸ List.mem_append_right _ List.mem_cons_self
    by_cases mine : g = f
    · subst mine
      have once := h.once
      rw [queue] at once
      have others : ∀ u ∈ pre ++ post, u.job ≠ .fiber g := by
        intro u queued mine'
        rcases List.mem_append.1 queued with before | after
        · exact (List.pairwise_append.1 once).2.2 u before t List.mem_cons_self mine' job
        · exact (List.pairwise_cons.1 (List.pairwise_append.1 once).2.1).1 u after job mine'
      exact h.take (fun v holds => (h.apart v holds).1 t there job) rfl sub others (List.Sublist.refl _)
        fun cached => h.unqueued cached t there job
    · refine h.keep (fun v holds => (holds_update (fun work busy => ?_) holds).2) (fun u queued _ => sub.subset queued)
        (h.once.sublist sub) (List.Sublist.refl _)
      cases busy
      exact mine
  | pickedCallback w here pre post t cb job queue =>
    have sub : (pre ++ post).Sublist s.tasks := by
      rw [queue]
      exact List.Sublist.append_left (List.sublist_cons_self t post) pre
    exact h.keep (fun v holds => (holds_idle rfl holds).2) (fun u queued _ => sub.subset queued)
      (h.once.sublist sub) (List.Sublist.refl _)
  | scheduled job options =>
    have other : job ≠ .fiber f := fun mine => unscheduled options (by rw [mine])
    refine h.keep (fun _ => id) (fun u queued mine => ?_) (pairwise_snoc h.once fun mine => absurd mine other) (List.Sublist.refl _)
    rcases List.mem_append.1 queued with old | new
    · exact old
    · rw [List.mem_singleton.1 new] at mine
      exact absurd mine other
  | requeued w t g here =>
    have job : t.job = .fiber g := known.jobs w t g (by rw [here]; rfl)
    have held : s.Holds w g := ⟨.task t g, by rw [here]; rfl, rfl⟩
    by_cases mine : g = f
    · subst mine
      exact h.let_go held rfl rfl (pairwise_snoc h.once fun _ => (h.apart w held).1)
        (fun cached => absurd cached (h.apart w held).2) h.cached
    · have other : t.job ≠ .fiber f := by
        rw [job]
        rintro ⟨⟩
        exact mine rfl
      refine h.keep (fun v holds => (holds_idle rfl holds).2) (fun u queued mine' => ?_)
        (pairwise_snoc h.once fun mine' => absurd mine' other) (List.Sublist.refl _)
      rcases List.mem_append.1 queued with old | new
      · exact old
      · rw [List.mem_singleton.1 new] at mine'
        exact absurd mine' other
  | reused w cb here g pool cached =>
    have sub : pool.Sublist s.pool := by
      rw [cached]
      exact List.sublist_cons_self g pool
    by_cases mine : g = f
    · subst mine
      have there : g ∈ s.pool := cached ▸ List.mem_cons_self
      have once := h.cached
      rw [cached] at once
      exact h.take (fun v holds => (h.apart v holds).2 there) rfl (List.Sublist.refl _) (h.unqueued there) sub
        fun again => (List.pairwise_cons.1 once).1 g again rfl rfl
    · refine h.keep (fun v holds => (holds_update (fun work busy => ?_) holds).2) (fun u queued _ => queued) h.once sub
      cases busy
      exact mine
  | built w cb here =>
    refine h.keep (fun v holds => (holds_update (fun work busy => ?_) holds).2) (fun u queued _ => queued) h.once
      (List.Sublist.refl _)
    cases busy
    exact (Nat.ne_of_lt exists').symm
  | cached w g here =>
    have held : s.Holds w g := ⟨.callback g, by rw [here]; rfl, rfl⟩
    by_cases mine : g = f
    · subst mine
      have alone := h.apart w held
      refine h.let_go held rfl rfl h.once (fun _ => alone.1) (List.pairwise_cons.2 ⟨?_, h.cached⟩)
      rintro x there - rfl
      exact alone.2 there
    · have pairwise : (g :: s.pool).Pairwise fun x y => x = f → y ≠ f :=
        List.pairwise_cons.2 ⟨fun x _ same => absurd same mine, h.cached⟩
      have inside (there : f ∈ g :: s.pool) : f ∈ s.pool :=
        (List.mem_cons.1 there).resolve_left fun same => mine same.symm
      exact ⟨fun v x hv hx => h.one v x (holds_idle rfl hv).2 (holds_idle rfl hx).2,
        fun v hv => ⟨(h.apart v (holds_idle rfl hv).2).1, fun there => (h.apart v (holds_idle rfl hv).2).2 (inside there)⟩,
        h.once, fun there => h.unqueued (inside there), pairwise⟩
  | turned l w before after here turns =>
    refine h.keep (fun v holds => ?_) (fun u queued _ => queued) h.once (List.Sublist.refl _)
    obtain ⟨work, busy, fiber⟩ := holds
    rcases place_update (P := (·.work = _)) busy with same | ⟨rfl, mine⟩
    · exact ⟨work, same, fiber⟩
    · refine ⟨work, ?_, fiber⟩
      rw [here]
      cases turns <;> first | exact mine | cases mine
  | created | setPolicy | setMLFQConfig | setMaxCachedPerKey | idle | refused =>
    exact h.keep (fun _ => id) (fun _ queued _ => queued) h.once (List.Sublist.refl _)
  | _ x =>
    refine h.keep (fun v holds => ?_) (fun u queued _ => queued) h.once (List.Sublist.refl _)
    obtain ⟨work, busy, fiber⟩ := holds
    rcases place_update (P := (·.work = _)) busy with same | ⟨rfl, mine⟩
    · exact ⟨work, same, fiber⟩
    · cases mine <;> exact ⟨_, by rw [‹s.pc v = _›]; rfl, fiber⟩

/-- A fiber that does not exist yet is nowhere. -/
theorem Sole.unborn (known : Known s) (unborn : ¬ s.Exists f) : Sole s f where
  one w _ hw := by
    obtain ⟨work, busy, rfl⟩ := hw
    exact absurd (known.held w _ (Pc.work_mentions busy)) unborn
  apart w hw := by
    obtain ⟨work, busy, rfl⟩ := hw
    exact absurd (known.held w _ (Pc.work_mentions busy)) unborn
  once := List.pairwise_of_forall_mem_list fun t queued u _ job => absurd (known.queued t queued f job) unborn
  unqueued cached := absurd (known.pooled f cached) unborn
  cached := List.pairwise_of_forall_mem_list fun x cached y _ same => absurd (known.pooled f (same ▸ cached)) unborn

end Sole

end Mycoroutine.Run
