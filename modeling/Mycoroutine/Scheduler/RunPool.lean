import Mycoroutine.Scheduler.RunApart

/-!
# What the coroutine pool holds

The worker that ran a callback tests its fiber for `TERM` after it dropped
`m_mutex`. Another worker may run the fiber by then, and have stored `TERM`
without having switched out. In the runs where no test falls between the two,
the pool holds finished fibers that nobody is inside of.
-/

namespace Mycoroutine.Run
set_option autoImplicit false
open Interleave Machine

/-- A worker that reads `TERM` after its callback reads it after the last switch
out of the fiber. -/
def ReadsAfterSwitch (s : State) : Label → Prop
  | .run w =>
    match s.pc w with
    | .testTerm f => s.state f = .term → ¬ s.Executing f
    | _ => True
  | _ => True

/-- The worker that a fiber of the pool was given to. -/
def State.Owns (s : State) (w : Worker) (f : Ref) : Prop := (s.pc w).work = some (.callback f)

structure Pooled (s : State) : Prop where
  dead : ∀ f ∈ s.pool, s.state f = .term ∧ ∀ v, f ∉ (s.pc v).nest
  once : s.pool.Nodup
  unowned : ∀ f ∈ s.pool, ∀ w, ¬ s.Owns w f
  owner : ∀ w v f, s.Owns w f → s.Owns v f → w = v
  releasing : ∀ w f, s.pc w = .release f → s.state f = .term ∧ ∀ v, f ∉ (s.pc v).nest

theorem pooled_init : Pooled machine.init := by
  constructor <;> simp [machine, State.Owns, Pc.work]

/-- A turn changes neither the nests nor what a worker owns, but may let it go. -/
theorem Turns.lets_go {s : State} {w : Worker} {l : Label} {before after : Pc} (turns : Turns s w l before after) :
    (∀ f, f ∈ after.nest → f ∈ before.nest) ∧
      ∀ f, after.work = some (.callback f) → before.work = some (.callback f) := by
  cases turns <;> simp [Pc.nest, Pc.work]

theorem Pc.work_mentions {pc : Pc} {work : Work} (busy : pc.work = some work) : work.fiber ∈ pc.mentions := by
  cases pc with
  | inside w nest phase => cases phase <;> simp_all [Pc.work, Pc.mentions]
  | pick | acquire | finish => cases busy
  | _ =>
    cases busy
    exact List.mem_singleton_self _

theorem Known.unowned {s : State} (h : Known s) (w : Worker) : ¬ s.Owns w s.created := fun owns =>
  Nat.lt_irrefl s.created (h.held w _ (Pc.work_mentions owns))

/-! ## What a step does to a fiber at rest -/

/-- The fiber is finished and nobody is inside of it. -/
def State.AtRest (s : State) (f : Ref) : Prop := s.state f = .term ∧ ∀ v, f ∉ (s.pc v).nest

/-- `acquire` takes the fiber out of the pool. -/
def Popped (s s' : State) (f : Ref) : Prop := ∃ pool, s.pool = f :: pool ∧ s'.pool = pool

section Moves

variable {s s' : State} {l : Label} {w : Worker} {f : Ref}

/-- A worker's place after one of them moved. -/
theorem place_update {P : Pc → Prop} {pc : Worker → Pc} {v : Worker} {after : Pc}
    (place : P (Function.update pc w after v)) : P (pc v) ∨ v = w ∧ P after := by
  rcases (Function.pred_update (fun _ pc => P pc) pc w after v).1 place with mover | other
  · exact .inr mover
  · exact .inl other.2

theorem out_update {pc : Worker → Pc} {after : Pc} (out : ∀ v, f ∉ (pc v).nest) (mine : f ∉ after.nest) (v : Worker) :
    f ∉ (Function.update pc w after v).nest := by
  intro inside
  rcases place_update (P := (f ∈ ·.nest)) inside with before | mover
  · exact out v before
  · exact mine mover.2

theorem State.AtRest.ne_of_alive {g : Ref} (rest : s.AtRest f) (alive : s.state g ≠ .term) : f ≠ g := by
  rintro rfl
  exact alive rest.1

/-- Only `acquire` wakes a fiber at rest. -/
theorem Moves.atRest (move : Moves s l s') (known : s.Exists f) (rest : s.AtRest f) :
    Popped s s' f ∨ s'.AtRest f := by
  have unborn : f ≠ s.created := Nat.ne_of_lt known
  have ⟨ended, out⟩ := rest
  have other {g : Ref} {new : Fiber.State} (ne : f ≠ g) : Function.update s.state g new f = .term := by
    rw [Function.update_of_ne ne]
    exact ended
  cases move with
  | created => exact .inr ⟨other unborn, out⟩
  | built => exact .inr ⟨other unborn, out_update out List.not_mem_nil⟩
  | reused w cb here g pool cached =>
    by_cases same : f = g
    · subst same
      exact .inl ⟨pool, cached, rfl⟩
    · exact .inr ⟨other same, out_update out List.not_mem_nil⟩
  | resumed w work here ready =>
    have ne : f ≠ work.fiber := rest.ne_of_alive (by rw [ready]; nofun)
    exact .inr ⟨other ne, out_update out (mt List.mem_singleton.1 ne)⟩
  | entered w work nest g here alive =>
    have ne := rest.ne_of_alive alive
    have before := out w
    rw [here, Pc.nest] at before
    exact .inr ⟨other ne, out_update out (List.not_mem_cons_of_ne_of_not_mem ne before)⟩
  | yielded w work x nest here | finished w work x nest here =>
    have before := out w
    rw [here, Pc.nest] at before
    exact .inr ⟨other (List.ne_of_not_mem_cons before), out_update out before⟩
  | returned w work x p nest here =>
    have before := out w
    rw [here, Pc.nest] at before
    exact .inr ⟨ended, out_update out (List.not_mem_of_not_mem_cons before)⟩
  | turned l w before after here turns =>
    refine .inr ⟨ended, out_update out fun inside => out w ?_⟩
    rw [here]
    exact turns.lets_go.1 f inside
  | scheduled | setPolicy | setMLFQConfig | setMaxCachedPerKey | idle | refused => exact .inr rest
  | _ => exact .inr ⟨ended, out_update out List.not_mem_nil⟩

/-- The pool grows by fibers that are released, and shrinks at its back. -/
theorem Moves.pools (move : Moves s l s') :
    s'.pool = s.pool ∨ (∃ f, Popped s s' f) ∨
      ∃ w f, s.pc w = .release f ∧ s'.pc w = .finish ∧ s'.pool = f :: s.pool := by
  cases move with
  | reused w cb here f pool cached => exact .inr (.inl ⟨f, pool, cached, rfl⟩)
  | cached w f here => exact .inr (.inr ⟨w, f, here, Function.update_self .., rfl⟩)
  | _ => exact .inl rfl

/-- A worker is given a fiber by `acquire`: from the pool, or a new one. -/
theorem Moves.owns (move : Moves s l s') (owns : s'.Owns w f) :
    s.Owns w f ∨ l.worker = some w ∧ (Popped s s' f ∨ f = s.created) := by
  unfold State.Owns at owns ⊢
  cases move with
  | created | scheduled | setPolicy | setMLFQConfig | setMaxCachedPerKey | idle | refused => exact .inl owns
  | reused v cb here g pool cached =>
    refine (place_update (P := (·.work = _)) owns).imp_right ?_
    rintro ⟨rfl, mine⟩
    cases mine
    exact ⟨rfl, .inl ⟨pool, cached, rfl⟩⟩
  | built v cb here =>
    refine (place_update (P := (·.work = _)) owns).imp_right ?_
    rintro ⟨rfl, mine⟩
    cases mine
    exact ⟨rfl, .inr rfl⟩
  | turned l v before after here turns =>
    rcases place_update (P := (·.work = _)) owns with before | ⟨rfl, mine⟩
    · exact .inl before
    · rw [here]
      exact .inl (turns.lets_go.2 f mine)
  | _ v =>
    rcases place_update (P := (·.work = _)) owns with before | ⟨rfl, mine⟩
    · exact .inl before
    · cases mine <;> exact .inl (by rw [‹s.pc w = _›]; rfl)

/-- Only a worker that found its callback's fiber at rest releases it. -/
theorem Moves.releasing (move : Moves s l s') (cond : ReadsAfterSwitch s l) (here' : s'.pc w = .release f) :
    s.pc w = .release f ∨ s.pc w = .testTerm f ∧ s.AtRest f := by
  cases move with
  | created | scheduled | setPolicy | setMLFQConfig | setMaxCachedPerKey | idle | refused => exact .inl here'
  | turned l v before after here turns =>
    refine (place_update (P := (· = _)) here').imp_right ?_
    rintro ⟨rfl, rfl⟩
    cases turns with
    | dead isOver =>
      simp only [ReadsAfterSwitch, here] at cond
      exact ⟨here, isOver, not_exists.1 (cond isOver)⟩
  | _ => exact .inl ((place_update (P := (· = _)) here').resolve_right fun mover => nomatch mover.2)

end Moves

theorem Pooled.move {s s' : State} {l : Label} (h : Pooled s) (known : Known s) (cond : ReadsAfterSwitch s l)
    (move : Moves s l s') : Pooled s' := by
  have gone {f : Ref} (popped : Popped s s' f) : f ∉ s'.pool := by
    obtain ⟨pool, before, after⟩ := popped
    have once := h.once
    rw [before] at once
    exact after ▸ (List.nodup_cons.1 once).1
  have came {f : Ref} (cached : f ∈ s'.pool) : f ∈ s.pool ∨ ∃ w, s.pc w = .release f ∧ s'.pc w = .finish := by
    rcases move.pools with same | ⟨g, pool, before, after⟩ | ⟨w, g, here, here', pushed⟩
    · exact .inl (same ▸ cached)
    · exact .inl (before ▸ List.mem_cons_of_mem g (after ▸ cached))
    · rw [pushed, List.mem_cons] at cached
      rcases cached with rfl | older
      · exact .inr ⟨w, here, here'⟩
      · exact .inl older
  have owned {w : Worker} {f : Ref} (here : s.pc w = .release f) : s.Owns w f := by
    rw [State.Owns, here, Pc.work]
  have born {w : Worker} {f : Ref} (owns : s.Owns w f) : s.Exists f := known.held w f (Pc.work_mentions owns)
  constructor
  case dead =>
    intro f cached
    rcases came cached with before | ⟨w, here, _⟩
    · exact (move.atRest (known.pooled f before) (h.dead f before)).resolve_left fun popped => gone popped cached
    · exact (move.atRest (born (owned here)) (h.releasing w f here)).resolve_left fun popped => gone popped cached
  case once =>
    rcases move.pools with same | ⟨f, pool, before, after⟩ | ⟨w, f, here, _, pushed⟩
    · exact same ▸ h.once
    · have once := h.once
      rw [before] at once
      exact after ▸ (List.nodup_cons.1 once).2
    · rw [pushed, List.nodup_cons]
      exact ⟨fun cached => h.unowned f cached w (owned here), h.once⟩
  case unowned =>
    intro f cached w owns'
    rcases move.owns owns' with owns | ⟨_, popped | rfl⟩
    · rcases came cached with before | ⟨v, here, here'⟩
      · exact h.unowned f before w owns
      · obtain rfl := h.owner w v f owns (owned here)
        rw [State.Owns, here'] at owns'
        cases owns'
    · exact gone popped cached
    · rcases came cached with before | ⟨v, here, _⟩
      · exact Nat.lt_irrefl s.created (known.pooled _ before)
      · exact known.unowned v (owned here)
  case owner =>
    have taken {v : Worker} {f : Ref} (fresh : Popped s s' f ∨ f = s.created) : ¬ s.Owns v f := by
      rcases fresh with ⟨pool, before, _⟩ | rfl
      · exact h.unowned f (before ▸ List.mem_cons_self) v
      · exact known.unowned v
    intro w v f hw hv
    rcases move.owns hw with oldW | ⟨movedW, newW⟩ <;> rcases move.owns hv with oldV | ⟨movedV, newV⟩
    · exact h.owner w v f oldW oldV
    · exact absurd oldW (taken newV)
    · exact absurd oldV (taken newW)
    · exact Option.some.inj (movedW.symm.trans movedV)
  case releasing =>
    intro w f here'
    have kept (owns : s.Owns w f) (rest : s.AtRest f) : s'.AtRest f := by
      refine (move.atRest (born owns) rest).resolve_left ?_
      rintro ⟨pool, before, -⟩
      exact h.unowned f (before ▸ List.mem_cons_self) w owns
    rcases move.releasing cond here' with here | ⟨here, rest⟩
    · exact kept (owned here) (h.releasing w f here)
    · exact kept (by rw [State.Owns, here, Pc.work]) rest

/-- **Main theorem.** If no worker reads `TERM` before the last switch out of
its callback's fiber, the fibers in the pool are finished and nobody is inside
of one, so `acquire` resets none that still runs. -/
theorem pooled_at_rest {s : State} (h : machine.ReachIf ReadsAfterSwitch s) :
    ∀ f ∈ s.pool, s.state f = .term ∧ ¬ s.Executing f := by
  have pooled : Pooled s := h.invariant_with Known (fun _ reached => known_of_reach reached.reach) pooled_init
    fun _ _ _ known inv cond e _ => inv.move known cond (step_moves e)
  exact fun f cached => ⟨(pooled.dead f cached).1, fun ⟨v, inside⟩ => (pooled.dead f cached).2 v inside⟩

/-- A callback runs on worker 1 and yields; worker 2 finishes it and switches
out before worker 1 reads its state. -/
theorem pooled_at_rest_resumed : ∃ s, machine.ReachIf ReadsAfterSwitch s ∧ s.pool = [0] ∧
    ∀ f ∈ s.pool, s.state f = .term ∧ ¬ s.Executing f := by
  have next {s s' : State} (h : machine.ReachIf ReadsAfterSwitch s) (l : Label) (c : ReadsAfterSwitch s l)
      (e : step s l = some s') : machine.ReachIf ReadsAfterSwitch s' := h.step c e
  have resumed := next (next (next (next (next .init (.schedule (.cb 0) {}) trivial rfl) (.run 1) trivial rfl)
    (.run 1) trivial rfl) (.run 1) trivial rfl) (.run 1) trivial rfl
  have yielded := next (next (next (next resumed (.schedule (.fiber 0) {}) trivial rfl) (.yield 1) trivial rfl)
    (.run 1) trivial rfl) (.run 1) trivial rfl
  have taken := next (next (next (next yielded (.run 2) trivial rfl) (.run 2) trivial rfl) (.run 2) trivial rfl)
    (.run 2) trivial rfl
  have finished := next (next taken (.finish 2) trivial rfl) (.run 2) trivial rfl
  have out := not_executing (f := 0) [1, 2] (rfl : machine.exec machine.init
    [.schedule (.cb 0) {}, .run 1, .run 1, .run 1, .run 1, .schedule (.fiber 0) {}, .yield 1, .run 1, .run 1,
      .run 2, .run 2, .run 2, .run 2, .finish 2, .run 2] = some _) (by simp [Label.worker]) (by decide)
  have cached := next (next finished (.run 1) (fun _ => out) rfl) (.run 1) trivial rfl
  exact ⟨_, cached, rfl, pooled_at_rest cached⟩

/-- Worker 2 resumes the fiber of worker 1's callback and stores `TERM`; worker
1 reads it and caches the fiber while worker 2 is still inside of it. -/
theorem cached_while_leaving :
    ¬ ∀ s, machine.Reach s → ∀ f ∈ s.pool, s.state f = .term ∧ ¬ s.Executing f := fun h => by
  have reached := reach_of_exec (rfl : machine.exec machine.init
    [.schedule (.cb 0) {}, .run 1, .run 1, .run 1, .run 1, .schedule (.fiber 0) {}, .yield 1, .run 1, .run 1,
      .run 2, .run 2, .run 2, .run 2, .finish 2, .run 1, .run 1] = some _)
  exact (h _ reached 0 (by decide)).2 ⟨2, by decide⟩

end Mycoroutine.Run
