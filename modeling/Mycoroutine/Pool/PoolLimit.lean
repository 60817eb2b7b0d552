import Mycoroutine.Pool.CoroutinePool

/-!
# The limit of the buckets

The pool under any use: `release` takes any fiber with any arguments, and two
callers may release the same one. `release` compares a bucket with the limit
where it fills the bucket. `setMaxCachedPerKey` leaves the buckets alone, so a
limit that is lowered can be passed already.

The pool whose callers have variables for their fibers is this one, used in a
particular way.
-/

namespace Mycoroutine.CoroutinePool.Limit
set_option autoImplicit false
open Interleave

/-- Where a caller stands: past the locked section of `acquire`, or before that
of `release`. -/
inductive Pc where
  | idle
  | making
  | resetting (fiber : Ref)
  | releasing (fiber : Ref) (key : BitVec 64)

/-- `fibers` has the state of each fiber. -/
structure State where
  cache : BitVec 64 → List Ref
  maxCachedPerKey : Nat
  fibers : Ref → Option Fiber.State
  created : Ref
  pc : Nat → Pc

/-- `run` is one change of a fiber's state, whoever resumed it. -/
inductive Label where
  | acquire (caller : Nat) (cb : Bool) (args : Args)
  | make (caller : Nat)
  | reset (caller : Nat)
  | release (caller : Nat) (fiber : Option Ref) (args : Args)
  | push (caller : Nat)
  | setMaxCachedPerKey (maxCachedPerKey : Nat)
  | clear
  | run (fiber : Ref) (state : Fiber.State)

namespace State

def at_ (s : State) (caller : Nat) (pc : Pc) : State := { s with pc := Function.update s.pc caller pc }

def bucket (s : State) (key : BitVec 64) (fibers : List Ref) : State :=
  { s with cache := Function.update s.cache key fibers }

def setState (s : State) (f : Ref) (state : Fiber.State) : State :=
  { s with fibers := Function.update s.fibers f (some state) }

/-- `acquire`, with its locked section. -/
def acquire (s : State) (caller : Nat) (cb : Bool) (args : Args) : State :=
  if cb then
    match (s.cache args.key).getLast? with
    | some fiber => (s.bucket args.key (s.cache args.key).dropLast).at_ caller (.resetting fiber)
    | none => s.at_ caller .making
  else s

/-- `std::make_shared<Fiber>`. -/
def make (s : State) (caller : Nat) : State :=
  { s.setState s.created .ready with created := s.created + 1 }.at_ caller .idle

/-- The locked section of `release`. -/
def push (s : State) (caller : Nat) (fiber : Ref) (key : BitVec 64) : State :=
  let bucket := s.cache key
  (if bucket.length < s.maxCachedPerKey then s.bucket key (bucket ++ [fiber]) else s).at_ caller .idle

end State

/-- A `reset` that finds its fiber unfinished aborts. -/
def step (s : State) : Label → Option State
  | .acquire caller cb args =>
    match s.pc caller with
    | .idle => some (s.acquire caller cb args)
    | _ => none
  | .make caller =>
    match s.pc caller with
    | .making => some (s.make caller)
    | _ => none
  | .reset caller =>
    match s.pc caller with
    | .resetting fiber =>
      if s.fibers fiber = some .term then some ((s.setState fiber .ready).at_ caller .idle) else none
    | _ => none
  | .release caller fiber args =>
    match s.pc caller, fiber with
    | .idle, none => some s
    | .idle, some fiber =>
      (s.fibers fiber).map fun state => if state = .term then s.at_ caller (.releasing fiber args.key) else s
    | _, _ => none
  | .push caller =>
    match s.pc caller with
    | .releasing fiber key => some (s.push caller fiber key)
    | _ => none
  | .setMaxCachedPerKey maxCachedPerKey => some { s with maxCachedPerKey := limit maxCachedPerKey }
  | .clear => some { s with cache := fun _ => [] }
  | .run fiber state =>
    if (s.fibers fiber).any fun before => Runs before state then some (s.setState fiber state) else none

/-- A pool that was just constructed. -/
def machine (maxCachedPerKey : Nat) : Machine State Label where
  init :=
    { cache := fun _ => [], maxCachedPerKey := limit maxCachedPerKey, fibers := fun _ => none, created := 0,
      pc := fun _ => .idle }
  step := step

/-! ## What one step does to the buckets -/

section Steps

variable {s s' : State} {l : Label}

/-- Only the locked sections change the buckets or the limit. -/
inductive Buckets (s s' : State) : Label → Prop where
  | same (l : Label) (notLimit : ∀ n, l ≠ .setMaxCachedPerKey n) (cache : s'.cache = s.cache)
      (limit : s'.maxCachedPerKey = s.maxCachedPerKey) : Buckets s s' l
  | popped (caller : Nat) (args : Args)
      (cache : s'.cache = Function.update s.cache args.key (s.cache args.key).dropLast)
      (limit : s'.maxCachedPerKey = s.maxCachedPerKey) : Buckets s s' (.acquire caller true args)
  | pushed (caller : Nat) (key : BitVec 64) (fiber : Ref) (room : (s.cache key).length < s.maxCachedPerKey)
      (cache : s'.cache = Function.update s.cache key (s.cache key ++ [fiber]))
      (limit : s'.maxCachedPerKey = s.maxCachedPerKey) : Buckets s s' (.push caller)
  | limited (n : Nat) (cache : s'.cache = s.cache) (limit : s'.maxCachedPerKey = limit n) :
      Buckets s s' (.setMaxCachedPerKey n)
  | cleared (cache : s'.cache = fun _ => []) : Buckets s s' .clear

theorem acquire_buckets (caller : Nat) (cb : Bool) (args : Args) :
    Buckets s (s.acquire caller cb args) (.acquire caller cb args) := by
  cases cb with
  | false => exact .same _ (by simp) rfl rfl
  | true =>
    simp only [State.acquire, if_true]
    split
    · exact .popped caller args rfl rfl
    · exact .same _ (by simp) rfl rfl

theorem push_buckets (caller : Nat) (fiber : Ref) (key : BitVec 64) :
    Buckets s (s.push caller fiber key) (.push caller) := by
  simp only [State.push]
  split
  · rename_i room
    exact .pushed caller key fiber room rfl rfl
  · exact .same _ (by simp) rfl rfl

theorem step_buckets (e : step s l = some s') : Buckets s s' l := by
  cases l with
  | acquire caller cb args =>
    simp only [step] at e
    split at e <;> cases e
    exact acquire_buckets caller cb args
  | make caller =>
    simp only [step] at e
    split at e <;> cases e
    exact .same _ (by simp) rfl rfl
  | reset caller =>
    simp only [step] at e
    split at e
    · split at e <;> cases e
      exact .same _ (by simp) rfl rfl
    · cases e
  | release caller fiber args =>
    simp only [step] at e
    split at e
    · cases e
      exact .same _ (by simp) rfl rfl
    · obtain ⟨state, -, rfl⟩ := Option.map_eq_some_iff.1 e
      split
      · exact .same _ (by simp) rfl rfl
      · exact .same _ (by simp) rfl rfl
    · cases e
  | push caller =>
    simp only [step] at e
    split at e <;> cases e
    exact push_buckets caller _ _
  | setMaxCachedPerKey n =>
    cases e
    exact .limited n rfl rfl
  | clear =>
    cases e
    exact .cleared rfl
  | run fiber state =>
    simp only [step] at e
    split at e <;> cases e
    exact .same _ (by simp) rfl rfl

/-! ## The limit -/

/-- No bucket holds more fibers than the limit allows. -/
def State.Bounded (s : State) : Prop := ∀ key, (s.cache key).length ≤ s.maxCachedPerKey

/-- A limit is set only where no bucket holds more fibers than the new one
allows. -/
def Fits (s : State) : Label → Prop
  | .setMaxCachedPerKey n => ∀ key, (s.cache key).length ≤ limit n
  | _ => True

/-- One bucket changes, and stays under the limit. -/
theorem State.Bounded.update {key : BitVec 64} {fibers : List Ref} (h : s.Bounded)
    (cache : s'.cache = Function.update s.cache key fibers) (same : s'.maxCachedPerKey = s.maxCachedPerKey)
    (room : fibers.length ≤ s.maxCachedPerKey) : s'.Bounded := by
  intro k
  rw [cache, same]
  by_cases mine : k = key
  · rw [mine, Function.update_self]
    exact room
  · rw [Function.update_of_ne mine]
    exact h k

/-- From within the limit, a step stays there exactly if it fits. -/
theorem State.Bounded.step_iff (h : s.Bounded) (change : Buckets s s' l) : s'.Bounded ↔ Fits s l := by
  cases change with
  | same l notLimit cache same =>
    have fits : Fits s l := by
      cases l with
      | setMaxCachedPerKey n => exact absurd rfl (notLimit n)
      | _ => trivial
    refine iff_of_true (fun key => ?_) fits
    rw [cache, same]
    exact h key
  | popped caller args cache same =>
    refine iff_of_true (h.update cache same ?_) trivial
    rw [List.length_dropLast]
    exact (Nat.sub_le _ 1).trans (h args.key)
  | pushed caller key fiber room cache same =>
    refine iff_of_true (h.update cache same ?_) trivial
    rw [List.length_append]
    exact room
  | limited n cache same => simp only [State.Bounded, cache, same, Fits]
  | cleared cache =>
    refine iff_of_true (fun key => ?_) trivial
    rw [cache]
    exact Nat.zero_le _

theorem bounded_of_reach {maxCachedPerKey : Nat} (h : (machine maxCachedPerKey).ReachIf Fits s) : s.Bounded :=
  h.invariant (fun _ => Nat.zero_le _) fun _ _ _ inv fits e => (inv.step_iff (step_buckets e)).2 fits

end Steps

/-- **Main theorem.** The limit holds in every run that never sets it below what a
bucket holds, and the first step that does so breaks it. -/
theorem within_limit (maxCachedPerKey : Nat) (s : State) (h : (machine maxCachedPerKey).ReachIf Fits s) :
    s.Bounded ∧ ∀ l s', step s l = some s' → (s'.Bounded ↔ Fits s l) :=
  ⟨bounded_of_reach h, fun _ _ e => (bounded_of_reach h).step_iff (step_buckets e)⟩

def args : Args where
  stacksize := 0
  runInScheduler := false
  useSharedStack := false

/-- One caller acquires two fibers, runs them to their end and releases them. -/
def releaseTwo : List Label :=
  [.acquire 0 true args, .make 0, .acquire 0 true args, .make 0, .run 0 .running, .run 0 .term, .run 1 .running,
   .run 1 .term, .release 0 (some 0) args, .push 0, .release 0 (some 1) args, .push 0]

/-- With a limit of 1 the second fiber is not cached, and setting the limit to 0
sets it to 1 again. -/
theorem within_limit_one : ∃ s s' : State, (s.cache args.key).length = 1 ∧
    step s (.setMaxCachedPerKey 0) = some s' ∧ s.Bounded ∧ s'.Bounded := by
  have reached : (machine 1).ReachIf Fits _ :=
    Machine.ReachIf.init.exec_always (by simp [releaseTwo, Fits]) (rfl : (machine 1).exec (machine 1).init releaseTwo = some _)
  obtain ⟨bounded, next⟩ := within_limit 1 _ reached
  exact ⟨_, _, by decide, rfl, bounded, (next (.setMaxCachedPerKey 0) _ rfl).2 bounded⟩

/-- Lowering the limit leaves two fibers in a bucket that may hold one. -/
theorem lowered_below_bucket : ¬ ∀ maxCachedPerKey s, (machine maxCachedPerKey).Reach s → s.Bounded := by
  intro all
  have reached := Machine.reach_of_exec (rfl : (machine 2).exec (machine 2).init
    (releaseTwo ++ [.setMaxCachedPerKey 1]) = some _)
  exact absurd (all 2 _ reached args.key) (by decide)

/-! ## Callers with variables -/

/-- Where a caller stands, without its variable. -/
def Pc.forget : CoroutinePool.Pc → Pc
  | .making _ _ => .making
  | .resetting _ l => .resetting l.fiber
  | .releasing _ l => .releasing l.fiber l.params.key
  | .idle | .released _ | .aborted => .idle

/-- The pool without the variables of its callers. -/
def forget (s : CoroutinePool.State) : State where
  cache := s.cache
  maxCachedPerKey := s.maxCachedPerKey
  fibers := s.stateOf
  created := s.created
  pc caller := Pc.forget (s.pc caller)

/-- A limit is set only where no bucket holds more fibers than the new one allows. -/
def LeasesFit (s : CoroutinePool.State) : CoroutinePool.Label → Prop
  | .setMaxCachedPerKey n => ∀ key, (s.cache key).length ≤ limit n
  | _ => True

section Forget

variable {s s' : CoroutinePool.State} {l : CoroutinePool.Label} {caller : Nat}

theorem at_self {n : State} {pc : Pc} (here : n.pc caller = pc) : n.at_ caller pc = n := by
  subst here
  rw [State.at_, Function.update_eq_self]

/-- The pools differ in one caller. -/
theorem forget_at {m : CoroutinePool.State} {n : State} (pc : CoroutinePool.Pc) (rest : forget m = n) :
    forget (m.at_ caller pc) = n.at_ caller (Pc.forget pc) := by
  subst rest
  simp only [forget, CoroutinePool.State.at_, State.at_, State.mk.injEq, true_and]
  refine ⟨rfl, ?_⟩
  funext x
  simp only [Function.update_apply]
  split <;> rfl

theorem forget_setState (f : Ref) (state : Fiber.State) (known : s.stateOf f ≠ none) :
    forget (s.setState f state) = (forget s).setState f state := by
  obtain ⟨fb, here⟩ : ∃ fb, s.fibers f = some fb := by
    cases is : s.fibers f with
    | none => exact absurd (by simp [CoroutinePool.State.stateOf, is]) known
    | some fb => exact ⟨fb, rfl⟩
  simp only [forget, CoroutinePool.State.setState, State.setState, State.mk.injEq, true_and, and_true]
  funext x
  by_cases same : x = f
  · subst same
    simp [CoroutinePool.State.stateOf, here]
  · simp [CoroutinePool.State.stateOf, same]

theorem acquire_forget (var : Nat) (cb : Bool) (params : Params) :
    forget (s.acquire caller var cb params) =
      (forget s).acquire caller cb ⟨params.stacksize, params.runInScheduler, params.useSharedStack⟩ := by
  cases cb with
  | false => rfl
  | true =>
    have key : (⟨params.stacksize, params.runInScheduler, params.useSharedStack⟩ : Args).key = params.key := rfl
    have cache : (forget s).cache = s.cache := rfl
    simp only [CoroutinePool.State.acquire, State.acquire, if_true, key, cache]
    cases (s.cache params.key).getLast? <;> exact forget_at _ rfl

theorem make_forget (var : Nat) (params : Params) : forget (s.make caller var params) = (forget s).make caller := by
  refine forget_at _ ?_
  simp only [forget, CoroutinePool.State.put, CoroutinePool.State.add, State.setState, State.mk.injEq, true_and, and_true]
  funext x
  by_cases same : x = s.created
  · subst same
    simp [CoroutinePool.State.stateOf]
  · simp [CoroutinePool.State.stateOf, same]

theorem push_forget (var : Nat) (l : Lease) : forget (s.push caller var l) = (forget s).push caller l.fiber l.params.key := by
  have cache : (forget s).cache = s.cache := rfl
  have limit : (forget s).maxCachedPerKey = s.maxCachedPerKey := rfl
  refine forget_at _ ?_
  simp only [cache, limit]
  split <;> rfl

/-- A step is one of the pool, or none, when no `reset` fails. -/
theorem step_forget (live : ∀ caller, s'.pc caller ≠ .aborted) (fits : LeasesFit s l) (e : CoroutinePool.step s l = some s') :
    forget s' = forget s ∨ ∃ l', Fits (forget s) l' ∧ step (forget s) l' = some (forget s') := by
  have there {t : Nat} {pc : CoroutinePool.Pc} (at' : s.pc t = pc) : (forget s).pc t = Pc.forget pc := congrArg Pc.forget at'
  cases l with
  | acquire caller var cb params =>
    simp only [CoroutinePool.step] at e
    split at e <;> cases e
    rename_i idle free
    refine .inr ⟨.acquire caller cb ⟨params.stacksize, params.runInScheduler, params.useSharedStack⟩, trivial, ?_⟩
    simp only [step, there idle, Pc.forget]
    exact congrArg some (acquire_forget var cb params).symm
  | make caller =>
    simp only [CoroutinePool.step] at e
    split at e <;> cases e
    rename_i var params making
    refine .inr ⟨.make caller, trivial, ?_⟩
    simp only [step, there making, Pc.forget]
    exact congrArg some (make_forget var params).symm
  | reset caller =>
    simp only [CoroutinePool.step] at e
    split at e <;> cases e
    rename_i var l resetting
    simp only [CoroutinePool.State.reset] at live ⊢
    split
    · rename_i term
      refine .inr ⟨.reset caller, trivial, ?_⟩
      have term' : (forget s).fibers l.fiber = some .term := term
      have reset : forget ((s.setState l.fiber .ready).put var (.lease l)) = (forget s).setState l.fiber .ready :=
        forget_setState (s := s) l.fiber .ready (by simp [term])
      simp only [step, there resetting, Pc.forget, if_pos term']
      exact congrArg some (forget_at .idle reset).symm
    · rename_i unfinished
      refine absurd ?_ (live caller)
      simp [CoroutinePool.State.at_, unfinished]
  | release caller var =>
    simp only [CoroutinePool.step] at e
    split at e <;> cases e
    · exact .inl rfl
    · rename_i l idle leased
      simp only [CoroutinePool.State.release]
      split
      · rename_i term
        refine .inr ⟨.release caller (some l.fiber) ⟨l.params.stacksize, l.params.runInScheduler, l.params.useSharedStack⟩,
          trivial, ?_⟩
        have term' : (forget s).fibers l.fiber = some .term := term
        have same : forget (s.put var .busy) = forget s := rfl
        simp only [step, there idle, Pc.forget, term', Option.map_some, if_true]
        exact congrArg some (forget_at (.releasing var l) same).symm
      · exact .inl rfl
  | push caller =>
    simp only [CoroutinePool.step] at e
    split at e <;> cases e
    rename_i var l releasing
    refine .inr ⟨.push caller, trivial, ?_⟩
    simp only [step, there releasing, Pc.forget]
    exact congrArg some (push_forget var l).symm
  | forget caller =>
    simp only [CoroutinePool.step] at e
    split at e <;> cases e
    rename_i var released
    have same : forget (s.put var .null) = forget s := rfl
    have idle : (forget s).pc caller = .idle := congrArg Pc.forget released
    left
    rw [forget_at .idle same]
    exact at_self idle
  | setMaxCachedPerKey n =>
    cases e
    exact .inr ⟨.setMaxCachedPerKey n, fits, rfl⟩
  | clear =>
    cases e
    exact .inr ⟨.clear, trivial, rfl⟩
  | run fiber state =>
    simp only [CoroutinePool.step] at e
    split at e <;> cases e
    rename_i runs
    refine .inr ⟨.run fiber state, trivial, ?_⟩
    have runs' : ((forget s).fibers fiber).any (fun before => Runs before state) = true := runs
    simp only [step, if_pos runs']
    refine congrArg some (forget_setState fiber state fun unknown => ?_).symm
    rw [unknown] at runs
    cases runs
  | drop var =>
    simp only [CoroutinePool.step] at e
    split at e <;> cases e
    exact .inl rfl

/-- A run of the callers with variables is one of the pool. -/
theorem reach_forget {maxCachedPerKey : Nat} (h : (CoroutinePool.machine maxCachedPerKey).ReachIf LeasesFit s) :
    (machine maxCachedPerKey).ReachIf Fits (forget s) := by
  induction h with
  | init => exact .init
  | step before fits e ih =>
    have owned := owned_of_reach (before.reach.next _ trivial e)
    rcases step_forget owned.sane fits e with same | ⟨l', fits', e'⟩
    · exact same ▸ ih
    · exact ih.next l' fits' e'

/-- So their buckets keep the limit as well. -/
theorem leases_bounded {maxCachedPerKey : Nat} (h : (CoroutinePool.machine maxCachedPerKey).ReachIf LeasesFit s) (key : BitVec 64) :
    (s.cache key).length ≤ s.maxCachedPerKey := bounded_of_reach (reach_forget h) key

end Forget

end Mycoroutine.CoroutinePool.Limit
