import Mathlib.Data.List.Nodup
import Mycoroutine.Fiber.Thread
import Mycoroutine.Interleave.Machine

/-!
# `CoroutinePool`

`acquire` and `release` are cut at the pool's lock: the bucket is searched or
filled inside it, the constructor, `Fiber::reset` and the check of the state
run outside. A caller is whoever executes pool functions, a thread or a fiber;
a variable is a `shared_ptr` of some caller, which a call keeps to itself
until it returns. The arguments of `release` are those of the `acquire` that
filled the variable.
-/

namespace Mycoroutine.CoroutinePool
set_option autoImplicit false
open Interleave

/-! ## Keys -/

def kDefaultFiberStackSize : BitVec 64 := 128000

def normalizeStackSize (stacksize : BitVec 64) : BitVec 64 :=
  if stacksize = 0 then kDefaultFiberStackSize else stacksize

def makeKey (stacksize : BitVec 64) (runInScheduler useSharedStack : Bool) : BitVec 64 :=
  let normalized := normalizeStackSize stacksize &&& (1#64 <<< 60 - 1#64)
  let runFlag := if runInScheduler then 1#64 <<< 62 else 0#64
  let sharedFlag := if useSharedStack then 1#64 <<< 63 else 0#64
  normalized ||| runFlag ||| sharedFlag

theorem getLsbD_flag (b : Bool) {bit : Nat} (bound : bit < 64) (i : Nat) :
    (if b then 1#64 <<< bit else 0#64).getLsbD i = (b && decide (i = bit)) := by
  have word : 1#64 <<< bit = BitVec.twoPow 64 bit := (BitVec.twoPow_eq ..).symm
  rw [word]
  cases b with
  | false => simp
  | true =>
    rw [if_pos rfl, BitVec.getLsbD_twoPow, Bool.true_and]
    exact Bool.eq_iff_iff.2 (by simp; omega)

theorem getLsbD_makeKey (stacksize : BitVec 64) (runInScheduler useSharedStack : Bool) (i : Nat) :
    (makeKey stacksize runInScheduler useSharedStack).getLsbD i =
      ((normalizeStackSize stacksize).getLsbD i && decide (i < 60) || runInScheduler && decide (i = 62) ||
        useSharedStack && decide (i = 63)) := by
  have mask : 1#64 <<< 60 - 1#64 = BitVec.setWidth 64 (BitVec.allOnes 60) := by decide
  simp only [makeKey, mask, BitVec.getLsbD_or, BitVec.getLsbD_and, getLsbD_flag _ (show 62 < 64 by decide),
    getLsbD_flag _ (show 63 < 64 by decide), BitVec.getLsbD_setWidth, BitVec.getLsbD_allOnes]
  congr 2
  by_cases low : i < 60
  · simp [low]; omega
  · simp [low]

/-- The key tells the flags and the low bits of the stack size apart. -/
theorem makeKey_bits {size size' : BitVec 64} {run run' shared shared' : Bool}
    (same : makeKey size run shared = makeKey size' run' shared') : run = run' ∧ shared = shared' ∧
      ∀ i, i < 60 → (normalizeStackSize size).getLsbD i = (normalizeStackSize size').getLsbD i := by
  have bits (i : Nat) := congrArg (·.getLsbD i) same
  simp only [getLsbD_makeKey] at bits
  refine ⟨?_, ?_, fun i low => ?_⟩
  · simpa using bits 62
  · simpa using bits 63
  · have apart : i ≠ 62 ∧ i ≠ 63 := by omega
    simpa [low, apart] using bits i

/-- The arguments of `acquire`. -/
structure Args where
  stacksize : BitVec 64
  runInScheduler : Bool
  useSharedStack : Bool

def Args.key (args : Args) : BitVec 64 := makeKey args.stacksize args.runInScheduler args.useSharedStack

/-- The arguments of a call. A stack size has 60 bits. -/
structure Params where
  stacksize : BitVec 64
  runInScheduler : Bool
  useSharedStack : Bool
  small : stacksize.toNat < 2 ^ 60

namespace Params

def key (p : Params) : BitVec 64 := makeKey p.stacksize p.runInScheduler p.useSharedStack

theorem small_normalize (p : Params) : (normalizeStackSize p.stacksize).toNat < 2 ^ 60 := by
  unfold normalizeStackSize
  split
  · decide
  · exact p.small

/-- What the constructor makes of the arguments. -/
def normalized (p : Params) : Params :=
  { p with stacksize := normalizeStackSize p.stacksize, small := p.small_normalize }

/-- The key tells the arguments apart, up to the default stack size. -/
theorem key_injective {p q : Params} (same : p.key = q.key) : p.normalized = q.normalized := by
  obtain ⟨run, shared, bits⟩ := makeKey_bits same
  have size : normalizeStackSize p.stacksize = normalizeStackSize q.stacksize := by
    apply BitVec.eq_of_getLsbD_eq
    intro i _
    by_cases low : i < 60
    · exact bits i low
    · have beyond (r : Params) : (normalizeStackSize r.stacksize).getLsbD i = false :=
        Nat.testBit_lt_two_pow (Nat.lt_of_lt_of_le r.small_normalize (Nat.pow_le_pow_right (by decide) (Nat.le_of_not_lt low)))
      rw [beyond p, beyond q]
  obtain ⟨stacksize, _, _, small⟩ := p
  cases run
  cases shared
  simp only [normalized, Params.mk.injEq, and_true]
  exact size

end Params

/-! ## The pool and its callers -/

/-- What the pool reads of a fiber, and the arguments of its constructor. -/
structure PoolFiber where
  state : Fiber.State
  built : Params

/-- A reference that `acquire` handed out, with the arguments of the call. -/
structure Lease where
  fiber : Ref
  params : Params

/-- A `shared_ptr` of some caller; `busy` while a call has it. -/
inductive Var where
  | null
  | lease (l : Lease)
  | busy

/-- Where a caller stands: past the locked section of `acquire`, before or past
that of `release`. -/
inductive Pc where
  | idle
  | making (var : Nat) (params : Params)
  | resetting (var : Nat) (l : Lease)
  | releasing (var : Nat) (l : Lease)
  | released (var : Nat)
  | aborted

structure State where
  cache : BitVec 64 → List Ref
  maxCachedPerKey : Nat
  fibers : Ref → Option PoolFiber
  created : Ref
  vars : Nat → Var
  pc : Nat → Pc

/-- `run` is one change of a fiber's state, whoever resumed it. -/
inductive Label where
  | acquire (caller var : Nat) (cb : Bool) (params : Params)
  | make (caller : Nat)
  | reset (caller : Nat)
  | release (caller var : Nat)
  | push (caller : Nat)
  | forget (caller : Nat)
  | setMaxCachedPerKey (maxCachedPerKey : Nat)
  | clear
  | run (fiber : Ref) (state : Fiber.State)
  | drop (var : Nat)

namespace State

def at_ (s : State) (caller : Nat) (pc : Pc) : State := { s with pc := Function.update s.pc caller pc }

def put (s : State) (var : Nat) (v : Var) : State := { s with vars := Function.update s.vars var v }

def setState (s : State) (f : Ref) (state : Fiber.State) : State :=
  { s with fibers := Function.update s.fibers f ((s.fibers f).map ({ · with state })) }

def bucket (s : State) (key : BitVec 64) (fibers : List Ref) : State :=
  { s with cache := Function.update s.cache key fibers }

def add (s : State) (fb : PoolFiber) : State :=
  { s with fibers := Function.update s.fibers s.created (some fb), created := s.created + 1 }

/-- `fiber->getState()`. -/
def stateOf (s : State) (f : Ref) : Option Fiber.State := (s.fibers f).map (·.state)

/-- `acquire`, with its locked section. -/
def acquire (s : State) (caller var : Nat) (cb : Bool) (params : Params) : State :=
  if cb then
    match (s.cache params.key).getLast? with
    | some fiber =>
      ((s.bucket params.key (s.cache params.key).dropLast).put var .busy).at_ caller (.resetting var ⟨fiber, params⟩)
    | none => (s.put var .busy).at_ caller (.making var params)
  else s

/-- `std::make_shared<Fiber>`. -/
def make (s : State) (caller var : Nat) (params : Params) : State :=
  ((s.add ⟨.ready, params.normalized⟩).put var (.lease ⟨s.created, params⟩)).at_ caller .idle

/-- `fiber->reset(cb)`. -/
def reset (s : State) (caller var : Nat) (l : Lease) : State :=
  if s.stateOf l.fiber = some .term then ((s.setState l.fiber .ready).put var (.lease l)).at_ caller .idle
  else s.at_ caller .aborted

/-- `release`, up to its locked section. -/
def release (s : State) (caller var : Nat) (l : Lease) : State :=
  if s.stateOf l.fiber = some .term then (s.put var .busy).at_ caller (.releasing var l) else s

/-- The locked section of `release`. -/
def push (s : State) (caller var : Nat) (l : Lease) : State :=
  let bucket := s.cache l.params.key
  (if bucket.length < s.maxCachedPerKey then s.bucket l.params.key (bucket ++ [l.fiber]) else s).at_ caller (.released var)

end State

/-- What a callback or a yield makes of a fiber's state. -/
def Runs : Fiber.State → Fiber.State → Prop
  | .ready, .running | .running, .ready | .running, .term => True
  | _, _ => False

instance (before after : Fiber.State) : Decidable (Runs before after) := by
  cases before <;> cases after <;> unfold Runs <;> infer_instance

/-- What a limit is set to. -/
def limit (maxCachedPerKey : Nat) : Nat := if maxCachedPerKey = 0 then 1 else maxCachedPerKey

def step (s : State) : Label → Option State
  | .acquire caller var cb params =>
    match s.pc caller, s.vars var with
    | .idle, .null => some (s.acquire caller var cb params)
    | _, _ => none
  | .make caller =>
    match s.pc caller with
    | .making var params => some (s.make caller var params)
    | _ => none
  | .reset caller =>
    match s.pc caller with
    | .resetting var l => some (s.reset caller var l)
    | _ => none
  | .release caller var =>
    match s.pc caller, s.vars var with
    | .idle, .null => some s
    | .idle, .lease l => some (s.release caller var l)
    | _, _ => none
  | .push caller =>
    match s.pc caller with
    | .releasing var l => some (s.push caller var l)
    | _ => none
  | .forget caller =>
    match s.pc caller with
    | .released var => some ((s.put var .null).at_ caller .idle)
    | _ => none
  | .setMaxCachedPerKey maxCachedPerKey => some { s with maxCachedPerKey := limit maxCachedPerKey }
  | .clear => some { s with cache := fun _ => [] }
  | .run fiber state =>
    if (s.stateOf fiber).any fun before => Runs before state then some (s.setState fiber state) else none
  | .drop var =>
    match s.vars var with
    | .lease _ => some (s.put var .null)
    | _ => none

/-- A pool that was just constructed. -/
def machine (maxCachedPerKey : Nat) : Machine State Label where
  init :=
    { cache := fun _ => [], maxCachedPerKey := limit maxCachedPerKey, fibers := fun _ => none, created := 0,
      vars := fun _ => .null, pc := fun _ => .idle }
  step := step

/-! ## Who has a fiber -/

/-- Where a fiber can be: in a bucket, in a variable, or with a call that took
it over from there. -/
inductive Place where
  | bucket (key : BitVec 64)
  | var (var : Nat)
  | call (caller : Nat)

/-- The lease a call has taken over. -/
def Pc.lease : Pc → Option Lease
  | .resetting _ l | .releasing _ l => some l
  | _ => none

namespace State

def At (s : State) (f : Ref) : Place → Prop
  | .bucket key => f ∈ s.cache key
  | .var v => ∃ l, s.vars v = .lease l ∧ l.fiber = f
  | .call t => ∃ l, (s.pc t).lease = some l ∧ l.fiber = f

/-- The fiber of a lease was built with the arguments of the lease. -/
def Built (s : State) (l : Lease) : Prop := ∃ fb, s.fibers l.fiber = some fb ∧ fb.built = l.params.normalized

/-- A fiber that belongs in a bucket. -/
def Cached (s : State) (key : BitVec 64) (f : Ref) : Prop :=
  ∃ params : Params, params.key = key ∧ s.Built ⟨f, params⟩ ∧ s.stateOf f = some .term

/-- Buckets and leases agree with the fibers. -/
structure Kept (s : State) : Prop where
  once : ∀ key, (s.cache key).Nodup
  cached : ∀ key f, f ∈ s.cache key → s.Cached key f
  leased : ∀ v l, s.vars v = .lease l → s.Built l
  called : ∀ t l, (s.pc t).lease = some l → s.Built l ∧ s.stateOf l.fiber = some .term
  fresh : ∀ f, s.created ≤ f → s.fibers f = none
  sane : ∀ t, s.pc t ≠ .aborted

/-- Every fiber is in one place. -/
structure Owned (s : State) : Prop extends s.Kept where
  place : ∀ f p q, s.At f p → s.At f q → p = q

end State

section Steps

variable {s s' : State} {t v : Nat} {l : Lease} {f : Ref} {pc : Pc} {var : Var}

theorem owned_init (maxCachedPerKey : Nat) : (machine maxCachedPerKey).init.Owned := by
  refine ⟨⟨fun _ => List.nodup_nil, nofun, nofun, nofun, fun _ _ => rfl, nofun⟩, fun f p q at' => ?_⟩
  cases p with
  | bucket key => cases at'
  | var v =>
    obtain ⟨l, here, -⟩ := at'
    cases here
  | call t =>
    obtain ⟨l, here, -⟩ := at'
    cases here

/-- One fiber moves from `old` to `new`, if it was anywhere. -/
theorem place_of_move (h : s.Owned) (f : Ref) (old new : Place) (others : ∀ g p, g ≠ f → s'.At g p → s.At g p)
    (mine : ∀ p, s'.At f p → p = new ∨ s.At f p ∧ s.At f old ∧ p ≠ old) :
    ∀ g p q, s'.At g p → s'.At g q → p = q := by
  intro g p q atP atQ
  by_cases moved : g = f
  · subst moved
    have only (p : Place) (at' : s'.At g p) : p = new :=
      (mine p at').resolve_right fun ⟨was, before, apart⟩ => apart (h.place g p old was before)
    exact (only p atP).trans (only q atQ).symm
  · exact h.place g p q (others g p moved atP) (others g q moved atQ)

/-! ### What the updates do to places -/

theorem at_at_ {g : Ref} {p : Place} (at' : (s.at_ t pc).At g p) :
    (∃ l, p = .call t ∧ pc.lease = some l ∧ l.fiber = g) ∨ s.At g p ∧ p ≠ .call t := by
  cases p with
  | bucket key => exact .inr ⟨at', nofun⟩
  | var w => exact .inr ⟨at', nofun⟩
  | call u =>
    obtain ⟨l, here, same⟩ := at'
    by_cases mine : u = t
    · subst mine
      simp only [State.at_, Function.update_self] at here
      exact .inl ⟨l, rfl, here, same⟩
    · simp only [State.at_, Function.update_of_ne mine] at here
      exact .inr ⟨⟨l, here, same⟩, fun eq => mine (Place.call.inj eq)⟩

theorem at_put {g : Ref} {p : Place} (at' : (s.put v var).At g p) :
    (∃ l, p = .var v ∧ var = .lease l ∧ l.fiber = g) ∨ s.At g p ∧ p ≠ .var v := by
  cases p with
  | bucket key => exact .inr ⟨at', nofun⟩
  | var w =>
    obtain ⟨l, here, same⟩ := at'
    by_cases mine : w = v
    · subst mine
      simp only [State.put, Function.update_self] at here
      exact .inl ⟨l, rfl, here, same⟩
    · simp only [State.put, Function.update_of_ne mine] at here
      exact .inr ⟨⟨l, here, same⟩, fun eq => mine (Place.var.inj eq)⟩
  | call u => exact .inr ⟨at', nofun⟩

theorem at_bucket {g : Ref} {p : Place} {key : BitVec 64} {fibers : List Ref} (at' : (s.bucket key fibers).At g p) :
    p = .bucket key ∧ g ∈ fibers ∨ s.At g p ∧ p ≠ .bucket key := by
  cases p with
  | bucket key' =>
    by_cases mine : key' = key
    · subst mine
      simp only [State.At, State.bucket, Function.update_self] at at'
      exact .inl ⟨rfl, at'⟩
    · simp only [State.At, State.bucket, Function.update_of_ne mine] at at'
      exact .inr ⟨at', fun eq => mine (Place.bucket.inj eq)⟩
  | var w => exact .inr ⟨at', nofun⟩
  | call u => exact .inr ⟨at', nofun⟩

/-! ### What the updates do to the rest of the invariant -/

theorem State.Kept.at_ (h : s.Kept) (sane : pc ≠ .aborted)
    (lease : ∀ l, pc.lease = some l → s.Built l ∧ s.stateOf l.fiber = some .term) : (s.at_ t pc).Kept := by
  refine ⟨h.once, h.cached, h.leased, fun u l here => ?_, h.fresh, fun u => ?_⟩
  · by_cases mine : u = t
    · subst mine
      simp only [State.at_, Function.update_self] at here
      exact lease l here
    · simp only [State.at_, Function.update_of_ne mine] at here
      exact h.called u l here
  · by_cases mine : u = t
    · simpa only [State.at_, mine, Function.update_self] using sane
    · simpa only [State.at_, Function.update_of_ne mine] using h.sane u

theorem State.Kept.put (h : s.Kept) (lease : ∀ l, var = .lease l → s.Built l) : (s.put v var).Kept := by
  refine ⟨h.once, h.cached, fun w l here => ?_, h.called, h.fresh, h.sane⟩
  by_cases mine : w = v
  · subst mine
    simp only [State.put, Function.update_self] at here
    exact lease l here
  · simp only [State.put, Function.update_of_ne mine] at here
    exact h.leased w l here

theorem State.Kept.bucket (h : s.Kept) {key : BitVec 64} {fibers : List Ref} (once : fibers.Nodup)
    (cached : ∀ f ∈ fibers, s.Cached key f) : (s.bucket key fibers).Kept := by
  refine ⟨fun k => ?_, fun k f mem => ?_, h.leased, h.called, h.fresh, h.sane⟩
  · by_cases mine : k = key
    · simpa only [State.bucket, mine, Function.update_self] using once
    · simpa only [State.bucket, Function.update_of_ne mine] using h.once k
  · by_cases mine : k = key
    · subst mine
      simp only [State.bucket, Function.update_self] at mem
      exact cached f mem
    · simp only [State.bucket, Function.update_of_ne mine] at mem
      exact h.cached k f mem

theorem built_setState {state : Fiber.State} (built : s.Built l) : (s.setState f state).Built l := by
  obtain ⟨fb, here, same⟩ := built
  by_cases mine : l.fiber = f
  · exact ⟨{ fb with state }, by simp [State.setState, ← mine, here], same⟩
  · exact ⟨fb, by simp [State.setState, mine, here], same⟩

theorem stateOf_setState {state : Fiber.State} {g : Ref} (other : g ≠ f) : (s.setState f state).stateOf g = s.stateOf g := by
  simp only [State.stateOf, State.setState, Function.update_of_ne other]

/-- A fiber changes its state that is neither cached nor with a call. -/
theorem State.Kept.setState (h : s.Kept) {state : Fiber.State} (uncached : ∀ key, f ∉ s.cache key)
    (uncalled : ∀ t l, (s.pc t).lease = some l → l.fiber ≠ f) : (s.setState f state).Kept := by
  refine ⟨h.once, fun key g mem => ?_, fun v l here => built_setState (h.leased v l here), fun t l here => ?_,
    fun g beyond => ?_, h.sane⟩
  · obtain ⟨params, isKey, built, term⟩ := h.cached key g mem
    have other : g ≠ f := fun same => uncached key (same ▸ mem)
    exact ⟨params, isKey, built_setState built, (stateOf_setState other).trans term⟩
  · obtain ⟨built, term⟩ := h.called t l here
    exact ⟨built_setState built, (stateOf_setState (uncalled t l here)).trans term⟩
  · have none' := h.fresh g beyond
    by_cases mine : g = f
    · subst mine
      simp [State.setState, none']
    · simpa [State.setState, mine] using none'

/-- A fiber that nobody has yet. -/
theorem State.Kept.add (h : s.Kept) (fb : PoolFiber) : (s.add fb).Kept := by
  have old {g : Ref} {gb : PoolFiber} (here : s.fibers g = some gb) : g ≠ s.created := fun same => by
    rw [same, h.fresh _ (Nat.le_refl _)] at here
    cases here
  have built {l : Lease} (is : s.Built l) : (s.add fb).Built l := by
    obtain ⟨lb, here, same⟩ := is
    exact ⟨lb, (Function.update_of_ne (old here) ..).trans here, same⟩
  have term {g : Ref} (is : s.stateOf g = some .term) : (s.add fb).stateOf g = some .term := by
    obtain ⟨gb, here, -⟩ := Option.map_eq_some_iff.1 is
    simpa only [State.stateOf, State.add, Function.update_of_ne (old here)] using is
  refine ⟨h.once, fun key g mem => ?_, fun v l here => built (h.leased v l here), fun t l here => ?_, fun g beyond => ?_,
    h.sane⟩
  · obtain ⟨params, isKey, is, isTerm⟩ := h.cached key g mem
    exact ⟨params, isKey, built is, term isTerm⟩
  · exact ⟨built (h.called t l here).1, term (h.called t l here).2⟩
  · have beyond' : s.created + 1 ≤ g := beyond
    have other : g ≠ s.created := Nat.ne_of_gt beyond'
    exact (Function.update_of_ne other ..).trans (h.fresh g (Nat.le_of_succ_le beyond'))

/-! ### The steps -/

/-- Every fiber that is anywhere exists. -/
theorem State.Owned.exists_ (h : s.Owned) {p : Place} (at' : s.At f p) : ∃ fb, s.fibers f = some fb := by
  cases p with
  | bucket key =>
    obtain ⟨params, -, ⟨fb, here, -⟩, -⟩ := h.cached key f at'
    exact ⟨fb, here⟩
  | var v =>
    obtain ⟨l, here, rfl⟩ := at'
    obtain ⟨fb, here, -⟩ := h.leased v l here
    exact ⟨fb, here⟩
  | call t =>
    obtain ⟨l, here, rfl⟩ := at'
    obtain ⟨fb, here, -⟩ := (h.called t l here).1
    exact ⟨fb, here⟩

/-- A caller goes on without a fiber. -/
theorem State.Owned.at_ (h : s.Owned) (sane : pc ≠ .aborted) (none' : pc.lease = none) : (s.at_ t pc).Owned := by
  refine ⟨h.toKept.at_ sane fun l is => (by cases none'.symm.trans is), fun f p q atP atQ => ?_⟩
  have before {p : Place} (at' : (s.at_ t pc).At f p) : s.At f p := by
    rcases at_at_ at' with ⟨l, -, is, -⟩ | ⟨was, -⟩
    · cases none'.symm.trans is
    · exact was
  exact h.place f p q (before atP) (before atQ)

/-- A variable is emptied. -/
theorem State.Owned.put (h : s.Owned) (empty : ∀ l, var ≠ .lease l) : (s.put v var).Owned := by
  refine ⟨h.toKept.put fun l is => absurd is (empty l), fun f p q atP atQ => ?_⟩
  have before {p : Place} (at' : (s.put v var).At f p) : s.At f p := by
    rcases at_put at' with ⟨l, -, is, -⟩ | ⟨was, -⟩
    · exact absurd is (empty l)
    · exact was
  exact h.place f p q (before atP) (before atQ)

theorem State.Owned.acquire (h : s.Owned) (cb : Bool) (params : Params) : (s.acquire t v cb params).Owned := by
  unfold State.acquire
  split
  · split
    · -- a hit: the fiber leaves its bucket for the call
      rename_i f last
      have ends : s.cache params.key = (s.cache params.key).dropLast ++ [f] :=
        (List.dropLast_append_getLast? f last).symm
      have mem : f ∈ s.cache params.key := List.mem_of_getLast? last
      have left : f ∉ (s.cache params.key).dropLast := by
        have once := h.once params.key
        rw [ends, List.nodup_append] at once
        exact fun there => once.2.2 f there f (List.mem_singleton_self f) rfl
      obtain ⟨built', isKey, built, term⟩ := h.cached params.key f mem
      have leased : s.Built ⟨f, params⟩ := by
        obtain ⟨fb, here, same⟩ := built
        exact ⟨fb, here, same.trans (Params.key_injective isKey)⟩
      have kept : ((s.bucket params.key (s.cache params.key).dropLast).put v .busy).Kept :=
        (h.toKept.bucket ((List.dropLast_sublist _).nodup (h.once _))
          fun g there => h.cached _ g (List.dropLast_subset _ there)).put nofun
      refine ⟨kept.at_ nofun fun l is => ?_, place_of_move h f (.bucket params.key) (.call t) ?_ ?_⟩
      · cases is
        exact ⟨leased, term⟩
      · intro g p other at'
        rcases at_at_ at' with ⟨l, -, is, same⟩ | ⟨at', -⟩
        · cases is
          exact absurd same.symm other
        · rcases at_put at' with ⟨l, -, is, -⟩ | ⟨at', -⟩
          · cases is
          · rcases at_bucket at' with ⟨rfl, there⟩ | ⟨at', -⟩
            · exact List.dropLast_subset _ there
            · exact at'
      · intro p at'
        rcases at_at_ at' with ⟨l, isCall, -, -⟩ | ⟨at', -⟩
        · exact .inl isCall
        · rcases at_put at' with ⟨l, -, is, -⟩ | ⟨at', -⟩
          · cases is
          · rcases at_bucket at' with ⟨-, there⟩ | ⟨at', apart⟩
            · exact absurd there left
            · exact .inr ⟨at', mem, apart⟩
    · have emptied : (s.put v .busy).Owned := h.put nofun
      exact emptied.at_ nofun rfl
  · exact h

theorem State.Owned.make (h : s.Owned) (params : Params) : (s.make t v params).Owned := by
  have fresh {p : Place} (at' : s.At s.created p) : False := by
    obtain ⟨fb, here⟩ := h.exists_ at'
    cases (h.fresh _ (Nat.le_refl _)).symm.trans here
  have built : (s.add ⟨.ready, params.normalized⟩).Built ⟨s.created, params⟩ := ⟨_, Function.update_self .., rfl⟩
  refine ⟨((h.toKept.add _).put fun l is => ?_).at_ nofun nofun,
    place_of_move h s.created (.var v) (.var v) ?_ ?_⟩
  · cases is
    exact built
  · intro g p other at'
    rcases at_at_ at' with ⟨l, -, is, -⟩ | ⟨at', -⟩
    · cases is
    · rcases at_put at' with ⟨l, -, is, same⟩ | ⟨at', -⟩
      · cases is
        exact absurd same.symm other
      · exact at'
  · intro p at'
    rcases at_at_ at' with ⟨l, -, is, -⟩ | ⟨at', -⟩
    · cases is
    · rcases at_put at' with ⟨l, isVar, -, -⟩ | ⟨at', -⟩
      · exact .inl isVar
      · exact (fresh at').elim

/-- `reset` finds the state it asserts, and the fiber goes to the variable. -/
theorem State.Owned.reset (h : s.Owned) (called : (s.pc t).lease = some l) : (s.reset t v l).Owned := by
  obtain ⟨built, term⟩ := h.called t l called
  have here : s.At l.fiber (.call t) := ⟨l, called, rfl⟩
  rw [State.reset, if_pos term]
  have left : (s.at_ t .idle).Kept := h.toKept.at_ nofun nofun
  have ready : ((s.at_ t .idle).setState l.fiber .ready).Kept := by
    refine left.setState (fun key mem => ?_) fun u l' at' same => ?_
    · cases h.place _ (.bucket key) _ mem here
    · rcases at_at_ (p := .call u) ⟨l', at', same⟩ with ⟨l'', -, is, -⟩ | ⟨was, apart⟩
      · cases is
      · exact apart (h.place _ _ _ was here)
  refine ⟨ready.put fun l' is => ?_, place_of_move h l.fiber (.call t) (.var v) ?_ ?_⟩
  · cases is
    exact built_setState built
  · intro g p other at'
    rcases at_at_ at' with ⟨l', -, is, -⟩ | ⟨at', -⟩
    · cases is
    · rcases at_put at' with ⟨l', -, is, same⟩ | ⟨at', -⟩
      · cases is
        exact absurd same.symm other
      · exact at'
  · intro p at'
    rcases at_at_ at' with ⟨l', -, is, -⟩ | ⟨at', apart⟩
    · cases is
    · rcases at_put at' with ⟨l', isVar, -, -⟩ | ⟨at', -⟩
      · exact .inl isVar
      · exact .inr ⟨at', here, apart⟩

theorem State.Owned.release (h : s.Owned) (holds : s.vars v = .lease l) : (s.release t v l).Owned := by
  have here : s.At l.fiber (.var v) := ⟨l, holds, rfl⟩
  unfold State.release
  split
  · rename_i term
    have emptied : (s.put v .busy).Kept := h.toKept.put nofun
    refine ⟨emptied.at_ nofun fun l' is => ?_, place_of_move h l.fiber (.var v) (.call t) ?_ ?_⟩
    · cases is
      exact ⟨h.leased v l holds, term⟩
    · intro g p other at'
      rcases at_at_ at' with ⟨l', -, is, same⟩ | ⟨at', -⟩
      · cases is
        exact absurd same.symm other
      · rcases at_put at' with ⟨l', -, is, -⟩ | ⟨at', -⟩
        · cases is
        · exact at'
    · intro p at'
      rcases at_at_ at' with ⟨l', isCall, -, -⟩ | ⟨at', -⟩
      · exact .inl isCall
      · rcases at_put at' with ⟨l', -, is, -⟩ | ⟨at', apart⟩
        · cases is
        · exact .inr ⟨at', here, apart⟩
  · exact h

/-- The fiber goes to its bucket, unless that is full. -/
theorem State.Owned.push (h : s.Owned) (called : (s.pc t).lease = some l) : (s.push t v l).Owned := by
  obtain ⟨built, term⟩ := h.called t l called
  have here : s.At l.fiber (.call t) := ⟨l, called, rfl⟩
  simp only [State.push]
  split
  · have absent : l.fiber ∉ s.cache l.params.key := fun mem => by
      cases h.place _ (.bucket l.params.key) _ mem here
    have kept : (s.bucket l.params.key (s.cache l.params.key ++ [l.fiber])).Kept := by
      refine h.toKept.bucket ?_ fun g mem => ?_
      · exact (h.once _).append (List.nodup_singleton _) (List.disjoint_singleton.2 absent)
      · rcases List.mem_append.1 mem with old | new
        · exact h.cached _ g old
        · rw [List.mem_singleton.1 new]
          exact ⟨l.params, rfl, built, term⟩
    refine ⟨kept.at_ nofun nofun, place_of_move h l.fiber (.call t) (.bucket l.params.key) ?_ ?_⟩
    · intro g p other at'
      rcases at_at_ at' with ⟨l', -, is, -⟩ | ⟨at', -⟩
      · cases is
      · rcases at_bucket at' with ⟨rfl, there⟩ | ⟨at', -⟩
        · exact (List.mem_append.1 there).resolve_right fun new => other (List.mem_singleton.1 new)
        · exact at'
    · intro p at'
      rcases at_at_ at' with ⟨l', -, is, -⟩ | ⟨at', apart⟩
      · cases is
      · rcases at_bucket at' with ⟨isBucket, -⟩ | ⟨at', -⟩
        · exact .inl isBucket
        · exact .inr ⟨at', here, apart⟩
  · exact h.at_ nofun rfl

theorem State.Owned.run (h : s.Owned) {state : Fiber.State} (unfinished : s.stateOf f ≠ some .term) :
    (s.setState f state).Owned := by
  refine ⟨h.toKept.setState (fun key mem => ?_) fun u l here same => ?_, h.place⟩
  · obtain ⟨params, -, -, term⟩ := h.cached key f mem
    exact unfinished term
  · exact unfinished (same ▸ (h.called u l here).2)

theorem State.Owned.clear (h : s.Owned) : ({ s with cache := fun _ => [] } : State).Owned := by
  refine ⟨⟨fun _ => List.nodup_nil, nofun, h.leased, h.called, h.fresh, h.sane⟩, fun f p q atP atQ => ?_⟩
  have before {p : Place} (at' : ({ s with cache := fun _ => [] } : State).At f p) : s.At f p := by
    cases p with
    | bucket key => cases at'
    | var v => exact at'
    | call u => exact at'
  exact h.place f p q (before atP) (before atQ)

/-- Every step keeps every fiber in one place. -/
theorem State.Owned.step {label : Label} (h : s.Owned) (e : step s label = some s') : s'.Owned := by
  cases label with
  | acquire caller var cb params =>
    simp only [CoroutinePool.step] at e
    split at e <;> cases e
    exact h.acquire cb params
  | make caller =>
    simp only [CoroutinePool.step] at e
    split at e <;> cases e
    exact h.make _
  | reset caller =>
    simp only [CoroutinePool.step] at e
    split at e <;> cases e
    rename_i here
    exact h.reset (by rw [here, Pc.lease])
  | release caller var =>
    simp only [CoroutinePool.step] at e
    split at e <;> cases e
    · exact h
    · rename_i holds
      exact h.release holds
  | push caller =>
    simp only [CoroutinePool.step] at e
    split at e <;> cases e
    rename_i here
    exact h.push (by rw [here, Pc.lease])
  | forget caller =>
    simp only [CoroutinePool.step] at e
    split at e <;> cases e
    rename_i var here
    have emptied : (s.put var .null).Owned := h.put nofun
    exact emptied.at_ nofun rfl
  | setMaxCachedPerKey maxCachedPerKey =>
    cases e
    exact ⟨⟨h.once, h.cached, h.leased, h.called, h.fresh, h.sane⟩, h.place⟩
  | clear =>
    cases e
    exact h.clear
  | run fiber state =>
    simp only [CoroutinePool.step] at e
    split at e <;> cases e
    rename_i runs
    refine h.run fun term => ?_
    rw [term] at runs
    cases state <;> cases runs
  | drop var =>
    simp only [CoroutinePool.step] at e
    split at e <;> cases e
    exact h.put nofun

theorem owned_of_reach {maxCachedPerKey : Nat} (h : (machine maxCachedPerKey).Reach s) : s.Owned :=
  h.invariant (owned_init maxCachedPerKey) fun _ _ _ inv _ e => inv.step e

end Steps

/-! ## The contract -/

/-- Who has an acquired fiber: a variable, or a call that has not returned the
fiber to the pool or to a variable. -/
inductive Holder where
  | var (var : Nat)
  | call (caller : Nat)

def State.holds (s : State) : Holder → Option Lease
  | .var v =>
    match s.vars v with
    | .lease l => some l
    | _ => none
  | .call t => (s.pc t).lease

/-- No fiber has two users. `released` is about `release` itself: it ignores a
fiber that has not finished. -/
structure State.Exclusive (s : State) : Prop where
  finished : ∀ key f, f ∈ s.cache key → s.stateOf f = some .term
  once : ∀ key, (s.cache key).Nodup
  oneBucket : ∀ key key' f, f ∈ s.cache key → f ∈ s.cache key' → key = key'
  asBuilt : ∀ (params : Params) f, f ∈ s.cache params.key → s.Built ⟨f, params⟩
  keyed : ∀ key f, f ∈ s.cache key → ∃ params : Params, params.key = key ∧ s.Built ⟨f, params⟩
  uncached : ∀ holder l, s.holds holder = some l → ∀ key, l.fiber ∉ s.cache key
  distinct : ∀ holder holder' l l', s.holds holder = some l → s.holds holder' = some l' → l.fiber = l'.fiber → holder = holder'
  asAsked : ∀ holder l, s.holds holder = some l → s.Built l
  released : ∀ caller var l, s.pc caller = .idle → s.vars var = .lease l → s.stateOf l.fiber ≠ some .term →
    step s (.release caller var) = some s
  sane : ∀ caller, s.pc caller ≠ .aborted

/-- The place of what a holder has. -/
def Holder.place : Holder → Place
  | var v => .var v
  | call t => .call t

theorem State.at_of_holds {s : State} {holder : Holder} {l : Lease} (h : s.holds holder = some l) :
    s.At l.fiber holder.place := by
  cases holder with
  | var v =>
    simp only [State.holds] at h
    split at h <;> cases h
    rename_i here
    exact ⟨l, here, rfl⟩
  | call t => exact ⟨l, h, rfl⟩

/-- **Main theorem.** The pool never hands one fiber to two users. -/
theorem exclusive (maxCachedPerKey : Nat) (s : State) (h : (machine maxCachedPerKey).Reach s) : s.Exclusive := by
  have owned := owned_of_reach h
  constructor
  case finished =>
    intro key f mem
    obtain ⟨params, -, -, term⟩ := owned.cached key f mem
    exact term
  case once => exact owned.once
  case oneBucket =>
    intro key key' f mem mem'
    exact Place.bucket.inj (owned.place f (.bucket key) (.bucket key') mem mem')
  case asBuilt =>
    intro params f mem
    obtain ⟨params', isKey, ⟨fb, here, built⟩, -⟩ := owned.cached params.key f mem
    exact ⟨fb, here, built.trans (Params.key_injective isKey)⟩
  case keyed =>
    intro key f mem
    obtain ⟨params, isKey, built, -⟩ := owned.cached key f mem
    exact ⟨params, isKey, built⟩
  case uncached =>
    intro holder l holds key mem
    have same := owned.place _ (.bucket key) _ mem (State.at_of_holds holds)
    cases holder <;> cases same
  case distinct =>
    intro holder holder' l l' holds holds' same
    have places := owned.place _ _ _ (State.at_of_holds holds) (same ▸ State.at_of_holds holds')
    cases holder <;> cases holder' <;> cases places <;> rfl
  case asAsked =>
    intro holder l holds
    cases holder with
    | var v =>
      simp only [State.holds] at holds
      split at holds <;> cases holds
      rename_i here
      exact owned.leased v l here
    | call t => exact (owned.called t l holds).1
  case released =>
    intro caller var l idle holds running
    simp only [step, idle, holds, State.release, if_neg running]
  case sane => exact owned.sane

/-- The default stack size, as 0 or as itself. -/
def defaultSize (named : Bool) : Params where
  stacksize := if named then 128000 else 0
  runInScheduler := false
  useSharedStack := false
  small := by cases named <;> decide

/-- A fiber comes back to the pool and goes out again under the other name of
its stack size, beside a new one. -/
def reuse : List Label :=
  [.acquire 0 0 true (defaultSize false), .make 0, .run 0 .running, .run 0 .term, .release 0 0, .push 0, .forget 0,
   .acquire 1 1 true (defaultSize true), .acquire 0 2 true (defaultSize false), .reset 1, .make 0]

theorem exclusive_reused : ∃ s : State, (s.holds (.var 1)).map (·.fiber) = some 0 ∧ (s.holds (.var 2)).map (·.fiber) = some 1 ∧
    s.Exclusive := by
  obtain ⟨s, reached, leases⟩ := Machine.reachIf_of_any (M := machine 1)
    (p := fun s => decide ((s.holds (.var 1)).map (·.fiber) = some 0 ∧ (s.holds (.var 2)).map (·.fiber) = some 1))
    (by decide +kernel : ((machine 1).execIf (fun _ _ => True) (machine 1).init reuse).any _ = true)
  obtain ⟨first, second⟩ := of_decide_eq_true leases
  exact ⟨s, first, second, exclusive 1 s reached⟩

end Mycoroutine.CoroutinePool
