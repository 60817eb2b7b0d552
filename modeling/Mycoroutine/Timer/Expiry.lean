import Mycoroutine.Timer.TimerManager
import Mathlib.Data.Prod.Lex

/-!
# The loop of `listExpiredCb`

The loop drains the set from its front and inserts recurring timers again. It ends, and
fires each timer once, if no recurring timer that it takes is due again at once: there is
no clock rollback, and the timer's new deadline is after `now`. Such a timer is otherwise
in the set for ever.
-/

namespace Mycoroutine.TimerManager
set_option autoImplicit false

/-- `m_timers` is ordered by the comparator, strictly. -/
def State.Ordered (s : State) : Prop := s.timers.Pairwise fun t u => s.before t u = true

/-- The condition of the loop, for one timer. -/
def State.due (s : State) (now : TimePoint) (rollover : Bool) (t : Nat) : Bool :=
  rollover || decide ((s.timer t).next ≤ now)

/-- The loop from `takeExpired` to `takeExpired`; `none` if `n` iterations do not end it. -/
def drain (now : TimePoint) (rollover : Bool) : Nat → State → Option State
  | 0, _ => none
  | n + 1, s =>
    let taken := s.takeExpired now rollover
    if taken.expiring = none then some taken else drain now rollover n taken

/-- `listExpiredCb`, with its two readings of the clock. -/
def State.listExpiredCb (s : State) (now rolloverNow : TimePoint) (n : Nat) : Option State :=
  drain now (s.rollover rolloverNow) n
    { s with expiring := some (now, s.rollover rolloverNow), previouseTime := rolloverNow }

/-- `getNextTimer`: milliseconds, as a `uint64_t`. -/
def State.getNextTimer (s : State) (now : TimePoint) : Nat × State :=
  let value := match s.timers with
    | [] => 2 ^ 64 - 1
    | t :: _ =>
      if (s.timer t).next ≤ now then 0
      else ((int64 ((s.timer t).next - now)).tdiv 1000000 % 2 ^ 64).toNat
  (value, { s with tickled := false })

/-! ## The order of the set -/

section Order

variable {s s' : State} {before : Nat → Nat → Bool} {t u v : Nat} {timers : List Nat}

/-- `Timer::Comparator` orders by the deadline and then by the address. -/
theorem before_iff : s.before t u = true ↔ toLex ((s.timer t).next, t) < toLex ((s.timer u).next, u) := by
  rw [Prod.Lex.toLex_lt_toLex, State.before]
  split
  · rename_i less
    exact iff_of_true rfl (.inl less)
  · split
    · rename_i notLess more
      refine iff_of_false Bool.false_ne_true ?_
      rintro (less | ⟨same, -⟩)
      · exact notLess less
      · exact (ne_of_gt more) same
    · rename_i notLess notMore
      have same : (s.timer t).next = (s.timer u).next := le_antisymm (not_lt.1 notMore) (not_lt.1 notLess)
      rw [decide_eq_true_iff]
      exact ⟨fun less => .inr ⟨same, less⟩, fun either => (either.resolve_left notLess).2⟩

theorem before_trans (first : s.before t u = true) (second : s.before u v = true) : s.before t v = true :=
  before_iff.2 ((before_iff.1 first).trans (before_iff.1 second))

theorem before_next (h : s.before t u = true) : (s.timer t).next ≤ (s.timer u).next := by
  rcases Prod.Lex.toLex_lt_toLex.1 (before_iff.1 h) with less | ⟨same, -⟩
  · exact le_of_lt less
  · exact le_of_eq same

/-- The order of timers other than the one that changed. -/
theorem before_congr (left : s'.timer t = s.timer t) (right : s'.timer u = s.timer u) : s'.before t u = s.before t u := by
  rw [State.before, State.before, left, right]

theorem insertTimer_pairwise (sorted : timers.Pairwise fun t u => s.before t u = true) :
    (insertTimer s.before t timers).Pairwise fun t u => s.before t u = true := by
  induction timers with
  | nil => exact List.pairwise_singleton ..
  | cons v rest ih =>
    obtain ⟨first, later⟩ := List.pairwise_cons.1 sorted
    rw [insertTimer]
    split
    · rename_i less
      refine List.pairwise_cons.2 ⟨fun u mem => ?_, sorted⟩
      rcases List.mem_cons.1 mem with rfl | mem
      · exact less
      · exact before_trans less (first u mem)
    · split
      · rename_i more
        refine List.pairwise_cons.2 ⟨fun u mem => ?_, ih later⟩
        rcases (mem_insertTimer (before_apart s)).1 mem with rfl | mem
        · exact more
        · exact first u mem
      · exact sorted

/-- What a test that the timer fails keeps of the set. -/
theorem filter_insertTimer {p : Nat → Bool} (fails : p t = false) : (insertTimer before t timers).filter p = timers.filter p := by
  induction timers with
  | nil => simp [insertTimer, fails]
  | cons v rest ih =>
    rw [insertTimer]
    split
    · exact List.filter_cons_of_neg (by simp [fails])
    · split
      · rw [List.filter_cons, List.filter_cons, ih]
      · rfl

theorem State.Ordered.nodup (h : s.Ordered) : s.timers.Nodup := by
  refine List.Pairwise.imp (fun {t u} less same => ?_) h
  subst same
  cases (before_irrefl s t).symm.trans less

/-- The set after its front was taken and its key was changed. -/
theorem State.Ordered.rest (h : s.Ordered) {rest : List Nat} (queue : s.timers = t :: rest)
    (others : ∀ u, u ≠ t → s'.timer u = s.timer u) : t ∉ rest ∧ rest.Pairwise fun u v => s'.before u v = true := by
  have nodup := h.nodup
  unfold State.Ordered at h
  rw [queue] at nodup h
  have gone := (List.nodup_cons.1 nodup).1
  have ne {u : Nat} (mem : u ∈ rest) : u ≠ t := fun same => gone (same ▸ mem)
  refine ⟨gone, (List.pairwise_cons.1 h).2.imp_of_mem fun left right less => ?_⟩
  rwa [before_congr (others _ (ne left)) (others _ (ne right))]

/-- If the front is not due, no timer is. -/
theorem State.Ordered.not_due (h : s.Ordered) {rest : List Nat} (queue : s.timers = t :: rest) {now : TimePoint} {rollover : Bool}
    (front : s.due now rollover t = false) : ∀ u ∈ s.timers, s.due now rollover u = false := by
  obtain ⟨off, late⟩ := Bool.or_eq_false_iff.1 front
  have late := of_decide_eq_false late
  intro u mem
  refine Bool.or_eq_false_iff.2 ⟨off, decide_eq_false fun early => late ?_⟩
  unfold State.Ordered at h
  rw [queue] at mem h
  rcases List.mem_cons.1 mem with rfl | mem
  · exact early
  · exact (before_next ((List.pairwise_cons.1 h).1 u mem)).trans early

end Order

/-! ## One iteration -/

/-- The timer that an iteration took, with its fields after it. -/
def State.expired (s : State) (now : TimePoint) (t : Nat) : Timer :=
  if (s.timer t).recurring then { s.timer t with next := addMillis now (s.timer t).ms } else { s.timer t with cb := none }

/-- An iteration that takes the front. -/
structure Takes (now : TimePoint) (s s' : State) (t : Nat) (rest : List Nat) : Prop where
  queue : s.timers = t :: rest
  timer : s'.timer = Function.update s.timer t (s.expired now t)
  timers : s'.timers = if (s.timer t).recurring then insertTimer s'.before t rest else rest
  events : s'.events = s.events ++ [.fired t (s.timer t).cb]
  expiring : s'.expiring = s.expiring

section Iteration

variable {s s' : State} {now : TimePoint} {rollover : Bool} {t u : Nat} {rest : List Nat}

theorem takes_of_due (queue : s.timers = t :: rest) (front : s.due now rollover t = true) :
    Takes now s (s.takeExpired now rollover) t rest := by
  have front : (rollover || decide ((s.timer t).next ≤ now)) = true := front
  unfold State.takeExpired
  rw [queue]
  simp only [front, if_true]
  split
  · rename_i recurs
    refine ⟨queue, ?_, (if_pos recurs).symm, rfl, rfl⟩
    rw [State.expired, if_pos recurs]
    rfl
  · rename_i once
    refine ⟨queue, ?_, (if_neg once).symm, rfl, rfl⟩
    rw [State.expired, if_neg once]
    rfl

theorem ends_of_not_due (h : s.Ordered) (front : ∀ t rest, s.timers = t :: rest → s.due now rollover t = false) :
    s.takeExpired now rollover = { s with expiring := none } ∧ ∀ u ∈ s.timers, s.due now rollover u = false := by
  unfold State.takeExpired
  cases queue : s.timers with
  | nil => exact ⟨rfl, nofun⟩
  | cons t rest =>
    have late := front t rest queue
    refine ⟨?_, queue ▸ h.not_due queue late⟩
    have late : (rollover || decide ((s.timer t).next ≤ now)) = false := late
    simp only [late, Bool.false_eq_true, if_false]

theorem Takes.other (h : Takes now s s' t rest) (ne : u ≠ t) : s'.timer u = s.timer u := by
  rw [h.timer, Function.update_of_ne ne]

theorem Takes.self (h : Takes now s s' t rest) : s'.timer t = s.expired now t := by
  rw [h.timer, Function.update_self]

theorem Takes.ordered (h : Takes now s s' t rest) (ordered : s.Ordered) : s'.Ordered := by
  obtain ⟨-, sorted⟩ := ordered.rest h.queue fun u => h.other (u := u)
  unfold State.Ordered
  rw [h.timers]
  split
  · exact insertTimer_pairwise sorted
  · exact sorted

theorem Takes.mem (h : Takes now s s' t rest) (ordered : s.Ordered) :
    u ∈ s'.timers ↔ u ∈ s.timers ∧ (u = t → (s.timer t).recurring = true) := by
  obtain ⟨gone, -⟩ := ordered.rest h.queue fun u => h.other (u := u)
  rw [h.timers, h.queue, List.mem_cons]
  split
  · rename_i recurs
    rw [mem_insertTimer (before_apart s')]
    exact (and_iff_left fun _ => recurs).symm
  · rename_i once
    constructor
    · exact fun mem => ⟨.inr mem, fun same => absurd (same ▸ mem) gone⟩
    · exact fun ⟨mem, recurs⟩ => mem.resolve_left fun same => once (recurs same)

theorem Takes.due (h : Takes now s s' t rest) (ne : u ≠ t) : s'.due now rollover u = s.due now rollover u := by
  rw [State.due, State.due, h.other ne]

end Iteration

/-! ## The loop -/

/-- No recurring timer that the loop takes is due again. -/
def State.Passes (s : State) (now : TimePoint) (rollover : Bool) : Prop :=
  ∀ t ∈ s.timers, s.due now rollover t = true → (s.timer t).recurring = true →
    rollover = false ∧ now < addMillis now (s.timer t).ms

/-- What the loop leaves. -/
structure Expired (now : TimePoint) (rollover : Bool) (s s' : State) : Prop where
  fired : s'.events = s.events ++ (s.timers.filter (s.due now rollover)).map fun t => .fired t (s.timer t).cb
  ordered : s'.Ordered
  mem : ∀ t, t ∈ s'.timers ↔ t ∈ s.timers ∧ (s.due now rollover t = true → (s.timer t).recurring = true)
  timer : ∀ t, s'.timer t = if t ∈ s.timers ∧ s.due now rollover t = true then s.expired now t else s.timer t
  none_due : ∀ t ∈ s'.timers, s'.due now rollover t = false

section Loop

variable {s s' s'' : State} {now : TimePoint} {rollover : Bool} {t u : Nat} {rest : List Nat}

/-- A timer that was taken and inserted again is not due. -/
theorem Takes.waits (h : Takes now s s' t rest) (passes : s.Passes now rollover) (front : s.due now rollover t = true)
    (recurs : (s.timer t).recurring = true) : s'.due now rollover t = false := by
  obtain ⟨off, late⟩ := passes t (h.queue ▸ List.mem_cons_self) front recurs
  refine Bool.or_eq_false_iff.2 ⟨off, decide_eq_false (not_le.2 ?_)⟩
  rw [h.self, State.expired, if_pos recurs]
  exact late

/-- The timers that are due after an iteration: those before it, but for the first. -/
theorem Takes.filter (h : Takes now s s' t rest) (ordered : s.Ordered) (passes : s.Passes now rollover)
    (front : s.due now rollover t = true) :
    s.timers.filter (s.due now rollover) = t :: s'.timers.filter (s'.due now rollover) := by
  obtain ⟨gone, -⟩ := ordered.rest h.queue fun u => h.other (u := u)
  have same : rest.filter (s'.due now rollover) = rest.filter (s.due now rollover) :=
    List.filter_congr fun u mem => h.due fun same => gone (same ▸ mem)
  rw [h.queue, List.filter_cons_of_pos front, h.timers, ← same]
  split
  · rename_i recurs
    rw [filter_insertTimer (h.waits passes front recurs)]
  · rfl

theorem Takes.passes (h : Takes now s s' t rest) (ordered : s.Ordered) (passes : s.Passes now rollover)
    (front : s.due now rollover t = true) : s'.Passes now rollover := by
  intro u mem early recurs
  obtain ⟨before, again⟩ := (h.mem ordered).1 mem
  by_cases same : u = t
  · subst same
    cases (h.waits passes front (again rfl)).symm.trans early
  · rw [h.due same] at early
    rw [h.other same] at recurs ⊢
    exact passes u before early recurs

/-- The rest of the loop after an iteration. -/
theorem Takes.expired (h : Takes now s s' t rest) (ordered : s.Ordered) (passes : s.Passes now rollover)
    (front : s.due now rollover t = true) (after : Expired now rollover s' s'') : Expired now rollover s s'' := by
  have first : t ∈ s.timers := h.queue ▸ List.mem_cons_self
  have mem {u : Nat} (ne : u ≠ t) : u ∈ s'.timers ↔ u ∈ s.timers := by
    rw [h.mem ordered]
    exact and_iff_left fun same => absurd same ne
  -- the timer is not taken again
  have settled : ¬ (t ∈ s'.timers ∧ s'.due now rollover t = true) := fun ⟨again, early⟩ => by
    have recurs := ((h.mem ordered).1 again).2 rfl
    cases (h.waits passes front recurs).symm.trans early
  constructor
  case fired =>
    rw [after.fired, h.events, h.filter ordered passes front, List.map_cons, List.append_assoc, List.singleton_append]
    refine congrArg (s.events ++ _ :: ·) (List.map_congr_left fun u found => ?_)
    have taken := List.mem_filter.1 found
    have ne : u ≠ t := fun same => settled (same ▸ taken)
    rw [h.other ne]
  case ordered => exact after.ordered
  case mem =>
    intro u
    rw [after.mem u]
    by_cases same : u = t
    · subst same
      rw [h.mem ordered]
      constructor
      · exact fun ⟨⟨before, recurs⟩, _⟩ => ⟨before, fun _ => recurs rfl⟩
      · intro ⟨before, recurs⟩
        refine ⟨⟨before, fun _ => recurs front⟩, fun early => ?_⟩
        exact absurd ⟨(h.mem ordered).2 ⟨before, fun _ => recurs front⟩, early⟩ settled
    · rw [mem same, h.due same, h.other same]
  case timer =>
    intro u
    rw [after.timer u]
    by_cases same : u = t
    · subst same
      rw [if_neg settled, if_pos ⟨first, front⟩, h.self]
    · simp only [mem same, h.due same, State.expired, h.other same]
  case none_due => exact after.none_due

/-- If no timer is due, the iteration ends the loop. -/
theorem drain_end (n : Nat) (ordered : s.Ordered) (late : ∀ t rest, s.timers = t :: rest → s.due now rollover t = false) :
    ∃ s', drain now rollover (n + 1) s = some s' ∧ Expired now rollover s s' := by
  obtain ⟨ends, none'⟩ := ends_of_not_due ordered late
  have nothing : s.timers.filter (s.due now rollover) = [] :=
    List.filter_eq_nil_iff.2 fun t mem => Bool.eq_false_iff.1 (none' t mem)
  refine ⟨{ s with expiring := none }, ?_, ?_, ordered, fun t => ?_, fun t => ?_, none'⟩
  · unfold drain
    rw [ends]
    rfl
  · rw [nothing, List.map_nil, List.append_nil]
  · exact (and_iff_left_of_imp fun mem early => absurd early (Bool.eq_false_iff.1 (none' t mem))).symm
  · exact (if_neg fun ⟨mem, early⟩ => Bool.eq_false_iff.1 (none' t mem) early).symm

theorem drain_takes (h : Takes now s (s.takeExpired now rollover) t rest) (active : s.expiring ≠ none) (n : Nat) :
    drain now rollover (n + 1) s = drain now rollover n (s.takeExpired now rollover) := by
  have goes : (s.takeExpired now rollover).expiring ≠ none := by
    rw [h.expiring]
    exact active
  rw [drain, if_neg goes]

/-- The loop ends after as many iterations as timers are due, and one. -/
theorem drain_passes (n : Nat) (s : State) (ordered : s.Ordered) (active : s.expiring ≠ none) (passes : s.Passes now rollover)
    (enough : (s.timers.filter (s.due now rollover)).length ≤ n) :
    ∃ s', drain now rollover (n + 1) s = some s' ∧ Expired now rollover s s' := by
  induction n generalizing s with
  | zero =>
    have none' := List.filter_eq_nil_iff.1 (List.length_eq_zero_iff.1 (Nat.le_zero.1 enough))
    refine drain_end 0 ordered fun t rest queue => ?_
    exact Bool.eq_false_iff.2 (none' t (queue ▸ List.mem_cons_self))
  | succ n ih =>
    by_cases late : ∀ t rest, s.timers = t :: rest → s.due now rollover t = false
    · exact drain_end (n + 1) ordered late
    · push Not at late
      obtain ⟨t, rest, queue, front⟩ := late
      have front := Bool.eq_true_of_not_eq_false front
      have takes := takes_of_due queue front
      have fewer : ((s.takeExpired now rollover).timers.filter ((s.takeExpired now rollover).due now rollover)).length ≤ n := by
        rw [takes.filter ordered passes front, List.length_cons] at enough
        omega
      rw [drain_takes takes active]
      obtain ⟨s', run, after⟩ :=
        ih _ (takes.ordered ordered) (takes.expiring ▸ active) (takes.passes ordered passes front) fewer
      exact ⟨s', run, takes.expired ordered passes front after⟩

/-- A recurring timer that is due, and due again when it is inserted. -/
structure Stuck (now : TimePoint) (rollover : Bool) (t : Nat) (s : State) : Prop where
  ordered : s.Ordered
  active : s.expiring ≠ none
  mem : t ∈ s.timers
  early : s.due now rollover t = true
  recurs : (s.timer t).recurring = true
  again : rollover = true ∨ addMillis now (s.timer t).ms ≤ now

/-- The front is due as well. -/
theorem Stuck.front (h : Stuck now rollover t s) : ∃ u rest, s.timers = u :: rest ∧ s.due now rollover u = true := by
  cases queue : s.timers with
  | nil => cases queue ▸ h.mem
  | cons u rest =>
    refine ⟨u, rest, rfl, Bool.eq_true_of_not_eq_false fun late => ?_⟩
    cases (h.ordered.not_due queue late t h.mem).symm.trans h.early

theorem Stuck.takes (h : Stuck now rollover t s) (takes : Takes now s s' u rest) : Stuck now rollover t s' := by
  have expiring : s'.expiring ≠ none := by
    rw [takes.expiring]
    exact h.active
  have ordered := takes.ordered h.ordered
  by_cases same : t = u
  · subst same
    have own : s'.timer t = { s.timer t with next := addMillis now (s.timer t).ms } := by
      rw [takes.self, State.expired, if_pos h.recurs]
    refine ⟨ordered, expiring, (takes.mem h.ordered).2 ⟨h.mem, fun _ => h.recurs⟩, ?_, by rw [own]; exact h.recurs,
      by rw [own]; exact h.again⟩
    rw [State.due, own]
    rcases h.again with rfl | early
    · rfl
    · exact Bool.or_eq_true_iff.2 (.inr (decide_eq_true early))
  · refine ⟨ordered, expiring, (takes.mem h.ordered).2 ⟨h.mem, fun here => absurd here same⟩, ?_, ?_, ?_⟩
    · rw [takes.due same]
      exact h.early
    · rw [takes.other same]
      exact h.recurs
    · rw [takes.other same]
      exact h.again

/-- The loop never ends. -/
theorem Stuck.drain (n : Nat) (h : Stuck now rollover t s) : drain now rollover n s = none := by
  induction n generalizing s with
  | zero => rfl
  | succ n ih =>
    obtain ⟨u, rest, queue, front⟩ := h.front
    have takes := takes_of_due queue front
    rw [drain_takes takes h.active]
    exact ih (h.takes takes)

/-- The loop as steps of the machine. -/
theorem exec_drain (n : Nat) (active : s.expiring = some (now, rollover)) (run : drain now rollover n s = some s') :
    ∃ k, machine.exec s (List.replicate k .takeExpired) = some s' := by
  induction n generalizing s with
  | zero => cases run
  | succ n ih =>
    have step : machine.step s .takeExpired = some (s.takeExpired now rollover) := by
      show s.expiring.map _ = _
      rw [active, Option.map_some]
    rw [drain] at run
    split at run
    · exact ⟨1, by rw [List.replicate_one, Interleave.Machine.exec_cons, step]; exact run⟩
    · rename_i goes
      have still : (s.takeExpired now rollover).expiring = some (now, rollover) := by
        by_cases ordered : ∃ t rest, s.timers = t :: rest ∧ s.due now rollover t = true
        · obtain ⟨t, rest, queue, front⟩ := ordered
          rw [(takes_of_due queue front).expiring, active]
        · refine absurd ?_ goes
          unfold State.takeExpired
          split
          · rfl
          · rename_i t rest queue
            have late : ¬ (rollover || decide ((s.timer t).next ≤ now)) = true := fun front => ordered ⟨t, rest, queue, front⟩
            rw [if_neg late]
      obtain ⟨k, rest⟩ := ih still run
      exact ⟨k + 1, by rw [List.replicate_succ, Interleave.Machine.exec_cons, step]; exact rest⟩

/-- A call of `listExpiredCb` that returns is a run of the machine. -/
theorem exec_listExpiredCb {rolloverNow : TimePoint} {n : Nat} (free : s.expiring = none)
    (run : s.listExpiredCb now rolloverNow n = some s') :
    ∃ k, machine.exec s (.listExpired now rolloverNow :: List.replicate k .takeExpired) = some s' := by
  obtain ⟨k, rest⟩ := exec_drain n rfl run
  refine ⟨k, ?_⟩
  have step : machine.step s (.listExpired now rolloverNow) =
      some { s with expiring := some (now, s.rollover rolloverNow), previouseTime := rolloverNow } := if_pos free
  rw [Interleave.Machine.exec_cons, step]
  exact rest

end Loop

/-! ## `listExpiredCb` -/

/-- A call returned, and appended the callbacks of `ts`. -/
def Lists (s : State) (now rolloverNow : TimePoint) (ts : List Nat) (s' : State) : Prop :=
  (∃ n, s.listExpiredCb now rolloverNow n = some s') ∧ s'.events = s.events ++ ts.map fun t => .fired t (s.timer t).cb

instance (s : State) (now : TimePoint) (rollover : Bool) : Decidable (s.Passes now rollover) := by
  unfold State.Passes
  infer_instance

instance (s : State) : Decidable s.Ordered := by
  unfold State.Ordered
  infer_instance

section Calls

variable {s s' : State} {now rolloverNow : TimePoint}

/-- A call returns and leaves what the loop leaves. -/
theorem lists_of_passes (ordered : s.Ordered) (passes : s.Passes now (s.rollover rolloverNow)) :
    ∃ s', Lists s now rolloverNow (s.timers.filter (s.due now (s.rollover rolloverNow))) s' ∧
      Expired now (s.rollover rolloverNow)
        { s with expiring := some (now, s.rollover rolloverNow), previouseTime := rolloverNow } s' := by
  obtain ⟨s', run, after⟩ := drain_passes _
    { s with expiring := some (now, s.rollover rolloverNow), previouseTime := rolloverNow } ordered nofun passes le_rfl
  exact ⟨s', ⟨⟨_, run⟩, after.fired⟩, after⟩

theorem never_lists (ordered : s.Ordered) (again : ¬ s.Passes now (s.rollover rolloverNow)) (n : Nat) :
    s.listExpiredCb now rolloverNow n = none := by
  unfold State.Passes at again
  push Not at again
  obtain ⟨t, mem, early, recurs, again⟩ := again
  refine Stuck.drain (t := t) n ⟨ordered, nofun, mem, early, recurs, ?_⟩
  cases rolled : s.rollover rolloverNow with
  | true => exact .inl rfl
  | false => exact .inr (again rolled)

end Calls

/-- **Main theorem.** The call returns, and appends each timer's callback once at most,
exactly if no recurring timer that it takes is due again: nothing recurs after a clock
rollback, and what recurs has its new deadline after `now`. -/
theorem lists_each_once (s : State) (ordered : s.Ordered) (now rolloverNow : TimePoint) :
    (∃ ts s', Lists s now rolloverNow ts s' ∧ ts.Nodup) ↔ s.Passes now (s.rollover rolloverNow) := by
  constructor
  · rintro ⟨ts, s', ⟨⟨n, run⟩, -⟩, -⟩
    by_contra again
    cases (never_lists ordered again n).symm.trans run
  · intro passes
    obtain ⟨s', lists, -⟩ := lists_of_passes ordered passes
    exact ⟨_, s', lists, ordered.nodup.filter _⟩

/-- A recurring timer and a one-shot one, both due. -/
theorem lists_each_once_both : ∃ s, machine.Reach s ∧ s.timers = [8, 7] ∧
    ∃ ts s', Lists s 12000000 12000000 ts s' ∧ ts.Nodup := by
  have reached := Interleave.Machine.reach_of_exec (rfl : machine.exec machine.init
    [.addTimer 7 10 1 false 0, .addTimer 8 5 2 true 0] = some _)
  exact ⟨_, reached, rfl, (lists_each_once _ (by decide) 12000000 12000000).2 (by decide)⟩

/-- A recurring timer of 0 ms keeps the loop running, and so does any recurring timer
once the clock was set back by more than an hour. -/
theorem recurs_for_ever : (¬ ∀ s now rolloverNow, State.Ordered s → ∃ ts s', Lists s now rolloverNow ts s' ∧ ts.Nodup) ∧
    (∃ s, machine.Reach s ∧ s.rollover 0 = false ∧ ∀ n, s.listExpiredCb 0 0 n = none) ∧
    ∃ s, machine.Reach s ∧ (s.timer 7).ms = 10 ∧ s.rollover (-3600000000001) = true ∧
      ∀ n, s.listExpiredCb (-3600000000001) (-3600000000001) n = none := by
  have zero : ∃ s, machine.Reach s ∧ s.Ordered ∧ s.rollover 0 = false ∧ ∀ n, s.listExpiredCb 0 0 n = none := by
    have reached := Interleave.Machine.reach_of_exec (rfl : machine.exec machine.init [.addTimer 7 0 1 true 0] = some _)
    exact ⟨_, reached, by decide, by decide, never_lists (by decide) (by decide)⟩
  obtain ⟨s, reached, ordered, forward, never⟩ := zero
  refine ⟨fun all => ?_, ⟨s, reached, forward, never⟩, ?_⟩
  · obtain ⟨ts, s', ⟨⟨n, run⟩, -⟩, -⟩ := all s 0 0 ordered
    cases (never n).symm.trans run
  · have back := Interleave.Machine.reach_of_exec (rfl : machine.exec machine.init [.addTimer 7 10 1 true 0] = some _)
    exact ⟨_, back, rfl, by decide, never_lists (by decide) (by decide)⟩

/-! ## The timers that are due -/

/-- A 64-bit result that does not overflow. -/
def Fits (x : Int) : Prop := -2 ^ 63 ≤ x ∧ x < 2 ^ 63

theorem int64_of_fits {x : Int} (fits : Fits x) : int64 x = x := Int.bmod_eq_of_le fits.1 fits.2

/-- The sum wraps once. -/
theorem addMillis_eq (now : TimePoint) (ms : Nat) : addMillis now ms = int64 (now + ms * 1000000) := by
  simp only [addMillis, int64, Int.bmod_mul_bmod, Int.add_bmod_bmod]

theorem addMillis_of_fits {now : TimePoint} {ms : Nat} (fits : Fits (now + ms * 1000000)) :
    addMillis now ms = now + ms * 1000000 := by
  rw [addMillis_eq]
  exact int64_of_fits fits

/-- A number that is not too small only loses when it wraps. -/
theorem int64_le {x : Int} (low : -2 ^ 63 ≤ x) : int64 x ≤ x := by
  rw [int64, Int.bmod_def]
  split <;> omega

/-- A timer of no more than the time `d` that is asked for is never early exactly if it is of
that time and its deadline does not overflow. -/
theorem le_addMillis_iff {now d : Int} {ms : Nat} (low : -2 ^ 63 ≤ now) (le : (ms : Int) * 1000000 ≤ d) :
    now + d ≤ addMillis now ms ↔ (ms : Int) * 1000000 = d ∧ now + d < 2 ^ 63 := by
  rw [addMillis_eq]
  constructor
  · intro late
    have kept : int64 (now + ms * 1000000) ≤ now + ms * 1000000 := int64_le (by omega)
    have below : int64 (now + ms * 1000000) < 2 ^ 63 := Int.bmod_lt (by decide)
    exact ⟨by omega, by omega⟩
  · rintro ⟨rfl, below⟩
    exact (int64_of_fits ⟨by omega, below⟩).ge

/-- What a call does that collects the timers `ts`. The time left until the next timer is a
64-bit number as long as the readings are not too far apart. -/
structure Collects (s : State) (now : TimePoint) (ts : List Nat) (s' : State) : Prop where
  exactly : ∀ t, t ∈ ts ↔ t ∈ s.timers ∧ (s.timer t).next ≤ now
  once : ts.Nodup
  inOrder : ts.Pairwise fun t u => toLex ((s.timer t).next, t) < toLex ((s.timer u).next, u)
  oneShot : ∀ t ∈ ts, (s.timer t).recurring = false → t ∉ s'.timers ∧ s'.timer t = { s.timer t with cb := none }
  recurring : ∀ t ∈ ts, (s.timer t).recurring = true →
    s'.timers.count t = 1 ∧ s'.timer t = { s.timer t with next := now + (s.timer t).ms * 1000000 }
  others : ∀ t, t ∉ ts → s'.timer t = s.timer t ∧ s'.timers.count t = s.timers.count t
  ordered : s'.Ordered
  next : (s'.getNextTimer now).1 = 0 → ∃ t, s'.timers.head? = some t ∧
    (Fits ((s'.timer t).next - now) → (s'.timer t).next - now < 1000000)

/-- Only a duration under 1 ms is 0 in milliseconds. -/
theorem lt_of_millis_zero {d : Int} (positive : 0 ≤ d) (bound : d < 2 ^ 63) (zero : (d.tdiv 1000000 % 2 ^ 64).toNat = 0) :
    d < 1000000 := by
  rw [Int.tdiv_eq_ediv_of_nonneg positive] at zero
  omega

theorem getNextTimer_zero {s : State} {now : TimePoint} (late : ∀ t ∈ s.timers, now < (s.timer t).next)
    (zero : (s.getNextTimer now).1 = 0) : ∃ t, s.timers.head? = some t ∧
      (Fits ((s.timer t).next - now) → (s.timer t).next - now < 1000000) := by
  cases queue : s.timers with
  | nil => simp [State.getNextTimer, queue] at zero
  | cons t rest =>
    refine ⟨t, rfl, fun fits => ?_⟩
    have later := late t (queue ▸ List.mem_cons_self)
    simp only [State.getNextTimer, queue, if_neg (not_le.2 later), int64_of_fits fits] at zero
    exact lt_of_millis_zero (Int.sub_nonneg_of_le (Int.le_of_lt later)) fits.2 zero

/-- **Main theorem.** Without a clock rollback, where the recurring timers have a positive
interval whose addition to `now` does not overflow. -/
theorem collects_due (s : State) (ordered : s.Ordered) (now rolloverNow : TimePoint) (forward : s.rollover rolloverNow = false)
    (recurs : ∀ t ∈ s.timers, (s.timer t).recurring = true → 0 < (s.timer t).ms ∧ Fits (now + (s.timer t).ms * 1000000)) :
    ∃ ts s', Lists s now rolloverNow ts s' ∧ Collects s now ts s' := by
  have later (t : Nat) (mem : t ∈ s.timers) (recurring : (s.timer t).recurring = true) :
      addMillis now (s.timer t).ms = now + (s.timer t).ms * 1000000 := addMillis_of_fits (recurs t mem recurring).2
  have passes : s.Passes now (s.rollover rolloverNow) := by
    intro t mem _ recurring
    refine ⟨forward, ?_⟩
    have positive := (recurs t mem recurring).1
    rw [later t mem recurring]
    exact Int.lt_add_of_pos_right now (by omega)
  obtain ⟨s', lists, after⟩ := lists_of_passes ordered passes
  rw [forward] at lists after
  have due (t : Nat) : s.due now false t = true ↔ (s.timer t).next ≤ now := by
    rw [State.due, Bool.false_or, decide_eq_true_iff]
  have exactly (t : Nat) : t ∈ s.timers.filter (s.due now false) ↔ t ∈ s.timers ∧ (s.timer t).next ≤ now := by
    rw [List.mem_filter, due]
  have mem (t : Nat) : t ∈ s'.timers ↔ t ∈ s.timers ∧ (s.due now false t = true → (s.timer t).recurring = true) := after.mem t
  have timer (t : Nat) : s'.timer t = if t ∈ s.timers ∧ s.due now false t = true then s.expired now t else s.timer t :=
    after.timer t
  refine ⟨_, s', lists, exactly, ordered.nodup.filter _, ?_, ?_, ?_, ?_, after.ordered, ?_⟩
  · exact (ordered.imp before_iff.1).filter _
  · intro t found once
    obtain ⟨here, early⟩ := List.mem_filter.1 found
    constructor
    · exact fun still => by cases once.symm.trans (((mem t).1 still).2 early)
    · rw [timer, if_pos ⟨here, early⟩, State.expired, if_neg (Bool.eq_false_iff.1 once)]
  · intro t found recurring
    obtain ⟨here, early⟩ := List.mem_filter.1 found
    constructor
    · rw [after.ordered.nodup.count, if_pos ((mem t).2 ⟨here, fun _ => recurring⟩)]
    · rw [timer, if_pos ⟨here, early⟩, State.expired, if_pos recurring, later t here recurring]
  · intro t missed
    have unmet : ¬ (t ∈ s.timers ∧ s.due now false t = true) := fun both => missed (List.mem_filter.2 both)
    constructor
    · rw [timer, if_neg unmet]
    · have same : t ∈ s'.timers ↔ t ∈ s.timers := by
        rw [mem]
        exact and_iff_left_of_imp fun here early => absurd ⟨here, early⟩ unmet
      by_cases here : t ∈ s.timers
      · rw [ordered.nodup.count, after.ordered.nodup.count, if_pos here, if_pos (same.2 here)]
      · rw [List.count_eq_zero_of_not_mem here, List.count_eq_zero_of_not_mem (mt same.1 here)]
  · refine getNextTimer_zero fun t still => ?_
    have late : s'.due now false t = false := after.none_due t still
    rw [State.due, Bool.false_or] at late
    exact not_le.1 (of_decide_eq_false late)

/-- Two timers are due at the same time, and a third is not due. -/
theorem collects_due_tie : ∃ s, machine.Reach s ∧ s.timers = [7, 8, 9] ∧
    ∃ ts s', Lists s 10000000 10000000 ts s' ∧ Collects s 10000000 ts s' := by
  have reached := Interleave.Machine.reach_of_exec (rfl : machine.exec machine.init
    [.addTimer 8 10 1 true 0, .addTimer 9 20 2 true 0, .addTimer 7 10 3 false 0] = some _)
  refine ⟨_, reached, rfl, collects_due _ (by decide) _ _ (by decide) ?_⟩
  unfold Fits
  decide

end Mycoroutine.TimerManager
