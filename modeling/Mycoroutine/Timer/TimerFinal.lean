import Mycoroutine.Timer.TimerManager

/-!
# A timer fires or is cancelled

The callback field is what tells whether a timer still acts: `cancel` and the
firing of a one-shot timer empty it, nothing but the constructor fills it, and
`cancel`, `refresh` and a firing that counts need it. So no event of a timer
follows one that ends it, whatever the set holds.
-/

namespace Mycoroutine.TimerManager
set_option autoImplicit false
open Interleave

def Event.timer : Event → Nat
  | .fired t _ | .cancelled t | .refreshed t | .wasReset t => t

/-- The event is a callback appended, or a `cancel` or `refresh` that returned
true. -/
def Event.Acts : Event → Prop
  | .fired _ cb => cb ≠ none
  | .cancelled _ | .refreshed _ => True
  | .wasReset _ => False

/-- The event ends its timer: a `cancel`, or the callback of a one-shot timer. -/
def Event.Ends (recurring : Bool) : Event → Prop
  | .fired _ cb => cb ≠ none ∧ recurring = false
  | .cancelled _ => True
  | _ => False

structure Final (s : State) : Prop where
  known : ∀ e ∈ s.events, e.timer ∈ s.created
  dead : ∀ e ∈ s.events, e.Ends (s.timer e.timer).recurring → (s.timer e.timer).cb = none
  inOrder : s.events.Pairwise fun earlier later =>
    earlier.timer = later.timer → earlier.Ends (s.timer earlier.timer).recurring → ¬ later.Acts
  fromSet : ∀ t ∈ s.timers, t ∈ s.created
  fromReset : ∀ thread t, s.pc thread = .insert t ∨ (∃ ms fromNow, s.pc thread = .update t ms fromNow) →
    t ∈ s.created

section Steps

variable {s s' : State} {t : Nat}

theorem final_init : Final machine.init := by
  constructor <;> simp [machine]

/-- The timers that exist keep their kind, and none gets a callback back. -/
structure Ages (s s' : State) : Prop where
  recurs : ∀ t ∈ s.created, (s'.timer t).recurring = (s.timer t).recurring
  dead : ∀ t ∈ s.created, (s.timer t).cb = none → (s'.timer t).cb = none
  known : ∀ t ∈ s.created, t ∈ s'.created

theorem Ages.of_same (timer : s'.timer = s.timer) (created : s'.created = s.created) : Ages s s' := by
  refine ⟨fun u _ => by rw [timer], fun u _ dead => by rw [timer, dead], fun u known => created ▸ known⟩

theorem Ages.update (timer : Timer) (recurs : timer.recurring = (s.timer t).recurring)
    (dead : (s.timer t).cb = none → timer.cb = none) (same : s'.timer = Function.update s.timer t timer)
    (known : s'.created = s.created) : Ages s s' := by
  refine ⟨fun u _ => ?_, fun u _ => ?_, fun u mem => known ▸ mem⟩
  · by_cases mine : u = t
    · rw [same, mine, Function.update_self, recurs]
    · rw [same, Function.update_of_ne mine]
  · by_cases mine : u = t
    · rw [same, mine, Function.update_self]
      exact dead
    · rw [same, Function.update_of_ne mine]
      exact id

/-- The events so far stay in order. -/
theorem Final.keep (h : Final s) (ages : Ages s s') (events : s'.events = s.events)
    (fromSet : ∀ t ∈ s'.timers, t ∈ s'.created)
    (fromReset : ∀ thread t, s'.pc thread = .insert t ∨ (∃ ms fromNow, s'.pc thread = .update t ms fromNow) →
      t ∈ s'.created) : Final s' where
  known e mem := ages.known _ (h.known e (events ▸ mem))
  dead e mem ends := by
    rw [events] at mem
    have known := h.known e mem
    exact ages.dead _ known (h.dead e mem (ages.recurs _ known ▸ ends))
  inOrder := by
    rw [events]
    refine h.inOrder.imp_of_mem fun mem _ order same ends => ?_
    exact order same (ages.recurs _ (h.known _ mem) ▸ ends)
  fromSet := fromSet
  fromReset := fromReset

/-- An event of a timer that still had its callback is logged. -/
theorem Final.log {e : Event} (h : Final s) (ages : Ages s s') (events : s'.events = s.events ++ [e])
    (known : e.timer ∈ s.created) (acts : e.Acts → (s.timer e.timer).cb ≠ none)
    (ends : e.Ends (s.timer e.timer).recurring → (s'.timer e.timer).cb = none)
    (fromSet : ∀ t ∈ s'.timers, t ∈ s'.created)
    (fromReset : ∀ thread t, s'.pc thread = .insert t ∨ (∃ ms fromNow, s'.pc thread = .update t ms fromNow) →
      t ∈ s'.created) : Final s' where
  known e' mem := by
    rw [events, List.mem_append, List.mem_singleton] at mem
    rcases mem with old | rfl
    · exact ages.known _ (h.known e' old)
    · exact ages.known _ known
  dead e' mem isEnd := by
    rw [events, List.mem_append, List.mem_singleton] at mem
    rcases mem with old | rfl
    · have before := h.known e' old
      exact ages.dead _ before (h.dead e' old (ages.recurs _ before ▸ isEnd))
    · exact ends (ages.recurs _ known ▸ isEnd)
  inOrder := by
    rw [events, List.pairwise_append]
    refine ⟨?_, List.pairwise_singleton .., ?_⟩
    · refine h.inOrder.imp_of_mem fun mem _ order same isEnd => ?_
      exact order same (ages.recurs _ (h.known _ mem) ▸ isEnd)
    · intro earlier old later new same isEnd acting
      rw [List.mem_singleton.1 new] at same acting
      have before := h.known earlier old
      have gone := h.dead earlier old (ages.recurs _ before ▸ isEnd)
      exact acts acting (same ▸ gone)
  fromSet := fromSet
  fromReset := fromReset

theorem Final.move {l : Label} (h : Final s) (move : Moves s l s') : Final s' := by
  have other {thread : Nat} {p : Pc} (q : ∀ t, p ≠ .insert t ∧ ∀ ms fromNow, p ≠ .update t ms fromNow) (v t : Nat)
      (here : Function.update s.pc thread p v = .insert t ∨
        ∃ ms fromNow, Function.update s.pc thread p v = .update t ms fromNow) : t ∈ s.created := by
    by_cases mine : v = thread
    · rw [mine, Function.update_self] at here
      rcases here with here | ⟨ms, fromNow, here⟩
      · exact absurd here (q t).1
      · exact absurd here ((q t).2 ms fromNow)
    · rw [Function.update_of_ne mine] at here
      exact h.fromReset v t here
  cases move with
  | added t ms cb recurring now new timers tickled ins =>
    have old : ∀ u ∈ s.created, u ≠ t := fun u mem same => new (same ▸ mem)
    refine h.keep ⟨fun u mem => ?_, fun u mem => ?_, fun u mem => List.mem_cons_of_mem _ mem⟩ rfl ?_ ?_
    · simp only [Function.update_of_ne (old u mem)]
    · simp only [Function.update_of_ne (old u mem)]
      exact id
    · intro u mem
      rcases (ins.mem u).1 mem with rfl | before
      · exact List.mem_cons_self
      · exact List.mem_cons_of_mem _ (h.fromSet u before)
    · exact fun thread u here => List.mem_cons_of_mem _ (h.fromReset thread u here)
  | cancelled t cb known live =>
    refine h.log (.update (t := t) { s.timer t with cb := none } rfl (fun _ => rfl) rfl rfl) rfl known
      (fun _ => by simp [Event.timer, live]) (fun _ => by simp [Event.timer]) ?_ h.fromReset
    exact fun u mem => h.fromSet u (List.mem_of_mem_erase mem)
  | refreshed t cb now next live present timers ins =>
    refine h.log (.update (t := t) { s.timer t with next } rfl id rfl rfl) rfl (h.fromSet t present)
      (fun _ => by simp [Event.timer, live]) (fun isEnd => isEnd.elim) ?_ h.fromReset
    intro u mem
    rcases (ins.mem u).1 mem with rfl | before
    · exact h.fromSet u present
    · exact h.fromSet u (List.mem_of_mem_erase before)
  | same thread t ms fromNow known early =>
    exact h.log (.of_same rfl rfl) rfl known (fun acts => acts.elim) (fun isEnd => isEnd.elim) h.fromSet h.fromReset
  | began thread t ms fromNow known here => exact h.keep (.of_same rfl rfl) rfl h.fromSet (other (by simp))
  | erased thread t ms cb fromNow here live present =>
    refine h.keep (.of_same rfl rfl) rfl (fun u mem => h.fromSet u (List.mem_of_mem_erase mem)) fun v u at' => ?_
    by_cases mine : v = thread
    · simp only [mine, Function.update_self, reduceCtorEq, Pc.update.injEq, false_or] at at'
      obtain ⟨_, _, rfl, -⟩ := at'
      exact h.fromSet t present
    · simp only [Function.update_of_ne mine] at at'
      exact h.fromReset v u at'
  | refused thread t ms fromNow here => exact h.keep (.of_same rfl rfl) rfl h.fromSet (other (by simp))
  | updated thread t ms fromNow now next here =>
    refine h.keep (.update (t := t) { s.timer t with ms, next } rfl id rfl rfl) rfl h.fromSet
      fun v u at' => ?_
    by_cases mine : v = thread
    · simp only [mine, Function.update_self, Pc.insert.injEq, reduceCtorEq, exists_false, or_false] at at'
      exact at' ▸ h.fromReset thread t (.inr ⟨ms, fromNow, here⟩)
    · simp only [Function.update_of_ne mine] at at'
      exact h.fromReset v u at'
  | wasReset thread t here timers tickled ins =>
    have known := h.fromReset thread t (.inl here)
    refine h.log (.of_same rfl rfl) rfl known (fun acts => acts.elim) (fun isEnd => isEnd.elim) ?_ (other (by simp))
    intro u mem
    rcases (ins.mem u).1 mem with rfl | before
    · exact known
    · exact h.fromSet u before
  | firedAgain t rest queue recurs next timers ins =>
    have known : ∀ u, u = t ∨ u ∈ rest → u ∈ s.created := fun u mem => h.fromSet u (queue ▸ List.mem_cons.2 mem)
    refine h.log (.update (t := t) { s.timer t with next } rfl id rfl rfl) rfl (known t (.inl rfl)) id
      (fun isEnd => ?_) (fun u mem => known u ((ins.mem u).1 mem)) h.fromReset
    cases recurs.symm.trans isEnd.2
  | firedOnce t rest queue once =>
    have known : ∀ u, u = t ∨ u ∈ rest → u ∈ s.created := fun u mem => h.fromSet u (queue ▸ List.mem_cons.2 mem)
    exact h.log (.update (t := t) { s.timer t with cb := none } rfl (fun _ => rfl) rfl rfl) rfl
      (known t (.inl rfl)) id (fun _ => by simp [Event.timer]) (fun u mem => known u (.inr mem)) h.fromReset
  | other l tickled previouseTime expiring => exact h.keep (.of_same rfl rfl) rfl h.fromSet h.fromReset

theorem final_of_reach (h : machine.Reach s) : Final s :=
  h.invariant final_init fun _ _ _ inv _ e => inv.move (step_moves e)

end Steps

/-! ## What follows for the callers -/

/-- Whether the timer's callback was appended; an empty `m_cb` is none. -/
def Event.fires (t : Nat) : Event → Bool
  | .fired u (some _) => u == t
  | _ => false

/-- Where one of two entries always rules out the other, there is one at most. -/
theorem countP_le_one {α : Type*} {p : α → Bool} {l : List α} (h : l.Pairwise fun a b => p a = true → p b = false) :
    l.countP p ≤ 1 := by
  induction l with
  | nil => exact Nat.zero_le 1
  | cons a rest ih =>
    obtain ⟨first, later⟩ := List.pairwise_cons.1 h
    cases here : p a with
    | false => rw [List.countP_cons_of_neg (by simp [here])]; exact ih later
    | true =>
      have none' : rest.countP p = 0 := List.countP_eq_zero.2 fun b mem => by simp [first b mem here]
      have one : (a :: rest).countP p = 1 := by rw [List.countP_cons_of_pos here, none']
      exact Nat.le_of_eq one

/-- No event that acts on a timer follows one that ends it. -/
structure State.FiresOrCancels (s : State) : Prop where
  firesOnce : ∀ t, (s.timer t).recurring = false → s.events.countP (·.fires t) ≤ 1
  cancelsOnce : ∀ t, s.events.count (.cancelled t) ≤ 1
  neverBoth : ∀ t, (s.timer t).recurring = false → .cancelled t ∈ s.events → ∀ cb, .fired t (some cb) ∉ s.events
  noneAfterCancel : ∀ t earlier later, s.events = earlier ++ .cancelled t :: later → ∀ cb, .fired t (some cb) ∉ later
  refreshesLive : ∀ t earlier later, s.events = earlier ++ .refreshed t :: later →
    .cancelled t ∉ earlier ∧ ((s.timer t).recurring = false → ∀ cb, .fired t (some cb) ∉ earlier)

/-- **Main theorem.** Whatever the threads do, and whatever the clock reads. -/
theorem fires_or_cancels (s : State) (h : machine.Reach s) : s.FiresOrCancels := by
  have inOrder := (final_of_reach h).inOrder
  have split {e : Event} {earlier later : List Event} (eq : s.events = earlier ++ e :: later) :
      (∀ e' ∈ earlier, e'.timer = e.timer → e'.Ends (s.timer e'.timer).recurring → ¬ e.Acts) ∧
        ∀ e' ∈ later, e.timer = e'.timer → e.Ends (s.timer e.timer).recurring → ¬ e'.Acts := by
    rw [eq, List.pairwise_append, List.pairwise_cons] at inOrder
    exact ⟨fun e' mem => inOrder.2.2 e' mem e List.mem_cons_self, inOrder.2.1.1⟩
  constructor
  case firesOnce =>
    intro t once
    refine countP_le_one (inOrder.imp fun {a b} order first => ?_)
    cases a with
    | fired u cb =>
      cases cb with
      | none => cases first
      | some cb =>
        have mine : u = t := beq_iff_eq.1 first
        subst mine
        cases b with
        | fired v cb' =>
          cases cb' with
          | none => rfl
          | some cb' =>
            by_contra second
            have same : v = u := by simpa [Event.fires] using second
            exact order same.symm ⟨nofun, once⟩ nofun
        | _ => rfl
    | _ => cases first
  case cancelsOnce =>
    intro t
    refine countP_le_one (inOrder.imp fun {a b} order first => ?_)
    rw [beq_iff_eq] at first
    subst first
    by_contra second
    have same : b = .cancelled t := by simpa using second
    subst same
    exact order rfl trivial trivial
  case neverBoth =>
    intro t once cancelled cb fired
    obtain ⟨earlier, later, eq⟩ := List.append_of_mem cancelled
    rw [eq, List.mem_append, List.mem_cons] at fired
    rcases fired with before | same | after
    · exact (split eq).1 _ before rfl ⟨nofun, once⟩ trivial
    · cases same
    · exact (split eq).2 _ after rfl trivial nofun
  case noneAfterCancel =>
    intro t earlier later eq cb after
    exact (split eq).2 _ after rfl trivial nofun
  case refreshesLive =>
    intro t earlier later eq
    refine ⟨fun before => (split eq).1 _ before rfl trivial trivial, fun once cb before => ?_⟩
    exact (split eq).1 _ before rfl ⟨nofun, once⟩ trivial

/-- A one-shot timer is reset, and cancelled between the two sections: it comes
back without a callback, and nothing of it fires. -/
theorem fires_or_cancels_reset : ∃ s, machine.Reach s ∧ s.events.getLast? = some (.fired 7 none) ∧
    s.FiresOrCancels := by
  have reached := Machine.reach_of_exec (rfl : machine.exec machine.init
    [.addTimer 7 10 1 false 0, .reset 0 7 5 true, .erase 0, .cancel 7, .update 0 3, .insert 0,
      .listExpired 100000000 100000000, .takeExpired] = some _)
  exact ⟨_, reached, rfl, fires_or_cancels _ reached⟩

end Mycoroutine.TimerManager
