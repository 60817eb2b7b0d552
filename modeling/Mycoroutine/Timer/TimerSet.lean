import Mycoroutine.Timer.TimerFinal

/-!
# A cancelled timer stays out of the set

Between the two sections of its `reset` a timer is out of the set and still
comes back. As long as no `cancel` empties its callback there, and `reset`
answers without the lock only for a timer that still acts and is not being
reset, the set holds exactly the timers with a callback that no `reset` holds.
-/

namespace Mycoroutine.TimerManager
set_option autoImplicit false
open Interleave

/-- The thread is between the two sections of a `reset` of the timer. -/
def Pc.Holds (t : Nat) : Pc → Prop
  | .update u _ _ | .insert u => u = t
  | .idle | .erase _ _ _ => False

/-- `cancel` meets no timer between the sections of a `reset`, and a `reset`
that changes nothing is one of a timer that has its callback and is in no
other `reset`. -/
def SparesResets (s : State) : Label → Prop
  | .cancel t => ∀ thread, ¬ (s.pc thread).Holds t
  | .reset _ t ms fromNow =>
    ms = (s.timer t).ms ∧ fromNow = false → (s.timer t).cb ≠ none ∧ ∀ thread, ¬ (s.pc thread).Holds t
  | _ => True

/-- The timer is in the set or held by one `reset`, and never both. -/
structure Kept (s : State) : Prop where
  once : s.timers.Nodup
  apart : ∀ thread t, (s.pc thread).Holds t → t ∉ s.timers
  alone : ∀ v w t, (s.pc v).Holds t → (s.pc w).Holds t → v = w
  live : ∀ t ∈ s.timers, (s.timer t).cb ≠ none
  held : ∀ thread t, (s.pc thread).Holds t → (s.timer t).cb ≠ none
  present : ∀ t ∈ s.created, (s.timer t).cb ≠ none → (∀ thread, ¬ (s.pc thread).Holds t) → t ∈ s.timers

section Steps

variable {s s' : State} {t : Nat}

theorem kept_init : Kept machine.init := by
  constructor <;> simp [machine, Pc.Holds]

/-- Which timers are held after a thread moved on. -/
theorem holds_update {thread v : Nat} {p : Pc} (h : (Function.update s.pc thread p v).Holds t) :
    v = thread ∧ p.Holds t ∨ v ≠ thread ∧ (s.pc v).Holds t := by
  by_cases mine : v = thread
  · rw [mine, Function.update_self] at h
    exact .inl ⟨mine, h⟩
  · rw [Function.update_of_ne mine] at h
    exact .inr ⟨mine, h⟩

/-- A step that changes neither the set, nor who holds what, nor a callback. -/
theorem Kept.same (h : Kept s) (once : s'.timers.Nodup) (mem : ∀ u, u ∈ s'.timers ↔ u ∈ s.timers)
    (holds : ∀ v u, (s'.pc v).Holds u ↔ (s.pc v).Holds u) (cbs : ∀ u, (s'.timer u).cb = (s.timer u).cb)
    (created : s'.created = s.created) : Kept s' where
  once := once
  apart v u hv := by
    rw [mem]
    exact h.apart v u ((holds v u).1 hv)
  alone v w u hv hw := h.alone v w u ((holds v u).1 hv) ((holds w u).1 hw)
  live u mem' := cbs u ▸ h.live u ((mem u).1 mem')
  held v u hv := cbs u ▸ h.held v u ((holds v u).1 hv)
  present u known has free := by
    rw [mem]
    exact h.present u (created ▸ known) (cbs u ▸ has) fun v hv => free v ((holds v u).2 hv)

theorem holds_same {thread : Nat} {p : Pc} (same : ∀ u, p.Holds u ↔ (s.pc thread).Holds u) (v u : Nat) :
    (Function.update s.pc thread p v).Holds u ↔ (s.pc v).Holds u := by
  by_cases mine : v = thread
  · rw [mine, Function.update_self, same]
  · rw [Function.update_of_ne mine]

theorem cb_same {timer : Timer} (same : timer.cb = (s.timer t).cb) (u : Nat) :
    (Function.update s.timer t timer u).cb = (s.timer u).cb := by
  by_cases mine : u = t
  · rw [mine, Function.update_self, same]
  · rw [Function.update_of_ne mine]

/-- A timer that no `reset` holds leaves the set, and its callback is gone. -/
theorem Kept.remove {timers : List Nat} (h : Kept s) (timer : Timer) (free : ∀ v, ¬ (s.pc v).Holds t)
    (dead : timer.cb = none) (once : timers.Nodup) (mem : ∀ u, u ∈ timers ↔ u ≠ t ∧ u ∈ s.timers)
    (same : s'.timer = Function.update s.timer t timer) (set : s'.timers = timers) (pcs : s'.pc = s.pc)
    (created : s'.created = s.created) : Kept s' where
  once := set ▸ once
  apart v u hv mem' := by
    rw [pcs] at hv
    rw [set, mem] at mem'
    exact h.apart v u hv mem'.2
  alone v w u := by
    rw [pcs]
    exact h.alone v w u
  live u mem' := by
    rw [set, mem] at mem'
    rw [same, Function.update_of_ne mem'.1]
    exact h.live u mem'.2
  held v u hv := by
    rw [pcs] at hv
    have other : u ≠ t := fun isT => free v (isT ▸ hv)
    rw [same, Function.update_of_ne other]
    exact h.held v u hv
  present u known has unheld := by
    have other : u ≠ t := by
      rintro rfl
      rw [same, Function.update_self] at has
      exact has dead
    rw [same, Function.update_of_ne other] at has
    rw [set, mem]
    exact ⟨other, h.present u (created ▸ known) has (pcs ▸ unheld)⟩

theorem Kept.move {l : Label} (h : Kept s) (final : Final s) (cond : SparesResets s l) (move : Moves s l s') :
    Kept s' := by
  cases move with
  | added t ms cb recurring now new timers tickled ins =>
    have unheld : ∀ v, ¬ (s.pc v).Holds t := fun v hv => new (final.fromReset v t (by
      cases pc : s.pc v with
      | update u ms' fromNow => exact .inr ⟨ms', fromNow, by rw [← (show u = t by simpa [pc, Pc.Holds] using hv)]⟩
      | insert u => exact .inl (by rw [← (show u = t by simpa [pc, Pc.Holds] using hv)])
      | idle | erase => simp [pc, Pc.Holds] at hv))
    have absent : t ∉ s.timers := fun mem => new (final.fromSet t mem)
    refine ⟨(ins.perm absent).nodup_iff.2 (List.nodup_cons.2 ⟨absent, h.once⟩), fun v u hv mem => ?_, h.alone,
      fun u mem => ?_, fun v u hv => ?_, fun u known has free => ?_⟩
    · rcases (ins.mem u).1 mem with rfl | before
      · exact unheld v hv
      · exact h.apart v u hv before
    · by_cases mine : u = t
      · simp [mine]
      · simpa only [Function.update_of_ne mine] using h.live u (((ins.mem u).1 mem).resolve_left mine)
    · have other : u ≠ t := fun mine => unheld v (mine ▸ hv)
      simpa only [Function.update_of_ne other] using h.held v u hv
    · refine (ins.mem u).2 ?_
      by_cases mine : u = t
      · exact .inl mine
      · simp only [Function.update_of_ne mine] at has
        exact .inr (h.present u ((List.mem_cons.1 known).resolve_left mine) has free)
  | cancelled t cb known live =>
    refine h.remove { s.timer t with cb := none } cond rfl (h.once.erase t) (fun u => ?_) rfl rfl rfl rfl
    exact h.once.mem_erase_iff
  | refreshed t cb now next live present timers ins =>
    have away : t ∉ s.timers.erase t := h.once.not_mem_erase
    refine h.same ((ins.perm away).nodup_iff.2 (List.nodup_cons.2 ⟨away, h.once.erase t⟩)) (fun u => ?_)
      (fun _ _ => .rfl) (cb_same rfl) rfl
    rw [ins.mem u, h.once.mem_erase_iff]
    by_cases mine : u = t <;> simp [mine, present]
  | same thread t ms fromNow known early => exact ⟨h.once, h.apart, h.alone, h.live, h.held, h.present⟩
  | began thread t ms fromNow known here =>
    exact h.same h.once (fun _ => .rfl) (holds_same fun u => by simp [here, Pc.Holds]) (fun _ => rfl) rfl
  | erased thread t ms cb fromNow here live present =>
    have free : ∀ v, ¬ (s.pc v).Holds t := fun v hv => h.apart v t hv present
    refine ⟨h.once.erase t, fun v u hv mem => ?_, fun v w u hv hw => ?_, fun u mem => ?_, fun v u hv => ?_,
      fun u known has unheld => ?_⟩
    · rcases holds_update hv with ⟨-, rfl⟩ | ⟨-, before⟩
      · exact h.once.not_mem_erase mem
      · exact h.apart v u before (List.mem_of_mem_erase mem)
    · rcases holds_update hv with ⟨rfl, rfl⟩ | ⟨-, before⟩ <;> rcases holds_update hw with ⟨rfl, mine⟩ | ⟨-, before'⟩
      · rfl
      · exact absurd before' (free w)
      · cases mine
        exact absurd before (free v)
      · exact h.alone v w u before before'
    · exact h.live u (List.mem_of_mem_erase mem)
    · rcases holds_update hv with ⟨-, rfl⟩ | ⟨-, before⟩
      · simp [live]
      · exact h.held v u before
    · have other : u ≠ t := fun mine => unheld thread (by simp [mine, Pc.Holds])
      refine (List.mem_erase_of_ne other).2 (h.present u known has fun v before => unheld v ?_)
      have elsewhere : v ≠ thread := by
        rintro rfl
        simp [here, Pc.Holds] at before
      simpa only [Function.update_of_ne elsewhere] using before
  | refused thread t ms fromNow here =>
    exact h.same h.once (fun _ => .rfl) (holds_same fun u => by simp [here, Pc.Holds]) (fun _ => rfl) rfl
  | updated thread t ms fromNow now next here =>
    exact h.same h.once (fun _ => .rfl) (holds_same fun u => by simp [here, Pc.Holds]) (cb_same rfl) rfl
  | wasReset thread t here timers tickled ins =>
    have mine : (s.pc thread).Holds t := by simp [here, Pc.Holds]
    have absent := h.apart thread t mine
    -- what another thread holds is another timer
    have others : ∀ v u, (Function.update s.pc thread .idle v).Holds u → u ≠ t ∧ (s.pc v).Holds u := by
      intro v u hv
      rcases holds_update hv with ⟨-, none'⟩ | ⟨elsewhere, before⟩
      · exact none'.elim
      · exact ⟨fun same => elsewhere (h.alone v thread t (same ▸ before) mine), before⟩
    refine ⟨(ins.perm absent).nodup_iff.2 (List.nodup_cons.2 ⟨absent, h.once⟩), fun v u hv mem => ?_,
      fun v w u hv hw => h.alone v w u (others v u hv).2 (others w u hw).2, fun u mem => ?_,
      fun v u hv => h.held v u (others v u hv).2, fun u known has unheld => ?_⟩
    · obtain ⟨other, before⟩ := others v u hv
      exact h.apart v u before (((ins.mem u).1 mem).resolve_left other)
    · rcases (ins.mem u).1 mem with rfl | before
      · exact h.held thread u mine
      · exact h.live u before
    · refine (ins.mem u).2 ?_
      by_cases same : u = t
      · exact .inl same
      · refine .inr (h.present u known has fun v before => unheld v ?_)
        have elsewhere : v ≠ thread := by
          rintro rfl
          simp only [here, Pc.Holds] at before
          exact same before.symm
        simpa only [Function.update_of_ne elsewhere] using before
  | firedAgain t rest queue recurs next timers ins =>
    have once := h.once
    rw [queue] at once
    refine h.same ((ins.perm (List.nodup_cons.1 once).1).nodup_iff.2 once) (fun u => ?_) (fun _ _ => .rfl)
      (cb_same rfl) rfl
    rw [ins.mem u, queue, List.mem_cons]
  | firedOnce t rest queue once =>
    have nodup := h.once
    rw [queue, List.nodup_cons] at nodup
    have free : ∀ v, ¬ (s.pc v).Holds t := fun v hv => h.apart v t hv (queue ▸ List.mem_cons_self)
    refine h.remove { s.timer t with cb := none } free rfl nodup.2 (fun u => ?_) rfl rfl rfl rfl
    rw [queue, List.mem_cons]
    constructor
    · exact fun mem => ⟨fun same => nodup.1 (same ▸ mem), .inr mem⟩
    · exact fun ⟨other, mem⟩ => mem.resolve_left other
  | other l tickled previouseTime expiring => exact ⟨h.once, h.apart, h.alone, h.live, h.held, h.present⟩

theorem kept_of_reachIf (h : machine.ReachIf SparesResets s) : Kept s :=
  h.invariant_with Final (fun _ reached => final_of_reach reached.reach) kept_init
    fun _ _ _ final inv cond e _ => inv.move final cond (step_moves e)

end Steps

/-- The set holds only timers that still act, and none that was cancelled. -/
structure State.StaysOut (s : State) : Prop where
  callbacks : ∀ t ∈ s.timers, (s.timer t).cb ≠ none
  cancelled : ∀ t, .cancelled t ∈ s.events → t ∉ s.timers

/-- A `reset` that returns true leaves its timer in the set. -/
def ResetsIn (s s' : State) : Prop := ∀ t, s'.events = s.events ++ [.wasReset t] → t ∈ s'.timers

/-- **Main theorem.** Where no `cancel` meets a timer between the sections of
its `reset`, and no `reset` that changes nothing meets a timer that is over or
in another `reset`. -/
theorem stays_out (s : State) (h : machine.ReachIf SparesResets s) :
    s.StaysOut ∧ ∀ l s', SparesResets s l → step s l = some s' → ResetsIn s s' := by
  have kept := kept_of_reachIf h
  have final := final_of_reach h.reach
  refine ⟨⟨kept.live, fun t cancelled mem => kept.live t mem (final.dead _ cancelled trivial)⟩, ?_⟩
  intro l s' cond e t returned
  cases step_moves e with
  | same thread u ms fromNow known early =>
    cases List.append_cancel_left returned
    obtain ⟨has, free⟩ := cond early
    exact kept.present t known has free
  | wasReset thread u here timers tickled ins =>
    cases List.append_cancel_left returned
    exact (ins.mem t).2 (.inl rfl)
  | cancelled | refreshed | firedAgain | firedOnce => cases List.append_cancel_left returned
  | _ => simp at returned

/-- A recurring timer is reset, fires, and is cancelled. -/
theorem stays_out_recurring : ∃ s, machine.ReachIf SparesResets s ∧ s.timers = [] ∧
    s.events = [.wasReset 7, .fired 7 (some 1), .cancelled 7] ∧ s.StaysOut := by
  -- no thread but 0 calls `reset`
  have next {s s' : State} (h : machine.ReachIf SparesResets s ∧ ∀ v, v ≠ 0 → s.pc v = .idle) (l : Label)
      (c : SparesResets s l) (e : step s l = some s') (own : ∀ v, v ≠ 0 → s'.pc v = s.pc v) :
      machine.ReachIf SparesResets s' ∧ ∀ v, v ≠ 0 → s'.pc v = .idle :=
    ⟨h.1.step c e, fun v other => (own v other).trans (h.2 v other)⟩
  have moved {s : State} (p : Pc) (v : Nat) (other : v ≠ 0) : Function.update s.pc 0 p v = s.pc v :=
    Function.update_of_ne other ..
  have added := next ⟨.init, fun _ _ => rfl⟩ (.addTimer 7 10 1 true 0) trivial rfl (fun _ _ => rfl)
  have began := next added (.reset 0 7 5 true) (fun early => nomatch early.2) rfl (moved _)
  have erased := next began (.erase 0) trivial rfl (moved _)
  have inserted := next (next erased (.update 0 3) trivial rfl (moved _)) (.insert 0) trivial rfl (moved _)
  have fired := next (next (next inserted (.listExpired 9000000 9000000) trivial rfl (fun _ _ => rfl))
    .takeExpired trivial rfl (fun _ _ => rfl)) .takeExpired trivial rfl (fun _ _ => rfl)
  have cancelled := next fired (.cancel 7) (fun v holds => ?_) rfl (fun _ _ => rfl)
  · exact ⟨_, cancelled.1, rfl, rfl, (stays_out _ cancelled.1).1⟩
  · by_cases first : v = 0
    · subst first
      exact holds
    · rw [fired.2 v first] at holds
      exact holds

/-- A timer that is cancelled between the two sections of its `reset` comes back
without a callback; and a `reset` with the old timeout answers true for a timer
that was cancelled. -/
theorem cancelled_comes_back : (¬ ∀ s, machine.Reach s → s.StaysOut) ∧
    ¬ ∀ s l s', machine.Reach s → step s l = some s' → ResetsIn s s' := by
  constructor
  · intro h
    have reached := Machine.reach_of_exec (rfl : machine.exec machine.init
      [.addTimer 7 10 1 true 0, .reset 0 7 5 true, .erase 0, .cancel 7, .update 0 3, .insert 0] = some _)
    exact (h _ reached).callbacks 7 (by decide) rfl
  · intro h
    have reached := Machine.reach_of_exec (rfl : machine.exec machine.init
      [.addTimer 7 10 1 true 0, .cancel 7] = some _)
    have inSet := h _ (.reset 0 7 10 false) _ reached rfl 7 rfl
    cases inSet

end Mycoroutine.TimerManager
