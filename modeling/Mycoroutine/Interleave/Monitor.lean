import Mycoroutine.Interleave.Linearize

/-!
# Monitors

Data behind a mutex, with one condition variable. An operation takes the mutex,
tests whether it may go on, waits on the condition variable and tests again while it
may not, acts on the data, possibly notifies one thread, and unlocks. A thread that
was notified takes the mutex like any other, so another may come first; it may also
wake without having been notified.

Whatever is kept by the actions holds of the data. A monitor is linearizable, an
action being the linearization point. If every action that notifies supplies what
one waiting thread needs, no thread sleeps while there is a supply that nobody who
was woken is on the way to.
-/

namespace Interleave
set_option autoImplicit false

/-- `ready` is the test of the loop, `act` what is done to the data after it; `none`
is undefined behaviour. -/
structure Monitor (ο ρ σ : Type*) where
  init : σ
  ready : σ → ο → Bool
  act : σ → ο → Option (ρ × σ)
  notifies : ο → Bool

namespace Monitor

variable {ο ρ σ τ : Type*}

/-- Where a thread stands. `testing`, `notifying` and `leaving` are under the mutex;
`woken` says that the thread comes from the condition variable. -/
inductive Pc (ο ρ : Type*) where
  | out
  | entering (op : ο)
  | testing (op : ο) (woken : Bool)
  | sleeping (op : ο)
  | notifying (result : ρ)
  | leaving (result : ρ)

def Pc.inside : Pc ο ρ → Bool
  | .testing _ _ | .notifying _ | .leaving _ => true
  | .out | .entering _ | .sleeping _ => false

/-- `waiting` is the queue of the condition variable; a sleeping thread that is not in
it is one of `woken`, which wait for the mutex. -/
structure State (τ ο ρ σ : Type*) where
  data : σ
  owner : Option τ
  waiting : List τ
  woken : List τ
  pc : τ → Pc ο ρ

inductive Label (τ ο : Type*) where
  | enter (t : τ) (op : ο)
  | lock (t : τ)
  | test (t : τ)
  | notify (t : τ) (whom : Option τ)
  | unlock (t : τ)
  | spurious (t : τ)

variable [DecidableEq τ] (M : Monitor ο ρ σ)

/-- Which thread is notified is left open, but one is if any waits. -/
def step (s : State τ ο ρ σ) : Label τ ο → Option (State τ ο ρ σ)
  | .enter t op =>
    match s.pc t with
    | .out => some { s with pc := Function.update s.pc t (.entering op) }
    | _ => none
  | .lock t =>
    match s.owner, s.pc t with
    | none, .entering op => some { s with owner := some t, pc := Function.update s.pc t (.testing op false) }
    | none, .sleeping op =>
      if t ∈ s.woken then
        some { s with owner := some t, woken := s.woken.erase t, pc := Function.update s.pc t (.testing op true) }
      else none
    | _, _ => none
  | .test t =>
    match s.pc t with
    | .testing op _ =>
      if M.ready s.data op then
        match M.act s.data op with
        | some (r, data) =>
          some { s with data, pc := Function.update s.pc t (if M.notifies op then .notifying r else .leaving r) }
        | none => none
      else some { s with owner := none, waiting := s.waiting ++ [t], pc := Function.update s.pc t (.sleeping op) }
    | _ => none
  | .notify t whom =>
    match s.pc t with
    | .notifying r =>
      match whom with
      | some u =>
        if u ∈ s.waiting then
          some { s with waiting := s.waiting.erase u, woken := s.woken ++ [u], pc := Function.update s.pc t (.leaving r) }
        else none
      | none => if s.waiting.isEmpty then some { s with pc := Function.update s.pc t (.leaving r) } else none
    | _ => none
  | .unlock t =>
    match s.pc t with
    | .leaving _ => some { s with owner := none, pc := Function.update s.pc t .out }
    | _ => none
  | .spurious t =>
    if t ∈ s.waiting then some { s with waiting := s.waiting.erase t, woken := s.woken ++ [t] } else none

def machine (τ : Type*) [DecidableEq τ] : Machine (State τ ο ρ σ) (Label τ ο) where
  init := { data := M.init, owner := none, waiting := [], woken := [], pc := fun _ => .out }
  step := M.step

/-- What one step can do. -/
inductive Moves (s : State τ ο ρ σ) : Label τ ο → State τ ο ρ σ → Prop where
  | entered (t : τ) (op : ο) (here : s.pc t = .out) : Moves s (.enter t op) { s with pc := Function.update s.pc t (.entering op) }
  | locked (t : τ) (op : ο) (here : s.pc t = .entering op) (free : s.owner = none) :
      Moves s (.lock t) { s with owner := some t, pc := Function.update s.pc t (.testing op false) }
  | relocked (t : τ) (op : ο) (here : s.pc t = .sleeping op) (free : s.owner = none) (woken : t ∈ s.woken) :
      Moves s (.lock t) { s with owner := some t, woken := s.woken.erase t, pc := Function.update s.pc t (.testing op true) }
  | acted (t : τ) (op : ο) (w : Bool) (r : ρ) (data : σ) (here : s.pc t = .testing op w)
      (ready : M.ready s.data op = true) (act : M.act s.data op = some (r, data)) :
      Moves s (.test t) { s with data, pc := Function.update s.pc t (if M.notifies op then .notifying r else .leaving r) }
  | slept (t : τ) (op : ο) (w : Bool) (here : s.pc t = .testing op w) (unready : M.ready s.data op = false) :
      Moves s (.test t) { s with owner := none, waiting := s.waiting ++ [t], pc := Function.update s.pc t (.sleeping op) }
  | notified (t : τ) (r : ρ) (u : τ) (here : s.pc t = .notifying r) (asleep : u ∈ s.waiting) :
      Moves s (.notify t (some u)) { s with waiting := s.waiting.erase u, woken := s.woken ++ [u], pc := Function.update s.pc t (.leaving r) }
  | nobody (t : τ) (r : ρ) (here : s.pc t = .notifying r) (empty : s.waiting = []) :
      Moves s (.notify t none) { s with pc := Function.update s.pc t (.leaving r) }
  | unlocked (t : τ) (r : ρ) (here : s.pc t = .leaving r) :
      Moves s (.unlock t) { s with owner := none, pc := Function.update s.pc t .out }
  | woke (t : τ) (asleep : t ∈ s.waiting) :
      Moves s (.spurious t) { s with waiting := s.waiting.erase t, woken := s.woken ++ [t] }

variable {M}

section Inversion

variable {s s' : State τ ο ρ σ} {l : Label τ ο}

/-- Every enabled step is one of the moves. -/
theorem step_moves (e : M.step s l = some s') : M.Moves s l s' := by
  cases l with
  | enter t op =>
    simp only [step] at e
    split at e <;> cases e
    exact .entered t op ‹_›
  | lock t =>
    simp only [step] at e
    split at e
    · rename_i op free here
      cases e
      exact .locked t op here free
    · rename_i op free here
      split at e <;> cases e
      exact .relocked t op here free ‹_›
    · cases e
  | test t =>
    simp only [step] at e
    split at e
    · rename_i op w here
      split at e
      · rename_i ready
        split at e <;> cases e
        exact .acted t op w _ _ here ready ‹_›
      · rename_i unready
        cases e
        exact .slept t op w here (Bool.eq_false_iff.2 unready)
    · cases e
  | notify t whom =>
    simp only [step] at e
    split at e
    · rename_i r here
      split at e
      · split at e <;> cases e
        exact .notified t r _ here ‹_›
      · split at e <;> cases e
        exact .nobody t r here (List.isEmpty_iff.1 ‹_›)
    · cases e
  | unlock t =>
    simp only [step] at e
    split at e <;> cases e
    exact .unlocked t _ ‹_›
  | spurious t =>
    simp only [step] at e
    split at e <;> cases e
    exact .woke t ‹_›

end Inversion

/-! ## One thread -/

/-- The operation of a thread that has not acted yet. -/
def Pc.op : Pc ο ρ → Option ο
  | .entering op | .testing op _ | .sleeping op => some op
  | .out | .notifying _ | .leaving _ => none

/-- The thread has acted on the data and not returned. -/
def Pc.acted : Pc ο ρ → Bool
  | .notifying _ | .leaving _ => true
  | .out | .entering _ | .testing _ _ | .sleeping _ => false

section Thread

variable {s s' : State τ ο ρ σ} {l : Label τ ο} {t : τ} {op : ο}

/-- A thread has the operation with which it entered. -/
theorem Moves.keeps_op (move : M.Moves s l s') (stands : (s'.pc t).op = some op) : (s.pc t).op = some op ∨ l = .enter t op := by
  cases move with
  | woke u asleep => exact .inl stands
  | entered u op' here | locked u op' here | relocked u op' here | acted u op' w r data here | slept u op' w here
  | notified u r v here | nobody u r here | unlocked u r here =>
    by_cases mine : t = u
    · subst mine
      simp only [Function.update_self] at stands
      first
      | (split at stands <;> cases stands)
      | (cases stands <;> first | exact .inr rfl | exact .inl (by rw [here]; rfl))
    · simp only [Function.update_of_ne mine] at stands
      exact .inl stands

/-- A thread acts once its test has succeeded. -/
theorem Moves.acts (move : M.Moves s l s') (acted : (s'.pc t).acted = true) : (s.pc t).acted = true ∨
    ∃ op w r, s.pc t = .testing op w ∧ M.ready s.data op = true ∧ M.act s.data op = some (r, s'.data) := by
  cases move with
  | woke u asleep => exact .inl acted
  | acted u op w r data here ready act =>
    by_cases mine : t = u
    · subst mine
      exact .inr ⟨op, w, r, here, ready, act⟩
    · simp only [Function.update_of_ne mine] at acted
      exact .inl acted
  | entered u op here | locked u op here | relocked u op here | slept u op w here | notified u r v here
  | nobody u r here | unlocked u r here =>
    by_cases mine : t = u
    · subst mine
      simp only [Function.update_self] at acted
      first
      | exact .inl (by rw [here]; rfl)
      | cases acted
    · simp only [Function.update_of_ne mine] at acted
      exact .inl acted

/-- Data changes by the action of one thread. -/
theorem Moves.changes (move : M.Moves s l s') :
    (s'.data = s.data ∧ ∀ t, (s'.pc t).acted = true → (s.pc t).acted = true) ∨
      ∃ t op w r, l = .test t ∧ s.pc t = .testing op w ∧ M.ready s.data op = true ∧ M.act s.data op = some (r, s'.data) ∧
        (s'.pc t).acted = true ∧ ∀ u, u ≠ t → s'.pc u = s.pc u := by
  cases move with
  | woke u asleep => exact .inl ⟨rfl, fun _ acted => acted⟩
  | acted u op w r data here ready act =>
    refine .inr ⟨u, op, w, r, rfl, here, ready, act, ?_, fun v apart => Function.update_of_ne apart ..⟩
    simp only [Function.update_self]
    split <;> rfl
  | entered u op here | locked u op here | relocked u op here | slept u op w here | notified u r v here
  | nobody u r here | unlocked u r here =>
    refine .inl ⟨rfl, fun t acted => ?_⟩
    by_cases mine : t = u
    · subst mine
      simp only [Function.update_self] at acted
      first
      | (rw [here]; rfl)
      | cases acted
    · simpa only [Function.update_of_ne mine] using acted

theorem Moves.stays_acted (move : M.Moves s l s') (acted : (s.pc t).acted = true) :
    (s'.pc t).acted = true ∨ l = .unlock t := by
  cases move with
  | woke u asleep => exact .inl acted
  | entered u op here | locked u op here | relocked u op here | acted u op w r data here | slept u op w here
  | notified u r v here | nobody u r here | unlocked u r here =>
    by_cases mine : t = u
    · subst mine
      rw [here] at acted
      first
      | exact .inr rfl
      | exact .inl (by simp only [Function.update_self]; rfl)
      | cases acted
    · simp only [Function.update_of_ne mine]
      exact .inl acted

theorem Moves.keeps_out (move : M.Moves s l s') (out : s.pc t = .out) : s'.pc t = .out ∨ ∃ op, l = .enter t op := by
  cases move with
  | woke u asleep => exact .inl out
  | entered u op here | locked u op here | relocked u op here | acted u op w r data here | slept u op w here
  | notified u r v here | nobody u r here | unlocked u r here =>
    by_cases mine : t = u
    · subst mine
      first
      | exact .inr ⟨_, rfl⟩
      | cases here.symm.trans out
    · simp only [Function.update_of_ne mine]
      exact .inl out

theorem Moves.unlocks (move : M.Moves s (.unlock t) s') : (s.pc t).acted = true ∧ s'.pc t = .out ∧ s'.data = s.data ∧
    ∀ u, u ≠ t → s'.pc u = s.pc u := by
  cases move with
  | unlocked u r here =>
    exact ⟨by rw [here]; rfl, Function.update_self .., rfl, fun u apart => Function.update_of_ne apart ..⟩

end Thread

/-! ## The mutex -/

/-- The owner of the mutex is the thread inside; the threads that sleep are those of the
condition variable and those that were woken. -/
structure Locked (s : State τ ο ρ σ) : Prop where
  owner : ∀ t, s.owner = some t ↔ (s.pc t).inside = true
  asleep : ∀ t, t ∈ s.waiting ++ s.woken ↔ ∃ op, s.pc t = .sleeping op
  once : (s.waiting ++ s.woken).Nodup

section Mutex

variable {s s' : State τ ο ρ σ} {l : Label τ ο} {t u : τ}

theorem locked_init : Locked (M.machine τ).init := by
  constructor <;> simp [machine, Pc.inside]

/-- The thread inside keeps the mutex. -/
theorem Locked.stays {p : Pc ο ρ} (h : Locked s) (here : (s.pc t).inside = true) (inside : p.inside = true)
    (owner : s'.owner = s.owner) (pc : s'.pc = Function.update s.pc t p) (v : τ) :
    s'.owner = some v ↔ (s'.pc v).inside = true := by
  rw [owner, h.owner, pc]
  by_cases mine : v = t
  · subst mine
    rw [Function.update_self, here, inside]
  · rw [Function.update_of_ne mine]

/-- The thread inside gives the mutex up. -/
theorem Locked.gives {p : Pc ο ρ} (h : Locked s) (here : (s.pc t).inside = true) (outside : p.inside = false)
    (owner : s'.owner = none) (pc : s'.pc = Function.update s.pc t p) (v : τ) :
    s'.owner = some v ↔ (s'.pc v).inside = true := by
  rw [owner, pc]
  by_cases mine : v = t
  · subst mine
    rw [Function.update_self, outside]
    exact ⟨nofun, nofun⟩
  · rw [Function.update_of_ne mine, ← h.owner]
    have only (other : s.owner = some v) : v = t := Option.some.inj (other.symm.trans ((h.owner t).2 here))
    exact ⟨nofun, fun other => absurd (only other) mine⟩

/-- A thread outside takes the free mutex. -/
theorem Locked.takes {p : Pc ο ρ} (h : Locked s) (free : s.owner = none) (inside : p.inside = true)
    (owner : s'.owner = some t) (pc : s'.pc = Function.update s.pc t p) (v : τ) :
    s'.owner = some v ↔ (s'.pc v).inside = true := by
  rw [owner, pc]
  by_cases mine : v = t
  · subst mine
    rw [Function.update_self, inside]
    exact ⟨fun _ => rfl, fun _ => rfl⟩
  · rw [Function.update_of_ne mine, ← h.owner, free]
    refine ⟨fun same => absurd (Option.some.inj same).symm mine, nofun⟩

/-- A thread moves that sleeps neither before nor after. -/
theorem Locked.awake {p : Pc ο ρ} (h : Locked s) (before : ∀ op, s.pc t ≠ .sleeping op) (after : ∀ op, p ≠ .sleeping op)
    (all : ∀ v, v ∈ s'.waiting ++ s'.woken ↔ v ∈ s.waiting ++ s.woken) (pc : s'.pc = Function.update s.pc t p) (v : τ) :
    v ∈ s'.waiting ++ s'.woken ↔ ∃ op, s'.pc v = .sleeping op := by
  rw [all, h.asleep, pc]
  by_cases mine : v = t
  · subst mine
    rw [Function.update_self]
    exact ⟨fun ⟨op, here⟩ => absurd here (before op), fun ⟨op, here⟩ => absurd here (after op)⟩
  · rw [Function.update_of_ne mine]

/-- A thread goes from the condition variable to those that were woken. -/
theorem woken_perm (asleep : u ∈ s.waiting) :
    (s.waiting.erase u ++ (s.woken ++ [u])).Perm (s.waiting ++ s.woken) := by
  have moved : (s.waiting.erase u ++ (s.woken ++ [u])).Perm (u :: (s.waiting.erase u ++ s.woken)) := by
    rw [← List.append_assoc]
    exact List.perm_append_singleton ..
  exact moved.trans ((List.perm_cons_erase asleep).symm.append_right s.woken)

theorem Locked.moves (h : Locked s) (move : M.Moves s l s') : Locked s' := by
  cases move with
  | entered t op here =>
    refine ⟨fun v => ?_, h.awake (by simp [here]) (by simp) (fun _ => .rfl) rfl, h.once⟩
    by_cases mine : v = t
    · subst mine
      simp [h.owner, here, Pc.inside]
    · simp [h.owner, mine]
  | locked t op here free =>
    exact ⟨h.takes free rfl rfl rfl, h.awake (by simp [here]) (by simp) (fun _ => .rfl) rfl, h.once⟩
  | relocked t op here free woken =>
    have once := h.once
    have out : t ∉ s.waiting := fun mem => (List.disjoint_of_nodup_append once) mem woken
    have perm : (s.waiting ++ s.woken).Perm (t :: (s.waiting ++ s.woken.erase t)) :=
      ((List.perm_cons_erase woken).append_left s.waiting).trans List.perm_middle
    have once' := perm.nodup_iff.1 once
    rw [List.nodup_cons] at once'
    refine ⟨h.takes free rfl rfl rfl, fun v => ?_, once'.2⟩
    by_cases mine : v = t
    · subst mine
      simp [once'.1]
    · have kept := perm.mem_iff (a := v)
      simp only [List.mem_cons, mine, false_or] at kept
      simp only [Function.update_of_ne mine, ← h.asleep, kept]
  | acted t op w r data here ready act =>
    refine ⟨h.stays (by rw [here]; rfl) ?_ rfl rfl, h.awake (by simp [here]) (fun op' => ?_) (fun _ => .rfl) rfl, h.once⟩
    · split <;> rfl
    · split <;> simp
  | slept t op w here unready =>
    have inside : (s.pc t).inside = true := by rw [here]; rfl
    have awake : t ∉ s.waiting ++ s.woken := fun mem => by
      obtain ⟨op', asleep⟩ := (h.asleep t).1 mem
      cases here.symm.trans asleep
    have perm : (s.waiting ++ [t] ++ s.woken).Perm (t :: (s.waiting ++ s.woken)) := by
      rw [List.append_assoc]
      exact List.perm_middle
    refine ⟨h.gives inside rfl rfl rfl, fun v => ?_, perm.nodup_iff.2 (List.nodup_cons.2 ⟨awake, h.once⟩)⟩
    rw [perm.mem_iff, List.mem_cons, h.asleep]
    by_cases mine : v = t
    · subst mine
      simp
    · simp [mine]
  | notified t r u here asleep =>
    have perm := woken_perm asleep
    exact ⟨h.stays (by rw [here]; rfl) rfl rfl rfl, h.awake (by simp [here]) (by simp) (fun _ => perm.mem_iff) rfl,
      perm.nodup_iff.2 h.once⟩
  | nobody t r here empty =>
    exact ⟨h.stays (by rw [here]; rfl) rfl rfl rfl, h.awake (by simp [here]) (by simp) (fun _ => .rfl) rfl, h.once⟩
  | unlocked t r here =>
    exact ⟨h.gives (by rw [here]; rfl) rfl rfl rfl, h.awake (by simp [here]) (by simp) (fun _ => .rfl) rfl, h.once⟩
  | woke t asleep =>
    have perm := woken_perm asleep
    exact ⟨h.owner, fun v => perm.mem_iff.trans (h.asleep v), perm.nodup_iff.2 h.once⟩

theorem locked_of_reach (h : (M.machine τ).Reach s) : Locked s :=
  h.invariant locked_init fun _ _ _ inv _ e => inv.moves (step_moves e)

omit [DecidableEq τ] in
/-- One thread is inside. -/
theorem Locked.alone (h : Locked s) (left : (s.pc t).inside = true) (right : (s.pc u).inside = true) : t = u :=
  Option.some.inj (((h.owner t).2 left).symm.trans ((h.owner u).2 right))

end Mutex

/-! ## The data -/

/-- What every action keeps holds of the data. -/
theorem data_invariant {inv : σ → Prop} {s : State τ ο ρ σ} (h : (M.machine τ).Reach s) (base : inv M.init)
    (kept : ∀ d op r d', inv d → M.ready d op = true → M.act d op = some (r, d') → inv d') : inv s.data := by
  induction h with
  | init => exact base
  | step _ _ e before =>
    cases step_moves e with
    | acted t op w r data here ready act => exact kept _ _ _ _ before ready act
    | _ => exact before

/-! ## Supply -/

/-- For data with an invariant: an action that notifies never waits and supplies at most
one thread; any other takes what one thread needs, and waits only where there is nothing. -/
structure Supplies (M : Monitor ο ρ σ) (inv : σ → Prop) (supply : σ → Nat) : Prop where
  base : inv M.init
  kept : ∀ d op r d', inv d → M.ready d op = true → M.act d op = some (r, d') → inv d'
  always : ∀ d op, M.notifies op = true → M.ready d op = true
  gives : ∀ d op r d', inv d → M.notifies op = true → M.act d op = some (r, d') → supply d' ≤ supply d + 1
  takes : ∀ d op r d', inv d → M.notifies op = false → M.ready d op = true → M.act d op = some (r, d') →
    supply d' + 1 ≤ supply d
  blocked : ∀ d op, inv d → M.ready d op = false → supply d = 0

/-- The thread inside was woken and has not taken anything yet, or is about to notify. -/
def Pc.credit : Pc ο ρ → Nat
  | .testing _ true | .notifying _ => 1
  | _ => 0

/-- What the thread inside will do for the others. -/
def State.credit (s : State τ ο ρ σ) : Nat := s.owner.elim 0 fun t => (s.pc t).credit

/-- Threads that sleep or were woken wait for a supply; and while a thread waits, there
are as many on the way as there is supply for. -/
structure Balanced (M : Monitor ο ρ σ) (supply : σ → Nat) (s : State τ ο ρ σ) : Prop where
  sleeper : ∀ t op, s.pc t = .sleeping op → M.notifies op = false
  tester : ∀ t op, s.pc t = .testing op true → M.notifies op = false
  enough : s.waiting ≠ [] → supply s.data ≤ s.woken.length + s.credit

section Supply

variable {inv : σ → Prop} {supply : σ → Nat} {s s' : State τ ο ρ σ} {l : Label τ ο} {t : τ} {p : Pc ο ρ}

theorem credit_of_owner (owner : s'.owner = some t) (pc : s'.pc = Function.update s.pc t p) : s'.credit = p.credit := by
  rw [State.credit, owner, Option.elim_some, pc, Function.update_self]

omit [DecidableEq τ] in
theorem credit_of_free (owner : s'.owner = none) : s'.credit = 0 := by
  rw [State.credit, owner, Option.elim_none]

omit [DecidableEq τ] in
theorem Locked.credit (h : Locked s) (here : (s.pc t).inside = true) : s.credit = (s.pc t).credit := by
  rw [State.credit, (h.owner t).2 here, Option.elim_some]

/-- What the threads stand at, after one of them has moved. -/
theorem Balanced.stands {m : State τ ο ρ σ} (h : Balanced M supply s) (pc : m.pc = Function.update s.pc t p)
    (sleeper : ∀ op, p = .sleeping op → M.notifies op = false)
    (tester : ∀ op, p = .testing op true → M.notifies op = false) :
    (∀ v op, m.pc v = .sleeping op → M.notifies op = false) ∧ ∀ v op, m.pc v = .testing op true → M.notifies op = false := by
  rw [pc]
  constructor <;> intro v op here <;> by_cases mine : v = t
  · subst mine
    rw [Function.update_self] at here
    exact sleeper op here
  · rw [Function.update_of_ne mine] at here
    exact h.sleeper v op here
  · subst mine
    rw [Function.update_self] at here
    exact tester op here
  · rw [Function.update_of_ne mine] at here
    exact h.tester v op here

theorem Balanced.moves (supplies : M.Supplies inv supply) (locked : Locked s) (good : inv s.data) (h : Balanced M supply s)
    (move : M.Moves s l s') : Balanced M supply s' := by
  cases move with
  | entered t op here =>
    obtain ⟨sleeper, tester⟩ := h.stands (m := { s with pc := Function.update s.pc t (.entering op) }) rfl
      (fun _ same => by cases same) (fun _ same => by cases same)
    refine ⟨sleeper, tester, fun some' => (h.enough some').trans (Nat.le_of_eq ?_)⟩
    congr 1
    simp only [State.credit]
    cases owner : s.owner with
    | none => rfl
    | some v =>
      have apart : v ≠ t := by
        rintro rfl
        have inside := (locked.owner v).1 owner
        rw [here] at inside
        cases inside
      simp only [Option.elim_some, Function.update_of_ne apart]
  | locked t op here free =>
    obtain ⟨sleeper, tester⟩ := h.stands (m := { s with owner := some t, pc := Function.update s.pc t (.testing op false) })
      rfl (fun _ same => by cases same) (fun _ same => by cases same)
    refine ⟨sleeper, tester, fun some' => ?_⟩
    have enough := h.enough some'
    rw [credit_of_free free] at enough
    exact enough.trans (Nat.add_le_add_left (Nat.zero_le _) _)
  | relocked t op here free woken =>
    have waits := h.sleeper t op here
    obtain ⟨sleeper, tester⟩ := h.stands
      (m := { s with owner := some t, woken := s.woken.erase t, pc := Function.update s.pc t (.testing op true) })
      rfl (fun _ same => by cases same) (fun _ same => by cases same; exact waits)
    refine ⟨sleeper, tester, fun some' => ?_⟩
    have enough := h.enough some'
    rw [credit_of_free free] at enough
    rw [credit_of_owner (s := s) (t := t) rfl rfl]
    have length := List.length_erase_add_one woken
    simp only [Pc.credit]
    omega
  | acted t op w r data here ready act =>
    have inside : (s.pc t).inside = true := by rw [here]; rfl
    obtain ⟨sleeper, tester⟩ := h.stands
      (m := { s with data, pc := Function.update s.pc t (if M.notifies op then .notifying r else .leaving r) }) rfl
      (fun _ same => by split at same <;> cases same) (fun _ same => by split at same <;> cases same)
    refine ⟨sleeper, tester, fun some' => ?_⟩
    have enough := h.enough some'
    rw [locked.credit inside, here] at enough
    have next : State.credit { s with
          data := data
          pc := Function.update s.pc t (if M.notifies op then .notifying r else .leaving r) } =
        (if M.notifies op then Pc.notifying r else .leaving r : Pc ο ρ).credit :=
      credit_of_owner ((locked.owner t).2 inside) rfl
    rw [next]
    cases kind : M.notifies op with
    | true =>
      -- it has not slept, so it has no credit yet
      have fresh : w = false := by
        cases w with
        | false => rfl
        | true => exact absurd (kind.symm.trans (h.tester t op here)) (by simp)
      have more := supplies.gives _ _ _ _ good kind act
      rw [fresh] at enough
      simp only [Pc.credit, if_true] at enough ⊢
      omega
    | false =>
      have less := supplies.takes _ _ _ _ good kind ready act
      have one : (Pc.testing op w : Pc ο ρ).credit ≤ 1 := by cases w <;> simp [Pc.credit]
      simp only [Bool.false_eq_true, if_false]
      omega
  | slept t op w here unready =>
    have waits : M.notifies op = false := by
      cases kind : M.notifies op with
      | false => rfl
      | true => exact absurd (unready.symm.trans (supplies.always _ _ kind)) (by simp)
    obtain ⟨sleeper, tester⟩ := h.stands
      (m := { s with owner := none, waiting := s.waiting ++ [t], pc := Function.update s.pc t (.sleeping op) }) rfl
      (fun _ same => by cases same; exact waits) (fun _ same => by cases same)
    refine ⟨sleeper, tester, fun _ => ?_⟩
    rw [supplies.blocked _ _ good unready]
    exact Nat.zero_le _
  | notified t r u here asleep =>
    have inside : (s.pc t).inside = true := by rw [here]; rfl
    obtain ⟨sleeper, tester⟩ := h.stands
      (m := { s with waiting := s.waiting.erase u, woken := s.woken ++ [u], pc := Function.update s.pc t (.leaving r) })
      rfl (fun _ same => by cases same) (fun _ same => by cases same)
    refine ⟨sleeper, tester, fun _ => ?_⟩
    have enough := h.enough (List.ne_nil_of_mem asleep)
    rw [locked.credit inside, here] at enough
    simp only [Pc.credit, List.length_append, List.length_singleton] at enough ⊢
    omega
  | nobody t r here empty =>
    obtain ⟨sleeper, tester⟩ := h.stands (m := { s with pc := Function.update s.pc t (.leaving r) }) rfl
      (fun _ same => by cases same) (fun _ same => by cases same)
    exact ⟨sleeper, tester, fun some' => absurd empty some'⟩
  | unlocked t r here =>
    have inside : (s.pc t).inside = true := by rw [here]; rfl
    obtain ⟨sleeper, tester⟩ := h.stands (m := { s with owner := none, pc := Function.update s.pc t .out }) rfl
      (fun _ same => by cases same) (fun _ same => by cases same)
    refine ⟨sleeper, tester, fun some' => ?_⟩
    have enough := h.enough some'
    rw [locked.credit inside, here] at enough
    exact enough
  | woke t asleep =>
    refine ⟨h.sleeper, h.tester, fun _ => ?_⟩
    have enough := h.enough (List.ne_nil_of_mem asleep)
    simp only [State.credit, List.length_append, List.length_singleton] at enough ⊢
    omega

theorem balanced_of_reach (supplies : M.Supplies inv supply) (h : (M.machine τ).Reach s) : Balanced M supply s :=
  h.invariant_with (fun s => Locked s ∧ inv s.data)
    (fun _ h => ⟨locked_of_reach h, data_invariant h supplies.base supplies.kept⟩)
    ⟨fun _ _ here => (by cases here), fun _ _ here => (by cases here), fun some' => absurd rfl some'⟩
    fun _ _ _ known before _ e _ => before.moves supplies known.1 known.2 (step_moves e)

/-- Nobody sleeps beside a supply: somebody was woken, or the thread inside is about to
notify or comes from the condition variable itself. -/
theorem supply_watched (supplies : M.Supplies inv supply) (h : (M.machine τ).Reach s) (asleep : s.waiting ≠ [])
    (some' : 0 < supply s.data) : s.woken ≠ [] ∨ ∃ t, s.owner = some t ∧ (s.pc t).credit = 1 := by
  have enough := (balanced_of_reach supplies h).enough asleep
  by_contra nobody
  obtain ⟨empty, idle⟩ := not_or.1 nobody
  rw [not_not.1 empty, List.length_nil, Nat.zero_add] at enough
  refine idle ?_
  unfold State.credit at enough
  cases owner : s.owner with
  | none =>
    rw [owner, Option.elim_none] at enough
    omega
  | some t =>
    rw [owner, Option.elim_some] at enough
    have one : (s.pc t).credit ≤ 1 := by
      unfold Pc.credit
      split <;> simp
    exact ⟨t, rfl, by omega⟩

end Supply

/-! ## Linearizability -/

/-- The data with the operations, without threads. -/
def object (M : Monitor ο ρ σ) : Linearize.Object ο ρ σ where
  init := M.init
  apply d op := if M.ready d op then M.act d op else none

def Pc.standing : Pc ο ρ → Linearize.Standing ο ρ
  | .out => .fresh
  | .entering op | .testing op _ | .sleeping op => .pending op
  | .notifying r | .leaving r => .decided r

/-- A call begins before it takes the mutex and returns when it has given it up. -/
def view (τ ο ρ σ : Type*) : Linearize.View (State τ ο ρ σ) (Label τ ο) τ ο ρ σ where
  object s := s.data
  standing s t := (s.pc t).standing
  visible s l _ :=
    match l with
    | .enter t op => [.invoke t op]
    | .unlock t =>
      match s.pc t with
      | .leaving r => [.respond t r]
      | _ => []
    | _ => []

section Linear

variable {s s' : State τ ο ρ σ} {l : Label τ ο} {t : τ} {p : Pc ο ρ} {op : ο} {r : ρ}

theorem standing_update {standing : Linearize.Standing ο ρ} (pc : s'.pc = Function.update s.pc t p)
    (stands : p.standing = standing) :
    (view τ ο ρ σ).standing s' = Function.update ((view τ ο ρ σ).standing s) t standing := by
  funext u
  simp only [view, pc, ← stands]
  by_cases mine : u = t
  · rw [mine, Function.update_self, Function.update_self]
  · rw [Function.update_of_ne mine, Function.update_of_ne mine]

theorem standing_same (pc : s'.pc = Function.update s.pc t p) (same : p.standing = (s.pc t).standing) :
    (view τ ο ρ σ).standing s' = (view τ ο ρ σ).standing s := by
  rw [standing_update pc same]
  exact Function.update_eq_self t ((view τ ο ρ σ).standing s)

/-- Every step of a monitor is one of the object's clients. -/
theorem follows_step (e : M.step s l = some s') : (view τ ο ρ σ).Follows M.object s l s' := by
  cases l with
  | enter t op =>
    simp only [step] at e
    split at e <;> cases e
    rename_i here
    exact .begins (p := t) (by simp only [view, here, Pc.standing]) rfl (standing_update rfl rfl) rfl
  | lock t =>
    simp only [step] at e
    split at e
    · rename_i here
      cases e
      exact .stays rfl (standing_same rfl (by rw [here]; rfl)) rfl
    · rename_i here
      split at e <;> cases e
      exact .stays rfl (standing_same rfl (by rw [here]; rfl)) rfl
    · cases e
  | test t =>
    simp only [step] at e
    split at e
    · rename_i op w here
      split at e
      · rename_i ready
        split at e <;> cases e
        rename_i r data act
        refine .decided (p := t) (o := op) (r := r) (by simp only [view, here, Pc.standing]) ?_ ?_ rfl
        · exact (if_pos ready).trans act
        · refine standing_update rfl ?_
          split <;> rfl
      · cases e
        exact .stays rfl (standing_same rfl (by rw [here]; rfl)) rfl
    · cases e
  | notify t whom =>
    simp only [step] at e
    split at e
    · rename_i here
      split at e
      · split at e <;> cases e
        exact .stays rfl (standing_same rfl (by rw [here]; rfl)) rfl
      · split at e <;> cases e
        exact .stays rfl (standing_same rfl (by rw [here]; rfl)) rfl
    · cases e
  | unlock t =>
    simp only [step] at e
    split at e <;> cases e
    rename_i r here
    refine .returns (p := t) (r := r) (by simp only [view, here, Pc.standing]) rfl (standing_update rfl rfl) ?_
    simp only [view, here]
  | spurious t =>
    simp only [step] at e
    split at e <;> cases e
    exact .stays rfl rfl rfl

/-- What calls return is what the data without threads returns, one call after the other. -/
theorem linearizable {s : State τ ο ρ σ × List (Linearize.Event τ ο ρ)}
    (h : ((M.machine τ).watched (view τ ο ρ σ).visible).Reach s) :
    Linearize.WellFormed (Linearize.number s.2) ∧ Linearize.Linearizable M.object (Linearize.number s.2) :=
  Linearize.linearizable_of_follows ⟨rfl, rfl⟩ (fun _ _ _ _ e => follows_step e) h

end Linear

end Monitor

end Interleave
