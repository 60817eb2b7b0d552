import Mathlib.Data.List.Nodup
import Mathlib.Data.List.Sublists
import Mycoroutine.Interleave.Machine

/-!
# Linearizability

A sequential object says what an operation may do in a state; an operation that
has to wait is not enabled. A history is what clients see of concurrent calls:
their invocations and their responses. It is linearizable if the calls can be put
in an order that the object allows, with every call that was answered in it, and
with a call that was answered before another was invoked in front of it.

The proof rule is the linearization point. An `Observer` keeps an object of its
own next to the history and applies an operation to it at a `point`, between the
invocation and the response; its histories are linearizable. A machine is
linearizable if an observer can follow its runs.
-/

namespace Interleave
set_option autoImplicit false

/-- `M` with what is seen of its steps, in the order of the run. -/
def Machine.watched {σ ℓ ε : Type*} (M : Machine σ ℓ) (visible : σ → ℓ → σ → List ε) : Machine (σ × List ε) ℓ where
  init := (M.init, [])
  step s l := (M.step s.1 l).map fun next => (next, s.2 ++ visible s.1 l next)

/-- What is seen does not matter to the run. -/
theorem Machine.reach_of_watched {σ ℓ ε : Type*} {M : Machine σ ℓ} {visible : σ → ℓ → σ → List ε} {s : σ × List ε}
    (h : (M.watched visible).Reach s) : M.Reach s.1 := by
  induction h with
  | init => exact .init
  | step _ _ e ih =>
    obtain ⟨next, moved, rfl⟩ := Option.map_eq_some_iff.1 e
    exact ih.step trivial moved

/-- A run goes on from where another ends. -/
theorem Machine.exec_trans {σ ℓ : Type*} {M : Machine σ ℓ} {s m s' : σ} {ls ls' : List ℓ} (first : M.exec s ls = some m)
    (second : M.exec m ls' = some s') : M.exec s (ls ++ ls') = some s' := by
  induction ls generalizing s with
  | nil =>
    cases first
    exact second
  | cons l ls ih =>
    obtain ⟨next, moved, rest⟩ := Option.bind_eq_some_iff.1 first
    exact Option.bind_eq_some_iff.2 ⟨next, moved, ih rest⟩

namespace Linearize

/-- `apply` gives the result of an operation and the state after it. -/
structure Object (ο ρ σ : Type*) where
  init : σ
  apply : σ → ο → Option (ρ × σ)

/-- What a client sees of a call. -/
inductive Event (ι ο ρ : Type*) where
  | invoke (call : ι) (op : ο)
  | respond (call : ι) (result : ρ)

/-- A call with its result. -/
structure Answered (ι ο ρ : Type*) where
  call : ι
  op : ο
  result : ρ

variable {ι ο ρ σ τ ℓ : Type*}

/-- The object does the calls one after the other. -/
inductive Object.Runs (O : Object ο ρ σ) : List (Answered ι ο ρ) → σ → Prop where
  | nil : Runs O [] O.init
  | snoc {order : List (Answered ι ο ρ)} {s s' : σ} (a : Answered ι ο ρ) :
      Runs O order s → O.apply s a.op = some (a.result, s') → Runs O (order ++ [a]) s'

/-- `order` is a linearization of the history. -/
structure Linearizes (O : Object ο ρ σ) (history : List (Event ι ο ρ)) (order : List (Answered ι ο ρ)) : Prop where
  runs : ∃ s, O.Runs order s
  once : (order.map (·.call)).Nodup
  invoked : ∀ a ∈ order, .invoke a.call a.op ∈ history
  answered : ∀ c r, .respond c r ∈ history → ∃ a ∈ order, a.call = c ∧ a.result = r
  realTime : ∀ a ∈ order, ∀ b ∈ order, ∀ r, [.respond a.call r, .invoke b.call b.op].Sublist history →
    [a, b].Sublist order

def Linearizable (O : Object ο ρ σ) (history : List (Event ι ο ρ)) : Prop := ∃ order, Linearizes O history order

/-- Calls are invoked once, and answered once, after that. -/
structure WellFormed (history : List (Event ι ο ρ)) : Prop where
  invokedOnce : ∀ c op op', ¬ [.invoke c op, .invoke c op'].Sublist history
  answeredOnce : ∀ c r r', ¬ [.respond c r, .respond c r'].Sublist history
  answeredLater : ∀ c r, .respond c r ∈ history → ∃ op, [.invoke c op, .respond c r].Sublist history

/-! ## Lists in pairs -/

section Pairs

variable {α : Type*} {a b x : α} {l : List α}

theorem pair_sublist_snoc : [a, b].Sublist (l ++ [x]) ↔ [a, b].Sublist l ∨ b = x ∧ a ∈ l := by
  rw [← List.reverse_sublist, List.reverse_append, List.reverse_singleton, List.singleton_append,
    show [a, b].reverse = [b, a] from rfl]
  constructor
  · intro sub
    cases sub with
    | cons _ sub => exact .inl (List.reverse_sublist.1 sub)
    | cons_cons _ sub => exact .inr ⟨rfl, by simpa using sub⟩
  · rintro (sub | ⟨rfl, mem⟩)
    · exact (List.reverse_sublist.2 sub).cons x
    · exact List.Sublist.cons_cons _ (by simpa using mem)

theorem mem_left_of_pair (sub : [a, b].Sublist l) : a ∈ l := sub.subset List.mem_cons_self

end Pairs

/-! ## The observer -/

/-- Where a call stands: `decided` is past its linearization point. -/
inductive Status (ο ρ : Type*) where
  | fresh
  | pending (op : ο)
  | decided (op : ο) (result : ρ)
  | answered (op : ο) (result : ρ)

/-- A step of a call; `point` is its linearization point. -/
inductive Mark (ι ο : Type*) where
  | invoke (call : ι) (op : ο)
  | point (call : ι)
  | respond (call : ι)

structure Observer (ι ο ρ σ : Type*) where
  object : σ
  status : ι → Status ο ρ
  history : List (Event ι ο ρ)
  order : List (Answered ι ο ρ)

namespace Observer

variable [DecidableEq ι] (O : Object ο ρ σ) (w : Observer ι ο ρ σ)

def setStatus (c : ι) (status : Status ο ρ) : Observer ι ο ρ σ :=
  { w with status := Function.update w.status c status }

def log (e : Event ι ο ρ) : Observer ι ο ρ σ := { w with history := w.history ++ [e] }

/-- The call is past its linearization point. -/
def decide (c : ι) (op : ο) (result : ρ) (object : σ) : Observer ι ο ρ σ :=
  { w.setStatus c (.decided op result) with object, order := w.order ++ [⟨c, op, result⟩] }

def step : Mark ι ο → Option (Observer ι ο ρ σ)
  | .invoke c op =>
    match w.status c with
    | .fresh => some ((w.setStatus c (.pending op)).log (.invoke c op))
    | _ => none
  | .point c =>
    match w.status c with
    | .pending op =>
      match O.apply w.object op with
      | some (result, object) => some (w.decide c op result object)
      | none => none
    | _ => none
  | .respond c =>
    match w.status c with
    | .decided op result => some ((w.setStatus c (.answered op result)).log (.respond c result))
    | _ => none

/-- No call was made. -/
def machine : Machine (Observer ι ο ρ σ) (Mark ι ο) where
  init := { object := O.init, status := fun _ => .fresh, history := [], order := [] }
  step := step O

end Observer

/-- The operation of a call that was invoked. -/
def Status.op : Status ο ρ → Option ο
  | .fresh => none
  | .pending op | .decided op _ | .answered op _ => some op

/-- The operation and the result of a call that is past its linearization point. -/
def Status.done : Status ο ρ → Option (ο × ρ)
  | .fresh | .pending _ => none
  | .decided op result | .answered op result => some (op, result)

/-- The result that a client was given. -/
def Status.told : Status ο ρ → Option ρ
  | .answered _ result => some result
  | _ => none

/-- The history and the order say of each call what its status says. -/
structure Tracks (O : Object ο ρ σ) (w : Observer ι ο ρ σ) : Prop where
  runs : O.Runs w.order w.object
  once : (w.order.map (·.call)).Nodup
  decided : ∀ a, a ∈ w.order ↔ (w.status a.call).done = some (a.op, a.result)
  invoked : ∀ c op, .invoke c op ∈ w.history ↔ (w.status c).op = some op
  told : ∀ c r, .respond c r ∈ w.history ↔ (w.status c).told = some r
  wellFormed : WellFormed w.history
  realTime : ∀ a ∈ w.order, ∀ b ∈ w.order, ∀ r, [.respond a.call r, .invoke b.call b.op].Sublist w.history →
    [a, b].Sublist w.order

section Observing

variable {O : Object ο ρ σ} {w w' : Observer ι ο ρ σ} {c : ι} {op : ο} {r : ρ} {object : σ}

theorem tracks_init [DecidableEq ι] : Tracks O (Observer.machine (ι := ι) O).init where
  runs := .nil
  once := .nil
  decided a := by simp [Observer.machine, Status.done]
  invoked c op := by simp [Observer.machine, Status.op]
  told c r := by simp [Observer.machine, Status.told]
  wellFormed := by constructor <;> simp [Observer.machine]
  realTime := by simp [Observer.machine]

/-- What is read off the status of each call stays if it stays for the call that moves. -/
theorem read_update [DecidableEq ι] {α : Type*} (read : Status ο ρ → α) {status : Status ο ρ}
    (same : read status = read (w.status c)) (d : ι) : read (Function.update w.status c status d) = read (w.status d) := by
  by_cases mine : d = c
  · rw [mine, Function.update_self, same]
  · rw [Function.update_of_ne mine]

theorem Tracks.invoke [DecidableEq ι] (h : Tracks O w) (fresh : w.status c = .fresh) :
    Tracks O ((w.setStatus c (.pending op)).log (.invoke c op)) := by
  have unknown (op' : ο) : .invoke c op' ∉ w.history := fun mem => by
    have invoked := (h.invoked c op').1 mem
    rw [fresh] at invoked
    cases invoked
  constructor
  case runs => exact h.runs
  case once => exact h.once
  case decided =>
    intro a
    simp only [Observer.log, Observer.setStatus, h.decided]
    rw [read_update Status.done (by rw [fresh]; rfl)]
  case invoked =>
    intro d op'
    simp only [Observer.log, Observer.setStatus, List.mem_append, List.mem_singleton, Event.invoke.injEq, h.invoked]
    by_cases mine : d = c
    · subst mine
      simp [fresh, Status.op, eq_comm]
    · simp [mine]
  case told =>
    intro d r
    simp only [Observer.log, Observer.setStatus, List.mem_append, List.mem_singleton, reduceCtorEq, or_false, h.told]
    rw [read_update Status.told (by rw [fresh]; rfl)]
  case wellFormed =>
    constructor
    case invokedOnce =>
      intro d op' op'' sub
      rcases pair_sublist_snoc.1 sub with old | ⟨new, mem⟩
      · exact h.wellFormed.invokedOnce d op' op'' old
      · cases new
        exact unknown op' mem
    case answeredOnce =>
      intro d r r' sub
      rcases pair_sublist_snoc.1 sub with old | ⟨new, -⟩
      · exact h.wellFormed.answeredOnce d r r' old
      · cases new
    case answeredLater =>
      intro d r mem
      rcases List.mem_append.1 mem with mem | mem
      · obtain ⟨op', sub⟩ := h.wellFormed.answeredLater d r mem
        exact ⟨op', pair_sublist_snoc.2 (.inl sub)⟩
      · cases List.mem_singleton.1 mem
  case realTime =>
    intro a ha b hb r sub
    rcases pair_sublist_snoc.1 sub with old | ⟨new, -⟩
    · exact h.realTime a ha b hb r old
    · -- the call that is invoked now has no place in the order
      have decided := (h.decided b).1 hb
      have isNew : b.call = c := (Event.invoke.inj new).1
      rw [isNew, fresh] at decided
      cases decided

theorem Tracks.point [DecidableEq ι] (h : Tracks O w) (pending : w.status c = .pending op)
    (applied : O.apply w.object op = some (r, object)) :
    Tracks O (w.decide c op r object) := by
  have undecided (a : Answered ι ο ρ) (mem : a ∈ w.order) : a.call ≠ c := fun mine => by
    have decided := (h.decided a).1 mem
    rw [mine, pending] at decided
    cases decided
  constructor
  case runs => exact h.runs.snoc ⟨c, op, r⟩ applied
  case once =>
    simp only [Observer.decide, List.map_append, List.map_singleton]
    refine h.once.append (List.nodup_singleton c) (List.disjoint_singleton.2 fun mem => ?_)
    obtain ⟨a, old, mine⟩ := List.mem_map.1 mem
    exact undecided a old mine
  case decided =>
    intro a
    simp only [Observer.decide, Observer.setStatus, List.mem_append, List.mem_singleton, h.decided]
    by_cases mine : a.call = c
    · rw [mine, Function.update_self, pending]
      obtain ⟨call, op', r'⟩ := a
      cases mine
      simp [Status.done, eq_comm]
    · rw [Function.update_of_ne mine]
      refine or_iff_left fun new => mine ?_
      rw [new]
  case invoked =>
    intro d op'
    simp only [Observer.decide, Observer.setStatus, h.invoked]
    rw [read_update Status.op (by rw [pending]; rfl)]
  case told =>
    intro d r'
    simp only [Observer.decide, Observer.setStatus, h.told]
    rw [read_update Status.told (by rw [pending]; rfl)]
  case wellFormed => exact h.wellFormed
  case realTime =>
    intro a ha b hb r' sub
    refine pair_sublist_snoc.2 ?_
    rcases List.mem_append.1 ha with olda | newa
    · rcases List.mem_append.1 hb with oldb | newb
      · exact .inl (h.realTime a olda b oldb r' sub)
      · exact .inr ⟨List.mem_singleton.1 newb, olda⟩
    · -- the call whose point this is was not answered yet
      have told := (h.told a.call r').1 (mem_left_of_pair sub)
      rw [List.mem_singleton.1 newa, pending] at told
      cases told

theorem Tracks.respond [DecidableEq ι] (h : Tracks O w) (decided : w.status c = .decided op r) :
    Tracks O ((w.setStatus c (.answered op r)).log (.respond c r)) := by
  have silent (r' : ρ) : .respond c r' ∉ w.history := fun mem => by
    have told := (h.told c r').1 mem
    rw [decided] at told
    cases told
  constructor
  case runs => exact h.runs
  case once => exact h.once
  case decided =>
    intro a
    simp only [Observer.log, Observer.setStatus, h.decided]
    rw [read_update Status.done (by rw [decided]; rfl)]
  case invoked =>
    intro d op'
    simp only [Observer.log, Observer.setStatus, List.mem_append, List.mem_singleton, reduceCtorEq, or_false, h.invoked]
    rw [read_update Status.op (by rw [decided]; rfl)]
  case told =>
    intro d r'
    simp only [Observer.log, Observer.setStatus, List.mem_append, List.mem_singleton, Event.respond.injEq, h.told]
    by_cases mine : d = c
    · subst mine
      simp [decided, Status.told, eq_comm]
    · simp [mine]
  case wellFormed =>
    constructor
    case invokedOnce =>
      intro d op' op'' sub
      rcases pair_sublist_snoc.1 sub with old | ⟨new, -⟩
      · exact h.wellFormed.invokedOnce d op' op'' old
      · cases new
    case answeredOnce =>
      intro d r' r'' sub
      rcases pair_sublist_snoc.1 sub with old | ⟨new, mem⟩
      · exact h.wellFormed.answeredOnce d r' r'' old
      · cases new
        exact silent r' mem
    case answeredLater =>
      intro d r' mem
      rcases List.mem_append.1 mem with mem | mem
      · obtain ⟨op', sub⟩ := h.wellFormed.answeredLater d r' mem
        exact ⟨op', pair_sublist_snoc.2 (.inl sub)⟩
      · cases List.mem_singleton.1 mem
        have invoked : .invoke c op ∈ w.history := (h.invoked c op).2 (by rw [decided]; rfl)
        exact ⟨op, pair_sublist_snoc.2 (.inr ⟨rfl, invoked⟩)⟩
  case realTime =>
    intro a ha b hb r' sub
    rcases pair_sublist_snoc.1 sub with old | ⟨new, -⟩
    · exact h.realTime a ha b hb r' old
    · cases new

theorem Tracks.step [DecidableEq ι] {m : Mark ι ο} (h : Tracks O w) (e : w.step O m = some w') : Tracks O w' := by
  cases m with
  | invoke c op =>
    simp only [Observer.step] at e
    split at e <;> cases e
    exact h.invoke ‹_›
  | point c =>
    simp only [Observer.step] at e
    split at e
    · rename_i op pending
      split at e <;> cases e
      rename_i r object applied
      exact h.point pending applied
    · cases e
  | respond c =>
    simp only [Observer.step] at e
    split at e <;> cases e
    exact h.respond ‹_›

theorem tracks_of_reach [DecidableEq ι] (h : (Observer.machine O).Reach w) : Tracks O w :=
  h.invariant tracks_init fun _ _ _ inv _ e => inv.step e

theorem Tracks.linearizes (h : Tracks O w) : Linearizes O w.history w.order where
  runs := ⟨w.object, h.runs⟩
  once := h.once
  invoked a mem := by
    refine (h.invoked a.call a.op).2 ?_
    have decided := (h.decided a).1 mem
    cases at' : w.status a.call <;> rw [at'] at decided <;> simp_all [Status.done, Status.op]
  answered c r mem := by
    have told := (h.told c r).1 mem
    cases at' : w.status c with
    | answered op r' =>
      rw [at'] at told
      cases told
      exact ⟨⟨c, op, r⟩, (h.decided _).2 (by rw [at']; rfl), rfl, rfl⟩
    | fresh | pending | decided =>
      rw [at'] at told
      cases told
  realTime := h.realTime

end Observing

/-! ## Clients that call again and again -/

variable {φ : Type*}

/-- How often client `p` was answered. -/
def answers [DecidableEq φ] (p : φ) (history : List (Event φ ο ρ)) : Nat :=
  history.countP fun
    | .invoke .. => false
    | .respond q _ => q = p

/-- An event by which call of its client it belongs to, `past` being what came before. -/
def Event.number [DecidableEq φ] (past : List (Event φ ο ρ)) : Event φ ο ρ → Event (φ × Nat) ο ρ
  | .invoke p op => .invoke (p, answers p past) op
  | .respond p r => .respond (p, answers p past) r

/-- The history of the clients with their calls numbered. -/
def number [DecidableEq φ] (history : List (Event φ ο ρ)) : List (Event (φ × Nat) ο ρ) :=
  history.mapIdx fun i e => e.number (history.take i)

/-- Where a client stands: `fresh` is between two calls, `decided` past the
linearization point of its call. -/
inductive Standing (ο ρ : Type*) where
  | fresh
  | pending (op : ο)
  | decided (result : ρ)

/-- Where the client of a call stands before the call is answered. -/
def Status.standing : Status ο ρ → Option (Standing ο ρ)
  | .fresh => some .fresh
  | .pending op => some (.pending op)
  | .decided _ result => some (.decided result)
  | .answered _ _ => none

theorem Status.eq_fresh {status : Status ο ρ} (h : status.standing = some .fresh) : status = .fresh := by
  cases status <;> cases h
  rfl

theorem Status.eq_pending {status : Status ο ρ} {op : ο} (h : status.standing = some (.pending op)) :
    status = .pending op := by
  cases status <;> cases h
  rfl

theorem Status.eq_decided {status : Status ο ρ} {r : ρ} (h : status.standing = some (.decided r)) :
    ∃ op, status = .decided op r := by
  cases status <;> cases h
  exact ⟨_, rfl⟩

/-- An object with its clients, each of them in at most one call. -/
structure Sessions (φ ο ρ σ : Type*) where
  object : σ
  standing : φ → Standing ο ρ
  history : List (Event φ ο ρ)

namespace Sessions

variable [DecidableEq φ] (O : Object ο ρ σ)

def step (v : Sessions φ ο ρ σ) : Mark φ ο → Option (Sessions φ ο ρ σ)
  | .invoke p op =>
    match v.standing p with
    | .fresh => some { v with standing := Function.update v.standing p (.pending op), history := v.history ++ [.invoke p op] }
    | _ => none
  | .point p =>
    match v.standing p with
    | .pending op =>
      match O.apply v.object op with
      | some (r, object) => some { v with object, standing := Function.update v.standing p (.decided r) }
      | none => none
    | _ => none
  | .respond p =>
    match v.standing p with
    | .decided r => some { v with standing := Function.update v.standing p .fresh, history := v.history ++ [.respond p r] }
    | _ => none

def machine : Machine (Sessions φ ο ρ σ) (Mark φ ο) where
  init := { object := O.init, standing := fun _ => .fresh, history := [] }
  step := step O

end Sessions

section Clients

variable [DecidableEq φ] {O : Object ο ρ σ} {v v' : Sessions φ ο ρ σ} {w : Observer (φ × Nat) ο ρ σ}
  {history : List (Event φ ο ρ)} {e : Event φ ο ρ} {p q : φ} {op : ο} {r : ρ} {status : Status ο ρ}
  {standing : Standing ο ρ}

theorem number_snoc : number (history ++ [e]) = number history ++ [e.number history] := by
  unfold number
  rw [List.mapIdx_append, List.mapIdx_singleton, Nat.zero_add, List.take_left]
  congr 1
  refine List.mapIdx_eq_mapIdx_iff.2 fun i bound => ?_
  rw [List.take_append_of_le_length bound.le]

@[simp] theorem answers_invoke : answers q (history ++ [.invoke p op]) = answers q history := by
  simp [answers]

@[simp] theorem answers_respond :
    answers q (history ++ [.respond p r]) = answers q history + if p = q then 1 else 0 := by
  by_cases mine : p = q <;> simp [answers, mine]

/-- The status of call `i` of a client that was answered `n` times and stands at `standing`. -/
def Fits (n : Nat) (standing : Standing ο ρ) (i : Nat) (at' : Status ο ρ) : Prop :=
  (i < n → at'.told ≠ none) ∧ (i = n → at'.standing = some standing) ∧ (n < i → at' = .fresh)

/-- The observer of the numbered calls says what the sessions say. -/
structure Serves (w : Observer (φ × Nat) ο ρ σ) (v : Sessions φ ο ρ σ) : Prop where
  object : w.object = v.object
  history : w.history = number v.history
  fits : ∀ p i, Fits (answers p v.history) (v.standing p) i (w.status (p, i))

theorem Serves.here (h : Serves w v) (p : φ) : (w.status (p, answers p v.history)).standing = some (v.standing p) :=
  (h.fits p _).2.1 rfl

/-- The current call of a client gets another status. -/
theorem Serves.fits_update (h : Serves w v) (same : status.standing = some standing) (p q : φ) (i : Nat) :
    Fits (answers q v.history) (Function.update v.standing p standing q) i
      (Function.update w.status (p, answers p v.history) status (q, i)) := by
  have before := h.fits q i
  by_cases mine : q = p
  · subst mine
    rw [Function.update_self]
    by_cases now : i = answers q v.history
    · rw [now, Function.update_self]
      exact ⟨fun less => absurd less (lt_irrefl _), fun _ => same, fun less => absurd less (lt_irrefl _)⟩
    · rw [Function.update_of_ne fun same => now (Prod.mk.inj same).2]
      exact ⟨before.1, fun same => absurd same now, before.2.2⟩
  · rw [Function.update_of_ne mine, Function.update_of_ne fun same => mine (Prod.mk.inj same).1]
    exact before

theorem Serves.invoke (h : Serves w v) (fresh : v.standing p = .fresh) :
    ∃ w', (Observer.machine O).step w (.invoke (p, answers p v.history) op) = some w' ∧
      Serves w' { v with standing := Function.update v.standing p (.pending op), history := v.history ++ [.invoke p op] } := by
  have here : w.status (p, answers p v.history) = .fresh := Status.eq_fresh ((h.here p).trans (congrArg some fresh))
  refine ⟨(w.setStatus (p, answers p v.history) (.pending op)).log (.invoke (p, answers p v.history) op), ?_, ?_⟩
  · simp only [Observer.machine, Observer.step, here]
  · refine ⟨h.object, ?_, fun q i => ?_⟩
    · rw [number_snoc, ← h.history]
      rfl
    · rw [answers_invoke]
      exact h.fits_update rfl p q i

theorem Serves.point {object : σ} (h : Serves w v) (pending : v.standing p = .pending op)
    (applied : O.apply v.object op = some (r, object)) :
    ∃ w', (Observer.machine O).step w (.point (p, answers p v.history)) = some w' ∧
      Serves w' { v with object, standing := Function.update v.standing p (.decided r) } := by
  have here : w.status (p, answers p v.history) = .pending op := Status.eq_pending ((h.here p).trans (congrArg some pending))
  refine ⟨w.decide (p, answers p v.history) op r object, ?_, rfl, h.history, fun q i => h.fits_update rfl p q i⟩
  rw [← h.object] at applied
  simp only [Observer.machine, Observer.step, here, applied]

theorem Serves.respond (h : Serves w v) (decided : v.standing p = .decided r) :
    ∃ w', (Observer.machine O).step w (.respond (p, answers p v.history)) = some w' ∧
      Serves w' { v with standing := Function.update v.standing p .fresh, history := v.history ++ [.respond p r] } := by
  obtain ⟨op, here⟩ := Status.eq_decided ((h.here p).trans (congrArg some decided))
  refine ⟨(w.setStatus (p, answers p v.history) (.answered op r)).log (.respond (p, answers p v.history) r), ?_, ?_⟩
  · simp only [Observer.machine, Observer.step, here]
  · refine ⟨h.object, ?_, fun q i => ?_⟩
    · rw [number_snoc, ← h.history]
      rfl
    · rw [answers_respond]
      simp only [Observer.log, Observer.setStatus]
      have before := h.fits q i
      by_cases mine : p = q
      · subst mine
        rw [if_pos rfl, Function.update_self]
        by_cases now : i = answers p v.history
        · rw [now, Function.update_self]
          exact ⟨fun _ => nofun, fun same => absurd same (by omega), fun less => absurd less (by omega)⟩
        · rw [Function.update_of_ne fun same => now (Prod.mk.inj same).2]
          -- the next call of the client is the current one now
          have next : answers p v.history + 1 ≤ i → w.status (p, i) = .fresh := fun less => before.2.2 (by omega)
          exact ⟨fun less => before.1 (by omega), fun same => by rw [next same.ge]; rfl, fun less => next less.le⟩
      · rw [if_neg mine, Nat.add_zero, Function.update_of_ne (Ne.symm mine),
          Function.update_of_ne fun same => mine (Prod.mk.inj same).1.symm]
        exact before

theorem serves_init : Serves (Observer.machine O).init (Sessions.machine (φ := φ) O).init where
  object := rfl
  history := rfl
  fits _ i := ⟨fun less => absurd less (Nat.not_lt_zero i), fun _ => rfl, fun _ => rfl⟩

theorem Serves.step {m : Mark φ ο} (h : Serves w v) (e : v.step O m = some v') :
    ∃ l w', (Observer.machine O).step w l = some w' ∧ Serves w' v' := by
  cases m with
  | invoke p op =>
    simp only [Sessions.step] at e
    split at e <;> cases e
    exact ⟨_, h.invoke ‹_›⟩
  | point p =>
    simp only [Sessions.step] at e
    split at e
    · rename_i pending
      split at e <;> cases e
      rename_i applied
      exact ⟨_, h.point pending applied⟩
    · cases e
  | respond p =>
    simp only [Sessions.step] at e
    split at e <;> cases e
    exact ⟨_, h.respond ‹_›⟩

theorem observed_of_reach (h : (Sessions.machine O).Reach v) : ∃ w, (Observer.machine O).Reach w ∧ Serves w v := by
  induction h with
  | init => exact ⟨_, .init, serves_init⟩
  | step _ _ e ih =>
    obtain ⟨w, reach, serves⟩ := ih
    obtain ⟨l, w', moved, serves'⟩ := serves.step e
    exact ⟨w', reach.next l trivial moved, serves'⟩

/-- What clients see of the object is linearizable. -/
theorem linearizable_of_sessions (h : (Sessions.machine O).Reach v) :
    WellFormed (number v.history) ∧ Linearizable O (number v.history) := by
  obtain ⟨w, reach, serves⟩ := observed_of_reach h
  have tracks := tracks_of_reach reach
  rw [← serves.history]
  exact ⟨tracks.wellFormed, w.order, tracks.linearizes⟩

/-! ## The marks of a step -/

variable {object object' : σ} {stands : φ → Standing ο ρ}

theorem invokes (fresh : stands p = .fresh) : (Sessions.machine O).exec ⟨object, stands, history⟩ [.invoke p op] =
    some ⟨object, Function.update stands p (.pending op), history ++ [.invoke p op]⟩ := by
  simp only [Machine.exec, Sessions.machine, Sessions.step, fresh, Option.bind_some]

theorem decides (pending : stands p = .pending op) (applied : O.apply object op = some (r, object')) :
    (Sessions.machine O).exec ⟨object, stands, history⟩ [.point p] =
      some ⟨object', Function.update stands p (.decided r), history⟩ := by
  simp only [Machine.exec, Sessions.machine, Sessions.step, pending, applied, Option.bind_some]

theorem responds (decided : stands p = .decided r) : (Sessions.machine O).exec ⟨object, stands, history⟩ [.respond p] =
    some ⟨object, Function.update stands p .fresh, history ++ [.respond p r]⟩ := by
  simp only [Machine.exec, Sessions.machine, Sessions.step, decided, Option.bind_some]

/-- The call is decided and returns. -/
theorem finishes (pending : stands p = .pending op) (applied : O.apply object op = some (r, object')) :
    (Sessions.machine O).exec ⟨object, stands, history⟩ [.point p, .respond p] =
      some ⟨object', Function.update stands p .fresh, history ++ [.respond p r]⟩ := by
  refine (Machine.exec_trans (decides pending applied) (responds (Function.update_self ..))).trans ?_
  rw [Function.update_idem]

/-- The call begins, is decided and returns. -/
theorem calls (fresh : stands p = .fresh) (applied : O.apply object op = some (r, object')) :
    (Sessions.machine O).exec ⟨object, stands, history⟩ [.invoke p op, .point p, .respond p] =
      some ⟨object', stands, history ++ [.invoke p op, .respond p r]⟩ := by
  refine (Machine.exec_trans (invokes fresh) (finishes (Function.update_self ..) applied)).trans ?_
  rw [Function.update_idem, ← fresh, Function.update_eq_self, List.append_assoc, List.singleton_append]

end Clients

/-! ## Machines with a history -/

/-- What sessions see of a machine: the object, where each client stands, and the
events of a step. -/
structure View (τ ℓ φ ο ρ σ : Type*) where
  object : τ → σ
  standing : τ → φ → Standing ο ρ
  visible : τ → ℓ → τ → List (Event φ ο ρ)

/-- Sessions go along with the step, and see the same. -/
def View.Follows [DecidableEq φ] (V : View τ ℓ φ ο ρ σ) (O : Object ο ρ σ) (s : τ) (l : ℓ) (s' : τ) : Prop :=
  ∀ history, ∃ ms, (Sessions.machine O).exec ⟨V.object s, V.standing s, history⟩ ms =
    some ⟨V.object s', V.standing s', history ++ V.visible s l s'⟩

section Watching

variable [DecidableEq φ] {M : Machine τ ℓ} {O : Object ο ρ σ} {V : View τ ℓ φ ο ρ σ} {s s' : τ} {l : ℓ} {p : φ} {o : ο}
  {r : ρ}

theorem View.Follows.stays (object : V.object s' = V.object s) (standing : V.standing s' = V.standing s)
    (seen : V.visible s l s' = []) : V.Follows O s l s' := fun history =>
  ⟨[], by rw [Machine.exec, object, standing, seen, List.append_nil]⟩

/-- A call begins and waits. -/
theorem View.Follows.begins (fresh : V.standing s p = .fresh) (object : V.object s' = V.object s)
    (standing : V.standing s' = Function.update (V.standing s) p (.pending o)) (seen : V.visible s l s' = [.invoke p o]) :
    V.Follows O s l s' := fun history =>
  ⟨[.invoke p o], by rw [invokes fresh, object, standing, seen]⟩

/-- The linearization point of a call that returns later. -/
theorem View.Follows.decided (pending : V.standing s p = .pending o)
    (applied : O.apply (V.object s) o = some (r, V.object s'))
    (standing : V.standing s' = Function.update (V.standing s) p (.decided r)) (seen : V.visible s l s' = []) :
    V.Follows O s l s' := fun history =>
  ⟨[.point p], by rw [decides pending applied, standing, seen, List.append_nil]⟩

/-- A call begins, and its linearization point is in the same step; it returns later. -/
theorem View.Follows.enters (fresh : V.standing s p = .fresh) (applied : O.apply (V.object s) o = some (r, V.object s'))
    (standing : V.standing s' = Function.update (V.standing s) p (.decided r)) (seen : V.visible s l s' = [.invoke p o]) :
    V.Follows O s l s' := fun history => by
  refine ⟨[.invoke p o] ++ [.point p], (Machine.exec_trans (invokes fresh)
    (decides (Function.update_self ..) applied)).trans ?_⟩
  rw [Function.update_idem, standing, seen]

theorem View.Follows.returns (decided : V.standing s p = .decided r) (object : V.object s' = V.object s)
    (standing : V.standing s' = Function.update (V.standing s) p .fresh) (seen : V.visible s l s' = [.respond p r]) :
    V.Follows O s l s' := fun history =>
  ⟨[.respond p], by rw [responds decided, object, standing, seen]⟩

/-- The linearization point of a call that returns at once. -/
theorem View.Follows.finished (pending : V.standing s p = .pending o)
    (applied : O.apply (V.object s) o = some (r, V.object s'))
    (standing : V.standing s' = Function.update (V.standing s) p .fresh) (seen : V.visible s l s' = [.respond p r]) :
    V.Follows O s l s' := fun history =>
  ⟨[.point p, .respond p], by rw [finishes pending applied, standing, seen]⟩

/-- A whole call. -/
theorem View.Follows.called (fresh : V.standing s p = .fresh) (applied : O.apply (V.object s) o = some (r, V.object s'))
    (standing : V.standing s' = V.standing s) (seen : V.visible s l s' = [.invoke p o, .respond p r]) :
    V.Follows O s l s' := fun history =>
  ⟨[.invoke p o, .point p, .respond p], by rw [calls fresh applied, standing, seen]⟩

/-- A machine whose steps sessions follow is linearizable. -/
theorem linearizable_of_follows (base : V.object M.init = O.init ∧ V.standing M.init = fun _ => .fresh)
    (follows : ∀ s l s', M.Reach s → M.step s l = some s' → V.Follows O s l s')
    {s : τ × List (Event φ ο ρ)} (h : (M.watched V.visible).Reach s) :
    WellFormed (number s.2) ∧ Linearizable O (number s.2) := by
  have served : (Sessions.machine O).Reach ⟨V.object s.1, V.standing s.1, s.2⟩ := by
    induction h with
    | init =>
      simp only [Machine.watched, base.1, base.2]
      exact .init
    | step before _ e ih =>
      obtain ⟨next, moved, rfl⟩ := Option.map_eq_some_iff.1 e
      obtain ⟨ms, run⟩ := follows _ _ next (Machine.reach_of_watched before) moved _
      exact ih.exec_of run
  exact linearizable_of_sessions served

end Watching

end Linearize

end Interleave
