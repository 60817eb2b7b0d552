import Mathlib.Algebra.Group.Nat.Defs
import Mycoroutine.Interleave.Machine

/-!
# The table of fd contexts

`m_fdContexts` as `addEvent` looks an fd up and grows it, and as `delEvent`,
`cancelEvent` and `cancelAll` look it up. The size test of `addEvent` and its
`contextResize` are sections of their own, so by the time a thread resizes the
table another may have grown it further.

A context is named by the number of the `new` that made it. `got` is history:
the contexts that lookups returned.
-/

namespace Mycoroutine.FdTable
set_option autoImplicit false
open Interleave

/-- Where a thread stands: before the write-locked section of `addEvent`, past
a lookup, or past one that read out of bounds. -/
inductive Pc where
  | idle
  | grow (fd : Nat)
  | found (fd ctx : Nat)
  | wild
deriving DecidableEq

structure State where
  /-- `m_fdContexts`; `none` is a null pointer. -/
  contexts : List (Option Nat)
  created : Nat
  pc : Nat → Pc
  got : List (Nat × Nat)

/-- `addEvent` up to its body, and the lookup of the other three; `fd` is not
negative. -/
inductive Label where
  | addEvent (thread fd : Nat)
  | grow (thread : Nat)
  | lookup (thread fd : Nat)
  | finish (thread : Nat)

/-- The cast to `int`. -/
def toInt (n : Nat) : Int := (n : Int).bmod (2 ^ 32)

/-- The loop of `contextResize`; `next` names the next context made. -/
def fill (next : Nat) : List (Option Nat) → List (Option Nat)
  | [] => []
  | some ctx :: rest => some ctx :: fill next rest
  | none :: rest => some next :: fill (next + 1) rest

/-- `std::vector::resize`. -/
def resize (contexts : List (Option Nat)) (size : Nat) : List (Option Nat) :=
  contexts.take size ++ List.replicate (size - contexts.length) none

namespace State

/-- `contextResize`. -/
def contextResize (s : State) (size : Nat) : State :=
  let resized := resize s.contexts size
  { s with contexts := fill s.created resized, created := s.created + resized.count none }

/-- The size test that every lookup makes first. -/
def fits (s : State) (fd : Nat) : Bool := decide (toInt s.contexts.length > fd)

/-- `m_fdContexts[fd]`. -/
def take (s : State) (thread fd : Nat) : State :=
  match s.contexts[fd]? with
  | some (some ctx) => { s with pc := Function.update s.pc thread (.found fd ctx), got := s.got ++ [(fd, ctx)] }
  | _ => { s with pc := Function.update s.pc thread .wild }

end State

def step (s : State) : Label → Option State
  | .addEvent thread fd =>
    if s.pc thread = .idle ∧ fd < 2 ^ 31 then
      some (if s.fits fd then s.take thread fd else { s with pc := Function.update s.pc thread (.grow fd) })
    else none
  | .grow thread =>
    match s.pc thread with
    -- `fd * 1.5`, exact in a double and truncated
    | .grow fd => some ((s.contextResize (fd * 3 / 2)).take thread fd)
    | _ => none
  | .lookup thread fd =>
    if s.pc thread = .idle ∧ fd < 2 ^ 31 then some (if s.fits fd then s.take thread fd else s) else none
  | .finish thread =>
    match s.pc thread with
    | .found _ _ => some { s with pc := Function.update s.pc thread .idle }
    | _ => none

def State.empty : State := { contexts := [], created := 0, pc := fun _ => .idle, got := [] }

/-- Any number of threads on the table that the constructor makes. -/
def machine : Machine State Label where
  init := State.empty.contextResize 32
  step := step

/-! ## `contextResize` -/

section Resize

variable {contexts : List (Option Nat)} {next i : Nat}

theorem length_fill : (fill next contexts).length = contexts.length := by
  induction contexts generalizing next with
  | nil => rfl
  | cons ctx rest ih => cases ctx <;> simp [fill, ih]

theorem fill_filled : none ∉ fill next contexts := by
  induction contexts generalizing next with
  | nil => exact List.not_mem_nil
  | cons ctx rest ih => cases ctx <;> simp [fill, ih]

/-- A context that is there stays. -/
theorem fill_keeps {ctx : Nat} (here : contexts[i]? = some (some ctx)) :
    (fill next contexts)[i]? = some (some ctx) := by
  induction contexts generalizing next i with
  | nil => cases here
  | cons first rest ih =>
    cases i with
    | zero =>
      simp only [List.getElem?_cons_zero, Option.some.injEq] at here
      subst here
      rfl
    | succ i =>
      simp only [List.getElem?_cons_succ] at here
      cases first with
      | none => simpa only [fill, List.getElem?_cons_succ] using ih here
      | some c => simpa only [fill, List.getElem?_cons_succ] using ih here

theorem length_resize (size : Nat) : (resize contexts size).length = size := by
  rw [resize, List.length_append, List.length_take, List.length_replicate]
  omega

/-- A growing resize keeps every entry. -/
theorem resize_keeps {size : Nat} {entry : Option Nat} (grows : contexts.length ≤ size)
    (here : contexts[i]? = some entry) : (resize contexts size)[i]? = some entry := by
  have bound := (List.getElem?_eq_some_iff.1 here).1
  rw [resize, List.take_of_length_le grows, List.getElem?_append_left bound, here]

end Resize

/-- A thread resizes only a table that is no longer than what it asks for, and
that an `int` can count. -/
def GrowsOnly (s : State) : Label → Prop
  | .grow thread => ∀ fd, s.pc thread = .grow fd → s.contexts.length ≤ fd * 3 / 2 ∧ fd * 3 / 2 < 2 ^ 31
  | _ => True

/-- The table holds every context it ever returned. -/
structure Whole (s : State) : Prop where
  least : 32 ≤ s.contexts.length
  most : s.contexts.length < 2 ^ 31
  filled : none ∉ s.contexts
  got : ∀ fd ctx, (fd, ctx) ∈ s.got → s.contexts[fd]? = some (some ctx)
  bounds : ∀ thread, s.pc thread ≠ .wild

section Steps

variable {s s' : State} {thread fd : Nat}

theorem toInt_eq {n : Nat} (small : n < 2 ^ 31) : toInt n = n := by
  unfold toInt
  exact Int.bmod_eq_of_le (by omega) (by omega)

theorem whole_init : Whole machine.init where
  least := by simp only [machine, State.contextResize, length_fill, length_resize, Nat.le_refl]
  most := by
    simp only [machine, State.contextResize, length_fill, length_resize]
    omega
  filled := fill_filled
  got := nofun
  bounds _ := nofun

/-- A lookup within the table finds a context. -/
theorem Whole.take (h : Whole s) (bound : fd < s.contexts.length) :
    Whole (s.take thread fd) ∧ ∃ ctx, (s.take thread fd).pc thread = .found fd ctx := by
  obtain ⟨ctx, here⟩ : ∃ ctx, s.contexts[fd]? = some (some ctx) := by
    have entry := List.getElem?_eq_getElem bound
    cases at' : s.contexts[fd] with
    | none => exact absurd (at' ▸ List.getElem_mem bound) h.filled
    | some ctx => exact ⟨ctx, by rw [entry, at']⟩
  simp only [State.take, here]
  refine ⟨⟨h.least, h.most, h.filled, fun f c mem => ?_, fun v => ?_⟩, ctx, Function.update_self ..⟩
  · rcases List.mem_append.1 mem with old | new
    · exact h.got f c old
    · cases List.mem_singleton.1 new
      exact here
  · by_cases mine : v = thread
    · simp [mine]
    · simpa only [Function.update_of_ne mine] using h.bounds v

/-- A resize that does not shrink the table keeps what it holds. -/
theorem Whole.resized {size : Nat} (h : Whole s) (grows : s.contexts.length ≤ size) (small : size < 2 ^ 31) :
    Whole (s.contextResize size) where
  least := by
    simp only [State.contextResize, length_fill, length_resize]
    exact Nat.le_trans h.least grows
  most := by simpa only [State.contextResize, length_fill, length_resize] using small
  filled := fill_filled
  got f c mem := fill_keeps (resize_keeps grows (h.got f c mem))
  bounds := h.bounds

theorem Whole.step {l : Label} (h : Whole s) (cond : GrowsOnly s l) (e : step s l = some s') :
    Whole s' ∧ s.contexts.length ≤ s'.contexts.length := by
  have kept : ∀ thread fd, (s.take thread fd).contexts = s.contexts := fun thread fd => by
    unfold State.take
    split <;> rfl
  have fits : ∀ fd, s.fits fd = true → fd < s.contexts.length := fun fd fits => by
    rw [State.fits, toInt_eq h.most, decide_eq_true_eq] at fits
    omega
  have moved {p : Pc} (thread : Nat) (tame : p ≠ .wild) : Whole { s with pc := Function.update s.pc thread p } := by
    refine ⟨h.least, h.most, h.filled, h.got, fun v => ?_⟩
    by_cases mine : v = thread
    · simpa only [mine, Function.update_self] using tame
    · simpa only [Function.update_of_ne mine] using h.bounds v
  cases l with
  | addEvent thread fd =>
    simp only [FdTable.step] at e
    split at e
    · split at e <;> cases e
      · exact ⟨(h.take (fits fd ‹_›)).1, (kept thread fd).symm ▸ Nat.le_refl _⟩
      · exact ⟨moved thread nofun, Nat.le_refl _⟩
    · cases e
  | grow thread =>
    simp only [FdTable.step] at e
    split at e
    · rename_i fd here
      obtain ⟨grows, small⟩ := cond fd here
      have whole := h.resized grows small
      have size : (s.contextResize (fd * 3 / 2)).contexts.length = fd * 3 / 2 := by
        simp only [State.contextResize, length_fill, length_resize]
      cases e
      have bound : fd < (s.contextResize (fd * 3 / 2)).contexts.length := by
        have := h.least
        omega
      refine ⟨(whole.take bound).1, ?_⟩
      have same : ((s.contextResize (fd * 3 / 2)).take thread fd).contexts =
          (s.contextResize (fd * 3 / 2)).contexts := by
        unfold State.take
        split <;> rfl
      rw [same, size]
      exact grows
    · cases e
  | lookup thread fd =>
    simp only [FdTable.step] at e
    split at e
    · split at e <;> cases e
      · exact ⟨(h.take (fits fd ‹_›)).1, (kept thread fd).symm ▸ Nat.le_refl _⟩
      · exact ⟨h, Nat.le_refl _⟩
    · cases e
  | finish thread =>
    simp only [FdTable.step] at e
    split at e <;> cases e
    exact ⟨moved thread nofun, Nat.le_refl _⟩

theorem whole_of_reachIf (h : machine.ReachIf GrowsOnly s) : Whole s :=
  h.invariant whole_init fun _ _ _ inv cond e => (inv.step cond e).1

end Steps

/-- No lookup reads out of bounds, and every context that one returned is what
a lookup of its fd still finds. -/
structure State.Stable (s : State) : Prop where
  bounds : ∀ thread, s.pc thread ≠ .wild
  same : ∀ fd ctx, (fd, ctx) ∈ s.got → s.fits fd = true ∧ s.contexts[fd]? = some (some ctx)

/-- **Main theorem.** Where no resize shrinks the table, it only grows and every
fd keeps its context. -/
theorem only_grows (s : State) (h : machine.ReachIf GrowsOnly s) :
    s.Stable ∧ ∀ l s', GrowsOnly s l → step s l = some s' → s.contexts.length ≤ s'.contexts.length := by
  have whole := whole_of_reachIf h
  refine ⟨⟨whole.bounds, fun fd ctx mem => ⟨?_, whole.got fd ctx mem⟩⟩, fun l s' cond e => (whole.step cond e).2⟩
  have bound := (List.getElem?_eq_some_iff.1 (whole.got fd ctx mem)).1
  rw [State.fits, toInt_eq whole.most, decide_eq_true_eq]
  omega

/-- Two threads grow the table one after the other, and a third looks up what
the first registered. -/
theorem only_grows_twice : ∃ s, machine.ReachIf GrowsOnly s ∧ s.contexts.length = 105 ∧
    s.got = [(40, 40), (70, 70), (40, 40)] ∧ s.Stable := by
  have next {s s' : State} (h : machine.ReachIf GrowsOnly s) (l : Label) (c : GrowsOnly s l)
      (e : step s l = some s') : machine.ReachIf GrowsOnly s' := h.step c e
  have first := next (next .init (.addEvent 0 40) trivial rfl) (.grow 0) (fun fd here => ?_) rfl
  · have second := next (next first (.addEvent 1 70) trivial rfl) (.grow 1) (fun fd here => ?_) rfl
    · have found := next second (.lookup 2 40) trivial rfl
      exact ⟨_, found, rfl, rfl, (only_grows _ found).1⟩
    · cases here
      decide
  · cases here
    decide

/-- Thread 0 finds the table too short for fd 32; thread 1 grows it to 90 for
fd 60, and then thread 0 cuts it to 48. -/
theorem table_shrinks : ¬ ∀ s, machine.Reach s →
    s.Stable ∧ ∀ l s', step s l = some s' → s.contexts.length ≤ s'.contexts.length := fun h => by
  have reached := Machine.reach_of_exec (rfl : machine.exec machine.init
    [.addEvent 0 32, .addEvent 1 60, .grow 1] = some _)
  have shrinks := (h _ reached).2 (.grow 0) _ rfl
  revert shrinks
  decide

end Mycoroutine.FdTable
