import Mathlib.Algebra.Group.Nat.Defs
import Mycoroutine.IOManager.FdTable

/-!
# `FdManager`

`get` looks a number up under the read lock, gives it up, and makes the context
under the write lock. The second section tests the size of `m_datas` again, but not
the entry, so two threads that both found none both make one.

A context is named by the number of the `make_shared` that made it. `got` is history:
the contexts that `get` returned for a number since its last `del`.
-/

namespace Mycoroutine.FdManager
set_option autoImplicit false
open Interleave FdTable

/-- The settings of a context. -/
structure FdCtx where
  userNonblock : Bool := false
  isClosed : Bool := false
  recvTimeout : Nat := 2 ^ 64 - 1
  sendTimeout : Nat := 2 ^ 64 - 1
deriving DecidableEq

/-- Where a thread stands in `get`: outside, between the two locks, or past an access
out of bounds. -/
inductive Pc where
  | idle
  | upgrade (fd : Nat)
  | wild
deriving DecidableEq

structure State where
  /-- `m_datas`; `none` is a null pointer. -/
  datas : List (Option Nat)
  ctxs : Nat → FdCtx
  created : Nat
  pc : Nat → Pc
  got : List (Nat × Nat)

/-- `get` takes two steps where it makes a context. `set` is any setting made through
a context that a `get` returned. -/
inductive Label where
  | get (thread fd : Nat) (autoCreate : Bool)
  | create (thread : Nat)
  | del (fd : Nat)
  | set (fd ctx : Nat) (settings : FdCtx)

namespace State

/-- `m_datas[fd]`, null or not. -/
def entry (s : State) (fd : Nat) : Option Nat := s.datas[fd]?.join

def setPc (s : State) (thread : Nat) (pc : Pc) : State := { s with pc := Function.update s.pc thread pc }

/-- The read-locked section of `get`. -/
def get (s : State) (thread fd : Nat) (autoCreate : Bool) : State :=
  if s.datas.length ≤ fd then
    if autoCreate then s.setPc thread (.upgrade fd) else s
  else
    match s.datas[fd]? with
    | none => s.setPc thread .wild
    | some (some ctx) => { s with got := s.got ++ [(fd, ctx)] }
    | some none => if autoCreate then s.setPc thread (.upgrade fd) else s

/-- The write-locked section of `get`. -/
def create (s : State) (thread fd : Nat) : State :=
  -- `fd * 1.5`, exact in a double and truncated
  let datas := if s.datas.length ≤ fd then resize s.datas (fd * 3 / 2) else s.datas
  if fd < datas.length then
    { s with datas := datas.set fd (some s.created), ctxs := Function.update s.ctxs s.created {},
             created := s.created + 1, pc := Function.update s.pc thread .idle, got := s.got ++ [(fd, s.created)] }
  else s.setPc thread .wild

def del (s : State) (fd : Nat) : State :=
  if s.datas.length ≤ fd then s
  else
    let ctxs := match s.entry fd with
      | some ctx => Function.update s.ctxs ctx { s.ctxs ctx with isClosed := true }
      | none => s.ctxs
    { s with ctxs, datas := s.datas.set fd none, got := s.got.filter (·.1 ≠ fd) }

end State

/-- A number is a non-negative `int`. -/
def step (s : State) : Label → Option State
  | .get thread fd autoCreate => if s.pc thread = .idle ∧ fd < 2 ^ 31 then some (s.get thread fd autoCreate) else none
  | .create thread =>
    match s.pc thread with
    | .upgrade fd => some (s.create thread fd)
    | _ => none
  | .del fd => some (s.del fd)
  | .set fd ctx settings =>
    if (fd, ctx) ∈ s.got then some { s with ctxs := Function.update s.ctxs ctx settings } else none

/-- Any number of threads on the table that the constructor makes. -/
def machine : Machine State Label where
  init := { datas := List.replicate 64 none, ctxs := fun _ => {}, created := 0, pc := fun _ => .idle, got := [] }
  step := step

/-- A thread makes a context only for a number that still has none. -/
def FindsNone (s : State) : Label → Prop
  | .create thread => ∀ fd, s.pc thread = .upgrade fd → s.entry fd = none
  | _ => True

/-- No access is out of bounds, and the gets of a number since its last `del` returned
one object. -/
structure State.OneContext (s : State) : Prop where
  bounds : ∀ thread, s.pc thread ≠ .wild
  same : ∀ fd a b, (fd, a) ∈ s.got → (fd, b) ∈ s.got → a = b

/-- The entries of the other numbers stay. -/
def Apart (s s' : State) : Label → Prop
  | .create thread => ∀ fd, s.pc thread = .upgrade fd →
      (∀ x, x ≠ fd → s'.entry x = s.entry x) ∧ ∀ ctx, ctx < s.created → s'.ctxs ctx = s.ctxs ctx
  | .del fd => ∀ x, x ≠ fd → s'.entry x = s.entry x
  | _ => ∀ x, s'.entry x = s.entry x

/-! ## The table -/

/-- The table holds what the gets returned, and nothing else. -/
structure Kept (s : State) : Prop where
  least : 64 ≤ s.datas.length
  bounds : ∀ thread, s.pc thread ≠ .wild
  got : ∀ fd ctx, (fd, ctx) ∈ s.got ↔ s.entry fd = some ctx
  made : ∀ fd ctx, s.entry fd = some ctx → ctx < s.created

section Steps

variable {s s' : State} {thread fd : Nat}

theorem entry_set (datas : List (Option Nat)) (value : Option Nat) (x : Nat) (bound : fd < datas.length) :
    (datas.set fd value)[x]?.join = if x = fd then value else datas[x]?.join := by
  by_cases here : x = fd
  · subst here
    rw [List.getElem?_set_self bound, if_pos rfl, Option.join_some]
  · rw [List.getElem?_set_ne (Ne.symm here), if_neg here]

/-- A growing resize adds null pointers only. -/
theorem entry_resize {size : Nat} (grows : s.datas.length ≤ size) (x : Nat) :
    (resize s.datas size)[x]?.join = s.entry x := by
  by_cases inside : x < s.datas.length
  · obtain ⟨value, here⟩ : ∃ value, s.datas[x]? = some value := ⟨_, List.getElem?_eq_getElem inside⟩
    rw [State.entry, here, resize_keeps grows here]
  · have outside : s.datas[x]? = none := List.getElem?_eq_none (by omega)
    rw [State.entry, outside, resize, List.getElem?_append_right (by rw [List.length_take]; omega), List.getElem?_replicate]
    split <;> rfl

theorem kept_init : Kept machine.init := by
  have nothing : ∀ fd, State.entry machine.init fd = none := fun fd => by
    show (List.replicate 64 none)[fd]?.join = none
    rw [List.getElem?_replicate]
    split <;> rfl
  refine ⟨Nat.le_refl _, fun _ => nofun, fun fd ctx => ?_, fun fd ctx here => ?_⟩
  · rw [nothing]
    exact ⟨nofun, nofun⟩
  · rw [nothing] at here
    cases here

/-- A thread moves to a place that is not out of bounds. -/
theorem Kept.setPc {pc : Pc} (h : Kept s) (tame : pc ≠ .wild) : Kept (s.setPc thread pc) := by
  refine ⟨h.least, fun v => ?_, h.got, h.made⟩
  by_cases mine : v = thread
  · simpa only [State.setPc, mine, Function.update_self] using tame
  · simpa only [State.setPc, Function.update_of_ne mine] using h.bounds v

theorem Kept.idle (h : Kept s) (thread : Nat) : Kept (s.setPc thread .idle) := h.setPc nofun

/-- What `create` leaves: the table is long enough, and one entry changes. -/
theorem Kept.created (h : Kept s) (thread fd : Nat) : ∃ datas : List (Option Nat), s.datas.length ≤ datas.length ∧
    (∀ x, datas[x]?.join = if x = fd then some s.created else s.entry x) ∧
    s.create thread fd = { s with
      datas, ctxs := Function.update s.ctxs s.created {}, created := s.created + 1,
      pc := Function.update s.pc thread .idle, got := s.got ++ [(fd, s.created)] } := by
  unfold State.create
  by_cases short : s.datas.length ≤ fd
  · have grows : s.datas.length ≤ fd * 3 / 2 := by
      have := h.least
      omega
    have bound : fd < (resize s.datas (fd * 3 / 2)).length := by
      have := h.least
      rw [length_resize]
      omega
    simp only [if_pos short, if_pos bound]
    refine ⟨_, ?_, fun x => ?_, rfl⟩
    · rw [List.length_set, length_resize]
      exact grows
    · rw [entry_set _ _ _ bound, entry_resize grows]
  · have bound : fd < s.datas.length := Nat.lt_of_not_le short
    simp only [if_neg short, if_pos bound]
    refine ⟨_, ?_, fun x => ?_, rfl⟩
    · exact Nat.le_of_eq (List.length_set ..).symm
    · exact entry_set _ _ _ bound

theorem Kept.create (h : Kept s) (free : s.entry fd = none) : Kept (s.create thread fd) := by
  obtain ⟨datas, longer, entries, is⟩ := h.created thread fd
  rw [is]
  refine ⟨Nat.le_trans h.least longer, (h.idle thread).bounds, fun x ctx => ?_,
    fun x ctx here => ?_⟩
  · show (x, ctx) ∈ s.got ++ [(fd, s.created)] ↔ datas[x]?.join = some ctx
    rw [entries, List.mem_append, List.mem_singleton, h.got x ctx]
    by_cases here : x = fd
    · subst here
      rw [if_pos rfl, free, Prod.mk.injEq, Option.some.injEq]
      exact ⟨fun found => found.elim nofun fun new => new.2.symm, fun same => .inr ⟨rfl, same.symm⟩⟩
    · rw [if_neg here, Prod.mk.injEq]
      exact ⟨fun found => found.resolve_right fun new => here new.1, .inl⟩
  · replace here : datas[x]?.join = some ctx := here
    show ctx < s.created + 1
    rw [entries] at here
    split at here
    · cases here
      exact Nat.lt_succ_self _
    · exact Nat.lt_succ_of_lt (h.made x ctx here)

theorem Kept.del (h : Kept s) : Kept (s.del fd) := by
  unfold State.del
  split
  · exact h
  · rename_i long
    have bound : fd < s.datas.length := Nat.lt_of_not_le long
    refine ⟨?_, h.bounds, fun x ctx => ?_, fun x ctx here => ?_⟩
    · show 64 ≤ (s.datas.set fd none).length
      rw [List.length_set]
      exact h.least
    · show (x, ctx) ∈ s.got.filter (·.1 ≠ fd) ↔ (s.datas.set fd none)[x]?.join = some ctx
      rw [entry_set _ _ _ bound, List.mem_filter, decide_eq_true_eq, h.got x ctx]
      by_cases here : x = fd
      · rw [if_pos here]
        exact ⟨fun found => absurd here found.2, nofun⟩
      · rw [if_neg here]
        exact ⟨And.left, fun found => ⟨found, here⟩⟩
    · replace here : (s.datas.set fd none)[x]?.join = some ctx := here
      rw [entry_set _ _ _ bound] at here
      split at here
      · cases here
      · exact h.made x ctx here

/-- Every step but a `create` that meets a context keeps the table. -/
theorem Kept.step {l : Label} (h : Kept s) (cond : FindsNone s l) (e : step s l = some s') : Kept s' := by
  cases l with
  | get thread fd autoCreate =>
    simp only [FdManager.step] at e
    split at e <;> cases e
    unfold State.get
    split
    · split
      · exact h.setPc nofun
      · exact h
    · rename_i long
      split
      · rename_i outside
        rw [List.getElem?_eq_none_iff] at outside
        exact absurd outside long
      · rename_i ctx here
        have stored : s.entry fd = some ctx := by rw [State.entry, here, Option.join_some]
        refine ⟨h.least, h.bounds, fun x c => ?_, h.made⟩
        show (x, c) ∈ s.got ++ [(fd, ctx)] ↔ s.entry x = some c
        rw [List.mem_append, List.mem_singleton, h.got x c, Prod.mk.injEq]
        refine ⟨fun found => found.elim id ?_, .inl⟩
        rintro ⟨rfl, rfl⟩
        exact stored
      · split
        · exact h.setPc nofun
        · exact h
  | create thread =>
    simp only [FdManager.step] at e
    split at e <;> cases e
    exact h.create (cond _ ‹_›)
  | del fd =>
    cases e
    exact h.del
  | set fd ctx settings =>
    simp only [FdManager.step] at e
    split at e <;> cases e
    exact ⟨h.least, h.bounds, h.got, h.made⟩

theorem kept_of_reachIf (h : machine.ReachIf FindsNone s) : Kept s :=
  h.invariant kept_init fun _ _ _ inv cond e => inv.step cond e

theorem Kept.oneContext (h : Kept s) : s.OneContext where
  bounds := h.bounds
  same fd a b ha hb := Option.some.inj (((h.got fd a).1 ha).symm.trans ((h.got fd b).1 hb))

/-- A context made for a number that has one is a second one. -/
theorem Kept.second {ctx : Nat} (h : Kept s) (there : s.entry fd = some ctx) : ¬ (s.create thread fd).OneContext := by
  obtain ⟨datas, -, -, is⟩ := h.created thread fd
  intro one
  rw [is] at one
  have same := one.same fd ctx s.created (List.mem_append_left _ ((h.got fd ctx).2 there))
    (List.mem_append_right _ (List.mem_singleton_self _))
  have old := h.made fd ctx there
  omega

theorem Kept.apart {l : Label} (h : Kept s) (e : FdManager.step s l = some s') : Apart s s' l := by
  cases l with
  | get thread fd autoCreate =>
    simp only [FdManager.step] at e
    split at e <;> cases e
    intro x
    unfold State.get
    split
    · split <;> rfl
    · split
      · rfl
      · rfl
      · split <;> rfl
  | create thread =>
    intro fd here
    simp only [FdManager.step, here, Option.some.injEq] at e
    obtain ⟨datas, -, entries, is⟩ := h.created thread fd
    rw [is] at e
    subst e
    refine ⟨fun x other => ?_, fun ctx old => Function.update_of_ne (Nat.ne_of_lt old) ..⟩
    show datas[x]?.join = s.entry x
    rw [entries, if_neg other]
  | del fd =>
    cases e
    intro x other
    unfold State.del
    split
    · rfl
    · rename_i long
      show (s.datas.set fd none)[x]?.join = s.entry x
      rw [entry_set _ _ _ (Nat.lt_of_not_le long), if_neg other]
      rfl
  | set fd ctx settings =>
    simp only [FdManager.step] at e
    split at e <;> cases e
    exact fun _ => rfl

end Steps

/-- **Main theorem.** In every run in which no thread makes a context for a number
that got one since its test, the gets of a number between two `del` return one object,
within bounds; and this is kept by exactly the steps that meet the condition. No step
touches another number. -/
theorem one_context (s : State) (h : machine.ReachIf FindsNone s) :
    s.OneContext ∧ ∀ l s', step s l = some s' → (s'.OneContext ↔ FindsNone s l) ∧ Apart s s' l := by
  have kept := kept_of_reachIf h
  refine ⟨kept.oneContext, fun l s' e => ⟨⟨fun one => ?_, fun cond => (kept.step cond e).oneContext⟩, kept.apart e⟩⟩
  cases l with
  | create thread =>
    intro fd here
    cases there : s.entry fd with
    | none => rfl
    | some ctx =>
      simp only [step, here, Option.some.injEq] at e
      subst e
      exact absurd one (kept.second there)
  | get | del | set => exact trivial

/-- Two threads get the context of 5 one after the other, the second in time to find
the first one's. -/
theorem one_context_shared : ∃ s, machine.ReachIf FindsNone s ∧ s.got = [(5, 0), (5, 0)] ∧ s.OneContext := by
  have start : machine.ReachIf FindsNone _ := .init
  have made := (start.next (.get 1 5 true) trivial rfl).next (.create 1)
    (fun fd here => by cases here; rfl) rfl
  have shared := made.next (.get 2 5 true) trivial rfl
  exact ⟨_, shared, rfl, (one_context _ shared).1⟩

/-- Both threads find no context for 5, and each makes one; what the first set on its
own is lost to the second. -/
theorem two_contexts : ¬ ∀ s, machine.Reach s → s.OneContext := by
  intro all
  have run := Machine.reach_of_exec (rfl : machine.exec machine.init
    [.get 1 5 true, .get 2 5 true, .create 1, .set 5 0 { userNonblock := true }, .create 2] = some _)
  have same := (all _ run).same 5 0 1 (by decide) (by decide)
  cases same

end Mycoroutine.FdManager
