import Mycoroutine.Hook.Calls

/-!
# Calls on a closed descriptor

`do_io` tests `isClosed` once, before its first original call. A context that is
marked later, while the fiber is suspended, is not looked at again: the fiber goes
back to `retry:` with the number, and whatever the number then stands for.

In the runs where this does not happen, a call touches only the file its context
was made for.
-/

namespace Mycoroutine.Hook
set_option autoImplicit false
open Interleave IOManager

/-- What the marks promise of `do_io`: no original call under a marked context, none
on a file that is not the context's, and under a marked context only failures. -/
structure Untouched (s : State) : Prop where
  issued : ∀ x ∈ s.issued, x.name ≠ .connect → x.closed = false ∧ ∀ k, x.made = some k → x.hit = some k
  returned : ∀ x ∈ s.returned, x.name ≠ .connect → x.closed = true → x.failed = true

/-! ## The condition -/

/-- No `do_io` call with this context is at its original call. -/
def NoneIssues (s : State) (ctx : Nat) : Prop :=
  ∀ g phase io, s.calls g = .io phase io → io.name ≠ .connect → io.ctx = ctx → phase.issues = false

/-- A file is closed when the contexts made for it are marked. -/
def AllMarked (s : State) (fd : Nat) : Prop :=
  ∀ ctx < s.made, (s.ctxs ctx).fd = fd → (s.ctxs ctx).file ≠ none → (s.ctxs ctx).isClosed = true

/-- `close` marks a context between the original calls made under it, and closes a
number whose contexts are marked; a `do_io` call comes back from its suspension, or
goes on without a manager, under an unmarked context, unless it was cancelled. -/
def MarksBetween (inManager : Nat → Bool) (s : State) : Label → Prop
  | .closeStep f =>
    match s.calls f with
    | .setClosed _ ctx => NoneIssues s ctx
    | .del fd _ => ∀ ctx, s.datas fd = some ctx → NoneIssues s ctx
    | .close fd _ => AllMarked s fd
    | _ => True
  | .arm f =>
    ∀ io, s.calls f = .io .again io → io.name ≠ .connect → inManager f = false → (s.ctxs io.ctx).isClosed = false
  | .resume f _ =>
    ∀ io, s.calls f = .io .woken io → io.name ≠ .connect → io.cancelled = false → (s.ctxs io.ctx).isClosed = false
  | _ => True

/-! ## The invariant -/

/-- A call has a context for its number, unmarked at an original call of `do_io`. -/
structure Sees (ctxs : Nat → FdCtx) (made : Nat) (phase : Phase) (io : Io) : Prop where
  made : io.ctx < made
  same : (ctxs io.ctx).fd = io.fd
  unmarked : phase.issues = true → io.name ≠ .connect → (ctxs io.ctx).isClosed = false

structure Marked (s : State) : Prop where
  sees : ∀ g phase io, s.calls g = .io phase io → Sees s.ctxs s.made phase io
  datas : ∀ fd ctx, s.datas fd = some ctx → ctx < s.made ∧ (s.ctxs ctx).fd = fd
  holds : ∀ ctx < s.made, (s.ctxs ctx).isClosed = false →
    ∀ k, (s.ctxs ctx).file = some k → (s.opened (s.ctxs ctx).fd).map (·.number) = some k
  issued : ∀ x ∈ s.issued, x.name ≠ .connect → x.closed = false ∧ ∀ k, x.made = some k → x.hit = some k
  returned : ∀ x ∈ s.returned, x.name ≠ .connect → x.closed = true → x.failed = true

section Steps

variable {inManager : Nat → Bool} {s s' : State} {f fd : Nat}

theorem marked_init : Marked (machine inManager).init where
  sees := nofun
  datas := nofun
  holds := nofun
  issued := nofun
  returned := nofun

/-- A fiber goes on to a call that sees its context. -/
theorem Marked.put {call : Call} (h : Marked s) (own : ∀ phase io, call = .io phase io → Sees s.ctxs s.made phase io) :
    Marked (s.put f call) := by
  refine ⟨fun g phase io at' => ?_, h.datas, h.holds, h.issued, h.returned⟩
  by_cases mine : g = f
  · subst mine
    simp only [State.put, Function.update_self] at at'
    obtain ⟨made, same, unmarked⟩ := own phase io at'
    exact ⟨made, same, unmarked⟩
  · simp only [State.put, Function.update_of_ne mine] at at'
    obtain ⟨made, same, unmarked⟩ := h.sees g phase io at'
    exact ⟨made, same, unmarked⟩

theorem Marked.ret {io : Io} {failed : Bool} (h : Marked s)
    (fails : io.name ≠ .connect → (s.ctxs io.ctx).isClosed = true → failed = true) : Marked (s.ret f io failed) := by
  have idle : Marked (s.put f .idle) := h.put nofun
  refine ⟨idle.sees, h.datas, h.holds, h.issued, fun x mem => ?_⟩
  rcases List.mem_append.1 mem with old | new
  · exact h.returned x old
  · cases List.mem_singleton.1 new
    exact fails

/-- An original call under a context that the call sees. -/
theorem Marked.issue {phase : Phase} {io : Io} (h : Marked s) (sees : Sees s.ctxs s.made phase io) (issues : phase.issues = true) :
    Marked (s.issue io) := by
  refine ⟨h.sees, h.datas, h.holds, fun x mem => ?_, h.returned⟩
  rcases List.mem_append.1 mem with old | new
  · exact h.issued x old
  · cases List.mem_singleton.1 new
    intro name
    have unmarked := sees.unmarked issues name
    refine ⟨unmarked, fun k file => ?_⟩
    have here := h.holds io.ctx sees.made unmarked k file
    rwa [sees.same] at here

theorem Marked.handOut {socket : Bool} (h : Marked s) (free : s.opened fd = none) : Marked (s.handOut fd socket) := by
  refine ⟨h.sees, h.datas, fun ctx made unmarked k file => ?_, h.issued, h.returned⟩
  have here := h.holds ctx made unmarked k file
  have other : (s.ctxs ctx).fd ≠ fd := fun same => by
    rw [same, free] at here
    cases here
  simpa only [State.handOut, Function.update_of_ne other] using here

theorem Marked.closeF (h : Marked s) (all : AllMarked s fd) : Marked (s.closeF fd) := by
  refine ⟨h.sees, h.datas, fun ctx made unmarked k file => ?_, h.issued, h.returned⟩
  have other : (s.ctxs ctx).fd ≠ fd := fun same => by
    have marked := all ctx made same (fun none' => by cases none'.symm.trans file)
    cases unmarked.symm.trans marked
  have here := h.holds ctx made unmarked k file
  simpa only [State.closeF, Function.update_of_ne other] using here

/-- What marking a context leaves of the others, and of its own data. -/
theorem setClosed_ctxs (ctx c : Nat) :
    ((s.setClosed ctx).ctxs c).fd = (s.ctxs c).fd ∧ ((s.setClosed ctx).ctxs c).file = (s.ctxs c).file ∧
      ((s.setClosed ctx).ctxs c).isClosed = (decide (c = ctx) || (s.ctxs c).isClosed) := by
  by_cases same : c = ctx
  · subst same
    simp [State.setClosed]
  · simp [State.setClosed, same]

theorem Marked.setClosed {ctx : Nat} (h : Marked s) (none' : NoneIssues s ctx) : Marked (s.setClosed ctx) := by
  refine ⟨fun g phase io at' => ?_, fun x c stored => ?_, fun c made unmarked k file => ?_, h.issued, h.returned⟩
  · obtain ⟨made, same, unmarked⟩ := h.sees g phase io at'
    refine ⟨made, (setClosed_ctxs ctx io.ctx).1.trans same, fun issues name => ?_⟩
    have other : io.ctx ≠ ctx := fun same => by
      have quiet := none' g phase io at' name same
      cases quiet.symm.trans issues
    rw [(setClosed_ctxs ctx io.ctx).2.2, unmarked issues name]
    simpa using other
  · obtain ⟨made, same⟩ := h.datas x c stored
    exact ⟨made, (setClosed_ctxs ctx c).1.trans same⟩
  · obtain ⟨sameFd, sameFile, mark⟩ := setClosed_ctxs (s := s) ctx c
    rw [mark, Bool.or_eq_false_iff] at unmarked
    rw [sameFile] at file
    rw [sameFd]
    exact h.holds c made unmarked.2 k file

theorem Marked.del (h : Marked s) (none' : ∀ ctx, s.datas fd = some ctx → NoneIssues s ctx) : Marked (s.del fd) := by
  unfold State.del
  split
  · rename_i ctx stored
    obtain ⟨sees, datas, holds, issued, returned⟩ := h.setClosed (none' ctx stored)
    refine ⟨sees, fun x c stored' => ?_, holds, issued, returned⟩
    by_cases same : x = fd
    · subst same
      simp only [Function.update_self] at stored'
      cases stored'
    · simp only [Function.update_of_ne same] at stored'
      exact datas x c stored'
  · exact h

theorem create_ctxs {c : Nat} (made : c < s.made) : (s.create fd).ctxs c = s.ctxs c := by
  simp only [State.create]
  exact Function.update_of_ne (Nat.ne_of_lt made) ..

theorem Marked.create (h : Marked s) : Marked (s.create fd) := by
  refine ⟨fun g phase io at' => ?_, fun x c stored => ?_, fun c made unmarked k file => ?_, h.issued, h.returned⟩
  · obtain ⟨made, same, unmarked⟩ := h.sees g phase io at'
    refine ⟨Nat.lt_succ_of_lt made, ?_, ?_⟩
    · rw [create_ctxs made, same]
    · rw [create_ctxs made]
      exact unmarked
  · by_cases here : x = fd
    · subst here
      simp only [State.create, Function.update_self, Option.some.injEq] at stored
      subst stored
      refine ⟨Nat.lt_succ_self _, ?_⟩
      simp only [State.create, Function.update_self]
    · simp only [State.create, Function.update_of_ne here] at stored
      obtain ⟨made, same⟩ := h.datas x c stored
      refine ⟨Nat.lt_succ_of_lt made, ?_⟩
      rw [create_ctxs made, same]
  · rcases Nat.lt_succ_iff_lt_or_eq.1 made with old | rfl
    · rw [create_ctxs old] at unmarked file ⊢
      exact h.holds c old unmarked k file
    · simp only [State.create, Function.update_self] at file ⊢
      exact file

/-- A body, whatever becomes of the subscription. -/
theorem Marked.body {b : Body} (interest : Nat → Bool) (h : Marked s) : Marked { s.body fd b with interest } := by
  refine ⟨fun g phase io at' => ?_, h.datas, h.holds, h.issued, h.returned⟩
  rcases calls_body s fd b g with ⟨_, suspended, -, woken⟩ | ⟨unchanged, -⟩
  · cases woken.symm.trans at'
    obtain ⟨made, same, -⟩ := h.sees g .waiting io suspended
    exact ⟨made, same, nofun⟩
  · obtain ⟨made, same, unmarked⟩ := h.sees g phase io (unchanged.symm.trans at')
    exact ⟨made, same, unmarked⟩

theorem Marked.addEvent {event : Event} {waiter : Waiter} {ok done : Bool} (h : Marked s)
    (e : s.addEvent fd event waiter ok = some (s', done)) : Marked s' ∧ s'.ctxs = s.ctxs ∧ s'.made = s.made := by
  simp only [State.addEvent] at e
  split at e <;> cases e
  · exact ⟨h.body _, rfl, rfl⟩
  · exact ⟨h.body _, rfl, rfl⟩

theorem Marked.remove {asks : Bool} {left : Mask} {body : Bool → Body} (h : Marked s)
    (e : s.remove fd asks left body = some s') : Marked s' := by
  simp only [State.remove] at e
  split at e <;> cases e
  exact h.body _

theorem Marked.setUserNonblock {ctx : Nat} {v : Bool} (h : Marked s) :
    Marked { s with ctxs := Function.update s.ctxs ctx { s.ctxs ctx with userNonblock := v } } := by
  have same : ∀ c, ((Function.update s.ctxs ctx { s.ctxs ctx with userNonblock := v }) c).fd = (s.ctxs c).fd ∧
      ((Function.update s.ctxs ctx { s.ctxs ctx with userNonblock := v }) c).file = (s.ctxs c).file ∧
      ((Function.update s.ctxs ctx { s.ctxs ctx with userNonblock := v }) c).isClosed = (s.ctxs c).isClosed := by
    intro c
    by_cases here : c = ctx
    · subst here
      simp only [Function.update_self, and_self]
    · simp only [Function.update_of_ne here, and_self]
  refine ⟨fun g phase io at' => ?_, fun x c stored => ?_, fun c made unmarked k file => ?_, h.issued, h.returned⟩
  · obtain ⟨made, fd', unmarked⟩ := h.sees g phase io at'
    exact ⟨made, (same io.ctx).1.trans fd', fun issues name => (same io.ctx).2.2.trans (unmarked issues name)⟩
  · obtain ⟨made, fd'⟩ := h.datas x c stored
    exact ⟨made, (same c).1.trans fd'⟩
  · have here := h.holds c made ((same c).2.2.symm.trans unmarked) k ((same c).2.1.symm.trans file)
    simpa only [(same c).1] using here

/-! ## The steps -/

theorem Marked.syscall {outcome : Outcome} (h : Marked s) (e : s.syscall f outcome = some s') : Marked s' := by
  simp only [State.syscall] at e
  split at e
  · rename_i phase io at'
    split at e
    · rename_i guard
      obtain ⟨issues, possible⟩ := guard
      have sees := h.sees f phase io at'
      have issued := h.issue sees issues
      -- the call returns from an unmarked context, with any result
      have returns : ∀ failed, Marked ((s.issue io).ret f io failed) := fun failed => issued.ret fun name marked => by
        cases (sees.unmarked issues name).symm.trans marked
      cases outcome with
      | returned failed =>
        cases e
        exact returns failed
      | accepted fd =>
        cases e
        exact ((returns false).handOut possible.2.2).put nofun
      | interrupted =>
        simp only at e
        split at e <;> cases e
        · exact issued
        · exact returns true
      | again =>
        simp only at e
        split at e <;> cases e
        · refine issued.put fun phase' io' same => ?_
          cases same
          exact ⟨sees.made, sees.same, nofun⟩
        · exact returns true
    · cases e
  · cases e

theorem Marked.closeStep (h : Marked s) (cond : MarksBetween inManager s (.closeStep f))
    (e : s.closeStep inManager f = some s') : Marked s' := by
  simp only [State.closeStep] at e
  simp only [MarksBetween] at cond
  split at e
  · rename_i fd ctx at'
    cases e
    rw [at'] at cond
    refine (h.setClosed cond).put fun phase io same => ?_
    split at same <;> cases same
  · obtain ⟨m, swept, rfl⟩ := Option.map_eq_some_iff.1 e
    exact (h.remove swept).put nofun
  · rename_i fd swept at'
    cases e
    rw [at'] at cond
    exact (h.del cond).put nofun
  · rename_i fd swept at'
    cases e
    rw [at'] at cond
    exact (h.closeF cond).put nofun
  · cases e

theorem Marked.step {l : Label} (h : Marked s) (cond : MarksBetween inManager s l) (e : step inManager s l = some s') :
    Marked s' := by
  cases l with
  | enter f name fd =>
    simp only [Hook.step, State.enter] at e
    split at e
    · split at e <;> cases e
      · rename_i ctx stored
        refine h.put fun phase io same => ?_
        cases same
        obtain ⟨made, fd'⟩ := h.datas fd ctx stored
        exact ⟨made, fd', nofun⟩
      · exact h
    · cases e
  | test f timed =>
    simp only [Hook.step, State.test] at e
    split at e
    · rename_i io at'
      obtain ⟨made, same, -⟩ := h.sees f .entered io at'
      split at e
      · cases e
        exact h.ret fun _ _ => rfl
      · rename_i unmarked
        rw [Bool.not_eq_true] at unmarked
        split at e <;> cases e
        · refine h.put fun phase io' is => ?_
          cases is
          exact ⟨made, same, fun _ _ => unmarked⟩
        · refine h.put fun phase io' is => ?_
          cases is
          exact ⟨made, same, fun _ _ => unmarked⟩
    · cases e
  | syscall f outcome => exact h.syscall e
  | arm f =>
    simp only [Hook.step, State.arm] at e
    split at e
    · rename_i io at'
      cases e
      obtain ⟨made, same, -⟩ := h.sees f .again io at'
      refine h.put fun phase io' is => ?_
      split at is <;> cases is
      · exact ⟨made, same, nofun⟩
      · rename_i outside
        exact ⟨made, same, fun _ name => cond io at' name (Bool.eq_false_iff.2 outside)⟩
    · cases e
  | register f ok =>
    simp only [Hook.step, State.register] at e
    split at e
    · rename_i io at'
      obtain ⟨made, same, -⟩ := h.sees f .adding io at'
      obtain ⟨⟨m, done⟩, added, is⟩ := Option.map_eq_some_iff.1 e
      obtain ⟨hm, ctxs, made'⟩ := h.addEvent added
      subst is
      simp only
      split
      · refine hm.put fun phase io' is => ?_
        cases is
        exact ⟨made' ▸ made, ctxs ▸ same, nofun⟩
      · exact hm.ret fun _ _ => rfl
    · cases e
  | resume f failed =>
    simp only [Hook.step, State.resume] at e
    split at e
    · rename_i io at'
      obtain ⟨made, same, -⟩ := h.sees f .woken io at'
      split at e
      · cases e
        exact h.ret fun _ _ => rfl
      · rename_i live
        split at e <;> cases e
        · rename_i connect
          exact h.ret fun name => absurd connect name
        · refine h.put fun phase io' is => ?_
          cases is
          exact ⟨made, same, fun _ name => cond io at' name (Bool.eq_false_iff.2 live)⟩
    · cases e
  | expire f =>
    simp only [Hook.step, State.expire] at e
    split at e
    · rename_i phase io at'
      split at e <;> cases e
      obtain ⟨made, same, unmarked⟩ := h.sees f phase io at'
      refine h.put fun phase' io' is => ?_
      cases is
      exact ⟨made, same, unmarked⟩
    · cases e
  | socket f fd =>
    simp only [Hook.step, State.socket] at e
    split at e <;> cases e
    rename_i guard
    exact (h.handOut guard.2).put nofun
  | get f =>
    simp only [Hook.step, State.get] at e
    split at e <;> cases e
    · refine h.put fun phase io is => ?_
      split at is <;> cases is
    · exact h.create.put nofun
  | close f fd =>
    simp only [Hook.step, State.close] at e
    split at e <;> cases e
    refine h.put fun phase io is => ?_
    split at is <;> cases is
  | closeStep f => exact h.closeStep cond e
  | opens fd socket =>
    simp only [Hook.step] at e
    split at e <;> cases e
    rename_i free
    exact h.handOut free
  | setUserNonblock ctx v =>
    cases e
    exact h.setUserNonblock
  | addEvent fd event waiter ok =>
    simp only [Hook.step] at e
    split at e
    · obtain ⟨⟨m, done⟩, added, rfl⟩ := Option.map_eq_some_iff.1 e
      exact (h.addEvent added).1
    · cases e
  | cancelEvent fd event => exact h.remove e
  | cancelAll fd => exact h.remove e
  | dispatch fd ready wake => exact h.remove e

theorem marked_of_reach (h : (machine inManager).ReachIf (MarksBetween inManager) s) : Marked s := by
  induction h with
  | init => exact marked_init
  | step _ cond e ih => exact ih.step cond e

end Steps

/-- **Main theorem.** In every run where contexts are marked between the calls made
under them, `do_io` never touches a descriptor after it was closed, nor another file
under its number. -/
theorem never_touches_closed (inManager : Nat → Bool) (s : State)
    (h : (machine inManager).ReachIf (MarksBetween inManager) s) : Untouched s :=
  ⟨(marked_of_reach h).issued, (marked_of_reach h).returned⟩

/-- Fiber 2 receives on the number 5; fiber 1 then closes it and gets it again for
another socket. -/
theorem never_touches_closed_reused : ∃ s, Untouched s ∧
    s.issued.map (·.hit) = [some 0] ∧ (s.opened 5).map (·.number) = some 1 := by
  have start : (machine fun _ => true).ReachIf (MarksBetween fun _ => true) _ := .init
  have made := ((start.next (.socket 1 5) trivial rfl).next (.get 1) trivial rfl).next (.get 1) trivial rfl
  have tried := (made.next (.enter 2 .recv 5) trivial rfl).next (.test 2 false) trivial rfl
  have served := (tried.next (.syscall 2 (.returned false)) trivial rfl).next (.close 1 5) trivial rfl
  have marked := served.next (.closeStep 1) (fun g phase io at' _ _ => ?mark) rfl
  · have deleted := (marked.next (.closeStep 1) trivial rfl).next (.closeStep 1) (fun _ _ g phase io at' _ _ => ?del) rfl
    · have closed := deleted.next (.closeStep 1) (fun ctx below _ _ => ?close) rfl
      · exact ⟨_, never_touches_closed _ _ (closed.next (.socket 1 5) trivial rfl), rfl, rfl⟩
      case close =>
        cases Nat.lt_one_iff.1 below
        rfl
    case del =>
      by_cases one : g = 1
      · subst one
        cases at'
      · by_cases two : g = 2
        · subst two
          cases at'
        · simp [State.put, State.ret, State.create, State.handOut, State.issue, State.setClosed, State.body,
            FdContext.cancelAll, machine, one] at at'
  case mark =>
    by_cases one : g = 1
    · subst one
      cases at'
    · by_cases two : g = 2
      · subst two
        cases at'
      · simp [State.put, State.ret, State.create, State.handOut, State.issue, machine, one] at at'

/-- Fiber 2 is suspended in `recv` on the number 5 when fiber 1 closes it and gets it
again: fiber 2 goes on to receive from the new socket. -/
theorem touches_reused : ¬ ∀ s, (machine fun _ => true).Reach s → Untouched s := by
  intro all
  have run := Machine.reach_of_exec (rfl : (machine fun _ => true).exec (machine fun _ => true).init
    [.socket 1 5, .get 1, .get 1, .enter 2 .recv 5, .test 2 false, .syscall 2 .again, .arm 2, .register 2 true,
     .close 1 5, .closeStep 1, .closeStep 1, .closeStep 1, .closeStep 1, .socket 1 5, .get 1, .get 1,
     .resume 2 false, .syscall 2 (.returned false)] = some _)
  have issued := (all _ run).issued ⟨.recv, true, some 0, some 1⟩ (by decide) (by decide)
  cases issued.1

end Mycoroutine.Hook
