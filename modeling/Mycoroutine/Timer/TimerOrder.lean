import Mycoroutine.Ordered.SearchTree
import Mycoroutine.Timer.Expiry

/-!
# The keys of the set

`m_timers` is ordered by `m_next`, which `refresh`, `reset` and `listExpiredCb`
change, `reset` outside of the lock. Here a thread makes one access of the set or
of a field a step, so that the stores of a `reset` fall also into the sections of
other threads. The set is its timers in order. An access goes through a search
tree of some shape, which comes with the label.

A thread that has erased a timer to insert it again holds the timer: nobody else
finds it, so nobody else stores its fields or inserts it.
-/

namespace Mycoroutine.TimerManager.Keys
set_option autoImplicit false
open Interleave

/-- Where a thread stands. It has the lock at `cancelled`, `refreshing`, `refreshed`,
`expiring`, `expired` and `renewed`; elsewhere a section is one step. Timers are
numbered as their addresses are ordered, and one that is built where another was
freed has a number of its own. -/
inductive Pc where
  | idle
  /-- Before the section of `addTimer(timer)`. -/
  | insert (t : Nat)
  | cancel (t : Nat)
  /-- `m_cb` is empty. -/
  | cancelled (t : Nat)
  | refresh (t : Nat)
  /-- The timer is erased; its `m_next` is stored. -/
  | refreshing (t : Nat)
  | refreshed (t : Nat)
  | reset (t ms : Nat) (fromNow : Bool)
  /-- The timer is erased; `start` is computed; `m_ms` is stored. -/
  | erased (t ms : Nat) (fromNow : Bool)
  | started (t ms : Nat) (start : TimePoint)
  | stored (t : Nat) (start : TimePoint)
  | listExpired (now : TimePoint)
  /-- At the head of the loop; a recurring timer is erased; its `m_next` is stored. -/
  | expiring (now : TimePoint) (rollover : Bool)
  | expired (t : Nat) (now : TimePoint) (rollover : Bool)
  | renewed (t : Nat) (now : TimePoint) (rollover : Bool)
  | getNextTimer

structure State where
  timer : Nat → Timer
  created : List Nat
  /-- `m_timers`, its `begin()` first. -/
  timers : List Nat
  tickled : Bool
  previouseTime : TimePoint
  /-- The thread that has `m_mutex`. -/
  lock : Option Nat
  pc : Nat → Pc

inductive Call where
  | addTimer (t ms cb : Nat) (recurring : Bool)
  | cancel (t : Nat)
  | refresh (t : Nat)
  | reset (t ms : Nat) (fromNow : Bool)
  | listExpiredCb
  | getNextTimer

/-- `now` is what the clock reads, `shape` the tree of the set. -/
inductive Label where
  | call (thread : Nat) (c : Call) (now : TimePoint)
  | next (thread : Nat) (now : TimePoint) (shape : BinaryTree Nat)

namespace State

/-- `Timer::Comparator`. -/
def before (s : State) (lhs rhs : Nat) : Bool :=
  if (s.timer lhs).next < (s.timer rhs).next then true
  else if (s.timer rhs).next < (s.timer lhs).next then false
  else decide (lhs < rhs)

def goto (s : State) (thread : Nat) (pc : Pc) : State := { s with pc := Function.update s.pc thread pc }

def setTimer (s : State) (t : Nat) (timer : Timer) : State := { s with timer := Function.update s.timer t timer }

def setNext (s : State) (t : Nat) (next : TimePoint) : State := s.setTimer t { s.timer t with next }

def acquire (s : State) (thread : Nat) : State := { s with lock := some thread }

def release (s : State) : State := { s with lock := none }

/-- `m_timers.insert`. -/
def insert (s : State) (t : Nat) (shape : BinaryTree Nat) : State :=
  { s with timers := SearchTree.inorder (SearchTree.insert s.before t shape) }

/-- `m_timers.erase` of what `find` finds. -/
def erase (s : State) (u : Nat) : State := { s with timers := s.timers.erase u }

/-- The locked section of `addTimer`. -/
def addSection (s : State) (t : Nat) (shape : BinaryTree Nat) : State :=
  let inserted := s.insert t shape
  let atFront := inserted.timers.head? = some t && !s.tickled
  { inserted with tickled := s.tickled || atFront }

/-- A call, up to where it waits for the lock. -/
def call (s : State) (thread : Nat) (now : TimePoint) : Call → Option State
  | .addTimer t ms cb recurring =>
    if t ∈ s.created then none
    else some ({ s.setTimer t (.make ms cb recurring now) with
      created := t :: s.created }.goto thread (.insert t))
  | .cancel t => if t ∈ s.created then some (s.goto thread (.cancel t)) else none
  | .refresh t => if t ∈ s.created then some (s.goto thread (.refresh t)) else none
  | .reset t ms fromNow =>
    if t ∈ s.created then
      some (if ms = (s.timer t).ms ∧ fromNow = false then s else s.goto thread (.reset t ms fromNow))
    else none
  | .listExpiredCb => some (s.goto thread (.listExpired now))
  | .getNextTimer => some (s.goto thread .getNextTimer)

/-- `detectClockRollover`. -/
def rollover (s : State) (now : TimePoint) : Bool := decide (now < subMillis s.previouseTime (60 * 60 * 1000))

/-- The loop of `listExpiredCb`: its test, and the first timer. -/
def takeExpired (s : State) (thread : Nat) (now : TimePoint) (rollover : Bool) : State :=
  match s.timers with
  | [] => s.release.goto thread .idle
  | t :: rest =>
    if rollover || decide ((s.timer t).next ≤ now) then
      let taken := { s with timers := rest }
      if (s.timer t).recurring then taken.goto thread (.expired t now rollover)
      else taken.setTimer t { s.timer t with cb := none }
    else s.release.goto thread .idle

/-- A step that waits for the lock. -/
def locked (s : State) (after : State) : Option State := if s.lock = none then some after else none

/-- The next access of a thread. -/
def next (s : State) (thread : Nat) (now : TimePoint) (shape : BinaryTree Nat) : Option State :=
  match s.pc thread with
  | .idle => none
  | .insert t => s.locked ((s.addSection t shape).goto thread .idle)
  | .cancel t =>
    s.locked <| match (s.timer t).cb with
      | none => s.goto thread .idle
      | some _ => ((s.setTimer t { s.timer t with cb := none }).acquire thread).goto thread (.cancelled t)
  | .cancelled t =>
    some <| (match SearchTree.find s.before t shape with
      | none => s
      | some u => s.erase u).release.goto thread .idle
  | .refresh t =>
    s.locked <| match (s.timer t).cb, SearchTree.find s.before t shape with
      | some _, some u => ((s.erase u).acquire thread).goto thread (.refreshing t)
      | _, _ => s.goto thread .idle
  | .refreshing t => some ((s.setNext t (addMillis now (s.timer t).ms)).goto thread (.refreshed t))
  | .refreshed t => some ((s.insert t shape).release.goto thread .idle)
  | .reset t ms fromNow =>
    s.locked <| match (s.timer t).cb, SearchTree.find s.before t shape with
      | some _, some u => (s.erase u).goto thread (.erased t ms fromNow)
      | _, _ => s.goto thread .idle
  | .erased t ms fromNow =>
    some (s.goto thread (.started t ms (if fromNow then now else subMillis (s.timer t).next (s.timer t).ms)))
  | .started t ms start => some ((s.setTimer t { s.timer t with ms }).goto thread (.stored t start))
  | .stored t start => some ((s.setNext t (addMillis start (s.timer t).ms)).goto thread (.insert t))
  | .listExpired read =>
    s.locked (({ s with previouseTime := now }.acquire thread).goto thread (.expiring read (s.rollover now)))
  | .expiring read rollover => some (s.takeExpired thread read rollover)
  | .expired t read rollover =>
    some ((s.setNext t (addMillis read (s.timer t).ms)).goto thread (.renewed t read rollover))
  | .renewed t read rollover => some ((s.insert t shape).goto thread (.expiring read rollover))
  | .getNextTimer => s.locked ({ s with tickled := false }.goto thread .idle)

end State

def step (s : State) : Label → Option State
  | .call thread c now =>
    match s.pc thread with
    | .idle => s.call thread now c
    | _ => none
  | .next thread now shape => if SearchTree.inorder shape = s.timers then s.next thread now shape else none

/-- Any number of threads and timers on one manager. -/
def machine : Machine State Label where
  init := {
    timer := fun _ => {}, created := [], timers := [], tickled := false, previouseTime := 0, lock := none,
    pc := fun _ => .idle }
  step := step

/-! ## What one step does to the set and its keys -/

/-- The thread has constructed the timer or erased it, and is to insert it. -/
def Pc.Holds (t : Nat) : Pc → Prop
  | .insert u | .refreshing u | .refreshed u | .erased u _ _ | .started u _ _ | .stored u _ | .expired u _ _
  | .renewed u _ _ => u = t
  | .idle | .cancel _ | .cancelled _ | .refresh _ | .reset _ _ _ | .listExpired _ | .expiring _ _ | .getNextTimer => False

/-- The fields of the manager. -/
def State.manager (s : State) : TimerManager.State where
  timer := s.timer
  created := s.created
  timers := s.timers
  tickled := s.tickled
  previouseTime := s.previouseTime
  expiring := none
  pc := fun _ => .idle
  events := []

theorem strict_before (s : State) : SearchTree.Strict s.before where
  irrefl := before_irrefl s.manager
  trans _ _ _ := before_trans (s := s.manager)
  apart := before_apart s.manager

section Steps

variable {s s' : State} {thread t : Nat}

/-- The comparator reads `m_next` alone. -/
theorem before_congr {u v : Nat} (left : (s'.timer u).next = (s.timer u).next)
    (right : (s'.timer v).next = (s.timer v).next) : s'.before u v = s.before u v := by
  rw [State.before, State.before, left, right]

/-- What one step of a thread does to the set, to `m_next` and to what the thread holds. -/
inductive Moves (s : State) (thread : Nat) (s' : State) : Prop where
  | keeps (timers : s'.timers = s.timers) (next : ∀ u, (s'.timer u).next = (s.timer u).next)
      (created : s'.created = s.created) (holds : ∀ u, (s'.pc thread).Holds u → (s.pc thread).Holds u)
  | creates (t : Nat) (new : t ∉ s.created) (timers : s'.timers = s.timers)
      (next : ∀ u, u ≠ t → (s'.timer u).next = (s.timer u).next) (created : s'.created = t :: s.created)
      (holds : ∀ u, (s'.pc thread).Holds u → u = t)
  | erases (t : Nat) (present : t ∈ s.timers) (timers : s'.timers = s.timers.erase t)
      (next : ∀ u, (s'.timer u).next = (s.timer u).next) (created : s'.created = s.created)
      (holds : ∀ u, (s'.pc thread).Holds u → u = t)
  | stores (t : Nat) (held : (s.pc thread).Holds t) (timers : s'.timers = s.timers)
      (next : ∀ u, u ≠ t → (s'.timer u).next = (s.timer u).next) (created : s'.created = s.created)
      (holds : ∀ u, (s'.pc thread).Holds u → u = t)
  | inserts (t : Nat) (held : (s.pc thread).Holds t) (shape : BinaryTree Nat) (walk : SearchTree.inorder shape = s.timers)
      (timers : s'.timers = SearchTree.inorder (SearchTree.insert s.before t shape))
      (next : ∀ u, (s'.timer u).next = (s.timer u).next) (created : s'.created = s.created)
      (holds : ∀ u, ¬ (s'.pc thread).Holds u)

@[simp] theorem goto_pc {p : Pc} : (s.goto thread p).pc thread = p := Function.update_self ..

/-- A field other than `m_next` changes. -/
theorem update_next {timers : Nat → Timer} {timer : Timer} (same : timer.next = (timers t).next) (u : Nat) :
    (Function.update timers t timer u).next = (timers u).next := by
  by_cases mine : u = t
  · rw [mine, Function.update_self, same]
  · rw [Function.update_of_ne mine]

theorem update_other {timers : Nat → Timer} {timer : Timer} (u : Nat) (ne : u ≠ t) :
    (Function.update timers t timer u).next = (timers u).next := by
  rw [Function.update_of_ne ne]

theorem locked_eq {after : State} (e : s.locked after = some s') : s.lock = none ∧ after = s' := by
  unfold State.locked at e
  split at e
  · rename_i free
    exact ⟨free, Option.some.inj e⟩
  · cases e

/-- What `find` finds is the timer itself, in the set. -/
theorem found (ordered : s.manager.Ordered) {shape : BinaryTree Nat} (walk : SearchTree.inorder shape = s.timers) :
    SearchTree.find s.before t shape = if t ∈ s.timers then some t else none := by
  rw [← walk]
  exact SearchTree.find_eq (strict_before s) (walk ▸ ordered)

theorem of_found (ordered : s.manager.Ordered) {shape : BinaryTree Nat} (walk : SearchTree.inorder shape = s.timers)
    {u : Nat} (finds : SearchTree.find s.before t shape = some u) : u = t ∧ t ∈ s.timers := by
  rw [found ordered walk] at finds
  split at finds
  · rename_i present
    exact ⟨(Option.some.inj finds).symm, present⟩
  · cases finds

/-- A step of one thread. -/
structure Turn (s : State) (thread : Nat) (s' : State) : Prop where
  others : ∀ v, v ≠ thread → s'.pc v = s.pc v
  moves : Moves s thread s'

theorem Turn.goto {after : State} {p : Pc} (pc : after.pc = s.pc) (moves : Moves s thread (after.goto thread p)) :
    Turn s thread (after.goto thread p) where
  others v ne := by simp only [State.goto, pc, Function.update_of_ne ne]
  moves := moves

/-- The set and `m_next` stay as they are, and the thread holds nothing new. -/
theorem Turn.keeps {after : State} {p : Pc} (pc : after.pc = s.pc) (timers : after.timers = s.timers)
    (created : after.created = s.created) (next : ∀ u, (after.timer u).next = (s.timer u).next)
    (holds : ∀ u, p.Holds u → (s.pc thread).Holds u) : Turn s thread (after.goto thread p) :=
  .goto pc (.keeps timers next created fun u here => holds u (by simpa using here))

theorem call_turn {c : Call} {now : TimePoint} (e : s.call thread now c = some s') : Turn s thread s' := by
  cases c with
  | addTimer t ms cb recurring =>
    simp only [State.call] at e
    split at e <;> cases e
    rename_i new
    refine .goto rfl (.creates t new rfl (fun u ne => update_other u ne) rfl fun u holds => ?_)
    simpa [Pc.Holds, eq_comm] using holds
  | cancel t =>
    simp only [State.call] at e
    split at e <;> cases e
    exact .keeps rfl rfl rfl (fun _ => rfl) fun u holds => holds.elim
  | refresh t =>
    simp only [State.call] at e
    split at e <;> cases e
    exact .keeps rfl rfl rfl (fun _ => rfl) fun u holds => holds.elim
  | reset t ms fromNow =>
    simp only [State.call] at e
    split at e <;> cases e
    split
    · exact ⟨fun _ _ => rfl, .keeps rfl (fun _ => rfl) rfl fun _ => id⟩
    · exact .keeps rfl rfl rfl (fun _ => rfl) fun u holds => holds.elim
  | listExpiredCb =>
    cases e
    exact .keeps rfl rfl rfl (fun _ => rfl) fun u holds => holds.elim
  | getNextTimer =>
    cases e
    exact .keeps rfl rfl rfl (fun _ => rfl) fun u holds => holds.elim

theorem takeExpired_turn {now : TimePoint} {rollover : Bool} (here : s.pc thread = .expiring now rollover) :
    Turn s thread (s.takeExpired thread now rollover) := by
  unfold State.takeExpired
  split
  · exact .keeps rfl rfl rfl (fun _ => rfl) fun u holds => holds.elim
  · rename_i t rest queue
    have present : t ∈ s.timers := queue ▸ List.mem_cons_self
    have erased : rest = s.timers.erase t := by rw [queue, List.erase_cons_head]
    split
    · cases recurs : (s.timer t).recurring with
      | true =>
        refine .goto rfl (.erases t present erased (fun _ => rfl) rfl fun u holds => ?_)
        simpa [Pc.Holds, eq_comm] using holds
      | false =>
        refine ⟨fun _ _ => rfl, .erases t present erased (update_next rfl) rfl fun u holds => ?_⟩
        simp only [here, Bool.false_eq_true, if_false, State.setTimer, Pc.Holds] at holds
    · exact .keeps rfl rfl rfl (fun _ => rfl) fun u holds => holds.elim

theorem next_turn (ordered : s.manager.Ordered) {now : TimePoint} {shape : BinaryTree Nat}
    (walk : SearchTree.inorder shape = s.timers) (e : s.next thread now shape = some s') : Turn s thread s' := by
  have erases {t u : Nat} {after : State} {p : Pc} (finds : SearchTree.find s.before t shape = some u)
      (pc : after.pc = s.pc) (timer : after.timer = s.timer) (timers : after.timers = s.timers.erase u)
      (created : after.created = s.created) (holds : ∀ v, p.Holds v → t = v) : Turn s thread (after.goto thread p) := by
    obtain ⟨rfl, present⟩ := of_found ordered walk finds
    refine .goto pc (.erases u present timers (fun v => congrArg (fun f => (f v).next) timer) created fun v here => ?_)
    exact (holds v (by simpa using here)).symm
  have stores {t : Nat} {next : TimePoint} {p : Pc} (held : (s.pc thread).Holds t) (holds : ∀ v, p.Holds v → t = v) :
      Turn s thread ((s.setNext t next).goto thread p) :=
    .goto rfl (.stores t held rfl (fun u ne => update_other u ne) rfl fun v here => (holds v (by simpa using here)).symm)
  have inserts {t : Nat} {after : State} {p : Pc} (held : (s.pc thread).Holds t) (pc : after.pc = s.pc)
      (timer : after.timer = s.timer) (timers : after.timers = SearchTree.inorder (SearchTree.insert s.before t shape))
      (created : after.created = s.created) (holds : ∀ v, ¬ p.Holds v) : Turn s thread (after.goto thread p) :=
    .goto pc (.inserts t held shape walk timers (fun v => congrArg (fun f => (f v).next) timer) created
      fun v here => holds v (by simpa using here))
  unfold State.next at e
  split at e
  case h_1 => cases e
  case h_2 t here =>
    obtain ⟨-, rfl⟩ := locked_eq e
    exact inserts (here ▸ rfl) rfl rfl rfl rfl fun _ => id
  case h_3 t here =>
    obtain ⟨-, rfl⟩ := locked_eq e
    split
    · exact .keeps rfl rfl rfl (fun _ => rfl) fun u holds => holds.elim
    · exact .keeps rfl rfl rfl (update_next rfl) fun u holds => holds.elim
  case h_4 t here =>
    cases e
    split
    · exact .keeps rfl rfl rfl (fun _ => rfl) fun u holds => holds.elim
    · rename_i u finds
      exact erases finds rfl rfl rfl rfl fun v holds => holds.elim
  case h_5 t here =>
    obtain ⟨-, rfl⟩ := locked_eq e
    split
    · rename_i u _ finds
      exact erases finds rfl rfl rfl rfl fun v holds => holds
    · exact .keeps rfl rfl rfl (fun _ => rfl) fun u holds => holds.elim
  case h_6 t here =>
    cases e
    exact stores (here ▸ rfl) fun v holds => holds
  case h_7 t here =>
    cases e
    exact inserts (here ▸ rfl) rfl rfl rfl rfl fun _ => id
  case h_8 t ms fromNow here =>
    obtain ⟨-, rfl⟩ := locked_eq e
    split
    · rename_i u _ finds
      exact erases finds rfl rfl rfl rfl fun v holds => holds
    · exact .keeps rfl rfl rfl (fun _ => rfl) fun u holds => holds.elim
  case h_9 t ms fromNow here =>
    cases e
    exact .keeps rfl rfl rfl (fun _ => rfl) fun u holds => here ▸ holds
  case h_10 t ms start here =>
    cases e
    exact .keeps rfl rfl rfl (update_next rfl) fun u holds => here ▸ holds
  case h_11 t start here =>
    cases e
    exact stores (here ▸ rfl) fun v holds => holds
  case h_12 read here =>
    obtain ⟨-, rfl⟩ := locked_eq e
    exact .keeps rfl rfl rfl (fun _ => rfl) fun u holds => holds.elim
  case h_13 read rollover here =>
    cases e
    exact takeExpired_turn here
  case h_14 t read rollover here =>
    cases e
    exact stores (here ▸ rfl) fun v holds => holds
  case h_15 t read rollover here =>
    cases e
    exact inserts (here ▸ rfl) rfl rfl rfl rfl fun _ => id
  case h_16 here =>
    obtain ⟨-, rfl⟩ := locked_eq e
    exact .keeps rfl rfl rfl (fun _ => rfl) fun u holds => holds.elim

theorem step_turn {l : Label} (ordered : s.manager.Ordered) (e : step s l = some s') : ∃ thread, Turn s thread s' := by
  cases l with
  | call thread c now =>
    simp only [step] at e
    split at e
    · exact ⟨thread, call_turn e⟩
    · cases e
  | next thread now shape =>
    simp only [step] at e
    split at e
    · rename_i walk
      exact ⟨thread, next_turn ordered walk e⟩
    · cases e

/-! ## The order holds -/

/-- The set is ordered, and a timer that a thread holds is out of it and held by that thread alone. -/
structure Sound (s : State) : Prop where
  ordered : s.manager.Ordered
  apart : ∀ thread t, (s.pc thread).Holds t → t ∉ s.timers
  single : ∀ thread thread' t, (s.pc thread).Holds t → (s.pc thread').Holds t → thread = thread'
  known : ∀ t ∈ s.timers, t ∈ s.created
  held : ∀ thread t, (s.pc thread).Holds t → t ∈ s.created

theorem sound_init : Sound machine.init where
  ordered := List.Pairwise.nil
  apart _ _ holds := holds.elim
  single _ _ _ holds := holds.elim
  known _ mem := absurd mem List.not_mem_nil
  held _ _ holds := holds.elim

/-- The order reads the keys of the timers in the set. -/
theorem ordered_congr (ordered : s.manager.Ordered) (next : ∀ u ∈ s.timers, (s'.timer u).next = (s.timer u).next) :
    s.timers.Pairwise fun t u => s'.before t u = true :=
  List.Pairwise.imp_of_mem (fun left right less => (before_congr (next _ left) (next _ right)).trans less) ordered

theorem ordered_same (ordered : s.manager.Ordered) (timers : s'.timers = s.timers)
    (next : ∀ u, (s'.timer u).next = (s.timer u).next) : s'.manager.Ordered := by
  change s'.timers.Pairwise _
  rw [timers]
  exact ordered_congr ordered fun u _ => next u

/-- What the thread that moved holds, and what the others held before. -/
theorem Sound.of_turn (h : Sound s) (turn : Turn s thread s')
    (ordered : s'.timers.Pairwise fun t u => s'.before t u = true)
    (created : ∀ t ∈ s.created, t ∈ s'.created) (known : ∀ t ∈ s'.timers, t ∈ s'.created)
    (mine : ∀ t, (s'.pc thread).Holds t → t ∉ s'.timers ∧ t ∈ s'.created ∧ ∀ v, v ≠ thread → ¬ (s.pc v).Holds t)
    (theirs : ∀ v t, v ≠ thread → (s.pc v).Holds t → t ∉ s'.timers) : Sound s' where
  ordered := ordered
  apart v t holds := by
    by_cases self : v = thread
    · exact (mine t (self ▸ holds)).1
    · exact theirs v t self (turn.others v self ▸ holds)
  single v w t holds holds' := by
    by_cases self : v = thread
    · by_cases self' : w = thread
      · rw [self, self']
      · exact absurd (turn.others w self' ▸ holds') ((mine t (self ▸ holds)).2.2 w self')
    · by_cases self' : w = thread
      · exact absurd (turn.others v self ▸ holds) ((mine t (self' ▸ holds')).2.2 v self)
      · exact h.single v w t (turn.others v self ▸ holds) (turn.others w self' ▸ holds')
  known := known
  held v t holds := by
    by_cases self : v = thread
    · exact (mine t (self ▸ holds)).2.1
    · exact created t (h.held v t (turn.others v self ▸ holds))

theorem Sound.turn (h : Sound s) (turn : Turn s thread s') : Sound s' := by
  have alone {t : Nat} (holds : (s.pc thread).Holds t) (v : Nat) (ne : v ≠ thread) : ¬ (s.pc v).Holds t :=
    fun theirs => ne (h.single v thread t theirs holds)
  cases turn.moves with
  | keeps timers next created holds =>
    refine h.of_turn turn ?_ (created ▸ fun _ => id) (timers ▸ created ▸ h.known) (fun t here => ?_) fun v t _ held => ?_
    · exact timers ▸ ordered_congr h.ordered fun u _ => next u
    · have before := holds t here
      exact ⟨timers ▸ h.apart thread t before, created ▸ h.held thread t before, alone before⟩
    · exact timers ▸ h.apart v t held
  | creates t new timers next created holds =>
    have out : t ∉ s.timers := fun mem => new (h.known t mem)
    refine h.of_turn turn ?_ (created ▸ fun u => List.mem_cons_of_mem t) ?_ (fun u here => ?_) fun v u _ held => ?_
    · exact timers ▸ ordered_congr h.ordered fun u mem => next u fun same => out (same ▸ mem)
    · exact timers ▸ created ▸ fun u mem => List.mem_cons_of_mem t (h.known u mem)
    · cases holds u here
      exact ⟨timers ▸ out, created ▸ List.mem_cons_self, fun v _ held => new (h.held v _ held)⟩
    · exact timers ▸ h.apart v u held
  | erases t present timers next created holds =>
    have nodup := h.ordered.nodup
    refine h.of_turn turn ?_ (created ▸ fun _ => id) ?_ (fun u here => ?_) fun v u _ held => ?_
    · have sorted := ordered_congr h.ordered fun u _ => next u
      exact timers ▸ sorted.sublist List.erase_sublist
    · exact timers ▸ created ▸ fun u mem => h.known u (List.mem_of_mem_erase mem)
    · cases holds u here
      exact ⟨timers ▸ List.Nodup.not_mem_erase nodup, created ▸ h.known _ present,
        fun v _ held => h.apart v _ held present⟩
    · exact timers ▸ fun mem => h.apart v u held (List.mem_of_mem_erase mem)
  | stores t held timers next created holds =>
    have out := h.apart thread t held
    refine h.of_turn turn ?_ (created ▸ fun _ => id) (timers ▸ created ▸ h.known) (fun u here => ?_) fun v u _ held => ?_
    · exact timers ▸ ordered_congr h.ordered fun u mem => next u fun same => out (same ▸ mem)
    · cases holds u here
      exact ⟨timers ▸ out, created ▸ h.held thread _ held, alone held⟩
    · exact timers ▸ h.apart v u held
  | inserts t held shape walk timers next created holds =>
    have mem (u : Nat) : u ∈ s'.timers ↔ u = t ∨ u ∈ s.timers := by
      rw [timers, SearchTree.mem_insert (strict_before s), walk]
    refine h.of_turn turn ?_ (created ▸ fun _ => id) ?_ (fun u here => absurd here (holds u)) fun v u ne theirs => ?_
    · have walked : (SearchTree.inorder shape).Pairwise fun t u => s.before t u = true := by
        rw [walk]
        exact h.ordered
      rw [timers]
      exact (SearchTree.insert_pairwise (strict_before s) walked).imp fun less => (before_congr (next _) (next _)).trans less
    · intro u now
      rcases (mem u).1 now with rfl | before
      · exact created ▸ h.held thread _ held
      · exact created ▸ h.known u before
    · intro now
      rcases (mem u).1 now with rfl | before
      · exact alone held v ne theirs
      · exact h.apart v u theirs before

theorem sound_of_reach (h : machine.Reach s) : Sound s :=
  h.invariant sound_init fun _ _ _ inv _ e =>
    let ⟨_, turn⟩ := step_turn inv.ordered e
    inv.turn turn

/-- An `m_next` that changes is not in the set, before and after. -/
theorem Sound.fixed (h : Sound s) (turn : Turn s thread s') (changed : (s'.timer t).next ≠ (s.timer t).next) :
    t ∉ s.timers ∧ t ∉ s'.timers := by
  cases turn.moves with
  | keeps timers next => exact absurd (next t) changed
  | creates u new timers next =>
    have same : t = u := not_imp_comm.1 (next t) changed
    have out : t ∉ s.timers := fun mem => new (h.known u (same ▸ mem))
    exact ⟨out, timers ▸ out⟩
  | erases u present timers next => exact absurd (next t) changed
  | stores u held timers next =>
    have same : t = u := not_imp_comm.1 (next t) changed
    have out : t ∉ s.timers := h.apart thread t (same ▸ held)
    exact ⟨out, timers ▸ out⟩
  | inserts u held shape walk timers next => exact absurd (next t) changed

end Steps

/-- `m_timers` is a valid ordered set, whatever tree it is, and a step changes no key in it. -/
structure State.Valid (s : State) : Prop where
  ordered : s.timers.Pairwise fun t u => toLex ((s.timer t).next, t) < toLex ((s.timer u).next, u)
  once : ∀ t, s.timers.count t ≤ 1
  first : ∀ t, s.timers.head? = some t → ∀ u ∈ s.timers, (s.timer t).next ≤ (s.timer u).next
  finds : ∀ shape : BinaryTree Nat, SearchTree.inorder shape = s.timers →
    ∀ t, SearchTree.find s.before t shape = if t ∈ s.timers then some t else none
  fixed : ∀ l s', step s l = some s' → ∀ t, (s'.timer t).next ≠ (s.timer t).next → t ∉ s.timers ∧ t ∉ s'.timers

/-- **Main theorem.** Whatever the threads do, and wherever a `reset` stores its fields. -/
theorem stays_valid (s : State) (h : machine.Reach s) : s.Valid := by
  have sound := sound_of_reach h
  constructor
  case ordered => exact sound.ordered.imp before_iff.1
  case once => exact List.nodup_iff_count.1 sound.ordered.nodup
  case first =>
    intro t front u mem
    obtain ⟨rest, queue⟩ := List.head?_eq_some_iff.1 front
    have sorted := sound.ordered
    rw [TimerManager.State.Ordered, State.manager, queue, List.pairwise_cons] at sorted
    rw [queue] at mem
    rcases List.mem_cons.1 mem with rfl | later
    · exact le_rfl
    · exact before_next (sorted.1 u later)
  case finds => exact fun shape walk t => found sound.ordered walk
  case fixed =>
    intro l s' e t changed
    obtain ⟨thread, turn⟩ := step_turn sound.ordered e
    exact sound.fixed turn changed

open SearchTree in
/-- A `reset` stores its fields between the accesses of a `refresh`. -/
theorem stays_valid_reset : ∃ s : State, machine.Reach s ∧ s.timers = [7, 8] ∧ (s.timer 7).ms = 5 ∧ s.Valid := by
  have reached := Machine.reach_of_exec (rfl : machine.exec machine.init
    [.call 0 (.addTimer 7 10 1 false) 0, .next 0 0 .nil, .call 0 (.addTimer 8 10 2 false) 0, .next 0 0 (ofList [7]),
     .call 0 (.reset 7 5 true) 0, .next 0 0 (ofList [7, 8]), .call 1 (.refresh 8) 0, .next 1 0 (ofList [8]),
     .next 0 3 .nil, .next 0 0 .nil, .next 1 4 .nil, .next 0 0 .nil, .next 1 0 .nil, .next 0 0 (ofList [8])] = some _)
  exact ⟨_, reached, by decide, rfl, stays_valid _ reached⟩

/-! ## The machine of whole sections -/

/-- A thread of the manager's machine, in the same place. -/
def Pc.ofManager : TimerManager.Pc → Pc
  | .idle => .idle
  | .erase t ms fromNow => .reset t ms fromNow
  | .update t ms fromNow => .erased t ms fromNow
  | .insert t => .insert t

/-- The thread that calls what the manager's machine does in one step, and `listExpiredCb`. -/
def Pc.caller : Option (TimePoint × Bool) → Pc
  | none => .idle
  | some (now, rollover) => .expiring now rollover

/-- The threads of the manager's machine come after the caller, thread 0. -/
def State.ofManager (s : TimerManager.State) : State where
  timer := s.timer
  created := s.created
  timers := s.timers
  tickled := s.tickled
  previouseTime := s.previouseTime
  lock := s.expiring.map fun _ => 0
  pc
    | 0 => .caller s.expiring
    | thread + 1 => .ofManager (s.pc thread)

section Sections

variable {s s' : TimerManager.State} {thread t : Nat}

theorem inorder_insert (before : Nat → Nat → Bool) (t : Nat) (timers : List Nat) :
    SearchTree.inorder (SearchTree.insert before t (SearchTree.ofList timers)) = insertTimer before t timers := by
  induction timers with
  | nil => rfl
  | cons u rest ih =>
    rw [SearchTree.ofList, SearchTree.insert, insertTimer]
    split
    · simp [SearchTree.insert, SearchTree.inorder, SearchTree.inorder_ofList]
    · split
      · rw [SearchTree.inorder, SearchTree.inorder, ih, List.nil_append]
      · simp [SearchTree.inorder, SearchTree.inorder_ofList]

/-- Steps lead from one state to the other. -/
def Leads (s s' : State) : Prop := ∃ ls, machine.exec s ls = some s'

section Leads

variable {a b c : State}

theorem Leads.refl : Leads a a := ⟨[], rfl⟩

theorem Leads.call (call : Call) (now : TimePoint) (idle : a.pc thread = .idle) (e : a.call thread now call = some b)
    (rest : Leads b c) : Leads a c := by
  obtain ⟨ls, run⟩ := rest
  refine ⟨.call thread call now :: ls, ?_⟩
  rw [Machine.exec_cons]
  simp only [machine, step, idle, e, Option.bind_some]
  exact run

theorem Leads.next (thread : Nat) (now : TimePoint) (e : a.next thread now (SearchTree.ofList a.timers) = some b)
    (rest : Leads b c) : Leads a c := by
  obtain ⟨ls, run⟩ := rest
  refine ⟨.next thread now (SearchTree.ofList a.timers) :: ls, ?_⟩
  rw [Machine.exec_cons]
  simp only [machine, step, SearchTree.inorder_ofList, if_true, e, Option.bind_some]
  exact run

/-- The manager's machine is in the same state. -/
theorem Leads.ends (timer : a.timer = s.timer) (created : a.created = s.created) (timers : a.timers = s.timers)
    (tickled : a.tickled = s.tickled) (previouse : a.previouseTime = s.previouseTime)
    (lock : a.lock = s.expiring.map fun _ => 0) (caller : a.pc 0 = .caller s.expiring)
    (others : ∀ v, a.pc (v + 1) = .ofManager (s.pc v)) : Leads a (.ofManager s) := by
  have pc : a.pc = (State.ofManager s).pc := by
    funext v
    cases v with
    | zero => exact caller
    | succ v => exact others v
  obtain ⟨_, _, _, _, _, _, _⟩ := a
  subst timer created timers tickled previouse lock pc
  exact .refl

/-- A thread of the manager's machine moves. -/
theorem thread_pc {p : TimerManager.Pc} {q : Pc} (place : q = .ofManager p) (v : Nat) :
    Function.update (State.ofManager s).pc (thread + 1) q (v + 1) = .ofManager (Function.update s.pc thread p v) := by
  subst place
  by_cases mine : v = thread
  · subst mine
    rw [Function.update_self, Function.update_self]
  · rw [Function.update_of_ne mine, Function.update_of_ne fun same => mine (Nat.succ.inj same)]
    rfl

theorem locked_free {after : State} (free : a.lock = none) : a.locked after = some after := if_pos free

/-! The accesses that look for a timer. -/

variable {now : TimePoint} {cb : Nat}

theorem found_ofList (ordered : a.manager.Ordered) :
    SearchTree.find a.before t (SearchTree.ofList a.timers) = if t ∈ a.timers then some t else none :=
  found ordered (SearchTree.inorder_ofList a.timers)

theorem next_cancelled (ordered : a.manager.Ordered) (here : a.pc thread = .cancelled t) :
    a.next thread now (SearchTree.ofList a.timers) = some ((a.erase t).release.goto thread .idle) := by
  simp only [State.next, here, found_ofList ordered]
  by_cases present : t ∈ a.timers
  · simp only [if_pos present]
  · simp only [if_neg present, State.erase, List.erase_of_not_mem present]

theorem next_refresh (ordered : a.manager.Ordered) (here : a.pc thread = .refresh t) (free : a.lock = none)
    (live : (a.timer t).cb = some cb) (present : t ∈ a.timers) :
    a.next thread now (SearchTree.ofList a.timers) = some (((a.erase t).acquire thread).goto thread (.refreshing t)) := by
  simp only [State.next, here, found_ofList ordered, if_pos present, live]
  exact locked_free free

theorem next_reset {ms : Nat} {fromNow : Bool} (ordered : a.manager.Ordered) (here : a.pc thread = .reset t ms fromNow)
    (free : a.lock = none) (live : (a.timer t).cb = some cb) (present : t ∈ a.timers) :
    a.next thread now (SearchTree.ofList a.timers) = some ((a.erase t).goto thread (.erased t ms fromNow)) := by
  simp only [State.next, here, found_ofList ordered, if_pos present, live]
  exact locked_free free

/-- Without a callback or outside of the set the timer is left alone. -/
theorem next_refused (ordered : a.manager.Ordered)
    (here : a.pc thread = .refresh t ∨ ∃ ms fromNow, a.pc thread = .reset t ms fromNow) (free : a.lock = none)
    (refuses : (a.timer t).cb = none ∨ t ∉ a.timers) :
    a.next thread now (SearchTree.ofList a.timers) = some (a.goto thread .idle) := by
  rcases here with here | ⟨ms, fromNow, here⟩ <;> rcases refuses with dead | absent
  all_goals simp only [State.next, here]
  · simp only [dead]
    exact locked_free free
  · simp only [found_ofList ordered, if_neg absent]
    cases (a.timer t).cb <;> exact locked_free free
  · simp only [dead]
    exact locked_free free
  · simp only [found_ofList ordered, if_neg absent]
    cases (a.timer t).cb <;> exact locked_free free

theorem next_cancel (here : a.pc thread = .cancel t) (free : a.lock = none) (live : (a.timer t).cb = some cb) :
    a.next thread now (SearchTree.ofList a.timers) =
      some (((a.setTimer t { a.timer t with cb := none }).acquire thread).goto thread (.cancelled t)) := by
  simp only [State.next, here, live]
  exact locked_free free

theorem next_dead (here : a.pc thread = .cancel t) (free : a.lock = none) (dead : (a.timer t).cb = none) :
    a.next thread now (SearchTree.ofList a.timers) = some (a.goto thread .idle) := by
  simp only [State.next, here, dead]
  exact locked_free free

end Leads

section Caller

variable (free : s.expiring = none)

include free

theorem caller_idle : (State.ofManager s).pc 0 = .idle := congrArg Pc.caller free

theorem lock_free : (State.ofManager s).lock = none := by simp only [State.ofManager, free, Option.map_none]

theorem leads_addTimer {ms cb : Nat} {recurring : Bool} {now : TimePoint} (new : t ∉ s.created) :
    Leads (.ofManager s) (.ofManager (s.addTimer t ms cb recurring now)) := by
  refine .call (.addTimer t ms cb recurring) now (caller_idle free) (if_neg new) ?_
  refine .next 0 now (locked_free (lock_free free)) ?_
  refine .ends rfl rfl (inorder_insert _ _ _) ?_ rfl rfl (congrArg Pc.caller free).symm fun _ => rfl
  simp only [State.goto, State.addSection, State.insert, inorder_insert]
  rfl

theorem leads_cancel (ordered : s.Ordered) (known : t ∈ s.created) : Leads (.ofManager s) (.ofManager (s.cancel t)) := by
  refine .call (.cancel t) 0 (caller_idle free) (if_pos known) ?_
  unfold TimerManager.State.cancel
  split
  · rename_i dead
    refine .next 0 0 (next_dead rfl (lock_free free) dead) ?_
    exact .ends rfl rfl rfl rfl rfl rfl (congrArg Pc.caller free).symm fun _ => rfl
  · rename_i cb live
    refine .next 0 0 (next_cancel rfl (lock_free free) live) ?_
    refine .next 0 0 (next_cancelled ?_ rfl) ?_
    · exact ordered_same (s := .ofManager s) ordered rfl fun u => update_next (by rfl) u
    · exact .ends rfl rfl (eraseTimer_eq s).symm rfl rfl (congrArg (Option.map fun _ => 0) free).symm
        (congrArg Pc.caller free).symm fun _ => rfl

theorem leads_refresh (ordered : s.Ordered) (known : t ∈ s.created) {now : TimePoint} :
    Leads (.ofManager s) (.ofManager (s.refresh t now)) := by
  refine .call (.refresh t) now (caller_idle free) (if_pos known) ?_
  unfold TimerManager.State.refresh
  split
  · rename_i dead
    refine .next 0 now (next_refused ordered (.inl rfl) (lock_free free) (.inl dead)) ?_
    exact .ends rfl rfl rfl rfl rfl rfl (congrArg Pc.caller free).symm fun _ => rfl
  · rename_i cb live
    split
    · rename_i present
      rw [findTimer_iff] at present
      refine .next 0 now (next_refresh ordered rfl (lock_free free) live present) ?_
      refine .next 0 now rfl (.next 0 now rfl ?_)
      refine .ends rfl rfl ?_ rfl rfl (congrArg (Option.map fun _ => 0) free).symm (congrArg Pc.caller free).symm fun _ => rfl
      simp only [eraseTimer_eq]
      exact inorder_insert _ _ _
    · rename_i absent
      rw [findTimer_iff] at absent
      refine .next 0 now (next_refused ordered (.inl rfl) (lock_free free) (.inr absent)) ?_
      exact .ends rfl rfl rfl rfl rfl rfl (congrArg Pc.caller free).symm fun _ => rfl

theorem leads_listExpired {now rolloverNow : TimePoint} : Leads (.ofManager s) (.ofManager
    { s with expiring := some (now, s.rollover rolloverNow), previouseTime := rolloverNow }) := by
  refine .call .listExpiredCb now (caller_idle free) rfl ?_
  refine .next 0 rolloverNow (locked_free (lock_free free)) ?_
  exact .ends rfl rfl rfl rfl rfl rfl rfl fun _ => rfl

theorem leads_getNextTimer : Leads (.ofManager s) (.ofManager { s with tickled := false }) := by
  refine .call .getNextTimer 0 (caller_idle free) rfl ?_
  refine .next 0 0 (locked_free (lock_free free)) ?_
  exact .ends rfl rfl rfl rfl rfl rfl (congrArg Pc.caller free).symm fun _ => rfl

/-- The first section of a `reset`. -/
theorem leads_erase {ms : Nat} {fromNow : Bool} (ordered : s.Ordered) (here : s.pc thread = .erase t ms fromNow) :
    Leads (.ofManager s) (.ofManager (s.eraseSection thread t ms fromNow)) := by
  have at' : (State.ofManager s).pc (thread + 1) = .reset t ms fromNow := congrArg Pc.ofManager here
  unfold TimerManager.State.eraseSection
  split
  · rename_i dead
    refine .next (thread + 1) 0 (next_refused ordered (.inr ⟨ms, fromNow, at'⟩) (lock_free free) (.inl dead)) ?_
    exact .ends rfl rfl rfl rfl rfl rfl rfl (thread_pc rfl)
  · rename_i cb live
    split
    · rename_i present
      rw [findTimer_iff] at present
      refine .next (thread + 1) 0 (next_reset ordered at' (lock_free free) live present) ?_
      exact .ends rfl rfl (eraseTimer_eq s).symm rfl rfl rfl rfl (thread_pc rfl)
    · rename_i absent
      rw [findTimer_iff] at absent
      refine .next (thread + 1) 0 (next_refused ordered (.inr ⟨ms, fromNow, at'⟩) (lock_free free) (.inr absent)) ?_
      exact .ends rfl rfl rfl rfl rfl rfl rfl (thread_pc rfl)

/-- The second section of a `reset`. -/
theorem leads_insert (here : s.pc thread = .insert t) : Leads (.ofManager s)
    (.ofManager ({ s.addSection t with pc := Function.update s.pc thread .idle }.log (.wasReset t))) := by
  have at' : (State.ofManager s).pc (thread + 1) = .insert t := congrArg Pc.ofManager here
  refine .next (thread + 1) 0 (by rw [State.next, at']; exact locked_free (lock_free free)) ?_
  refine .ends rfl rfl (inorder_insert _ _ _) ?_ rfl rfl rfl (thread_pc rfl)
  simp only [State.goto, State.addSection, State.insert, inorder_insert]
  rfl

end Caller

theorem leads_reset {ms : Nat} {fromNow : Bool} (known : t ∈ s.created) (here : s.pc thread = .idle) :
    Leads (.ofManager s) (.ofManager (s.reset thread t ms fromNow)) := by
  have at' : (State.ofManager s).pc (thread + 1) = .idle := congrArg Pc.ofManager here
  by_cases early : ms = (s.timer t).ms ∧ fromNow = false
  · rw [TimerManager.State.reset, if_pos early]
    refine .call (.reset t ms fromNow) 0 at' ((if_pos known).trans (congrArg some (if_pos early))) ?_
    exact .ends rfl rfl rfl rfl rfl rfl rfl fun _ => rfl
  · rw [TimerManager.State.reset, if_neg early]
    refine .call (.reset t ms fromNow) 0 at' ((if_pos known).trans (congrArg some (if_neg early))) ?_
    exact .ends rfl rfl rfl rfl rfl rfl rfl (thread_pc rfl)

/-- The update of the fields in a `reset` is three accesses. -/
theorem leads_update {ms : Nat} {fromNow : Bool} {now : TimePoint} (here : s.pc thread = .update t ms fromNow) :
    Leads (.ofManager s) (.ofManager (s.updateFields thread t ms fromNow now)) := by
  have at' : (State.ofManager s).pc (thread + 1) = .erased t ms fromNow := congrArg Pc.ofManager here
  refine .next (thread + 1) now (by rw [State.next, at']) ?_
  refine .next (thread + 1) now (by rw [State.next, goto_pc]) ?_
  refine .next (thread + 1) now (by rw [State.next, goto_pc]) ?_
  refine .ends ?_ rfl rfl rfl rfl rfl rfl ?_
  · simp only [State.goto, State.setNext, State.setTimer, TimerManager.State.updateFields, TimerManager.State.setTimer,
      Function.update_self, Function.update_idem]
    rfl
  · intro v
    simp only [State.goto, State.setNext, State.setTimer, Function.update_idem]
    exact thread_pc (p := .insert t) rfl v

/-- One iteration of `listExpiredCb`. -/
theorem leads_takeExpired {now : TimePoint} {rollover : Bool} (active : s.expiring = some (now, rollover)) :
    Leads (.ofManager s) (.ofManager (s.takeExpired now rollover)) := by
  have at' : (State.ofManager s).pc 0 = .expiring now rollover := congrArg Pc.caller active
  have take : (State.ofManager s).next 0 now (SearchTree.ofList s.timers) =
      some ((State.ofManager s).takeExpired 0 now rollover) := by rw [State.next, at']
  refine .next 0 now take ?_
  unfold TimerManager.State.takeExpired
  split
  · rename_i empty
    have stop : (State.ofManager s).takeExpired 0 now rollover = (State.ofManager s).release.goto 0 .idle := by
      simp only [State.takeExpired, show (State.ofManager s).timers = [] from empty]
    rw [stop]
    exact .ends rfl rfl rfl rfl rfl rfl rfl fun _ => rfl
  · rename_i t rest queue
    have front : (State.ofManager s).timers = t :: rest := queue
    split
    · rename_i due
      split
      · rename_i recurs
        have taken : (State.ofManager s).takeExpired 0 now rollover =
            State.goto { State.ofManager s with timers := rest } 0 (.expired t now rollover) := by
          simp only [State.takeExpired, front]
          exact (if_pos due).trans (if_pos recurs)
        rw [taken]
        refine .next 0 now rfl (.next 0 now rfl ?_)
        exact .ends rfl rfl (inorder_insert _ _ _) rfl rfl rfl (congrArg Pc.caller active).symm fun _ => rfl
      · rename_i once
        have taken : (State.ofManager s).takeExpired 0 now rollover =
            State.setTimer { State.ofManager s with timers := rest } t { s.timer t with cb := none } := by
          simp only [State.takeExpired, front]
          exact (if_pos due).trans (if_neg once)
        rw [taken]
        exact .ends rfl rfl rfl rfl rfl rfl rfl fun _ => rfl
    · rename_i late
      have stop : (State.ofManager s).takeExpired 0 now rollover = (State.ofManager s).release.goto 0 .idle := by
        simp only [State.takeExpired, front]
        exact if_neg late
      rw [stop]
      exact .ends rfl rfl rfl rfl rfl rfl rfl fun _ => rfl

theorem of_locked {f : TimerManager.State → TimerManager.State} (e : s.locked f = some s') :
    s.expiring = none ∧ f s = s' := by
  unfold TimerManager.State.locked at e
  split at e
  · rename_i free
    exact ⟨free, Option.some.inj e⟩
  · cases e

/-- A step of the manager's machine is steps of its threads. -/
theorem leads_step {l : TimerManager.Label} (ordered : s.Ordered) (e : TimerManager.step s l = some s') :
    Leads (.ofManager s) (.ofManager s') := by
  cases l with
  | addTimer t ms cb recurring now =>
    simp only [TimerManager.step] at e
    split at e
    · cases e
    · rename_i new
      obtain ⟨free, rfl⟩ := of_locked e
      exact leads_addTimer free new
  | cancel t =>
    simp only [TimerManager.step] at e
    split at e
    · rename_i known
      obtain ⟨free, rfl⟩ := of_locked e
      exact leads_cancel free ordered known
    · cases e
  | refresh t now =>
    simp only [TimerManager.step] at e
    split at e
    · rename_i known
      obtain ⟨free, rfl⟩ := of_locked e
      exact leads_refresh free ordered known
    · cases e
  | reset thread t ms fromNow =>
    simp only [TimerManager.step] at e
    split at e <;> cases e
    rename_i both
    exact leads_reset both.1 both.2
  | erase thread =>
    simp only [TimerManager.step] at e
    split at e
    · rename_i here
      obtain ⟨free, rfl⟩ := of_locked e
      exact leads_erase free ordered here
    · cases e
  | update thread now =>
    simp only [TimerManager.step] at e
    split at e <;> cases e
    rename_i here
    exact leads_update here
  | insert thread =>
    simp only [TimerManager.step] at e
    split at e
    · rename_i here
      obtain ⟨free, rfl⟩ := of_locked e
      exact leads_insert free here
    · cases e
  | listExpired now rolloverNow =>
    simp only [TimerManager.step] at e
    obtain ⟨free, rfl⟩ := of_locked e
    exact leads_listExpired free
  | takeExpired =>
    obtain ⟨⟨now, rollover⟩, active, rfl⟩ := Option.map_eq_some_iff.1 e
    exact leads_takeExpired active
  | getNextTimer =>
    simp only [TimerManager.step] at e
    obtain ⟨free, rfl⟩ := of_locked e
    exact leads_getNextTimer free

end Sections

theorem reach_ofManager {s : TimerManager.State} (h : TimerManager.machine.Reach s) : machine.Reach (.ofManager s) := by
  induction h with
  | init =>
    have start : State.ofManager TimerManager.machine.init = machine.init := by
      refine congrArg (State.mk _ _ _ _ _ _) (funext fun v => ?_)
      cases v <;> rfl
    rw [start]
    exact .init
  | @step s l s' _ _ e ih =>
    have ordered : s.Ordered := (sound_of_reach ih).ordered
    obtain ⟨ls, run⟩ := leads_step ordered e
    exact ih.exec_of run

/-- The loop of `listExpiredCb` starts from an ordered set in every run. -/
theorem ordered_of_reach {s : TimerManager.State} (h : TimerManager.machine.Reach s) : s.Ordered :=
  (sound_of_reach (reach_ofManager h)).ordered

end Mycoroutine.TimerManager.Keys
