import Mycoroutine.Sync.ChannelOrder
import Mathlib.Data.List.Count
import Mathlib.Data.List.Nodup

/-!
# No stranded waiter

A waiter is in flight from the moment it is popped until its call is back in
its locked section. Every suspended call is queued once or in flight; the
number of wakeups in flight covers whatever a queued peer could already use, so
with none in flight the queues and the buffer are consistent.
-/

namespace Mycoroutine.Channel
set_option autoImplicit false
open Interleave

variable {T : Type}

/-- A `send` that owns a queued or popped waiter. -/
def Pc.parkedSend : Pc T → Bool
  | .sendWait _ | .sendEnter _ true => true
  | _ => false

/-- A `recv` that owns a queued or popped waiter. -/
def Pc.parkedRecv : Pc T → Bool
  | .recvWait | .recvNotify none _ | .recvEnter true => true
  | _ => false

/-- On its way back into the locked section after a wakeup. -/
def Pc.reentering : Pc T → Bool
  | .sendEnter _ true | .recvEnter true => true
  | _ => false

/-- The waiters this call has popped and not yet notified. -/
def Pc.toWake : Pc T → List CallId
  | .sendNotify _ r => [r]
  | .recvNotify _ w => [w]
  | .closeNotify rest => rest
  | _ => []

/-- Who is parked where. -/
structure Parked (s : State T) : Prop where
  senders : ∀ c, s.ch.senderWaiters.count c + s.sendersInFlight.count c = (s.pc c).parkedSend.toNat
  receivers : ∀ c, s.ch.receiverWaiters.count c + s.receiversInFlight.count c = (s.pc c).parkedRecv.toNat
  asleep : ∀ c, c ∈ s.ch.senderWaiters ∨ c ∈ s.ch.receiverWaiters → s.notified c = false
  awake : ∀ c, (s.pc c).reentering = true → s.notified c = true
  held : ∀ d w, w ∈ (s.pc d).toWake → s.notified w = false ∧ (w ∈ s.sendersInFlight ∨ w ∈ s.receiversInFlight)
  heldOnce : ∀ d, (s.pc d).toWake.Nodup
  holder : ∀ d e w, w ∈ (s.pc d).toWake → w ∈ (s.pc e).toWake → d = e
  told : ∀ c, c ∈ s.sendersInFlight ∨ c ∈ s.receiversInFlight → s.notified c = true ∨ ∃ d, c ∈ (s.pc d).toWake
  shut : s.ch.closed = true → s.ch.senderWaiters = [] ∧ s.ch.receiverWaiters = []

theorem parked_init (n : Nat) : Parked (machine T n).init := by
  constructor <;> simp [machine, Pc.parkedSend, Pc.parkedRecv, Pc.reentering, Pc.toWake]

theorem Pc.parked_once (pc : Pc T) : pc.parkedSend.toNat + pc.parkedRecv.toNat ≤ 1 := by
  unfold parkedSend
  split
  · simp [parkedRecv]
  · simp [parkedRecv]
  · simpa using Bool.toNat_le _

/-- A queued call is not in flight. -/
theorem Parked.queued {s : State T} (h : Parked s) {w : CallId}
    (queued : w ∈ s.ch.senderWaiters ∨ w ∈ s.ch.receiverWaiters) :
    w ∉ s.sendersInFlight ∧ w ∉ s.receiversInFlight := by
  have senders := h.senders w
  have receivers := h.receivers w
  have once := (s.pc w).parked_once
  rw [← List.count_eq_zero, ← List.count_eq_zero]
  rw [← List.count_pos_iff, ← List.count_pos_iff] at queued
  omega

/-- A call about to enter its locked section is neither queued nor held by a
peer that has yet to notify it. -/
theorem Parked.entering {s : State T} (h : Parked s) {c : CallId}
    (back : (s.pc c).reentering = true ∨ (s.pc c).parkedSend = false ∧ (s.pc c).parkedRecv = false) :
    c ∉ s.ch.senderWaiters ∧ c ∉ s.ch.receiverWaiters ∧ ∀ d, c ∉ (s.pc d).toWake := by
  rcases back with back | ⟨noSend, noRecv⟩
  · have awake := h.awake c back
    refine ⟨fun q => ?_, fun q => ?_, fun d q => ?_⟩
    · simp [h.asleep c (.inl q)] at awake
    · simp [h.asleep c (.inr q)] at awake
    · simp [(h.held d c q).1] at awake
  · have senders := h.senders c
    have receivers := h.receivers c
    rw [noSend, Bool.toNat_false, Nat.add_eq_zero_iff, List.count_eq_zero, List.count_eq_zero] at senders
    rw [noRecv, Bool.toNat_false, Nat.add_eq_zero_iff, List.count_eq_zero, List.count_eq_zero] at receivers
    exact ⟨senders.1, receivers.1, fun d q => (h.held d c q).2.elim senders.2 receivers.2⟩

/-- What a locked section of call `c` does to the parked calls: it is no longer
in flight, pops `popS` and `popR` and has them to wake, and may queue itself as
`selfS` or `selfR`. -/
structure Section (c : CallId) (pc : Pc T) (popS popR selfS selfR : List CallId) (s s' : State T) : Prop where
  enter : (s.pc c).toWake = []
  back : (s.pc c).reentering = true ∨ (s.pc c).parkedSend = false ∧ (s.pc c).parkedRecv = false
  moved : s'.pc = Function.update s.pc c pc := by rfl
  wake : pc.toWake = popS ++ popR := by rfl
  inside : pc.reentering = false := by rfl
  parkedSend : pc.parkedSend.toNat = selfS.length := by rfl
  parkedRecv : pc.parkedRecv.toNat = selfR.length := by rfl
  selves : ∀ d, d ∈ selfS ∨ d ∈ selfR → d = c := by simp
  senderWaiters : ∃ rest, s.ch.senderWaiters = popS ++ rest ∧ s'.ch.senderWaiters = rest ++ selfS
  receiverWaiters : ∃ rest, s.ch.receiverWaiters = popR ++ rest ∧ s'.ch.receiverWaiters = rest ++ selfR
  sendersInFlight : s'.sendersInFlight = s.sendersInFlight.erase c ++ popS
  receiversInFlight : s'.receiversInFlight = s.receiversInFlight.erase c ++ popR
  notified : ∀ d, s'.notified d = if d ∈ selfS ∨ d ∈ selfR then false else s.notified d
  shut : s'.ch.closed = true → s'.ch.senderWaiters = [] ∧ s'.ch.receiverWaiters = []

/-- Popping `pop`, queueing `self` and landing `c` keeps every other call's
place and gives `c` the place `self` says. -/
theorem section_count {c d : CallId} {pop rest self fly : List CallId} {old new : Nat}
    (out : c ∉ pop ++ rest) (selves : ∀ e ∈ self, e = c) (sum : (pop ++ rest).count d + fly.count d = old)
    (once : old ≤ 1) (mine : d = c → new = self.length) (other : d ≠ c → new = old) :
    (rest ++ self).count d + (fly.erase c ++ pop).count d = new := by
  rw [List.count_append] at sum
  rw [List.count_append, List.count_append]
  by_cases e : d = c
  · subst e
    have none : (pop ++ rest).count d = 0 := List.count_eq_zero.2 out
    have all : self.count d = self.length := List.count_eq_length.2 fun b hb => (selves b hb).symm
    rw [List.count_append] at none
    rw [List.count_erase_self, mine rfl]
    omega
  · have none : self.count d = 0 := List.count_eq_zero.2 fun m => e (selves d m)
    rw [List.count_erase_of_ne e, other e]
    omega

theorem Parked.section {s s' : State T} (h : Parked s) {c : CallId} {pc : Pc T} {popS popR selfS selfR : List CallId}
    (sec : Section c pc popS popR selfS selfR s s') : Parked s' := by
  obtain ⟨notS, notR, unheld⟩ := h.entering sec.back
  obtain ⟨restS, oldS, newS⟩ := sec.senderWaiters
  obtain ⟨restR, oldR, newR⟩ := sec.receiverWaiters
  have self : s'.pc c = pc := by rw [sec.moved, Function.update_self]
  have other : ∀ d, d ≠ c → s'.pc d = s.pc d := fun d ne => by rw [sec.moved, Function.update_of_ne ne]
  have quiet : ∀ d, s.notified d = false → s'.notified d = false := by
    intro d asleep
    rw [sec.notified, asleep, ite_self]
  have loud : ∀ d, d ≠ c → s'.notified d = s.notified d := by
    intro d ne
    rw [sec.notified, if_neg fun m => ne (sec.selves d m)]
  have popped : ∀ w, w ∈ popS ++ popR → w ∈ s.ch.senderWaiters ∨ w ∈ s.ch.receiverWaiters := by
    intro w hw
    rw [oldS, oldR, List.mem_append, List.mem_append]
    exact (List.mem_append.1 hw).imp .inl .inl
  have landed : ∀ d, d ∈ s.sendersInFlight.erase c ∨ d ∈ s.receiversInFlight.erase c →
      d ≠ c ∧ (d ∈ s.sendersInFlight ∨ d ∈ s.receiversInFlight) := by
    intro d hd
    refine ⟨fun e => ?_, hd.imp List.mem_of_mem_erase List.mem_of_mem_erase⟩
    subst e
    have senders := h.senders d
    have receivers := h.receivers d
    have once := (s.pc d).parked_once
    rw [← List.count_pos_iff, ← List.count_pos_iff, List.count_erase_self, List.count_erase_self] at hd
    omega
  constructor
  · intro d
    rw [newS, sec.sendersInFlight]
    refine section_count (oldS ▸ notS) (fun e m => sec.selves e (.inl m)) (oldS ▸ h.senders d) (Bool.toNat_le _) ?_ ?_
    · rintro rfl
      rw [self, sec.parkedSend]
    · intro ne
      rw [other d ne]
  · intro d
    rw [newR, sec.receiversInFlight]
    refine section_count (oldR ▸ notR) (fun e m => sec.selves e (.inr m)) (oldR ▸ h.receivers d) (Bool.toNat_le _) ?_ ?_
    · rintro rfl
      rw [self, sec.parkedRecv]
    · intro ne
      rw [other d ne]
  · intro d hd
    rw [newS, newR, List.mem_append, List.mem_append] at hd
    by_cases m : d ∈ selfS ∨ d ∈ selfR
    · rw [sec.notified, if_pos m]
    · refine quiet d (h.asleep d ?_)
      rw [oldS, oldR, List.mem_append, List.mem_append]
      tauto
  · intro d hd
    have ne : d ≠ c := by
      rintro rfl
      rw [self, sec.inside] at hd
      cases hd
    rw [other d ne] at hd
    rw [loud d ne]
    exact h.awake d hd
  · intro d w hw
    rw [sec.sendersInFlight, sec.receiversInFlight, List.mem_append, List.mem_append]
    by_cases e : d = c
    · subst e
      rw [self, sec.wake] at hw
      refine ⟨quiet w (h.asleep w (popped w hw)), ?_⟩
      exact (List.mem_append.1 hw).imp .inr .inr
    · rw [other d e] at hw
      obtain ⟨asleep, fly⟩ := h.held d w hw
      have ne : w ≠ c := fun e' => unheld d (e' ▸ hw)
      refine ⟨quiet w asleep, fly.imp (fun m => .inl ?_) fun m => .inl ?_⟩
      · exact (List.mem_erase_of_ne ne).2 m
      · exact (List.mem_erase_of_ne ne).2 m
  · intro d
    by_cases e : d = c
    · subst e
      rw [self, sec.wake, List.nodup_iff_count_le_one]
      intro w
      have senders := h.senders w
      have receivers := h.receivers w
      have once := (s.pc w).parked_once
      rw [oldS, List.count_append] at senders
      rw [oldR, List.count_append] at receivers
      rw [List.count_append]
      omega
    · rw [other d e]
      exact h.heldOnce d
  · intro d e w hd he
    have fresh : ∀ a, a ≠ c → w ∈ (s.pc a).toWake → w ∉ popS ++ popR := by
      intro a ne ha hw
      obtain ⟨notFlyS, notFlyR⟩ := h.queued (popped w hw)
      exact (h.held a w ha).2.elim notFlyS notFlyR
    by_cases ed : d = c <;> by_cases ee : e = c
    · rw [ed, ee]
    · rw [ed, self, sec.wake] at hd
      rw [other e ee] at he
      exact absurd hd (fresh e ee he)
    · rw [ee, self, sec.wake] at he
      rw [other d ed] at hd
      exact absurd he (fresh d ed hd)
    · rw [other d ed] at hd
      rw [other e ee] at he
      exact h.holder d e w hd he
  · intro d hd
    rw [sec.sendersInFlight, sec.receiversInFlight, List.mem_append, List.mem_append] at hd
    by_cases m : d ∈ popS ++ popR
    · exact .inr ⟨c, by rw [self, sec.wake]; exact m⟩
    · rw [List.mem_append, not_or] at m
      obtain ⟨ne, fly⟩ := landed d (hd.imp (Or.resolve_right · m.1) (Or.resolve_right · m.2))
      rcases h.told d fly with told | ⟨e, he⟩
      · exact .inl ((loud d ne).trans told)
      · refine .inr ⟨e, ?_⟩
        rw [other e fun ec => ?_]
        · exact he
        · rw [ec, sec.enter] at he
          cases he
  · exact sec.shut

/-- A step of call `c` alone that keeps its place. -/
theorem Parked.advance {s : State T} (h : Parked s) {c : CallId} {pc : Pc T}
    (parkedSend : pc.parkedSend = (s.pc c).parkedSend) (parkedRecv : pc.parkedRecv = (s.pc c).parkedRecv)
    (woken : pc.reentering = true → s.notified c = true) (wake : pc.toWake = (s.pc c).toWake) :
    Parked (s.setPc c pc) := by
  have wakes : ∀ d, ((s.setPc c pc).pc d).toWake = (s.pc d).toWake :=
    (Function.forall_update_iff s.pc fun d p => p.toWake = (s.pc d).toWake).2 ⟨wake, fun _ _ => rfl⟩
  constructor
  · exact (Function.forall_update_iff s.pc fun d p => _ = p.parkedSend.toNat).2
      ⟨parkedSend ▸ h.senders c, fun d _ => h.senders d⟩
  · exact (Function.forall_update_iff s.pc fun d p => _ = p.parkedRecv.toNat).2
      ⟨parkedRecv ▸ h.receivers c, fun d _ => h.receivers d⟩
  · exact h.asleep
  · exact (Function.forall_update_iff s.pc fun d p => p.reentering = true → s.notified d = true).2
      ⟨woken, fun d _ => h.awake d⟩
  · intro d w hw
    exact h.held d w (wakes d ▸ hw)
  · intro d
    exact wakes d ▸ h.heldOnce d
  · intro d e w hd he
    exact h.holder d e w (wakes d ▸ hd) (wakes e ▸ he)
  · intro d hd
    refine (h.told d hd).imp_right fun ⟨e, he⟩ => ⟨e, ?_⟩
    exact (wakes e).symm ▸ he
  · exact h.shut

/-- One `NotifyWaiter`: the waiter passes from its holder's list to its own flag. -/
theorem Parked.notifies {s : State T} (h : Parked s) {c w : CallId} {pc : Pc T}
    (wake : (s.pc c).toWake = w :: pc.toWake) (parkedSend : pc.parkedSend = (s.pc c).parkedSend)
    (parkedRecv : pc.parkedRecv = (s.pc c).parkedRecv) (outside : pc.reentering = false) :
    Parked ((s.notify w).setPc c pc) := by
  have mem : w ∈ (s.pc c).toWake := wake ▸ List.mem_cons_self
  have once : w ∉ pc.toWake ∧ pc.toWake.Nodup := List.nodup_cons.1 (wake ▸ h.heldOnce c)
  have wakes : ∀ d v, v ∈ (((s.notify w).setPc c pc).pc d).toWake → v ∈ (s.pc d).toWake ∧ v ≠ w := by
    refine (Function.forall_update_iff s.pc fun d p => ∀ v, v ∈ p.toWake → v ∈ (s.pc d).toWake ∧ v ≠ w).2
      ⟨fun v hv => ?_, fun d ne v hv => ⟨hv, fun e => ne (h.holder d c w (e ▸ hv) mem)⟩⟩
    exact ⟨wake ▸ List.mem_cons_of_mem _ hv, fun e => once.1 (e ▸ hv)⟩
  have asleep : ∀ d, d ≠ w → ((s.notify w).setPc c pc).notified d = s.notified d :=
    fun d ne => Function.update_of_ne ne _ _
  constructor
  · exact (Function.forall_update_iff s.pc fun d p => _ = p.parkedSend.toNat).2
      ⟨parkedSend ▸ h.senders c, fun d _ => h.senders d⟩
  · exact (Function.forall_update_iff s.pc fun d p => _ = p.parkedRecv.toNat).2
      ⟨parkedRecv ▸ h.receivers c, fun d _ => h.receivers d⟩
  · intro d hd
    have ne : d ≠ w := by
      rintro rfl
      obtain ⟨notS, notR⟩ := h.queued hd
      exact (h.held c d mem).2.elim notS notR
    exact (asleep d ne).trans (h.asleep d hd)
  · intro d hd
    have back : (s.pc d).reentering = true := by
      by_cases e : d = c
      · subst e
        have : (((s.notify w).setPc d pc).pc d) = pc := Function.update_self _ _ _
        rw [this, outside] at hd
        cases hd
      · rwa [show ((s.notify w).setPc c pc).pc d = s.pc d from Function.update_of_ne e _ _] at hd
    by_cases e : d = w
    · subst e
      exact Function.update_self _ _ _
    · exact (asleep d e).trans (h.awake d back)
  · intro d v hv
    obtain ⟨hv, ne⟩ := wakes d v hv
    exact (h.held d v hv).imp_left fun f => (asleep v ne).trans f
  · exact (Function.forall_update_iff s.pc fun d p => p.toWake.Nodup).2 ⟨once.2, fun d _ => h.heldOnce d⟩
  · intro d e v hd he
    exact h.holder d e v (wakes d v hd).1 (wakes e v he).1
  · intro d hd
    by_cases e : d = w
    · subst e
      exact .inl (Function.update_self _ _ _)
    · refine (h.told d hd).imp (fun t => (asleep d e).trans t) fun ⟨b, hb⟩ => ⟨b, ?_⟩
      by_cases eb : b = c
      · subst eb
        rw [wake, List.mem_cons] at hb
        rw [show ((s.notify w).setPc b pc).pc b = pc from Function.update_self _ _ _]
        exact hb.resolve_left e
      · rwa [show ((s.notify w).setPc c pc).pc b = s.pc b from Function.update_of_ne eb _ _]
  · exact h.shut

theorem Parked.erase_sender {s : State T} (h : Parked s) {c : CallId} (no : (s.pc c).parkedSend = false) :
    s.sendersInFlight.erase c = s.sendersInFlight := by
  have senders := h.senders c
  rw [no, Bool.toNat_false, Nat.add_eq_zero_iff, List.count_eq_zero, List.count_eq_zero] at senders
  exact List.erase_of_not_mem senders.2

theorem Parked.erase_receiver {s : State T} (h : Parked s) {c : CallId} (no : (s.pc c).parkedRecv = false) :
    s.receiversInFlight.erase c = s.receiversInFlight := by
  have receivers := h.receivers c
  rw [no, Bool.toNat_false, Nat.add_eq_zero_iff, List.count_eq_zero, List.count_eq_zero] at receivers
  exact List.erase_of_not_mem receivers.2

theorem sendEnter_back {s : State T} {c : CallId} {arg : Arg T} {waited : Bool} (here : s.pc c = .sendEnter arg waited) :
    (s.pc c).reentering = true ∨ (s.pc c).parkedSend = false ∧ (s.pc c).parkedRecv = false := by
  rw [here]
  cases waited
  · exact .inr ⟨rfl, rfl⟩
  · exact .inl rfl

theorem recvEnter_back {s : State T} {c : CallId} {waited : Bool} (here : s.pc c = .recvEnter waited) :
    (s.pc c).reentering = true ∨ (s.pc c).parkedSend = false ∧ (s.pc c).parkedRecv = false := by
  rw [here]
  cases waited
  · exact .inr ⟨rfl, rfl⟩
  · exact .inl rfl

/-- A section of `send`: it takes the receivers `pop` to wake, or queues itself as `self`. -/
theorem Parked.send {s s' : State T} {c : CallId} {arg : Arg T} {waited : Bool} (h : Parked s) (pc : Pc T) (pop self : List CallId)
    (here : s.pc c = .sendEnter arg waited) (selves : ∀ d ∈ self, d = c)
    (receiverWaiters : s.ch.receiverWaiters = pop ++ s'.ch.receiverWaiters)
    (shut : s'.ch.closed = true → s'.ch.senderWaiters = [] ∧ s'.ch.receiverWaiters = [])
    (receiversInFlight : s'.receiversInFlight = s.receiversInFlight ++ pop)
    (notified : ∀ d, s'.notified d = if d ∈ self then false else s.notified d)
    (senderWaiters : s'.ch.senderWaiters = s.ch.senderWaiters ++ self)
    (moved : s'.pc = Function.update s.pc c pc := by rfl) (wake : pc.toWake = pop := by rfl)
    (inside : pc.reentering = false := by rfl) (parkedSend : pc.parkedSend.toNat = self.length := by rfl)
    (parkedRecv : pc.parkedRecv = false := by rfl)
    (sendersInFlight : s'.sendersInFlight = s.sendersInFlight.erase c := by rfl) : Parked s' := by
  have stay := h.erase_receiver (c := c) (by rw [here]; rfl)
  refine h.section (?_ : Section c pc [] pop self [] s s')
  exact
    { enter := by rw [here]; rfl
      back := sendEnter_back here
      moved := moved
      wake := wake
      inside := inside
      parkedSend := parkedSend
      parkedRecv := by rw [parkedRecv]; rfl
      selves := fun d own => own.elim (selves d) nofun
      senderWaiters := ⟨_, rfl, senderWaiters⟩
      receiverWaiters := ⟨_, receiverWaiters, (List.append_nil _).symm⟩
      sendersInFlight := by rw [sendersInFlight, List.append_nil]
      receiversInFlight := by rw [stay, receiversInFlight]
      notified := by simpa using notified
      shut := shut }

/-- A section of `recv`: it takes the senders `pop` to wake, or queues itself as `self`. -/
theorem Parked.recv {s s' : State T} {c : CallId} {waited : Bool} (h : Parked s) (pc : Pc T) (pop self : List CallId)
    (here : s.pc c = .recvEnter waited) (selves : ∀ d ∈ self, d = c)
    (senderWaiters : s.ch.senderWaiters = pop ++ s'.ch.senderWaiters)
    (shut : s'.ch.closed = true → s'.ch.senderWaiters = [] ∧ s'.ch.receiverWaiters = [])
    (sendersInFlight : s'.sendersInFlight = s.sendersInFlight ++ pop)
    (notified : ∀ d, s'.notified d = if d ∈ self then false else s.notified d)
    (receiverWaiters : s'.ch.receiverWaiters = s.ch.receiverWaiters ++ self)
    (moved : s'.pc = Function.update s.pc c pc := by rfl) (wake : pc.toWake = pop := by rfl)
    (inside : pc.reentering = false := by rfl) (parkedSend : pc.parkedSend = false := by rfl)
    (parkedRecv : pc.parkedRecv.toNat = self.length := by rfl)
    (receiversInFlight : s'.receiversInFlight = s.receiversInFlight.erase c := by rfl) : Parked s' := by
  have stay := h.erase_sender (c := c) (by rw [here]; rfl)
  refine h.section (?_ : Section c pc pop [] [] self s s')
  exact
    { enter := by rw [here]; rfl
      back := recvEnter_back here
      moved := moved
      wake := by rw [wake, List.append_nil]
      inside := inside
      parkedSend := by rw [parkedSend]; rfl
      parkedRecv := parkedRecv
      selves := fun d own => own.elim nofun (selves d)
      senderWaiters := ⟨_, senderWaiters, (List.append_nil _).symm⟩
      receiverWaiters := ⟨_, rfl, receiverWaiters⟩
      sendersInFlight := by rw [stay, sendersInFlight]
      receiversInFlight := by rw [receiversInFlight, List.append_nil]
      notified := by simpa using notified
      shut := shut }

/-- The first `close` takes everybody to wake. -/
theorem Parked.close {s : State T} {c : CallId} (h : Parked s) (here : s.pc c = .closeEnter) :
    Parked { s with
      ch := { s.ch with closed := true, senderWaiters := [], receiverWaiters := [] },
      sendersInFlight := s.sendersInFlight ++ s.ch.senderWaiters,
      receiversInFlight := s.receiversInFlight ++ s.ch.receiverWaiters,
      pc := Function.update s.pc c (.closeNotify (s.ch.senderWaiters ++ s.ch.receiverWaiters)) } := by
  have stayS := h.erase_sender (c := c) (by rw [here]; rfl)
  have stayR := h.erase_receiver (c := c) (by rw [here]; rfl)
  refine h.section (?_ : Section c (.closeNotify (s.ch.senderWaiters ++ s.ch.receiverWaiters))
    s.ch.senderWaiters s.ch.receiverWaiters [] [] s _)
  exact
    { enter := by rw [here]; rfl
      back := by rw [here]; exact .inr ⟨rfl, rfl⟩
      senderWaiters := ⟨[], (List.append_nil _).symm, rfl⟩
      receiverWaiters := ⟨[], (List.append_nil _).symm, rfl⟩
      sendersInFlight := by rw [stayS]
      receiversInFlight := by rw [stayR]
      notified := by simp
      shut := fun _ => ⟨rfl, rfl⟩ }

theorem Parked.move {s s' : State T} (h : Parked s) (move : Moves s s') : Parked s' := by
  cases move with
  | called c pc idle first =>
    rcases first with ⟨value, rvalue, rfl⟩ | rfl | rfl <;>
      exact h.advance (by rw [idle]; rfl) (by rw [idle]; rfl) nofun (by rw [idle]; rfl)
  | sendRefused c arg waited here closed =>
    exact h.send (.sendDone arg false) [] [] here nofun rfl h.shut (by simp) (by simp) (by simp)
  | sendKept c arg waited here opened can alone =>
    exact h.send (.sendDone arg.forward true) [] [] here nofun alone (by simp [opened]) (by simp) (by simp) (by simp)
  | sendHanded c arg waited r rs here opened can waiting =>
    exact h.send (.sendNotify arg.forward r) [r] [] here nofun waiting (by simp [opened]) (by simp) (by simp) (by simp)
  | sendQueued c arg waited here opened cannot =>
    exact h.send (.sendWait arg) [] [c] here (by simp) rfl (by simp [opened]) (by simp)
      (fun d => by by_cases same : d = c <;> simp [same]) rfl
  | recvTook c waited v rest here front alone =>
    exact h.recv (.recvDone (some v)) [] [] here nofun alone (fun closed => ⟨rfl, (h.shut closed).2⟩) (by simp) (by simp) (by simp)
  | recvTookWaking c waited v rest w ws here front waiting =>
    exact h.recv (.recvNotify (some v) w) [w] [] here nofun waiting
      (fun closed => absurd (h.shut closed).1 (by simp [waiting])) (by simp) (by simp) (by simp)
  | recvRefused c waited here empty closed =>
    exact h.recv (.recvDone none) [] [] here nofun rfl h.shut (by simp) (by simp) (by simp)
  | recvQueued c waited here empty opened alone =>
    exact h.recv .recvWait [] [c] here (by simp) alone (by simp [opened]) (by simp)
      (fun d => by by_cases same : d = c <;> simp [same]) rfl
  | recvQueuedWaking c waited w ws here empty opened waiting =>
    exact h.recv (.recvNotify none w) [w] [c] here (by simp) waiting (by simp [opened]) (by simp)
      (fun d => by by_cases same : d = c <;> simp [same]) rfl
  | closedFirst c here opened => exact h.close here
  | closedAgain c here closed => exact h.advance (by rw [here]; rfl) (by rw [here]; rfl) nofun (by rw [here]; rfl)
  | notified c w pc leaving =>
    rcases leaving with ⟨arg, here, rfl⟩ | ⟨v, here, rfl⟩ | ⟨here, rfl⟩ | ⟨rest, here, rfl⟩ <;>
      exact h.notifies (by rw [here]; rfl) (by rw [here]; rfl) (by rw [here]; rfl) rfl
  | closeReturned c here => exact h.advance (by rw [here]; rfl) (by rw [here]; rfl) nofun (by rw [here]; rfl)
  | sendWoken c arg here told =>
    exact h.advance (by rw [here]; rfl) (by rw [here]; rfl) (fun _ => told) (by rw [here]; rfl)
  | recvWoken c here told =>
    exact h.advance (by rw [here]; rfl) (by rw [here]; rfl) (fun _ => told) (by rw [here]; rfl)
  | yieldedAgain => exact h

theorem parked_of_reach {n : Nat} {s : State T} (h : (machine T n).Reach s) : Parked s :=
  h.invariant (parked_init n) fun _ _ _ inv _ e => inv.move (step_moves e)

/-! ## Wakeups in flight cover the queues -/

/-- The wakeups in flight suffice for what a queued peer could use: each
buffered value has a receiver under way while receivers queue, each free slot a
sender while senders queue, and on a rendezvous channel both queues are
non-empty only while some wakeup is under way. -/
structure Covered (n : Nat) (s : State T) : Prop where
  values : s.ch.receiverWaiters ≠ [] → s.ch.buffer.length ≤ s.receiversInFlight.length
  slots : 0 < n → s.ch.senderWaiters ≠ [] → n ≤ s.ch.buffer.length + s.sendersInFlight.length
  handover : n = 0 → s.ch.buffer.length ≤ s.receiversInFlight.length
  paired : n = 0 → s.ch.senderWaiters ≠ [] → s.ch.receiverWaiters ≠ [] →
    s.sendersInFlight ≠ [] ∨ s.receiversInFlight ≠ []

theorem covered_init (n : Nat) : Covered n (machine T n).init := by
  constructor <;> simp [machine]

theorem le_length_erase {α : Type*} [DecidableEq α] (l : List α) (a : α) : l.length ≤ (l.erase a).length + 1 := by
  rw [List.length_erase]
  split <;> omega

theorem cannotSend_full {ch : Channel T} (cannot : ch.canSend = false) (positive : 0 < ch.capacity) :
    ch.capacity ≤ ch.buffer.length := by
  simp only [canSend, Nat.pos_iff_ne_zero.1 positive, if_false, decide_eq_false_iff_not] at cannot
  omega

theorem cannotSend_zero {ch : Channel T} (cannot : ch.canSend = false) (zero : ch.capacity = 0) :
    ch.receiverWaiters = [] ∨ ch.buffer ≠ [] := by
  simp only [canSend, zero, if_true, Bool.and_eq_false_iff, Bool.not_eq_false', List.isEmpty_iff,
    List.isEmpty_eq_false_iff] at cannot
  exact cannot

theorem canSend_receiver {ch : Channel T} (can : ch.canSend = true) (zero : ch.capacity = 0) :
    ch.receiverWaiters ≠ [] := by
  simp only [canSend, zero, if_true, Bool.and_eq_true, Bool.not_eq_true', List.isEmpty_eq_false_iff] at can
  exact can.1

theorem Covered.move {n : Nat} {s s' : State T} (h : Covered n s) (capacity : s.ch.capacity = n) (parked : Parked s)
    (move : Moves s s') : Covered n s' := by
  obtain ⟨values, slots, handover, paired⟩ := h
  cases move with
  | sendRefused c arg waited here closed =>
    obtain ⟨noS, noR⟩ := parked.shut closed
    exact ⟨fun ne => absurd noR ne, fun _ ne => absurd noS ne, handover, fun _ ne => absurd noS ne⟩
  | sendKept c arg waited here opened can alone =>
    have room := le_length_erase s.sendersInFlight c
    have rendezvous : n ≠ 0 := fun zero => canSend_receiver can (capacity.trans zero) alone
    refine ⟨fun ne => absurd rfl ne, fun pos ne => ?_, fun zero => absurd zero rendezvous,
      fun zero => absurd zero rendezvous⟩
    have := slots pos ne
    simp only [List.length_append, List.length_singleton]
    omega
  | sendHanded c arg waited r rs here opened can waiting =>
    have room := le_length_erase s.sendersInFlight c
    have values := values (by simp [waiting])
    refine ⟨fun ne => ?_, fun pos ne => ?_, fun zero => ?_, fun zero _ _ => .inr (by simp)⟩
    · simp only [List.length_append, List.length_singleton]
      omega
    · have := slots pos ne
      simp only [List.length_append, List.length_singleton]
      omega
    · simp only [List.length_append, List.length_singleton]
      omega
  | sendQueued c arg waited here opened cannot =>
    refine ⟨values, fun pos _ => ?_, handover, fun zero _ ne => ?_⟩
    · have full := cannotSend_full cannot (capacity.symm ▸ pos)
      exact Nat.le_add_right_of_le (capacity ▸ full)
    · have full := (cannotSend_zero cannot (capacity.trans zero)).resolve_left ne
      have bound := handover zero
      have some : 0 < s.receiversInFlight.length := Nat.lt_of_lt_of_le (List.length_pos_iff.2 full) bound
      exact .inr (List.length_pos_iff.1 some)
  | recvTook c waited v rest here front alone =>
    have room := le_length_erase s.receiversInFlight c
    rw [front, List.length_cons] at values slots handover
    refine ⟨fun ne => ?_, fun _ ne => absurd rfl ne, fun zero => ?_, fun _ ne => absurd rfl ne⟩
    · have := values ne
      show rest.length ≤ (s.receiversInFlight.erase c).length
      omega
    · have := handover zero
      show rest.length ≤ (s.receiversInFlight.erase c).length
      omega
  | recvTookWaking c waited v rest w ws here front waiting =>
    have room := le_length_erase s.receiversInFlight c
    rw [front, List.length_cons] at values slots handover
    refine ⟨fun ne => ?_, fun pos ne => ?_, fun zero => ?_, fun _ _ _ => .inl (by simp)⟩
    · have := values ne
      show rest.length ≤ (s.receiversInFlight.erase c).length
      omega
    · have := slots pos (by simp [waiting])
      simp only [List.length_append, List.length_singleton]
      omega
    · have := handover zero
      show rest.length ≤ (s.receiversInFlight.erase c).length
      omega
  | recvRefused c waited here empty closed =>
    obtain ⟨noS, noR⟩ := parked.shut closed
    refine ⟨fun ne => absurd noR ne, fun _ ne => absurd noS ne, fun zero => ?_, fun _ ne => absurd noS ne⟩
    simp [empty]
  | recvQueued c waited here empty opened alone =>
    refine ⟨fun _ => by simp [empty], fun _ ne => absurd rfl ne, fun _ => by simp [empty], fun _ ne => absurd rfl ne⟩
  | recvQueuedWaking c waited w ws here empty opened waiting =>
    refine ⟨fun _ => by simp [empty], fun pos ne => ?_, fun _ => by simp [empty], fun _ _ _ => .inl (by simp)⟩
    have := slots pos (by simp [waiting])
    simp only [List.length_append, List.length_singleton]
    omega
  | closedFirst c here opened =>
    refine ⟨fun ne => absurd rfl ne, fun _ ne => absurd rfl ne, fun zero => ?_, fun _ ne => absurd rfl ne⟩
    have := handover zero
    simp only [List.length_append]
    omega
  | _ => exact ⟨values, slots, handover, paired⟩

theorem covered_of_reach {n : Nat} {s : State T} (h : (machine T n).Reach s) : Covered n s :=
  h.invariant_with (fun s => Ordered n s ∧ Parked s) (fun _ r => ⟨ordered_of_reach r, parked_of_reach r⟩)
    (covered_init n) fun _ _ _ known inv _ e _ => inv.move known.1.capacity known.2 (step_moves e)

/-! ## The contract -/

/-- Queued by its last locked section and not back in one since. -/
def Pc.suspended : Pc T → Bool
  | .sendWait _ | .recvWait | .recvNotify none _ => true
  | _ => false

/-- On a closed channel no call joins a waiter queue. -/
theorem closed_suspends_none {s s' : State T} (move : Moves s s') (closed : s.ch.closed = true) (c : CallId)
    (now : (s'.pc c).suspended = true) : (s.pc c).suspended = true := by
  have only : ∀ (d : CallId) (pc : Pc T), pc.suspended = false ∨ (s.pc d).suspended = true →
      (Function.update s.pc d pc c).suspended = true → (s.pc c).suspended = true := by
    intro d pc keep now
    by_cases e : c = d
    · subst e
      rw [Function.update_self] at now
      exact keep.resolve_left (by simp [now])
    · rwa [Function.update_of_ne e] at now
  cases move with
  | called d pc idle first =>
    rcases first with ⟨value, rvalue, rfl⟩ | rfl | rfl <;> exact only d _ (.inl rfl) now
  | sendKept _ _ _ _ opened | sendHanded _ _ _ _ _ _ opened | sendQueued _ _ _ _ opened
  | recvQueued _ _ _ _ opened | recvQueuedWaking _ _ _ _ _ _ opened =>
    rw [closed] at opened
    cases opened
  | notified d w pc leaving =>
    rcases leaving with ⟨arg, here, rfl⟩ | ⟨v, here, rfl⟩ | ⟨here, rfl⟩ | ⟨rest, here, rfl⟩
    · exact only d _ (.inl rfl) now
    · exact only d _ (.inl rfl) now
    · exact only d _ (.inr (by rw [here]; rfl)) now
    · exact only d _ (.inl rfl) now
  | yieldedAgain => exact now
  | _ => exact only _ _ (.inl rfl) now

/-- What holds of the waiters of a channel of capacity `n` in a state reached by
any interleaving of calls. -/
structure StrandsNone (n : Nat) (s : State T) : Prop where
  suspendedSend : ∀ c arg, s.pc c = .sendWait arg →
    s.ch.senderWaiters.count c = 1 ∧ c ∉ s.sendersInFlight ∨ c ∉ s.ch.senderWaiters ∧ c ∈ s.sendersInFlight
  suspendedRecv : ∀ c, (s.pc c = .recvWait ∨ ∃ w, s.pc c = .recvNotify none w) →
    s.ch.receiverWaiters.count c = 1 ∧ c ∉ s.receiversInFlight ∨ c ∉ s.ch.receiverWaiters ∧ c ∈ s.receiversInFlight
  told : ∀ c, c ∈ s.sendersInFlight ∨ c ∈ s.receiversInFlight → s.notified c = true ∨ ∃ d, c ∈ (s.pc d).toWake
  receivers : s.receiversInFlight = [] → s.ch.receiverWaiters = [] ∨ s.ch.buffer = []
  senders : 0 < n → s.sendersInFlight = [] → s.ch.senderWaiters ≠ [] → s.ch.buffer.length = n
  rendezvous : n = 0 → s.sendersInFlight = [] → s.receiversInFlight = [] →
    s.ch.buffer = [] ∧ (s.ch.senderWaiters = [] ∨ s.ch.receiverWaiters = [])
  shut : s.ch.closed = true → s.ch.senderWaiters = [] ∧ s.ch.receiverWaiters = [] ∧
    ∀ l s', step s l = some s' → ∀ c, (s'.pc c).suspended = true → (s.pc c).suspended = true

theorem queued_or_inFlight {c : CallId} {queue fly : List CallId} (sum : queue.count c + fly.count c = 1) :
    queue.count c = 1 ∧ c ∉ fly ∨ c ∉ queue ∧ c ∈ fly := by
  rw [← List.count_eq_zero, ← List.count_eq_zero, ← List.count_pos_iff]
  omega

/-- **No waiter is stranded**, for every capacity and every interleaving of any
number of calls. -/
theorem strands_no_waiter (n : Nat) {s : State T} (h : (machine T n).Reach s) : StrandsNone n s where
  suspendedSend c arg here := by
    have sum := (parked_of_reach h).senders c
    rw [here] at sum
    exact queued_or_inFlight sum
  suspendedRecv c here := by
    have sum := (parked_of_reach h).receivers c
    rcases here with here | ⟨w, here⟩ <;> rw [here] at sum <;> exact queued_or_inFlight sum
  told := (parked_of_reach h).told
  receivers none := by
    by_cases empty : s.ch.receiverWaiters = []
    · exact .inl empty
    · have bound := (covered_of_reach h).values empty
      rw [none, List.length_nil] at bound
      exact .inr (List.length_eq_zero_iff.1 (by omega))
  senders pos none ne := by
    have lower := (covered_of_reach h).slots pos ne
    have upper := (ordered_of_reach h).bound
    rw [none, List.length_nil] at lower
    omega
  rendezvous zero noS noR := by
    have bound := (covered_of_reach h).handover zero
    rw [noR, List.length_nil] at bound
    refine ⟨List.length_eq_zero_iff.1 (by omega), ?_⟩
    by_contra both
    rw [not_or] at both
    exact ((covered_of_reach h).paired zero both.1 both.2).elim (absurd noS) (absurd noR)
  shut closed := by
    obtain ⟨noS, noR⟩ := (parked_of_reach h).shut closed
    exact ⟨noS, noR, fun _ _ e c => closed_suspends_none (step_moves e) closed c⟩

/-- Two senders block on a full channel; one receive frees a slot and wakes the
first of them, the other stays queued. -/
def backlog : List (Label Nat) :=
  [.send 0 1 false, .enter 0, .send 1 2 false, .enter 1, .send 2 3 false, .enter 2,
   .recv 3, .enter 3, .notify 3]

theorem strands_no_waiter_backlog :
    ∃ s, (machine Nat 1).exec (machine Nat 1).init backlog = some s ∧
      s.ch.senderWaiters = [2] ∧ s.sendersInFlight = [1] ∧ StrandsNone 1 s :=
  ⟨_, rfl, rfl, rfl, strands_no_waiter 1
    (Machine.reach_of_exec (rfl : (machine Nat 1).exec (machine Nat 1).init backlog = some _))⟩

end Mycoroutine.Channel
