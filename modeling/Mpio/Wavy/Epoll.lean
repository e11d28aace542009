import Mpio.Lib.Run
import Mpio.Wavy.Kqueue
import Mpio.Wavy.Loop.Model

/-!
# The epoll kernel, and the kqueue kernel beside it

`wavy_kernel_epoll.h`. The interest list of epoll keeps with each descriptor the events asked for, a word
of the caller, and whether the entry is enabled. `kernel` stores the descriptor and the events in the
word, so that `reactivate` finds both in the event it is given. An entry is one-shot because its events
have `EPOLLONESHOT`: once reported it is disabled, and stays in the list until it is modified or deleted.

The two kernels get the same calls here (`Pair`). They differ in what is left of an entry that was
reported: epoll keeps it disabled, kqueue forgets it. So `EPOLL_CTL_ADD` of it fails where `EV_ADD` arms
it, `EPOLL_CTL_MOD` of a deleted one fails where `EV_ADD` brings it back, and `kernel::remove` deletes an
entry of epoll and does nothing with kqueue. `kernels_agree_iff` says that the calls that come upon
one of these are those after which the kernels no longer report the same descriptors.

`Wavy.Loop` knows of the interest list only which descriptors are in it and which of them are armed.
`interest_refined` says that the functions of `kernel` keep this for it.
-/

namespace Mpio.Wavy.Epoll

open Lib Kqueue

/-! ## The word of an event -/

/-- `EPOLLIN`, `EPOLLOUT` and `EPOLLONESHOT`. -/
def EPOLLIN : BitVec 32 := 0x1#32

def EPOLLOUT : BitVec 32 := 0x4#32

def EPOLLONESHOT : BitVec 32 := 0x40000000#32

/-- `ev.data.u64` in `add_fd`. -/
def dataOf (fd : ℕ) (events : BitVec 32) : BitVec 64 := BitVec.ofNat 64 fd ||| events.setWidth 64 <<< 32

/-- `event::ident`, an `int`. -/
def identOf (data : BitVec 64) : ℤ := ((data &&& 0xffffffff#64).toNat : ℤ).bmod (2 ^ 32)

/-- `event::events`. -/
def eventsOf (data : BitVec 64) : BitVec 32 := (data >>> 32).setWidth 32

theorem toNat_dataOf {fd : ℕ} (h : fd < 2 ^ 31) (events : BitVec 32) :
    (dataOf fd events).toNat = events.toNat * 2 ^ 32 + fd := by
  have hev : events.toNat < 2 ^ 32 := events.isLt
  have hshift : events.toNat <<< 32 < 2 ^ 64 := by
    rw [Nat.shiftLeft_eq]
    omega
  rw [dataOf, BitVec.toNat_or, BitVec.toNat_ofNat, BitVec.toNat_shiftLeft, BitVec.toNat_setWidth,
    Nat.mod_eq_of_lt (show fd < 2 ^ 64 by omega), Nat.mod_eq_of_lt (show events.toNat < 2 ^ 64 by omega),
    Nat.mod_eq_of_lt hshift, Nat.or_comm, ← Nat.shiftLeft_add_eq_or_of_lt (show fd < 2 ^ 32 by omega),
    Nat.shiftLeft_eq]

theorem eventsOf_dataOf {fd : ℕ} (h : fd < 2 ^ 31) (events : BitVec 32) :
    eventsOf (dataOf fd events) = events := by
  apply BitVec.eq_of_toNat_eq
  have hev : events.toNat < 2 ^ 32 := events.isLt
  rw [eventsOf, BitVec.toNat_setWidth, BitVec.toNat_ushiftRight, toNat_dataOf h, Nat.shiftRight_eq_div_pow]
  omega

theorem mask_toNat (x : BitVec 64) : (x &&& 0xffffffff#64).toNat = x.toNat % 2 ^ 32 := by
  rw [BitVec.toNat_and]
  exact Nat.and_two_pow_sub_one_eq_mod x.toNat 32

theorem bmod_small {n : ℕ} (h : n < 2 ^ 31) : (n : ℤ).bmod (2 ^ 32) = n := by
  apply Int.bmod_eq_of_le_mul_two <;> push_cast <;> omega

theorem identOf_dataOf {fd : ℕ} (h : fd < 2 ^ 31) (events : BitVec 32) :
    identOf (dataOf fd events) = fd := by
  have hlow : (dataOf fd events &&& 0xffffffff#64).toNat = fd := by
    rw [mask_toNat, toNat_dataOf h]
    omega
  unfold identOf
  rw [hlow, bmod_small h]

/-! ## The kernel -/

/-- An entry of the interest list. -/
structure Item where
  events : BitVec 32
  data : BitVec 64
  enabled : Bool
  deriving DecidableEq

abbrev Table := ℤ → Option Item

namespace Table

/-- `EPOLL_CTL_ADD`; it fails when the descriptor is in the list. -/
def ctlAdd (t : Table) (fd : ℤ) (events : BitVec 32) (data : BitVec 64) : Table :=
  match t fd with
  | some _ => t
  | none => Function.update t fd (some ⟨events, data, true⟩)

/-- `EPOLL_CTL_MOD`; it fails when the descriptor is not in the list. -/
def ctlMod (t : Table) (fd : ℤ) (events : BitVec 32) (data : BitVec 64) : Table :=
  match t fd with
  | some _ => Function.update t fd (some ⟨events, data, true⟩)
  | none => t

/-- `EPOLL_CTL_DEL`, and what `close` does. -/
def ctlDel (t : Table) (fd : ℤ) : Table := Function.update t fd none

def addFd (t : Table) (fd : ℕ) (event : BitVec 32) : Table :=
  let events := event ||| EPOLLONESHOT
  t.ctlAdd fd events (dataOf fd events)

def removeFd (t : Table) (fd : ℕ) : Table := t.ctlDel fd

def reactivate (t : Table) (e : BitVec 64) : Table := t.ctlMod (identOf e) (eventsOf e) e

def remove (t : Table) (e : BitVec 64) : Table := t.ctlDel (identOf e)

/-- `epoll_wait` reports the descriptors `fds`: an entry with `EPOLLONESHOT` is disabled. -/
def report (t : Table) (fds : List ℕ) : Table := fun i =>
  (t i).map fun item =>
    if (∃ fd ∈ fds, (fd : ℤ) = i) ∧ item.events &&& EPOLLONESHOT ≠ 0#32 then { item with enabled := false }
    else item

def enabled (t : Table) (i : ℤ) : Bool := (t i).any (·.enabled)

end Table

/-! ## The same calls to both kernels -/

/-- `EVKERNEL_READ` and `EVKERNEL_WRITE` of the two headers, as far as they are asked for. -/
def maskOf : Filter → BitVec 32
  | .write => EPOLLOUT
  | .read | .timer | .signal => EPOLLIN

/-- `MP_WAVY_KERNEL_BACKLOG_SIZE`. -/
def BACKLOG_SIZE : ℕ := 1024

/-- An event of epoll, and the one of kqueue that was reported with it. -/
abbrev Twin := BitVec 64 × Kqueue.Event

structure Pair where
  epoll : Table
  kqueue : Kqueue.State
  events : List Twin

/-- `wait` returns; `close` is the one of the system. -/
inductive Call
  | addFd (fd : ℕ)
  | wait (fds : List ℕ)
  | reactivate (e : Twin)
  | remove (e : Twin)
  | removeFd (fd : ℕ)
  | close (fd : ℕ)

namespace Pair

/-- The event that each kernel reports for `fd`. -/
def eventOf (p : Pair) (ev : Filter) (fd : ℕ) : Twin :=
  (((p.epoll fd).map Item.data).getD 0#64, ⟨fd, ev, (p.kqueue.filters (fd, ev)).getD ⟨0, 0, 0⟩⟩)

/-- Both kernels have `fd` ready to be reported. -/
def Ready (p : Pair) (ev : Filter) (fd : ℕ) : Prop :=
  p.epoll.enabled fd = true ∧ (p.kqueue.filters (fd, ev)).isSome = true

instance (p : Pair) (ev : Filter) (fd : ℕ) : Decidable (p.Ready ev fd) :=
  inferInstanceAs (Decidable (_ ∧ _))

end Pair

/-- One call, on kernels that are asked for `ev`. `kernel::remove` of the kqueue kernel does nothing. -/
def step (ev : Filter) (p : Pair) : Call → Option Pair
  | .addFd fd =>
    if fd < 2 ^ 31 then
      some ⟨p.epoll.addFd fd (maskOf ev), p.kqueue.add fd ev ⟨0, 0, 0⟩ true, p.events⟩
    else none
  | .wait fds =>
    if fds.Nodup ∧ fds.length ≤ BACKLOG_SIZE ∧ ∀ fd ∈ fds, p.Ready ev fd then
      some ⟨p.epoll.report fds, fds.foldl (fun k fd => k.delete fd ev) p.kqueue,
        fds.map (p.eventOf ev) ++ p.events⟩
    else none
  | .reactivate e =>
    if e ∈ p.events then some ⟨p.epoll.reactivate e.1, p.kqueue.reactivate e.2 true, p.events⟩ else none
  | .remove e => if e ∈ p.events then some ⟨p.epoll.remove e.1, p.kqueue, p.events⟩ else none
  | .removeFd fd => some ⟨p.epoll.removeFd fd, p.kqueue.delete fd ev, p.events⟩
  | .close fd => some ⟨p.epoll.ctlDel fd, p.kqueue.delete fd ev, p.events⟩

def pairSystem (ev : Filter) : System Pair Call where
  init p := p = ⟨fun _ => none, ⟨fun _ => none, ∅, fun _ => none, 0, []⟩, []⟩
  step := step ev

/-- The kernels can report the same descriptors. -/
def Agree (ev : Filter) (p : Pair) : Prop :=
  ∀ fd : ℕ, p.epoll.enabled fd = (p.kqueue.filters (fd, ev)).isSome

/-- What is added is not a reported entry, what is reactivated is in the list, and what is removed by its
event is not armed. -/
def Careful (p : Pair) : Call → Prop
  | .addFd fd => ∀ item ∈ p.epoll fd, item.enabled = true
  | .reactivate e => (p.epoll (identOf e.1)).isSome = true
  | .remove e => p.epoll.enabled (identOf e.1) = false
  | .wait _ | .removeFd _ | .close _ => True

instance (p : Pair) : (c : Call) → Decidable (Careful p c)
  | .addFd fd => inferInstanceAs (Decidable (∀ item ∈ p.epoll fd, item.enabled = true))
  | .reactivate e => inferInstanceAs (Decidable ((p.epoll (identOf e.1)).isSome = true))
  | .remove e => inferInstanceAs (Decidable (p.epoll.enabled (identOf e.1) = false))
  | .wait _ | .removeFd _ | .close _ => inferInstanceAs (Decidable True)

/-! ## What can be reported afterwards -/

section

variable {t : Table} {ev : Filter} {p p' : Pair} {c : Call}

theorem enabled_ctlAdd (t : Table) (fd i : ℤ) (events : BitVec 32) (data : BitVec 64) :
    (t.ctlAdd fd events data).enabled i = if i = fd ∧ t fd = none then true else t.enabled i := by
  unfold Table.ctlAdd Table.enabled
  cases hfd : t fd with
  | some item => simp
  | none =>
    by_cases heq : i = fd
    · simp [heq]
    · simp [heq]

theorem enabled_ctlMod (t : Table) (fd i : ℤ) (events : BitVec 32) (data : BitVec 64) :
    (t.ctlMod fd events data).enabled i = if i = fd ∧ (t fd).isSome then true else t.enabled i := by
  unfold Table.ctlMod Table.enabled
  cases hfd : t fd with
  | none => simp
  | some item =>
    by_cases heq : i = fd
    · simp [heq]
    · simp [heq]

theorem enabled_ctlDel (t : Table) (fd i : ℤ) :
    (t.ctlDel fd).enabled i = if i = fd then false else t.enabled i := by
  unfold Table.ctlDel Table.enabled
  by_cases heq : i = fd
  · simp [heq]
  · simp [heq]

theorem enabled_report {fds : List ℕ} {fd : ℕ}
    (hone : ∀ item ∈ t fd, item.events &&& EPOLLONESHOT ≠ 0#32) :
    (t.report fds).enabled fd = if fd ∈ fds then false else t.enabled fd := by
  unfold Table.report Table.enabled
  cases hfd : t fd with
  | none => simp [hfd]
  | some item =>
    have hitem := hone item hfd
    by_cases hmem : fd ∈ fds
    · simp [hfd, hmem, hitem]
    · simp [hfd, hmem]

theorem filters_add (k : Kqueue.State) (fd i : ℕ) (ev : Filter) (note : Knote) :
    ((k.add fd ev note true).filters (i, ev)).isSome =
      if i = fd then true else (k.filters (i, ev)).isSome := by
  unfold Kqueue.State.add
  by_cases heq : i = fd
  · simp [heq]
  · simp [heq, Function.update_of_ne]

theorem filters_delete (k : Kqueue.State) (fd i : ℕ) (ev : Filter) :
    ((k.delete fd ev).filters (i, ev)).isSome = if i = fd then false else (k.filters (i, ev)).isSome := by
  unfold Kqueue.State.delete
  by_cases heq : i = fd
  · simp [heq]
  · simp [heq, Function.update_of_ne]

theorem filters_delivered (fds : List ℕ) (k : Kqueue.State) (i : ℕ) (ev : Filter) :
    ((fds.foldl (fun k fd => k.delete fd ev) k).filters (i, ev)).isSome =
      if i ∈ fds then false else (k.filters (i, ev)).isSome := by
  induction fds generalizing k with
  | nil => simp
  | cons fd fds ih =>
    rw [List.foldl_cons, ih, filters_delete]
    by_cases hmem : i ∈ fds <;> by_cases heq : i = fd <;> simp [hmem, heq]

theorem reactivate_dataOf {fd : ℕ} (h : fd < 2 ^ 31) (t : Table) (events : BitVec 32) :
    t.reactivate (dataOf fd events) = t.ctlMod fd events (dataOf fd events) := by
  rw [Table.reactivate, identOf_dataOf h, eventsOf_dataOf h]

theorem remove_dataOf {fd : ℕ} (h : fd < 2 ^ 31) (t : Table) (events : BitVec 32) :
    t.remove (dataOf fd events) = t.ctlDel fd := by
  rw [Table.remove, identOf_dataOf h]

/-- What the kernels have been told: an entry of epoll and an event know their descriptor and the events
asked for. -/
structure Inv (ev : Filter) (p : Pair) : Prop where
  items : ∀ i, ∀ item ∈ p.epoll i, ∃ fd < 2 ^ 31, i = (fd : ℕ) ∧
    item.events = maskOf ev ||| EPOLLONESHOT ∧ item.data = dataOf fd (maskOf ev ||| EPOLLONESHOT)
  events : ∀ e ∈ p.events, ∃ fd < 2 ^ 31, ∃ note,
    e = (dataOf fd (maskOf ev ||| EPOLLONESHOT), ⟨fd, ev, note⟩)
  agree : Agree ev p

theorem oneshot (ev : Filter) : (maskOf ev ||| EPOLLONESHOT) &&& EPOLLONESHOT ≠ 0#32 := by
  cases ev <;> decide

theorem reactivate_eq (hev : ev = .read ∨ ev = .write) (k : Kqueue.State) (fd : ℕ) (note : Knote) :
    k.reactivate ⟨fd, ev, note⟩ true = k.add fd ev ⟨0, 0, 0⟩ true := by
  obtain rfl | rfl := hev <;> rfl

theorem agree_iff_at (h : Agree ev p) (fd : ℕ) (x y : Bool)
    (he : ∀ i : ℕ, p'.epoll.enabled i = if i = fd then x else p.epoll.enabled i)
    (hk : ∀ i, (p'.kqueue.filters (i, ev)).isSome =
      if i = fd then y else (p.kqueue.filters (i, ev)).isSome) : Agree ev p' ↔ x = y := by
  constructor
  · intro hagree
    have := hagree fd
    rwa [he, hk, if_pos rfl, if_pos rfl] at this
  · rintro rfl i
    rw [he, hk, h i]

theorem agree_deleted (h : Agree ev p) (fd : ℕ) :
    Agree ev ⟨p.epoll.ctlDel fd, p.kqueue.delete fd ev, p.events⟩ := by
  refine (agree_iff_at h fd false false (fun i => ?_) fun i => ?_).mpr rfl
  · show (p.epoll.ctlDel fd).enabled i = _
    rw [enabled_ctlDel]
    simp
  · exact filters_delete p.kqueue fd i ev

/-- After a call the kernels agree as before exactly if it was careful. -/
theorem agree_iff_careful (hev : ev = .read ∨ ev = .write) (h : Inv ev p) (hs : step ev p c = some p') :
    Agree ev p' ↔ Careful p c := by
  cases c with
  | addFd fd =>
    simp only [step, Option.ite_none_right_eq_some, Option.some.injEq] at hs
    obtain ⟨-, rfl⟩ := hs
    rw [agree_iff_at h.agree fd (if p.epoll fd = none then true else p.epoll.enabled fd) true]
    · cases hitem : p.epoll fd <;> simp [Careful, Table.enabled, hitem]
    · intro i
      show (p.epoll.addFd fd _).enabled i = _
      rw [Table.addFd, enabled_ctlAdd]
      by_cases heq : i = fd
      · simp [heq]
      · simp [heq]
    · exact fun i => filters_add ..
  | wait fds =>
    simp only [step, Option.ite_none_right_eq_some, Option.some.injEq] at hs
    obtain ⟨-, rfl⟩ := hs
    refine iff_of_true (fun i => ?_) trivial
    show (p.epoll.report fds).enabled i = _
    have hone : ∀ item ∈ p.epoll i, item.events &&& EPOLLONESHOT ≠ 0#32 := fun item hitem => by
      obtain ⟨fd, -, -, hevents, -⟩ := h.items i item hitem
      rw [hevents]
      exact oneshot ev
    rw [enabled_report hone, filters_delivered, h.agree i]
  | reactivate e =>
    simp only [step, Option.ite_none_right_eq_some, Option.some.injEq] at hs
    obtain ⟨he, rfl⟩ := hs
    obtain ⟨fd, hfd, note, rfl⟩ := h.events e he
    have hident := identOf_dataOf hfd (maskOf ev ||| EPOLLONESHOT)
    rw [agree_iff_at h.agree fd (if (p.epoll fd).isSome then true else p.epoll.enabled fd) true]
    · simp only [Careful]
      rw [hident]
      cases hitem : p.epoll fd <;> simp [Table.enabled, hitem]
    · intro i
      simp only [reactivate_dataOf hfd]
      rw [enabled_ctlMod]
      by_cases heq : i = fd
      · simp [heq]
      · simp [heq]
    · intro i
      show ((p.kqueue.reactivate _ true).filters _).isSome = _
      rw [reactivate_eq hev]
      exact filters_add ..
  | remove e =>
    simp only [step, Option.ite_none_right_eq_some, Option.some.injEq] at hs
    obtain ⟨he, rfl⟩ := hs
    obtain ⟨fd, hfd, note, rfl⟩ := h.events e he
    have hident := identOf_dataOf hfd (maskOf ev ||| EPOLLONESHOT)
    rw [agree_iff_at h.agree fd false (p.epoll.enabled fd)]
    · simp only [Careful]
      rw [hident]
      exact eq_comm
    · intro i
      simp only [remove_dataOf hfd]
      rw [enabled_ctlDel]
      simp
    · intro i
      by_cases heq : i = fd
      · rw [if_pos heq, heq]
        exact (h.agree fd).symm
      · rw [if_neg heq]
  | removeFd fd | close fd =>
    simp only [step, Option.some.injEq] at hs
    subst hs
    exact iff_of_true (agree_deleted h.agree fd) trivial

theorem items_addFd {fd : ℕ} (hfd : fd < 2 ^ 31) (h : Inv ev p) (i : ℤ) (item : Item)
    (hitem : item ∈ p.epoll.addFd fd (maskOf ev) i) : ∃ fd < 2 ^ 31, i = (fd : ℕ) ∧
      item.events = maskOf ev ||| EPOLLONESHOT ∧ item.data = dataOf fd (maskOf ev ||| EPOLLONESHOT) := by
  unfold Table.addFd Table.ctlAdd at hitem
  cases hold : p.epoll fd with
  | some old =>
    simp only [hold] at hitem
    exact h.items i item hitem
  | none =>
    simp only [hold] at hitem
    by_cases heq : i = fd
    · rw [heq, Function.update_self] at hitem
      obtain rfl := Option.some.inj hitem
      exact ⟨fd, hfd, heq, rfl, rfl⟩
    · rw [Function.update_of_ne heq] at hitem
      exact h.items i item hitem

theorem mem_ctlDel {fd i : ℤ} {item : Item} (hitem : item ∈ t.ctlDel fd i) : item ∈ t i := by
  unfold Table.ctlDel at hitem
  by_cases heq : i = fd
  · rw [heq, Function.update_self] at hitem
    cases hitem
  · rwa [Function.update_of_ne heq] at hitem

theorem Inv.step (hev : ev = .read ∨ ev = .write) (h : Inv ev p) (hc : Careful p c)
    (hs : step ev p c = some p') : Inv ev p' := by
  have hagree := (agree_iff_careful hev h hs).mpr hc
  cases c with
  | addFd fd =>
    simp only [Epoll.step, Option.ite_none_right_eq_some, Option.some.injEq] at hs
    obtain ⟨hfd, rfl⟩ := hs
    exact ⟨items_addFd hfd h, h.events, hagree⟩
  | wait fds =>
    simp only [Epoll.step, Option.ite_none_right_eq_some, Option.some.injEq] at hs
    obtain ⟨⟨-, -, hready⟩, rfl⟩ := hs
    refine ⟨fun i item hitem => ?_, fun e he => ?_, hagree⟩
    · obtain ⟨old, hold, rfl⟩ := Option.map_eq_some_iff.mp hitem
      obtain ⟨fd, hfd, hi, hevents, hdata⟩ := h.items i old hold
      refine ⟨fd, hfd, hi, ?_, ?_⟩ <;> split_ifs <;> assumption
    · obtain he | he := List.mem_append.mp he
      · obtain ⟨fd, hmem, rfl⟩ := List.mem_map.mp he
        cases hitem : p.epoll fd with
        | none =>
          have henabled := (hready fd hmem).1
          simp only [Table.enabled, hitem] at henabled
          cases henabled
        | some item =>
          obtain ⟨fd', hfd', heq, -, hdata⟩ := h.items fd item hitem
          obtain rfl : fd = fd' := Int.ofNat.inj heq
          exact ⟨fd, hfd', _, by rw [Pair.eventOf, hitem]; exact Prod.ext hdata rfl⟩
      · exact h.events e he
  | reactivate e =>
    simp only [Epoll.step, Option.ite_none_right_eq_some, Option.some.injEq] at hs
    obtain ⟨he, rfl⟩ := hs
    obtain ⟨fd, hfd, note, rfl⟩ := h.events e he
    refine ⟨fun i item hitem => ?_, h.events, hagree⟩
    simp only [reactivate_dataOf hfd] at hitem
    unfold Table.ctlMod at hitem
    cases hold : p.epoll fd with
    | none =>
      simp only [hold] at hitem
      exact h.items i item hitem
    | some old =>
      simp only [hold] at hitem
      by_cases heq : i = fd
      · rw [heq, Function.update_self] at hitem
        obtain rfl := Option.some.inj hitem
        exact ⟨fd, hfd, heq, rfl, rfl⟩
      · rw [Function.update_of_ne heq] at hitem
        exact h.items i item hitem
  | remove e =>
    simp only [Epoll.step, Option.ite_none_right_eq_some, Option.some.injEq] at hs
    obtain ⟨he, rfl⟩ := hs
    obtain ⟨fd, hfd, note, rfl⟩ := h.events e he
    refine ⟨fun i item hitem => ?_, h.events, hagree⟩
    simp only [remove_dataOf hfd] at hitem
    exact h.items i item (mem_ctlDel hitem)
  | removeFd fd | close fd =>
    simp only [Epoll.step, Option.some.injEq] at hs
    subst hs
    exact ⟨fun i item hitem => h.items i item (mem_ctlDel hitem), h.events, hagree⟩

/-- The two kernels, asked for the same things. As long as every call is careful they can report the same
descriptors, and an event of epoll has the descriptor of the event that kqueue reports with it and the
events that were asked for, `EPOLLONESHOT` among them. A call that is not careful is one after which they
cannot report the same descriptors. -/
theorem kernels_agree_iff (hev : ev = .read ∨ ev = .write) (h : (pairSystem ev).Reachable Careful p) :
    Agree ev p ∧
    (∀ e ∈ p.events, identOf e.1 = e.2.ident ∧ eventsOf e.1 = maskOf ev ||| EPOLLONESHOT) ∧
    ∀ c p', step ev p c = some p' → (Agree ev p' ↔ Careful p c) := by
  have hi : Inv ev p := by
    refine h.invariant ?_ fun _ _ _ _ hi hc hs => hi.step hev hc hs
    rintro _ rfl
    exact ⟨(fun _ _ h => by cases h), (fun _ h => by cases h), fun fd => rfl⟩
  refine ⟨hi.agree, fun e he => ?_, fun c p' hs => agree_iff_careful hev hi hs⟩
  obtain ⟨fd, hfd, note, rfl⟩ := hi.events e he
  refine ⟨?_, eventsOf_dataOf hfd _⟩
  have hident : Kqueue.Event.ident ⟨fd, ev, note⟩ = fd := by
    obtain rfl | rfl := hev <;> rfl
  rw [hident, identOf_dataOf hfd]

end

/-- What the kernels report for descriptor 5. -/
def twin5 : Twin := (dataOf 5 (EPOLLIN ||| EPOLLONESHOT), ⟨5, .read, ⟨0, 0, 0⟩⟩)

/-- `loop::remove_handler` is called while a worker is in the handler of descriptor 5; when the handler
returns, `reactivate` brings the descriptor back in kqueue only. -/
theorem kernels_agree_iff_removed : ∃ p p', (pairSystem .read).Reachable Careful p ∧ Agree .read p ∧
    step .read p (.reactivate twin5) = some p' ∧ ¬ Agree .read p' := by
  obtain ⟨p, hp, hq⟩ := System.exists_reachable_of_exec (S := pairSystem .read) (P := Careful)
    (s := ⟨fun _ => none, ⟨fun _ => none, ∅, fun _ => none, 0, []⟩, []⟩)
    [.addFd 5, .wait [5], .removeFd 5]
    (fun p => decide (twin5 ∈ p.events) && !decide (Careful p (.reactivate twin5))) rfl (by decide +kernel)
  simp only [Bool.and_eq_true, decide_eq_true_eq, Bool.not_eq_true', decide_eq_false_iff_not] at hq
  have hall := kernels_agree_iff (.inl rfl) hp
  have hstep : step .read p (.reactivate twin5) = some
      ⟨p.epoll.reactivate twin5.1, p.kqueue.reactivate twin5.2 true, p.events⟩ := by
    simp only [step]
    rw [if_pos hq.1]
  exact ⟨p, _, hp, hall.1, hstep, fun hagree => hq.2 ((hall.2.2 _ _ hstep).mp hagree)⟩

/-! ## The interest set of the loop -/

/-- A call of the loop to its kernel. `addFd` is for the handler `h`, and the events are words. -/
inductive LoopCall
  | addFd (fd h : ℕ)
  | removeFd (fd : ℕ)
  | reactivate (e : BitVec 64)
  | remove (e : BitVec 64)
  | report (fds : List ℕ)
  | close (fd : ℕ)

/-- The word of the events that are reported for `fd`. -/
def wordOf (fd : ℕ) : BitVec 64 := dataOf fd (EPOLLIN ||| EPOLLONESHOT)

/-- The kernel of a new loop, to which `add_kernel` has added the one of `out`. -/
def Table.new : Table := Table.addFd (fun _ => none) Loop.outIdent EPOLLIN

/-- The loop and its kernel. `words` are those of the events reported so far. -/
structure Driven where
  loop : Loop.State
  table : Table
  words : List (BitVec 64)

/-- What `epoll_wait` copies out for an entry it reports. -/
def Table.word (t : Table) (fd : ℕ) : BitVec 64 := ((t fd).map Item.data).getD 0#64

/-- The loop has only the words that were reported to it, and knows a descriptor by `event::ident`. -/
def Driven.step (d : Driven) : LoopCall → Option Driven
  | .addFd fd h =>
    if fd < 2 ^ 31 then some ⟨Loop.addFd d.loop fd h, d.table.addFd fd EPOLLIN, d.words⟩ else none
  | .removeFd fd => some ⟨Loop.removeFd d.loop fd, d.table.removeFd fd, d.words⟩
  | .reactivate e =>
    if e ∈ d.words then
      some ⟨Loop.reactivate d.loop (identOf e).toNat, d.table.reactivate e, d.words⟩
    else none
  | .remove e =>
    if e ∈ d.words then some ⟨Loop.removeFd d.loop (identOf e).toNat, d.table.remove e, d.words⟩
    else none
  | .report fds =>
    if ∀ fd ∈ fds, d.table.enabled fd = true then
      some ⟨d.loop.report fds, d.table.report fds, d.words ++ fds.map d.table.word⟩
    else none
  | .close fd => some ⟨Loop.close d.loop fd, d.table.ctlDel fd, d.words⟩

def drivenSystem (kinds : ℕ → Loop.Kind) : System Driven LoopCall where
  init d := d = ⟨.init kinds, .new, []⟩
  step := Driven.step

/-- What `add_fd` stores for a descriptor. -/
structure Item.Of (item : Item) (fd : ℕ) : Prop where
  lt : fd < 2 ^ 31
  data : item.data = wordOf fd
  oneshot : item.events &&& EPOLLONESHOT ≠ 0#32

theorem Item.of_mask {fd : ℕ} (h : fd < 2 ^ 31) (enabled : Bool) :
    (Item.mk (EPOLLIN ||| EPOLLONESHOT) (wordOf fd) enabled).Of fd := ⟨h, rfl, oneshot .read⟩

/-- The descriptors in the list, and which of them are armed, are those of the loop. Each entry is
one-shot and has its own descriptor in its word. -/
structure Refines (s : Loop.State) (t : Table) : Prop where
  armed : ∀ fd : ℕ, (t fd).map Item.enabled = (s.interest fd).map Loop.Reg.armed
  own : ∀ (fd : ℕ), ∀ item ∈ t fd, item.Of fd

section

variable {s s' : Loop.State} {t : Table} {d d' : Driven} {kinds : ℕ → Loop.Kind}

/-- A call that puts `item` under `fd` in the list, and `reg` in the interest set. -/
theorem Refines.update (h : Refines s t) (fd : ℕ) (item : Option Item) (reg : Option Loop.Reg)
    (hs : s'.interest = Function.update s.interest fd reg)
    (harmed : item.map Item.enabled = reg.map Loop.Reg.armed) (hown : ∀ i ∈ item, i.Of fd) :
    Refines s' (Function.update t fd item) := by
  constructor
  · intro i
    rw [hs]
    by_cases heq : i = fd
    · simpa [heq] using harmed
    · rw [Function.update_of_ne heq, Function.update_of_ne (by exact_mod_cast heq)]
      exact h.armed i
  · intro i j hj
    by_cases heq : i = fd
    · rw [heq, Function.update_self] at hj
      exact heq ▸ hown j hj
    · rw [Function.update_of_ne (by exact_mod_cast heq)] at hj
      exact h.own i j hj

theorem Refines.same (h : Refines s t) (fd : ℕ)
    (hs : s'.interest = Function.update s.interest fd (s.interest fd)) : Refines s' t := by
  have hself := h.update fd (t fd) (s.interest fd) hs (h.armed fd) (h.own fd)
  rwa [Function.update_eq_self] at hself

theorem Refines.interest_none (h : Refines s t) {fd : ℕ} (hitem : t fd = none) : s.interest fd = none := by
  simpa [hitem] using (h.armed fd).symm

theorem Refines.interest_some (h : Refines s t) {fd : ℕ} {item : Item} (hitem : t fd = some item) :
    ∃ reg, s.interest fd = some reg ∧ reg.armed = item.enabled := by
  have harmed := h.armed fd
  rw [hitem] at harmed
  exact Option.map_eq_some_iff.mp harmed.symm

theorem Refines.addFd (h : Refines s t) {fd : ℕ} (hfd : fd < 2 ^ 31) (owner : ℕ) :
    Refines (Loop.addFd s fd owner) (t.addFd fd EPOLLIN) := by
  cases hitem : t fd with
  | none =>
    have hreg := h.interest_none hitem
    have htable : t.addFd fd EPOLLIN = Function.update t fd (some
        ⟨EPOLLIN ||| EPOLLONESHOT, wordOf fd, true⟩) := by
      simp [Table.addFd, Table.ctlAdd, hitem, wordOf]
    rw [htable]
    refine h.update fd _ (some ⟨true, owner⟩) (by simp [Loop.addFd, hreg]) rfl fun i hi => ?_
    exact Option.some.inj hi ▸ Item.of_mask hfd true
  | some item =>
    obtain ⟨reg, hreg, -⟩ := h.interest_some hitem
    have htable : t.addFd fd EPOLLIN = t := by simp [Table.addFd, Table.ctlAdd, hitem]
    rw [htable]
    exact h.same fd (by simp [Loop.addFd, hreg])

theorem Refines.deleted (h : Refines s t) (fd : ℕ) (hs : s'.interest = Function.update s.interest fd none) :
    Refines s' (t.ctlDel fd) :=
  h.update fd none none hs rfl fun _ hi => by cases hi

theorem Refines.reactivate (h : Refines s t) {fd : ℕ} (hfd : fd < 2 ^ 31) :
    Refines (Loop.reactivate s fd) (t.reactivate (wordOf fd)) := by
  have htable : t.reactivate (wordOf fd) = t.ctlMod fd (EPOLLIN ||| EPOLLONESHOT) (wordOf fd) :=
    reactivate_dataOf hfd t _
  rw [htable]
  cases hitem : t fd with
  | none =>
    simp only [Table.ctlMod, hitem]
    exact h.same fd (by simp [Loop.reactivate, h.interest_none hitem])
  | some item =>
    obtain ⟨reg, hreg, -⟩ := h.interest_some hitem
    simp only [Table.ctlMod, hitem]
    refine h.update fd _ (some ⟨true, reg.owner⟩) (by simp [Loop.reactivate, hreg]) rfl fun i hi => ?_
    exact Option.some.inj hi ▸ Item.of_mask hfd true

theorem Refines.report (h : Refines s t) (fds : List ℕ) : Refines (s.report fds) (t.report fds) := by
  constructor
  · intro fd
    show ((t fd).map _).map _ = (if fd ∈ fds then _ else _ : Option Loop.Reg).map _
    cases hitem : t fd with
    | none => simp [h.interest_none hitem]
    | some item =>
      obtain ⟨reg, hreg, heq⟩ := h.interest_some hitem
      have hone := (h.own fd item hitem).oneshot
      by_cases hmem : fd ∈ fds
      · simp [hreg, hmem, hone]
      · simp [hreg, hmem, heq]
  · intro fd item hi
    obtain ⟨old, hold, rfl⟩ := Option.map_eq_some_iff.mp hi
    obtain ⟨hlt, hdata, hone⟩ := h.own fd old hold
    split_ifs <;> exact ⟨hlt, hdata, hone⟩

theorem Refines.word (h : Refines s t) {fd : ℕ} (hen : t.enabled fd = true) :
    fd < 2 ^ 31 ∧ t.word fd = wordOf fd := by
  cases hitem : t fd with
  | none => simp [Table.enabled, hitem] at hen
  | some item =>
    obtain ⟨hlt, hdata, -⟩ := h.own fd item hitem
    exact ⟨hlt, by simp [Table.word, hitem, hdata]⟩

/-- Every word the loop has names a descriptor. -/
def Named (words : List (BitVec 64)) : Prop := ∀ e ∈ words, ∃ fd < 2 ^ 31, e = wordOf fd

theorem Refines.step (h : Refines d.loop d.table) (hw : Named d.words) {c : LoopCall}
    (hs : d.step c = some d') : Refines d'.loop d'.table ∧ Named d'.words := by
  cases c with
  | addFd fd owner =>
    simp only [Driven.step, Option.ite_none_right_eq_some, Option.some.injEq] at hs
    obtain ⟨hfd, rfl⟩ := hs
    exact ⟨h.addFd hfd owner, hw⟩
  | removeFd fd | close fd =>
    obtain rfl := Option.some.inj hs
    exact ⟨h.deleted fd rfl, hw⟩
  | reactivate e =>
    simp only [Driven.step, Option.ite_none_right_eq_some, Option.some.injEq] at hs
    obtain ⟨he, rfl⟩ := hs
    obtain ⟨fd, hfd, rfl⟩ := hw e he
    rw [show identOf (wordOf fd) = fd from identOf_dataOf hfd _]
    exact ⟨h.reactivate hfd, hw⟩
  | remove e =>
    simp only [Driven.step, Option.ite_none_right_eq_some, Option.some.injEq] at hs
    obtain ⟨he, rfl⟩ := hs
    obtain ⟨fd, hfd, rfl⟩ := hw e he
    rw [show identOf (wordOf fd) = fd from identOf_dataOf hfd _,
      show d.table.remove (wordOf fd) = d.table.ctlDel fd from remove_dataOf hfd _ _]
    exact ⟨h.deleted fd rfl, hw⟩
  | report fds =>
    simp only [Driven.step, Option.ite_none_right_eq_some, Option.some.injEq] at hs
    obtain ⟨hen, rfl⟩ := hs
    refine ⟨h.report fds, fun e he => ?_⟩
    obtain hold | hnew := List.mem_append.mp he
    · exact hw e hold
    · obtain ⟨fd, hmem, rfl⟩ := List.mem_map.mp hnew
      exact ⟨fd, h.word (hen fd hmem)⟩

theorem refines_new (kinds : ℕ → Loop.Kind) : Refines (.init kinds) Table.new := by
  have hnew : Table.new = Function.update (fun _ => none) (Loop.outIdent : ℤ) (some
      ⟨EPOLLIN ||| EPOLLONESHOT, wordOf Loop.outIdent, true⟩) := rfl
  constructor
  · intro fd
    by_cases heq : fd = Loop.outIdent
    · simp [hnew, heq, Loop.State.init]
    · simp [hnew, Loop.State.init, heq]
  · intro fd item hitem
    rw [hnew] at hitem
    by_cases heq : fd = Loop.outIdent
    · subst heq
      rw [Function.update_self] at hitem
      exact Option.some.inj hitem ▸ Item.of_mask (by decide) true
    · rw [Function.update_of_ne (by exact_mod_cast heq)] at hitem
      cases hitem

/-- Whatever a loop asks of its kernel, in whatever order, the interest list of epoll has the
descriptors that `Wavy.Loop` counts with, armed or reported as it counts with, each of them one-shot and
with its own descriptor in its word; and so has every event reported to the loop. -/
theorem interest_refined (h : (drivenSystem kinds).Reachable (fun _ _ => True) d) :
    Refines d.loop d.table ∧ ∀ e ∈ d.words, ∃ fd : ℕ, identOf e = fd ∧ e = wordOf fd := by
  have hinv : Refines d.loop d.table ∧ Named d.words := by
    apply h.invariant
    · rintro _ rfl
      exact ⟨refines_new kinds, fun e he => by cases he⟩
    · intro d c d' _ hinv _ hs
      exact hinv.1.step hinv.2 hs
  refine ⟨hinv.1, fun e he => ?_⟩
  obtain ⟨fd, hfd, rfl⟩ := hinv.2 e he
  exact ⟨fd, identOf_dataOf hfd _, rfl⟩

end

/-- Descriptor 5 is reported, rearmed, reported again, and removed by its event after it was closed and
added for another handler. -/
def fiveAgain : List LoopCall :=
  [.addFd 5 1, .report [0, 5], .reactivate (wordOf 5), .report [5], .close 5, .addFd 5 2,
    .remove (wordOf 5)]

theorem interest_refined_five :
    ∃ d, (drivenSystem fun _ => .main).Reachable (fun _ _ => True) d ∧
      Refines d.loop d.table ∧ wordOf 5 ∈ d.words ∧ d.table 5 = none := by
  obtain ⟨d, hd, hq⟩ := System.exists_reachable_of_exec (S := drivenSystem fun _ => .main)
    (P := fun _ _ => True) (s := ⟨.init fun _ => .main, .new, []⟩) fiveAgain
    (fun d => decide (wordOf 5 ∈ d.words ∧ d.table 5 = none)) rfl (by decide +kernel)
  obtain ⟨hw, hnone⟩ := of_decide_eq_true hq
  exact ⟨d, hd, (interest_refined hd).1, hw, hnone⟩

end Mpio.Wavy.Epoll
