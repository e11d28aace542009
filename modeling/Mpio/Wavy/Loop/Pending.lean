import Mpio.Wavy.Loop.Poll
import Mathlib.Algebra.BigOperators.Group.Finset.Basic
import Mathlib.Tactic.Abel

/-!
# Events on their way to a handler

`pending` collects the events that have left the kernel and have not reached a handler: those a thread
brings back from `m_kernel.wait`, the rest of the backlog, `m_more_queue`, and those a thread has taken
and not yet looked up in `m_state`. The locked sections move events between these places and change
nothing in the collection (`Locked.pending`); the kernel and `event::more` put events in, and looking up
the handler takes one out.
-/

namespace Mpio.Wavy.Loop

open Lib

variable {N : ℕ} {s s' : State} {a : Action}

/-- The events a thread has and has not delivered. -/
def Pc.pending : Pc → Multiset Event
  | .polled evs => evs
  | .dispatch ke | .rearmOut ke => {ke}
  | _ => 0

/-- `m_backlog` from `m_off` to `m_num`. -/
def State.rest (s : State) : List Event := (s.backlog.take s.num).drop s.off

def pending (N : ℕ) (s : State) : Multiset Event :=
  s.more + s.rest + ∑ t ∈ Finset.range N, (s.pc t).pending

@[simp] theorem pending_back (k : Kind) : k.back.pending = 0 := by
  cases k <;> rfl

@[simp] theorem pending_leave (k : Kind) : k.leave.pending = 0 := by
  cases k <;> rfl

@[simp] theorem pending_entry (ke : Event) : ke.entry.pending = {ke} := by
  unfold Event.entry
  split_ifs <;> rfl

theorem State.Entering.pending {t : ℕ} (h : s.Entering t) : (s.pc t).pending = 0 := by
  obtain h | ⟨h, -⟩ := h <;> rw [h] <;> rfl

theorem pending_queue {t : ℕ} (h : s.Entering t ∨ s.pc t = .nbQueue) : (s.pc t).pending = 0 := by
  obtain h | h := h
  · exact h.pending
  · rw [h]
    rfl

/-- Only the queues and thread `t` matter for what a step of `t` does to the collection. -/
theorem pending_move {t : ℕ} (htN : t < N) (hpc : ∀ u, u ≠ t → (s'.pc u).pending = (s.pc u).pending) :
    pending N s' + (s.more + s.rest + (s.pc t).pending) =
      pending N s + (s'.more + s'.rest + (s'.pc t).pending) := by
  have hsum := sum_move htN hpc
  unfold pending
  calc s'.more + s'.rest + ∑ u ∈ Finset.range N, (s'.pc u).pending +
        (s.more + s.rest + (s.pc t).pending)
      = s'.more + s'.rest + (s.more + s.rest) +
        (∑ u ∈ Finset.range N, (s'.pc u).pending + (s.pc t).pending) := by abel
    _ = s'.more + s'.rest + (s.more + s.rest) +
        (∑ u ∈ Finset.range N, (s.pc u).pending + (s'.pc t).pending) := by rw [hsum]
    _ = s.more + s.rest + ∑ u ∈ Finset.range N, (s.pc u).pending +
        (s'.more + s'.rest + (s'.pc t).pending) := by abel

/-- Thread `t` has moved events between the queues and itself. -/
theorem pending_transfer {t : ℕ} (htN : t < N)
    (hpc : ∀ u, u ≠ t → (s'.pc u).pending = (s.pc u).pending)
    (hx : (s'.more + s'.rest + (s'.pc t).pending : Multiset Event) =
      s.more + s.rest + (s.pc t).pending) : pending N s' = pending N s := by
  have hmove := pending_move htN hpc
  rw [hx] at hmove
  exact add_right_cancel hmove

theorem pending_congr (hm : s'.more = s.more) (hr : s'.rest = s.rest)
    (hpc : ∀ u, (s'.pc u).pending = (s.pc u).pending) : pending N s' = pending N s := by
  unfold pending
  rw [hm, hr, Finset.sum_congr rfl fun u _ => hpc u]

theorem pending_setPc_of_ne {t u : ℕ} (hu : u ≠ t) (s : State) (p : Pc) :
    ((s.setPc t p).pc u).pending = (s.pc u).pending := by
  rw [pc_setPc_of_ne hu]

theorem Signalled.pending (h : Signalled N s s') (u : ℕ) :
    (s'.pc u).pending = (s.pc u).pending := by
  obtain hpc | ⟨hw, hw'⟩ := h.pc u
  · rw [hpc]
  · rw [hw, hw']
    rfl

theorem pending_setPc {t : ℕ} {p : Pc} (hm : s'.more = s.more) (hr : s'.rest = s.rest)
    (hpc : ∀ u, (s'.pc u).pending = (s.pc u).pending) (ht : (s.pc t).pending = 0)
    (hp : p.pending = 0) : Loop.pending N (s'.setPc t p) = Loop.pending N s := by
  refine pending_congr hm hr fun u => ?_
  by_cases hu : u = t
  · rw [hu, pc_setPc_self, ht, hp]
  · rw [pending_setPc_of_ne hu, hpc u]

/-! ## The rest of the backlog -/

theorem rest_of_polling (hb : Backlog s) (hp : s.pollable = false) : s.rest = [] := by
  unfold State.rest
  rw [hb.polling hp]
  exact List.drop_eq_nil_of_le (List.length_take_le _ _)

theorem rest_cons {ke : Event} (hb : Backlog s) (hn : s.num ≠ s.off)
    (hke : s.backlog[s.off]? = some ke) :
    s.rest = ke :: (s.backlog.take s.num).drop (s.off + 1) := by
  obtain ⟨hlt, hget⟩ := List.getElem?_eq_some_iff.mp hke
  have hle := hb.le
  have hlt' : s.off < (s.backlog.take s.num).length := by
    rw [List.length_take]
    omega
  unfold State.rest
  rw [List.drop_eq_getElem_cons hlt', List.getElem_take, hget]

theorem Locked.pending {t : ℕ} (h : Locked N s t s') (htN : t < N) (hb : Backlog s)
    (hl : s.pool.Led N) (hh : Handed N s) : Loop.pending N s' = Loop.pending N s := by
  have hsame : ∀ u, (s.pc u).pending = (s.pc u).pending := fun _ => rfl
  cases h with
  | leave ht he => exact pending_setPc rfl rfl hsame ht.pending (pending_leave _)
  | waited ht hk => exact pending_setPc rfl rfl hsame (by rw [ht]; rfl) rfl
  | @moreEvent ke rest n ht he hm =>
    refine pending_transfer htN (fun u hu => pending_setPc_of_ne hu _ _) ?_
    rw [ht.pending, pc_setPc_self, pending_entry, hm, ← Multiset.cons_coe,
      ← Multiset.singleton_add]
    show (rest + s.rest + {ke} : Multiset Event) = {ke} + rest + s.rest + 0
    abel
  | outEvent ht ho | lastTask ht hn => exact pending_setPc rfl rfl hsame (pending_queue ht) rfl
  | task ht hn hs =>
    have hq := hs.toQueues
    exact pending_setPc (by simp [hq]) (by simp [State.rest, hq]) hs.pending (pending_queue ht) rfl
  | wait ht he hm hp ho hn => exact pending_setPc rfl rfl hsame ht.pending rfl
  | idle ht => exact pending_setPc rfl rfl hsame (pending_queue (ht.imp_left And.left)) rfl
  | poll ht he hm hp hn => exact pending_setPc rfl rfl hsame ht.pending rfl
  | @backlogEvent ke n ht he hp hn hke =>
    refine pending_transfer htN (fun u hu => pending_setPc_of_ne hu _ _) ?_
    rw [ht.pending, pc_setPc_self, pending_entry, rest_cons hb hn hke, ← Multiset.cons_coe,
      ← Multiset.singleton_add]
    show (s.more + (s.backlog.take s.num).drop (s.off + 1) + {ke} : Multiset Event) = _
    abel
  | @relock evs s₁ ke n ht hs hke =>
    have hq := hs.toQueues
    have hrest : s.rest = [] :=
      rest_of_polling hb (pollable_of_leading hl htN (by rw [ht]; rfl))
    refine pending_transfer htN (fun u hu => ?_) ?_
    · rw [pending_setPc_of_ne hu]
      exact hs.pending u
    · rw [hrest, ht, pc_setPc_self, pending_entry]
      show (s₁.more + (s₁.backlog.take s₁.num).drop 1 + {ke} : Multiset Event) =
        s.more + ([] : List Event) + evs
      simp only [hq, (hh.polled t htN evs ht).1, List.take_length]
      conv_rhs => rw [hh.cons htN ht hke, ← Multiset.cons_coe, ← Multiset.singleton_add]
      simp only [Multiset.coe_nil]
      abel
  | retryPoll ht hk | endPoll ht hk he => exact pending_setPc rfl rfl hsame (by rw [ht]; rfl) rfl
  | resign ht hk hp =>
    refine pending_setPc rfl rfl hsame (by rw [ht]; rfl) ?_
    obtain rfl | rfl := hp <;> rfl
  | @done last ht =>
    cases last
    · exact pending_setPc rfl rfl hsame (by rw [ht]; rfl) (pending_back _)
    · exact pending_setPc rfl rfl hsame (by rw [ht]; rfl) rfl
  | flushed ht => exact pending_setPc rfl rfl hsame (by rw [ht]; rfl) (pending_back _)

/-! ## The other steps -/

theorem pending_step {t : ℕ} (htN : t < N)
    (hpc : ∀ u, u ≠ t → (s'.pc u).pending = (s.pc u).pending) (hm : s'.more = s.more)
    (hr : s'.rest = s.rest) :
    pending N s' + (s.pc t).pending = pending N s + (s'.pc t).pending := by
  have hmove := pending_move htN hpc
  rw [hm, hr] at hmove
  have hcancel : pending N s' + (s.pc t).pending + (s.more + s.rest : Multiset Event) =
      pending N s + (s'.pc t).pending + (s.more + s.rest : Multiset Event) := by
    calc pending N s' + (s.pc t).pending + (s.more + s.rest : Multiset Event)
        = pending N s' + (s.more + s.rest + (s.pc t).pending) := by abel
      _ = pending N s + (s.more + s.rest + (s'.pc t).pending) := hmove
      _ = pending N s + (s'.pc t).pending + (s.more + s.rest : Multiset Event) := by abel
  exact add_right_cancel hcancel

theorem Dispatches.pending_zero {t : ℕ} (h : Dispatches N s t a s') : (s'.pc t).pending = 0 := by
  cases h with
  | rearmOut ht | rearm ht | reset ht | finish ht hf => simp [State.back]
  | _ => simp [Pc.pending]

/-- A dispatch delivers the event it has taken. -/
theorem Dispatches.pending {t : ℕ} (h : Dispatches N s t a s') (htN : t < N) :
    Loop.pending N s = Loop.pending N s' + (s.pc t).pending := by
  have hq := h.toQueues
  have hpc : ∀ u, u ≠ t → (s'.pc u).pending = (s.pc u).pending := fun u hu => by
    rw [h.pc_of_ne hu]
  have hstep := pending_step htN hpc (by rw [hq]) (by unfold State.rest; rw [hq])
  rw [h.pending_zero, add_zero] at hstep
  exact hstep.symm

theorem Registers.pending (h : Registers N s a s') : Loop.pending N s' = Loop.pending N s := by
  have hq := h.toQueues
  refine pending_congr (by rw [hq]) ?_ fun u => by rw [h.pc]
  unfold State.rest
  rw [hq]

theorem pending_report {t : ℕ} {idents : List ℕ} (htN : t < N) (ht : s.pc t = .polling)
    (hb : Backlog s) (hl : s.pool.Led N) :
    Loop.pending N ((s.report idents).setPc t (.polled (idents.map (s.eventOf ·)))) =
      Loop.pending N s + (idents.map (s.eventOf ·) : List Event) := by
  have hoff := hb.polling (pollable_of_leading hl htN (by rw [ht]; rfl))
  have hrest : s.rest = [] := rest_of_polling hb (pollable_of_leading hl htN (by rw [ht]; rfl))
  have hrest' : (s.report idents).rest = [] := by
    show ((idents.map (s.eventOf ·)).take s.num).drop s.off = []
    rw [hoff]
    exact List.drop_eq_nil_of_le (List.length_take_le _ _)
  have hreport : Loop.pending N (s.report idents) = Loop.pending N s :=
    pending_congr rfl (hrest'.trans hrest.symm) fun _ => rfl
  have hstep := pending_step htN (fun u hu =>
    pending_setPc_of_ne hu (s.report idents) (.polled (idents.map (s.eventOf ·)))) rfl rfl
  rw [pc_setPc_self, hreport, show (s.report idents).pc t = .polling from ht] at hstep
  exact (add_zero _).symm.trans hstep

theorem pending_more {t : ℕ} {ke : Event} {p : Pc} {s₁ : State} (ht : (s.pc t).pending = 0)
    (hp : p.pending = 0) (hs : Signalled N { s with more := s.more ++ [ke] } s₁) :
    Loop.pending N (s₁.setPc t p) = ke ::ₘ Loop.pending N s := by
  have hq := hs.toQueues
  have hmove : Loop.pending N (s₁.setPc t p) = Loop.pending N { s with more := s.more ++ [ke] } :=
    pending_setPc (by rw [hq]) (by simp only [State.rest, hq]) hs.pending ht hp
  rw [hmove]
  show (((s.more ++ [ke] : List Event) : Multiset Event) + s.rest + _ : Multiset Event) =
    ke ::ₘ ((s.more : Multiset Event) + s.rest + _)
  rw [← Multiset.coe_add, Multiset.coe_singleton, ← Multiset.singleton_add]
  abel

theorem pending_endReturn : Loop.pending N { broadcast s with ended := true } = Loop.pending N s := by
  refine pending_congr rfl rfl fun u => ?_
  show (if s.pc u = .waiting then Pc.woken else s.pc u).pending = _
  split_ifs with hw
  · rw [hw]
    rfl
  · rfl

end Mpio.Wavy.Loop
