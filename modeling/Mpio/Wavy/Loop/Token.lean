import Mpio.Wavy.Loop.Pending
import Mpio.Wavy.Loop.Registry
import Mathlib.Algebra.Order.BigOperators.Group.Finset

/-!
# The dispatch token

A registration is one-shot: it is armed, or its event is on its way, or a handler is working on the
event. `tokens` counts these for one descriptor, and `Tokens` says that the count is one for a descriptor
registered in epoll and zero for any other.

A step of a dispatch changes what one thread has in hand (`load`) and whether the descriptor is armed;
`Dispatches.tokens` is the accounting, and `Tokens.rearmed`, `Tokens.removed` and `Tokens.moved` are its
three uses. `Tokens.report` and `Tokens.more` are the two steps that put events in. All other steps move
threads outside of handlers (`Apart`).
-/

namespace Mpio.Wavy.Loop

open Lib

variable {N : ℕ} {s s' : State} {a : Action}

/-! ## Counting -/

/-- Whether `i` is registered and enabled. -/
def State.armed (s : State) (i : ℕ) : ℕ := if (s.interest i).map (·.armed) = some true then 1 else 0

/-- Whether `i` is registered. -/
def State.present (s : State) (i : ℕ) : ℕ := if (s.interest i).isSome then 1 else 0

/-- Whether a handler is called for an event of `i` and has neither re-armed nor queued it. -/
def Pc.grip (i : ℕ) : Pc → ℕ
  | .running ke _ flags =>
    if ke.ident = i ∧ flags.reactivated = false ∧ flags.removed = false then 1 else 0
  | .rearm ke _ | .drop ke _ => if ke.ident = i then 1 else 0
  | _ => 0

def tokens (N : ℕ) (s : State) (i : ℕ) : ℕ :=
  s.armed i + (pending N s).countP (·.ident = i) + ∑ t ∈ Finset.range N, (s.pc t).grip i

/-- What a thread has in hand of `i`. -/
def Pc.load (i : ℕ) (p : Pc) : ℕ := p.pending.countP (·.ident = i) + p.grip i

/-- One token for a registered descriptor, none for any other. -/
def Tokens (N : ℕ) (s : State) : Prop := ∀ i, tokens N s i = s.present i

theorem armed_congr (h : s'.interest = s.interest) (i : ℕ) : s'.armed i = s.armed i := by
  unfold State.armed
  rw [h]

theorem present_congr (h : s'.interest = s.interest) (i : ℕ) : s'.present i = s.present i := by
  unfold State.present
  rw [h]

/-- The same events, the same threads at work, the same registrations. -/
theorem Tokens.frame (hT : Tokens N s) (hi : s'.interest = s.interest)
    (hp : pending N s' = pending N s) (hg : ∀ u i, (s'.pc u).grip i = (s.pc u).grip i) :
    Tokens N s' := by
  intro i
  unfold tokens
  rw [armed_congr hi, present_congr hi, hp, Finset.sum_congr rfl fun u _ => hg u i]
  exact hT i

theorem load_le_tokens {t : ℕ} (htN : t < N) (i : ℕ) :
    s.armed i + (s.pc t).load i ≤ tokens N s i := by
  have hmem : t ∈ Finset.range N := Finset.mem_range.mpr htN
  have hgrip : (s.pc t).grip i ≤ ∑ u ∈ Finset.range N, (s.pc u).grip i :=
    Finset.single_le_sum (f := fun u => (s.pc u).grip i) (fun _ _ => Nat.zero_le _) hmem
  have hsub : (s.pc t).pending ≤ pending N s := by
    unfold pending
    rw [← Finset.add_sum_erase _ _ hmem, ← add_assoc, add_comm _ (s.pc t).pending, add_assoc]
    exact Multiset.le_add_right _ _
  have hpend := Multiset.countP_le_of_le (fun ke : Event => ke.ident = i) hsub
  unfold tokens Pc.load
  omega

/-- What a thread has in hand is the token of a registered descriptor that is not armed. -/
theorem Tokens.of_load {t i : ℕ} (hT : Tokens N s) (htN : t < N) (hl : (s.pc t).load i = 1) :
    (s.interest i).isSome = true ∧ s.armed i = 0 ∧ tokens N s i = 1 := by
  have hle := load_le_tokens (s := s) htN i
  have htok := hT i
  have hsome : (s.interest i).isSome = true := by
    by_contra hnone
    rw [State.present, if_neg hnone] at htok
    omega
  rw [State.present, if_pos hsome] at htok
  exact ⟨hsome, by omega, htok⟩

theorem load_of_active {p : Pc} {i : ℕ} (h : p.pending = 0) : p.load i = p.grip i := by
  unfold Pc.load
  rw [h, Multiset.countP_zero, zero_add]

/-- The accounting of a dispatch step. -/
theorem Dispatches.tokens {t : ℕ} (h : Dispatches N s t a s') (htN : t < N) (i : ℕ) :
    Loop.tokens N s' i + (s.armed i + (s.pc t).load i) =
      Loop.tokens N s i + (s'.armed i + (s'.pc t).load i) := by
  have hpend := h.pending htN
  have hgrip : ∑ u ∈ Finset.range N, (s'.pc u).grip i + (s.pc t).grip i =
      ∑ u ∈ Finset.range N, (s.pc u).grip i + (s'.pc t).grip i :=
    sum_move htN (f := fun u => (s.pc u).grip i) fun u hu => by rw [h.pc_of_ne hu]
  rw [load_of_active h.pending_zero]
  unfold Loop.tokens Pc.load
  rw [hpend, Multiset.countP_add]
  omega

/-! ## Re-arming, removing and moving on -/

theorem armed_reactivate (j i : ℕ) :
    (reactivate s j).armed i = if i = j then s.present j else s.armed i := by
  by_cases hij : i = j
  · subst hij
    cases hr : s.interest i <;> simp [State.armed, State.present, reactivate, hr]
  · simp [State.armed, reactivate, hij]

theorem present_reactivate (j i : ℕ) : (reactivate s j).present i = s.present i := by
  by_cases hij : i = j
  · subst hij
    simp [State.present, reactivate]
  · simp [State.present, reactivate, hij]

theorem armed_removeFd (j i : ℕ) : (removeFd s j).armed i = if i = j then 0 else s.armed i := by
  by_cases hij : i = j
  · subst hij
    simp [State.armed, removeFd]
  · simp [State.armed, removeFd, hij]

theorem present_removeFd (j i : ℕ) :
    (removeFd s j).present i = if i = j then 0 else s.present i := by
  by_cases hij : i = j
  · subst hij
    simp [State.present, removeFd]
  · simp [State.present, removeFd, hij]

section moves

variable {t j : ℕ}

theorem Tokens.rearmed (hT : Tokens N s) (htN : t < N)
    (hbefore : ∀ i, (s.pc t).load i = if i = j then 1 else 0)
    (hafter : ∀ i, (s'.pc t).load i = 0) (hi : s'.interest = (reactivate s j).interest)
    (hmove : ∀ i, tokens N s' i + (s.armed i + (s.pc t).load i) =
      tokens N s i + (s'.armed i + (s'.pc t).load i)) : Tokens N s' := by
  intro i
  have hm := hmove i
  rw [armed_congr hi, armed_reactivate, hafter i] at hm
  rw [present_congr hi, present_reactivate, ← hT i]
  by_cases hij : i = j
  · subst hij
    have hone : (s.pc t).load i = 1 := by rw [hbefore, if_pos rfl]
    obtain ⟨-, harmed, htok⟩ := hT.of_load htN hone
    rw [if_pos rfl, ← hT i, harmed, hone] at hm
    omega
  · rw [hbefore, if_neg hij, if_neg hij] at hm
    omega

theorem Tokens.removed (hT : Tokens N s) (htN : t < N)
    (hbefore : ∀ i, (s.pc t).load i = if i = j then 1 else 0)
    (hafter : ∀ i, (s'.pc t).load i = 0) (hi : s'.interest = (removeFd s j).interest)
    (hmove : ∀ i, tokens N s' i + (s.armed i + (s.pc t).load i) =
      tokens N s i + (s'.armed i + (s'.pc t).load i)) : Tokens N s' := by
  intro i
  have hm := hmove i
  rw [armed_congr hi, armed_removeFd, hafter i] at hm
  rw [present_congr hi, present_removeFd]
  by_cases hij : i = j
  · subst hij
    have hone : (s.pc t).load i = 1 := by rw [hbefore, if_pos rfl]
    obtain ⟨-, harmed, htok⟩ := hT.of_load htN hone
    rw [if_pos rfl, harmed, hone] at hm
    rw [if_pos rfl]
    omega
  · rw [hbefore, if_neg hij, if_neg hij] at hm
    rw [if_neg hij, ← hT i]
    omega

theorem Tokens.moved (hT : Tokens N s) (hload : ∀ i, (s'.pc t).load i = (s.pc t).load i)
    (hi : s'.interest = s.interest)
    (hmove : ∀ i, tokens N s' i + (s.armed i + (s.pc t).load i) =
      tokens N s i + (s'.armed i + (s'.pc t).load i)) : Tokens N s' := by
  intro i
  have hm := hmove i
  rw [armed_congr hi, hload i] at hm
  rw [present_congr hi, ← hT i]
  omega

end moves

/-! ## Steps that leave the handlers alone -/

/-- The thread is between looking up a handler and being done with its event. -/
def Pc.atHandler : Pc → Bool
  | .running _ _ _ | .evReset _ _ _ | .rearm _ _ | .drop _ _ | .reset _ _ => true
  | _ => false

/-- Every thread is where it was, or has moved outside of handlers. -/
def Apart (s s' : State) : Prop :=
  ∀ u, s'.pc u = s.pc u ∨ (s'.pc u).atHandler = false ∧ (s.pc u).atHandler = false

theorem grip_of_not {p : Pc} (h : p.atHandler = false) (i : ℕ) : p.grip i = 0 := by
  cases p <;> first | rfl | cases h

theorem Apart.grip (h : Apart s s') (u i : ℕ) : (s'.pc u).grip i = (s.pc u).grip i := by
  obtain h | ⟨h', h⟩ := h u
  · rw [h]
  · rw [grip_of_not h', grip_of_not h]

@[simp] theorem atHandler_back (k : Kind) : k.back.atHandler = false := by
  cases k <;> rfl

@[simp] theorem atHandler_entry (ke : Event) : ke.entry.atHandler = false := by
  unfold Event.entry
  split_ifs <;> rfl

theorem apart_setPc {t : ℕ} {p : Pc} (ht : (s.pc t).atHandler = false) (hp : p.atHandler = false) :
    Apart s (s.setPc t p) := by
  intro u
  by_cases hu : u = t
  · rw [hu, pc_setPc_self]
    exact .inr ⟨hp, ht⟩
  · exact .inl (pc_setPc_of_ne hu s p)

theorem Signalled.apart (h : Signalled N s s') : Apart s s' := by
  intro u
  refine (h.pc u).imp_right fun ⟨hw, hw'⟩ => ?_
  rw [hw, hw']
  exact ⟨rfl, rfl⟩

theorem Signalled.apart_setPc {t : ℕ} {p : Pc} {s₀ : State} (h : Signalled N s₀ s')
    (h₀ : s₀.threads = s.threads) (ht : (s.pc t).atHandler = false) (hp : p.atHandler = false) :
    Apart s (s'.setPc t p) := by
  have hpc : ∀ u, s₀.pc u = s.pc u := fun u => by simp only [State.pc, h₀]
  intro u
  by_cases hu : u = t
  · rw [hu, pc_setPc_self]
    exact .inr ⟨hp, ht⟩
  · rw [pc_setPc_of_ne hu, ← hpc u]
    exact h.apart u

theorem State.Entering.atHandler {t : ℕ} (h : s.Entering t) : (s.pc t).atHandler = false := by
  obtain h | ⟨h, -⟩ := h <;> rw [h] <;> rfl

theorem atHandler_queue {t : ℕ} (h : s.Entering t ∨ s.pc t = .nbQueue) :
    (s.pc t).atHandler = false := by
  obtain h | h := h
  · exact h.atHandler
  · rw [h]
    rfl

theorem atHandler_of {t : ℕ} {p : Pc} (h : s.pc t = p) (hp : p.atHandler = false) :
    (s.pc t).atHandler = false := by
  rw [h, hp]

theorem Locked.apart {t : ℕ} (h : Locked N s t s') : Apart s s' := by
  cases h with
  | leave ht he =>
    refine apart_setPc ht.atHandler ?_
    cases (s.threads t).kind <;> rfl
  | waited ht hk => exact apart_setPc (atHandler_of ht rfl) rfl
  | moreEvent ht he hm => exact apart_setPc ht.atHandler (atHandler_entry _)
  | outEvent ht ho | lastTask ht hn => exact apart_setPc (atHandler_queue ht) rfl
  | task ht hn hs => exact hs.apart_setPc rfl (atHandler_queue ht) rfl
  | wait ht he hm hp ho hn => exact apart_setPc ht.atHandler rfl
  | idle ht => exact apart_setPc (atHandler_queue (ht.imp_left And.left)) rfl
  | poll ht he hm hp hn => exact apart_setPc ht.atHandler rfl
  | backlogEvent ht he hp hn hb => exact apart_setPc ht.atHandler (atHandler_entry _)
  | @relock evs s₁ ke n ht hs hb =>
    exact hs.apart_setPc rfl (atHandler_of ht rfl) (atHandler_entry ke)
  | retryPoll ht hk | endPoll ht hk he => exact apart_setPc (atHandler_of ht rfl) rfl
  | resign ht hk hp =>
    refine apart_setPc (atHandler_of ht rfl) ?_
    obtain rfl | rfl := hp <;> rfl
  | @done last ht =>
    cases last
    · exact apart_setPc (atHandler_of ht rfl) (atHandler_back _)
    · exact apart_setPc (atHandler_of ht rfl) rfl
  | flushed ht => exact apart_setPc (atHandler_of ht rfl) (atHandler_back _)

theorem apart_call {t : ℕ} {block : Bool} (ht : s.pc t = .outside) :
    Apart s { s with threads := Function.update s.threads t ⟨.once block, .start⟩ } := by
  intro u
  show (Function.update s.threads t ⟨.once block, .start⟩ u).pc = s.pc u ∨
    (Function.update s.threads t ⟨.once block, .start⟩ u).pc.atHandler = false ∧ _
  by_cases hu : u = t
  · rw [hu, Function.update_self]
    exact .inr ⟨rfl, atHandler_of ht rfl⟩
  · rw [Function.update_of_ne hu]
    exact .inl rfl

theorem apart_broadcast : Apart s { broadcast s with ended := true } := by
  intro u
  show (if s.pc u = .waiting then Pc.woken else s.pc u) = _ ∨
    (if s.pc u = .waiting then Pc.woken else s.pc u).atHandler = false ∧ _
  split_ifs with hw
  · exact .inr ⟨rfl, atHandler_of hw rfl⟩
  · exact .inl rfl

theorem apart_report {t : ℕ} {idents : List ℕ} {evs : List Event} (ht : s.pc t = .polling) :
    Apart s ((s.report idents).setPc t (.polled evs)) := by
  have happ := apart_setPc (s := s.report idents) (p := .polled evs) (atHandler_of ht rfl) rfl
  exact happ

theorem countP_events {idents : List ℕ} (hnodup : idents.Nodup) (i : ℕ) :
    (idents.map (s.eventOf ·)).countP (·.ident = i) = if i ∈ idents then 1 else 0 := by
  rw [List.countP_map]
  show idents.count i = _
  split_ifs with hi
  · exact List.count_eq_one_of_mem hnodup hi
  · exact List.count_eq_zero_of_not_mem hi

theorem Tokens.report {t : ℕ} {idents : List ℕ} (hT : Tokens N s) (htN : t < N)
    (ht : s.pc t = .polling) (hb : Backlog s) (hl : s.pool.Led N) (hnodup : idents.Nodup)
    (harmed : ∀ i ∈ idents, ((s.interest i).map (·.armed)) = some true) :
    Tokens N ((s.report idents).setPc t (.polled (idents.map (s.eventOf ·)))) := by
  have harm : (s.report idents).armed = fun i => if i ∈ idents then 0 else s.armed i := by
    funext i
    unfold State.armed
    show (if ((if i ∈ idents then _ else s.interest i : Option Reg).map (·.armed)) = some true
      then 1 else 0) = _
    split_ifs <;> simp_all
  have hpres : (s.report idents).present = s.present := by
    funext i
    unfold State.present
    show (if (if i ∈ idents then _ else s.interest i : Option Reg).isSome then 1 else 0) = _
    split_ifs <;> simp_all
  intro i
  show tokens N _ i = (s.report idents).present i
  rw [hpres, ← hT i]
  unfold tokens
  rw [pending_report htN ht hb hl, Multiset.countP_add, Multiset.coe_countP,
    countP_events hnodup, Finset.sum_congr rfl fun u _ => (apart_report ht).grip u i]
  show (s.report idents).armed i + _ + _ = _
  rw [harm]
  by_cases hi : i ∈ idents
  · have hone : s.armed i = 1 := if_pos (harmed i hi)
    simp only [hi, if_true, hone]
    omega
  · simp only [hi, if_false]
    omega

/-- `event::more` puts the event in hand into `m_more_queue`. -/
theorem Tokens.more {t : ℕ} {ke : Event} {h : ℕ} {flags : Flags} {s₁ : State} (hT : Tokens N s)
    (htN : t < N) (ht : s.pc t = .running ke h flags) (hf : flags.reactivated = false)
    (hr : flags.removed = false) (hs : Signalled N { s with more := s.more ++ [ke] } s₁) :
    Tokens N (s₁.setPc t (.running ke h { flags with reactivated := true })) := by
  have hpend : pending N (s₁.setPc t (.running ke h { flags with reactivated := true })) =
      ke ::ₘ pending N s := pending_more (by rw [ht]; rfl) rfl hs
  have hother : ∀ i u, u ≠ t →
      ((s₁.setPc t (.running ke h { flags with reactivated := true })).pc u).grip i =
        (s.pc u).grip i := by
    intro i u hu
    rw [pc_setPc_of_ne hu]
    exact hs.apart.grip u i
  intro i
  have hgrip := sum_move htN (hother i)
  have hself : (s.pc t).grip i = if ke.ident = i then 1 else 0 := by
    rw [ht]
    simp [Pc.grip, hf, hr]
  have hdone : Pc.grip i (.running ke h { flags with reactivated := true }) = 0 := by
    simp [Pc.grip]
  rw [pc_setPc_self, hself, hdone] at hgrip
  have hi : (s₁.setPc t (.running ke h { flags with reactivated := true })).interest =
      s.interest := by
    show s₁.interest = s.interest
    rw [hs.toRegistry]
  rw [present_congr hi, ← hT i]
  unfold tokens
  rw [armed_congr hi, hpend, Multiset.countP_cons]
  omega

end Mpio.Wavy.Loop
