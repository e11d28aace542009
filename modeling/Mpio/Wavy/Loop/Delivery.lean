import Mpio.Wavy.Loop.Pending
import Mpio.Wavy.Loop.Registry

/-!
# Events of removed registrations

An event carries the number of a descriptor and nothing else, and removing a registration leaves the
events that are on their way where they are. If the number is given to a new handler while such an event
is on its way, the new handler is called for it (`delivery_stale`).

In the runs where an `add_*` call is given a number only while no event with it is pending, every handler
is called for events of its own registration only (`delivery_genuine`). The invariant is `Genuine`: a
pending event whose descriptor is open belongs to the handler that has it open.
-/

namespace Mpio.Wavy.Loop

open Lib

variable {N : ℕ} {s s' : State} {a : Action}

/-- An `add_*` call is given a number that no pending event carries. -/
def clean (N : ℕ) (s : State) : Action → Bool
  | .addHandler _ i | .addBegin _ _ i => decide (∀ ke ∈ pending N s, ke.ident ≠ i)
  | _ => true

structure Genuine (N : ℕ) (s : State) : Prop where
  pending : ∀ ke ∈ pending N s, ∀ h, s.fdOwner ke.ident = some h → ke.origin = h
  held : ∀ t < N, ∀ ke h, (s.pc t).held = some (ke, h) → ke.origin = h
  delivered : ∀ x ∈ s.delivered, x.1 = x.2

theorem Genuine.init (N : ℕ) (kinds : ℕ → Kind) : Genuine N (.init kinds) where
  pending ke hke := by
    have hzero : ∑ t ∈ Finset.range N, ((State.init kinds).pc t).pending = 0 :=
      Finset.sum_eq_zero fun t _ => pending_back (kinds t)
    unfold Loop.pending at hke
    rw [hzero] at hke
    cases hke
  held t _ ke h hh := by
    change (kinds t).back.held = some (ke, h) at hh
    rw [held_back] at hh
    cases hh
  delivered x hx := by cases hx

/-! ## Descriptors are only closed -/

theorem settle_fdOwner {h i x : ℕ} (hx : (settle N h s).fdOwner i = some x) :
    s.fdOwner i = some x := by
  obtain hs | ⟨-, -, hs⟩ := settle_cases N h s
  · rwa [hs] at hx
  · rw [hs] at hx
    change Function.update s.fdOwner (s.identOf h) none i = some x at hx
    by_cases hi : i = s.identOf h
    · rw [hi, Function.update_self] at hx
      cases hx
    · rwa [Function.update_of_ne hi] at hx

theorem settle?_fdOwner {h : Option ℕ} {i x : ℕ} (hx : (settle? N h s).fdOwner i = some x) :
    s.fdOwner i = some x := by
  cases h with
  | none => exact hx
  | some h => exact settle_fdOwner hx

theorem resetHandler_fdOwner {i j x : ℕ} (hx : (resetHandler N j s).fdOwner i = some x) :
    s.fdOwner i = some x :=
  (settle?_fdOwner hx :)

theorem Dispatches.fdOwner {t i x : ℕ} (h : Dispatches N s t a s')
    (hx : s'.fdOwner i = some x) : s.fdOwner i = some x := by
  cases h with
  | evReset ht => exact (resetHandler_fdOwner hx :)
  | rearm ht | finish ht hf => exact (settle_fdOwner hx :)
  | reset ht => exact resetHandler_fdOwner (settle?_fdOwner hx :)
  | _ => exact hx

/-! ## The steps -/

theorem Genuine.frame (hg : Genuine N s) (hp : ∀ ke ∈ Loop.pending N s', ke ∈ Loop.pending N s)
    (ho : ∀ i h, s'.fdOwner i = some h → s.fdOwner i = some h)
    (hh : ∀ t < N, ∀ x, (s'.pc t).held = some x → (s.pc t).held = some x)
    (hd : s'.delivered = s.delivered) : Genuine N s' where
  pending ke hke h hown := hg.pending ke (hp ke hke) h (ho _ h hown)
  held t ht ke h hx := hg.held t ht ke h (hh t ht _ hx)
  delivered := by
    rw [hd]
    exact hg.delivered

theorem Locked.delivered {t : ℕ} (h : Locked N s t s') : s'.delivered = s.delivered := by
  cases h with
  | task ht hn hs => exact hs.delivered
  | relock ht hs hb => exact hs.delivered
  | @done last ht => cases last <;> rfl
  | _ => rfl

theorem Registers.delivered (h : Registers N s a s') : s'.delivered = s.delivered := by
  cases h with
  | addHandler hc | publish hc =>
    show (setHandler N _ _).delivered = s.delivered
    rw [setHandler_delivered, create_delivered hc]
  | register hk hc =>
    have hsame := create_delivered hc
    exact hsame
  | publishEnd hk ha => exact setHandler_delivered N s _
  | removeBegin hk hi => exact resetHandler_delivered N _ _
  | removeSignalEnd hm => exact resetHandler_delivered N _ _
  | dropRef ha => exact settle_delivered N _ _
  | _ => rfl

theorem Dispatches.held {t u : ℕ} {x : Event × ℕ} (h : Dispatches N s t a s')
    (hx : (s'.pc u).held = some x) :
    (s.pc u).held = some x ∨ s.pc t = .dispatch x.1 ∧ s.slot x.1.ident = some x.2 := by
  by_cases hu : u = t
  · subst hu
    cases h with
    | rearmOut ht | rearm ht | reset ht | finish ht hf => simp [State.back, held_back] at hx
    | dispatch ht hh =>
      rw [pc_setPc_self] at hx
      obtain rfl := Option.some.inj hx
      exact .inr ⟨ht, hh⟩
    | dispatchEmpty ht hh =>
      rw [pc_setPc_self] at hx
      cases hx
    | @drop k wake ke h ht =>
      rw [pc_setPc_self] at hx
      rw [ht]
      cases h <;> exact .inl hx
    | evReset ht =>
      rw [resetHandler_pc, pc_setPc_self] at hx
      rw [ht]
      exact .inl hx
    | next ht hf | evRemove ht hf | finishRearm ht hf | finishDrop ht hf =>
      rw [pc_setPc_self] at hx
      rw [ht]
      exact .inl hx
  · rw [h.pc_of_ne hu] at hx
    exact .inl hx

theorem Dispatches.delivered {t : ℕ} {x : ℕ × ℕ} (h : Dispatches N s t a s')
    (hx : x ∈ s'.delivered) :
    x ∈ s.delivered ∨
      ∃ ke, s.pc t = .dispatch ke ∧ x.1 = ke.origin ∧ s.slot ke.ident = some x.2 := by
  cases h with
  | @dispatch k wake ke h ht hh =>
    obtain rfl | hx := List.mem_cons.mp hx
    · exact .inr ⟨ke, ht, rfl, hh⟩
    · exact .inl hx
  | evReset ht | reset ht =>
    left
    simpa using hx
  | rearm ht | finish ht hf =>
    left
    simp only [settle_delivered, back_delivered] at hx
    exact hx
  | _ => exact .inl hx

theorem Genuine.dispatches {t : ℕ} (hg : Genuine N s) (ho : Owned N s) (htN : t < N)
    (h : Dispatches N s t a s') : Genuine N s' := by
  have hpend := h.pending htN
  -- the slot belongs to the owner of the descriptor, and so does the event
  have horigin : ∀ ke h', s.pc t = .dispatch ke → s.slot ke.ident = some h' → ke.origin = h' := by
    intro ke h' ht hslot
    refine hg.pending ke ?_ h' (ho.slot _ h' hslot)
    rw [hpend, ht]
    exact Multiset.mem_add.mpr (.inr (Multiset.mem_singleton_self ke))
  refine ⟨fun ke hke h' hown => ?_, fun u hu ke h' hx => ?_, fun x hx => ?_⟩
  · refine hg.pending ke ?_ h' (h.fdOwner hown)
    rw [hpend]
    exact Multiset.mem_add.mpr (.inl hke)
  · obtain hx | ⟨ht, hslot⟩ := h.held hx
    · exact hg.held u hu ke h' hx
    · exact horigin ke h' ht hslot
  · obtain hx | ⟨ke, ht, hx, hslot⟩ := h.delivered hx
    · exact hg.delivered x hx
    · rw [hx]
      exact horigin ke x.2 ht hslot

theorem Genuine.registers (hg : Genuine N s) (hc : clean N s a = true)
    (h : Registers N s a s') : Genuine N s' := by
  have hp : ∀ ke ∈ Loop.pending N s', ke ∈ Loop.pending N s := fun ke hke => h.pending ▸ hke
  have hh : ∀ t < N, ∀ x, (s'.pc t).held = some x → (s.pc t).held = some x := fun t _ x hx => by
    rwa [h.pc] at hx
  have hd := h.delivered
  -- a number that is given out is carried by no pending event
  have hcreate {h i : ℕ} {s₁ : State} (hnew : create s h i = some s₁)
      (hi : ∀ ke ∈ Loop.pending N s, ke.ident ≠ i)
      (ho : ∀ j x, s'.fdOwner j = some x → s₁.fdOwner j = some x) : Genuine N s' := by
    obtain ⟨-, -, rfl⟩ := create_cases hnew
    refine ⟨fun ke hke h' hown => hg.pending ke (hp ke hke) h' ?_, fun t ht ke h' hx => ?_, ?_⟩
    · have hold := ho _ h' hown
      change Function.update s.fdOwner i _ ke.ident = some h' at hold
      rwa [Function.update_of_ne (hi ke (hp ke hke))] at hold
    · exact hg.held t ht ke h' (hh t ht _ hx)
    · rw [hd]
      exact hg.delivered
  cases h with
  | addHandler hnew =>
    exact hcreate hnew (of_decide_eq_true hc) fun j x hx => (settle?_fdOwner hx :)
  | publish hnew =>
    exact hcreate hnew (of_decide_eq_true hc) fun j x hx => (settle?_fdOwner hx :)
  | register hk hnew => exact hcreate hnew (of_decide_eq_true hc) fun j x hx => hx
  | registerEnd ha => exact hg.frame hp (fun _ _ hx => hx) hh hd
  | publishEnd hk ha =>
    exact hg.frame hp (fun j x hx => (settle?_fdOwner hx :)) hh hd
  | removeBegin hk hi =>
    exact hg.frame hp (fun j x hx => (resetHandler_fdOwner hx :)) hh hd
  | removeSignalBegin hi => exact hg.frame hp (fun _ _ hx => hx) hh hd
  | removeEnd hk hm => exact hg.frame hp (fun _ _ hx => hx) hh hd
  | removeSignalEnd hm =>
    exact hg.frame hp (fun j x hx => (resetHandler_fdOwner hx :)) hh hd
  | keepRef ha hl => exact hg.frame hp (fun _ _ hx => hx) hh hd
  | dropRef ha =>
    exact hg.frame hp (fun j x hx => (settle_fdOwner hx :)) hh hd

theorem Genuine.report {t : ℕ} {idents : List ℕ} (hg : Genuine N s) (ho : Owned N s)
    (hb : Backlog s) (hl : s.pool.Led N) (htN : t < N) (ht : s.pc t = .polling)
    (harmed : ∀ i ∈ idents, ((s.interest i).map (·.armed)) = some true) :
    Genuine N ((s.report idents).setPc t (.polled (idents.map (s.eventOf ·)))) := by
  refine ⟨fun ke hke h hown => ?_, fun u hu ke h hx => ?_, hg.delivered⟩
  · change s.fdOwner ke.ident = some h at hown
    rw [pending_report htN ht hb hl, Multiset.mem_add, Multiset.mem_coe, List.mem_map] at hke
    obtain hke | ⟨i, hi, rfl⟩ := hke
    · exact hg.pending ke hke h hown
    · obtain ⟨r, hr, -⟩ := Option.map_eq_some_iff.mp (harmed i hi)
      have horigin : (s.eventOf i).origin = r.owner := by simp [State.eventOf, hr]
      rw [horigin]
      exact Option.some.inj ((ho.interest i r hr).symm.trans hown)
  · exact hg.held u hu ke h (held_setPc_none rfl hx)

theorem Genuine.more {t : ℕ} {ke : Event} {h : ℕ} {flags flags' : Flags} {s₁ : State}
    (hg : Genuine N s) (ho : Owned N s) (htN : t < N) (ht : s.pc t = .running ke h flags)
    (hs : Signalled N { s with more := s.more ++ [ke] } s₁) :
    Genuine N (s₁.setPc t (.running ke h flags')) := by
  have hheld : (s.pc t).held = some (ke, h) := by rw [ht]; rfl
  have hpend : Loop.pending N (s₁.setPc t (.running ke h flags')) = ke ::ₘ Loop.pending N s :=
    pending_more (by rw [ht]; rfl) rfl hs
  refine ⟨fun ke' hke' h' hown => ?_, fun u hu ke' h' hx => ?_, ?_⟩
  · change s₁.fdOwner ke'.ident = some h' at hown
    rw [hs.toRegistry] at hown
    rw [hpend] at hke'
    obtain rfl | hke' := Multiset.mem_cons.mp hke'
    · -- the handler is running, so it has the descriptor
      rw [hg.held t htN ke' h hheld]
      exact Option.some.inj ((ho.held t htN ke' h hheld).symm.trans hown)
    · exact hg.pending ke' hke' h' hown
  · refine hg.held u hu ke' h' (hs.held (held_setPc (fun hp => ?_) hx))
    rw [hs.pc_of_ne (by show s.pc t ≠ _; rw [ht]; exact Pc.noConfusion)]
    show (s.pc t).held = _
    rw [ht]
    exact hp
  · show ∀ x ∈ s₁.delivered, x.1 = x.2
    rw [hs.delivered]
    exact hg.delivered

theorem Genuine.step (hg : Genuine N s) (ho : Owned N s) (hb : Backlog s) (hl : s.pool.Led N)
    (hh : Handed N s) (hc : clean N s a = true) (h : Step N s a s') : Genuine N s' := by
  cases h with
  | locked htN h =>
    refine hg.frame (fun ke hke => ?_) (fun i x hx => ?_) (fun u _ x => h.held) h.delivered
    · rwa [h.pending htN hb hl hh] at hke
    · rwa [h.toRegistry] at hx
  | dispatches htN h => exact hg.dispatches ho htN h
  | @call t block htN hk ht =>
    have hself : ∀ u, ((Function.update s.threads t ⟨.once block, .start⟩ u).pc).pending =
          (s.pc u).pending ∧
        ((Function.update s.threads t ⟨.once block, .start⟩ u).pc).held = (s.pc u).held := by
      intro u
      by_cases hu : u = t
      · rw [hu, Function.update_self, ht]
        exact ⟨rfl, rfl⟩
      · rw [Function.update_of_ne hu]
        exact ⟨rfl, rfl⟩
    have hpend : Loop.pending N
        { s with threads := Function.update s.threads t ⟨.once block, .start⟩ } =
        Loop.pending N s := pending_congr rfl rfl fun u => (hself u).1
    refine hg.frame (fun ke hke => hpend ▸ hke) (fun _ _ hx => hx) (fun u _ x hx => ?_) rfl
    exact (hself u).2 ▸ hx
  | wakeup htN ht =>
    refine hg.frame (fun ke hke => ?_) (fun _ _ hx => hx) (fun u _ x => held_setPc_none rfl) rfl
    rwa [pending_setPc rfl rfl (fun _ => rfl) (by rw [ht]; rfl) rfl] at hke
  | waitReturns htN ht hne hnodup harmed => exact hg.report ho hb hl htN ht harmed
  | timeout htN ht =>
    refine hg.frame (fun ke hke => ?_) (fun _ _ hx => hx) (fun u _ x => held_setPc_none rfl) rfl
    rwa [pending_setPc rfl rfl (fun _ => rfl) (by rw [ht]; rfl) rfl] at hke
  | @outDone t empty htN ht =>
    cases empty
    · refine hg.frame (fun ke hke => ?_) (fun _ _ hx => hx)
        (fun u _ x => held_setPc_none (held_back _)) rfl
      change ke ∈ Loop.pending N (s.back t) at hke
      rwa [State.back, pending_setPc rfl rfl (fun _ => rfl) (by rw [ht]; rfl) (pending_back _)]
        at hke
    · refine hg.frame (fun ke hke => ?_) (fun _ _ hx => hx) (fun u _ x => held_setPc_none rfl) rfl
      change ke ∈ Loop.pending N (s.setPc t .flush) at hke
      rwa [pending_setPc rfl rfl (fun _ => rfl) (by rw [ht]; rfl) rfl] at hke
  | more htN ht hf hs => exact hg.more ho htN ht hs
  | submit hs =>
    have hq := hs.toQueues
    refine hg.frame (fun ke hke => ?_) (fun i x hx => ?_) (fun u _ x => hs.held) hs.delivered
    · rwa [pending_congr (by rw [hq]) (by simp only [State.rest, hq]) hs.pending] at hke
    · rwa [hs.toRegistry] at hx
  | endBegin => exact hg.frame (fun _ hke => hke) (fun _ _ hx => hx) (fun _ _ _ hx => hx) rfl
  | endReturn he =>
    refine hg.frame (fun ke hke => ?_) (fun _ _ hx => hx) (fun u _ x hx => ?_) rfl
    · rwa [pending_endReturn] at hke
    · change (if s.pc u = .waiting then Pc.woken else s.pc u).held = some x at hx
      split_ifs at hx
      · cases hx
      · exact hx
  | registers h => exact hg.registers hc h

theorem reachable_genuine {kinds : ℕ → Kind}
    (h : (loopSystem N kinds).Reachable (fun s a => clean N s a = true) s) : Genuine N s :=
  h.invariant (fun _ hs => hs ▸ .init N kinds) fun _ _ _ hr hg hc hs =>
    hg.step (reachable_owned hr) (reachable_backlog hr) (reachable_led hr) (reachable_handed hr) hc
      (step_cases hs)

/-- A handler is called for events of its own registration only. -/
theorem delivery_genuine {kinds : ℕ → Kind}
    (hr : (loopSystem N kinds).Reachable (fun s a => clean N s a = true) s) {origin h : ℕ}
    (hd : (origin, h) ∈ s.delivered) : origin = h :=
  (reachable_genuine hr).delivered (origin, h) hd

/-- Handler 1 calls `more()` and `remove()`; its second dispatch finds the slot empty, and only then is
its number given to handler 2. -/
theorem delivery_genuine_reused : ∃ s,
    (loopSystem 1 fun _ => .main).Reachable (fun s a => clean 1 s a = true) s ∧
    s.fdOwner 5 = some 2 ∧ (2, 2) ∈ s.delivered ∧ ∀ x ∈ s.delivered, x.1 = x.2 := by
  obtain ⟨s, hs, hq⟩ := System.exists_reachable_of_exec (S := loopSystem 1 fun _ => .main)
    (P := fun s a => clean 1 s a = true) (s := .init fun _ => .main)
    [.addHandler 1 5, .run 0 none 0, .waitReturns 0 [5], .run 0 none 0, .run 0 none 0, .more 0 none,
      .evRemove 0, .run 0 none 0, .dropRef 1, .finish 0 false, .run 0 none 0, .run 0 none 0,
      .run 0 none 0, .run 0 none 0, .addHandler 2 5, .run 0 none 0, .waitReturns 0 [5],
      .run 0 none 0, .run 0 none 0]
    (fun s => s.fdOwner 5 == some 2 && s.delivered.contains (2, 2)) rfl (by decide)
  simp only [Bool.and_eq_true, beq_iff_eq, List.contains_iff_mem] at hq
  exact ⟨s, hs, hq.1, hq.2, fun x hx => delivery_genuine hs hx⟩

/-- Handler 1 calls `more()` and `remove()` and returns, its descriptor is closed and its number given
to handler 2: the event left in `m_more_queue` is delivered to handler 2. -/
theorem delivery_stale : ∃ s,
    (loopSystem 1 fun _ => .main).Reachable (fun _ _ => True) s ∧ (1, 2) ∈ s.delivered := by
  obtain ⟨s, hs, hq⟩ := System.exists_reachable_of_exec (S := loopSystem 1 fun _ => .main)
    (P := fun _ _ => True) (s := .init fun _ => .main)
    [.addHandler 1 5, .run 0 none 0, .waitReturns 0 [5], .run 0 none 0, .run 0 none 0, .more 0 none,
      .evRemove 0, .run 0 none 0, .dropRef 1, .finish 0 false, .addHandler 2 5, .run 0 none 0,
      .run 0 none 0]
    (fun s => s.delivered.contains (1, 2)) rfl (by decide)
  exact ⟨s, hs, by simpa using hq⟩

end Mpio.Wavy.Loop
