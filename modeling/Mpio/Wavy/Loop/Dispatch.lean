import Mpio.Wavy.Loop.Ledger

/-!
# One token for every source

* `dispatch_token`: with `add_handler` taken as one step and nothing removed from outside there is one
  poller, no event of the backlog is lost or taken twice, and every registered descriptor has exactly one
  token.
* `source_kept`: with the add calls in two steps, a source that has been added keeps its slot and its
  token as long as its callback has not returned false, provided that nobody looks up its handler before
  it is published. Timers and signals are registered first and published afterwards, and an event that
  is dispatched in between removes the registration (`source_lost`).
-/

namespace Mpio.Wavy.Loop

open Lib

variable {N : ℕ} {s s' : State} {a : Action} {kinds : ℕ → Kind}

/-! ## Adding in two steps -/

/-- A source whose add call has returned and whose callback has not returned false is in its slot, and
has one token. -/
theorem source_kept
    (hr : (loopSystem N kinds).Reachable
      (fun s a => a.removing = false ∧ lookupReady s a = true) s) {h : ℕ}
    (ha : s.add h = .returned) (hs : s.stopped h = false) :
    s.slot (s.identOf h) = some h ∧ (s.interest (s.identOf h)).map (·.owner) = some h ∧
      tokens N s (s.identOf h) = 1 := by
  have hl := reachable_ledger hr
  have ho := reachable_owned hr
  obtain ⟨hslot, hsome⟩ := hl.filed.returned h ha hs
  refine ⟨hslot, ?_, ?_⟩
  · obtain ⟨r, hreg⟩ := Option.isSome_iff_exists.mp hsome
    rw [hreg, Option.map_some, ← ho.interest _ r hreg]
    exact ho.slot _ h hslot
  · rw [hl.tokens, State.present, if_pos hsome]

/-- A timer fires after it has been added, while a handler is between publication and registration. -/
theorem source_kept_timer : ∃ s,
    (loopSystem 2 fun _ => .main).Reachable
      (fun s a => a.removing = false ∧ lookupReady s a = true) s ∧
    s.add 2 = .published ∧ s.delivered = [(1, 1)] ∧ s.slot 5 = some 1 ∧ tokens 2 s 5 = 1 := by
  obtain ⟨s, hs, hq⟩ := System.exists_reachable_of_exec (S := loopSystem 2 fun _ => .main)
    (P := fun s a => a.removing = false ∧ lookupReady s a = true) (s := .init fun _ => .main)
    [.addBegin .timer 1 5, .run 0 none 0, .waitReturns 0 [5], .addEnd .timer 1, .run 0 none 0,
      .addBegin .handler 2 6, .run 0 none 0]
    (fun s => s.add 1 == .returned && !s.stopped 1 && s.identOf 1 == 5 && s.add 2 == .published &&
      s.delivered == [(1, 1)]) rfl (by decide)
  simp only [Bool.and_eq_true, Bool.not_eq_true', beq_iff_eq] at hq
  obtain ⟨⟨⟨⟨ha, hstop⟩, hident⟩, hpub⟩, hdel⟩ := hq
  obtain ⟨hslot, -, htok⟩ := source_kept hs ha hstop
  rw [hident] at hslot htok
  exact ⟨s, hs, hpub, hdel, hslot, htok⟩

/-- A timer fires between its registration and its publication: the thread that dispatches the event
finds no handler and takes the timer out of epoll. -/
theorem source_lost : ∃ s,
    (loopSystem 1 fun _ => .main).Reachable (fun _ a => a.removing = false) s ∧
    s.add 1 = .returned ∧ s.stopped 1 = false ∧ s.delivered = [] ∧ tokens 1 s (s.identOf 1) = 0 := by
  obtain ⟨s, hs, hq⟩ := System.exists_reachable_of_exec (S := loopSystem 1 fun _ => .main)
    (P := fun _ a => a.removing = false) (s := .init fun _ => .main)
    [.addBegin .timer 1 5, .run 0 none 0, .waitReturns 0 [5], .run 0 none 0, .run 0 none 0,
      .run 0 none 0, .run 0 none 0, .addEnd .timer 1]
    (fun s => s.add 1 == .returned && !s.stopped 1 && s.delivered == [] &&
      tokens 1 s (s.identOf 1) == 0) rfl (by decide)
  simp only [Bool.and_eq_true, Bool.not_eq_true', beq_iff_eq] at hq
  obtain ⟨⟨⟨ha, hstop⟩, hdel⟩, htok⟩ := hq
  exact ⟨s, hs, ha, hstop, hdel, htok⟩

/-! ## Adding in one step -/

/-- `add_handler` is one step, and nothing is removed from outside or by `event::remove`. -/
def Action.simple : Action → Bool
  | .evRemove _ | .removeBegin _ _ | .removeEnd _ _ | .addBegin _ _ _ | .addEnd _ _ => false
  | _ => true

/-- No call of `add_*` is between its two steps. -/
def Whole (s : State) : Prop := ∀ h, s.add h = .fresh ∨ s.add h = .returned

theorem Whole.lookupReady (hw : Whole s) (a : Action) : Loop.lookupReady s a = true := by
  cases a with
  | run t wake k =>
    simp only [Loop.lookupReady]
    split
    · rename_i ke ht
      cases ho : s.fdOwner ke.ident with
      | none => rfl
      | some h => obtain ha | ha := hw h <;> simp [ha]
    · rfl
  | _ => rfl

theorem removing_of_simple (h : a.simple = true) : a.removing = false := by
  cases a <;> first | rfl | cases h

@[simp] theorem settle_add (N h : ℕ) (s : State) : (settle N h s).add = s.add := by
  unfold settle
  split_ifs <;> rfl

@[simp] theorem settle?_add (N : ℕ) (h : Option ℕ) (s : State) : (settle? N h s).add = s.add := by
  cases h <;> simp [settle?]

theorem Dispatches.add {t : ℕ} (h : Dispatches N s t a s') : s'.add = s.add := by
  cases h <;> simp [State.stop, resetHandler, reactivate, removeFd]

theorem Registers.add (h : Registers N s a s') (ha : a.simple = true) :
    s'.add = s.add ∨ ∃ h, s'.add = Function.update s.add h .returned := by
  cases h with
  | @addHandler h i s₁ hc =>
    obtain ⟨-, -, rfl⟩ := create_cases hc
    exact .inr ⟨h, by simp [setAdd, addFd, setHandler]⟩
  | keepRef ha hl => exact .inl rfl
  | dropRef ha => exact .inl (settle_add _ _ _)
  | _ => cases ha

theorem Step.add (h : Step N s a s') (ha : a.simple = true) :
    s'.add = s.add ∨ ∃ h, s'.add = Function.update s.add h .returned := by
  cases h with
  | locked htN h => exact .inl (by rw [h.toRegistry])
  | dispatches htN h => exact .inl h.add
  | more htN ht hf hs => exact .inl (by rw [setPc_toRegistry, hs.toRegistry])
  | submit hs => exact .inl (by rw [hs.toRegistry])
  | @outDone t empty htN ht => cases empty <;> exact .inl rfl
  | registers h => exact h.add ha
  | _ => exact .inl rfl

theorem Whole.step (hw : Whole s) (ha : a.simple = true) (h : Step N s a s') : Whole s' := by
  intro x
  obtain heq | ⟨y, heq⟩ := h.add ha
  · rw [heq]
    exact hw x
  · rw [heq]
    by_cases hxy : x = y
    · rw [hxy, Function.update_self]
      exact .inr rfl
    · rw [Function.update_of_ne hxy]
      exact hw x

theorem reachable_whole (hr : (loopSystem N kinds).Reachable (fun _ a => a.simple = true) s) :
    Whole s := by
  refine hr.invariant (fun _ hs h => ?_) fun _ _ _ _ hw ha hs => hw.step ha (step_cases hs)
  rw [hs]
  by_cases h0 : h = outIdent
  · exact .inr (if_pos h0)
  · exact .inl (if_neg h0)

/-- A handler that is in its slot is registered, or a thread that has taken it out of epoll is about to
clear the slot. -/
def Slotted (N : ℕ) (s : State) : Prop :=
  ∀ i h, s.slot i = some h → s.add h = .returned →
    (s.interest i).isSome = true ∨ ∃ t < N, ∃ ke x, s.pc t = .reset ke x ∧ ke.ident = i

theorem Slotted.frame (hi : Slotted N s)
    (hs : ∀ i h, s'.slot i = some h → s'.add h = .returned →
      (s'.interest i).isSome = true ∨ s.slot i = some h ∧ s.add h = .returned)
    (hr : ∀ i, (s.interest i).isSome = true → (s'.interest i).isSome = true ∨
      ∃ t < N, ∃ ke x, s'.pc t = .reset ke x ∧ ke.ident = i)
    (hp : ∀ t < N, ∀ ke x, s.pc t = .reset ke x → s'.pc t = .reset ke x ∨ s'.slot ke.ident = none) :
    Slotted N s' := by
  intro i h hslot hadd
  obtain hsome | ⟨hslot', hadd'⟩ := hs i h hslot hadd
  · exact .inl hsome
  obtain hsome | ⟨t, htN, ke, x, ht, hke⟩ := hi i h hslot' hadd'
  · exact hr i hsome
  · obtain ht | hnone := hp t htN ke x ht
    · exact .inr ⟨t, htN, ke, x, ht, hke⟩
    · rw [hke, hslot] at hnone
      cases hnone

theorem Slotted.apart (hi : Slotted N s) (hslot : s'.slot = s.slot) (hadd : s'.add = s.add)
    (hr : ∀ i, (s'.interest i).isSome = (s.interest i).isSome) (hpc : Apart s s') :
    Slotted N s' := by
  refine hi.frame (fun i h hs ha => ?_) (fun i hsome => ?_) fun t _ ke x ht => ?_
  · rw [hslot] at hs
    rw [hadd] at ha
    exact .inr ⟨hs, ha⟩
  · exact .inl ((hr i).trans hsome)
  · obtain h | ⟨-, h⟩ := hpc t
    · exact .inl (h.trans ht)
    · rw [ht] at h
      cases h

theorem Slotted.moved {t : ℕ} (hi : Slotted N s) (hslot : s'.slot = s.slot) (hadd : s'.add = s.add)
    (hr : ∀ i, (s'.interest i).isSome = (s.interest i).isSome) (ht : ∀ ke x, s.pc t ≠ .reset ke x)
    (hpc : ∀ u, u ≠ t → s'.pc u = s.pc u) : Slotted N s' := by
  refine hi.frame (fun i h hs ha => ?_) (fun i hsome => ?_) fun u _ ke x hu => ?_
  · rw [hslot] at hs
    rw [hadd] at ha
    exact .inr ⟨hs, ha⟩
  · exact .inl ((hr i).trans hsome)
  · have hut : u ≠ t := by
      rintro rfl
      exact ht ke x hu
    exact .inl ((hpc u hut).trans hu)

theorem isSome_reactivate (j i : ℕ) :
    ((reactivate s j).interest i).isSome = (s.interest i).isSome := by
  by_cases hij : i = j
  · subst hij
    simp [reactivate]
  · simp [reactivate, hij]

theorem isSome_report (idents : List ℕ) (i : ℕ) :
    ((s.report idents).interest i).isSome = (s.interest i).isSome := by
  show (if i ∈ idents then _ else s.interest i : Option Reg).isSome = _
  split_ifs
  · exact Option.isSome_map
  · rfl

theorem Slotted.drop {t : ℕ} {ke : Event} {x : Option ℕ} (hi : Slotted N s) (htN : t < N)
    (ht : s.pc t = .drop ke x) : Slotted N ((removeFd s ke.ident).setPc t (.reset ke x)) := by
  refine hi.frame (fun i h hs ha => .inr ⟨hs, ha⟩) (fun i hsome => ?_) fun u _ ke' x' hu => ?_
  · by_cases hik : i = ke.ident
    · exact .inr ⟨t, htN, ke, x, pc_setPc_self _ _ _, hik.symm⟩
    · refine .inl ?_
      show (Function.update s.interest ke.ident none i).isSome = true
      rwa [Function.update_of_ne hik]
  · have hut : u ≠ t := by
      rintro rfl
      rw [ht] at hu
      cases hu
    exact .inl ((pc_setPc_of_ne hut _ _).trans hu)

theorem Slotted.reset {t : ℕ} {ke : Event} {x : Option ℕ} {f : ℕ → Option ℕ} (hi : Slotted N s)
    (ht : s.pc t = .reset ke x) :
    Slotted N ({ s with slot := Function.update s.slot ke.ident none, fdOwner := f }.back t) := by
  refine hi.frame (fun i h hs ha => ?_) (fun i hsome => .inl hsome) fun u _ ke' x' hu => ?_
  · change Function.update s.slot ke.ident none i = some h at hs
    have hik : i ≠ ke.ident := by
      rintro rfl
      rw [Function.update_self] at hs
      cases hs
    rw [Function.update_of_ne hik] at hs
    exact .inr ⟨hs, ha⟩
  · by_cases hut : u = t
    · subst hut
      rw [ht] at hu
      cases hu
      exact .inr (Function.update_self _ _ _)
    · exact .inl ((pc_setPc_of_ne hut _ _).trans hu)

theorem Slotted.dispatches {t : ℕ} (hi : Slotted N s) (hl : Ledger N s) (ho : Owned N s)
    (htN : t < N) (ha : a.removing = false) (h : Dispatches N s t a s') : Slotted N s' := by
  have hpc : ∀ u, u ≠ t → s'.pc u = s.pc u := fun u hu => h.pc_of_ne hu
  have hreset {p : Pc} (ht : s.pc t = p) (hp : ∀ ke x, p ≠ .reset ke x) :
      ∀ ke x, s.pc t ≠ .reset ke x := by
    rwa [ht]
  cases h with
  | rearmOut ht =>
    exact hi.moved rfl rfl (isSome_reactivate _) (hreset ht fun _ _ => Pc.noConfusion) hpc
  | dispatch ht hh =>
    exact hi.moved rfl rfl (fun _ => rfl) (hreset ht fun _ _ => Pc.noConfusion) hpc
  | dispatchEmpty ht hh =>
    exact hi.moved rfl rfl (fun _ => rfl) (hreset ht fun _ _ => Pc.noConfusion) hpc
  | evReset ht =>
    have horder := hl.filed.threads t htN
    rw [ht] at horder
    exact horder.elim
  | @rearm k wake ke h ht =>
    have hfiled : Filed N ((Loop.reactivate s ke.ident).back t) := (hl.filed.reactivate _).back
    obtain ⟨f, hf⟩ := settle_eq hfiled (ho.reactivate _).back h
    rw [hf] at hpc ⊢
    exact hi.moved rfl rfl (isSome_reactivate _) (hreset ht fun _ _ => Pc.noConfusion) hpc
  | drop ht => exact hi.drop htN ht
  | reset ht =>
    obtain ⟨-, f, hf⟩ := hl.filed.reset_eq ho htN ht
    rw [hf]
    exact hi.reset ht
  | next ht hf =>
    exact hi.moved rfl rfl (isSome_reactivate _) (hreset ht fun _ _ => Pc.noConfusion) hpc
  | evRemove ht hf => cases ha
  | @finish ke h flags cont ht hf =>
    have hfiled : Filed N ((s.stop h cont).back t) := (hl.filed.stop h cont).back
    obtain ⟨f, hf⟩ := settle_eq hfiled (ho.stop h cont).back h
    rw [hf] at hpc ⊢
    exact hi.moved rfl rfl (fun _ => rfl) (hreset ht fun _ _ => Pc.noConfusion) hpc
  | finishRearm ht hf | finishDrop ht hf =>
    exact hi.moved rfl rfl (fun _ => rfl) (hreset ht fun _ _ => Pc.noConfusion) hpc

theorem Slotted.registers (hi : Slotted N s) (hl : Ledger N s) (ho : Owned N s)
    (ha : a.simple = true) (h : Registers N s a s') : Slotted N s' := by
  have hpc := h.pc
  cases h with
  | @addHandler h i s₁ hc =>
    have heq := addHandler_eq ho hc
    have hnew : ∀ j, (Function.update s.interest i (some ⟨true, h⟩) j).isSome = true ∨
        j ≠ i ∧ Function.update s.interest i (some ⟨true, h⟩) j = s.interest j := by
      intro j
      by_cases hji : j = i
      · rw [hji, Function.update_self]
        exact .inl rfl
      · exact .inr ⟨hji, Function.update_of_ne hji _ _⟩
    rw [heq] at hpc ⊢
    refine hi.frame (fun j x hs hadd => ?_) (fun j hsome => .inl ?_) fun u _ ke x hu =>
      .inl ((hpc u).trans hu)
    · refine (hnew j).imp_right fun ⟨hji, _⟩ => ?_
      change Function.update s.slot i (some h) j = some x at hs
      change Function.update s.add h .returned x = .returned at hadd
      rw [Function.update_of_ne hji] at hs
      have hx : x ≠ h := by
        rintro rfl
        exact ho.fresh j x (ho.slot j x hs) (create_cases hc).1
      rw [Function.update_of_ne hx] at hadd
      exact ⟨hs, hadd⟩
    · obtain hsome' | ⟨-, hsame⟩ := hnew j
      · exact hsome'
      · show (Function.update s.interest i (some ⟨true, h⟩) j).isSome = true
        rw [hsame, hsome]
  | keepRef hadd hlive => exact hi
  | @dropRef h hadd =>
    have hfiled : Filed N { s with ext := Function.update s.ext h false } :=
      ⟨hl.filed.published, hl.filed.registered, hl.filed.returned, hl.filed.live, hl.filed.threads⟩
    obtain ⟨f, hf⟩ := settle_eq hfiled (ho.dropExt hadd) h
    rw [hf]
    exact hi
  | _ => cases ha

theorem Slotted.step (hi : Slotted N s) (hl : Ledger N s) (ho : Owned N s) (ha : a.simple = true)
    (h : Step N s a s') : Slotted N s' := by
  cases h with
  | locked htN h =>
    have hreg := h.toRegistry
    exact hi.apart (by rw [hreg]) (by rw [hreg]) (fun i => by rw [hreg]) h.apart
  | dispatches htN h => exact hi.dispatches hl ho htN (removing_of_simple ha) h
  | call htN hk ht => exact hi.apart rfl rfl (fun _ => rfl) (apart_call ht)
  | wakeup htN ht | timeout htN ht =>
    exact hi.apart rfl rfl (fun _ => rfl) (apart_setPc (atHandler_of ht rfl) rfl)
  | waitReturns htN ht hne hnodup harmed =>
    exact hi.apart rfl rfl (isSome_report _) (apart_report ht)
  | @outDone t empty htN ht =>
    cases empty
    · exact hi.apart rfl rfl (fun _ => rfl) (apart_setPc (atHandler_of ht rfl) (atHandler_back _))
    · exact hi.apart rfl rfl (fun _ => rfl) (apart_setPc (atHandler_of ht rfl) rfl)
  | @more t wake ke h flags s₁ htN ht hf hs =>
    have hreg := hs.toRegistry
    have hi₁ : Slotted N s₁ :=
      hi.apart (by rw [hreg]) (by rw [hreg]) (fun i => by rw [hreg]) fun u => hs.apart u
    refine hi₁.moved rfl rfl (fun _ => rfl) (fun ke' x ht' => ?_) fun u hu => pc_setPc_of_ne hu _ _
    have ht₁ : s₁.pc t = s.pc t := hs.pc_of_ne (u := t) fun hw => by
      change s.pc t = .waiting at hw
      rw [ht] at hw
      cases hw
    rw [ht₁, ht] at ht'
    cases ht'
  | submit hs =>
    have hreg := hs.toRegistry
    exact hi.apart (by rw [hreg]) (by rw [hreg]) (fun i => by rw [hreg]) fun u => hs.apart u
  | endBegin => exact hi
  | endReturn he => exact hi.apart rfl rfl (fun _ => rfl) apart_broadcast
  | registers h => exact hi.registers hl ho ha h

section whole

variable (hr : (loopSystem N kinds).Reachable (fun _ a => a.simple = true) s)
include hr

theorem reachable_ledger_of_simple : Ledger N s :=
  reachable_ledger (hr.mono fun _ a hr ha =>
    ⟨removing_of_simple ha, (reachable_whole hr).lookupReady a⟩)

theorem reachable_slotted : Slotted N s := by
  refine hr.invariant (fun _ hs i h hslot _ => .inl ?_) fun _ _ _ hr hi ha hs =>
    hi.step (reachable_ledger_of_simple hr) (reachable_owned hr) ha (step_cases hs)
  rw [hs] at hslot ⊢
  by_cases h0 : i = outIdent
  · simp [State.init, h0]
  · simp [State.init, h0] at hslot

/-- What has been reported is what has been taken, in this order, and what is still to be taken. -/
theorem reachable_reported : ∃ rest, s.reported = s.taken ++ rest ∧
    (∀ t < N, ∀ evs, s.pc t = .polled evs → s.backlog = evs ∧ rest = evs) ∧
    ((∀ t < N, ∀ evs, s.pc t ≠ .polled evs) → rest = s.rest) := by
  have hh := reachable_handed hr
  by_cases hp : ∃ t < N, ∃ evs, s.pc t = .polled evs
  · obtain ⟨t, htN, evs, ht⟩ := hp
    obtain ⟨hb, hrep⟩ := hh.polled t htN evs ht
    refine ⟨evs, hrep, fun u huN evs' hu => ?_, fun hno => absurd ht (hno t htN evs)⟩
    have hb' := (hh.polled u huN evs' hu).1
    exact ⟨hb', hb.symm.trans hb'⟩
  · have hno : ∀ t < N, ∀ evs, s.pc t ≠ .polled evs := fun t htN evs ht => hp ⟨t, htN, evs, ht⟩
    obtain ⟨hnum, hrep⟩ := hh.rest hno
    refine ⟨s.backlog.drop s.off, hrep, fun t htN evs ht => absurd ht (hno t htN evs), fun _ => ?_⟩
    unfold State.rest
    rw [hnum, List.take_length]

end whole

/-- One thread polls at a time; every event the kernel has reported is taken from the backlog once, or is
still there; every registered descriptor has one token and no other has any; a descriptor whose handler
is in its slot is registered, unless a thread that has removed it is about to clear the slot. -/
theorem dispatch_token (hr : (loopSystem N kinds).Reachable (fun _ a => a.simple = true) s) :
    (∀ t < N, (s.pc t).mode = .leading →
      s.pollable = false ∧ ∀ u < N, (s.pc u).mode = .leading → u = t) ∧
    s.off ≤ s.num ∧
    (∃ rest, s.reported = s.taken ++ rest ∧
      (∀ t < N, ∀ evs, s.pc t = .polled evs → s.backlog = evs ∧ rest = evs) ∧
      ((∀ t < N, ∀ evs, s.pc t ≠ .polled evs) → rest = s.rest)) ∧
    (∀ i, tokens N s i ≤ 1 ∧ ((s.interest i).isSome = true ↔ tokens N s i = 1) ∧
      ∀ h, s.slot i = some h → (∀ t < N, ∀ ke x, s.pc t = .reset ke x → ke.ident ≠ i) →
        tokens N s i = 1) ∧
    ∀ h, s.add h = .returned → s.stopped h = false →
      s.slot (s.identOf h) = some h ∧ tokens N s (s.identOf h) = 1 := by
  have hled := reachable_led hr
  have hl := reachable_ledger_of_simple hr
  have ho := reachable_owned hr
  have hone : ∀ i, (s.interest i).isSome = true → tokens N s i = 1 := fun i hsome => by
    rw [hl.tokens, State.present, if_pos hsome]
  refine ⟨fun t htN ht => ⟨pollable_of_leading hled htN ht, fun u huN hu =>
    hled.unique u huN t htN hu ht⟩, (reachable_backlog hr).le, reachable_reported hr,
    fun i => ⟨?_, ⟨hone i, fun htok => ?_⟩, fun h hslot hno => hone i ?_⟩, fun h ha hs => ?_⟩
  · rw [hl.tokens, State.present]
    split_ifs <;> omega
  · by_contra hnone
    rw [hl.tokens, State.present, if_neg hnone] at htok
    cases htok
  · -- a handler in a slot has been added, and nobody is about to clear the slot
    have hadd : s.add h = .returned :=
      (reachable_whole hr h).resolve_left (ho.fresh i h (ho.slot i h hslot))
    obtain hsome | ⟨t, htN, ke, x, ht, hke⟩ := reachable_slotted hr i h hslot hadd
    · exact hsome
    · exact absurd hke (hno t htN ke x ht)
  · obtain ⟨hslot, hsome⟩ := hl.filed.returned h ha hs
    exact ⟨hslot, hone _ hsome⟩

/-- A handler calls `event::more` and its event is queued while the other thread polls. -/
theorem dispatch_token_more : ∃ s,
    (loopSystem 2 fun _ => .main).Reachable (fun _ a => a.simple = true) s ∧
    (s.pc 1).mode = .leading ∧ s.more = [⟨5, 1⟩] ∧ s.slot 5 = some 1 ∧ tokens 2 s 5 = 1 := by
  obtain ⟨s, hs, hq⟩ := System.exists_reachable_of_exec (S := loopSystem 2 fun _ => .main)
    (P := fun _ a => a.simple = true) (s := .init fun _ => .main)
    [.addHandler 1 5, .run 0 none 0, .waitReturns 0 [5], .run 0 none 0, .run 0 none 0, .run 1 none 0,
      .more 0 none]
    (fun s => (s.pc 1).mode == .leading && s.more == [⟨5, 1⟩] && s.add 1 == .returned &&
      !s.stopped 1 && s.identOf 1 == 5) rfl (by decide)
  simp only [Bool.and_eq_true, Bool.not_eq_true', beq_iff_eq] at hq
  obtain ⟨⟨⟨⟨hlead, hmore⟩, ha⟩, hstop⟩, hident⟩ := hq
  obtain ⟨-, -, -, -, htok⟩ := dispatch_token hs
  obtain ⟨hslot, hone⟩ := htok 1 ha hstop
  rw [hident] at hslot hone
  exact ⟨s, hs, hlead, hmore, hslot, hone⟩

end Mpio.Wavy.Loop
