import Mpio.Wavy.Loop.Registry

/-!
# Removing a registration

`remove_handler` and `remove_timer` reset the slot and then take the descriptor out of epoll. The reset
may close the descriptor, and another thread may be given its number before the second step, which then
hits the registration of that thread (`registration_lost`).

As long as no call registers a number in epoll while a removal of that number is between its two steps,
a removal touches nothing but what was registered when it was called (`registration_kept`). The invariant
is `Kept`: a removal under way has in front of it no registration but its targets.
-/

namespace Mpio.Wavy.Loop

open Lib

variable {N : ℕ} {s s' : State} {a : Action}

/-- The calls that add and remove handlers and timers, and references dropped outside. -/
def Action.registering : Action → Bool
  | .addBegin kind _ _ | .addEnd kind _ | .removeBegin kind _ | .removeEnd kind _ => kind != .signal
  | .keepRef _ | .dropRef _ => true
  | _ => false

/-- No removal of `i` is between its two steps. -/
def State.quiet (s : State) (i : ℕ) : Bool := s.removals.all (·.2 != i)

/-- The call does not register a descriptor in epoll while a removal of it is under way. -/
def apart (s : State) : Action → Bool
  | .addBegin .timer _ i => s.quiet i
  | .addEnd .handler h => s.quiet (s.identOf h)
  | _ => true

theorem State.quiet_iff {i : ℕ} : s.quiet i = true ↔ ∀ kind j, (kind, j) ∈ s.removals → j ≠ i := by
  simp [State.quiet]

/-- What nobody has asked to remove is registered. -/
structure Kept (s : State) : Prop where
  slot : ∀ h, s.targets h = false → s.add h = .published ∨ s.add h = .returned →
    s.slot (s.identOf h) = some h
  interest : ∀ h, s.targets h = false → s.add h = .registered ∨ s.add h = .returned →
    (s.interest (s.identOf h)).map (·.owner) = some h
  removing : ∀ kind i h, (kind, i) ∈ s.removals → s.targets h = false →
    (s.interest i).map (·.owner) ≠ some h

theorem Kept.init (kinds : ℕ → Kind) : Kept (.init kinds) where
  slot h _ ha := by
    by_cases h0 : h = outIdent
    · simp [State.init, h0]
    · simp [State.init, h0] at ha
  interest h _ ha := by
    by_cases h0 : h = outIdent
    · simp [State.init, h0]
    · simp [State.init, h0] at ha
  removing kind i h hm := by cases hm

theorem Owned.of_owner (ho : Owned N s) {i h : ℕ}
    (hr : (s.interest i).map (·.owner) = some h) : s.fdOwner i = some h := by
  obtain ⟨r, hr', rfl⟩ := Option.map_eq_some_iff.mp hr
  exact ho.interest i r hr'

/-- Closing a descriptor whose handler nobody refers to touches no registration that counts. -/
theorem Kept.settle (hk : Kept s) (ho : Owned N s) (h : ℕ) : Kept (settle N h s) := by
  obtain hs | ⟨hown, ha, hs⟩ := settle_cases N h s
  · rw [hs]
    exact hk
  rw [hs]
  obtain ⟨hext, hslot, -⟩ := alive_eq_false ha
  refine ⟨hk.slot, fun h' ht hadd => ?_, fun kind i h' hm ht => ?_⟩
  · show (Function.update s.interest (s.identOf h) none (s.identOf h')).map _ = some h'
    have hreg := hk.interest h' ht hadd
    have hne : s.identOf h' ≠ s.identOf h := by
      intro heq
      rw [heq] at hreg
      obtain rfl : h' = h := Option.some.inj ((ho.of_owner hreg).symm.trans hown)
      obtain hadd | hadd := hadd
      · have hext' := ho.adding h' (.inr hadd)
        rw [hext] at hext'
        cases hext'
      · exact hslot (hk.slot h' ht (.inr hadd))
    rw [Function.update_of_ne hne]
    exact hreg
  · show (Function.update s.interest (s.identOf h) none i).map _ ≠ some h'
    by_cases hi : i = s.identOf h
    · rw [hi, Function.update_self]
      simp
    · rw [Function.update_of_ne hi]
      exact hk.removing kind i h' hm ht

theorem Kept.settle? (hk : Kept s) (ho : Owned N s) (h : Option ℕ) : Kept (settle? N h s) := by
  cases h with
  | none => exact hk
  | some h => exact hk.settle ho h

/-! ## The steps -/

theorem stage_of_ne {f : ℕ → AddStage} {h h' : ℕ} {stage x y : AddStage} (hh : h' ≠ h)
    (ha : Function.update f h stage h' = x ∨ Function.update f h stage h' = y) :
    f h' = x ∨ f h' = y := by
  rwa [Function.update_of_ne hh] at ha

theorem Kept.publish {h i : ℕ} {s₁ : State} (hk : Kept s) (ho : Owned N s)
    (hc : create s h i = some s₁) : Kept (setAdd (setHandler N s₁ h) h .published) := by
  obtain ⟨-, hfree, -⟩ := create_cases hc
  rw [publish_eq ho hc]
  refine ⟨fun h' ht hadd => ?_, fun h' ht hadd => ?_, hk.removing⟩
  · show Function.update s.slot i (some h) (Function.update s.identOf h i h') = some h'
    by_cases hh : h' = h
    · rw [hh, Function.update_self, Function.update_self]
    · replace hadd := stage_of_ne hh hadd
      rw [Function.update_of_ne hh]
      have hslot := hk.slot h' ht hadd
      have hne : s.identOf h' ≠ i := by
        intro heq
        rw [heq, ho.slot_none hfree] at hslot
        cases hslot
      rw [Function.update_of_ne hne]
      exact hslot
  · show (s.interest (Function.update s.identOf h i h')).map _ = some h'
    have hh : h' ≠ h := by
      rintro rfl
      change Function.update s.add h' .published h' = _ ∨ _ at hadd
      rw [Function.update_self] at hadd
      simp [State.enrol] at hadd
    replace hadd := stage_of_ne hh hadd
    rw [Function.update_of_ne hh]
    exact hk.interest h' ht hadd

theorem Kept.register {h i : ℕ} {s₁ : State} (hk : Kept s) (ho : Owned N s)
    (hc : create s h i = some s₁) (hq : s.quiet i = true) :
    Kept (setAdd (addFd s₁ i h) h .registered) := by
  obtain ⟨-, hfree, -⟩ := create_cases hc
  rw [register_eq ho hc]
  refine ⟨fun h' ht hadd => ?_, fun h' ht hadd => ?_, fun kind j h' hm ht => ?_⟩
  · show s.slot (Function.update s.identOf h i h') = some h'
    have hh : h' ≠ h := by
      rintro rfl
      change Function.update s.add h' .registered h' = _ ∨ _ at hadd
      rw [Function.update_self] at hadd
      simp [State.enrol] at hadd
    replace hadd := stage_of_ne hh hadd
    rw [Function.update_of_ne hh]
    exact hk.slot h' ht hadd
  · show (Function.update s.interest i (some ⟨true, h⟩) (Function.update s.identOf h i h')).map _ =
      some h'
    by_cases hh : h' = h
    · rw [hh, Function.update_self, Function.update_self]
      rfl
    · replace hadd := stage_of_ne hh hadd
      rw [Function.update_of_ne hh]
      have hreg := hk.interest h' ht hadd
      have hne : s.identOf h' ≠ i := by
        intro heq
        rw [heq, ho.interest_none hfree] at hreg
        cases hreg
      rw [Function.update_of_ne hne]
      exact hreg
  · show (Function.update s.interest i (some ⟨true, h⟩) j).map _ ≠ some h'
    rw [Function.update_of_ne (State.quiet_iff.mp hq kind j hm)]
    exact hk.removing kind j h' hm ht

theorem Kept.registerEnd {h : ℕ} (hk : Kept s) (ho : Owned N s) (ha : s.add h = .published)
    (hq : s.quiet (s.identOf h) = true) :
    Kept (setAdd (addFd s (s.identOf h) h) h .returned) := by
  have hown := ho.ext h (ho.adding h (.inl ha))
  refine ⟨fun h' ht hadd => ?_, fun h' ht hadd => ?_, fun kind j h' hm ht => ?_⟩
  · show s.slot (s.identOf h') = some h'
    by_cases hh : h' = h
    · exact hk.slot h' ht (.inl (hh ▸ ha))
    · replace hadd := stage_of_ne hh hadd
      exact hk.slot h' ht hadd
  · show (Function.update s.interest (s.identOf h) _ (s.identOf h')).map _ = some h'
    by_cases hh : h' = h
    · subst hh
      rw [Function.update_self]
      cases hreg : s.interest (s.identOf h') with
      | none => rfl
      | some r =>
        have hr := ho.interest _ r hreg
        rw [hown, Option.some.injEq] at hr
        simp [hr]
    · replace hadd := stage_of_ne hh hadd
      have hreg := hk.interest h' ht hadd
      have hne : s.identOf h' ≠ s.identOf h := by
        intro heq
        rw [heq] at hreg
        exact hh (Option.some.inj ((ho.of_owner hreg).symm.trans hown))
      rw [Function.update_of_ne hne]
      exact hreg
  · show (Function.update s.interest (s.identOf h) _ j).map _ ≠ some h'
    rw [Function.update_of_ne (State.quiet_iff.mp hq kind j hm)]
    exact hk.removing kind j h' hm ht

theorem Kept.publishEnd {h : ℕ} (hk : Kept s) (ho : Owned N s) (ha : s.add h = .registered) :
    Kept (setAdd (setHandler N s h) h .returned) := by
  have hown := ho.ext h (ho.adding h (.inr ha))
  have hsame : ∀ h', s.fdOwner (s.identOf h) = some h' → h' = h := fun h' ho' =>
    Option.some.inj (ho'.symm.trans hown)
  rw [setHandler_eq fun h' hs => hsame h' (ho.slot _ h' hs)]
  refine ⟨fun h' ht hadd => ?_, fun h' ht hadd => ?_, hk.removing⟩
  · show Function.update s.slot (s.identOf h) (some h) (s.identOf h') = some h'
    by_cases hh : h' = h
    · rw [hh, Function.update_self]
    · have hslot := hk.slot h' ht (stage_of_ne hh hadd)
      have hne : s.identOf h' ≠ s.identOf h := by
        intro heq
        rw [heq] at hslot
        exact hh (hsame h' (ho.slot _ h' hslot))
      rw [Function.update_of_ne hne]
      exact hslot
  · by_cases hh : h' = h
    · exact hk.interest h' ht (.inl (hh ▸ ha))
    · exact hk.interest h' ht (stage_of_ne hh hadd)

theorem Kept.removeBegin {kind : SourceKind} {i : ℕ} (hk : Kept s) (ho : Owned N s) :
    Kept (resetHandler N i { target s i with removals := (kind, i) :: s.removals }) := by
  have htarget : ∀ h, (target s i).targets h = false →
      s.targets h = false ∧ s.slot i ≠ some h ∧ (s.interest i).map (·.owner) ≠ some h := by
    intro h ht
    simpa [target, Bool.or_eq_false_iff, and_assoc] using ht
  have ho' : Owned N { target s i with
      removals := (kind, i) :: s.removals
      slot := Function.update s.slot i none } := by
    refine ⟨ho.ident, ho.fresh, ho.interest, fun j h hj => ?_, ho.ext, ho.adding, ho.held⟩
    change Function.update s.slot i none j = some h at hj
    by_cases hji : j = i
    · rw [hji, Function.update_self] at hj
      cases hj
    · rw [Function.update_of_ne hji] at hj
      exact ho.slot j h hj
  apply Kept.settle? _ ho'
  refine ⟨fun h ht hadd => ?_, fun h ht => hk.interest h (htarget h ht).1, fun kind' j h hm ht => ?_⟩
  · obtain ⟨ht, hslot, -⟩ := htarget h ht
    have hold := hk.slot h ht hadd
    show Function.update s.slot i none (s.identOf h) = some h
    have hne : s.identOf h ≠ i := by
      rintro rfl
      exact hslot hold
    rw [Function.update_of_ne hne]
    exact hold
  · obtain ⟨ht, -, hreg⟩ := htarget h ht
    obtain heq | hm := List.mem_cons.mp hm
    · rw [(Prod.mk.inj heq).2]
      exact hreg
    · exact hk.removing kind' j h hm ht

theorem Kept.removeEnd {kind : SourceKind} {i : ℕ} (hk : Kept s) (hm : (kind, i) ∈ s.removals) :
    Kept (removeFd { s with removals := s.removals.erase (kind, i) } i) := by
  refine ⟨hk.slot, fun h ht hadd => ?_, fun kind' j h hm' ht => ?_⟩
  · show (Function.update s.interest i none (s.identOf h)).map _ = some h
    have hreg := hk.interest h ht hadd
    have hne : s.identOf h ≠ i := by
      rintro rfl
      exact hk.removing kind _ h hm ht hreg
    rw [Function.update_of_ne hne]
    exact hreg
  · show (Function.update s.interest i none j).map _ ≠ some h
    by_cases hji : j = i
    · rw [hji, Function.update_self]
      simp
    · rw [Function.update_of_ne hji]
      exact hk.removing kind' j h (List.mem_of_mem_erase hm') ht

theorem Step.registers_of (h : Step N s a s') (ha : a.registering = true) :
    Registers N s a s' := by
  cases h with
  | registers h => exact h
  | dispatches htN h => cases h <;> cases ha
  | _ => cases ha

theorem Kept.step (hk : Kept s) (ho : Owned N s) (ha : a.registering = true)
    (hq : apart s a = true) (h : Step N s a s') : Kept s' := by
  cases h.registers_of ha with
  | addHandler hc => cases ha
  | publish hc => exact hk.publish ho hc
  | @register kind h i s₁ hkind hc =>
    cases kind with
    | handler => exact absurd rfl hkind
    | timer => exact hk.register ho hc hq
    | signal => cases ha
  | registerEnd hadd => exact hk.registerEnd ho hadd hq
  | publishEnd hkind hadd => exact hk.publishEnd ho hadd
  | removeBegin hkind hi => exact hk.removeBegin ho
  | removeSignalBegin hi => cases ha
  | removeEnd hkind hm => exact hk.removeEnd hm
  | removeSignalEnd hm => cases ha
  | keepRef hadd hl => exact ⟨hk.slot, hk.interest, hk.removing⟩
  | dropRef hadd =>
    refine Kept.settle ?_ (ho.dropExt hadd) _
    exact ⟨hk.slot, hk.interest, hk.removing⟩

theorem reachable_kept {kinds : ℕ → Kind}
    (h : (loopSystem N kinds).Reachable
      (fun s a => a.registering = true ∧ apart s a = true) s) : Kept s :=
  h.invariant (fun _ hs => hs ▸ .init kinds) fun _ _ _ hr hk hP hs =>
    hk.step (reachable_owned hr) hP.1 hP.2 (step_cases hs)

/-- A handler or timer that no removal was called for stays in its slot and registered in epoll. -/
theorem registration_kept {kinds : ℕ → Kind}
    (hr : (loopSystem N kinds).Reachable
      (fun s a => a.registering = true ∧ apart s a = true) s) {h : ℕ} (ht : s.targets h = false) :
    (s.add h = .published ∨ s.add h = .returned → s.slot (s.identOf h) = some h) ∧
    (s.add h = .registered ∨ s.add h = .returned →
      (s.interest (s.identOf h)).map (·.owner) = some h) :=
  ⟨(reachable_kept hr).slot h ht, (reachable_kept hr).interest h ht⟩

/-- Handler 1 has descriptor 5 and is removed; 2 is given the number afterwards. -/
theorem registration_kept_reused : ∃ s,
    (loopSystem 0 fun _ => .main).Reachable
      (fun s a => a.registering = true ∧ apart s a = true) s ∧
    s.targets 1 = true ∧ s.targets 2 = false ∧ s.identOf 2 = 5 ∧ s.add 2 = .returned ∧
    s.slot 5 = some 2 ∧ (s.interest 5).map (·.owner) = some 2 := by
  obtain ⟨s, hs, hq⟩ := System.exists_reachable_of_exec (S := loopSystem 0 fun _ => .main)
    (P := fun s a => a.registering = true ∧ apart s a = true) (s := .init fun _ => .main)
    [.addBegin .handler 1 5, .addEnd .handler 1, .dropRef 1, .removeBegin .handler 5,
      .removeEnd .handler 5, .addBegin .timer 2 5, .addEnd .timer 2]
    (fun s => s.targets 1 && !s.targets 2 && s.identOf 2 == 5 && s.add 2 == .returned) rfl
    (by decide)
  simp only [Bool.and_eq_true, Bool.not_eq_true', beq_iff_eq] at hq
  obtain ⟨⟨⟨ht₁, ht₂⟩, hident⟩, hadd⟩ := hq
  obtain ⟨hslot, hreg⟩ := registration_kept hs ht₂
  have hslot' := hslot (.inr hadd)
  have hreg' := hreg (.inr hadd)
  rw [hident] at hslot' hreg'
  exact ⟨s, hs, ht₁, ht₂, hident, hadd, hslot', hreg'⟩

/-- The descriptor of handler 1 is closed by the first step of its removal, handler 2 is added under
the same number, and the second step takes it out of epoll. -/
theorem registration_lost : ∃ s,
    (loopSystem 0 fun _ => .main).Reachable (fun _ a => a.registering = true) s ∧
    s.targets 2 = false ∧ s.add 2 = .returned ∧ s.slot (s.identOf 2) = some 2 ∧
    s.interest (s.identOf 2) = none := by
  obtain ⟨s, hs, hq⟩ := System.exists_reachable_of_exec (S := loopSystem 0 fun _ => .main)
    (P := fun _ a => a.registering = true) (s := .init fun _ => .main)
    [.addBegin .handler 1 5, .addEnd .handler 1, .dropRef 1, .removeBegin .handler 5,
      .addBegin .handler 2 5, .addEnd .handler 2, .removeEnd .handler 5]
    (fun s => !s.targets 2 && s.add 2 == .returned && s.slot (s.identOf 2) == some 2 &&
      s.interest (s.identOf 2) == none) rfl (by decide)
  simp only [Bool.and_eq_true, Bool.not_eq_true', beq_iff_eq] at hq
  obtain ⟨⟨⟨ht, hadd⟩, hslot⟩, hreg⟩ := hq
  exact ⟨s, hs, ht, hadd, hslot, hreg⟩

end Mpio.Wavy.Loop
