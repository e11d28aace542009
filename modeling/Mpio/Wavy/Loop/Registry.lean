import Mpio.Wavy.Loop.Step

/-!
# Who owns a descriptor

In every run, whatever is called in whatever order, the registration and the slot of a descriptor belong
to the handler that has the descriptor open, and so does a `shared_ptr` held by a dispatch or outside
(`Owned`, `reachable_owned`). The reason is that the descriptor is closed by the destructor only, after
the last `shared_ptr` is gone.
-/

namespace Mpio.Wavy.Loop

open Lib

variable {N : ℕ} {s s' : State} {a : Action}

structure Owned (N : ℕ) (s : State) : Prop where
  ident : ∀ i h, s.fdOwner i = some h → s.identOf h = i
  fresh : ∀ i h, s.fdOwner i = some h → s.add h ≠ .fresh
  interest : ∀ i r, s.interest i = some r → s.fdOwner i = some r.owner
  slot : ∀ i h, s.slot i = some h → s.fdOwner i = some h
  ext : ∀ h, s.ext h = true → s.fdOwner (s.identOf h) = some h
  adding : ∀ h, s.add h = .published ∨ s.add h = .registered → s.ext h = true
  held : ∀ t < N, ∀ ke h, (s.pc t).held = some (ke, h) → s.fdOwner ke.ident = some h

theorem Owned.init (N : ℕ) (kinds : ℕ → Kind) : Owned N (.init kinds) where
  ident i h hi := by
    by_cases h0 : i = outIdent
    · exact h0.symm
    · simp [State.init, h0] at hi
  fresh i h hi := by
    by_cases h0 : i = outIdent
    · simp only [State.init, h0, if_true, Option.some.injEq] at hi
      simp [State.init, ← hi]
    · simp [State.init, h0] at hi
  interest i r hr := by
    by_cases h0 : i = outIdent
    · simp only [State.init, h0, if_true, Option.some.injEq] at hr
      simp [State.init, h0, ← hr]
    · simp [State.init, h0] at hr
  slot i h hs := by
    by_cases h0 : i = outIdent
    · simp only [State.init, h0, if_true, Option.some.injEq] at hs
      simp [State.init, h0, ← hs]
    · simp [State.init, h0] at hs
  ext h he := by
    have h0 : h = outIdent := by simpa [State.init] using he
    simp [State.init, h0]
  adding h ha := by
    by_cases h0 : h = outIdent <;> simp [State.init, h0] at ha
  held t _ ke h hh := by
    change (kinds t).back.held = some (ke, h) at hh
    cases hk : kinds t <;> rw [hk] at hh <;> cases hh

/-! ## The operations keep it -/

/-- Threads may have let go of handlers, nothing else has changed. -/
theorem Owned.frame (hi : Owned N s) (hr : s'.toRegistry = s.toRegistry)
    (hheld : ∀ t < N, ∀ x, (s'.pc t).held = some x → (s.pc t).held = some x) : Owned N s' where
  ident := by simpa only [hr] using hi.ident
  fresh := by simpa only [hr] using hi.fresh
  interest := by simpa only [hr] using hi.interest
  slot := by simpa only [hr] using hi.slot
  ext := by simpa only [hr] using hi.ext
  adding := by simpa only [hr] using hi.adding
  held t ht ke h hh := by
    rw [hr]
    exact hi.held t ht ke h (hheld t ht _ hh)

theorem Owned.setPc {t : ℕ} {p : Pc} (hi : Owned N s)
    (hp : ∀ ke h, p.held = some (ke, h) → s.fdOwner ke.ident = some h) : Owned N (s.setPc t p) := by
  refine ⟨hi.ident, hi.fresh, hi.interest, hi.slot, hi.ext, hi.adding, fun u hu ke h hh => ?_⟩
  by_cases hut : u = t
  · rw [hut, pc_setPc_self] at hh
    exact hp ke h hh
  · rw [pc_setPc_of_ne hut] at hh
    exact hi.held u hu ke h hh

theorem held_back (k : Kind) : k.back.held = none := by
  cases k <;> rfl

theorem Owned.back {t : ℕ} (hi : Owned N s) : Owned N (s.back t) := by
  refine hi.setPc fun ke h hh => ?_
  rw [held_back] at hh
  cases hh

theorem Owned.withInterest {f : ℕ → Option Reg} (hi : Owned N s)
    (hf : ∀ i r, f i = some r → s.fdOwner i = some r.owner) : Owned N { s with interest := f } :=
  ⟨hi.ident, hi.fresh, hf, hi.slot, hi.ext, hi.adding, hi.held⟩

theorem Owned.withSlot {f : ℕ → Option ℕ} (hi : Owned N s)
    (hf : ∀ i h, f i = some h → s.fdOwner i = some h) : Owned N { s with slot := f } :=
  ⟨hi.ident, hi.fresh, hi.interest, hf, hi.ext, hi.adding, hi.held⟩

theorem Owned.removeFd (hi : Owned N s) (i : ℕ) : Owned N (removeFd s i) := by
  apply hi.withInterest
  intro j r hr
  by_cases hj : j = i
  · rw [hj, Function.update_self] at hr
    cases hr
  · rw [Function.update_of_ne hj] at hr
    exact hi.interest j r hr

theorem Owned.reactivate (hi : Owned N s) (i : ℕ) : Owned N (reactivate s i) := by
  apply hi.withInterest
  intro j r hr
  by_cases hj : j = i
  · subst hj
    rw [Function.update_self] at hr
    obtain ⟨r', hr', rfl⟩ := Option.map_eq_some_iff.mp hr
    exact hi.interest j r' hr'
  · rw [Function.update_of_ne hj] at hr
    exact hi.interest j r hr

theorem Owned.addFd {i h : ℕ} (hi : Owned N s) (ho : s.fdOwner i = some h) :
    Owned N (addFd s i h) := by
  apply hi.withInterest
  intro j r hr
  by_cases hj : j = i
  · subst hj
    rw [Function.update_self, Option.some.injEq] at hr
    cases hreg : s.interest j with
    | none =>
      rw [hreg, Option.getD_none] at hr
      rw [ho, ← hr]
    | some r' =>
      rw [hreg, Option.getD_some] at hr
      exact hr ▸ hi.interest j r' hreg
  · rw [Function.update_of_ne hj] at hr
    exact hi.interest j r hr

theorem Owned.report (hi : Owned N s) (idents : List ℕ) : Owned N (s.report idents) := by
  have hf : Owned N { s with interest := fun i =>
      if i ∈ idents then (s.interest i).map fun r => ⟨false, r.owner⟩ else s.interest i } := by
    apply hi.withInterest
    intro j r hr
    split_ifs at hr
    · obtain ⟨r', hr', rfl⟩ := Option.map_eq_some_iff.mp hr
      exact hi.interest j r' hr'
    · exact hi.interest j r hr
  exact hf.frame rfl fun _ _ _ hx => hx

theorem alive_eq_false {h : ℕ} (ha : alive N s h = false) :
    s.ext h = false ∧ s.slot (s.identOf h) ≠ some h ∧
      ∀ t < N, ∀ ke, (s.pc t).held ≠ some (ke, h) := by
  simp only [alive, Bool.or_eq_false_iff, beq_eq_false_iff_ne, List.any_eq_false, List.mem_range,
    beq_iff_eq, ne_eq] at ha
  refine ⟨ha.1.1, ha.1.2, fun t ht ke hh => ha.2 t ht ?_⟩
  rw [hh]
  rfl

theorem alive_iff {h : ℕ} : alive N s h = true ↔
    s.ext h = true ∨ s.slot (s.identOf h) = some h ∨
      ∃ t < N, ∃ ke, (s.pc t).held = some (ke, h) := by
  simp only [alive, Bool.or_eq_true, beq_iff_eq, List.any_eq_true, List.mem_range, or_assoc,
    Option.map_eq_some_iff, Prod.exists, exists_eq_right]

theorem Owned.settle (hi : Owned N s) (h : ℕ) : Owned N (settle N h s) := by
  obtain hs | ⟨ho, ha, hs⟩ := settle_cases N h s
  · rw [hs]
    exact hi
  obtain ⟨hext, hslot, hheld⟩ := alive_eq_false ha
  rw [hs]
  -- whatever still has an owner is not at the closed descriptor
  have hkeep : ∀ i h', s.fdOwner i = some h' → h' ≠ h →
      Function.update s.fdOwner (s.identOf h) none i = some h' := by
    intro i h' hi' hne
    have hii : i ≠ s.identOf h := by
      rintro rfl
      exact hne (Option.some.inj (hi'.symm.trans ho))
    rwa [Function.update_of_ne hii]
  have hold : ∀ i h', Function.update s.fdOwner (s.identOf h) none i = some h' →
      s.fdOwner i = some h' := by
    intro i h' hi'
    by_cases hii : i = s.identOf h
    · rw [hii, Function.update_self] at hi'
      cases hi'
    · rwa [Function.update_of_ne hii] at hi'
  refine ⟨fun i h' hi' => hi.ident i h' (hold i h' hi'),
    fun i h' hi' => hi.fresh i h' (hold i h' hi'), fun i r hr => ?_, fun i h' hs' => ?_,
    fun h' he => ?_, hi.adding, fun t ht ke h' hh => ?_⟩
  · change Function.update s.interest (s.identOf h) none i = some r at hr
    have hii : i ≠ s.identOf h := by
      rintro rfl
      rw [Function.update_self] at hr
      cases hr
    rw [Function.update_of_ne hii] at hr
    show Function.update s.fdOwner (s.identOf h) none i = _
    rw [Function.update_of_ne hii]
    exact hi.interest i r hr
  · refine hkeep i h' (hi.slot i h' hs') ?_
    rintro rfl
    rw [hi.ident i h' (hi.slot i h' hs')] at hslot
    exact hslot hs'
  · refine hkeep _ h' (hi.ext h' he) ?_
    rintro rfl
    change s.ext h' = true at he
    rw [hext] at he
    cases he
  · refine hkeep _ h' (hi.held t ht ke h' hh) ?_
    rintro rfl
    exact hheld t ht ke hh

theorem Owned.settle? (hi : Owned N s) (h : Option ℕ) : Owned N (settle? N h s) := by
  cases h with
  | none => exact hi
  | some h => exact hi.settle h

theorem Owned.resetHandler (hi : Owned N s) (i : ℕ) : Owned N (resetHandler N i s) := by
  apply Owned.settle?
  apply hi.withSlot
  intro j h hj
  by_cases hji : j = i
  · rw [hji, Function.update_self] at hj
    cases hj
  · rw [Function.update_of_ne hji] at hj
    exact hi.slot j h hj

theorem Owned.setHandler {h : ℕ} (hi : Owned N s) (ho : s.fdOwner (s.identOf h) = some h) :
    Owned N (setHandler N s h) := by
  apply Owned.settle?
  apply hi.withSlot
  intro j h' hj
  by_cases hji : j = s.identOf h
  · rw [hji, Function.update_self, Option.some.injEq] at hj
    rw [hji, ho, hj]
  · rw [Function.update_of_ne hji] at hj
    exact hi.slot j h' hj

theorem Owned.setAdd {h : ℕ} {stage : AddStage} (hi : Owned N s) (hne : stage ≠ .fresh)
    (hext : s.ext h = true ∨ stage = .returned) : Owned N (setAdd s h stage) := by
  refine ⟨hi.ident, fun i h' ho => ?_, hi.interest, hi.slot, hi.ext, fun h' ha => ?_, hi.held⟩
  · show Function.update s.add h stage h' ≠ .fresh
    by_cases hh : h' = h
    · rwa [hh, Function.update_self]
    · rw [Function.update_of_ne hh]
      exact hi.fresh i h' ho
  · change Function.update s.add h stage h' = _ ∨ Function.update s.add h stage h' = _ at ha
    by_cases hh : h' = h
    · subst hh
      rw [Function.update_self] at ha
      obtain hext | rfl := hext
      · exact hext
      · simp at ha
    · rw [Function.update_of_ne hh] at ha
      exact hi.adding h' ha

theorem Owned.fdOwner_of_alive {h : ℕ} (hi : Owned N s) (hl : alive N s h = true) :
    s.fdOwner (s.identOf h) = some h := by
  obtain hext | hslot | ⟨t, ht, ke, hheld⟩ := alive_iff.mp hl
  · exact hi.ext h hext
  · exact hi.slot _ h hslot
  · have ho := hi.held t ht ke h hheld
    rwa [hi.ident _ h ho]

theorem Owned.keepExt {h : ℕ} (hi : Owned N s) (hl : alive N s h = true) :
    Owned N { s with ext := Function.update s.ext h true } := by
  refine ⟨hi.ident, hi.fresh, hi.interest, hi.slot, fun h' he => ?_, fun h' ha => ?_, hi.held⟩
  · change Function.update s.ext h true h' = true at he
    by_cases hh : h' = h
    · rw [hh]
      exact hi.fdOwner_of_alive hl
    · rw [Function.update_of_ne hh] at he
      exact hi.ext h' he
  · show Function.update s.ext h true h' = true
    by_cases hh : h' = h
    · rw [hh, Function.update_self]
    · rw [Function.update_of_ne hh]
      exact hi.adding h' ha

theorem Owned.dropExt {h : ℕ} (hi : Owned N s) (ha : s.add h = .returned) :
    Owned N { s with ext := Function.update s.ext h false } := by
  refine ⟨hi.ident, hi.fresh, hi.interest, hi.slot, fun h' he => ?_, fun h' ha' => ?_, hi.held⟩
  · change Function.update s.ext h false h' = true at he
    by_cases hh : h' = h
    · rw [hh, Function.update_self] at he
      cases he
    · rw [Function.update_of_ne hh] at he
      exact hi.ext h' he
  · show Function.update s.ext h false h' = true
    have hh : h' ≠ h := by
      rintro rfl
      change s.add h' = _ ∨ s.add h' = _ at ha'
      rw [ha] at ha'
      simp at ha'
    rw [Function.update_of_ne hh]
    exact hi.adding h' ha'

/-- A new handler object `h` for the descriptor `i`. -/
def State.enrol (s : State) (h i : ℕ) (stage : AddStage) : State :=
  { s with
    identOf := Function.update s.identOf h i
    fdOwner := Function.update s.fdOwner i (some h)
    ext := Function.update s.ext h true
    add := Function.update s.add h stage }

theorem Owned.enrol {h i : ℕ} {stage : AddStage} (hi : Owned N s) (hfresh : s.add h = .fresh)
    (hfree : s.fdOwner i = none) (hne : stage ≠ .fresh) : Owned N (s.enrol h i stage) := by
  have hneq : ∀ j h', s.fdOwner j = some h' → h' ≠ h := by
    rintro j h' hj rfl
    exact hi.fresh j h' hj hfresh
  have hkeep : ∀ j h', s.fdOwner j = some h' →
      Function.update s.fdOwner i (some h) j = some h' := by
    intro j h' hj
    have hji : j ≠ i := by
      rintro rfl
      rw [hfree] at hj
      cases hj
    rwa [Function.update_of_ne hji]
  have hold : ∀ j h', Function.update s.fdOwner i (some h) j = some h' →
      (j = i ∧ h' = h) ∨ s.fdOwner j = some h' := by
    intro j h' hj
    by_cases hji : j = i
    · rw [hji, Function.update_self, Option.some.injEq] at hj
      exact .inl ⟨hji, hj.symm⟩
    · rw [Function.update_of_ne hji] at hj
      exact .inr hj
  refine ⟨fun j h' hj => ?_, fun j h' hj => ?_, fun j r hr => hkeep j _ (hi.interest j r hr),
    fun j h' hs => hkeep j h' (hi.slot j h' hs), fun h' he => ?_, fun h' ha => ?_,
    fun t ht ke h' hh => hkeep _ h' (hi.held t ht ke h' hh)⟩
  · show Function.update s.identOf h i h' = j
    obtain ⟨rfl, rfl⟩ | hj := hold j h' hj
    · rw [Function.update_self]
    · rw [Function.update_of_ne (hneq j h' hj)]
      exact hi.ident j h' hj
  · show Function.update s.add h stage h' ≠ .fresh
    obtain ⟨-, rfl⟩ | hj := hold j h' hj
    · rwa [Function.update_self]
    · rw [Function.update_of_ne (hneq j h' hj)]
      exact hi.fresh j h' hj
  · show Function.update s.fdOwner i (some h) (Function.update s.identOf h i h') = some h'
    by_cases hh : h' = h
    · rw [hh, Function.update_self, Function.update_self]
    · change Function.update s.ext h true h' = true at he
      rw [Function.update_of_ne hh] at he ⊢
      exact hkeep _ h' (hi.ext h' he)
  · show Function.update s.ext h true h' = true
    by_cases hh : h' = h
    · rw [hh, Function.update_self]
    · change Function.update s.add h stage h' = _ ∨ Function.update s.add h stage h' = _ at ha
      rw [Function.update_of_ne hh] at ha ⊢
      exact hi.adding h' ha

/-! ## The add calls, explicitly -/

theorem Owned.interest_none (hi : Owned N s) {i : ℕ} (hfree : s.fdOwner i = none) :
    s.interest i = none := by
  by_contra hne
  obtain ⟨r, hr⟩ := Option.ne_none_iff_exists'.mp hne
  rw [hi.interest i r hr] at hfree
  cases hfree

theorem Owned.slot_none (hi : Owned N s) {i : ℕ} (hfree : s.fdOwner i = none) :
    s.slot i = none := by
  by_contra hne
  obtain ⟨h, hh⟩ := Option.ne_none_iff_exists'.mp hne
  rw [hi.slot i h hh] at hfree
  cases hfree

/-- A handler that is referenced stays open. -/
theorem settle_of_alive {h : ℕ} (ha : alive N s h = true) : settle N h s = s := by
  unfold settle
  rw [if_neg]
  rw [ha]
  simp

/-- Replacing a slot that is empty, or already holds `h`, closes nothing. -/
theorem setHandler_eq {h : ℕ} (hs : ∀ h', s.slot (s.identOf h) = some h' → h' = h) :
    setHandler N s h = { s with slot := Function.update s.slot (s.identOf h) (some h) } := by
  unfold setHandler
  cases hslot : s.slot (s.identOf h) with
  | none => rfl
  | some h' =>
    obtain rfl := hs h' hslot
    exact settle_of_alive (alive_iff.mpr (.inr (.inl (Function.update_self _ _ _))))

theorem setHandler_create {h i : ℕ} (hi : Owned N s) (hc : create s h i = some s') :
    setHandler N s' h = { s' with slot := Function.update s.slot i (some h) } := by
  obtain ⟨-, hfree, rfl⟩ := create_cases hc
  have hident : Function.update s.identOf h i h = i := Function.update_self _ _ _
  rw [setHandler_eq]
  · simp only [hident]
  · intro h' hs
    change s.slot (Function.update s.identOf h i h) = some h' at hs
    rw [hident, hi.slot_none hfree] at hs
    cases hs

theorem publish_eq {h i : ℕ} {stage : AddStage} (hi : Owned N s) (hc : create s h i = some s') :
    setAdd (setHandler N s' h) h stage =
      { s.enrol h i stage with slot := Function.update s.slot i (some h) } := by
  rw [setHandler_create hi hc]
  obtain ⟨-, -, rfl⟩ := create_cases hc
  rfl

theorem register_eq {h i : ℕ} {stage : AddStage} (hi : Owned N s) (hc : create s h i = some s') :
    setAdd (addFd s' i h) h stage =
      { s.enrol h i stage with interest := Function.update s.interest i (some ⟨true, h⟩) } := by
  obtain ⟨-, hfree, rfl⟩ := create_cases hc
  simp only [setAdd, addFd, hi.interest_none hfree, Option.getD_none, State.enrol]

theorem addHandler_eq {h i : ℕ} (hi : Owned N s) (hc : create s h i = some s') :
    setAdd (addFd (setHandler N s' h) i h) h .returned =
      { s.enrol h i .returned with
        slot := Function.update s.slot i (some h)
        interest := Function.update s.interest i (some ⟨true, h⟩) } := by
  rw [setHandler_create hi hc]
  obtain ⟨-, hfree, rfl⟩ := create_cases hc
  simp only [setAdd, addFd, hi.interest_none hfree, Option.getD_none, State.enrol]

/-! ## Every step keeps it -/

theorem held_entry (ke : Event) : ke.entry.held = none := by
  unfold Event.entry
  split_ifs <;> rfl

theorem Signalled.held (h : Signalled N s s') {u : ℕ} {x : Event × ℕ}
    (hx : (s'.pc u).held = some x) : (s.pc u).held = some x := by
  obtain hpc | ⟨-, hw⟩ := h.pc u
  · rwa [← hpc]
  · rw [hw] at hx
    cases hx

theorem held_setPc {t u : ℕ} {p : Pc} {x : Event × ℕ}
    (hp : p.held = some x → (s.pc t).held = some x) (hx : ((s.setPc t p).pc u).held = some x) :
    (s.pc u).held = some x := by
  by_cases hu : u = t
  · subst hu
    rw [pc_setPc_self] at hx
    exact hp hx
  · rwa [pc_setPc_of_ne hu] at hx

theorem held_setPc_none {t u : ℕ} {p : Pc} {x : Event × ℕ} (hp : p.held = none)
    (hx : ((s.setPc t p).pc u).held = some x) : (s.pc u).held = some x := by
  refine held_setPc (fun h => ?_) hx
  rw [hp] at h
  cases h

theorem Locked.toRegistry {t : ℕ} (h : Locked N s t s') : s'.toRegistry = s.toRegistry := by
  cases h with
  | task ht hn hs => exact hs.toRegistry
  | relock ht hs hb => exact hs.toRegistry
  | @done last ht => cases last <;> rfl
  | _ => rfl

theorem Locked.held {t u : ℕ} {x : Event × ℕ} (h : Locked N s t s')
    (hx : (s'.pc u).held = some x) : (s.pc u).held = some x := by
  cases h with
  | leave ht he =>
    refine held_setPc_none ?_ hx
    cases (s.threads t).kind <;> rfl
  | task ht hn hs => exact hs.held (held_setPc_none rfl hx)
  | relock ht hs hb => exact hs.held (held_setPc_none (held_entry _) hx)
  | moreEvent ht he hm => exact held_setPc_none (held_entry _) hx
  | backlogEvent ht he hp hn hb => exact held_setPc_none (held_entry _) hx
  | resign ht hk hp =>
    refine held_setPc_none ?_ hx
    obtain rfl | rfl := hp <;> rfl
  | @done last ht =>
    cases last
    · exact held_setPc_none (held_back _) hx
    · exact held_setPc_none rfl hx
  | flushed ht => exact held_setPc_none (held_back _) hx
  | waited ht hk | idle ht | retryPoll ht hk => exact held_setPc_none rfl hx
  | outEvent ht ho | lastTask ht hn => exact held_setPc_none rfl hx
  | wait ht he hm hp ho hn | poll ht he hm hp hn => exact held_setPc_none rfl hx
  | endPoll ht hk he => exact held_setPc_none rfl hx

theorem Owned.stop (hi : Owned N s) (h : ℕ) (cont : Bool) : Owned N (s.stop h cont) :=
  ⟨hi.ident, hi.fresh, hi.interest, hi.slot, hi.ext, hi.adding, hi.held⟩

theorem Owned.dispatches {t : ℕ} (hi : Owned N s) (htN : t < N) (h : Dispatches N s t a s') :
    Owned N s' := by
  have hown : ∀ {p : Pc}, s.pc t = p → ∀ ke h, p.held = some (ke, h) →
      s.fdOwner ke.ident = some h := by
    rintro p rfl ke h
    exact hi.held t htN ke h
  cases h with
  | rearmOut ht => exact (hi.reactivate _).back
  | @dispatch k wake ke h ht hh =>
    have hdel : Owned N { s with delivered := (ke.origin, h) :: s.delivered } :=
      hi.frame rfl fun _ _ _ hx => hx
    refine hdel.setPc fun ke' h' hx => ?_
    obtain ⟨rfl, rfl⟩ : ke = ke' ∧ h = h' := by simpa [Pc.held] using hx
    exact hi.slot _ _ hh
  | dispatchEmpty ht hh => exact hi.setPc fun ke h hx => by cases hx
  | evReset ht =>
    apply Owned.resetHandler
    exact hi.setPc fun ke h hx => hown ht ke h hx
  | rearm ht => exact (hi.reactivate _).back.settle _
  | @drop k wake ke h ht =>
    refine (hi.removeFd _).setPc fun ke' h' hx => hown ht ke' h' ?_
    cases h with
    | none => exact hx
    | some h => exact hx
  | reset ht => exact (hi.resetHandler _).back.settle? _
  | next ht hf => exact (hi.reactivate _).setPc fun ke h hx => hown ht ke h hx
  | evRemove ht hf => exact (hi.removeFd _).setPc fun ke h hx => hown ht ke h hx
  | finish ht hf => exact (hi.stop _ _).back.settle _
  | finishRearm ht hf => exact (hi.stop _ _).setPc fun ke h hx => hown ht ke h hx
  | finishDrop ht hf => exact (hi.stop _ _).setPc fun ke h hx => hown ht ke h hx

theorem Owned.registers (hi : Owned N s) (h : Registers N s a s') : Owned N s' := by
  have hupdate : ∀ {i h : ℕ}, ∀ j h', Function.update s.slot i (some h) j = some h' →
      s.fdOwner i = none → Function.update s.fdOwner i (some h) j = some h' := by
    intro i h j h' hj hfree
    by_cases hji : j = i
    · rw [hji, Function.update_self] at hj ⊢
      exact hj
    · rw [Function.update_of_ne hji] at hj ⊢
      exact hi.slot j h' hj
  have hupdate' : ∀ {i h : ℕ}, ∀ j r, Function.update s.interest i (some ⟨true, h⟩) j = some r →
      s.fdOwner i = none → Function.update s.fdOwner i (some h) j = some r.owner := by
    intro i h j r hj hfree
    by_cases hji : j = i
    · rw [hji, Function.update_self, Option.some.injEq] at hj
      rw [hji, Function.update_self, ← hj]
    · rw [Function.update_of_ne hji] at hj ⊢
      exact hi.interest j r hj
  cases h with
  | addHandler hc =>
    obtain ⟨hfresh, hfree, -⟩ := create_cases hc
    rw [addHandler_eq hi hc]
    have henrol : Owned N (s.enrol _ _ .returned) := hi.enrol hfresh hfree AddStage.noConfusion
    exact (henrol.withSlot fun j h' hj => hupdate j h' hj hfree).withInterest
      fun j r hj => hupdate' j r hj hfree
  | publish hc =>
    obtain ⟨hfresh, hfree, -⟩ := create_cases hc
    rw [publish_eq hi hc]
    exact (hi.enrol hfresh hfree AddStage.noConfusion).withSlot fun j h' hj => hupdate j h' hj hfree
  | register hk hc =>
    obtain ⟨hfresh, hfree, -⟩ := create_cases hc
    rw [register_eq hi hc]
    exact (hi.enrol hfresh hfree AddStage.noConfusion).withInterest
      fun j r hj => hupdate' j r hj hfree
  | @registerEnd h ha =>
    have hext := hi.adding h (.inl ha)
    exact (hi.addFd (hi.ext h hext)).setAdd AddStage.noConfusion (.inr rfl)
  | @publishEnd kind h hk ha =>
    have hext := hi.adding h (.inr ha)
    exact (hi.setHandler (hi.ext h hext)).setAdd AddStage.noConfusion (.inr rfl)
  | removeBegin hk hi' =>
    apply Owned.resetHandler
    exact ⟨hi.ident, hi.fresh, hi.interest, hi.slot, hi.ext, hi.adding, hi.held⟩
  | removeSignalBegin hi' =>
    apply Owned.removeFd
    exact ⟨hi.ident, hi.fresh, hi.interest, hi.slot, hi.ext, hi.adding, hi.held⟩
  | removeEnd hk hm =>
    apply Owned.removeFd
    exact ⟨hi.ident, hi.fresh, hi.interest, hi.slot, hi.ext, hi.adding, hi.held⟩
  | removeSignalEnd hm =>
    apply Owned.resetHandler
    exact ⟨hi.ident, hi.fresh, hi.interest, hi.slot, hi.ext, hi.adding, hi.held⟩
  | keepRef ha hl => exact hi.keepExt hl
  | dropRef ha => exact (hi.dropExt ha).settle _

theorem Owned.step (hi : Owned N s) (h : Step N s a s') : Owned N s' := by
  cases h with
  | locked htN h => exact hi.frame h.toRegistry fun u _ x => h.held
  | dispatches htN h => exact hi.dispatches htN h
  | @call t block htN hk ht =>
    refine hi.frame rfl fun u _ x hx => ?_
    by_cases hu : u = t
    · subst hu
      simp [Pc.held] at hx
    · simpa [Function.update_of_ne hu] using hx
  | wakeup htN ht => exact hi.frame rfl fun u _ x => held_setPc_none rfl
  | waitReturns htN ht hne hnodup harmed =>
    exact (hi.report _).frame rfl fun u _ x => held_setPc_none rfl
  | timeout htN ht => exact hi.frame rfl fun u _ x => held_setPc_none rfl
  | @outDone t empty htN ht =>
    cases empty
    · exact hi.back
    · exact hi.frame rfl fun u _ x => held_setPc_none rfl
  | @more t wake ke h flags s₁ htN ht hf hs =>
    refine hi.frame hs.toRegistry fun u _ x hx => ?_
    refine hs.held (held_setPc (fun hp => ?_) hx)
    rw [hs.pc_of_ne (by show s.pc t ≠ _; rw [ht]; exact Pc.noConfusion)]
    show (s.pc t).held = some x
    rw [ht]
    exact hp
  | submit hs => exact hi.frame hs.toRegistry fun u _ x => hs.held
  | endBegin => exact hi.frame rfl fun _ _ _ hx => hx
  | endReturn he =>
    refine hi.frame rfl fun u _ x hx => ?_
    change (if s.pc u = .waiting then Pc.woken else s.pc u).held = some x at hx
    split_ifs at hx
    · cases hx
    · exact hx
  | registers h => exact hi.registers h

theorem reachable_owned {kinds : ℕ → Kind} {P : State → Action → Prop}
    (h : (loopSystem N kinds).Reachable P s) : Owned N s :=
  h.invariant (fun _ hs => hs ▸ .init N kinds) fun _ _ _ _ hi _ hs => hi.step (step_cases hs)

end Mpio.Wavy.Loop
