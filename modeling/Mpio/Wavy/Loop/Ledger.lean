import Mpio.Wavy.Loop.Token

/-!
# Registrations, slots and tokens

`Filed` says for each handler, by the stage of its `add_*` call, what its slot and its registration are,
and for each thread in a dispatch what it knows of its handler. It gives that a descriptor is closed only
after its registration has been removed (`settle_eq`), so closing loses no token.

Together with `Tokens` it is kept by every step that removes nothing, provided that no thread looks up a
handler between its registration and its publication (`Ledger.step`, `reachable_ledger`).
-/

namespace Mpio.Wavy.Loop

open Lib

variable {N : ℕ} {s s' : State} {a : Action}

/-- What a thread in a dispatch knows. -/
def InOrder (s : State) : Pc → Prop
  | .running _ h flags => s.add h = .returned ∧ flags.removed = false
  | .evReset _ _ _ => False
  | .rearm _ h => s.add h = .returned
  | .drop _ h => ∃ h', h = some h' ∧ s.add h' = .returned ∧ s.stopped h' = true
  | .reset ke h =>
    (∃ h', h = some h' ∧ s.add h' = .returned ∧ s.stopped h' = true) ∧ s.interest ke.ident = none
  | _ => True

structure Filed (N : ℕ) (s : State) : Prop where
  published : ∀ h, s.add h = .published →
    s.slot (s.identOf h) = some h ∧ s.interest (s.identOf h) = none
  registered : ∀ h, s.add h = .registered →
    s.slot (s.identOf h) = none ∧ (s.interest (s.identOf h)).isSome = true
  returned : ∀ h, s.add h = .returned → s.stopped h = false →
    s.slot (s.identOf h) = some h ∧ (s.interest (s.identOf h)).isSome = true
  live : ∀ i r, s.interest i = some r → s.add r.owner = .returned → s.slot i = some r.owner
  threads : ∀ t < N, InOrder s (s.pc t)

structure Ledger (N : ℕ) (s : State) : Prop where
  tokens : Tokens N s
  filed : Filed N s

theorem inOrder_of_not {p : Pc} (h : p.atHandler = false) : InOrder s p := by
  cases p <;> trivial

theorem InOrder.mono {p : Pc} (hp : InOrder s p) (hadd : ∀ h, s.add h = .returned → s'.add h = .returned)
    (hstop : ∀ h, s.stopped h = true → s'.stopped h = true)
    (hint : ∀ ke h, p = .reset ke h → s.interest ke.ident = none → s'.interest ke.ident = none) :
    InOrder s' p := by
  cases p with
  | running ke h flags => exact ⟨hadd h hp.1, hp.2⟩
  | evReset ke h flags => exact hp
  | rearm ke h => exact hadd h hp
  | drop ke h =>
    obtain ⟨h', rfl, ha, hs⟩ := hp
    exact ⟨h', rfl, hadd h' ha, hstop h' hs⟩
  | reset ke h =>
    obtain ⟨⟨h', rfl, ha, hs⟩, hi⟩ := hp
    exact ⟨⟨h', rfl, hadd h' ha, hstop h' hs⟩, hint ke _ rfl hi⟩
  | _ => trivial

/-! ## Operations -/

theorem Filed.apart (hf : Filed N s) (hr : s'.toRegistry = s.toRegistry) (hpc : Apart s s') :
    Filed N s' where
  published := by simpa only [hr] using hf.published
  registered := by simpa only [hr] using hf.registered
  returned := by simpa only [hr] using hf.returned
  live := by simpa only [hr] using hf.live
  threads t ht := by
    obtain h | ⟨h, -⟩ := hpc t
    · rw [h]
      refine (hf.threads t ht).mono ?_ ?_ ?_
      · rw [hr]
        exact fun _ ha => ha
      · rw [hr]
        exact fun _ hs => hs
      · rw [hr]
        exact fun _ _ _ hi => hi
    · exact inOrder_of_not h

theorem Filed.setPc {t : ℕ} {p : Pc} (hf : Filed N s) (hp : InOrder s p) :
    Filed N (s.setPc t p) := by
  refine ⟨hf.published, hf.registered, hf.returned, hf.live, fun u hu => ?_⟩
  by_cases hut : u = t
  · rw [hut, pc_setPc_self]
    exact hp
  · rw [pc_setPc_of_ne hut]
    exact hf.threads u hu

theorem Filed.back {t : ℕ} (hf : Filed N s) : Filed N (s.back t) :=
  hf.setPc (inOrder_of_not (atHandler_back _))

theorem Filed.withFdOwner {f : ℕ → Option ℕ} (hf : Filed N s) :
    Filed N { s with fdOwner := f } :=
  ⟨hf.published, hf.registered, hf.returned, hf.live, hf.threads⟩

/-- A descriptor is closed only when it is not registered any more. -/
theorem settle_eq (hf : Filed N s) (ho : Owned N s) (h : ℕ) :
    ∃ f, settle N h s = { s with fdOwner := f } := by
  obtain hs | ⟨hown, ha, hs⟩ := settle_cases N h s
  · exact ⟨s.fdOwner, hs⟩
  obtain ⟨hext, hslot, -⟩ := alive_eq_false ha
  have hnone : s.interest (s.identOf h) = none := by
    by_contra hne
    obtain ⟨r, hr⟩ := Option.ne_none_iff_exists'.mp hne
    obtain rfl : r.owner = h := Option.some.inj ((ho.interest _ r hr).symm.trans hown)
    have hadd : ¬ (s.add r.owner = .published ∨ s.add r.owner = .registered) := fun hadd => by
      rw [ho.adding _ hadd] at hext
      cases hext
    cases hstage : s.add r.owner with
    | fresh => exact ho.fresh _ _ hown hstage
    | published => exact hadd (.inl hstage)
    | registered => exact hadd (.inr hstage)
    | returned => exact hslot (hf.live _ r hr hstage)
  refine ⟨Function.update s.fdOwner (s.identOf h) none, ?_⟩
  rw [hs]
  unfold close
  rw [← hnone, Function.update_eq_self]

theorem settle?_eq (hf : Filed N s) (ho : Owned N s) (h : Option ℕ) :
    ∃ f, settle? N h s = { s with fdOwner := f } := by
  cases h with
  | none => exact ⟨s.fdOwner, rfl⟩
  | some h => exact settle_eq hf ho h

theorem Filed.withInterest {R : ℕ → Option Reg} (hf : Filed N s)
    (hR : ∀ i, (R i).map (·.owner) = (s.interest i).map (·.owner)) :
    Filed N { s with interest := R } := by
  have hsome : ∀ i, (R i).isSome = (s.interest i).isSome := by
    intro i
    rw [← Option.isSome_map (f := Reg.owner), hR i, Option.isSome_map]
  have hnone : ∀ i, s.interest i = none → R i = none := by
    intro i hi
    rw [← Option.not_isSome_iff_eq_none, hsome, hi]
    simp
  refine ⟨fun h ha => ?_, fun h ha => ?_, fun h ha hs => ?_, fun i r hr ha => ?_, fun t ht => ?_⟩
  · exact ⟨(hf.published h ha).1, hnone _ (hf.published h ha).2⟩
  · exact ⟨(hf.registered h ha).1, (hsome _).trans (hf.registered h ha).2⟩
  · exact ⟨(hf.returned h ha hs).1, (hsome _).trans (hf.returned h ha hs).2⟩
  · change R i = some r at hr
    have howner := hR i
    rw [hr] at howner
    obtain ⟨r', hr', he⟩ := Option.map_eq_some_iff.mp howner.symm
    have heq : r'.owner = r.owner := he
    rw [← heq] at ha ⊢
    exact hf.live i r' hr' ha
  · exact (hf.threads t ht).mono (fun _ h => h) (fun _ h => h) fun _ _ _ hi => hnone _ hi

theorem Filed.reactivate (hf : Filed N s) (j : ℕ) : Filed N (reactivate s j) := by
  refine hf.withInterest fun i => ?_
  by_cases hij : i = j
  · subst hij
    rw [Function.update_self, Option.map_map]
    rfl
  · rw [Function.update_of_ne hij]

theorem Filed.report (hf : Filed N s) (idents : List ℕ) : Filed N (s.report idents) := by
  have hreg : Filed N { s with interest := fun i =>
      if i ∈ idents then (s.interest i).map fun r => ⟨false, r.owner⟩ else s.interest i } := by
    refine hf.withInterest fun i => ?_
    split_ifs
    · rw [Option.map_map]
      rfl
    · rfl
  exact hreg.apart rfl fun u => .inl rfl

theorem Filed.stop (hf : Filed N s) (h : ℕ) (cont : Bool) : Filed N (s.stop h cont) := by
  have hmono : ∀ h', s.stopped h' = true → (s.stop h cont).stopped h' = true := by
    intro h' hs
    show Function.update s.stopped h _ h' = true
    by_cases hh : h' = h
    · subst hh
      rw [Function.update_self, hs]
      rfl
    · rwa [Function.update_of_ne hh]
  refine ⟨hf.published, hf.registered, fun h' ha hs => ?_, hf.live, fun t ht => ?_⟩
  · refine hf.returned h' ha ?_
    by_contra hne
    have hstop := hmono h' (by simpa using hne)
    rw [hs] at hstop
    cases hstop
  · exact (hf.threads t ht).mono (fun _ h => h) hmono fun _ _ _ hi => hi

section stopping

variable {j x : ℕ}

/-- No other handler has the descriptor of a handler that has returned false. -/
theorem Filed.others (hf : Filed N s) (ho : Owned N s) (hx : s.fdOwner j = some x)
    (ha : s.add x = .returned) (hs : s.stopped x = true) {h : ℕ}
    (hh : s.add h = .published ∨ s.add h = .registered ∨
      s.add h = .returned ∧ s.stopped h = false) : s.identOf h ≠ j := by
  intro hj
  have hown : s.fdOwner (s.identOf h) = some h := by
    obtain hh | hh | ⟨hh, hrun⟩ := hh
    · exact ho.ext h (ho.adding h (.inl hh))
    · exact ho.ext h (ho.adding h (.inr hh))
    · exact ho.slot _ h (hf.returned h hh hrun).1
  obtain rfl : h = x := Option.some.inj (hown.symm.trans (hj ▸ hx))
  rw [ha, hs] at hh
  simp at hh

theorem Filed.removeFd (hf : Filed N s) (ho : Owned N s) (hx : s.fdOwner j = some x)
    (ha : s.add x = .returned) (hs : s.stopped x = true) : Filed N (removeFd s j) := by
  have hne : ∀ h, _ → s.identOf h ≠ j := fun h => hf.others ho hx ha hs
  have hnone : ∀ i, s.interest i = none → (Loop.removeFd s j).interest i = none := by
    intro i hi
    show Function.update s.interest j none i = none
    by_cases hij : i = j
    · rw [hij, Function.update_self]
    · rwa [Function.update_of_ne hij]
  refine ⟨fun h hh => ?_, fun h hh => ?_, fun h hh hrun => ?_, fun i r hr hh => ?_, fun t ht => ?_⟩
  · exact ⟨(hf.published h hh).1, hnone _ (hf.published h hh).2⟩
  · refine ⟨(hf.registered h hh).1, ?_⟩
    show (Function.update s.interest j none (s.identOf h)).isSome = true
    rw [Function.update_of_ne (hne h (.inr (.inl hh)))]
    exact (hf.registered h hh).2
  · refine ⟨(hf.returned h hh hrun).1, ?_⟩
    show (Function.update s.interest j none (s.identOf h)).isSome = true
    rw [Function.update_of_ne (hne h (.inr (.inr ⟨hh, hrun⟩)))]
    exact (hf.returned h hh hrun).2
  · change Function.update s.interest j none i = some r at hr
    have hij : i ≠ j := by
      rintro rfl
      rw [Function.update_self] at hr
      cases hr
    rw [Function.update_of_ne hij] at hr
    exact hf.live i r hr hh
  · exact (hf.threads t ht).mono (fun _ h => h) (fun _ h => h) fun _ _ _ hi => hnone _ hi

theorem Filed.clearSlot (hf : Filed N s) (ho : Owned N s) (hx : s.fdOwner j = some x)
    (ha : s.add x = .returned) (hs : s.stopped x = true) (hi : s.interest j = none) :
    Filed N { s with slot := Function.update s.slot j none } := by
  have hne : ∀ h, _ → s.identOf h ≠ j := fun h => hf.others ho hx ha hs
  refine ⟨fun h hh => ?_, fun h hh => ?_, fun h hh hrun => ?_, fun i r hr hh => ?_, hf.threads⟩
  · refine ⟨?_, (hf.published h hh).2⟩
    show Function.update s.slot j none (s.identOf h) = some h
    rw [Function.update_of_ne (hne h (.inl hh))]
    exact (hf.published h hh).1
  · refine ⟨?_, (hf.registered h hh).2⟩
    show Function.update s.slot j none (s.identOf h) = none
    rw [Function.update_of_ne (hne h (.inr (.inl hh)))]
    exact (hf.registered h hh).1
  · refine ⟨?_, (hf.returned h hh hrun).2⟩
    show Function.update s.slot j none (s.identOf h) = some h
    rw [Function.update_of_ne (hne h (.inr (.inr ⟨hh, hrun⟩)))]
    exact (hf.returned h hh hrun).1
  · have hij : i ≠ j := by
      rintro rfl
      change s.interest i = some r at hr
      rw [hi] at hr
      cases hr
    show Function.update s.slot j none i = some r.owner
    rw [Function.update_of_ne hij]
    exact hf.live i r hr hh

end stopping

/-! ## Dispatch -/

/-- The call removes a registration. -/
def Action.removing : Action → Bool
  | .evRemove _ | .removeBegin _ _ | .removeEnd _ _ => true
  | _ => false

/-- A thread does not look up the handler of a source that is registered and not yet published. -/
def lookupReady (s : State) : Action → Bool
  | .run t _ _ =>
    match s.pc t with
    | .dispatch ke => (s.fdOwner ke.ident).all fun h => s.add h != .registered
    | _ => true
  | _ => true

theorem load_single {p : Pc} {ke : Event} (hp : p.pending = {ke}) (hg : ∀ i, p.grip i = 0) (i : ℕ) :
    p.load i = if i = ke.ident then 1 else 0 := by
  unfold Pc.load
  rw [hp, hg, ← Multiset.cons_zero, Multiset.countP_cons]
  by_cases h : i = ke.ident
  · simp [h]
  · simp [h, Ne.symm h]

theorem load_grip {p : Pc} {ke : Event} (hp : p.pending = 0)
    (hg : ∀ i, p.grip i = if ke.ident = i then 1 else 0) (i : ℕ) :
    p.load i = if i = ke.ident then 1 else 0 := by
  rw [load_of_active hp, hg]
  by_cases h : i = ke.ident
  · simp [h]
  · simp [h, Ne.symm h]

theorem load_none {p : Pc} (hp : p.pending = 0) (hg : ∀ i, p.grip i = 0) (i : ℕ) : p.load i = 0 := by
  rw [load_of_active hp, hg]

theorem load_back (k : Kind) (i : ℕ) : k.back.load i = 0 :=
  load_none (pending_back k) (fun _ => grip_of_not (atHandler_back k) _) i

/-- An event that is looked up belongs to a handler whose add call has returned. -/
theorem Ledger.lookup {t : ℕ} {ke : Event} (hl : Ledger N s) (ho : Owned N s) (htN : t < N)
    (ht : s.pc t = .dispatch ke) (hready : ∀ h, s.fdOwner ke.ident = some h → s.add h ≠ .registered) :
    ∃ h, s.slot ke.ident = some h ∧ s.add h = .returned := by
  have hload : (s.pc t).load ke.ident = 1 := by
    rw [ht, load_single rfl (fun _ => rfl), if_pos rfl]
  obtain ⟨hsome, -, -⟩ := hl.tokens.of_load htN hload
  obtain ⟨r, hr⟩ := Option.isSome_iff_exists.mp hsome
  have hown := ho.interest _ r hr
  have hident := ho.ident _ _ hown
  cases hstage : s.add r.owner with
  | fresh => exact absurd hstage (ho.fresh _ _ hown)
  | published =>
    have hnone := (hl.filed.published _ hstage).2
    rw [hident, hr] at hnone
    cases hnone
  | registered => exact absurd hstage (hready _ hown)
  | returned => exact ⟨r.owner, hl.filed.live _ r hr hstage, hstage⟩

theorem Ledger.rearmOut {t : ℕ} {ke : Event} (hl : Ledger N s) (htN : t < N)
    (ht : s.pc t = .rearmOut ke) : Ledger N ((reactivate s ke.ident).back t) := by
  have hstep : Dispatches N s t (.run t none 0) _ := .rearmOut ht
  refine ⟨hl.tokens.rearmed htN ?_ ?_ rfl (hstep.tokens htN), (hl.filed.reactivate _).back⟩
  · rw [ht]
    exact load_single rfl fun _ => rfl
  · unfold State.back
    rw [pc_setPc_self]
    exact load_back _

theorem Ledger.dispatch {t : ℕ} {ke : Event} {h : ℕ} (hl : Ledger N s)
    (htN : t < N) (ht : s.pc t = .dispatch ke) (hh : s.slot ke.ident = some h)
    (ha : s.add h = .returned) :
    Ledger N ({ s with delivered := (ke.origin, h) :: s.delivered }.setPc t
      (.running ke h ⟨false, false⟩)) := by
  have hstep : Dispatches N s t (.run t none 0) _ := .dispatch ht hh
  refine ⟨hl.tokens.moved (fun i => ?_) rfl (hstep.tokens htN), ?_⟩
  · rw [pc_setPc_self, ht, load_single (p := .dispatch ke) rfl fun _ => rfl]
    exact load_grip rfl (fun i => by simp [Pc.grip]) i
  · have hdel : Filed N { s with delivered := (ke.origin, h) :: s.delivered } :=
      hl.filed.apart rfl fun u => .inl rfl
    exact hdel.setPc ⟨ha, rfl⟩

theorem Ledger.rearm {t : ℕ} {ke : Event} {h : ℕ} (hl : Ledger N s)
    (ho : Owned N s) (htN : t < N) (ht : s.pc t = .rearm ke h) :
    Ledger N (settle N h ((Loop.reactivate s ke.ident).back t)) := by
  have hstep : Dispatches N s t (.run t none 0) _ := .rearm ht
  have hfiled : Filed N ((Loop.reactivate s ke.ident).back t) := (hl.filed.reactivate _).back
  obtain ⟨f, hf⟩ := settle_eq hfiled (ho.reactivate _).back h
  refine ⟨hl.tokens.rearmed htN ?_ ?_ (by rw [hf]; rfl) (hstep.tokens htN), ?_⟩
  · rw [ht]
    exact load_grip rfl fun i => rfl
  · unfold State.back
    rw [settle_pc, pc_setPc_self]
    exact load_back _
  · rw [hf]
    exact hfiled.withFdOwner

theorem Ledger.drop {t : ℕ} {ke : Event} {h : Option ℕ} (hl : Ledger N s)
    (ho : Owned N s) (htN : t < N) (ht : s.pc t = .drop ke h) :
    Ledger N ((Loop.removeFd s ke.ident).setPc t (.reset ke h)) := by
  have hstep : Dispatches N s t (.run t none 0) _ := .drop ht
  have horder := hl.filed.threads t htN
  rw [ht] at horder
  obtain ⟨h', rfl, ha, hs⟩ := horder
  have hown : s.fdOwner ke.ident = some h' := ho.held t htN ke h' (by rw [ht]; rfl)
  refine ⟨hl.tokens.removed htN ?_ ?_ rfl (hstep.tokens htN), ?_⟩
  · rw [ht]
    exact load_grip rfl fun i => rfl
  · rw [pc_setPc_self]
    exact load_none rfl fun _ => rfl
  · refine (hl.filed.removeFd ho hown ha hs).setPc ⟨⟨h', rfl, ha, hs⟩, ?_⟩
    exact Function.update_self _ _ _

/-- The slot is cleared; the descriptor may be closed at two places, and is not registered any more. -/
theorem Filed.reset_eq {t : ℕ} {ke : Event} {h : Option ℕ} (hf : Filed N s) (ho : Owned N s)
    (htN : t < N) (ht : s.pc t = .reset ke h) :
    Filed N { s with slot := Function.update s.slot ke.ident none } ∧
      ∃ f, settle? N h ((resetHandler N ke.ident s).back t) =
        { s with slot := Function.update s.slot ke.ident none, fdOwner := f }.back t := by
  have horder := hf.threads t htN
  rw [ht] at horder
  obtain ⟨⟨h', rfl, ha, hs⟩, hi⟩ := horder
  have hown : s.fdOwner ke.ident = some h' := ho.held t htN ke h' (by rw [ht]; rfl)
  have hclear := hf.clearSlot ho hown ha hs hi
  have hoclear : Owned N { s with slot := Function.update s.slot ke.ident none } := by
    refine ho.withSlot fun i x hx => ?_
    by_cases hi' : i = ke.ident
    · rw [hi', Function.update_self] at hx
      cases hx
    · rw [Function.update_of_ne hi'] at hx
      exact ho.slot i x hx
  obtain ⟨f, hf'⟩ := settle?_eq hclear hoclear (s.slot ke.ident)
  have hreset : resetHandler N ke.ident s =
      { s with slot := Function.update s.slot ke.ident none, fdOwner := f } := hf'
  have hfiled : Filed N ((resetHandler N ke.ident s).back t) := by
    rw [hreset]
    exact hclear.withFdOwner.back
  obtain ⟨g, hg⟩ := settle?_eq hfiled (ho.resetHandler ke.ident).back (some h')
  refine ⟨hclear, g, ?_⟩
  rw [hg, hreset]
  rfl

theorem Ledger.reset {t : ℕ} {ke : Event} {h : Option ℕ} (hl : Ledger N s)
    (ho : Owned N s) (htN : t < N) (ht : s.pc t = .reset ke h) :
    Ledger N (settle? N h ((resetHandler N ke.ident s).back t)) := by
  have hstep : Dispatches N s t (.run t none 0) _ := .reset ht
  obtain ⟨hclear, f, hf⟩ := hl.filed.reset_eq ho htN ht
  refine ⟨hl.tokens.moved (fun i => ?_) (by rw [hf]; rfl) (hstep.tokens htN), ?_⟩
  · unfold State.back
    rw [settle?_pc, pc_setPc_self, ht, load_back]
    exact (load_none rfl (fun _ => rfl) i).symm
  · rw [hf]
    exact hclear.withFdOwner.back

theorem Ledger.finish {t : ℕ} {ke : Event} {h : ℕ} {flags : Flags} {cont : Bool} (hl : Ledger N s)
    (ho : Owned N s) (htN : t < N) (ht : s.pc t = .running ke h flags)
    (hf : (flags.reactivated || flags.removed) = true) :
    Ledger N (settle N h ((s.stop h cont).back t)) := by
  have hstep : Dispatches N s t (.finish t cont) _ := .finish ht hf
  have hfiled : Filed N ((s.stop h cont).back t) := (hl.filed.stop h cont).back
  obtain ⟨f, hf'⟩ := settle_eq hfiled (ho.stop h cont).back h
  refine ⟨hl.tokens.moved (fun i => ?_) (by rw [hf']; rfl) (hstep.tokens htN), ?_⟩
  · unfold State.back
    rw [settle_pc, pc_setPc_self, ht, load_back]
    refine (load_none rfl (fun i => ?_) i).symm
    cases hr : flags.reactivated <;> cases hm : flags.removed <;> simp_all [Pc.grip]
  · rw [hf']
    exact hfiled.withFdOwner

theorem grip_running {ke : Event} {h : ℕ} {flags : Flags} (hf : flags.reactivated = false)
    (hr : flags.removed = false) (i : ℕ) :
    (Pc.running ke h flags).grip i = if ke.ident = i then 1 else 0 := by
  simp [Pc.grip, hf, hr]

theorem Ledger.dispatches {t : ℕ} (hl : Ledger N s) (ho : Owned N s) (htN : t < N)
    (ha : a.removing = false) (hready : lookupReady s a = true) (h : Dispatches N s t a s') :
    Ledger N s' := by
  have horder := hl.filed.threads t htN
  have hlookup {ke : Event} (ht : s.pc t = .dispatch ke) {wake : Option ℕ} {k : ℕ}
      (hready : lookupReady s (.run t wake k) = true) :
      ∃ h, s.slot ke.ident = some h ∧ s.add h = .returned := by
    refine hl.lookup ho htN ht fun h hown => ?_
    simpa [lookupReady, ht, hown] using hready
  cases h with
  | rearmOut ht => exact hl.rearmOut htN ht
  | @dispatch k wake ke h ht hh =>
    obtain ⟨h', hh', hadd⟩ := hlookup ht hready
    obtain rfl : h = h' := Option.some.inj (hh.symm.trans hh')
    exact hl.dispatch htN ht hh hadd
  | dispatchEmpty ht hh =>
    obtain ⟨h', hh', -⟩ := hlookup ht hready
    rw [hh] at hh'
    cases hh'
  | evReset ht =>
    rw [ht] at horder
    exact horder.elim
  | rearm ht => exact hl.rearm ho htN ht
  | drop ht => exact hl.drop ho htN ht
  | reset ht => exact hl.reset ho htN ht
  | @next ke h flags ht hf =>
    rw [ht] at horder
    have hstep : Dispatches N s t (.next t) _ := .next ht hf
    refine ⟨hl.tokens.rearmed htN ?_ ?_ rfl (hstep.tokens htN), ?_⟩
    · rw [ht]
      exact load_grip rfl (grip_running hf horder.2)
    · rw [pc_setPc_self]
      exact load_none rfl fun i => by simp [Pc.grip]
    · exact (hl.filed.reactivate _).setPc horder
  | evRemove ht hf => cases ha
  | finish ht hf => exact hl.finish ho htN ht hf
  | @finishRearm ke h flags ht hf =>
    rw [ht] at horder
    have hstep : Dispatches N s t (.finish t true) _ := .finishRearm ht hf
    have hflags := Bool.or_eq_false_iff.mp hf
    refine ⟨hl.tokens.moved (fun i => ?_) rfl (hstep.tokens htN), ?_⟩
    · rw [pc_setPc_self, ht, load_grip rfl (grip_running hflags.1 hflags.2)]
      exact load_grip rfl (fun i => rfl) i
    · exact (hl.filed.stop h true).setPc horder.1
  | @finishDrop ke h flags ht hf =>
    rw [ht] at horder
    have hstep : Dispatches N s t (.finish t false) _ := .finishDrop ht hf
    have hflags := Bool.or_eq_false_iff.mp hf
    refine ⟨hl.tokens.moved (fun i => ?_) rfl (hstep.tokens htN), ?_⟩
    · rw [pc_setPc_self, ht, load_grip rfl (grip_running hflags.1 hflags.2)]
      exact load_grip rfl (fun i => rfl) i
    · refine (hl.filed.stop h false).setPc ⟨h, rfl, horder.1, ?_⟩
      show Function.update s.stopped h (s.stopped h || !false) h = true
      rw [Function.update_self]
      simp

/-! ## Adding -/

theorem Tokens.added {i h : ℕ} (hT : Tokens N s) (hnone : s.interest i = none)
    (hi : s'.interest = Function.update s.interest i (some ⟨true, h⟩))
    (hp : pending N s' = pending N s) (hpc : ∀ u, s'.pc u = s.pc u) : Tokens N s' := by
  intro j
  have hj := hT j
  unfold tokens at hj ⊢
  rw [hp, Finset.sum_congr rfl fun u _ => by rw [hpc u]]
  unfold State.armed State.present at hj ⊢
  rw [hi]
  by_cases hji : j = i
  · subst hji
    rw [hnone] at hj
    rw [Function.update_self]
    simp only [Option.map_none, reduceCtorEq, if_false, Option.isSome_none, Bool.false_eq_true] at hj
    simp only [Option.map_some, if_true, Option.isSome_some]
    omega
  · rw [Function.update_of_ne hji]
    exact hj

/-- The slot and the registration under `i` change, with the stage of its handler `h`. -/
theorem Filed.changed {h i : ℕ} (hf : Filed N s) (hident : ∀ h', h' ≠ h → s'.identOf h' = s.identOf h')
    (hadd : ∀ h', h' ≠ h → s'.add h' = s.add h') (hstop : s'.stopped = s.stopped)
    (hpc : ∀ t, s'.pc t = s.pc t) (hS : ∀ j, j ≠ i → s'.slot j = s.slot j)
    (hR : ∀ j, j ≠ i → s'.interest j = s.interest j)
    (hother : ∀ h', h' ≠ h → (s.add h' = .published ∨ s.add h' = .registered ∨
      s.add h' = .returned ∧ s.stopped h' = false) → s.identOf h' ≠ i)
    (howner : ∀ j r, j ≠ i → s.interest j = some r → r.owner ≠ h)
    (hreset : ∀ t < N, ∀ ke x, s.pc t = .reset ke x → ke.ident ≠ i)
    (hreturned : s.add h ≠ .returned) (hself : s'.identOf h = i)
    (hstage : s'.add h = .published ∧ s'.slot i = some h ∧ s'.interest i = none ∨
      s'.add h = .registered ∧ s'.slot i = none ∧ (s'.interest i).map (·.owner) = some h ∨
      s'.add h = .returned ∧ s'.slot i = some h ∧ (s'.interest i).map (·.owner) = some h) :
    Filed N s' := by
  have hsome : (s'.interest i).map (·.owner) = some h → (s'.interest i).isSome = true := fun hr => by
    rw [← Option.isSome_map (f := (·.owner)), hr, Option.isSome_some]
  refine ⟨fun h' ha => ?_, fun h' ha => ?_, fun h' ha hrun => ?_, fun j r hr ha => ?_, fun t ht => ?_⟩
  · by_cases hh : h' = h
    · rw [hh] at ha ⊢
      rw [hself]
      simpa [ha] using hstage
    · rw [hadd h' hh] at ha
      have hne := hother h' hh (.inl ha)
      rw [hident h' hh, hS _ hne, hR _ hne]
      exact hf.published h' ha
  · by_cases hh : h' = h
    · rw [hh] at ha ⊢
      have hplace : s'.slot i = none ∧ (s'.interest i).map (·.owner) = some h := by
        simpa [ha] using hstage
      rw [hself]
      exact ⟨hplace.1, hsome hplace.2⟩
    · rw [hadd h' hh] at ha
      have hne := hother h' hh (.inr (.inl ha))
      rw [hident h' hh, hS _ hne, hR _ hne]
      exact hf.registered h' ha
  · rw [hstop] at hrun
    by_cases hh : h' = h
    · rw [hh] at ha ⊢
      have hplace : s'.slot i = some h ∧ (s'.interest i).map (·.owner) = some h := by
        simpa [ha] using hstage
      rw [hself]
      exact ⟨hplace.1, hsome hplace.2⟩
    · rw [hadd h' hh] at ha
      have hne := hother h' hh (.inr (.inr ⟨ha, hrun⟩))
      rw [hident h' hh, hS _ hne, hR _ hne]
      exact hf.returned h' ha hrun
  · by_cases hji : j = i
    · subst hji
      rw [hr, Option.map_some, Option.some.injEq] at hstage
      obtain ⟨-, -, hnone⟩ | ⟨hst, -, rfl⟩ | ⟨-, hslot, rfl⟩ := hstage
      · cases hnone
      · rw [hst] at ha
        cases ha
      · exact hslot
    · rw [hR j hji] at hr
      rw [hadd _ (howner j r hji hr)] at ha
      rw [hS j hji]
      exact hf.live j r hr ha
  · rw [hpc]
    refine (hf.threads t ht).mono (fun h' ha => ?_) (fun h' hs => ?_) fun ke x hp hi => ?_
    · have hh : h' ≠ h := by
        rintro rfl
        exact hreturned ha
      rw [hadd h' hh, ha]
    · rw [hstop, hs]
    · rw [hR _ (hreset t ht ke x hp), hi]

theorem Filed.enrolled {h i : ℕ} {stage : AddStage} {S : ℕ → Option ℕ} {R : ℕ → Option Reg}
    (hf : Filed N s) (ho : Owned N s) (hfresh : s.add h = .fresh) (hfree : s.fdOwner i = none)
    (hS : ∀ j, j ≠ i → S j = s.slot j) (hR : ∀ j, j ≠ i → R j = s.interest j)
    (hstage : stage = .published ∧ S i = some h ∧ R i = none ∨
      stage = .registered ∧ S i = none ∧ R i = some ⟨true, h⟩ ∨
      stage = .returned ∧ S i = some h ∧ R i = some ⟨true, h⟩) :
    Filed N { s.enrol h i stage with slot := S, interest := R } := by
  have hold : ∀ j x, s.fdOwner j = some x → j ≠ i := by
    rintro j x hj rfl
    rw [hfree] at hj
    cases hj
  have hadd : Function.update s.add h stage h = stage := Function.update_self _ _ _
  refine hf.changed (fun h' hh => Function.update_of_ne hh _ _)
    (fun h' hh => Function.update_of_ne hh _ _) rfl (fun _ => rfl) hS hR (fun h' _ hst => ?_)
    (fun j r _ hr => ?_) (fun t ht ke x hp => ?_) (by rw [hfresh]; exact AddStage.noConfusion)
    (Function.update_self _ _ _) ?_
  · obtain hst | hst | ⟨hst, hrun⟩ := hst
    · exact hold _ h' (ho.ext h' (ho.adding h' (.inl hst)))
    · exact hold _ h' (ho.ext h' (ho.adding h' (.inr hst)))
    · exact hold _ h' (ho.slot _ h' (hf.returned h' hst hrun).1)
  · rintro rfl
    exact ho.fresh j _ (ho.interest j r hr) hfresh
  · have horder := hf.threads t ht
    rw [hp] at horder
    obtain ⟨⟨y, rfl, -⟩, -⟩ := horder
    exact hold _ y (ho.held t ht ke y (by rw [hp]; rfl))
  · show Function.update s.add h stage h = _ ∧ S i = _ ∧ R i = _ ∨
      Function.update s.add h stage h = _ ∧ S i = _ ∧ (R i).map _ = _ ∨
      Function.update s.add h stage h = _ ∧ S i = _ ∧ (R i).map _ = _
    rw [hadd]
    refine hstage.imp_right (Or.imp (fun ⟨hst, hs, hr⟩ => ?_) fun ⟨hst, hs, hr⟩ => ?_)
    · exact ⟨hst, hs, by rw [hr]; rfl⟩
    · exact ⟨hst, hs, by rw [hr]; rfl⟩

theorem Filed.finishAdd {h : ℕ} {S : ℕ → Option ℕ} {R : ℕ → Option Reg} (hf : Filed N s)
    (ho : Owned N s) (ha : s.add h = .published ∨ s.add h = .registered)
    (hS : ∀ j, j ≠ s.identOf h → S j = s.slot j) (hR : ∀ j, j ≠ s.identOf h → R j = s.interest j)
    (hs : S (s.identOf h) = some h) (hr : (R (s.identOf h)).map (·.owner) = some h) :
    Filed N { s with slot := S, interest := R, add := Function.update s.add h .returned } := by
  have hown := ho.ext h (ho.adding h ha)
  have hreturned : s.add h ≠ .returned := by
    obtain ha | ha := ha <;> rw [ha] <;> exact AddStage.noConfusion
  have hne : ∀ j x, x ≠ h → s.fdOwner j = some x → j ≠ s.identOf h := by
    rintro j x hx hj rfl
    exact hx (Option.some.inj (hj.symm.trans hown))
  refine hf.changed (fun _ _ => rfl) (fun h' hh => Function.update_of_ne hh _ _) rfl (fun _ => rfl) hS hR
    (fun h' hh hst => ?_) (fun j r hj hreg => ?_) (fun t ht ke x hp => ?_) hreturned rfl
    (.inr (.inr ⟨Function.update_self _ _ _, hs, hr⟩))
  · obtain hst | hst | ⟨hst, hrun⟩ := hst
    · exact hne _ h' hh (ho.ext h' (ho.adding h' (.inl hst)))
    · exact hne _ h' hh (ho.ext h' (ho.adding h' (.inr hst)))
    · exact hne _ h' hh (ho.slot _ h' (hf.returned h' hst hrun).1)
  · rintro rfl
    exact hj (ho.ident j _ (ho.interest j r hreg)).symm
  · -- a thread that is about to clear a slot has another handler
    have horder := hf.threads t ht
    rw [hp] at horder
    obtain ⟨⟨y, rfl, hy, -⟩, -⟩ := horder
    refine hne _ y ?_ (ho.held t ht ke y (by rw [hp]; rfl))
    rintro rfl
    exact hreturned hy

theorem Ledger.settle (hl : Ledger N s) (ho : Owned N s) (h : ℕ) : Ledger N (settle N h s) := by
  obtain ⟨f, hf⟩ := settle_eq hl.filed ho h
  rw [hf]
  exact ⟨hl.tokens.frame rfl (pending_congr rfl rfl fun _ => rfl) fun _ _ => rfl,
    hl.filed.withFdOwner⟩

theorem Ledger.registers (hl : Ledger N s) (ho : Owned N s) (ha : a.removing = false)
    (h : Registers N s a s') : Ledger N s' := by
  have hpend := h.pending
  have hpc := h.pc
  have hgrip : ∀ u i, (s'.pc u).grip i = (s.pc u).grip i := fun u i => by rw [hpc u]
  cases h with
  | @addHandler h i s₁ hc =>
    obtain ⟨hfresh, hfree, -⟩ := create_cases hc
    have heq := addHandler_eq ho hc
    refine ⟨hl.tokens.added (ho.interest_none hfree) (by rw [heq]) hpend hpc, ?_⟩
    rw [heq]
    refine hl.filed.enrolled ho hfresh hfree (fun j hj => Function.update_of_ne hj _ _)
      (fun j hj => Function.update_of_ne hj _ _) (.inr (.inr ⟨rfl, ?_, ?_⟩))
    · exact Function.update_self _ _ _
    · exact Function.update_self _ _ _
  | @publish h i s₁ hc =>
    obtain ⟨hfresh, hfree, -⟩ := create_cases hc
    have heq : setAdd (setHandler N s₁ h) h .published = _ := publish_eq ho hc
    refine ⟨hl.tokens.frame (by rw [heq]; rfl) hpend hgrip, ?_⟩
    rw [heq]
    exact hl.filed.enrolled ho hfresh hfree (fun j hj => Function.update_of_ne hj _ _)
      (fun j _ => rfl) (.inl ⟨rfl, Function.update_self _ _ _, ho.interest_none hfree⟩)
  | @register kind h i s₁ hk hc =>
    obtain ⟨hfresh, hfree, -⟩ := create_cases hc
    have heq : setAdd (addFd s₁ i h) h .registered = _ := register_eq ho hc
    refine ⟨hl.tokens.added (ho.interest_none hfree) (by rw [heq]) hpend hpc, ?_⟩
    rw [heq]
    exact hl.filed.enrolled ho hfresh hfree (fun j _ => rfl)
      (fun j hj => Function.update_of_ne hj _ _)
      (.inr (.inl ⟨rfl, ho.slot_none hfree, Function.update_self _ _ _⟩))
  | @registerEnd h hst =>
    obtain ⟨hslot, hnone⟩ := hl.filed.published h hst
    have hi : (setAdd (addFd s (s.identOf h) h) h .returned).interest =
        Function.update s.interest (s.identOf h) (some ⟨true, h⟩) := by
      show Function.update s.interest _ (some ((s.interest (s.identOf h)).getD _)) = _
      rw [hnone]
      rfl
    refine ⟨hl.tokens.added hnone hi hpend hpc, ?_⟩
    refine hl.filed.finishAdd ho (.inl hst) (fun _ _ => rfl) (fun j hj => Function.update_of_ne hj _ _)
      hslot ?_
    show ((setAdd (addFd s (s.identOf h) h) h .returned).interest (s.identOf h)).map _ = some h
    rw [hi, Function.update_self]
    rfl
  | @publishEnd kind h hk hst =>
    obtain ⟨hslot, hsome⟩ := hl.filed.registered h hst
    have heq : setHandler N s h = _ := setHandler_eq fun h' hs => by
      rw [hslot] at hs
      cases hs
    refine ⟨hl.tokens.frame (by rw [heq]; rfl) hpend hgrip, ?_⟩
    rw [heq]
    refine hl.filed.finishAdd ho (.inr hst) (fun j hj => Function.update_of_ne hj _ _) (fun _ _ => rfl)
      (Function.update_self _ _ _) ?_
    obtain ⟨r, hr⟩ := Option.isSome_iff_exists.mp hsome
    have hown := ho.ext h (ho.adding h (.inr hst))
    rw [hr, Option.map_some, ← ho.interest _ r hr, hown]
  | removeBegin hk hi => cases ha
  | removeSignalBegin hi => cases ha
  | removeEnd hk hm => cases ha
  | removeSignalEnd hm => cases ha
  | keepRef hst hlive =>
    refine ⟨hl.tokens.frame rfl hpend hgrip, ?_⟩
    exact ⟨hl.filed.published, hl.filed.registered, hl.filed.returned, hl.filed.live,
      hl.filed.threads⟩
  | @dropRef h hst =>
    refine Ledger.settle ?_ (ho.dropExt hst) h
    refine ⟨hl.tokens.frame rfl (pending_congr rfl rfl fun _ => rfl) fun _ _ => rfl, ?_⟩
    exact ⟨hl.filed.published, hl.filed.registered, hl.filed.returned, hl.filed.live,
      hl.filed.threads⟩

/-! ## Runs -/

theorem Ledger.init (N : ℕ) (kinds : ℕ → Kind) : Ledger N (.init kinds) := by
  have hstage : ∀ h, (State.init kinds).add h = .fresh ∨ h = outIdent := by
    intro h
    by_cases h0 : h = outIdent
    · exact .inr h0
    · exact .inl (by simp [State.init, h0])
  refine ⟨fun i => ?_, fun h ha => ?_, fun h ha => ?_, fun h ha _ => ?_, fun i r hr ha => ?_,
    fun t _ => ?_⟩
  · have hpend : ∑ t ∈ Finset.range N, ((State.init kinds).pc t).pending = 0 :=
      Finset.sum_eq_zero fun t _ => pending_back (kinds t)
    have hgrip : ∑ t ∈ Finset.range N, ((State.init kinds).pc t).grip i = 0 :=
      Finset.sum_eq_zero fun t _ => grip_of_not (atHandler_back (kinds t)) i
    unfold Loop.tokens pending
    rw [hpend, hgrip]
    by_cases h0 : i = outIdent <;> simp [State.armed, State.present, State.init, State.rest, h0]
  · obtain h0 | rfl := hstage h
    · rw [h0] at ha
      cases ha
    · simp [State.init] at ha
  · obtain h0 | rfl := hstage h
    · rw [h0] at ha
      cases ha
    · simp [State.init] at ha
  · obtain h0 | rfl := hstage h
    · rw [h0] at ha
      cases ha
    · simp [State.init]
  · by_cases h0 : i = outIdent
    · simp only [State.init, h0, if_true, Option.some.injEq] at hr
      simp [State.init, h0, ← hr]
    · simp [State.init, h0] at hr
  · exact inOrder_of_not (atHandler_back (kinds t))

theorem Ledger.apart (hl : Ledger N s) (hr : s'.toRegistry = s.toRegistry)
    (hp : pending N s' = pending N s) (hpc : Apart s s') : Ledger N s' :=
  ⟨hl.tokens.frame (by rw [hr]) hp hpc.grip, hl.filed.apart hr hpc⟩

theorem Ledger.step (hl : Ledger N s) (ho : Owned N s) (hb : Backlog s) (hled : s.pool.Led N)
    (hh : Handed N s) (ha : a.removing = false) (hready : lookupReady s a = true)
    (h : Step N s a s') : Ledger N s' := by
  cases h with
  | locked htN h => exact hl.apart h.toRegistry (h.pending htN hb hled hh) h.apart
  | dispatches htN h => exact hl.dispatches ho htN ha hready h
  | @call t block htN hk ht =>
    refine hl.apart rfl (pending_congr rfl rfl fun u => ?_) (apart_call ht)
    show ((Function.update s.threads t ⟨.once block, .start⟩ u).pc).pending = _
    by_cases hu : u = t
    · rw [hu, Function.update_self, ht]
      rfl
    · rw [Function.update_of_ne hu]
      rfl
  | wakeup htN ht =>
    exact hl.apart rfl (pending_setPc rfl rfl (fun _ => rfl) (by rw [ht]; rfl) rfl)
      (apart_setPc (atHandler_of ht rfl) rfl)
  | @waitReturns t idents htN ht hne hnodup harmed =>
    exact ⟨hl.tokens.report htN ht hb hled hnodup harmed, (hl.filed.report idents).setPc trivial⟩
  | timeout htN ht =>
    exact hl.apart rfl (pending_setPc rfl rfl (fun _ => rfl) (by rw [ht]; rfl) rfl)
      (apart_setPc (atHandler_of ht rfl) rfl)
  | @outDone t empty htN ht =>
    cases empty
    · exact hl.apart rfl (pending_setPc rfl rfl (fun _ => rfl) (by rw [ht]; rfl) (pending_back _))
        (apart_setPc (atHandler_of ht rfl) (atHandler_back _))
    · exact hl.apart rfl (pending_setPc rfl rfl (fun _ => rfl) (by rw [ht]; rfl) rfl)
        (apart_setPc (atHandler_of ht rfl) rfl)
  | @more t wake ke h flags s₁ htN ht hf hs =>
    have horder := hl.filed.threads t htN
    rw [ht] at horder
    refine ⟨hl.tokens.more htN ht hf horder.2 hs, ?_⟩
    have hfiled : Filed N s₁ := hl.filed.apart hs.toRegistry fun u => hs.apart u
    refine hfiled.setPc ?_
    show s₁.add h = .returned ∧ _
    rw [hs.toRegistry]
    exact horder
  | submit hs =>
    have hq := hs.toQueues
    exact hl.apart hs.toRegistry
      (pending_congr (by rw [hq]) (by simp only [State.rest, hq]) hs.pending) fun u => hs.apart u
  | endBegin => exact hl.apart rfl (pending_congr rfl rfl fun _ => rfl) fun u => .inl rfl
  | endReturn he => exact hl.apart rfl pending_endReturn apart_broadcast
  | registers h => exact hl.registers ho ha h

theorem reachable_ledger {kinds : ℕ → Kind}
    (h : (loopSystem N kinds).Reachable
      (fun s a => a.removing = false ∧ lookupReady s a = true) s) : Ledger N s :=
  h.invariant (fun _ hs => hs ▸ .init N kinds) fun _ _ _ hr hl hP hs =>
    hl.step (reachable_owned hr) (reachable_backlog hr) (reachable_led hr) (reachable_handed hr) hP.1
      hP.2 (step_cases hs)

end Mpio.Wavy.Loop
