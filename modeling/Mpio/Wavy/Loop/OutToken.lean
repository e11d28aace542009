import Mpio.Wavy.Loop.Token

/-!
# The event of `out`

`out` is a handler of the loop like any other: its descriptor is registered one-shot, reported, and armed
again by the thread that has taken its event. Nothing else in the loop touches it. Whatever handlers are
added and removed, in every run `out` stays in its slot and registered, and its descriptor is armed or
its event is on the way, never both (`OutToken`, `reachable_outToken`).

The reason is that `out` holds its descriptor from the beginning, so no call gets its number (`SameOut`),
and that a thread with an event of `out` goes to `poll_event` and not to a handler (`Pc.Sorted`).
-/

namespace Mpio.Wavy.Loop

open Lib

variable {N : ℕ} {s s' s₁ : State} {a : Action} {kinds : ℕ → Kind} {P : State → Action → Prop}

/-! ## The thread that moves -/

/-- Thread `u` is where it was, or somebody has woken it. -/
def Stays (u : ℕ) (s s' : State) : Prop := s'.pc u = s.pc u ∨ s.pc u = .waiting ∧ s'.pc u = .woken

/-- The thread that takes the step. -/
def Action.actor : Action → Option ℕ
  | .call t _ | .run t _ _ | .wakeup t | .waitReturns t _ | .timeout t | .outDone t _ | .more t _ | .next t
  | .evRemove t | .finish t _ => some t
  | .submit _ | .endBegin | .endReturn | .addHandler .. | .addBegin .. | .addEnd .. | .removeBegin ..
  | .removeEnd .. | .keepRef _ | .dropRef _ => none

theorem Stays.setPc {t u : ℕ} (h : Stays u s s₁) (hu : u ≠ t) (p : Pc) : Stays u s (s₁.setPc t p) := by
  unfold Stays
  rw [pc_setPc_of_ne hu]
  exact h

theorem Locked.stays {t u : ℕ} (h : Locked N s t s') (hu : u ≠ t) : Stays u s s' := by
  have hsame : Stays u s s := .inl rfl
  cases h with
  | task ht hn hs | relock ht hs hb => exact Stays.setPc (s := s) (hs.pc u) hu _
  | @done last ht => cases last <;> exact hsame.setPc hu _
  | _ => exact Stays.setPc (s := s) (.inl rfl) hu _

theorem Dispatches.actor {t : ℕ} (h : Dispatches N s t a s') : a.actor = some t := by
  cases h <;> rfl

theorem Step.stays {u : ℕ} (h : Step N s a s') (hu : a.actor ≠ some u) : Stays u s s' := by
  have hsame : Stays u s s := .inl rfl
  have hne {t : ℕ} (ha : a.actor = some t) : u ≠ t := fun heq => hu (heq ▸ ha)
  cases h with
  | locked htN hl => exact hl.stays (hne rfl)
  | dispatches htN hd => exact .inl (hd.pc_of_ne (hne hd.actor))
  | @call t block htN hk ht =>
    refine .inl ?_
    change (Function.update s.threads t ⟨.once block, .start⟩ u).pc = s.pc u
    rw [Function.update_of_ne (hne rfl)]
    rfl
  | wakeup htN ht | timeout htN ht => exact hsame.setPc (hne rfl) _
  | waitReturns htN ht hnil hnodup harmed => exact Stays.setPc (s := s) (.inl rfl) (hne rfl) _
  | @outDone t empty htN ht => cases empty <;> exact hsame.setPc (hne rfl) _
  | more htN ht hf hs => exact Stays.setPc (s := s) (hs.pc u) (hne rfl) _
  | submit hs => exact hs.pc u
  | endBegin => exact hsame
  | endReturn he =>
    change (if s.pc u = .waiting then Pc.woken else s.pc u) = s.pc u ∨
      s.pc u = .waiting ∧ (if s.pc u = .waiting then Pc.woken else s.pc u) = .woken
    split_ifs with hw
    · exact .inr ⟨hw, rfl⟩
    · exact .inl rfl
  | registers hr => exact .inl (hr.pc u)

/-! ## What the registry has for `out` -/

/-- `out` is in its slot, open and registered. -/
structure Seated (s : State) : Prop where
  slot : s.slot outIdent = some outIdent
  ident : s.identOf outIdent = outIdent
  owner : s.fdOwner outIdent = some outIdent
  interest : (s.interest outIdent).isSome = true

/-- The registry has the same for `out`. -/
structure SameOut (s s' : State) : Prop where
  slot : s'.slot outIdent = s.slot outIdent
  ident : s'.identOf outIdent = s.identOf outIdent
  owner : s'.fdOwner outIdent = s.fdOwner outIdent
  interest : s'.interest outIdent = s.interest outIdent

theorem SameOut.of_toRegistry (h : s'.toRegistry = s.toRegistry) : SameOut s s' := by
  constructor <;> rw [h]

theorem SameOut.trans (h : SameOut s s₁) (h' : SameOut s₁ s') : SameOut s s' :=
  ⟨h'.slot.trans h.slot, h'.ident.trans h.ident, h'.owner.trans h.owner, h'.interest.trans h.interest⟩

theorem SameOut.seated (h : SameOut s s') (hs : Seated s) : Seated s' :=
  ⟨h.slot.trans hs.slot, h.ident.trans hs.ident, h.owner.trans hs.owner, by rw [h.interest]; exact hs.interest⟩

theorem SameOut.armed (h : SameOut s s') : s'.armed outIdent = s.armed outIdent := by
  unfold State.armed
  rw [h.interest]

/-- `out` is referenced by its slot, so nothing closes its descriptor. -/
theorem Seated.settle (h : Seated s) (x : ℕ) : SameOut s (settle N x s) := by
  obtain hs | ⟨hown, hdead, hs⟩ := settle_cases N x s
  · rw [hs]
    exact .of_toRegistry rfl
  have hne : outIdent ≠ s.identOf x := by
    intro hx
    rw [← hx, h.owner] at hown
    obtain rfl : outIdent = x := Option.some.inj hown
    refine (alive_eq_false hdead).2.1 ?_
    rw [h.ident]
    exact h.slot
  rw [hs]
  exact ⟨rfl, rfl, Function.update_of_ne hne _ _, Function.update_of_ne hne _ _⟩

theorem Seated.settle? (h : Seated s) (x : Option ℕ) : SameOut s (settle? N x s) := by
  cases x with
  | none => exact .of_toRegistry rfl
  | some x => exact h.settle x

theorem Seated.resetHandler (h : Seated s) {i : ℕ} (hi : i ≠ outIdent) : SameOut s (resetHandler N i s) := by
  have hslot : SameOut s { s with slot := Function.update s.slot i none } :=
    ⟨Function.update_of_ne hi.symm _ _, rfl, rfl, rfl⟩
  exact hslot.trans ((hslot.seated h).settle? _)

theorem Seated.setHandler (h : Seated s) {x : ℕ} (hx : s.fdOwner (s.identOf x) = some x) :
    SameOut s (setHandler N s x) := by
  have hslot : SameOut s { s with slot := Function.update s.slot (s.identOf x) (some x) } := by
    refine ⟨?_, rfl, rfl, rfl⟩
    by_cases hi : outIdent = s.identOf x
    · rw [← hi, h.owner] at hx
      change Function.update s.slot (s.identOf x) (some x) outIdent = s.slot outIdent
      rw [← hi, Function.update_self, h.slot, hx]
    · exact Function.update_of_ne hi _ _
  exact hslot.trans ((hslot.seated h).settle? _)

theorem Seated.addFd (h : Seated s) (i x : ℕ) : SameOut s (addFd s i x) := by
  refine ⟨rfl, rfl, rfl, ?_⟩
  by_cases hi : outIdent = i
  · obtain ⟨r, hr⟩ := Option.isSome_iff_exists.mp h.interest
    simp [Loop.addFd, ← hi, hr]
  · exact Function.update_of_ne hi _ _

theorem SameOut.setAdd (h : SameOut s s₁) (x : ℕ) (stage : AddStage) : SameOut s (setAdd s₁ x stage) :=
  ⟨h.slot, h.ident, h.owner, h.interest⟩

theorem sameOut_removeFd {i : ℕ} (hi : i ≠ outIdent) : SameOut s (removeFd s i) :=
  ⟨rfl, rfl, rfl, Function.update_of_ne hi.symm _ _⟩

theorem sameOut_reactivate {i : ℕ} (hi : i ≠ outIdent) : SameOut s (reactivate s i) :=
  ⟨rfl, rfl, rfl, Function.update_of_ne hi.symm _ _⟩

theorem Seated.create (h : Seated s) (ho : Owned N s) {x i : ℕ} (hc : create s x i = some s₁) :
    SameOut s s₁ ∧ s₁.fdOwner (s₁.identOf x) = some x := by
  obtain ⟨hfresh, hfree, rfl⟩ := create_cases hc
  have hx : outIdent ≠ x := by
    rintro rfl
    exact ho.fresh _ _ h.owner hfresh
  have hi : outIdent ≠ i := by
    rintro rfl
    rw [h.owner] at hfree
    cases hfree
  exact ⟨⟨rfl, Function.update_of_ne hx _ _, Function.update_of_ne hi _ _, rfl⟩, by simp⟩

/-- No removal of `out` is under way. -/
def Unremoved (s : State) : Prop := ∀ kind, (kind, outIdent) ∉ s.removals

@[simp] theorem settle_removals (N x : ℕ) (s : State) : (settle N x s).removals = s.removals := by
  unfold settle
  split_ifs <;> rfl

@[simp] theorem settle?_removals (N : ℕ) (x : Option ℕ) (s : State) :
    (settle? N x s).removals = s.removals := by
  cases x with
  | none => rfl
  | some x => exact settle_removals N x s

@[simp] theorem setHandler_removals (N x : ℕ) (s : State) : (setHandler N s x).removals = s.removals :=
  settle?_removals _ _ _

theorem create_removals {x i : ℕ} (hc : create s x i = some s₁) : s₁.removals = s.removals := by
  obtain ⟨-, -, rfl⟩ := create_cases hc
  rfl

theorem Unremoved.cons {kind : SourceKind} {i : ℕ} (h : Unremoved s) (hi : i ≠ outIdent)
    (hs : s'.removals = (kind, i) :: s.removals) : Unremoved s' := by
  intro kind' hmem
  rw [hs] at hmem
  obtain heq | hmem := List.mem_cons.mp hmem
  · exact hi (Prod.mk.inj heq).2.symm
  · exact h kind' hmem

theorem Unremoved.erase {x : SourceKind × ℕ} (h : Unremoved s) (hs : s'.removals = s.removals.erase x) :
    Unremoved s' := by
  intro kind hmem
  rw [hs] at hmem
  exact h kind (List.mem_of_mem_erase hmem)

theorem Unremoved.of_eq (h : Unremoved s) (hs : s'.removals = s.removals) : Unremoved s' := by
  unfold Unremoved
  rw [hs]
  exact h

theorem Seated.registers (h : Seated s) (hu : Unremoved s) (ho : Owned N s) (hr : Registers N s a s') :
    SameOut s s' ∧ Unremoved s' := by
  have hother {kind : SourceKind} {i : ℕ} (hm : (kind, i) ∈ s.removals) : i ≠ outIdent := by
    rintro rfl
    exact hu kind hm
  cases hr with
  | addHandler hc =>
    obtain ⟨hsame, hown⟩ := h.create ho hc
    have hset := hsame.trans ((hsame.seated h).setHandler (N := N) hown)
    exact ⟨(hset.trans ((hset.seated h).addFd _ _)).setAdd _ _,
      hu.of_eq ((setHandler_removals _ _ _).trans (create_removals hc))⟩
  | publish hc =>
    obtain ⟨hsame, hown⟩ := h.create ho hc
    exact ⟨(hsame.trans ((hsame.seated h).setHandler hown)).setAdd _ _,
      hu.of_eq ((setHandler_removals _ _ _).trans (create_removals hc))⟩
  | @register kind x i s₁ hk hc =>
    obtain ⟨hsame, -⟩ := h.create ho hc
    have hsame' : Unremoved s₁ := hu.of_eq (create_removals hc)
    exact ⟨(hsame.trans ((hsame.seated h).addFd _ _)).setAdd _ _, hsame'⟩
  | registerEnd hadd => exact ⟨(h.addFd _ _).setAdd _ _, hu⟩
  | publishEnd hk hadd =>
    exact ⟨(h.setHandler (ho.ext _ (ho.adding _ (.inr hadd)))).setAdd _ _,
      hu.of_eq (setHandler_removals _ _ _)⟩
  | @removeBegin kind i hk hi =>
    have htarget : SameOut s { target s i with removals := (kind, i) :: s.removals } := ⟨rfl, rfl, rfl, rfl⟩
    exact ⟨htarget.trans ((htarget.seated h).resetHandler hi), hu.cons hi (settle?_removals _ _ _)⟩
  | @removeSignalBegin i hi =>
    have htarget : SameOut s { target s i with removals := (.signal, i) :: s.removals } := ⟨rfl, rfl, rfl, rfl⟩
    exact ⟨htarget.trans (sameOut_removeFd hi), hu.cons hi rfl⟩
  | @removeEnd kind i hk hm =>
    have herase : SameOut s { s with removals := s.removals.erase (kind, i) } := ⟨rfl, rfl, rfl, rfl⟩
    exact ⟨herase.trans (sameOut_removeFd (hother hm)), hu.erase rfl⟩
  | @removeSignalEnd i hm =>
    have herase : SameOut s { s with removals := s.removals.erase (.signal, i) } := ⟨rfl, rfl, rfl, rfl⟩
    exact ⟨herase.trans ((herase.seated h).resetHandler (hother hm)), hu.erase (settle?_removals _ _ _)⟩
  | keepRef hadd hl => exact ⟨⟨rfl, rfl, rfl, rfl⟩, hu⟩
  | @dropRef x hadd =>
    have hdrop : SameOut s { s with ext := Function.update s.ext x false } := ⟨rfl, rfl, rfl, rfl⟩
    exact ⟨hdrop.trans ((hdrop.seated h).settle _), hu.of_eq (settle_removals _ _ _)⟩

/-! ## The threads -/

/-- A thread with an event of `out` arms it again, and one with another event goes to its handler. -/
def Pc.Sorted : Pc → Prop
  | .rearmOut ke => ke.ident = outIdent
  | .dispatch ke | .running ke _ _ | .evReset ke _ _ | .rearm ke _ | .drop ke _ | .reset ke _ =>
    ke.ident ≠ outIdent
  | _ => True

theorem sorted_back (k : Kind) : k.back.Sorted := by
  cases k <;> trivial

theorem sorted_leave (k : Kind) : k.leave.Sorted := by
  cases k <;> trivial

theorem sorted_entry (ke : Event) : ke.entry.Sorted := by
  unfold Event.entry
  split_ifs with h
  · exact h
  · exact h

theorem Locked.sorted {t : ℕ} (h : Locked N s t s') : (s'.pc t).Sorted := by
  cases h with
  | leave ht he =>
    rw [pc_setPc_self]
    exact sorted_leave _
  | moreEvent ht he hm =>
    rw [pc_setPc_self]
    exact sorted_entry _
  | backlogEvent ht he hp hn hb =>
    rw [pc_setPc_self]
    exact sorted_entry _
  | relock ht hs hb =>
    rw [pc_setPc_self]
    exact sorted_entry _
  | resign ht hk hp =>
    rw [pc_setPc_self]
    obtain rfl | rfl := hp <;> trivial
  | @done last ht =>
    cases last with
    | true =>
      rw [if_pos rfl, pc_setPc_self]
      trivial
    | false =>
      rw [if_neg Bool.false_ne_true, State.back, pc_setPc_self]
      exact sorted_back _
  | flushed ht =>
    rw [State.back, pc_setPc_self]
    exact sorted_back _
  | _ =>
    rw [pc_setPc_self]
    trivial

theorem Dispatches.sorted {t : ℕ} (h : Dispatches N s t a s') (ht : (s.pc t).Sorted) : (s'.pc t).Sorted := by
  cases h with
  | rearmOut hpc | rearm hpc | reset hpc | finish hpc hf =>
    simp only [State.back, settle_pc, settle?_pc, pc_setPc_self]
    exact sorted_back _
  | dispatch hpc hh | dispatchEmpty hpc hh | evReset hpc | drop hpc | next hpc hf | evRemove hpc hf
  | finishRearm hpc hf | finishDrop hpc hf =>
    rw [hpc] at ht
    simpa [Pc.Sorted] using ht

theorem Step.sorted (h : Step N s a s') (hs : ∀ u, (s.pc u).Sorted) (u : ℕ) : (s'.pc u).Sorted := by
  by_cases hu : a.actor = some u
  · have hset {s₁ : State} {t : ℕ} {p : Pc} (ht : some t = some u) (hp : p.Sorted) :
        ((s₁.setPc t p).pc u).Sorted := by
      obtain rfl := Option.some.inj ht
      rwa [pc_setPc_self]
    cases h with
    | locked htN hl =>
      obtain rfl := Option.some.inj hu
      exact hl.sorted
    | dispatches htN hd =>
      obtain rfl := Option.some.inj (hd.actor.symm.trans hu)
      exact hd.sorted (hs _)
    | @call t block htN hk ht =>
      obtain rfl := Option.some.inj hu
      change (Function.update s.threads t ⟨.once block, .start⟩ t).pc.Sorted
      rw [Function.update_self]
      trivial
    | wakeup htN ht | timeout htN ht => exact hset hu trivial
    | waitReturns htN ht hnil hnodup harmed => exact hset hu trivial
    | @outDone t empty htN ht =>
      cases empty
      · exact hset hu (sorted_back _)
      · exact hset hu trivial
    | @more t wake ke x flags s₁ htN ht hf hs₁ =>
      refine hset hu ?_
      have hke := hs t
      rw [ht] at hke
      exact hke
    | submit hs₁ => cases hu
    | endBegin => cases hu
    | endReturn he => cases hu
    | registers hr =>
      rw [hr.pc]
      exact hs u
  · obtain hsame | ⟨-, hw⟩ := h.stays hu
    · rw [hsame]
      exact hs u
    · rw [hw]
      trivial

/-! ## The token -/

/-- Events of `out` that have been reported and not worked off. -/
def outEvents (N : ℕ) (s : State) : ℕ := (pending N s).countP (·.ident = outIdent)

theorem countP_event (ke : Event) :
    ({ke} : Multiset Event).countP (·.ident = outIdent) = if ke.ident = outIdent then 1 else 0 := by
  rw [← Multiset.cons_zero, Multiset.countP_cons, Multiset.countP_zero, zero_add]

/-- The descriptor of `out` is armed, or its event is on the way. -/
structure OutToken (N : ℕ) (s : State) : Prop where
  seated : Seated s
  unremoved : Unremoved s
  sorted : ∀ u, (s.pc u).Sorted
  one : s.armed outIdent + outEvents N s = 1

theorem OutToken.init (N : ℕ) (kinds : ℕ → Kind) : OutToken N (.init kinds) where
  seated := by constructor <;> simp [State.init]
  unremoved kind hm := by cases hm
  sorted u := sorted_back (kinds u)
  one := by
    have hpend : ∑ t ∈ Finset.range N, ((State.init kinds).pc t).pending = 0 :=
      Finset.sum_eq_zero fun t _ => pending_back (kinds t)
    unfold outEvents pending
    rw [hpend]
    simp [State.init, State.rest, State.armed]

/-- A step that leaves the registry of `out` and the events alone. -/
theorem OutToken.frame (h : OutToken N s) (hs : SameOut s s') (hu : Unremoved s')
    (hsort : ∀ u, (s'.pc u).Sorted) (he : outEvents N s' = outEvents N s) : OutToken N s' :=
  ⟨hs.seated h.seated, hu, hsort, by rw [hs.armed, he]; exact h.one⟩

theorem SameOut.setPc (h : SameOut s s₁) (t : ℕ) (p : Pc) : SameOut s (s₁.setPc t p) :=
  ⟨h.slot, h.ident, h.owner, h.interest⟩

theorem SameOut.back (h : SameOut s s₁) (t : ℕ) : SameOut s (s₁.back t) := h.setPc t _

theorem Dispatches.removals {t : ℕ} (h : Dispatches N s t a s') : s'.removals = s.removals := by
  cases h with
  | evReset ht => exact settle?_removals _ _ _
  | reset ht => exact (settle?_removals _ _ _).trans (settle?_removals _ _ _)
  | rearm ht | finish ht hf => exact settle_removals _ _ _
  | _ => rfl

theorem Dispatches.sameOut {t : ℕ} (h : Dispatches N s t a s') (hs : Seated s) (hsort : (s.pc t).Sorted)
    (hno : ∀ ke, s.pc t ≠ .rearmOut ke) : SameOut s s' := by
  have hrefl : SameOut s s := .of_toRegistry rfl
  have hident {ke : Event} {p : Pc} (ht : s.pc t = p) (hp : p.Sorted → ke.ident ≠ outIdent) :
      ke.ident ≠ outIdent := hp (ht ▸ hsort)
  cases h with
  | @rearmOut k wake ke ht => exact absurd ht (hno ke)
  | dispatch ht hh => exact ⟨rfl, rfl, rfl, rfl⟩
  | dispatchEmpty ht hh => exact hrefl.setPc _ _
  | @evReset k wake ke x flags ht =>
    have hpc := hrefl.setPc t (.running ke x { flags with removed := true })
    exact hpc.trans ((hpc.seated hs).resetHandler (hident ht id))
  | rearm ht =>
    have hre := (sameOut_reactivate (s := s) (hident ht id)).back t
    exact hre.trans ((hre.seated hs).settle _)
  | drop ht => exact (sameOut_removeFd (hident ht id)).setPc _ _
  | reset ht =>
    have hreset := (hs.resetHandler (N := N) (hident ht id)).back t
    exact hreset.trans ((hreset.seated hs).settle? _)
  | next ht hf => exact (sameOut_reactivate (hident ht id)).setPc _ _
  | evRemove ht hf => exact (sameOut_removeFd (hident ht id)).setPc _ _
  | @finish ke x flags cont ht hf =>
    have hstop : SameOut s ((s.stop x cont).back t) := ⟨rfl, rfl, rfl, rfl⟩
    exact hstop.trans ((hstop.seated hs).settle _)
  | finishRearm ht hf | finishDrop ht hf => exact ⟨rfl, rfl, rfl, rfl⟩

theorem Dispatches.outEvents {t : ℕ} (h : Dispatches N s t a s') (htN : t < N) :
    Loop.outEvents N s = Loop.outEvents N s' + (s.pc t).pending.countP (·.ident = outIdent) := by
  unfold Loop.outEvents
  rw [h.pending htN, Multiset.countP_add]

theorem OutToken.rearmed {t : ℕ} {ke : Event} (h : OutToken N s) (htN : t < N) (ht : s.pc t = .rearmOut ke)
    (hd : Dispatches N s t a ((reactivate s ke.ident).back t)) (hsort : ∀ u, (s'.pc u).Sorted)
    (hs : s' = (reactivate s ke.ident).back t) : OutToken N s' := by
  have hke : ke.ident = outIdent := by
    have hsorted := h.sorted t
    rwa [ht] at hsorted
  have hevents := hd.outEvents htN
  rw [← hs, ht, show (Pc.rearmOut ke).pending = {ke} from rfl, countP_event, if_pos hke] at hevents
  obtain ⟨r, hr⟩ := Option.isSome_iff_exists.mp h.seated.interest
  have hinterest : s'.interest outIdent = some ⟨true, r.owner⟩ := by
    rw [hs, hke]
    simp [reactivate, State.back, State.setPc, hr]
  have hone := h.one
  refine ⟨⟨?_, ?_, ?_, by rw [hinterest]; rfl⟩, ?_, hsort, ?_⟩
  · rw [hs]
    exact h.seated.slot
  · rw [hs]
    exact h.seated.ident
  · rw [hs]
    exact h.seated.owner
  · rw [hs]
    exact h.unremoved
  · have harmed : s'.armed outIdent = 1 := by
      unfold State.armed
      rw [hinterest]
      rfl
    omega

theorem OutToken.dispatches {t : ℕ} (h : OutToken N s) (htN : t < N) (hd : Dispatches N s t a s')
    (hsort : ∀ u, (s'.pc u).Sorted) : OutToken N s' := by
  by_cases hre : ∃ ke, s.pc t = .rearmOut ke
  · obtain ⟨ke, ht⟩ := hre
    have hs : s' = (reactivate s ke.ident).back t := by
      cases hd with
      | rearmOut ht' =>
        rw [ht] at ht'
        rw [Pc.rearmOut.inj ht']
      | dispatch ht' | dispatchEmpty ht' | evReset ht' | rearm ht' | drop ht' | reset ht' | next ht'
      | evRemove ht' | finish ht' | finishRearm ht' | finishDrop ht' =>
        rw [ht] at ht'
        cases ht'
    exact h.rearmed htN ht (hs ▸ hd) hsort hs
  · have hno : ∀ ke, s.pc t ≠ .rearmOut ke := fun ke ht => hre ⟨ke, ht⟩
    have hevents := hd.outEvents htN
    have hsorted := h.sorted t
    have hzero : (s.pc t).pending.countP (·.ident = outIdent) = 0 := by
      cases hd with
      | @rearmOut k wake ke ht => exact absurd ht (hno ke)
      | dispatch ht | dispatchEmpty ht =>
        rw [ht] at hsorted ⊢
        exact (countP_event _).trans (if_neg hsorted)
      | evReset ht | rearm ht | drop ht | reset ht | next ht | evRemove ht | finish ht | finishRearm ht
      | finishDrop ht =>
        rw [ht]
        rfl
    exact h.frame (hd.sameOut h.seated hsorted hno) (h.unremoved.of_eq hd.removals) hsort (by omega)

theorem OutToken.report {t : ℕ} {idents : List ℕ} (h : OutToken N s) (htN : t < N) (ht : s.pc t = .polling)
    (hb : Backlog s) (hl : s.pool.Led N) (hnodup : idents.Nodup)
    (harmed : ∀ i ∈ idents, ((s.interest i).map (·.armed)) = some true)
    (hs : s' = (s.report idents).setPc t (.polled (idents.map (s.eventOf ·))))
    (hsort : ∀ u, (s'.pc u).Sorted) : OutToken N s' := by
  have hone := h.one
  have hinterest : s'.interest outIdent = if outIdent ∈ idents then
      (s.interest outIdent).map fun r => ⟨false, r.owner⟩ else s.interest outIdent := by
    rw [hs]
    rfl
  have hevents : outEvents N s' = outEvents N s + if outIdent ∈ idents then 1 else 0 := by
    unfold outEvents
    rw [hs, pending_report htN ht hb hl, Multiset.countP_add, Multiset.coe_countP, countP_events hnodup]
  refine ⟨⟨?_, ?_, ?_, ?_⟩, ?_, hsort, ?_⟩
  · rw [hs]
    exact h.seated.slot
  · rw [hs]
    exact h.seated.ident
  · rw [hs]
    exact h.seated.owner
  · rw [hinterest]
    split_ifs
    · rw [Option.isSome_map]
      exact h.seated.interest
    · exact h.seated.interest
  · rw [hs]
    exact h.unremoved
  · unfold State.armed at hone ⊢
    rw [hinterest, hevents]
    by_cases hmem : outIdent ∈ idents
    · rw [harmed outIdent hmem] at hone
      simp [hmem] at hone ⊢
      omega
    · simpa [hmem] using hone

theorem OutToken.step (h : OutToken N s) (ho : Owned N s) (hb : Backlog s) (hl : s.pool.Led N)
    (hh : Handed N s) (hs : Step N s a s') : OutToken N s' := by
  have hsort := hs.sorted h.sorted
  have hapart (hreg : s'.toRegistry = s.toRegistry) (hp : pending N s' = pending N s) : OutToken N s' :=
    h.frame (.of_toRegistry hreg) (h.unremoved.of_eq (by rw [hreg])) hsort (by unfold outEvents; rw [hp])
  cases hs with
  | locked htN hlocked => exact hapart hlocked.toRegistry (hlocked.pending htN hb hl hh)
  | dispatches htN hd => exact h.dispatches htN hd hsort
  | @call t block htN hk ht =>
    refine hapart rfl (pending_congr rfl rfl fun u => ?_)
    change ((Function.update s.threads t ⟨.once block, .start⟩ u).pc).pending = _
    by_cases hu : u = t
    · rw [hu, Function.update_self, ht]
      rfl
    · rw [Function.update_of_ne hu]
      rfl
  | wakeup htN ht | timeout htN ht =>
    exact hapart rfl (pending_setPc rfl rfl (fun _ => rfl) (by rw [ht]; rfl) rfl)
  | waitReturns htN ht hnil hnodup harmed => exact h.report htN ht hb hl hnodup harmed rfl hsort
  | @outDone t empty htN ht =>
    cases empty
    · exact hapart rfl (pending_setPc rfl rfl (fun _ => rfl) (by rw [ht]; rfl) (pending_back _))
    · exact hapart rfl (pending_setPc rfl rfl (fun _ => rfl) (by rw [ht]; rfl) rfl)
  | @more t wake ke x flags s₁ htN ht hf hs₁ =>
    have hke := h.sorted t
    rw [ht] at hke
    refine h.frame (.of_toRegistry hs₁.toRegistry)
      (h.unremoved.of_eq (congrArg Registry.removals hs₁.toRegistry)) hsort ?_
    unfold outEvents
    rw [pending_more (by rw [ht]; rfl) rfl hs₁]
    exact Multiset.countP_cons_of_neg _ hke
  | submit hs₁ =>
    have hq := hs₁.toQueues
    exact hapart hs₁.toRegistry
      (pending_congr (by rw [hq]) (by simp only [State.rest, hq]) hs₁.pending)
  | endBegin => exact hapart rfl (pending_congr rfl rfl fun _ => rfl)
  | endReturn he => exact hapart rfl pending_endReturn
  | registers hr =>
    obtain ⟨hsame, hu⟩ := h.seated.registers h.unremoved ho hr
    exact h.frame hsame hu hsort (by unfold outEvents; rw [hr.pending])

theorem reachable_outToken (h : (loopSystem N kinds).Reachable P s) : OutToken N s := by
  refine h.invariant (fun _ hs => hs ▸ .init N kinds) fun _ _ _ hr hi _ hs => ?_
  exact hi.step (reachable_owned hr) (reachable_backlog hr) (reachable_led hr) (reachable_handed hr)
    (step_cases hs)

/-- Whatever handlers are added and removed and whoever runs the loop, `out` keeps its slot and its
registration, its descriptor is armed or one event of it is on the way, and no thread ever dispatches one to
`out::operator()`, which would throw. -/
theorem out_stays_registered (h : (loopSystem N kinds).Reachable P s) :
    s.slot outIdent = some outIdent ∧ (s.interest outIdent).isSome = true ∧
      s.armed outIdent + outEvents N s = 1 ∧
      ∀ t < N, ∀ ke x, (s.pc t).held = some (ke, x) → x ≠ outIdent := by
  have hi := reachable_outToken h
  have ho := reachable_owned h
  refine ⟨hi.seated.slot, hi.seated.interest, hi.one, fun t htN ke x hx => ?_⟩
  rintro rfl
  have hident : ke.ident = outIdent :=
    (ho.ident ke.ident outIdent (ho.held t htN ke outIdent hx)).symm.trans hi.seated.ident
  have hsort := hi.sorted t
  cases hpc : s.pc t with
  | running ke' y flags | evReset ke' y flags | rearm ke' y =>
    rw [hpc] at hx hsort
    obtain ⟨rfl, -⟩ := Prod.mk.inj (Option.some.inj hx)
    exact hsort hident
  | drop ke' y | reset ke' y =>
    rw [hpc] at hx hsort
    cases y with
    | none => cases hx
    | some y =>
      obtain ⟨rfl, -⟩ := Prod.mk.inj (Option.some.inj hx)
      exact hsort hident
  | _ =>
    rw [hpc] at hx
    cases hx

/-- A handler is removed while the thread that has polled works on its event and on the one of `out`. -/
theorem out_stays_registered_polled : ∃ s, (loopSystem 2 fun _ => .main).Reachable (fun _ _ => True) s ∧
    s.pc 0 = .rearmOut ⟨outIdent, outIdent⟩ ∧ s.interest 5 = none ∧ s.slot outIdent = some outIdent ∧
    (s.interest outIdent).isSome = true ∧ s.armed outIdent + outEvents 2 s = 1 := by
  obtain ⟨s, hs, hq⟩ := System.exists_reachable_of_exec (S := loopSystem 2 fun _ => .main)
    (P := fun _ _ => True) (s := .init fun _ => .main)
    [.addHandler 1 5, .run 0 none 0, .run 1 none 0, .waitReturns 0 [outIdent, 5], .run 0 (some 1) 3,
      .removeBegin .handler 5, .removeEnd .handler 5]
    (fun s => decide (s.pc 0 = .rearmOut ⟨outIdent, outIdent⟩ ∧ s.interest 5 = none)) rfl (by decide +kernel)
  obtain ⟨hpc, hgone⟩ := of_decide_eq_true hq
  obtain ⟨hslot, hreg, hone, -⟩ := out_stays_registered hs
  exact ⟨s, hs, hpc, hgone, hslot, hreg, hone⟩

end Mpio.Wavy.Loop
