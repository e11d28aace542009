import Mathlib.Data.Nat.Basic
import Mathlib.Logic.Function.Basic

/-!
# Leader and followers

A pool of `N` threads shares one place where only one of them, the leader, may stand; `free` says that
nobody stands there. A thread with nothing to do waits on a condition variable, but only while somebody
leads. Handing over the lead signals the condition variable, and so does queueing work from outside.

* `Led`: there is at most one leader, and none while the place is free.
* `Occupied`: there is a leader when the place is not free.
* `Covered`: before the end, while the place is free two threads are not waiting, and while somebody
  leads queued work has an active thread. With two threads or more every step keeps it, so queued work
  is never left to threads that all wait or lead (`Covered.attended`).

`Resign`, giving up the lead without a signal, keeps `Led` but not `Covered`. A place whose leader has left
without freeing it stays `Abandoned`.
-/

namespace Mpio.Lib

/-- What a thread of the pool does. -/
inductive Mode
  | waiting
  | leading
  | active
  | gone
  deriving DecidableEq

structure Pool where
  mode : ℕ → Mode
  free : Bool
  work : Prop
  ending : Bool
  ended : Bool

namespace Pool

/-- One waiting thread becomes active, if there is one. -/
inductive Wakes (N : ℕ) (m m' : ℕ → Mode) : Prop
  | nobody (hm : m' = m) (h : ∀ t < N, m t ≠ .waiting)
  | one (t : ℕ) (htN : t < N) (ht : m t = .waiting) (hm : m' = Function.update m t .active)

/-- The steps of a pool. The queued work may change in any way while an active thread remains or
another thread becomes active. -/
inductive Step (N : ℕ) (p p' : Pool) : Prop
  | busy (t : ℕ) (htN : t < N) (ht : p.mode t = .active)
    (hm : p'.mode = p.mode ∨ Wakes N p.mode p'.mode) (hf : p'.free = p.free)
    (he : p'.ending = p.ending) (hd : p'.ended = p.ended)
  | idle (hm : p'.mode = p.mode) (hf : p'.free = p.free) (hw : p'.work → p.work)
    (he : p'.ending = p.ending) (hd : p'.ended = p.ended)
  | wait (t : ℕ) (htN : t < N) (ht : p.mode t = .active) (hfree : p.free = false)
    (hidle : ¬ p.work) (hend : p.ending = false)
    (hm : p'.mode = Function.update p.mode t .waiting) (hf : p'.free = p.free)
    (hw : p'.work → p.work) (he : p'.ending = p.ending) (hd : p'.ended = p.ended)
  | wake (t : ℕ) (htN : t < N) (ht : p.mode t = .waiting)
    (hm : p'.mode = Function.update p.mode t .active) (hf : p'.free = p.free)
    (he : p'.ending = p.ending) (hd : p'.ended = p.ended)
  | lead (t : ℕ) (htN : t < N) (ht : p.mode t = .active) (hfree : p.free = true)
    (hm : p'.mode = Function.update p.mode t .leading) (hf : p'.free = false)
    (he : p'.ending = p.ending) (hd : p'.ended = p.ended)
  | handOver (t : ℕ) (htN : t < N) (ht : p.mode t = .leading) {m : ℕ → Mode}
    (hs : Wakes N p.mode m) (hm : p'.mode = Function.update m t .active) (hf : p'.free = true)
    (he : p'.ending = p.ending) (hd : p'.ended = p.ended)
  | submit (hs : Wakes N p.mode p'.mode) (hf : p'.free = p.free) (he : p'.ending = p.ending)
    (hd : p'.ended = p.ended)
  | retire (t : ℕ) (htN : t < N) (hend : p.ending = true)
    (ht : p.mode t = .active ∧ p'.free = p.free ∨ p.mode t = .leading ∧ p'.free = true)
    (hm : p'.mode = Function.update p.mode t .gone) (he : p'.ending = p.ending)
    (hd : p'.ended = p.ended)
  | close (hm : p'.mode = p.mode) (hf : p'.free = p.free) (he : p'.ending = true)
    (hd : p'.ended = p.ended)
  | broadcast (hend : p.ending = true)
    (hm : ∀ t, p'.mode t = if p.mode t = .waiting then .active else p.mode t)
    (hf : p'.free = p.free) (he : p'.ending = p.ending)

/-- The leader becomes active without a signal. -/
structure Resign (N : ℕ) (p p' : Pool) : Prop where
  leader : ∃ t < N, p.mode t = .leading ∧ p'.mode = Function.update p.mode t .active
  free : p'.free = true

structure Led (N : ℕ) (p : Pool) : Prop where
  free : p.free = true → ∀ t < N, p.mode t ≠ .leading
  unique : ∀ t < N, ∀ u < N, p.mode t = .leading → p.mode u = .leading → t = u

/-- Somebody leads when the place is not free. -/
def Occupied (N : ℕ) (p : Pool) : Prop := p.free = false → ∃ t < N, p.mode t = .leading

structure Covered (N : ℕ) (p : Pool) : Prop where
  staffed : p.ending = false → ∀ t < N, p.mode t ≠ .gone
  spare : p.ending = false → p.free = true →
    ∃ t < N, ∃ u < N, t ≠ u ∧ p.mode t ≠ .waiting ∧ p.mode u ≠ .waiting
  tended : p.ending = false → p.free = false → p.work → ∃ t < N, p.mode t = .active
  awake : p.ended = true → p.ending = true ∧ ∀ t < N, p.mode t ≠ .waiting

variable {N : ℕ} {p p' : Pool} {m m' : ℕ → Mode} {t u : ℕ}

/-! ## At most one leader -/

theorem Wakes.of_ne_waiting (h : Wakes N m m') (hu : m u ≠ .waiting) : m' u = m u := by
  cases h with
  | nobody hm => rw [hm]
  | one t _ ht hm =>
    have hut : u ≠ t := by
      rintro rfl
      exact hu ht
    rw [hm, Function.update_of_ne hut]

theorem Led.mono (h : Led N p) (hm : ∀ u, p'.mode u = .leading → p.mode u = .leading)
    (hf : p'.free = true → p.free = true) : Led N p' where
  free hfree u hu hl := h.free (hf hfree) u hu (hm u hl)
  unique a ha b hb hla hlb := h.unique a ha b hb (hm a hla) (hm b hlb)

theorem Led.left (h : Led N p) (htN : t < N) (ht : p.mode t = .leading)
    (hm : ∀ u, u ≠ t → p'.mode u = .leading → p.mode u = .leading) (hself : p'.mode t ≠ .leading) :
    Led N p' := by
  have hnone : ∀ u < N, p'.mode u ≠ .leading := by
    intro u hu hl
    by_cases hut : u = t
    · subst hut
      exact hself hl
    · exact hut (h.unique u hu t htN (hm u hut hl) ht)
  exact ⟨fun _ => hnone, fun a ha _ _ hla _ => absurd hla (hnone a ha)⟩

theorem eq_of_update {x y : Mode} (hx : x ≠ y) (hm : m' = Function.update m t x)
    (hu : m' u = y) : m u = y := by
  rw [hm] at hu
  by_cases hut : u = t
  · subst hut
    rw [Function.update_self] at hu
    exact absurd hu hx
  · rwa [Function.update_of_ne hut] at hu

theorem Wakes.eq_of_ne_active (h : Wakes N m m') {y : Mode} (hy : y ≠ .active) (hu : m' u = y) :
    m u = y := by
  cases h with
  | nobody hm => exact hm ▸ hu
  | one t _ _ hm => exact eq_of_update hy.symm hm hu

theorem Led.resign (h : Led N p) (hr : Resign N p p') : Led N p' := by
  obtain ⟨t, htN, ht, hm⟩ := hr.leader
  refine h.left htN ht (fun u _ => eq_of_update (by decide) hm) ?_
  rw [hm, Function.update_self]
  decide

theorem Led.step (h : Led N p) (hs : Step N p p') : Led N p' := by
  cases hs with
  | busy t htN ht hm hf he hd =>
    refine h.mono (fun u hu => ?_) (fun hfree => hf ▸ hfree)
    rcases hm with hm | hm
    · rwa [hm] at hu
    · exact hm.eq_of_ne_active (by decide) hu
  | idle hm hf hw he hd => exact h.mono (fun u hu => hm ▸ hu) (fun hfree => hf ▸ hfree)
  | wait t htN ht hfree hidle hend hm hf hw he hd =>
    exact h.mono (fun u => eq_of_update (by decide) hm) (fun hfree => hf ▸ hfree)
  | wake t htN ht hm hf he hd =>
    exact h.mono (fun u => eq_of_update (by decide) hm) (fun hfree => hf ▸ hfree)
  | lead t htN ht hfree hm hf he hd =>
    -- nobody led before, so the new leader is the only one
    have honly : ∀ u < N, p'.mode u = .leading → u = t := by
      intro u hu hl
      by_contra hut
      rw [hm, Function.update_of_ne hut] at hl
      exact h.free hfree u hu hl
    refine ⟨fun hfree' => ?_, fun a ha b hb hla hlb => (honly a ha hla).trans (honly b hb hlb).symm⟩
    rw [hf] at hfree'
    cases hfree'
  | handOver t htN ht hw hm hf he hd =>
    refine h.left htN ht (fun u _ hu => ?_) ?_
    · exact hw.eq_of_ne_active (by decide) (eq_of_update (by decide) hm hu)
    · rw [hm, Function.update_self]
      decide
  | submit hw hf he hd =>
    exact h.mono (fun u => hw.eq_of_ne_active (by decide)) (fun hfree => hf ▸ hfree)
  | retire t htN hend ht hm he hd =>
    obtain ⟨ht, hf⟩ | ⟨ht, hf⟩ := ht
    · exact h.mono (fun u => eq_of_update (by decide) hm) (fun hfree => hf ▸ hfree)
    · refine h.left htN ht (fun u _ => eq_of_update (by decide) hm) ?_
      rw [hm, Function.update_self]
      decide
  | close hm hf he hd => exact h.mono (fun u hu => hm ▸ hu) (fun hfree => hf ▸ hfree)
  | broadcast hend hm hf he =>
    refine h.mono (fun u hu => ?_) (fun hfree => hf ▸ hfree)
    rw [hm u] at hu
    split_ifs at hu
    exact hu

/-! ## A place that is not free has its leader -/

theorem Occupied.mono (h : Occupied N p) (hm : ∀ u, p.mode u = .leading → p'.mode u = .leading)
    (hf : p'.free = p.free) : Occupied N p' := by
  intro hfree
  obtain ⟨u, huN, hu⟩ := h (hf ▸ hfree)
  exact ⟨u, huN, hm u hu⟩

theorem Occupied.of_free (hf : p'.free = true) : Occupied N p' := by
  intro hfree
  rw [hf] at hfree
  cases hfree

theorem leading_of_update {x y : Mode} (ht : m t = x) (hx : x ≠ .leading)
    (hm : m' = Function.update m t y) (hu : m u = .leading) : m' u = .leading := by
  have hut : u ≠ t := by
    rintro rfl
    exact hx (ht.symm.trans hu)
  rw [hm, Function.update_of_ne hut]
  exact hu

theorem Wakes.leading (h : Wakes N m m') (hu : m u = .leading) : m' u = .leading := by
  rw [h.of_ne_waiting (by simp [hu])]
  exact hu

theorem Occupied.step (h : Occupied N p) (hs : Step N p p') : Occupied N p' := by
  cases hs with
  | busy t htN ht hm hf he hd =>
    refine h.mono (fun u hu => ?_) hf
    rcases hm with hm | hm
    · rwa [hm]
    · exact hm.leading hu
  | idle hm hf hw he hd => exact h.mono (fun u hu => hm ▸ hu) hf
  | wait t htN ht hfree hidle hend hm hf hw he hd =>
    exact h.mono (fun u => leading_of_update ht (by decide) hm) hf
  | wake t htN ht hm hf he hd => exact h.mono (fun u => leading_of_update ht (by decide) hm) hf
  | lead t htN ht hfree hm hf he hd =>
    intro _
    exact ⟨t, htN, by rw [hm, Function.update_self]⟩
  | handOver t htN ht hw hm hf he hd => exact .of_free hf
  | submit hw hf he hd => exact h.mono (fun u => hw.leading) hf
  | retire t htN hend ht hm he hd =>
    obtain ⟨ht, hf⟩ | ⟨ht, hf⟩ := ht
    · exact h.mono (fun u => leading_of_update ht (by decide) hm) hf
    · exact .of_free hf
  | close hm hf he hd => exact h.mono (fun u hu => hm ▸ hu) hf
  | broadcast hend hm hf he =>
    refine h.mono (fun u hu => ?_) hf
    rw [hm u, hu]
    rfl

/-! ## No work without an active thread -/

/-- A step after which nobody new waits or is gone, with the place as free as before. -/
theorem Covered.keep (h : Covered N p) (hgone : ∀ u, p'.mode u = .gone → p.mode u = .gone)
    (hwait : ∀ u, p'.mode u = .waiting → p.mode u = .waiting) (hf : p'.free = p.free)
    (he : p'.ending = p.ending) (hd : p'.ended = p.ended)
    (htend : p.ending = false → p.free = false → p'.work → ∃ t < N, p'.mode t = .active) :
    Covered N p' where
  staffed hend u hu hg := h.staffed (he ▸ hend) u hu (hgone u hg)
  spare hend hfree := by
    obtain ⟨a, ha, b, hb, hab, hwa, hwb⟩ := h.spare (he ▸ hend) (hf ▸ hfree)
    exact ⟨a, ha, b, hb, hab, fun hw => hwa (hwait a hw), fun hw => hwb (hwait b hw)⟩
  tended hend hfree hw := htend (he ▸ hend) (hf ▸ hfree) hw
  awake hended := by
    obtain ⟨hend, hno⟩ := h.awake (hd ▸ hended)
    exact ⟨he ▸ hend, fun u hu hw => hno u hu (hwait u hw)⟩

theorem exists_active (hl : Led N p) (hstaff : ∀ u < N, p.mode u ≠ .gone) {a b : ℕ} (ha : a < N)
    (hb : b < N) (hab : a ≠ b) (hwa : p.mode a ≠ .waiting) (hwb : p.mode b ≠ .waiting) :
    ∃ t < N, p.mode t = .active := by
  by_cases hla : p.mode a = .leading
  · have hlb : p.mode b ≠ .leading := fun hlb => hab (hl.unique a ha b hb hla hlb)
    have hgb := hstaff b hb
    exact ⟨b, hb, by cases hm : p.mode b <;> simp_all⟩
  · have hga := hstaff a ha
    exact ⟨a, ha, by cases hm : p.mode a <;> simp_all⟩

theorem Covered.submit (hN : 2 ≤ N) (hl : Led N p) (h : Covered N p)
    (hs : Wakes N p.mode p'.mode) (hf : p'.free = p.free) (he : p'.ending = p.ending)
    (hd : p'.ended = p.ended) : Covered N p' := by
  refine h.keep (fun u => hs.eq_of_ne_active (by decide)) (fun u => hs.eq_of_ne_active (by decide))
    hf he hd ?_
  intro hend _ _
  cases hs with
  | nobody hm hno =>
    rw [hm]
    exact exists_active hl (h.staffed hend) (by omega : 0 < N) (by omega : 1 < N) (by decide)
      (hno 0 (by omega)) (hno 1 (by omega))
  | one t htN _ hm => exact ⟨t, htN, by rw [hm, Function.update_self]⟩

theorem Covered.lead (hl : Led N p) (h : Covered N p) (hfree : p.free = true)
    (hm : p'.mode = Function.update p.mode t .leading) (hf : p'.free = false)
    (he : p'.ending = p.ending) (hd : p'.ended = p.ended) : Covered N p' where
  staffed hend u hu hg := h.staffed (he ▸ hend) u hu (eq_of_update (by decide) hm hg)
  spare _ hfree' := by
    rw [hf] at hfree'
    cases hfree'
  tended hend _ _ := by
    -- both spare threads are active, and one of them is not the new leader
    have hactive : ∀ u < N, p.mode u ≠ .waiting → p.mode u = .active := by
      intro u hu hw
      have hg := h.staffed (he ▸ hend) u hu
      have hlead := hl.free hfree u hu
      cases hmode : p.mode u <;> simp_all
    obtain ⟨a, ha, b, hb, hab, hwa, hwb⟩ := h.spare (he ▸ hend) hfree
    rw [hm]
    by_cases hat : a = t
    · exact ⟨b, hb, by rw [Function.update_of_ne (hat ▸ hab.symm)]; exact hactive b hb hwb⟩
    · exact ⟨a, ha, by rw [Function.update_of_ne hat]; exact hactive a ha hwa⟩
  awake hended := by
    obtain ⟨hend, hno⟩ := h.awake (hd ▸ hended)
    exact ⟨he ▸ hend, fun u hu hw => hno u hu (eq_of_update (by decide) hm hw)⟩

theorem Covered.handOver (hN : 2 ≤ N) (h : Covered N p) (htN : t < N) (ht : p.mode t = .leading)
    (hs : Wakes N p.mode m) (hm : p'.mode = Function.update m t .active) (hf : p'.free = true)
    (he : p'.ending = p.ending) (hd : p'.ended = p.ended) : Covered N p' where
  staffed hend u hu hg :=
    h.staffed (he ▸ hend) u hu (hs.eq_of_ne_active (by decide) (eq_of_update (by decide) hm hg))
  spare _ _ := by
    have hself : p'.mode t ≠ .waiting := by
      rw [hm, Function.update_self]
      decide
    have hother : ∀ u, u ≠ t → m u ≠ .waiting → p'.mode u ≠ .waiting := by
      intro u hut hu
      rwa [hm, Function.update_of_ne hut]
    cases hs with
    | nobody hsame hno =>
      obtain ⟨u, hu, hut⟩ : ∃ u < N, u ≠ t := by
        by_cases h0 : t = 0
        · exact ⟨1, by omega, by omega⟩
        · exact ⟨0, by omega, by omega⟩
      exact ⟨t, htN, u, hu, hut.symm, hself, hother u hut (hsame ▸ hno u hu)⟩
    | one u hu hw hsame =>
      have hut : u ≠ t := by
        rintro rfl
        rw [ht] at hw
        cases hw
      refine ⟨t, htN, u, hu, hut.symm, hself, hother u hut ?_⟩
      rw [hsame, Function.update_self]
      decide
  tended _ hfree _ := by
    rw [hf] at hfree
    cases hfree
  awake hended := by
    obtain ⟨hend, hno⟩ := h.awake (hd ▸ hended)
    refine ⟨he ▸ hend, fun u hu hw => hno u hu ?_⟩
    exact hs.eq_of_ne_active (by decide) (eq_of_update (by decide) hm hw)

theorem Covered.step (hN : 2 ≤ N) (hl : Led N p) (h : Covered N p) (hs : Step N p p') :
    Covered N p' := by
  cases hs with
  | busy t htN ht hm hf he hd =>
    have hsame : ∀ y, y ≠ Mode.active → ∀ u, p'.mode u = y → p.mode u = y := by
      intro y hy u hu
      rcases hm with hm | hm
      · rwa [hm] at hu
      · exact hm.eq_of_ne_active hy hu
    refine h.keep (hsame .gone (by decide)) (hsame .waiting (by decide)) hf he hd ?_
    refine fun _ _ _ => ⟨t, htN, ?_⟩
    rcases hm with hm | hm
    · rw [hm, ht]
    · rw [hm.of_ne_waiting (by rw [ht]; decide), ht]
  | idle hm hf hw he hd =>
    refine h.keep (fun u hu => hm ▸ hu) (fun u hu => hm ▸ hu) hf he hd ?_
    intro hend hfree hwork
    rw [hm]
    exact h.tended hend hfree (hw hwork)
  | wait t htN ht hfree hidle hend hm hf hw he hd =>
    refine ⟨fun hend u hu hg => ?_, fun _ hfree' => ?_, fun _ _ hwork => ?_, fun hended => ?_⟩
    · exact h.staffed (he ▸ hend) u hu (eq_of_update (by decide) hm hg)
    · rw [hf, hfree] at hfree'
      cases hfree'
    · exact absurd (hw hwork) hidle
    · -- the pool is not ending, so it has not ended
      have := (h.awake (hd ▸ hended)).1
      rw [hend] at this
      cases this
  | wake t htN ht hm hf he hd =>
    exact h.keep (fun u => eq_of_update (by decide) hm) (fun u => eq_of_update (by decide) hm)
      hf he hd fun _ _ _ => ⟨t, htN, by rw [hm, Function.update_self]⟩
  | lead t htN ht hfree hm hf he hd => exact h.lead hl hfree hm hf he hd
  | handOver t htN ht hw hm hf he hd => exact h.handOver hN htN ht hw hm hf he hd
  | submit hw hf he hd => exact h.submit hN hl hw hf he hd
  | retire t htN hend ht hm he hd =>
    have hend' : p'.ending ≠ false := by simp [he, hend]
    refine ⟨fun h' => absurd h' hend', fun h' => absurd h' hend', fun h' => absurd h' hend', ?_⟩
    intro hended
    obtain ⟨-, hno⟩ := h.awake (hd ▸ hended)
    exact ⟨he ▸ hend, fun u hu hw => hno u hu (eq_of_update (by decide) hm hw)⟩
  | close hm hf he hd =>
    have hend' : p'.ending ≠ false := by simp [he]
    refine ⟨fun h' => absurd h' hend', fun h' => absurd h' hend', fun h' => absurd h' hend', ?_⟩
    intro hended
    obtain ⟨-, hno⟩ := h.awake (hd ▸ hended)
    exact ⟨he, fun u hu => hm ▸ hno u hu⟩
  | broadcast hend hm hf he =>
    have hend' : p'.ending ≠ false := by simp [he, hend]
    refine ⟨fun h' => absurd h' hend', fun h' => absurd h' hend', fun h' => absurd h' hend', ?_⟩
    refine fun _ => ⟨he ▸ hend, fun u _ => ?_⟩
    rw [hm u]
    split_ifs with hw
    · decide
    · exact hw

/-- Queued work has an active thread. -/
theorem Covered.attended (hl : Led N p) (h : Covered N p) (hend : p.ending = false)
    (hw : p.work) : ∃ t < N, p.mode t = .active := by
  cases hfree : p.free with
  | false => exact h.tended hend hfree hw
  | true =>
    obtain ⟨a, ha, b, hb, hab, hwa, hwb⟩ := h.spare hend hfree
    exact exists_active hl (h.staffed hend) ha hb hab hwa hwb

/-! ## A leader that has left without a word -/

/-- The place is not free, and nobody stands there. -/
structure Abandoned (N : ℕ) (p : Pool) : Prop where
  taken : p.free = false
  leaderless : ∀ t < N, p.mode t ≠ .leading

/-- Only the leader frees the place, and nobody becomes the leader of a place that is not free. -/
theorem Abandoned.step (h : Abandoned N p) (hs : Step N p p') : Abandoned N p' := by
  have hkeep (hm : ∀ u, p'.mode u = .leading → p.mode u = .leading) (hf : p'.free = p.free) : Abandoned N p' :=
    ⟨hf.trans h.taken, fun u huN hu => h.leaderless u huN (hm u hu)⟩
  cases hs with
  | busy t htN ht hm hf =>
    refine hkeep (fun u hu => ?_) hf
    rcases hm with hm | hm
    · rwa [hm] at hu
    · exact hm.eq_of_ne_active (by decide) hu
  | idle hm hf => exact hkeep (fun u hu => hm ▸ hu) hf
  | wait t htN ht hfree hidle hend hm hf => exact hkeep (fun u => eq_of_update (by decide) hm) hf
  | wake t htN ht hm hf => exact hkeep (fun u => eq_of_update (by decide) hm) hf
  | lead t htN ht hfree =>
    rw [h.taken] at hfree
    cases hfree
  | handOver t htN ht => exact absurd ht (h.leaderless t htN)
  | submit hs hf => exact hkeep (fun u hu => hs.eq_of_ne_active (by decide) hu) hf
  | retire t htN hend ht hm =>
    obtain ⟨-, hf⟩ | ⟨ht, -⟩ := ht
    · exact hkeep (fun u => eq_of_update (by decide) hm) hf
    · exact absurd ht (h.leaderless t htN)
  | close hm hf => exact hkeep (fun u hu => hm ▸ hu) hf
  | broadcast hend hm hf =>
    refine hkeep (fun u hu => ?_) hf
    rw [hm u] at hu
    split_ifs at hu
    exact hu

theorem Abandoned.not_resign (h : Abandoned N p) : ¬ Resign N p p' := by
  rintro ⟨⟨t, htN, ht, -⟩, -⟩
  exact h.leaderless t htN ht

end Pool

end Mpio.Lib
