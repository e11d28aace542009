import Mathlib.Algebra.BigOperators.Group.Finset.Basic
import Mathlib.Data.Finset.Card

/-!
# Runs of a partial step function

A system is an initial condition and a step function `σ → α → Option σ`; `none` says that the label
is not enabled. A run may be restricted by a condition `P` on each step (the state before it and its
label): `Reachable S P s` says that `s` ends a run from an initial state all of whose steps meet `P`.

* `Reachable.invariant`: what holds initially and survives every step that meets `P` holds in every
  reachable state. The step hypothesis also gets that the state before the step is reachable, so
  that an invariant proved earlier can be used for the next one.
* `Reachable.simulate`: where each step of one system is a step of another, or none, along a function of
  the states, runs go over to runs.
* `exec`, `Reachable.of_exec`: a list of labels is executed by evaluation, and the state it ends in
  is reachable. Concrete runs are built with it.
* `Inevitable`: every run that goes on from a state reaches a goal. A rank that falls with every step
  proves it (`Inevitable.of_rank`), a run that never ends refutes it (`Inevitable.not_of_trap`).

`sum_move`, `sum_update` and `sum_map_move` are the accounting rules of the counting invariants: a
step changes one component.
-/

namespace Mpio.Lib

/-- An initial condition and a partial step function. -/
structure System (σ α : Type*) where
  init : σ → Prop
  step : σ → α → Option σ

namespace System

variable {σ α : Type*} (S : System σ α)

/-- The states that end a run whose steps all meet `P`. -/
inductive Reachable (P : σ → α → Prop) : σ → Prop
  | init {s : σ} : S.init s → Reachable P s
  | step {s s' : σ} {a : α} : Reachable P s → P s a → S.step s a = some s' → Reachable P s'

variable {S} {P : σ → α → Prop}

theorem Reachable.invariant {I : σ → Prop} {s : σ} (h : S.Reachable P s)
    (hinit : ∀ s, S.init s → I s)
    (hstep : ∀ s a s', S.Reachable P s → I s → P s a → S.step s a = some s' → I s') : I s := by
  induction h with
  | init h0 => exact hinit _ h0
  | step hr hP hs ih => exact hstep _ _ _ hr ih hP hs

theorem Reachable.mono {Q : σ → α → Prop} {s : σ} (hPQ : ∀ s a, S.Reachable P s → P s a → Q s a)
    (h : S.Reachable P s) : S.Reachable Q s := by
  induction h with
  | init h0 => exact .init h0
  | step hr hP hs ih => exact .step ih (hPQ _ _ hr hP) hs

/-- Each step is one of `T` between the images, or leaves the image as it is. -/
theorem Reachable.simulate {τ β : Type*} {T : System τ β} {Q : τ → β → Prop} {f : σ → τ} {s : σ}
    (h : S.Reachable P s) (hinit : ∀ s, S.init s → T.init (f s))
    (hstep : ∀ s a s', S.Reachable P s → P s a → S.step s a = some s' →
      f s' = f s ∨ ∃ b, Q (f s) b ∧ T.step (f s) b = some (f s')) : T.Reachable Q (f s) := by
  induction h with
  | init h0 => exact .init (hinit _ h0)
  | step hr hP hs ih =>
    obtain heq | ⟨b, hQ, hb⟩ := hstep _ _ _ hr hP hs
    · exact heq ▸ ih
    · exact .step ih hQ hb

variable (S) (P)

/-- The same steps from a given state. -/
def startingAt (s : σ) : System σ α := { S with init := (· = s) }

/-- Runs a list of labels, checking the condition before each. -/
def exec [∀ s a, Decidable (P s a)] : σ → List α → Option σ
  | s, [] => some s
  | s, a :: as => if P s a then (S.step s a).bind (exec · as) else none

variable {S} {P}

theorem Reachable.of_exec [∀ s a, Decidable (P s a)] {s s' : σ} {as : List α}
    (hs : S.Reachable P s) (h : S.exec P s as = some s') : S.Reachable P s' := by
  induction as generalizing s with
  | nil =>
    simp only [exec, Option.some.injEq] at h
    exact h ▸ hs
  | cons a as ih =>
    simp only [exec] at h
    split at h
    · rename_i hP
      obtain ⟨t, ht, h⟩ := Option.bind_eq_some_iff.mp h
      exact ih (.step hs hP ht) h
    · cases h

theorem exists_reachable_of_exec [∀ s a, Decidable (P s a)] {s : σ} (as : List α) (q : σ → Bool)
    (hs : S.init s) (h : (S.exec P s as).map q = some true) : ∃ s', S.Reachable P s' ∧ q s' = true := by
  obtain ⟨s', hs', hq⟩ := Option.map_eq_some_iff.mp h
  exact ⟨s', Reachable.of_exec (.init hs) hs', hq⟩

/-! ## What every run reaches -/

variable (S) (P)

/-- However a run goes on from `s` by steps that meet `P`, with at most `k` labels that are `extra`, it
comes to `goal` after finitely many steps. Until then it can always go on without an extra label. -/
inductive Inevitable (extra : α → Bool) (goal : σ → Prop) : ℕ → σ → Prop
  | here {k : ℕ} {s : σ} (h : goal s) : Inevitable extra goal k s
  | later {k : ℕ} {s : σ} (hgo : ∃ a s', P s a ∧ extra a = false ∧ S.step s a = some s')
    (hnext : ∀ a s', P s a → extra a = false → S.step s a = some s' → Inevitable extra goal k s')
    (hextra : ∀ a s' j, P s a → extra a = true → S.step s a = some s' → j < k →
      Inevitable extra goal j s') : Inevitable extra goal k s

variable {S} {P} {extra : α → Bool} {goal : σ → Prop}

/-- A rank falls with every step that is not extra, until the goal is there. -/
theorem Inevitable.of_rank {ρ : Type*} [LT ρ] [WellFoundedLT ρ] {I : σ → Prop} (rank : σ → ρ)
    (hgo : ∀ s, I s → ∃ a s', P s a ∧ extra a = false ∧ S.step s a = some s')
    (hstep : ∀ s a s', I s → P s a → S.step s a = some s' →
      goal s' ∨ I s' ∧ (extra a = false → rank s' < rank s)) (k : ℕ) {s : σ} (hs : I s) :
    S.Inevitable P extra goal k s := by
  induction k using Nat.strong_induction_on generalizing s with
  | _ k ihk =>
    -- with `k` labels left, by the rank
    obtain ⟨r, hr⟩ : ∃ r, rank s = r := ⟨_, rfl⟩
    induction r using WellFoundedLT.induction generalizing s with
    | _ r ihr =>
      refine .later (hgo s hs) (fun a s' hP hext hs' => ?_) (fun a s' j hP hext hs' hj => ?_)
      · obtain hgoal | ⟨hI, hlt⟩ := hstep s a s' hs hP hs'
        · exact .here hgoal
        · exact ihr (rank s') (hr ▸ hlt hext) hI rfl
      · obtain hgoal | ⟨hI, -⟩ := hstep s a s' hs hP hs'
        · exact .here hgoal
        · exact ihk j hj hI

/-- A run that never ends stays away from the goal. -/
theorem Inevitable.not_of_trap {J : σ → Prop} (hgoal : ∀ s, J s → ¬ goal s)
    (hstep : ∀ s, J s → ∃ a s', P s a ∧ extra a = false ∧ S.step s a = some s' ∧ J s') {k : ℕ} {s : σ}
    (hs : J s) : ¬ S.Inevitable P extra goal k s := by
  intro h
  induction h with
  | here h => exact hgoal _ hs h
  | later hgo hnext hextra ih =>
    obtain ⟨a, s', hP, hext, hs', hJ⟩ := hstep _ hs
    exact ih a s' hP hext hs' hJ

end System

/-! ## Sums and counts when one value changes -/

open Finset in
theorem sum_move {M : Type*} [AddCommMonoid M] {n t : ℕ} (ht : t < n) {f f' : ℕ → M}
    (h : ∀ u, u ≠ t → f' u = f u) : ∑ i ∈ range n, f' i + f t = ∑ i ∈ range n, f i + f' t := by
  have hmem : t ∈ range n := mem_range.mpr ht
  have hsame : ∑ i ∈ (range n).erase t, f' i = ∑ i ∈ (range n).erase t, f i :=
    sum_congr rfl fun i hi => h i (ne_of_mem_erase hi)
  rw [← add_sum_erase (range n) _ hmem, ← add_sum_erase (range n) f hmem, hsame, add_right_comm,
    add_comm (f' t), add_right_comm]

open Finset in
theorem sum_update {β M : Type*} [AddCommMonoid M] {n t : ℕ} (ht : t < n) (g : β → M) (f : ℕ → β)
    (v : β) :
    ∑ i ∈ range n, g (Function.update f t v i) + g (f t) = ∑ i ∈ range n, g (f i) + g v := by
  have h := sum_move ht (f := fun i => g (f i)) fun u hu => by
    show g (Function.update f t v u) = g (f u)
    rw [Function.update_of_ne hu]
  rwa [Function.update_self] at h

theorem sum_map_move {M : Type*} [AddCommMonoid M] {l : List ℕ} {f f' : ℕ → M} {a : ℕ} (hn : l.Nodup)
    (ha : a ∈ l) (h : ∀ b, b ≠ a → f' b = f b) : (l.map f').sum + f a = (l.map f).sum + f' a := by
  induction l with
  | nil => cases ha
  | cons b l ih =>
    obtain ⟨hb, hn⟩ := List.nodup_cons.mp hn
    simp only [List.map_cons, List.sum_cons]
    by_cases hab : a = b
    · subst hab
      have hsame : l.map f' = l.map f :=
        List.map_congr_left fun c hc => h c fun heq => hb (heq ▸ hc)
      rw [hsame, add_right_comm, add_comm (f' a), add_right_comm]
    · have hal : a ∈ l := (List.mem_cons.mp ha).resolve_left hab
      rw [h b (Ne.symm hab), add_assoc, add_assoc, ih hn hal]

end Mpio.Lib
