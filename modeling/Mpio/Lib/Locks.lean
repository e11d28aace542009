import Mathlib.Data.Finite.Defs
import Mathlib.Data.Fintype.EquivFin
import Mathlib.Logic.Relation
import Mathlib.Order.WellFounded

/-!
# Threads that nest locks

A `Locking` says which locks each thread holds, the innermost first, and which it waits for. It is
`Ordered` by a relation `R` when every thread has taken each lock from inside one that is related to it.

* If `R` has no cycle, some thread that holds or waits for a lock does not wait for one that is held
  (`Ordered.exists_free`).
* If `R` has a cycle, it has one without repetitions (`exists_cycle`), along which as many threads can
  wait for each other.
-/

namespace Mpio.Lib

variable {T L : Type*} {R : L → L → Prop}

structure Locking (T L : Type*) where
  held : T → List L
  wants : T → Option L

namespace Locking

variable {s : Locking T L}

/-- Every lock was taken, and is waited for, from inside a lock that `R` relates to it. -/
structure Ordered (R : L → L → Prop) (s : Locking T L) : Prop where
  nested : ∀ t, (s.held t).IsChain fun inner outer => R outer inner
  next : ∀ t l, s.wants t = some l → ∀ top ∈ (s.held t).head?, R top l

/-- The thread holds or waits for a lock. -/
def Busy (s : Locking T L) (t : T) : Prop := s.held t ≠ [] ∨ s.wants t ≠ none

/-- The thread waits for a lock that is held. -/
def Blocked (s : Locking T L) (t : T) : Prop := ∃ l t', s.wants t = some l ∧ l ∈ s.held t'

theorem reaches_of_chain {top : L} {ls : List L}
    (h : (top :: ls).IsChain fun inner outer => R outer inner) :
    ∀ l ∈ top :: ls, Relation.ReflTransGen R l top := by
  induction ls generalizing top with
  | nil =>
    intro l hl
    rw [List.mem_singleton.mp hl]
  | cons next ls ih =>
    obtain ⟨hR, hrest⟩ := List.isChain_cons_cons.mp h
    intro l hl
    rcases List.mem_cons.mp hl with rfl | hl
    · exact .refl
    · exact (ih hrest l hl).tail hR

theorem Ordered.reaches (h : s.Ordered R) {t : T} {l l' : L} (hl : l ∈ s.held t)
    (hwants : s.wants t = some l') : Relation.TransGen R l l' := by
  have hnext := h.next t l' hwants
  have hchain := h.nested t
  cases hheld : s.held t with
  | nil =>
    rw [hheld] at hl
    cases hl
  | cons top ls =>
    rw [hheld] at hl hnext hchain
    exact .tail' (reaches_of_chain hchain l hl) (hnext top rfl)

theorem wellFounded_of_acyclic [Finite L] (hR : ∀ l, ¬ Relation.TransGen R l l) :
    WellFounded (flip (Relation.TransGen R)) := by
  have : IsTrans L (flip (Relation.TransGen R)) := ⟨fun _ _ _ hab hbc => hbc.trans hab⟩
  have : Std.Irrefl (flip (Relation.TransGen R)) := ⟨hR⟩
  exact Finite.wellFounded_of_trans_of_irrefl _

/-- The lock that is waited for and from which no other one is reached that is waited for is free, or its
owner goes on. -/
theorem Ordered.exists_free [Finite L] (h : s.Ordered R) (hR : ∀ l, ¬ Relation.TransGen R l l)
    {t : T} (ht : s.Busy t) : ∃ t, s.Busy t ∧ ¬ s.Blocked t := by
  by_contra hall
  have hblocked : ∀ t, s.Busy t → s.Blocked t := by
    intro t ht
    by_contra hfree
    exact hall ⟨t, ht, hfree⟩
  obtain ⟨l₀, -, hl₀, -⟩ := hblocked t ht
  obtain ⟨l, ⟨t, hwants⟩, hmax⟩ := (wellFounded_of_acyclic hR).has_min {l | ∃ t, s.wants t = some l} ⟨l₀, t, hl₀⟩
  obtain ⟨l', t', hwants', hheld⟩ := hblocked t (.inr (by rw [hwants]; exact Option.some_ne_none l))
  obtain rfl := Option.some.inj (hwants.symm.trans hwants')
  obtain ⟨l'', -, hwants'', -⟩ := hblocked t' (.inl (List.ne_nil_of_mem hheld))
  exact hmax l'' ⟨t', hwants''⟩ (h.reaches hheld hwants'')

end Locking

/-! ## Cycles -/

/-- A walk along `R`. -/
structure Walk (R : L → L → Prop) (m : ℕ) (c : ℕ → L) : Prop where
  step : ∀ i < m, R (c i) (c (i + 1))

theorem exists_walk {a b : L} (h : Relation.TransGen R a b) :
    ∃ m c, 0 < m ∧ Walk R m c ∧ c 0 = a ∧ c m = b := by
  induction h with
  | @single b hab =>
    refine ⟨1, fun i => if i = 0 then a else b, Nat.one_pos, ⟨fun i hi => ?_⟩, rfl, rfl⟩
    obtain rfl : i = 0 := by omega
    exact hab
  | @tail b b' _ hb ih =>
    obtain ⟨m, c, hm, hc, ha, rfl⟩ := ih
    refine ⟨m + 1, Function.update c (m + 1) b', by omega, ⟨fun i hi => ?_⟩, ?_, Function.update_self ..⟩
    · rw [Function.update_of_ne (by omega)]
      by_cases him : i = m
      · subst him
        rwa [Function.update_self]
      · rw [Function.update_of_ne (by omega)]
        exact hc.step i (by omega)
    · rwa [Function.update_of_ne (by omega)]

/-- A shortest closed walk comes to no point twice. -/
theorem exists_cycle {a : L} (h : Relation.TransGen R a a) :
    ∃ (k : ℕ) (c : ℕ → L), 0 < k ∧ (∀ i < k, R (c i) (c ((i + 1) % k))) ∧
      ∀ i < k, ∀ j < k, c i = c j → i = j := by
  classical
  have hex : ∃ m, ∃ c : ℕ → L, 0 < m ∧ Walk R m c ∧ c 0 = c m := by
    obtain ⟨m, c, hm, hc, h0, hend⟩ := exists_walk h
    exact ⟨m, c, hm, hc, h0.trans hend.symm⟩
  obtain ⟨c, hm, hc, hclosed⟩ := Nat.find_spec hex
  have hmin {m : ℕ} (hlt : m < Nat.find hex) := Nat.find_min hex hlt
  -- two equal points would close a shorter walk
  have hdistinct : ∀ i j, i < j → j < Nat.find hex → c i ≠ c j := by
    intro i j hij hj heq
    refine hmin (m := j - i) (by omega) ⟨fun x => c (i + x), by omega, ⟨fun x hx => ?_⟩, ?_⟩
    · exact hc.step (i + x) (by omega)
    · show c (i + 0) = c (i + (j - i))
      rw [Nat.add_zero, Nat.add_sub_cancel' hij.le, heq]
  refine ⟨Nat.find hex, c, hm, fun i hi => ?_, fun i hi j hj heq => ?_⟩
  · have hstep := hc.step i hi
    by_cases hlast : i + 1 = Nat.find hex
    · rwa [hlast, Nat.mod_self, hclosed, ← hlast]
    · rwa [Nat.mod_eq_of_lt (by omega)]
  · rcases Nat.lt_trichotomy i j with hlt | heq' | hgt
    · exact absurd heq (hdistinct i j hlt hj)
    · exact heq'
    · exact absurd heq.symm (hdistinct j i hgt hi)

end Mpio.Lib
