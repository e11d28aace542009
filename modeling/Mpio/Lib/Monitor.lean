import Mathlib.Algebra.Order.BigOperators.Group.Finset
import Mpio.Lib.Run

/-!
# Values under locks

A lock is held by threads, shared or exclusively, and protects a value. What a thread holds it knows by
tokens that point to the locks: `Monitor` is the side of the locks, a map of tokens to grips the side of
the threads, and `Monitor.Step` what may happen to both.

If the tokens are all that there is to say who holds what in the beginning, they always are
(`Guarded.counted`): no thread releases a lock that it does not hold, and an exclusive token is alone
(`Guarded.alone`). A property of the value that every exclusive hold restores, if nobody comes in between,
is there whenever nobody holds the lock exclusively (`Guarded.restored`).
-/

namespace Mpio.Lib

inductive LockMode
  | shared
  | exclusive
  deriving DecidableEq

/-- A thread holds a lock. -/
structure Grip (L : Type*) where
  mode : LockMode
  lock : L
  thread : ℕ
  deriving DecidableEq

/-- How often each grip is there, and the values. `since` are the changes since the lock was last taken
exclusively, `undefined` says that a lock was released that was not held. -/
structure Monitor (L V : Type*) where
  holds : Grip L → ℕ
  value : L → V
  since : L → List (V → V)
  undefined : Bool

/-- The value after some changes. -/
def replay {V : Type*} (fs : List (V → V)) (v : V) : V := fs.foldl (fun v f => f v) v

namespace Monitor

variable {L V : Type*} [DecidableEq L] {N M : ℕ} {s s' : Monitor L V} {grips grips' : ℕ → Option (Grip L)}

/-- The lock can be taken. -/
def Free (N : ℕ) (s : Monitor L V) (x : Grip L) : Prop :=
  ∀ u < N, s.holds ⟨.exclusive, x.lock, u⟩ = 0 ∧ (x.mode = .exclusive → s.holds ⟨.shared, x.lock, u⟩ = 0)

instance (N : ℕ) (s : Monitor L V) (x : Grip L) : Decidable (s.Free N x) :=
  inferInstanceAs (Decidable (∀ u < N, _))

def acquire (s : Monitor L V) (x : Grip L) : Monitor L V :=
  { s with
    holds := Function.update s.holds x (s.holds x + 1)
    since := if x.mode = .exclusive then Function.update s.since x.lock [] else s.since }

def release (s : Monitor L V) (x : Grip L) : Monitor L V :=
  if s.holds x = 0 then { s with undefined := true }
  else { s with holds := Function.update s.holds x (s.holds x - 1) }

def change (s : Monitor L V) (l : L) (f : V → V) : Monitor L V :=
  { s with
    value := Function.update s.value l (f (s.value l))
    since := Function.update s.since l (s.since l ++ [f]) }

/-- The changes since the lock was taken restore the property by themselves. -/
def Restores (I : L → V → Prop) (s : Monitor L V) (x : Grip L) : Prop :=
  x.mode = .exclusive → ∀ v, I x.lock v → I x.lock (replay (s.since x.lock) v)

/-- What may happen to the tokens and the locks. -/
inductive Step (N M : ℕ) (I : L → V → Prop) (grips : ℕ → Option (Grip L)) (s : Monitor L V) :
    (ℕ → Option (Grip L)) → Monitor L V → Prop
  | keep : Step N M I grips s grips s
  | take {g : ℕ} {x : Grip L} (hg : g < M) (hx : x.thread < N) (hnone : grips g = none) (hfree : s.Free N x) :
      Step N M I grips s (Function.update grips g (some x)) (s.acquire x)
  | give {g : ℕ} {x : Grip L} (hg : grips g = some x) (hr : s.Restores I x) :
      Step N M I grips s (Function.update grips g none) (s.release x)
  | move {g g' : ℕ} {x : Grip L} (hg : grips g = some x) (hg' : g' < M) (hnone : grips g' = none) :
      Step N M I grips s (Function.update (Function.update grips g none) g' (some x)) s
  | change {g : ℕ} {x : Grip L} {f : V → V} (hg : grips g = some x) (hx : x.mode = .exclusive) :
      Step N M I grips s grips (s.change x.lock f)

/-- How many tokens point to a grip. -/
def count (M : ℕ) (grips : ℕ → Option (Grip L)) (x : Grip L) : ℕ :=
  ∑ g ∈ Finset.range M, if grips g = some x then 1 else 0

theorem count_move {g : ℕ} (hg : g < M) (h : ∀ g', g' ≠ g → grips' g' = grips g') (x : Grip L) :
    count M grips' x + (if grips g = some x then 1 else 0) =
      count M grips x + if grips' g = some x then 1 else 0 := by
  have hrest : ∀ g', g' ≠ g →
      (if grips' g' = some x then 1 else 0) = if grips g' = some x then 1 else (0 : ℕ) := by
    intro g' hne
    rw [h g' hne]
  exact sum_move hg hrest

theorem count_update {g : ℕ} (hg : g < M) (grips : ℕ → Option (Grip L)) (y : Option (Grip L)) (x : Grip L) :
    count M (Function.update grips g y) x + (if grips g = some x then 1 else 0) =
      count M grips x + if y = some x then 1 else 0 := by
  have hsame : ∀ g', g' ≠ g → Function.update grips g y g' = grips g' :=
    fun g' hne => Function.update_of_ne hne y grips
  have hmove := count_move hg hsame x
  rwa [Function.update_self] at hmove

theorem count_pos {g : ℕ} {x : Grip L} (hg : g < M) (h : grips g = some x) : 0 < count M grips x := by
  have hle := Finset.single_le_sum (f := fun g => if grips g = some x then 1 else 0)
    (fun _ _ => Nat.zero_le _) (Finset.mem_range.mpr hg)
  simp only [if_pos h] at hle
  exact hle

theorem eq_of_count {g g' : ℕ} {x : Grip L} (hg : g < M) (hg' : g' < M) (h : grips g = some x)
    (h' : grips g' = some x) (hcount : count M grips x ≤ 1) : g = g' := by
  by_contra hne
  have hupdate := count_update hg grips none x
  have hpos : 0 < count M (Function.update grips g none) x :=
    count_pos hg' (by rw [Function.update_of_ne (Ne.symm hne), h'])
  rw [if_pos h, if_neg (by simp)] at hupdate
  omega

structure Guarded (N M : ℕ) (I : L → V → Prop) (grips : ℕ → Option (Grip L)) (s : Monitor L V) : Prop where
  defined : s.undefined = false
  counted : ∀ x, s.holds x = count M grips x
  bounds : ∀ g x, grips g = some x → g < M ∧ x.thread < N
  exclusive : ∀ x y, x.mode = .exclusive → x.lock = y.lock → 0 < s.holds x → 0 < s.holds y →
    x = y ∧ s.holds x = 1
  opened : ∀ x, x.mode = .exclusive → 0 < s.holds x →
    ∃ v, I x.lock v ∧ s.value x.lock = replay (s.since x.lock) v
  restored : ∀ l, (∀ t, s.holds ⟨.exclusive, l, t⟩ = 0) → I l (s.value l)

/-! ## Every step keeps the account -/

variable {I : L → V → Prop}

theorem Guarded.token (h : Guarded N M I grips s) {x : Grip L} (hx : 0 < s.holds x) :
    ∃ g, grips g = some x := by
  rw [h.counted x] at hx
  obtain ⟨g, -, hg⟩ := Finset.exists_ne_zero_of_sum_ne_zero hx.ne'
  refine ⟨g, ?_⟩
  by_contra hne
  exact hg (if_neg hne)

theorem Guarded.holds_pos (h : Guarded N M I grips s) {g : ℕ} {x : Grip L} (hg : grips g = some x) :
    0 < s.holds x := by
  rw [h.counted x]
  exact count_pos (h.bounds g x hg).1 hg

theorem Guarded.none_of_free (h : Guarded N M I grips s) {x y : Grip L} (hfree : s.Free N x)
    (hlock : y.lock = x.lock) (hmode : x.mode = .exclusive ∨ y.mode = .exclusive) : s.holds y = 0 := by
  by_contra hne
  obtain ⟨g, hg⟩ := h.token (Nat.pos_of_ne_zero hne)
  obtain ⟨hexclusive, hshared⟩ := hfree y.thread (h.bounds g y hg).2
  rw [← hlock] at hexclusive hshared
  obtain ⟨mode, lock, thread⟩ := y
  cases mode with
  | exclusive => exact hne hexclusive
  | shared => exact hne (hshared (hmode.resolve_right (by simp)))

theorem Guarded.take (h : Guarded N M I grips s) {g : ℕ} {x : Grip L} (hg : g < M) (hx : x.thread < N)
    (hnone : grips g = none) (hfree : s.Free N x) :
    Guarded N M I (Function.update grips g (some x)) (s.acquire x) := by
  have hother : ∀ y, y ≠ x → (s.acquire x).holds y = s.holds y := fun y hy => Function.update_of_ne hy _ _
  have hself : (s.acquire x).holds x = s.holds x + 1 := Function.update_self ..
  -- a grip that excludes `x` or is excluded by it is `x`
  have halone : ∀ y, y.lock = x.lock → x.mode = .exclusive ∨ y.mode = .exclusive →
      0 < (s.acquire x).holds y → y = x := by
    intro y hlock hmode hy
    by_contra hne
    rw [hother y hne, h.none_of_free hfree hlock hmode] at hy
    exact Nat.lt_irrefl 0 hy
  refine ⟨h.defined, fun y => ?_, fun g' y hy => ?_, fun y z hmode hlock hy hz => ?_, fun y hmode hy => ?_,
    fun l hl => ?_⟩
  · have hcount := count_update hg grips (some x) y
    rw [hnone, if_neg (by simp)] at hcount
    by_cases hyx : y = x
    · subst hyx
      rw [if_pos rfl] at hcount
      rw [hself, h.counted y]
      omega
    · rw [if_neg (by simpa using Ne.symm hyx)] at hcount
      rw [hother y hyx, h.counted y]
      omega
  · by_cases hgg : g' = g
    · subst hgg
      rw [Function.update_self] at hy
      obtain rfl := Option.some.inj hy
      exact ⟨hg, hx⟩
    · rw [Function.update_of_ne hgg] at hy
      exact h.bounds g' y hy
  · by_cases hyx : y = x
    · subst hyx
      refine ⟨(halone z hlock.symm (.inl hmode) hz).symm, ?_⟩
      rw [hself, h.none_of_free hfree rfl (.inl hmode)]
    · have hne : y.lock ≠ x.lock := fun heq => hyx (halone y heq (.inr hmode) hy)
      have hzx : z ≠ x := by
        rintro rfl
        exact hne hlock
      rw [hother y hyx] at hy ⊢
      rw [hother z hzx] at hz
      exact h.exclusive y z hmode hlock hy hz
  · by_cases hyx : y = x
    · subst hyx
      refine ⟨s.value y.lock, h.restored y.lock fun t => h.none_of_free hfree rfl (.inl hmode), ?_⟩
      simp [acquire, hmode, replay]
    · have hne : y.lock ≠ x.lock := fun heq => hyx (halone y heq (.inr hmode) hy)
      rw [hother y hyx] at hy
      have hsince : (s.acquire x).since y.lock = s.since y.lock := by
        simp only [acquire]
        split_ifs
        · exact Function.update_of_ne hne _ _
        · rfl
      rw [hsince]
      exact h.opened y hmode hy
  · refine h.restored l fun t => ?_
    have hzero := hl t
    by_cases hyx : ⟨.exclusive, l, t⟩ = x
    · rw [hyx, hself] at hzero
      cases hzero
    · rwa [hother _ hyx] at hzero

theorem Guarded.give (h : Guarded N M I grips s) {g : ℕ} {x : Grip L} (hg : grips g = some x)
    (hr : s.Restores I x) : Guarded N M I (Function.update grips g none) (s.release x) := by
  have hpos := h.holds_pos hg
  have hrelease : s.release x = { s with holds := Function.update s.holds x (s.holds x - 1) } :=
    if_neg hpos.ne'
  have hother : ∀ y, y ≠ x → (s.release x).holds y = s.holds y := by
    intro y hy
    rw [hrelease]
    exact Function.update_of_ne hy _ _
  have hself : (s.release x).holds x = s.holds x - 1 := by
    rw [hrelease]
    exact Function.update_self ..
  have hle : ∀ y, 0 < (s.release x).holds y → 0 < s.holds y := by
    intro y hy
    by_cases hyx : y = x
    · exact hyx ▸ hpos
    · rwa [hother y hyx] at hy
  refine ⟨by rw [hrelease]; exact h.defined, fun y => ?_, fun g' y hy => ?_, fun y z hmode hlock hy hz => ?_,
    fun y hmode hy => ?_, fun l hl => ?_⟩
  · have hcount := count_update (h.bounds g x hg).1 grips none y
    rw [hg, if_neg (by simp : none ≠ some y)] at hcount
    by_cases hyx : y = x
    · subst hyx
      rw [if_pos rfl] at hcount
      rw [hself, h.counted y]
      omega
    · rw [if_neg (by simpa using Ne.symm hyx)] at hcount
      rw [hother y hyx, h.counted y]
      omega
  · by_cases hgg : g' = g
    · subst hgg
      rw [Function.update_self] at hy
      cases hy
    · rw [Function.update_of_ne hgg] at hy
      exact h.bounds g' y hy
  · obtain ⟨rfl, hone⟩ := h.exclusive y z hmode hlock (hle y hy) (hle z hz)
    refine ⟨rfl, ?_⟩
    by_cases hyx : y = x
    · subst hyx
      rw [hself, hone] at hy
      exact absurd hy (Nat.lt_irrefl 0)
    · rwa [hother y hyx]
  · rw [hrelease]
    exact h.opened y hmode (hle y hy)
  · have hvalue : (s.release x).value = s.value := by rw [hrelease]
    rw [hvalue]
    by_cases hx : x.mode = .exclusive ∧ x.lock = l
    · obtain ⟨hmode, rfl⟩ := hx
      obtain ⟨v, hv, hvalue⟩ := h.opened x hmode hpos
      rw [hvalue]
      exact hr hmode v hv
    · refine h.restored l fun t => ?_
      have hne : ⟨.exclusive, l, t⟩ ≠ x := by
        rintro rfl
        exact hx ⟨rfl, rfl⟩
      exact (hother _ hne).symm.trans (hl t)

/-- The locks are as before, and another token points to the grip. -/
theorem Guarded.move (h : Guarded N M I grips s) {g g' : ℕ} {x : Grip L} (hg : grips g = some x)
    (hg' : g' < M) (hnone : grips g' = none) :
    Guarded N M I (Function.update (Function.update grips g none) g' (some x)) s := by
  have hne : g' ≠ g := by
    rintro rfl
    rw [hg] at hnone
    cases hnone
  refine { h with counted := fun y => (h.counted y).trans ?_, bounds := fun g'' y hy => ?_ }
  · have hfrom := count_update (h.bounds g x hg).1 grips none y
    have hto := count_update hg' (Function.update grips g none) (some x) y
    rw [hg, if_neg (by simp : none ≠ some y)] at hfrom
    rw [Function.update_of_ne hne, hnone, if_neg (by simp : none ≠ some y)] at hto
    omega
  · by_cases hgg : g'' = g'
    · subst hgg
      rw [Function.update_self] at hy
      obtain rfl := Option.some.inj hy
      exact ⟨hg', (h.bounds g x hg).2⟩
    · rw [Function.update_of_ne hgg] at hy
      by_cases hgg : g'' = g
      · subst hgg
        rw [Function.update_self] at hy
        cases hy
      · rw [Function.update_of_ne hgg] at hy
        exact h.bounds g'' y hy

theorem Guarded.change (h : Guarded N M I grips s) {g : ℕ} {x : Grip L} (f : V → V) (hg : grips g = some x)
    (hx : x.mode = .exclusive) : Guarded N M I grips (s.change x.lock f) := by
  have hpos := h.holds_pos hg
  refine ⟨h.defined, h.counted, h.bounds, h.exclusive, fun y hmode hy => ?_, fun l hl => ?_⟩
  · by_cases hlock : y.lock = x.lock
    · obtain ⟨rfl, -⟩ := h.exclusive y x hmode hlock hy hpos
      obtain ⟨v, hv, hvalue⟩ := h.opened y hmode hpos
      refine ⟨v, hv, ?_⟩
      simp [Monitor.change, replay, hvalue]
    · obtain ⟨v, hv, hvalue⟩ := h.opened y hmode hy
      refine ⟨v, hv, ?_⟩
      simp only [Monitor.change, Function.update_of_ne hlock]
      exact hvalue
  · have hlock : l ≠ x.lock := by
      rintro rfl
      have hzero := hl x.thread
      rw [← hx] at hzero
      exact hpos.ne' hzero
    simp only [Monitor.change, Function.update_of_ne hlock]
    exact h.restored l hl

theorem Guarded.step (h : Guarded N M I grips s) (hs : Step N M I grips s grips' s') :
    Guarded N M I grips' s' := by
  cases hs with
  | keep => exact h
  | take hg hx hnone hfree => exact h.take hg hx hnone hfree
  | give hg hr => exact h.give hg hr
  | move hg hg' hnone => exact h.move hg hg' hnone
  | change hg hx => exact h.change _ hg hx

theorem Guarded.init (hnone : ∀ g, grips g = none) (hheld : ∀ x, s.holds x = 0) (hdefined : s.undefined = false)
    (hI : ∀ l, I l (s.value l)) : Guarded N M I grips s where
  defined := hdefined
  counted x := by
    rw [hheld x]
    exact (Finset.sum_eq_zero fun g _ => if_neg (by simp [hnone g])).symm
  bounds g x hg := by
    rw [hnone g] at hg
    cases hg
  exclusive x y _ _ hx := by simp [hheld x] at hx
  opened x _ hx := by simp [hheld x] at hx
  restored l _ := hI l

/-- While a token points exclusively to a lock no other token points to it. -/
theorem Guarded.alone (h : Guarded N M I grips s) {g g' : ℕ} {x y : Grip L} (hg : grips g = some x)
    (hg' : grips g' = some y) (hmode : x.mode = .exclusive) (hlock : x.lock = y.lock) : g = g' := by
  obtain ⟨rfl, hone⟩ := h.exclusive x y hmode hlock (h.holds_pos hg) (h.holds_pos hg')
  exact eq_of_count (h.bounds g x hg).1 (h.bounds g' x hg').1 hg hg' ((h.counted x).symm.trans hone).le

end Monitor

end Mpio.Lib
