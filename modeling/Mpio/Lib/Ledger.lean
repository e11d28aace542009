import Mathlib.Data.Finset.Basic
import Mathlib.Data.List.Count

/-!
# What was obtained and given back

A list of uses of exclusive resources, the newest first. `held` is what has been obtained and not given
back since; `Once` says that nothing was given back that was not held at the time. Resources are named
by numbers that are handed out again after they were given back, so a resource obtained twice is two
resources: `Once.count_acquire` counts them.
-/

namespace Mpio.Lib

inductive Use (ρ : Type*)
  | acquire (r : ρ)
  | release (r : ρ)
  deriving DecidableEq

namespace Use

variable {ρ : Type*} [DecidableEq ρ]

def held : List (Use ρ) → Finset ρ
  | [] => ∅
  | acquire r :: us => insert r (held us)
  | release r :: us => (held us).erase r

/-- Everything obtained is given back at most once. -/
def Once : List (Use ρ) → Prop
  | [] => True
  | acquire r :: us => r ∉ held us ∧ Once us
  | release r :: us => r ∈ held us ∧ Once us

/-- Each time `r` was obtained it was given back once, except the last time if it is held. -/
theorem Once.count_acquire {us : List (Use ρ)} (h : Once us) (r : ρ) :
    us.count (acquire r) = us.count (release r) + if r ∈ held us then 1 else 0 := by
  induction us with
  | nil => simp [held]
  | cons u us ih =>
    cases u with
    | acquire x =>
      obtain ⟨hx, h⟩ := h
      have hrec := ih h
      by_cases heq : x = r
      · subst heq
        simp only [held, Finset.mem_insert_self, if_true, hx, if_false] at hrec ⊢
        rw [List.count_cons_self, List.count_cons_of_ne (by simp), hrec]
      · simp only [held, Finset.mem_insert, Ne.symm heq, false_or]
        rw [List.count_cons_of_ne (by simp [heq]), List.count_cons_of_ne (by simp), hrec]
    | release x =>
      obtain ⟨hx, h⟩ := h
      have hrec := ih h
      by_cases heq : x = r
      · subst heq
        simp only [held, Finset.notMem_erase, if_false, hx, if_true] at hrec ⊢
        rw [List.count_cons_self, List.count_cons_of_ne (by simp), hrec]
      · simp only [held, Finset.mem_erase, ne_eq, Ne.symm heq, not_false_eq_true, true_and]
        rw [List.count_cons_of_ne (by simp), List.count_cons_of_ne (by simp [heq]), hrec]

end Use

end Mpio.Lib
