import Mathlib.Algebra.BigOperators.Group.Finset.Basic
import Mathlib.Data.Multiset.AddSub
import Mpio.Lib.Run

/-!
# A queue that threads take from

Values are pushed at the end of a queue. A thread takes the front out in one step, or in three: it
checks that the queue is not empty, looks at the front, and pops. What it has looked at is what it then
serves, and what is popped is what stands at the front then, so the two have to be the same. `Step`
says when they are: the front is taken out only while nobody else has looked at it, and the last value
only while nobody else relies on a check.

`Sound` is what these steps keep. What was popped and what is queued are together what was pushed, in
this order, and every popped value has been served or is held by one thread.
-/

namespace Mpio.Lib

open Finset

/-- What a thread has of the queue. -/
inductive Hold (α : Type*)
  | nothing
  | checked
  | seen (a : α)
  | taken (a : α)

/-- A value taken out and not yet served. -/
def Hold.value {α : Type*} : Hold α → Multiset α
  | .taken a => {a}
  | .nothing | .checked | .seen _ => 0

def Hold.isChecked {α : Type*} : Hold α → Bool
  | .checked => true
  | .nothing | .seen _ | .taken _ => false

def Hold.isSeen {α : Type*} : Hold α → Bool
  | .seen _ => true
  | .nothing | .checked | .taken _ => false

structure Fifo (α : Type*) where
  queue : List α
  pushed : List α
  popped : List α
  served : List α
  hold : ℕ → Hold α

namespace Fifo

variable {α : Type*} {N : ℕ} {q q' : Fifo α}

/-- Nobody but `t` has looked at the front, and nobody but `t` relies on a check if the queue is emptied. -/
def Free (N : ℕ) (q : Fifo α) (t : ℕ) (rest : List α) : Prop :=
  ∀ u < N, u ≠ t → (q.hold u).isSeen = false ∧ (rest = [] → (q.hold u).isChecked = false)

inductive Step (N : ℕ) (q q' : Fifo α) : Prop
  | stay (h : q' = q)
  | push (as : List α) (h : q' = { q with queue := q.queue ++ as, pushed := q.pushed ++ as })
  | take (t : ℕ) (htN : t < N) (ht : q.hold t = .nothing) (a : α) (rest : List α)
    (hq : q.queue = a :: rest) (hfree : Free N q t rest)
    (h : q' = { q with
      queue := rest
      popped := q.popped ++ [a]
      hold := Function.update q.hold t (.taken a) })
  | check (t : ℕ) (htN : t < N) (ht : q.hold t = .nothing) (hne : q.queue ≠ [])
    (h : q' = { q with hold := Function.update q.hold t .checked })
  | front (t : ℕ) (htN : t < N) (ht : q.hold t = .checked) (a : α) (rest : List α)
    (hq : q.queue = a :: rest) (h : q' = { q with hold := Function.update q.hold t (.seen a) })
  | pop (t : ℕ) (htN : t < N) (a : α) (ht : q.hold t = .seen a) (b : α) (rest : List α)
    (hq : q.queue = b :: rest) (hfree : Free N q t rest)
    (h : q' = { q with
      queue := rest
      popped := q.popped ++ [b]
      hold := Function.update q.hold t (.taken a) })
  | serve (t : ℕ) (htN : t < N) (a : α) (ht : q.hold t = .taken a)
    (h : q' = { q with served := q.served ++ [a], hold := Function.update q.hold t .nothing })

structure Sound (N : ℕ) (q : Fifo α) : Prop where
  order : q.pushed = q.popped ++ q.queue
  served : (q.popped : Multiset α) = q.served + ∑ t ∈ range N, (q.hold t).value
  checked : ∀ t < N, q.hold t = .checked → q.queue ≠ []
  seen : ∀ t < N, ∀ a, q.hold t = .seen a → q.queue.head? = some a

theorem Sound.start : Sound N (⟨[], [], [], [], fun _ => .nothing⟩ : Fifo α) where
  order := rfl
  served := by simp [Hold.value]
  checked := nofun
  seen := nofun

theorem sum_value_update {t : ℕ} (htN : t < N) (f : ℕ → Hold α) (x : Hold α) :
    ∑ u ∈ range N, (Function.update f t x u).value + (f t).value =
      ∑ u ∈ range N, (f u).value + x.value :=
  sum_update htN Hold.value f x

theorem Sound.looks {t : ℕ} {x : Hold α} (h : Sound N q) (htN : t < N) (ht : (q.hold t).value = 0)
    (hx : x.value = 0) (hne : q.queue ≠ []) (hhead : ∀ a, x = .seen a → q.queue.head? = some a) :
    Sound N { q with hold := Function.update q.hold t x } := by
  have hsum := sum_value_update htN q.hold x
  rw [ht, hx, add_zero, add_zero] at hsum
  refine ⟨h.order, ?_, fun _ _ _ => hne, fun u hu a hsee => ?_⟩
  · show _ = _ + ∑ u ∈ range N, (Function.update q.hold t x u).value
    rw [hsum]
    exact h.served
  · by_cases hut : u = t
    · subst hut
      simp only [Function.update_self] at hsee
      exact hhead a hsee
    · simp only [Function.update_of_ne hut] at hsee
      exact h.seen u hu a hsee

/-- The value `a` at the front was popped, and `t` holds it. -/
theorem Sound.popped {t : ℕ} {a : α} {rest : List α} (h : Sound N q) (htN : t < N)
    (ht : (q.hold t).value = 0) (hq : q.queue = a :: rest) (hfree : Free N q t rest) :
    Sound N { q with
      queue := rest
      popped := q.popped ++ [a]
      hold := Function.update q.hold t (.taken a) } := by
  have hsum := sum_value_update htN q.hold (.taken a)
  rw [ht, add_zero] at hsum
  refine ⟨?_, ?_, fun u hu hc => ?_, fun u hu b hs => ?_⟩
  · rw [h.order, hq]
    simp
  · show ((q.popped ++ [a] : List α) : Multiset α) = _
    rw [hsum, ← add_assoc, ← h.served, ← Multiset.coe_add]
    rfl
  · by_cases hut : u = t
    · subst hut
      simp at hc
    · simp only [Function.update_of_ne hut] at hc
      intro hrest
      have hno := (hfree u hu hut).2 hrest
      rw [hc] at hno
      cases hno
  · by_cases hut : u = t
    · subst hut
      simp at hs
    · simp only [Function.update_of_ne hut] at hs
      have hno := (hfree u hu hut).1
      rw [hs] at hno
      cases hno

theorem Sound.step (h : Sound N q) (hs : Step N q q') : Sound N q' := by
  cases hs with
  | stay heq => exact heq ▸ h
  | push as heq =>
    subst heq
    refine ⟨?_, h.served, fun t ht hc => ?_, fun t ht a hsee => ?_⟩
    · rw [h.order, List.append_assoc]
    · have hne := h.checked t ht hc
      simp [hne]
    · have hhead := h.seen t ht a hsee
      simp [List.head?_append, hhead]
  | take t htN ht a rest hq hfree heq =>
    subst heq
    exact h.popped htN (by rw [ht]; rfl) hq hfree
  | check t htN ht hne heq =>
    subst heq
    exact h.looks htN (by rw [ht]; rfl) rfl hne fun a ha => by cases ha
  | front t htN ht a rest hq heq =>
    subst heq
    refine h.looks htN (by rw [ht]; rfl) rfl (by simp [hq]) fun b hb => ?_
    obtain rfl := Hold.seen.inj hb
    rw [hq]
    rfl
  | pop t htN a ht b rest hq hfree heq =>
    -- nobody has popped since `t` looked, so what it saw is what it pops
    obtain rfl : a = b := by
      have hhead := h.seen t htN a ht
      rw [hq] at hhead
      exact (Option.some.inj hhead).symm
    subst heq
    exact h.popped htN (by rw [ht]; rfl) hq hfree
  | serve t htN a ht heq =>
    subst heq
    have hsum := sum_value_update htN q.hold .nothing
    rw [ht] at hsum
    refine ⟨h.order, ?_, fun u hu hc => ?_, fun u hu b hsee => ?_⟩
    · rw [h.served]
      show _ = ((q.served ++ [a] : List α) : Multiset α) + _
      rw [← Multiset.coe_add, add_assoc]
      refine congrArg _ ?_
      rw [add_comm ((([a] : List α)) : Multiset α)]
      simpa [Hold.value] using hsum.symm
    · by_cases hut : u = t
      · subst hut
        simp at hc
      · simp only [Function.update_of_ne hut] at hc
        exact h.checked u hu hc
    · by_cases hut : u = t
      · subst hut
        simp at hsee
      · simp only [Function.update_of_ne hut] at hsee
        exact h.seen u hu b hsee

end Fifo

end Mpio.Lib
