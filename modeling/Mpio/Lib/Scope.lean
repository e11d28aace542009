import Mathlib.Data.List.Basic

/-!
# Scopes that are left in the order opposite to their entering

Objects of a type `ο` change a state when they are constructed and again, by `leave`, when they are
destroyed, the last one first. A frame keeps an object with the state just before and just after its
construction. `Linked` says that nothing else happened in between: the present state is the one after the
last construction, and the state before a construction is the one after the construction below it.

`Linked.pop_iff`: from a linked stack, destroying the last object brings back the state from before it
exactly when `leave` undoes that object's own construction; if it does, the stack stays linked
(`Linked.pop`).
-/

namespace Mpio.Lib

/-- A live object, and the state around its construction. -/
structure Frame (σ ο : Type*) where
  obj : ο
  before : σ
  after : σ

/-- The state, and the live objects, the last one first. -/
structure Scopes (σ ο : Type*) where
  cur : σ
  frames : List (Frame σ ο)

namespace Scopes

variable {σ ο : Type*} (leave : ο → σ → σ)

/-- Destroying the object undoes what constructing it did. -/
def Undoes (f : Frame σ ο) : Prop := leave f.obj f.after = f.before

def push (s : Scopes σ ο) (obj : ο) (after : σ) : Scopes σ ο := ⟨after, ⟨obj, s.cur, after⟩ :: s.frames⟩

def pop (s : Scopes σ ο) : Option (Scopes σ ο) :=
  match s.frames with
  | [] => none
  | f :: frames => some ⟨leave f.obj s.cur, frames⟩

def LinkedFrom : σ → List (Frame σ ο) → Prop
  | _, [] => True
  | cur, f :: frames => cur = f.after ∧ LinkedFrom f.before frames

def Linked (s : Scopes σ ο) : Prop := LinkedFrom s.cur s.frames

variable {leave} {s s' : Scopes σ ο}

theorem Linked.push (h : s.Linked) (obj : ο) (after : σ) : (s.push obj after).Linked := ⟨rfl, h⟩

/-- The state is the one from before the construction exactly when the object undoes it. -/
theorem Linked.pop_iff (h : s.Linked) {f : Frame σ ο} {frames : List (Frame σ ο)}
    (hf : s.frames = f :: frames) (hs : s.pop leave = some s') : s'.cur = f.before ↔ Undoes leave f := by
  rw [pop, hf] at hs
  obtain rfl := Option.some.inj hs
  rw [Linked, hf] at h
  rw [Undoes, ← h.1]

theorem Linked.pop (h : s.Linked) {f : Frame σ ο} {frames : List (Frame σ ο)}
    (hf : s.frames = f :: frames) (hundo : Undoes leave f) (hs : s.pop leave = some s') : s'.Linked := by
  have hcur := (h.pop_iff hf hs).mpr hundo
  rw [Scopes.pop, hf] at hs
  obtain rfl := Option.some.inj hs
  rw [Linked, hf] at h
  simp only at hcur
  rw [Linked, hcur]
  exact h.2

end Scopes

end Mpio.Lib
