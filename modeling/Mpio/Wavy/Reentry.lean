import Mathlib.Algebra.Order.BigOperators.Group.Finset
import Mathlib.Data.Fintype.Sum
import Mathlib.Tactic.DeriveFintype
import Mpio.Lib.Locks
import Mpio.Lib.Run

/-!
# Finalizers that call the loop

`write`, `commit_raw`, `commit` and `write_event` of `out` hold the mutex of their `ctx` while `execute` and
`clear` call finalizers, and a finalizer may call `loop::write` in turn. The mutexes are not recursive.
`submit` and the others that take `m_mutex` call nothing while they hold it, and the handlers, tasks and
finalizers are called without it.

Here a thread is the stack of the calls it is in. Which finalizers a call runs depends on the answers of the
kernel, so a call may run any number of them. `Along writes` are the runs in which a finalizer that is
called at `fd` writes to descriptors that `writes` relates to `fd`. If no descriptor is related to itself in
some steps, every call returns, whatever the order of the steps, and otherwise there is a run after which
none of them goes on: `calls_return_iff`.
-/

namespace Mpio.Wavy.Reentry

open Lib Relation

/-- `m_mutex` of the loop, and the mutex of each `ctx`. -/
inductive Mutex (n : ℕ)
  | loop
  | ctx (fd : Fin n)
  deriving DecidableEq, Fintype

/-- How far a call is: at its lock, inside, or in a finalizer that it has called. -/
inductive Phase
  | lock
  | inside
  | final
  deriving DecidableEq

structure Frame (n : ℕ) where
  mutex : Mutex n
  phase : Phase
  deriving DecidableEq

/-- With `N` threads and `n` descriptors. -/
structure State (N n : ℕ) where
  owner : Mutex n → Option (Fin N)
  stack : Fin N → List (Frame n)

/-- `call` stands for `write`, `commit` and `write_event` at a `ctx` and for `submit` at the loop. -/
inductive Action (N n : ℕ)
  | call (t : Fin N) (m : Mutex n)
  | lock (t : Fin N)
  | final (t : Fin N)
  | finalReturn (t : Fin N)
  | ret (t : Fin N)

variable {N n : ℕ} {writes : Fin n → Fin n → Prop} {s s' : State N n} {a : Action N n}

def State.setStack (s : State N n) (t : Fin N) (fs : List (Frame n)) : State N n :=
  { s with stack := Function.update s.stack t fs }

def State.setOwner (s : State N n) (m : Mutex n) (o : Option (Fin N)) : State N n :=
  { s with owner := Function.update s.owner m o }

@[simp] theorem State.stack_setOwner (s : State N n) (m : Mutex n) (o : Option (Fin N)) :
    (s.setOwner m o).stack = s.stack := rfl

theorem State.stack_setStack (s : State N n) (t u : Fin N) (fs : List (Frame n)) :
    (s.setStack t fs).stack u = if u = t then fs else s.stack u :=
  Function.update_apply ..

theorem State.owner_setOwner (s : State N n) (m m' : Mutex n) (o : Option (Fin N)) (t : Fin N)
    (fs : List (Frame n)) :
    ((s.setOwner m o).setStack t fs).owner m' = if m' = m then o else s.owner m' :=
  Function.update_apply ..

def step (s : State N n) : Action N n → Option (State N n)
  | .call t m =>
    match s.stack t with
    | [] => some (s.setStack t [⟨m, .lock⟩])
    | ⟨m', .final⟩ :: fs => some (s.setStack t (⟨m, .lock⟩ :: ⟨m', .final⟩ :: fs))
    | _ => none
  | .lock t =>
    match s.stack t with
    | ⟨m, .lock⟩ :: fs =>
      if s.owner m = none then some ((s.setOwner m (some t)).setStack t (⟨m, .inside⟩ :: fs)) else none
    | _ => none
  | .final t =>
    match s.stack t with
    | ⟨.ctx fd, .inside⟩ :: fs => some (s.setStack t (⟨.ctx fd, .final⟩ :: fs))
    | _ => none
  | .finalReturn t =>
    match s.stack t with
    | ⟨m, .final⟩ :: fs => some (s.setStack t (⟨m, .inside⟩ :: fs))
    | _ => none
  | .ret t =>
    match s.stack t with
    | ⟨m, .inside⟩ :: fs => some ((s.setOwner m none).setStack t fs)
    | _ => none

def State.start : State N n := ⟨fun _ => none, fun _ => []⟩

def reentrySystem (N n : ℕ) : System (State N n) (Action N n) where
  init s := s = .start
  step := step

/-- A finalizer called at `fd` writes where `writes` says, and may submit. -/
def Along (writes : Fin n → Fin n → Prop) (s : State N n) : Action N n → Prop
  | .call t (.ctx fd) => ∀ f ∈ (s.stack t).head?, ∀ fd' : Fin n, f.mutex = .ctx fd' → writes fd' fd
  | .call _ .loop | .lock _ | .final _ | .finalReturn _ | .ret _ => True

/-- A further call, or a further finalizer. The other steps end what has begun. -/
def Action.further : Action N n → Bool
  | .call .. | .final _ => true
  | .lock _ | .finalReturn _ | .ret _ => false

/-- No thread is in a call. -/
def State.Returned (s : State N n) : Prop := ∀ t, s.stack t = []

/-- Everything a step can be. -/
inductive Stepped (s : State N n) : Action N n → State N n → Prop
  | call {t : Fin N} {m : Mutex n} (h : s.stack t = []) :
      Stepped s (.call t m) (s.setStack t [⟨m, .lock⟩])
  | nest {t : Fin N} {m m' : Mutex n} {fs : List (Frame n)} (h : s.stack t = ⟨m', .final⟩ :: fs) :
      Stepped s (.call t m) (s.setStack t (⟨m, .lock⟩ :: ⟨m', .final⟩ :: fs))
  | lock {t : Fin N} {m : Mutex n} {fs : List (Frame n)} (h : s.stack t = ⟨m, .lock⟩ :: fs)
      (hfree : s.owner m = none) :
      Stepped s (.lock t) ((s.setOwner m (some t)).setStack t (⟨m, .inside⟩ :: fs))
  | final {t : Fin N} {fd : Fin n} {fs : List (Frame n)} (h : s.stack t = ⟨.ctx fd, .inside⟩ :: fs) :
      Stepped s (.final t) (s.setStack t (⟨.ctx fd, .final⟩ :: fs))
  | finalReturn {t : Fin N} {m : Mutex n} {fs : List (Frame n)} (h : s.stack t = ⟨m, .final⟩ :: fs) :
      Stepped s (.finalReturn t) (s.setStack t (⟨m, .inside⟩ :: fs))
  | ret {t : Fin N} {m : Mutex n} {fs : List (Frame n)} (h : s.stack t = ⟨m, .inside⟩ :: fs) :
      Stepped s (.ret t) ((s.setOwner m none).setStack t fs)

theorem step_iff : step s a = some s' ↔ Stepped s a s' := by
  constructor
  · intro h
    cases a with
    | call t m =>
      simp only [step] at h
      split at h
      · rename_i hs
        exact Option.some.inj h ▸ .call hs
      · rename_i hs
        exact Option.some.inj h ▸ .nest hs
      · cases h
    | lock t =>
      simp only [step] at h
      split at h
      · rename_i hs
        split_ifs at h with hfree
        exact Option.some.inj h ▸ .lock hs hfree
      · cases h
    | final t =>
      simp only [step] at h
      split at h
      · rename_i hs
        exact Option.some.inj h ▸ .final hs
      · cases h
    | finalReturn t =>
      simp only [step] at h
      split at h
      · rename_i hs
        exact Option.some.inj h ▸ .finalReturn hs
      · cases h
    | ret t =>
      simp only [step] at h
      split at h
      · rename_i hs
        exact Option.some.inj h ▸ .ret hs
      · cases h
  · intro h
    cases h with
    | call h | nest h | final h | finalReturn h | ret h => simp only [step, h]
    | lock h hfree => simp only [step, h, if_pos hfree]

/-! ## Locks -/

/-- Which mutexes are taken from inside which. -/
inductive Inside (writes : Fin n → Fin n → Prop) : Mutex n → Mutex n → Prop
  | write {fd fd' : Fin n} : writes fd fd' → Inside writes (.ctx fd) (.ctx fd')
  | submit {fd : Fin n} : Inside writes (.ctx fd) .loop

/-- The mutexes that a stack holds: that of the last call only once it has it. -/
def locksOf : List (Frame n) → List (Mutex n)
  | [] => []
  | f :: fs => if f.phase = .lock then fs.map (·.mutex) else f.mutex :: fs.map (·.mutex)

/-- The mutex that a stack waits for. -/
def wantOf : List (Frame n) → Option (Mutex n)
  | [] => none
  | f :: _ => if f.phase = .lock then some f.mutex else none

/-- A thread that is in a finalizer holds all its mutexes. -/
theorem locksOf_final {fs : List (Frame n)} (h : ∀ f ∈ fs, f.phase = .final) : locksOf fs = fs.map (·.mutex) := by
  cases fs with
  | nil => rfl
  | cons f fs => simp [locksOf, h f (List.mem_cons_self ..)]

def State.locking (s : State N n) : Locking (Fin N) (Mutex n) where
  held t := locksOf (s.stack t)
  wants t := wantOf (s.stack t)

/-- The calls of a thread: those below the last are in finalizers, each called inside the one before. -/
structure Nested (writes : Fin n → Fin n → Prop) (fs : List (Frame n)) : Prop where
  below : ∀ f ∈ fs.tail, f.phase = .final
  ctx : ∀ f ∈ fs, f.phase = .final → ∃ fd, f.mutex = .ctx fd
  nodup : (locksOf fs).Nodup
  chain : (fs.map (·.mutex)).IsChain fun inner outer => Inside writes outer inner

structure Inv (writes : Fin n → Fin n → Prop) (s : State N n) : Prop where
  nested : ∀ t, Nested writes (s.stack t)
  owner : ∀ m t, s.owner m = some t ↔ m ∈ locksOf (s.stack t)

theorem Inv.setStack (h : Inv writes s) {t : Fin N} {fs : List (Frame n)} (hn : Nested writes fs)
    (hl : locksOf fs = locksOf (s.stack t)) : Inv writes (s.setStack t fs) := by
  refine ⟨fun u => ?_, fun m u => ?_⟩
  · by_cases hu : u = t
    · subst hu
      simpa only [State.setStack, Function.update_self] using hn
    · simpa only [State.setStack, Function.update_of_ne hu] using h.nested u
  · by_cases hu : u = t
    · subst hu
      simp only [State.setStack, Function.update_self, hl]
      exact h.owner m u
    · simp only [State.setStack, Function.update_of_ne hu]
      exact h.owner m u

theorem Inv.setOwner (h : Inv writes s) {t : Fin N} {m : Mutex n} {o : Option (Fin N)} {fs : List (Frame n)}
    (hn : Nested writes fs) (hothers : ∀ m', m' ≠ m → (m' ∈ locksOf fs ↔ m' ∈ locksOf (s.stack t)))
    (hout : ∀ u, u ≠ t → m ∉ locksOf (s.stack u)) (ho : ∀ u, o = some u ↔ u = t ∧ m ∈ locksOf fs) :
    Inv writes ((s.setOwner m o).setStack t fs) := by
  refine ⟨fun u => ?_, fun m' u => ?_⟩
  · rw [State.stack_setStack]
    split_ifs with hu
    · exact hn
    · exact h.nested u
  · rw [State.stack_setStack, State.owner_setOwner]
    by_cases hm : m' = m
    · subst hm
      rw [if_pos rfl, ho u]
      by_cases hu : u = t
      · simp [hu]
      · rw [if_neg hu]
        exact iff_of_false (fun h => hu h.1) (hout u hu)
    · rw [if_neg hm, h.owner m' u]
      by_cases hu : u = t
      · subst hu
        rw [if_pos rfl]
        exact (hothers m' hm).symm
      · rw [if_neg hu]
        rfl

theorem Inv.start : Inv writes (.start : State N n) := by
  refine ⟨fun t => ⟨by simp [State.start], by simp [State.start], List.nodup_nil, .nil⟩, fun m t => ?_⟩
  simp [State.start, locksOf]

theorem Inv.step (h : Inv writes s) (hp : Along writes s a) (hs : step s a = some s') : Inv writes s' := by
  cases step_iff.mp hs with
  | @call t m hst =>
    refine h.setStack ⟨by simp, by simp, List.nodup_nil, .singleton _⟩ ?_
    rw [hst]
    rfl
  | @nest t m m' fs hst =>
    have hn := h.nested t
    rw [hst] at hn
    obtain ⟨fd, hfd⟩ := hn.ctx _ (List.mem_cons_self ..) rfl
    simp only at hfd
    subst hfd
    refine h.setStack ⟨?_, ?_, hn.nodup, ?_⟩ (by rw [hst]; rfl)
    · intro f hf
      rcases List.mem_cons.mp hf with rfl | hf
      · rfl
      · exact hn.below f hf
    · intro f hf hphase
      rcases List.mem_cons.mp hf with rfl | hf
      · cases hphase
      · exact hn.ctx f hf hphase
    · refine List.isChain_cons_cons.mpr ⟨?_, hn.chain⟩
      cases m with
      | loop => exact .submit
      | ctx fd' => exact .write (hp ⟨.ctx fd, .final⟩ (by rw [hst]; rfl) fd rfl)
  | @lock t m fs hst hfree =>
    have hn := h.nested t
    rw [hst] at hn
    have hout : ∀ u, m ∉ locksOf (s.stack u) := by
      intro u hm
      cases hfree.symm.trans ((h.owner m u).mpr hm)
    have hfs : m ∉ fs.map (·.mutex) := by simpa only [hst, locksOf, if_true] using hout t
    refine h.setOwner ⟨hn.below, ?_, List.nodup_cons.mpr ⟨hfs, hn.nodup⟩, hn.chain⟩ ?_ (fun u _ => hout u) ?_
    · intro f hf hphase
      rcases List.mem_cons.mp hf with rfl | hf
      · cases hphase
      · exact hn.ctx f (List.mem_cons_of_mem _ hf) hphase
    · intro m' hm
      simp [hst, locksOf, hm]
    · intro u
      simp [locksOf, eq_comm]
  | @final t fd fs hst =>
    have hn := h.nested t
    rw [hst] at hn
    refine h.setStack ⟨hn.below, ?_, hn.nodup, hn.chain⟩ (by rw [hst]; rfl)
    intro f hf hphase
    rcases List.mem_cons.mp hf with rfl | hf
    · exact ⟨fd, rfl⟩
    · exact hn.ctx f (List.mem_cons_of_mem _ hf) hphase
  | @finalReturn t m fs hst =>
    have hn := h.nested t
    rw [hst] at hn
    refine h.setStack ⟨hn.below, ?_, hn.nodup, hn.chain⟩ (by rw [hst]; rfl)
    intro f hf hphase
    rcases List.mem_cons.mp hf with rfl | hf
    · cases hphase
    · exact hn.ctx f (List.mem_cons_of_mem _ hf) hphase
  | @ret t m fs hst =>
    have hn := h.nested t
    rw [hst] at hn
    have hfs : m ∉ fs.map (·.mutex) := (List.nodup_cons.mp hn.nodup).1
    have hfinal : ∀ f ∈ fs, f.phase = .final := hn.below
    have hlocks : locksOf fs = fs.map (·.mutex) := locksOf_final hfinal
    have hmine : s.owner m = some t := (h.owner m t).mpr (by simp [hst, locksOf])
    refine h.setOwner ⟨?_, ?_, ?_, hn.chain.tail⟩ ?_ ?_ ?_
    · exact fun f hf => hfinal f (List.mem_of_mem_tail hf)
    · exact fun f hf => hn.ctx f (List.mem_cons_of_mem _ hf)
    · rw [hlocks]
      exact (List.nodup_cons.mp hn.nodup).2
    · intro m' hm
      rw [hlocks, hst]
      simp [locksOf, hm]
    · intro u hu hmem
      exact hu (Option.some.inj (((h.owner m u).mpr hmem).symm.trans hmine))
    · intro u
      simp [hlocks, hfs]

theorem Inv.of_reachable (h : (reentrySystem N n).Reachable (Along writes) s) : Inv writes s := by
  refine h.invariant ?_ fun s a s' _ hs hp hstep => hs.step hp hstep
  rintro s rfl
  exact .start

/-! ## Without cycles -/

theorem Inv.ordered (h : Inv writes s) : s.locking.Ordered (Inside writes) := by
  refine ⟨fun t => ?_, fun t m hm top htop => ?_⟩
  · have hn := h.nested t
    simp only [State.locking]
    cases hst : s.stack t with
    | nil => exact .nil
    | cons f fs =>
      have hchain := hn.chain
      rw [hst] at hchain
      simp only [locksOf]
      split_ifs
      · exact hchain.tail
      · exact hchain
  · have hchain := (h.nested t).chain
    simp only [State.locking] at hm htop
    cases hst : s.stack t with
    | nil =>
      rw [hst] at hm
      cases hm
    | cons f fs =>
      rw [hst] at hm htop hchain
      simp only [wantOf, locksOf] at hm htop
      split_ifs at hm htop
      obtain rfl := Option.some.inj hm
      cases fs with
      | nil => cases htop
      | cons g fs =>
        obtain rfl := Option.some.inj htop
        exact (List.isChain_cons_cons.mp hchain).1

theorem acyclic_inside (hw : ∀ fd, ¬ TransGen writes fd fd) (m : Mutex n) :
    ¬ TransGen (Inside writes) m m := by
  have hends : ∀ m m', TransGen (Inside writes) m m' →
      m' = .loop ∨ ∃ fd fd', m = .ctx fd ∧ m' = .ctx fd' ∧ TransGen writes fd fd' := by
    intro m m' h
    induction h with
    | single h =>
      cases h with
      | write h => exact .inr ⟨_, _, rfl, rfl, .single h⟩
      | submit => exact .inl rfl
    | tail _ h ih =>
      cases h with
      | submit => exact .inl rfl
      | write h =>
        obtain hloop | ⟨fd, fd', hm, hm', htrans⟩ := ih
        · cases hloop
        · obtain rfl := Mutex.ctx.inj hm'
          exact .inr ⟨fd, _, hm, rfl, htrans.tail h⟩
  intro h
  obtain hloop | ⟨fd, fd', hm, hm', htrans⟩ := hends m m h
  · subst hloop
    obtain ⟨_, hstep, -⟩ := TransGen.head'_iff.mp h
    cases hstep
  · obtain rfl := Mutex.ctx.inj (hm.symm.trans hm')
    exact hw fd htrans

/-- What a thread still has to do if it calls nothing more. -/
def remaining : List (Frame n) → ℕ
  | [] => 0
  | ⟨_, .inside⟩ :: fs => 1 + remaining fs
  | ⟨_, .lock⟩ :: fs | ⟨_, .final⟩ :: fs => 2 + remaining fs

def State.rank (s : State N n) : ℕ := ∑ t, remaining (s.stack t)

theorem State.rank_lt {t : Fin N} {fs : List (Frame n)} (h : remaining fs < remaining (s.stack t)) :
    (s.setStack t fs).rank < s.rank := by
  refine Finset.sum_lt_sum (fun u _ => ?_) ⟨t, Finset.mem_univ t, ?_⟩
  · rw [State.stack_setStack]
    split_ifs with hu
    · exact hu ▸ h.le
    · exact le_rfl
  · rw [State.stack_setStack, if_pos rfl]
    exact h

theorem rank_step (hs : step s a = some s') (ha : a.further = false) : s'.rank < s.rank := by
  cases step_iff.mp hs with
  | call | nest | final => cases ha
  | lock hst =>
    refine State.rank_lt (s := s.setOwner _ _) ?_
    rw [State.stack_setOwner, hst]
    simp [remaining]
  | finalReturn hst =>
    refine State.rank_lt ?_
    rw [hst]
    simp [remaining]
  | ret hst =>
    refine State.rank_lt (s := s.setOwner _ _) ?_
    rw [State.stack_setOwner, hst]
    simp [remaining]

theorem goes_on (h : Inv writes s) {t : Fin N} (hbusy : s.locking.Busy t)
    (hfree : ¬ s.locking.Blocked t) :
    ∃ a s', Along writes s a ∧ a.further = false ∧ step s a = some s' := by
  cases hst : s.stack t with
  | nil => simp [Locking.Busy, State.locking, hst, locksOf, wantOf] at hbusy
  | cons f fs =>
    obtain ⟨m, phase⟩ := f
    cases phase with
    | inside => exact ⟨.ret t, _, trivial, rfl, step_iff.mpr (.ret hst)⟩
    | final => exact ⟨.finalReturn t, _, trivial, rfl, step_iff.mpr (.finalReturn hst)⟩
    | lock =>
      refine ⟨.lock t, _, trivial, rfl, step_iff.mpr (.lock hst ?_)⟩
      by_contra hne
      obtain ⟨u, hu⟩ := Option.ne_none_iff_exists'.mp hne
      exact hfree ⟨m, u, by simp [State.locking, hst, wantOf], (h.owner m u).mp hu⟩

theorem returns_of_acyclic (hw : ∀ fd, ¬ TransGen writes fd fd) (h : Inv writes s) (k : ℕ) :
    (reentrySystem N n).Inevitable (Along writes) Action.further State.Returned k s := by
  by_cases hret : s.Returned
  · exact .here hret
  refine System.Inevitable.of_rank (I := fun s => Inv writes s ∧ ¬ s.Returned) State.rank ?_ ?_ k ⟨h, hret⟩
  · rintro s ⟨hs, hne⟩
    obtain ⟨t, ht⟩ := not_forall.mp hne
    have hbusy : s.locking.Busy t := by
      cases hst : s.stack t with
      | nil => exact absurd hst ht
      | cons f fs =>
        by_cases hf : f.phase = .lock <;> simp [Locking.Busy, State.locking, hst, locksOf, wantOf, hf]
    obtain ⟨u, hu, hfree⟩ := hs.ordered.exists_free (acyclic_inside hw) hbusy
    exact goes_on hs hu hfree
  · rintro s a s' ⟨hs, -⟩ hp hstep
    by_cases hret : s'.Returned
    · exact .inl hret
    · exact .inr ⟨⟨hs.step hp hstep, hret⟩, fun ha => rank_step hstep ha⟩

/-! ## With a cycle -/

/-- The first `i` threads are each in a finalizer at a descriptor of the cycle, and the first `j` of them
are at the lock of the next one. -/
def crossing (c : ℕ → Fin n) (k i j : ℕ) (t : Fin N) : List (Frame n) :=
  if t < j then [⟨.ctx (c ((t + 1) % k)), .lock⟩, ⟨.ctx (c t), .final⟩]
  else if t < i then [⟨.ctx (c t), .final⟩] else []

theorem mem_locksOf_crossing {c : ℕ → Fin n} {k i j : ℕ} (hj : j ≤ i) {t : Fin N} {m : Mutex n} :
    m ∈ locksOf (crossing c k i j t) ↔ t < i ∧ m = .ctx (c t) := by
  unfold crossing
  split_ifs with htj hti
  · simp [locksOf, htj.trans_le hj]
  · simp [locksOf, hti]
  · simp [locksOf, hti]

variable {c : ℕ → Fin n} {k : ℕ}

theorem reach_finalizers (hk : k ≤ N) (hinj : ∀ i < k, ∀ j < k, c i = c j → i = j) :
    ∀ i ≤ k, ∃ s : State N n, (reentrySystem N n).Reachable (Along writes) s ∧ s.stack = crossing c k i 0 := by
  intro i
  induction i with
  | zero => exact fun _ => ⟨.start, .init rfl, funext fun t => by simp [State.start, crossing]⟩
  | succ i ih =>
    intro hi
    obtain ⟨s, hs, hstack⟩ := ih (by omega)
    let t : Fin N := ⟨i, by omega⟩
    have hidle : s.stack t = [] := by simp [hstack, crossing, t]
    have hfree : s.owner (.ctx (c i)) = none := by
      by_contra hne
      obtain ⟨u, hu⟩ := Option.ne_none_iff_exists'.mp hne
      have hmem := ((Inv.of_reachable hs).owner _ u).mp hu
      rw [hstack, mem_locksOf_crossing (Nat.zero_le i)] at hmem
      have := hinj i hi u (by omega) (Mutex.ctx.inj hmem.2)
      omega
    have hcall := hs.step (by simp [Along, hidle]) (step_iff.mpr (.call (m := .ctx (c i)) hidle))
    have htop (s : State N n) (fs : List (Frame n)) : (s.setStack t fs).stack t = fs := by
      rw [State.stack_setStack, if_pos rfl]
    have hlock := hcall.step (a := .lock t) (by trivial) (step_iff.mpr (.lock (htop _ _) hfree))
    have hfinal := hlock.step (a := .final t) (by trivial) (step_iff.mpr (.final (htop _ _)))
    refine ⟨_, hfinal, funext fun u => ?_⟩
    simp only [State.stack_setStack, State.stack_setOwner, hstack]
    by_cases hu : u = t
    · simp [hu, crossing, t]
    · have hne : u.val ≠ i := fun h => hu (Fin.ext h)
      have hlt : u.val < i + 1 ↔ u.val < i := by omega
      simp [hu, crossing, hlt]

/-- Every thread of the cycle is called back at its descriptor, and writes to the next one there. -/
theorem reach_crossing (hk : k ≤ N) (hinj : ∀ i < k, ∀ j < k, c i = c j → i = j)
    (hc : ∀ i < k, writes (c i) (c ((i + 1) % k))) :
    ∀ j ≤ k, ∃ s : State N n, (reentrySystem N n).Reachable (Along writes) s ∧ s.stack = crossing c k k j := by
  intro j
  induction j with
  | zero => exact fun _ => reach_finalizers hk hinj k le_rfl
  | succ j ih =>
    intro hj
    obtain ⟨s, hs, hstack⟩ := ih (by omega)
    let t : Fin N := ⟨j, by omega⟩
    have htop : s.stack t = [⟨.ctx (c j), .final⟩] := by
      simp [hstack, crossing, t, Nat.lt_of_succ_le hj]
    have hcall := hs.step (a := .call t (.ctx (c ((j + 1) % k)))) ?_ (step_iff.mpr (.nest htop))
    · refine ⟨_, hcall, funext fun u => ?_⟩
      simp only [State.stack_setStack, hstack]
      by_cases hu : u = t
      · simp [hu, crossing, t]
      · have hne : u.val ≠ j := fun h => hu (Fin.ext h)
        have hlt : u.val < j + 1 ↔ u.val < j := by omega
        simp [hu, crossing, hlt]
    · intro f hf fd hfd
      rw [htop] at hf
      obtain rfl := Option.some.inj hf
      obtain rfl := Mutex.ctx.inj hfd
      exact hc j hj

theorem not_returns_of_crossing (hk : 0 < k) (hkN : k ≤ N) (hs : (reentrySystem N n).Reachable (Along writes) s)
    (hstack : s.stack = crossing c k k k) :
    ¬ (reentrySystem N n).Inevitable (Along writes) Action.further State.Returned 0 s := by
  have hwaits : ∀ t fs, s.stack t ≠ [] → s.stack t = fs →
      ∃ m u fs', fs = ⟨m, .lock⟩ :: fs' ∧ s.owner m = some u := by
    rintro t - ht rfl
    have htk : t.val < k := by
      by_contra hge
      exact ht (by simp [hstack, crossing, hge])
    have hnext := Nat.mod_lt (t.val + 1) hk
    refine ⟨.ctx (c ((t + 1) % k)), ⟨(t + 1) % k, by omega⟩, [⟨.ctx (c t), .final⟩], ?_, ?_⟩
    · simp [hstack, crossing, htk]
    · rw [(Inv.of_reachable hs).owner, hstack, mem_locksOf_crossing le_rfl]
      exact ⟨hnext, rfl⟩
  intro h
  cases h with
  | here h =>
    have hzero := h ⟨0, by omega⟩
    simp [hstack, crossing, hk] at hzero
  | later hgo =>
    obtain ⟨a, s', -, ha, hstep⟩ := hgo
    cases step_iff.mp hstep with
    | call | nest | final => cases ha
    | lock hst hfree =>
      obtain ⟨m, u, fs', hfs, howner⟩ := hwaits _ _ (by simp [hst]) hst
      cases hfs
      cases hfree.symm.trans howner
    | finalReturn hst | ret hst =>
      obtain ⟨m, u, fs', hfs, -⟩ := hwaits _ _ (by simp [hst]) hst
      cases hfs

/-- With at least a thread for each descriptor: however the threads go on from there with finitely many
calls and finalizers, all calls return, if and only if no descriptor writes to itself in some steps. -/
theorem calls_return_iff (hN : n ≤ N) :
    (∀ (s : State N n) (k : ℕ), (reentrySystem N n).Reachable (Along writes) s →
      (reentrySystem N n).Inevitable (Along writes) Action.further State.Returned k s) ↔
    ∀ fd, ¬ TransGen writes fd fd := by
  refine ⟨fun hall fd hfd => ?_, fun hw s k hs => returns_of_acyclic hw (Inv.of_reachable hs) k⟩
  obtain ⟨k, c, hk, hc, hinj⟩ := exists_cycle hfd
  have hkn : k ≤ n := by
    have := Fintype.card_le_of_injective (fun i : Fin k => c i) fun i j hij =>
      Fin.ext (hinj i i.isLt j j.isLt hij)
    simpa only [Fintype.card_fin] using this
  obtain ⟨s, hs, hstack⟩ := reach_crossing (hkn.trans hN) hinj hc k le_rfl
  exact not_returns_of_crossing hk (hkn.trans hN) hs hstack (hall s 0 hs)

/-- Finalizers that write to greater descriptors only. -/
theorem calls_return_upwards :
    2 ≤ 2 ∧ ∀ (s : State 2 2) (k : ℕ), (reentrySystem 2 2).Reachable (Along (· < ·)) s →
      (reentrySystem 2 2).Inevitable (Along (· < ·)) Action.further State.Returned k s :=
  ⟨le_rfl, (calls_return_iff le_rfl).mpr fun fd h => lt_irrefl fd (by rwa [transGen_eq_self] at h)⟩

end Mpio.Wavy.Reentry
