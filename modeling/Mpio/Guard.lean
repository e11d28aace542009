import Mpio.Lib.Monitor

/-!
# Guards of locks

`pthread_scoped_lock`, `pthread_scoped_rdlock` and `pthread_scoped_wrlock` of `mp/pthread.h`, and
`sync<T>::ref` and `sync<T>::auto_ref` of `mp/sync.hmpl`. Each has a pointer to the lock that it has taken
and releases the lock in its destructor if the pointer is not `NULL`; they differ in how they lock. The
pointer is set after the lock was taken and cleared after it was released, so that a `lock()` that throws
leaves a guard that does not release anything. `relock(mutex)` and `reset(obj)` release the lock of the
guard first; they are the two steps `unlock` and `lock`, and only the first one if `lock()` throws.

`m_cond.wait(mutex)` gives the mutex back although the guard of the thread still points to it; the thread
takes it again before it goes on.

Threads are numbers below `N`, guards below `M`. `value` is what a lock protects, the object of a
`sync<T>`. Not part of the program: `since`, the changes to the object since it was locked, and `undefined`,
whether a lock was released by a thread that does not hold it.
-/

namespace Mpio.Guard

open Lib

inductive Class
  | scopedLock
  | scopedRdlock
  | scopedWrlock
  | ref
  | autoRef
  deriving DecidableEq

/-- `rdlock()`, or `lock()` and `wrlock()`. -/
def Class.mode : Class → LockMode
  | .scopedRdlock => .shared
  | .scopedLock | .scopedWrlock | .ref | .autoRef => .exclusive

/-- Guards of a `pthread_mutex`, which a condition variable can release. -/
def Class.waits : Class → Bool
  | .scopedLock | .ref | .autoRef => true
  | .scopedRdlock | .scopedWrlock => false

/-- An object on the stack of a thread, with `m_mutex` or `m_ref`. -/
structure Object (L : Type*) where
  cls : Class
  thread : ℕ
  mutex : Option L
  deriving DecidableEq

/-- `asleep` is the guard with which a thread waits on a condition variable. -/
structure State (L V : Type*) extends Monitor L V where
  guards : ℕ → Option (Object L)
  asleep : ℕ → Option ℕ

variable {L V : Type*} [DecidableEq L] {N M : ℕ} {s s' : State L V}

def Object.grip (o : Object L) (l : L) : Grip L := ⟨o.cls.mode, l, o.thread⟩

def State.setGuard (s : State L V) (g : ℕ) (o : Option (Object L)) : State L V :=
  { s with guards := Function.update s.guards g o }

/-- `mutex.lock(); m_mutex = &mutex;` -/
def State.lock (N : ℕ) (s : State L V) (g : ℕ) (o : Object L) (l : L) : Option (State L V) :=
  if s.Free N (o.grip l) then
    some ({ s with toMonitor := s.acquire (o.grip l) }.setGuard g (some { o with mutex := some l }))
  else none

/-- `if(m_mutex) { m_mutex->unlock(); m_mutex = NULL; }` -/
def State.unlock (s : State L V) (g : ℕ) (o : Object L) : State L V :=
  match o.mutex with
  | some l => { s with toMonitor := s.release (o.grip l) }.setGuard g (some { o with mutex := none })
  | none => s

/-- `lock` is the second half of `relock` and `reset(obj)`, `move` the copy constructor of `auto_ref`,
`wait` and `wake` the two halves of `pthread_cond::wait`, and `change` an access through a guard. -/
inductive Action (L V : Type*)
  | default (t : ℕ) (cls : Class) (g : ℕ)
  | construct (t : ℕ) (cls : Class) (g : ℕ) (l : L)
  | unlock (g : ℕ)
  | lock (g : ℕ) (l : L)
  | move (g g' : ℕ)
  | destroy (g : ℕ)
  | wait (g : ℕ)
  | wake (t : ℕ)
  | change (g : ℕ) (f : V → V)

/-- The object `g`, whose thread is not in a wait. -/
def State.own (s : State L V) (g : ℕ) : Option (Object L) :=
  (s.guards g).filter fun o => s.asleep o.thread = none

/-- The thread can construct a guard. -/
def State.Room (N M : ℕ) (s : State L V) (t g : ℕ) : Prop :=
  t < N ∧ g < M ∧ s.guards g = none ∧ s.asleep t = none

instance (s : State L V) (t g : ℕ) : Decidable (s.Room N M t g) :=
  inferInstanceAs (Decidable (_ ∧ _ ∧ _ ∧ _))

def step (N M : ℕ) (s : State L V) : Action L V → Option (State L V)
  | .default t cls g => if s.Room N M t g then some (s.setGuard g (some ⟨cls, t, none⟩)) else none
  | .construct t cls g l => if s.Room N M t g then s.lock N g ⟨cls, t, none⟩ l else none
  | .unlock g => (s.own g).map (s.unlock g)
  | .lock g l => (s.own g).bind fun o => if o.mutex = none then s.lock N g o l else none
  | .move g g' =>
    (s.own g).bind fun o =>
      if o.cls = .autoRef ∧ g' < M ∧ s.guards g' = none then
        some ((s.setGuard g (some { o with mutex := none })).setGuard g' (some o))
      else none
  | .destroy g => (s.own g).map fun o => (s.unlock g o).setGuard g none
  | .wait g =>
    (s.own g).bind fun o =>
      match o.mutex with
      | some l =>
        if o.cls.waits = true then
          some { s with
            toMonitor := s.release (o.grip l), asleep := Function.update s.asleep o.thread (some g) }
        else none
      | none => none
  | .wake t =>
    match s.asleep t with
    | some g =>
      match s.guards g with
      | some ⟨cls, u, some l⟩ =>
        if s.Free N ⟨cls.mode, l, u⟩ then
          some { s with
            toMonitor := s.acquire ⟨cls.mode, l, u⟩, asleep := Function.update s.asleep t none }
        else none
      | _ => none
    | none => none
  | .change g f =>
    (s.own g).bind fun o =>
      match o.mutex with
      | some l => if o.cls.mode = .exclusive then some { s with toMonitor := s.change l f } else none
      | none => none

/-- Nothing is locked, and the objects are as constructed. -/
def State.start (init : L → V) : State L V where
  holds _ := 0
  value := init
  since _ := []
  undefined := false
  guards _ := none
  asleep _ := none

def guardSystem (N M : ℕ) (init : L → V) : System (State L V) (Action L V) where
  init s := s = .start init
  step := step N M

/-! ## Steps -/

section steps

omit [DecidableEq L] in
theorem own_eq_some {g : ℕ} {o : Object L} :
    s.own g = some o ↔ s.guards g = some o ∧ s.asleep o.thread = none := by
  simp [State.own, Option.filter_eq_some_iff]

/-- The guard that an action takes its lock from. -/
def Action.releases : Action L V → Option ℕ
  | .unlock g | .destroy g | .wait g => some g
  | .default .. | .construct .. | .lock .. | .move .. | .wake _ | .change .. => none

/-- What the steps can do. -/
inductive Step (N M : ℕ) (s : State L V) : Action L V → State L V → Prop
  | default {t g : ℕ} {cls : Class} (hroom : s.Room N M t g) :
      Step N M s (.default t cls g) (s.setGuard g (some ⟨cls, t, none⟩))
  | lock {a : Action L V} {g : ℕ} {o : Object L} {l : L} (ho : s.Room N M o.thread g ∨ s.own g = some o)
      (hm : o.mutex = none) (hfree : s.Free N (o.grip l)) :
      Step N M s a ({ s with toMonitor := s.acquire (o.grip l) }.setGuard g (some { o with mutex := some l }))
  | unlock {a : Action L V} {g : ℕ} {o : Object L} {l : L} {o' : Option (Object L)} (ho : s.own g = some o)
      (hm : o.mutex = some l) (ha : a.releases = some g)
      (ho' : o' = none ∨ o' = some { o with mutex := none }) :
      Step N M s a ({ s with toMonitor := s.release (o.grip l) }.setGuard g o')
  | empty {a : Action L V} : Step N M s a s
  | destroy {a : Action L V} {g : ℕ} {o : Object L} (ho : s.own g = some o) (hm : o.mutex = none) :
      Step N M s a (s.setGuard g none)
  | move {g g' : ℕ} {o : Object L} (ho : s.own g = some o) (hg' : g' < M) (hnone : s.guards g' = none) :
      Step N M s (.move g g') ((s.setGuard g (some { o with mutex := none })).setGuard g' (some o))
  | wait {a : Action L V} {g : ℕ} {o : Object L} {l : L} (ho : s.own g = some o) (hm : o.mutex = some l)
      (ha : a.releases = some g) :
      Step N M s a { s with
        toMonitor := s.release (o.grip l), asleep := Function.update s.asleep o.thread (some g) }
  | wake {t g : ℕ} {o : Object L} {l : L} (ht : s.asleep t = some g) (ho : s.guards g = some o)
      (hm : o.mutex = some l) (hfree : s.Free N (o.grip l)) :
      Step N M s (.wake t) { s with
        toMonitor := s.acquire (o.grip l), asleep := Function.update s.asleep t none }
  | change {g : ℕ} {o : Object L} {l : L} {f : V → V} (ho : s.own g = some o) (hm : o.mutex = some l)
      (hmode : o.cls.mode = .exclusive) :
      Step N M s (.change g f) { s with toMonitor := s.change l f }

variable {a : Action L V}

omit [DecidableEq L] in
theorem setGuard_setGuard (s : State L V) (g : ℕ) (o o' : Option (Object L)) :
    (s.setGuard g o).setGuard g o' = s.setGuard g o' := by
  simp [State.setGuard]

theorem lock_cases {g : ℕ} {o : Object L} {l : L} (h : s.lock N g o l = some s') : s.Free N (o.grip l) ∧
    s' = { s with toMonitor := s.acquire (o.grip l) }.setGuard g (some { o with mutex := some l }) := by
  unfold State.lock at h
  split_ifs at h with hfree
  exact ⟨hfree, (Option.some.inj h).symm⟩

theorem step_cases (h : step N M s a = some s') : Step N M s a s' := by
  cases a with
  | default t cls g =>
    simp only [step, Option.ite_none_right_eq_some, Option.some.injEq] at h
    obtain ⟨hroom, rfl⟩ := h
    exact .default hroom
  | construct t cls g l =>
    simp only [step, Option.ite_none_right_eq_some] at h
    obtain ⟨hroom, h⟩ := h
    obtain ⟨hfree, rfl⟩ := lock_cases h
    exact .lock (.inl hroom) rfl hfree
  | unlock g =>
    obtain ⟨o, ho, rfl⟩ := Option.map_eq_some_iff.mp h
    cases hm : o.mutex with
    | none =>
      simp only [State.unlock, hm]
      exact .empty
    | some l =>
      simp only [State.unlock, hm]
      exact .unlock ho hm rfl (.inr rfl)
  | lock g l =>
    obtain ⟨o, ho, h⟩ := Option.bind_eq_some_iff.mp h
    simp only [Option.ite_none_right_eq_some] at h
    obtain ⟨hm, h⟩ := h
    obtain ⟨hfree, rfl⟩ := lock_cases h
    exact .lock (.inr ho) hm hfree
  | move g g' =>
    obtain ⟨o, ho, h⟩ := Option.bind_eq_some_iff.mp h
    simp only [Option.ite_none_right_eq_some, Option.some.injEq] at h
    obtain ⟨⟨-, hg', hnone⟩, rfl⟩ := h
    exact .move ho hg' hnone
  | destroy g =>
    obtain ⟨o, ho, rfl⟩ := Option.map_eq_some_iff.mp h
    cases hm : o.mutex with
    | none =>
      simp only [State.unlock, hm]
      exact .destroy ho hm
    | some l =>
      simp only [State.unlock, hm, setGuard_setGuard]
      exact .unlock ho hm rfl (.inl rfl)
  | wait g =>
    obtain ⟨o, ho, h⟩ := Option.bind_eq_some_iff.mp h
    cases hm : o.mutex with
    | none => simp [hm] at h
    | some l =>
      simp only [hm, Option.ite_none_right_eq_some, Option.some.injEq] at h
      obtain ⟨-, rfl⟩ := h
      exact .wait ho hm rfl
  | wake t =>
    simp only [step] at h
    split at h
    · rename_i g ht
      split at h
      · rename_i cls u l ho
        simp only [Option.ite_none_right_eq_some, Option.some.injEq] at h
        obtain ⟨hfree, rfl⟩ := h
        exact .wake (o := ⟨cls, u, some l⟩) ht ho rfl hfree
      · cases h
    · cases h
  | change g f =>
    obtain ⟨o, ho, h⟩ := Option.bind_eq_some_iff.mp h
    cases hm : o.mutex with
    | none => simp [hm] at h
    | some l =>
      simp only [hm, Option.ite_none_right_eq_some, Option.some.injEq] at h
      obtain ⟨hmode, rfl⟩ := h
      exact .change ho hm hmode

end steps

/-! ## The guards are tokens for the locks -/

/-- The lock that a guard has, unless its thread has given it back in a wait. -/
def State.grips (s : State L V) (g : ℕ) : Option (Grip L) :=
  (s.guards g).bind fun o => if s.asleep o.thread = some g then none else o.mutex.map o.grip

/-- Every lock is given up with its property restored, if nobody comes in between. -/
def Restoring (I : L → V → Prop) (s : State L V) (a : Action L V) : Prop :=
  ∀ g ∈ a.releases, ∀ x ∈ s.grips g, s.toMonitor.Restores I x

/-- The objects are within bounds, and a thread that sleeps does so with a guard of its own. -/
structure Objects (N M : ℕ) (s : State L V) : Prop where
  bounds : ∀ g o, s.guards g = some o → g < M ∧ o.thread < N
  sleeper : ∀ t g, s.asleep t = some g → ∃ o, s.guards g = some o ∧ o.thread = t

structure Inv (N M : ℕ) (I : L → V → Prop) (s : State L V) : Prop where
  objects : Objects N M s
  guarded : Monitor.Guarded N M I s.grips s.toMonitor

section inv

variable {I : L → V → Prop} {a : Action L V} {g : ℕ} {o : Object L} {l : L}

omit [DecidableEq L] in
theorem grips_of_own (ho : s.own g = some o) : s.grips g = o.mutex.map o.grip := by
  obtain ⟨ho, hawake⟩ := own_eq_some.mp ho
  simp [State.grips, ho, hawake]

omit [DecidableEq L] in
theorem grips_setGuard {o : Option (Object L)} (ho : ∀ p, o = some p → s.asleep p.thread = none) :
    (s.setGuard g o).grips = Function.update s.grips g (o.bind fun p => p.mutex.map p.grip) := by
  funext g'
  by_cases hg : g' = g
  · subst hg
    cases o with
    | none => simp [State.grips, State.setGuard]
    | some p => simp [State.grips, State.setGuard, ho p rfl]
  · rw [Function.update_of_ne hg]
    simp only [State.grips, State.setGuard, Function.update_of_ne hg]
    rfl

omit [DecidableEq L] in
theorem grips_sleep {t : ℕ} {x : Option ℕ} {m : Monitor L V} (hg : s.guards g = some o) (ht : o.thread = t)
    (hx : ∀ g', g' ≠ g → (x = some g' ↔ s.asleep t = some g')) :
    State.grips { s with toMonitor := m, asleep := Function.update s.asleep t x } =
      Function.update s.grips g (if x = some g then none else o.mutex.map o.grip) := by
  funext g'
  by_cases hgg : g' = g
  · subst hgg
    simp [State.grips, hg, ht]
  · rw [Function.update_of_ne hgg]
    unfold State.grips
    cases hg' : s.guards g' with
    | none => rfl
    | some p =>
      simp only [Option.bind_some]
      by_cases hp : p.thread = t
      · simp only [hp, Function.update_self, hx g' hgg]
      · simp only [Function.update_of_ne hp]

/-- Every step is one of the locks and the tokens. -/
theorem step_monitor (h : Inv N M I s) (hr : Restoring I s a) (hs : Step N M s a s') :
    Monitor.Step N M I s.grips s.toMonitor s'.grips s'.toMonitor := by
  cases hs with
  | @default t g cls hroom =>
    have hgrips : (s.setGuard g (some ⟨cls, t, none⟩)).grips = s.grips := by
      rw [grips_setGuard (fun p hp => Option.some.inj hp ▸ hroom.2.2.2), Function.update_eq_self_iff]
      simp [State.grips, hroom.2.2.1]
    rw [hgrips]
    exact .keep
  | @lock _ g o l ho hm hfree =>
    have hawake : s.asleep o.thread = none := ho.elim (·.2.2.2) fun ho => (own_eq_some.mp ho).2
    have hbounds : g < M ∧ o.thread < N :=
      ho.elim (fun hroom => ⟨hroom.2.1, hroom.1⟩) fun ho => h.objects.bounds g o (own_eq_some.mp ho).1
    have hnone : s.grips g = none := by
      obtain hroom | ho := ho
      · simp [State.grips, hroom.2.2.1]
      · rw [grips_of_own ho, hm]
        rfl
    rw [grips_setGuard fun p hp => Option.some.inj hp ▸ hawake]
    exact .take hbounds.1 hbounds.2 hnone hfree
  | @unlock _ g o l o' ho hm ha ho' =>
    have hgrip : s.grips g = some (o.grip l) := by
      rw [grips_of_own ho, hm]
      rfl
    have hawake := (own_eq_some.mp ho).2
    have hnone : (o'.bind fun p => p.mutex.map p.grip) = none := by
      obtain rfl | rfl := ho' <;> rfl
    rw [grips_setGuard (s := { s with toMonitor := s.release (o.grip l) }), hnone]
    · exact .give hgrip (hr g ha _ hgrip)
    · obtain rfl | rfl := ho'
      · intro p hp
        cases hp
      · exact fun p hp => Option.some.inj hp ▸ hawake
  | empty => exact .keep
  | @destroy _ g o ho hm =>
    have hgrips : (s.setGuard g none).grips = s.grips := by
      rw [grips_setGuard (fun p hp => by cases hp), Function.update_eq_self_iff, grips_of_own ho, hm]
      rfl
    rw [hgrips]
    exact .keep
  | @move g g' o ho hg' hnone =>
    have hawake := (own_eq_some.mp ho).2
    have hnone' : s.grips g' = none := by simp [State.grips, hnone]
    have hleft : (s.setGuard g (some { o with mutex := none })).grips = Function.update s.grips g none := by
      rw [grips_setGuard fun p hp => Option.some.inj hp ▸ hawake]
      rfl
    rw [grips_setGuard (s := s.setGuard g _) (fun p hp => Option.some.inj hp ▸ hawake), hleft]
    cases hm : o.mutex with
    | none =>
      have hgrip : s.grips g = none := by
        rw [grips_of_own ho, hm]
        rfl
      have hsame : Function.update (Function.update s.grips g none) g' none = s.grips := by
        have hinner : Function.update s.grips g none = s.grips := Function.update_eq_self_iff.mpr hgrip.symm
        rw [hinner, Function.update_eq_self_iff, hnone']
      simp only [Option.bind_some, hm, Option.map_none, hsame]
      exact .keep
    | some l =>
      have hgrip : s.grips g = some (o.grip l) := by
        rw [grips_of_own ho, hm]
        rfl
      simp only [Option.bind_some, hm, Option.map_some]
      exact .move hgrip hg' hnone'
  | @wait _ g o l ho hm ha =>
    have hgrip : s.grips g = some (o.grip l) := by
      rw [grips_of_own ho, hm]
      rfl
    obtain ⟨hg, hawake⟩ := own_eq_some.mp ho
    rw [grips_sleep hg rfl (fun g' hg' => by simp [hawake, Ne.symm hg']), if_pos rfl]
    exact .give hgrip (hr g ha _ hgrip)
  | @wake t g o l ht ho hm hfree =>
    obtain ⟨p, hp, hthread⟩ := h.objects.sleeper t g ht
    obtain rfl := Option.some.inj (ho.symm.trans hp)
    have hnone : s.grips g = none := by simp [State.grips, ho, hthread, ht]
    rw [grips_sleep ho hthread (fun g' hg' => by simp [ht, Ne.symm hg']), if_neg (by simp), hm]
    exact .take (h.objects.bounds g _ ho).1 (h.objects.bounds g _ ho).2 hnone hfree
  | @change g o l f ho hm hmode =>
    have hgrip : s.grips g = some (o.grip l) := by
      rw [grips_of_own ho, hm]
      rfl
    exact .change hgrip hmode

omit [DecidableEq L] in
theorem Objects.setGuard (h : Objects N M s) {m : Monitor L V} {o : Option (Object L)}
    (hold : s.guards g = none ∨ ∃ p, s.own g = some p) (ho : ∀ p, o = some p → g < M ∧ p.thread < N) :
    Objects N M ({ s with toMonitor := m }.setGuard g o) := by
  refine ⟨fun g' p hp => ?_, fun t g' ht => ?_⟩
  · by_cases hg : g' = g
    · subst hg
      exact ho p (by simpa [State.setGuard] using hp)
    · exact h.bounds g' p (by simpa [State.setGuard, Function.update_of_ne hg] using hp)
  · obtain ⟨p, hp, hthread⟩ := h.sleeper t g' ht
    have hg : g' ≠ g := by
      rintro rfl
      obtain hnone | ⟨q, hq⟩ := hold
      · rw [hp] at hnone
        cases hnone
      · obtain ⟨hq, hawake⟩ := own_eq_some.mp hq
        obtain rfl := Option.some.inj (hp.symm.trans hq)
        rw [hthread] at hawake
        cases ht.symm.trans hawake
    exact ⟨p, by simpa [State.setGuard, Function.update_of_ne hg] using hp, hthread⟩

theorem Objects.step (h : Objects N M s) (hs : Step N M s a s') : Objects N M s' := by
  have hown {g : ℕ} {o : Object L} (ho : s.own g = some o) : g < M ∧ o.thread < N :=
    h.bounds g o (own_eq_some.mp ho).1
  cases hs with
  | default hroom =>
    exact h.setGuard (.inl hroom.2.2.1) fun p hp => Option.some.inj hp ▸ ⟨hroom.2.1, hroom.1⟩
  | lock ho hm hfree =>
    obtain hroom | ho := ho
    · exact h.setGuard (.inl hroom.2.2.1) fun p hp => Option.some.inj hp ▸ ⟨hroom.2.1, hroom.1⟩
    · exact h.setGuard (.inr ⟨_, ho⟩) fun p hp => Option.some.inj hp ▸ (hown ho :)
  | unlock ho hm ha ho' =>
    have hb := hown ho
    refine h.setGuard (.inr ⟨_, ho⟩) fun p hp => ?_
    obtain rfl | rfl := ho'
    · cases hp
    · obtain rfl := Option.some.inj hp
      exact hb
  | empty => exact h
  | destroy ho hm => exact h.setGuard (.inr ⟨_, ho⟩) fun p hp => by cases hp
  | @move g g' o ho hg' hnone =>
    have hne : g' ≠ g := by
      rintro rfl
      rw [(own_eq_some.mp ho).1] at hnone
      cases hnone
    have hb := hown ho
    have hfrom : Objects N M (s.setGuard g (some { o with mutex := none })) :=
      h.setGuard (.inr ⟨o, ho⟩) fun p hp => by
        obtain rfl := Option.some.inj hp
        exact hb
    refine hfrom.setGuard (.inl ((Function.update_of_ne hne _ _).trans hnone)) fun p hp => ?_
    obtain rfl := Option.some.inj hp
    exact ⟨hg', hb.2⟩
  | @wait _ g o l ho hm ha =>
    obtain ⟨hg, hawake⟩ := own_eq_some.mp ho
    refine ⟨h.bounds, fun t g' ht => ?_⟩
    simp only at ht
    by_cases htt : t = o.thread
    · subst htt
      rw [Function.update_self] at ht
      obtain rfl := Option.some.inj ht
      exact ⟨o, hg, rfl⟩
    · rw [Function.update_of_ne htt] at ht
      exact h.sleeper t g' ht
  | @wake t g o l ht ho hm hfree =>
    refine ⟨h.bounds, fun u g' hu => ?_⟩
    simp only at hu
    by_cases hut : u = t
    · subst hut
      rw [Function.update_self] at hu
      cases hu
    · rw [Function.update_of_ne hut] at hu
      exact h.sleeper u g' hu
  | change => exact ⟨h.bounds, h.sleeper⟩

theorem Inv.step (h : Inv N M I s) (hr : Restoring I s a) (hs : Guard.step N M s a = some s') :
    Inv N M I s' := by
  have hstep := step_cases hs
  exact ⟨h.objects.step hstep, h.guarded.step (step_monitor h hr hstep)⟩

theorem reachable_inv {init : L → V} (hI : ∀ l, I l (init l))
    (h : (guardSystem N M init).Reachable (Restoring I) s) : Inv N M I s := by
  refine h.invariant ?_ fun _ _ _ _ hi hr hs => hi.step hr hs
  rintro _ rfl
  refine ⟨⟨?_, ?_⟩, .init (fun _ => rfl) (fun _ => rfl) rfl hI⟩
  · rintro g o ⟨⟩
  · rintro t g ⟨⟩

/-- In every run the locks that a thread holds are those its guards point to (and not those it gave back in
a wait), so that no lock is released by a thread that does not hold it. While a guard points exclusively to
a lock no other guard points to it. A property that holds of the objects when they are constructed, and
that whoever locks one of them restores if nobody comes in between, holds of every object that is not
locked exclusively. -/
theorem guards_hold {init : L → V} (hI : ∀ l, I l (init l))
    (h : (guardSystem N M init).Reachable (Restoring I) s) :
    s.undefined = false ∧ (∀ x, s.holds x = Monitor.count M s.grips x) ∧
      (∀ g g' x y, s.grips g = some x → s.grips g' = some y → x.mode = .exclusive → x.lock = y.lock →
        g = g') ∧
      ∀ l, (∀ t, s.holds ⟨.exclusive, l, t⟩ = 0) → I l (s.value l) := by
  have hguarded := (reachable_inv hI h).guarded
  refine ⟨hguarded.defined, hguarded.counted, ?_, hguarded.restored⟩
  intro g g' x y hg hg' hmode hlock
  exact hguarded.alone hg hg' hmode hlock

end inv

instance [Fintype V] {I : L → V → Prop} [∀ l v, Decidable (I l v)] (s : State L V) (a : Action L V) :
    Decidable (Restoring I s a) :=
  inferInstanceAs (Decidable (∀ g ∈ a.releases, ∀ x ∈ s.grips g,
    x.mode = .exclusive → ∀ v, I x.lock v → I x.lock (replay (s.since x.lock) v)))

/-- Two threads of `test/sync.cc`: the number goes up and down again under a `ref`. -/
theorem guards_hold_test : ∃ s : State Unit (Fin 4),
    (guardSystem 2 2 fun _ : Unit => (0 : Fin 4)).Reachable (Restoring fun _ v => v = 0) s ∧
      s.guards 1 = some ⟨.ref, 1, none⟩ ∧ s.undefined = false ∧
      ((∀ t, s.holds ⟨.exclusive, (), t⟩ = 0) → s.value () = 0) := by
  obtain ⟨s, hs, hq⟩ := System.exists_reachable_of_exec (S := guardSystem 2 2 fun _ : Unit => (0 : Fin 4))
    (P := Restoring fun _ v => v = 0) (s := .start fun _ => 0)
    [.construct 0 .ref 0 (), .change 0 (· + 1), .change 0 (· - 1), .destroy 0,
      .construct 1 .ref 1 (), .change 1 (· + 1), .change 1 (· - 1), .unlock 1]
    (fun s => decide (s.guards 1 = some ⟨.ref, 1, none⟩)) rfl (by decide +kernel)
  obtain ⟨hdefined, -, -, hrestored⟩ := guards_hold (I := fun (_ : Unit) (v : Fin 4) => v = 0) (fun _ => rfl) hs
  exact ⟨s, hs, of_decide_eq_true hq, hdefined, hrestored ()⟩

end Mpio.Guard
