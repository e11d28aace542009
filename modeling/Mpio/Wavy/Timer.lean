import Mathlib.Data.Finset.Basic
import Mpio.Lib.Run
import Mpio.Wavy.Connect

/-!
# Timers of the epoll kernel

`kernel::timer` and `kernel::add_timer` of `wavy_kernel_epoll.h`, in both builds. With timerfd a timer is
one descriptor. With `DISABLE_TIMERFD` it is a POSIX timer and a pipe: the timer's notification
writes to the end whose number is in its `sigval`, and the loop reads the other end. The object keeps
the read end and the timer, not the write end.

A state has the descriptors and the POSIX timers that this code made and that still exist, and the
`timer` objects. System calls succeed or fail as the environment likes; a descriptor or a timer that the
kernel hands out is not one that exists.
-/

namespace Mpio.Wavy.Timer

open Lib Connect

inductive Build
  | timerfd
  | posix
  deriving DecidableEq

/-! ## `add_timer` -/

structure Itimerspec where
  itInterval : Timespec
  itValue : Timespec

/-- `itimer`, as both builds fill it in. -/
def itimerspec (value interval : Option Timespec) : Itimerspec :=
  let itInterval := interval.getD .zero
  ⟨itInterval, value.getD itInterval⟩

/-- What the system calls of an `add_timer` answer: the numbers that were made, and whether the others
succeed. -/
structure Answers where
  timerfdCreate : Option ℕ
  pipe : Option (ℕ × ℕ)
  fcntl : Bool
  timerCreate : Option ℕ
  settime : Itimerspec → Bool
  addFd : Bool

/-- `kernel::timer`. Without a descriptor `fd` is `none` and `timer_id` is not set. -/
structure Obj where
  fd : Option ℕ
  timerId : ℕ
  deriving DecidableEq

/-- The open descriptors, and the `sival_int` of the POSIX timers that exist. -/
structure Kern where
  files : Finset ℕ
  timers : ℕ → Option ℕ

namespace Kern

variable (kern : Kern)

def opened (fd : ℕ) : Kern := { kern with files := insert fd kern.files }

def close (fd : ℕ) : Kern := { kern with files := kern.files.erase fd }

def timerCreate (timerId sivalInt : ℕ) : Kern :=
  { kern with timers := Function.update kern.timers timerId (some sivalInt) }

def timerDelete (timerId : ℕ) : Kern :=
  { kern with timers := Function.update kern.timers timerId none }

end Kern

/-- `add_timer` with timerfd; `none` is `-1`. -/
def timerfd.addTimer (kern : Kern) (tm : Obj) (value interval : Option Timespec) (a : Answers) :
    Kern × Obj × Option ℕ :=
  match a.timerfdCreate with
  | none => (kern, tm, none)
  | some fd =>
    let kern := kern.opened fd
    if !a.fcntl then (kern.close fd, tm, none)
    else if !a.settime (itimerspec value interval) then (kern.close fd, tm, none)
    else if !a.addFd then (kern.close fd, tm, none)
    else (kern, { tm with fd := some fd }, some fd)

/-- `add_timer` with POSIX timers. -/
def posix.addTimer (kern : Kern) (tm : Obj) (value interval : Option Timespec) (a : Answers) :
    Kern × Obj × Option ℕ :=
  match a.pipe with
  | none => (kern, tm, none)
  | some (fd, pipefd) =>
    let kern := (kern.opened fd).opened pipefd
    if !a.fcntl then ((kern.close pipefd).close fd, tm, none)
    else
      match a.timerCreate with
      | none => ((kern.close pipefd).close fd, tm, none)
      | some timerId =>
        let kern := kern.timerCreate timerId pipefd
        if !a.settime (itimerspec value interval) then ((kern.close pipefd).close fd, tm, none)
        else if !a.addFd then ((kern.close pipefd).close fd, tm, none)
        else (kern, ⟨some fd, timerId⟩, some fd)

def addTimer : Build → Kern → Obj → Option Timespec → Option Timespec → Answers → Kern × Obj × Option ℕ
  | .timerfd => timerfd.addTimer
  | .posix => posix.addTimer

/-- `~timer`. -/
def destroy : Build → Kern → Obj → Kern
  | _, kern, ⟨none, _⟩ => kern
  | .timerfd, kern, ⟨some fd, _⟩ => kern.close fd
  | .posix, kern, ⟨some fd, timerId⟩ => (kern.timerDelete timerId).close fd

/-! ## The notification -/

/-- An answer of `write` in the notification. -/
inductive Wrote
  | bytes (wl : ℕ)
  | again
  | fatal
  deriving DecidableEq

/-- `timer_thread_handler`, as far as the answers go, with `left` bytes to write: whether it closes its
descriptor. -/
def timerThreadHandler : ℕ → List Wrote → Bool
  | 0, _ => false
  | _, [] => false
  | left + 1, .again :: ws => timerThreadHandler (left + 1) ws
  | _ + 1, .fatal :: _ => true
  | left + 1, .bytes wl :: ws => timerThreadHandler (left + 1 - wl) ws

def sizeofSigval : ℕ := 8

/-! ## Runs -/

structure State where
  kern : Kern
  objs : ℕ → Option Obj

/-- A notification is of a timer that exists. -/
inductive Action
  | construct (k timerId : ℕ)
  | add (k : ℕ) (value interval : Option Timespec) (a : Answers)
  | destroy (k : ℕ)
  | notify (timerId : ℕ) (ws : List Wrote)

/-- What the kernel hands out is new. -/
def Fresh : Build → Kern → Answers → Prop
  | .timerfd, kern, a => ∀ fd ∈ a.timerfdCreate, fd ∉ kern.files
  | .posix, kern, a =>
    (∀ p ∈ a.pipe, p.1 ∉ kern.files ∧ p.2 ∉ kern.files ∧ p.1 ≠ p.2) ∧
      ∀ timerId ∈ a.timerCreate, kern.timers timerId = none

instance : (b : Build) → (kern : Kern) → (a : Answers) → Decidable (Fresh b kern a)
  | .timerfd, _, a => inferInstanceAs (Decidable (∀ fd ∈ a.timerfdCreate, _))
  | .posix, kern, a => inferInstanceAs (Decidable
      ((∀ p ∈ a.pipe, p.1 ∉ kern.files ∧ p.2 ∉ kern.files ∧ p.1 ≠ p.2) ∧
        ∀ timerId ∈ a.timerCreate, kern.timers timerId = none))

def step (b : Build) (s : State) : Action → Option State
  | .construct k timerId =>
    if s.objs k = none then some { s with objs := Function.update s.objs k (some ⟨none, timerId⟩) }
    else none
  | .add k value interval a =>
    match s.objs k with
    | none => none
    | some tm =>
      if Fresh b s.kern a then
        let r := addTimer b s.kern tm value interval a
        some ⟨r.1, Function.update s.objs k (some r.2.1)⟩
      else none
  | .destroy k =>
    match s.objs k with
    | none => none
    | some tm => some ⟨Timer.destroy b s.kern tm, Function.update s.objs k none⟩
  | .notify timerId ws =>
    match s.kern.timers timerId with
    | none => none
    | some pipefd =>
      some (if timerThreadHandler sizeofSigval ws then { s with kern := s.kern.close pipefd } else s)

def timerSystem (b : Build) : System State Action where
  init s := s = ⟨⟨∅, fun _ => none⟩, fun _ => none⟩
  step := step b

/-! ## What the objects need -/

/-- The descriptors and POSIX timers are those of the objects that were added. -/
structure Exact (b : Build) (s : State) : Prop where
  files : ∀ x, x ∈ s.kern.files ↔ ∃ k fd timerId, s.objs k = some ⟨some fd, timerId⟩ ∧
    (x = fd ∨ b = .posix ∧ s.kern.timers timerId = some x)
  timers : ∀ timerId, s.kern.timers timerId ≠ none ↔
    b = .posix ∧ ∃ k fd, s.objs k = some ⟨some fd, timerId⟩

/-- Whether object `k` has a timer. -/
def State.added (s : State) (k : ℕ) : Bool := (s.objs k).any (·.fd.isSome)

/-- Every system call of `add_timer` succeeds. -/
def Answers.Succeeds (a : Answers) (b : Build) (value interval : Option Timespec) : Prop :=
  (a.fcntl ∧ a.settime (itimerspec value interval) ∧ a.addFd) ∧
    match b with
    | .timerfd => a.timerfdCreate.isSome
    | .posix => a.pipe.isSome ∧ a.timerCreate.isSome

instance (a : Answers) (value interval : Option Timespec) :
    (b : Build) → Decidable (a.Succeeds b value interval)
  | .timerfd => inferInstanceAs (Decidable (_ ∧ a.timerfdCreate.isSome))
  | .posix => inferInstanceAs (Decidable (_ ∧ a.pipe.isSome ∧ a.timerCreate.isSome))

/-- A failure after `timer_create`. -/
def Answers.FailsLate (a : Answers) (value interval : Option Timespec) : Prop :=
  (a.pipe.isSome ∧ a.fcntl ∧ a.timerCreate.isSome) ∧
    ¬ (a.settime (itimerspec value interval) ∧ a.addFd)

instance (a : Answers) (value interval : Option Timespec) : Decidable (a.FailsLate value interval) :=
  inferInstanceAs (Decidable (_ ∧ _))

/-- An object gets a timer only once, and a notification does not close its descriptor. With POSIX
timers, no object with a timer is destroyed and no `add_timer` fails after `timer_create`. -/
def Careful (b : Build) (s : State) : Action → Prop
  | .construct .. => True
  | .add k value interval a =>
    (a.Succeeds b value interval → s.added k = false) ∧ (b = .posix → ¬ a.FailsLate value interval)
  | .destroy k => b = .posix → s.added k = false
  | .notify _ ws => timerThreadHandler sizeofSigval ws = false

instance (b : Build) (s : State) : (act : Action) → Decidable (Careful b s act)
  | .construct .. => inferInstanceAs (Decidable True)
  | .add .. => inferInstanceAs (Decidable (_ ∧ _))
  | .destroy _ => inferInstanceAs (Decidable (_ → _))
  | .notify _ ws => inferInstanceAs (Decidable (timerThreadHandler sizeofSigval ws = false))

/-! ## The operations one by one -/

variable {b : Build}

section

variable {kern : Kern} {tm : Obj} {value interval : Option Timespec} {a : Answers}

theorem Kern.opened_close {fd : ℕ} (h : fd ∉ kern.files) : (kern.opened fd).close fd = kern := by
  simp only [Kern.opened, Kern.close, Finset.erase_insert h]

theorem Kern.pipe_close {fd pipefd : ℕ} (h : fd ∉ kern.files) (h' : pipefd ∉ kern.files)
    (hne : fd ≠ pipefd) : (((kern.opened fd).opened pipefd).close pipefd).close fd = kern := by
  have hnot : pipefd ∉ (kern.opened fd).files := by
    simp only [Kern.opened, Finset.mem_insert, not_or]
    exact ⟨Ne.symm hne, h'⟩
  rw [Kern.opened_close hnot, Kern.opened_close h]

/-- What an `add_timer` does that does not fail after `timer_create`. -/
inductive Adds (b : Build) (kern : Kern) (tm : Obj) : Kern × Obj × Option ℕ → Prop
  | fails : Adds b kern tm (kern, tm, none)
  | timerfd {fd : ℕ} : b = .timerfd → fd ∉ kern.files →
      Adds b kern tm (kern.opened fd, { tm with fd := some fd }, some fd)
  | posix {fd pipefd timerId : ℕ} : b = .posix → fd ∉ kern.files → pipefd ∉ kern.files → fd ≠ pipefd →
      kern.timers timerId = none →
      Adds b kern tm (((kern.opened fd).opened pipefd).timerCreate timerId pipefd, ⟨some fd, timerId⟩,
        some fd)

theorem timerfd.addTimer_adds (hfresh : Fresh .timerfd kern a) :
    Adds .timerfd kern tm (timerfd.addTimer kern tm value interval a) := by
  unfold timerfd.addTimer
  cases hfd : a.timerfdCreate with
  | none => exact .fails
  | some fd =>
    have hnew : fd ∉ kern.files := hfresh fd hfd
    simp only [Kern.opened_close hnew]
    split_ifs
    · exact .fails
    · exact .fails
    · exact .fails
    · exact .timerfd rfl hnew

theorem posix.addTimer_adds (hfresh : Fresh .posix kern a) (hlate : ¬ a.FailsLate value interval) :
    Adds .posix kern tm (posix.addTimer kern tm value interval a) := by
  unfold posix.addTimer
  cases hpipe : a.pipe with
  | none => exact .fails
  | some p =>
    obtain ⟨fd, pipefd⟩ := p
    obtain ⟨hnew, hnew', hne⟩ := hfresh.1 (fd, pipefd) hpipe
    simp only [Kern.pipe_close hnew hnew' hne]
    cases hfcntl : a.fcntl with
    | false => exact .fails
    | true =>
      cases htimer : a.timerCreate with
      | none => exact .fails
      | some timerId =>
        have hlate : a.settime (itimerspec value interval) ∧ a.addFd := by
          by_contra hnot
          exact hlate ⟨⟨by simp [hpipe], hfcntl, by simp [htimer]⟩, hnot⟩
        simp only [hlate.1, hlate.2, Bool.not_true, Bool.false_eq_true, if_false]
        exact .posix rfl hnew hnew' hne (hfresh.2 timerId htimer)

theorem addTimer_adds (hfresh : Fresh b kern a) (hlate : b = .posix → ¬ a.FailsLate value interval) :
    Adds b kern tm (addTimer b kern tm value interval a) := by
  cases b with
  | timerfd => exact timerfd.addTimer_adds hfresh
  | posix => exact posix.addTimer_adds hfresh (hlate rfl)

theorem Answers.succeeds_of_addTimer {fd : ℕ} (h : (addTimer b kern tm value interval a).2.2 = some fd) :
    a.Succeeds b value interval := by
  cases b with
  | timerfd =>
    simp only [addTimer, timerfd.addTimer] at h
    cases hfd : a.timerfdCreate with
    | none => simp [hfd] at h
    | some x =>
      rw [hfd] at h
      simp only at h
      split_ifs at h with h1 h2 h3
      simp only [Bool.not_eq_true', Bool.not_eq_false] at h1 h2 h3
      exact ⟨⟨h1, h2, h3⟩, by simp [hfd]⟩
  | posix =>
    simp only [addTimer, posix.addTimer] at h
    cases hpipe : a.pipe with
    | none => simp [hpipe] at h
    | some p =>
      cases htimer : a.timerCreate with
      | none => simp [hpipe, htimer] at h
      | some timerId =>
        rw [hpipe, htimer] at h
        simp only at h
        split_ifs at h with h1 h2 h3
        simp only [Bool.not_eq_true', Bool.not_eq_false] at h1 h2 h3
        exact ⟨⟨h1, h2, h3⟩, by simp [hpipe], by simp [htimer]⟩

end

/-! ## Runs release what they acquire -/

/-- Two objects do not have one descriptor. -/
def Apart (s : State) : Prop :=
  ∀ k k' fd t t', s.objs k = some ⟨some fd, t⟩ → s.objs k' = some ⟨some fd, t'⟩ → k = k'

section

variable {s : State} {k : ℕ}

theorem State.not_added (h : s.added k = false) (fd t : ℕ) : s.objs k ≠ some ⟨some fd, t⟩ := by
  intro hk
  simp [State.added, hk] at h

theorem Exact.update_idle (h : Exact b s) (hk : s.added k = false) {o : Option Obj}
    (ho : ∀ fd t, o ≠ some ⟨some fd, t⟩) : Exact b { s with objs := Function.update s.objs k o } := by
  have hsame (k' fd t : ℕ) :
      Function.update s.objs k o k' = some ⟨some fd, t⟩ ↔ s.objs k' = some ⟨some fd, t⟩ := by
    by_cases heq : k' = k
    · subst heq
      simp [ho, State.not_added hk]
    · rw [Function.update_of_ne heq]
  exact ⟨by simpa only [hsame] using h.files, by simpa only [hsame] using h.timers⟩

theorem Exact.mem_files (h : Exact b s) {fd t : ℕ} (hk : s.objs k = some ⟨some fd, t⟩) :
    fd ∈ s.kern.files := (h.files fd).mpr ⟨k, fd, t, hk, .inl rfl⟩

theorem Exact.add_timerfd (h : Exact .timerfd s) (hk : s.added k = false) {fd t : ℕ} :
    Exact .timerfd ⟨s.kern.opened fd, Function.update s.objs k (some ⟨some fd, t⟩)⟩ := by
  refine ⟨fun x => ?_, fun t' => ?_⟩
  · simp only [Kern.opened, Finset.mem_insert, h.files, reduceCtorEq, false_and, or_false]
    constructor
    · rintro (rfl | ⟨k', fd', t', hk', rfl⟩)
      · exact ⟨k, x, t, Function.update_self .., rfl⟩
      · have hne : k' ≠ k := fun heq => State.not_added hk x t' (heq ▸ hk')
        exact ⟨k', x, t', by rwa [Function.update_of_ne hne], rfl⟩
    · rintro ⟨k', fd', t', hk', rfl⟩
      by_cases heq : k' = k
      · subst heq
        obtain ⟨rfl, -⟩ : fd = x ∧ t = t' := by simpa using hk'
        exact .inl rfl
      · rw [Function.update_of_ne heq] at hk'
        exact .inr ⟨k', x, t', hk', rfl⟩
  · have hnone := h.timers t'
    simp only [reduceCtorEq, false_and] at hnone ⊢
    exact hnone

theorem Exact.add_posix (h : Exact .posix s) (hk : s.added k = false) {fd pipefd t : ℕ}
    (ht : s.kern.timers t = none) :
    Exact .posix ⟨((s.kern.opened fd).opened pipefd).timerCreate t pipefd,
      Function.update s.objs k (some ⟨some fd, t⟩)⟩ := by
  have hother {k' fd' t' : ℕ} (hk' : s.objs k' = some ⟨some fd', t'⟩) : k' ≠ k ∧ t' ≠ t := by
    refine ⟨fun heq => State.not_added hk fd' t' (heq ▸ hk'), fun heq => ?_⟩
    exact (h.timers t').mpr ⟨rfl, k', fd', hk'⟩ (heq ▸ ht)
  refine ⟨fun x => ?_, fun t' => ?_⟩
  · simp only [Kern.opened, Kern.timerCreate, Finset.mem_insert, h.files, true_and]
    constructor
    · rintro (rfl | rfl | ⟨k', fd', t', hk', hx⟩)
      · exact ⟨k, fd, t, Function.update_self .., .inr (Function.update_self ..)⟩
      · exact ⟨k, x, t, Function.update_self .., .inl rfl⟩
      · obtain ⟨hne, hne'⟩ := hother hk'
        refine ⟨k', fd', t', by rwa [Function.update_of_ne hne], ?_⟩
        rwa [Function.update_of_ne hne']
    · rintro ⟨k', fd', t', hk', hx⟩
      by_cases heq : k' = k
      · subst heq
        obtain ⟨rfl, rfl⟩ : fd = fd' ∧ t = t' := by simpa using hk'
        rw [Function.update_self] at hx
        obtain rfl | hx := hx
        · exact .inr (.inl rfl)
        · exact .inl (Option.some.inj hx).symm
      · rw [Function.update_of_ne heq] at hk'
        rw [Function.update_of_ne (hother hk').2] at hx
        exact .inr (.inr ⟨k', fd', t', hk', hx⟩)
  · simp only [Kern.opened, Kern.timerCreate, true_and]
    by_cases heq : t' = t
    · subst heq
      simp only [Function.update_self, ne_eq, reduceCtorEq, not_false_eq_true, true_iff]
      exact ⟨k, fd, Function.update_self ..⟩
    · rw [Function.update_of_ne heq, h.timers]
      simp only [true_and]
      constructor
      · rintro ⟨k', fd', hk'⟩
        exact ⟨k', fd', by rwa [Function.update_of_ne (hother hk').1]⟩
      · rintro ⟨k', fd', hk'⟩
        by_cases heqk : k' = k
        · subst heqk
          simp only [Function.update_self, Option.some.injEq, Obj.mk.injEq] at hk'
          exact absurd hk'.2.symm heq
        · exact ⟨k', fd', by rwa [Function.update_of_ne heqk] at hk'⟩

theorem Exact.destroy_timerfd (h : Exact .timerfd s) (hapart : Apart s) {fd t : ℕ}
    (hk : s.objs k = some ⟨some fd, t⟩) :
    Exact .timerfd ⟨s.kern.close fd, Function.update s.objs k none⟩ := by
  refine ⟨fun x => ?_, fun t' => ?_⟩
  · simp only [Kern.close, Finset.mem_erase, h.files, reduceCtorEq, false_and, or_false]
    constructor
    · rintro ⟨hne, k', fd', t', hk', rfl⟩
      have hkk : k' ≠ k := by
        rintro rfl
        simp only [hk', Option.some.injEq, Obj.mk.injEq] at hk
        exact hne hk.1
      exact ⟨k', x, t', by rwa [Function.update_of_ne hkk], rfl⟩
    · rintro ⟨k', fd', t', hk', rfl⟩
      have hkk : k' ≠ k := by
        rintro rfl
        simp at hk'
      rw [Function.update_of_ne hkk] at hk'
      refine ⟨?_, k', x, t', hk', rfl⟩
      rintro rfl
      exact hkk (hapart k' k x t' t hk' hk)
  · have hnone := h.timers t'
    simp only [reduceCtorEq, false_and] at hnone ⊢
    exact hnone

/-- Objects that change without getting another's descriptor. -/
theorem Apart.update (h : Apart s) {o : Option Obj} {kern : Kern}
    (ho : ∀ fd t, o = some ⟨some fd, t⟩ → ∀ k' t', s.objs k' ≠ some ⟨some fd, t'⟩) :
    Apart ⟨kern, Function.update s.objs k o⟩ := by
  intro k1 k2 fd t1 t2 h1 h2
  simp only at h1 h2
  by_cases heq1 : k1 = k
  · by_cases heq2 : k2 = k
    · rw [heq1, heq2]
    · subst heq1
      rw [Function.update_self] at h1
      rw [Function.update_of_ne heq2] at h2
      exact absurd h2 (ho fd t1 h1 k2 t2)
  · rw [Function.update_of_ne heq1] at h1
    by_cases heq2 : k2 = k
    · subst heq2
      rw [Function.update_self] at h2
      exact absurd h1 (ho fd t2 h2 k1 t1)
    · rw [Function.update_of_ne heq2] at h2
      exact h k1 k2 fd t1 t2 h1 h2

theorem Exact.add (h : Exact b s) (hapart : Apart s) {tm : Obj} (hk : s.objs k = some tm)
    {value interval : Option Timespec} {a : Answers} (hfresh : Fresh b s.kern a)
    (hc : Careful b s (.add k value interval a)) {r : Kern × Obj × Option ℕ}
    (hr : addTimer b s.kern tm value interval a = r) :
    Exact b ⟨r.1, Function.update s.objs k (some r.2.1)⟩ ∧
      Apart ⟨r.1, Function.update s.objs k (some r.2.1)⟩ := by
  obtain ⟨honce, hlate⟩ := hc
  have hadds : Adds b s.kern tm r := hr ▸ addTimer_adds hfresh hlate
  have hnew {fd t : ℕ} (hfd : fd ∉ s.kern.files) (fd' t1 : ℕ)
      (ho : some (⟨some fd, t⟩ : Obj) = some ⟨some fd', t1⟩) (k' t' : ℕ) :
      s.objs k' ≠ some ⟨some fd', t'⟩ := by
    obtain ⟨rfl, -⟩ : fd = fd' ∧ t = t1 := by simpa using ho
    exact fun hk' => hfd (h.mem_files hk')
  cases hadds with
  | fails =>
    have hsame : Function.update s.objs k (some tm) = s.objs := by rw [← hk, Function.update_eq_self]
    simp only [hsame]
    exact ⟨h, hapart⟩
  | @timerfd fd hb hfd =>
    subst hb
    have hk' : s.added k = false := honce (Answers.succeeds_of_addTimer (congrArg (·.2.2) hr))
    exact ⟨h.add_timerfd hk', hapart.update (hnew hfd)⟩
  | @posix fd pipefd t hb hfd hpipefd hne ht =>
    subst hb
    have hk' : s.added k = false := honce (Answers.succeeds_of_addTimer (congrArg (·.2.2) hr))
    exact ⟨h.add_posix hk' ht, hapart.update (hnew hfd)⟩

theorem Exact.destroy (h : Exact b s) (hapart : Apart s) {tm : Obj} (hk : s.objs k = some tm)
    (hc : Careful b s (.destroy k)) :
    Exact b ⟨Timer.destroy b s.kern tm, Function.update s.objs k none⟩ := by
  obtain ⟨fd, t⟩ := tm
  cases fd with
  | none =>
    have hkern : Timer.destroy b s.kern ⟨none, t⟩ = s.kern := by cases b <;> rfl
    rw [hkern]
    exact h.update_idle (by simp [State.added, hk]) (by simp)
  | some fd =>
    cases b with
    | timerfd => exact h.destroy_timerfd hapart hk
    | posix => exact absurd hk (State.not_added (hc rfl) fd t)

theorem Exact.step (h : Exact b s) (hapart : Apart s) {act : Action} {s' : State}
    (hc : Careful b s act) (hs : Timer.step b s act = some s') : Exact b s' ∧ Apart s' := by
  cases act with
  | construct k t =>
    simp only [Timer.step] at hs
    split_ifs at hs with hk
    obtain rfl := Option.some.inj hs
    exact ⟨h.update_idle (by simp [State.added, hk]) (by simp), hapart.update (by simp)⟩
  | add k value interval a =>
    simp only [Timer.step] at hs
    cases hk : s.objs k with
    | none => simp [hk] at hs
    | some tm =>
      rw [hk] at hs
      simp only at hs
      split_ifs at hs with hfresh
      obtain rfl := Option.some.inj hs
      exact h.add hapart hk hfresh hc rfl
  | destroy k =>
    simp only [Timer.step] at hs
    cases hk : s.objs k with
    | none => simp [hk] at hs
    | some tm =>
      rw [hk] at hs
      obtain rfl := Option.some.inj hs
      exact ⟨h.destroy hapart hk hc, hapart.update (by simp)⟩
  | notify t ws =>
    have hopen : timerThreadHandler sizeofSigval ws = false := hc
    simp only [Timer.step, hopen, Bool.false_eq_true, if_false] at hs
    split at hs
    · cases hs
    · obtain rfl := Option.some.inj hs
      exact ⟨h, hapart⟩

end

/-- In every run whose steps are careful, what is open and what timers exist is what the live objects
with a timer need; nothing is left when all objects are gone, and an `add_timer` that fails changes
nothing. -/
theorem timers_exact {s : State} (hs : (timerSystem b).Reachable (Careful b) s) :
    Exact b s ∧
      ((∀ k, s.objs k = none) → s.kern.files = ∅ ∧ ∀ t, s.kern.timers t = none) ∧
      ∀ k tm value interval a, s.objs k = some tm → Fresh b s.kern a →
        Careful b s (.add k value interval a) → (addTimer b s.kern tm value interval a).2.2 = none →
        (addTimer b s.kern tm value interval a).1 = s.kern := by
  have hinv : Exact b s ∧ Apart s := by
    refine hs.invariant (I := fun s => Exact b s ∧ Apart s) ?_
      fun s act s' _ h hc hstep => h.1.step h.2 hc hstep
    rintro s rfl
    exact ⟨⟨by simp, by simp⟩, fun k k' fd t t' hk => by simp at hk⟩
  refine ⟨hinv.1, fun hgone => ⟨?_, fun t => ?_⟩, ?_⟩
  · refine Finset.eq_empty_of_forall_notMem fun x hx => ?_
    obtain ⟨k, fd, t, hk, -⟩ := (hinv.1.files x).mp hx
    simp [hgone] at hk
  · by_contra ht
    obtain ⟨-, k, fd, hk⟩ := (hinv.1.timers t).mp ht
    simp [hgone] at hk
  · intro k tm value interval a _ hfresh hc hret
    have hadds := @addTimer_adds b s.kern tm value interval a hfresh hc.2
    generalize addTimer b s.kern tm value interval a = r at hadds hret
    cases hadds with
    | fails => rfl
    | timerfd | posix => cases hret

/-- Answers with which `add_timer` gets descriptor 5, with POSIX timers and a pipe to write to. -/
def answers (addFd : Bool) : Answers := ⟨some 5, some (5, 6), true, some 1, fun _ => true, addFd⟩

/-- With timerfd a timer is made and destroyed after one that could not be made; with POSIX timers one is
made and notified. -/
theorem timers_exact_oneTimer :
    (∃ s, (timerSystem .timerfd).Reachable (Careful .timerfd) s ∧ s.kern.files = ∅ ∧ Exact .timerfd s) ∧
      ∃ s, (timerSystem .posix).Reachable (Careful .posix) s ∧ s.kern.files = {5, 6} ∧ Exact .posix s := by
  constructor
  · have hexec : ((timerSystem .timerfd).exec (Careful .timerfd) ⟨⟨∅, fun _ => none⟩, fun _ => none⟩
        [.construct 0 0, .add 0 none none (answers false), .add 0 none none (answers true),
          .destroy 0]).map (fun s => decide (s.kern.files = ∅)) = some true := by
      decide
    obtain ⟨s, hs, hq⟩ := System.exists_reachable_of_exec _ _ rfl hexec
    exact ⟨s, hs, of_decide_eq_true hq, (timers_exact hs).1⟩
  · have hexec : ((timerSystem .posix).exec (Careful .posix) ⟨⟨∅, fun _ => none⟩, fun _ => none⟩
        [.construct 0 0, .add 0 none none (answers true), .notify 1 [.again, .bytes 8]]).map
          (fun s => decide (s.kern.files = {5, 6})) = some true := by
      decide
    obtain ⟨s, hs, hq⟩ := System.exists_reachable_of_exec _ _ rfl hexec
    exact ⟨s, hs, of_decide_eq_true hq, (timers_exact hs).1⟩

/-- A POSIX timer that is made and destroyed leaves the write end of its pipe open. -/
theorem timers_leak :
    ¬ ∀ b s, (timerSystem b).Reachable (fun _ _ => True) s → Exact b s := by
  intro hall
  let start : State := ⟨⟨∅, fun _ => none⟩, fun _ => none⟩
  let tm : Option Obj := some ⟨some 5, 1⟩
  -- the object is gone, descriptor 6 is open
  have hexec : (timerSystem .posix).exec (fun _ _ => True) start
      [.construct 0 0, .add 0 none none (answers true), .destroy 0] =
        some ⟨⟨{6}, Function.update (Function.update start.kern.timers 1 (some 6)) 1 none⟩,
          Function.update (Function.update (Function.update start.objs 0 (some ⟨none, 0⟩)) 0 tm) 0 none⟩ := by
    rfl
  have hexact := hall .posix _ (System.Reachable.of_exec (.init rfl) hexec)
  obtain ⟨k, fd, t, hk, -⟩ := (hexact.files 6).mp (Finset.mem_singleton_self 6)
  simp only [Function.update_idem] at hk
  simp [start, Function.update_apply] at hk

end Mpio.Wavy.Timer
