import Mpio.Wavy.Listen
import Mpio.Wavy.Out
import Mpio.Wavy.Timer

/-!
# Registrations that the kernel refuses

The functions that register a descriptor with an epoll kernel: `add_handler_impl` of `wavy_loop.cc`,
`loop::add_timer` and `loop::add_signal` with the constructors of `kernel_timer` and `kernel_signal`,
and `out::watch` as `write`, `commit_raw` and `commit` call it. Each makes one `epoll_ctl` with
`EPOLL_CTL_ADD`, which the kernel grants or refuses. Timers and signals look at the answer and throw,
the others do not look at it.
-/

namespace Mpio.Wavy.Registration

open Lib Connect
open Listen (Thrown)

/-- `m_state` holds handlers by their names; `registered` is the interest set of the loop's kernel, and
`out` has a kernel of its own. -/
structure State where
  slots : ℕ → Option ℕ
  kern : Timer.Kern
  registered : Finset ℕ
  out : Wavy.State

/-- `m_state[sh->ident()] = sh`. -/
def State.setHandler (s : State) (ident sh : ℕ) : State :=
  { s with slots := Function.update s.slots ident (some sh) }

/-- `kernel::add_fd`, by which the kernel is asked. -/
def State.addFd (s : State) (fd : ℕ) (refused : Bool) : State :=
  if refused then s else { s with registered := insert fd s.registered }

/-! ## The functions -/

/-- `add_handler_impl`. -/
def addHandlerImpl (s : State) (fd sh : ℕ) (fcntl : Ret) (refused : Bool) : State × Option Thrown :=
  if fcntl.ret < 0 then (s, some (.systemError fcntl.errno "failed to set nonblock flag"))
  else ((s.setHandler fd sh).addFd fd refused, none)

/-- `loop::add_timer`; `errno` is what the cleanup of a failed call leaves. -/
def addTimer (b : Timer.Build) (s : State) (sh : ℕ) (value interval : Option Timespec)
    (a : Timer.Answers) (errno : ℤ) (refused : Bool) : State × Option Thrown :=
  let r := Timer.addTimer b s.kern ⟨none, 0⟩ value interval { a with addFd := !refused }
  match r.2.2 with
  | none =>
    -- the exception leaves the constructor of `kernel_timer`, `m_timer` dies
    ({ s with kern := Timer.destroy b r.1 r.2.1 },
      some (.systemError errno "failed to create timer event"))
  | some fd => (({ s with kern := r.1 }.addFd fd false).setHandler fd sh, none)

/-- What the system calls of an `add_signal` answer. -/
structure SignalAnswers where
  signalfd : ℤ → Option ℕ
  fcntl : Bool

/-- `kernel::add_signal`: the object's descriptor afterwards, and the answer. -/
def kernel.addSignal (kern : Timer.Kern) (sg : Option ℕ) (signo : ℤ) (a : SignalAnswers) (addFd : Bool) :
    Timer.Kern × Option ℕ × Option ℕ :=
  match a.signalfd signo with
  | none => (kern, sg, none)
  | some fd =>
    let kern := kern.opened fd
    if !a.fcntl then (kern.close fd, sg, none)
    else if !addFd then (kern.close fd, sg, none)
    else (kern, some fd, some fd)

/-- `~signal`. -/
def kernel.destroySignal (kern : Timer.Kern) : Option ℕ → Timer.Kern
  | none => kern
  | some fd => kern.close fd

/-- `loop::add_signal`. -/
def addSignal (s : State) (sh : ℕ) (signo : ℤ) (a : SignalAnswers) (errno : ℤ) (refused : Bool) :
    State × Option Thrown :=
  let r := kernel.addSignal s.kern none signo a !refused
  match r.2.2 with
  | none =>
    ({ s with kern := kernel.destroySignal r.1 r.2.1 },
      some (.systemError errno "failed to create signal event"))
  | some fd => (({ s with kern := r.1 }.addFd fd false).setHandler fd sh, none)

/-- `out::watch`, both steps of it. -/
def out.watch (o : Wavy.State) (fd : ℕ) (refused : Bool) : Wavy.State :=
  { o with
    interest := if refused then o.interest else Function.update o.interest fd .armed
    watching := o.watching + 1
    cs := Function.update o.cs fd .idle }

theorem out.goOn_goOn {o : Wavy.State} {fd : ℕ} (h : o.cs fd = .addFd) :
    (o.goOn fd).bind (·.goOn fd) = some (out.watch o fd (decide (o.interest fd ≠ .absent))) := by
  simp only [State.goOn, h, Option.bind_some, Function.update_self, Function.update_idem, out.watch]
  by_cases hi : o.interest fd = .absent
  · simp [hi]
  · simp [hi]

/-- `write`, `commit_raw` and `commit`, to the end of their critical section. -/
def outCall (m : ℕ) (mc : Memcpy) (s : State) (act : Action) (refused : Bool) : State × Option Thrown :=
  match enter m mc s.out act with
  | none => (s, none)
  | some e =>
    let o := s.out.entered e
    ({ s with out := if e.work.stage = .addFd then out.watch o e.fd refused else o },
      if e.work.outcome = .badAlloc then some .badAlloc else none)

inductive Op
  | addHandler (fd sh : ℕ) (fcntl : Ret)
  | addTimer (sh : ℕ) (value interval : Option Timespec) (a : Timer.Answers) (errno : ℤ)
  | addSignal (sh : ℕ) (signo : ℤ) (a : SignalAnswers) (errno : ℤ)
  | out (act : Action)

namespace Op

variable (b : Timer.Build) (m : ℕ) (mc : Memcpy)

def call (s : State) (refused : Bool) : Op → State × Option Thrown
  | addHandler fd sh fcntl => addHandlerImpl s fd sh fcntl refused
  | addTimer sh value interval a errno => Registration.addTimer b s sh value interval a errno refused
  | addSignal sh signo a errno => Registration.addSignal s sh signo a errno refused
  | out act => outCall m mc s act refused

/-- The call comes to its `EPOLL_CTL_ADD`. -/
def Asks (s : State) : Op → Prop
  | addHandler _ _ fcntl => 0 ≤ fcntl.ret
  | addTimer _ value interval a _ => { a with addFd := true }.Succeeds b value interval
  | addSignal _ signo a _ => (a.signalfd signo).isSome ∧ a.fcntl
  | out act => ∃ e, enter m mc s.out act = some e ∧ s.out.cs e.fd = .idle ∧ e.work.stage = .addFd

/-- What the kernel hands out is new. -/
def Fresh (s : State) : Op → Prop
  | addTimer _ _ _ a _ => Timer.Fresh b s.kern a
  | addSignal _ signo a _ => ∀ fd ∈ a.signalfd signo, fd ∉ s.kern.files
  | addHandler .. | out _ => True

/-- The two that look at the answer. -/
def Looks : Op → Bool
  | addTimer .. | addSignal .. => true
  | addHandler .. | out _ => false

end Op

/-! ## What a refusal leaves -/

/-- The handlers, `m_watching`, which queues are waiting and watched, and the descriptors are as they
were. -/
structure Untouched (s s' : State) : Prop where
  slots : s'.slots = s.slots
  watching : s'.out.watching = s.out.watching
  status : ∀ fd, (s'.out.ctx fd).empty = (s.out.ctx fd).empty ∧ s'.out.interest fd = s.out.interest fd
  registered : s'.registered = s.registered
  files : s'.kern.files = s.kern.files

section

variable {b : Timer.Build} {m : ℕ} {mc : Memcpy} {s : State}

theorem addTimer_addFd_false {kern : Timer.Kern} {a : Timer.Answers} (hfresh : Timer.Fresh b kern a)
    (tm : Timer.Obj) (value interval : Option Timespec) :
    (Timer.addTimer b kern tm value interval { a with addFd := false }).1.files = kern.files ∧
      (Timer.addTimer b kern tm value interval { a with addFd := false }).2 = (tm, none) := by
  cases b with
  | timerfd =>
    simp only [Timer.addTimer, Timer.timerfd.addTimer]
    cases hfd : a.timerfdCreate with
    | none => exact ⟨rfl, rfl⟩
    | some fd =>
      simp only [Timer.Kern.opened_close (hfresh fd hfd), Bool.not_false, if_true, ite_self]
      exact ⟨trivial, trivial⟩
  | posix =>
    simp only [Timer.addTimer, Timer.posix.addTimer]
    cases hpipe : a.pipe with
    | none => exact ⟨rfl, rfl⟩
    | some p =>
      obtain ⟨hnew, hnew', hne⟩ := hfresh.1 p hpipe
      have hclose := congrArg Timer.Kern.files (Timer.Kern.pipe_close hnew hnew' hne)
      cases hfcntl : a.fcntl with
      | false => exact ⟨hclose, rfl⟩
      | true =>
        cases htimer : a.timerCreate with
        | none => exact ⟨hclose, rfl⟩
        | some timerId =>
          simp only [Bool.not_true, Bool.false_eq_true, if_false, Bool.not_false, if_true, ite_self]
          exact ⟨hclose, trivial⟩

theorem addTimer_refused {a : Timer.Answers} (hfresh : Timer.Fresh b s.kern a) (sh : ℕ)
    (value interval : Option Timespec) (errno : ℤ) :
    (addTimer b s sh value interval a errno true).2.isSome ∧
      Untouched s (addTimer b s sh value interval a errno true).1 := by
  obtain ⟨hfiles, hret⟩ := addTimer_addFd_false hfresh ⟨none, 0⟩ value interval
  simp only [addTimer, Bool.not_true, hret, Option.isSome_some, true_and]
  have hdead (kern : Timer.Kern) : Timer.destroy b kern ⟨none, 0⟩ = kern := by cases b <;> rfl
  rw [hdead]
  exact ⟨rfl, rfl, fun fd => ⟨rfl, rfl⟩, rfl, hfiles⟩

theorem addSignal_refused {signo : ℤ} {a : SignalAnswers}
    (hfresh : ∀ fd ∈ a.signalfd signo, fd ∉ s.kern.files) (sh : ℕ) (errno : ℤ) :
    (addSignal s sh signo a errno true).2.isSome ∧ Untouched s (addSignal s sh signo a errno true).1 := by
  have hsame : kernel.addSignal s.kern none signo a false = (s.kern, none, none) := by
    unfold kernel.addSignal
    cases hfd : a.signalfd signo with
    | none => rfl
    | some fd => simp [Timer.Kern.opened_close (hfresh fd hfd)]
  simp only [addSignal, Bool.not_true, hsame, Option.isSome_some, true_and]
  exact ⟨rfl, rfl, fun fd => ⟨rfl, rfl⟩, rfl, rfl⟩

theorem enter_outcome {o : Wavy.State} {act : Action} {e : Entry} (he : enter m mc o act = some e)
    (hstage : e.work.stage = .addFd) : e.work.outcome = .ok := by
  have hwatch {x : Outcome} (h : watchAfter x = .addFd) : x = .ok := by
    by_contra hx
    simp [watchAfter, hx] at h
  cases act with
  | write fd buf size as junk =>
    obtain rfl := Option.some.inj he
    simp only [out.write] at hstage ⊢
    split_ifs at hstage ⊢
    exact hwatch hstage
  | submit fd call stack as junk =>
    obtain rfl := Option.some.inj he
    simp only [out.commitRaw] at hstage ⊢
    split_ifs at hstage ⊢
    exact hwatch hstage
  | commit fd k as junk =>
    simp only [enter] at he
    split_ifs at he
    obtain rfl := Option.some.inj he
    simp only [out.commit] at hstage ⊢
    split_ifs at hstage ⊢
    exact hwatch hstage
  | writeEvent fd as =>
    simp only [enter] at he
    split_ifs at he
    obtain rfl := Option.some.inj he
    rfl
  | goOn | pollWait | pollPush | next | push | migrate | clearXfer | rewrite => cases he

end

theorem refused_leaves {b : Timer.Build} {m : ℕ} {mc : Memcpy} {s : State} :
    (∀ fd sh fcntl, 0 ≤ fcntl.ret →
      ((Op.addHandler fd sh fcntl).call b m mc s true).1 = s.setHandler fd sh) ∧
    ∀ act e, enter m mc s.out act = some e → e.work.stage = .addFd →
      ((Op.out act).call b m mc s true).1.out.watching = s.out.watching + 1 ∧
      ((Op.out act).call b m mc s true).1.out.interest = s.out.interest := by
  refine ⟨fun fd sh fcntl hret => ?_, fun act e he hstage => ?_⟩
  · simp [Op.call, addHandlerImpl, not_lt.mpr hret, State.addFd]
  · simp [Op.call, outCall, he, hstage, out.watch, Wavy.State.entered]

/-- The kernel refuses the registration that a call asks for: the call reports it and leaves no trace
exactly when it is `add_timer` or `add_signal`. -/
theorem refused_reported_iff {b : Timer.Build} {m : ℕ} {mc : Memcpy} {s : State} {op : Op}
    (hask : op.Asks b m mc s) (hfresh : op.Fresh b s) :
    ((op.call b m mc s true).2.isSome ∧ Untouched s (op.call b m mc s true).1) ↔ op.Looks = true := by
  cases op with
  | addHandler fd sh fcntl =>
    have hret : ¬ fcntl.ret < 0 := not_lt.mpr hask
    simp [Op.call, addHandlerImpl, hret, Op.Looks]
  | addTimer sh value interval a errno =>
    simp only [Op.Looks, iff_true]
    exact addTimer_refused hfresh sh value interval errno
  | addSignal sh signo a errno =>
    simp only [Op.Looks, iff_true]
    exact addSignal_refused hfresh sh errno
  | out act =>
    obtain ⟨e, he, -, hstage⟩ := hask
    have hok := enter_outcome he hstage
    simp [Op.call, outCall, he, hok, Op.Looks]

/-- A state with nothing in it. -/
def start : State :=
  ⟨fun _ => none, ⟨∅, fun _ => none⟩, ∅, .start ⟨fun _ => 0, fun _ _ => 0⟩⟩

/-- A timer of one second. -/
def timer : Op := .addTimer 7 (some .second) none (Timer.answers true) 28

theorem refused_reported_iff_timer :
    (timer.call .timerfd 1 .ascending start true).2.isSome ∧
      Untouched start (timer.call .timerfd 1 .ascending start true).1 := by
  have hask : timer.Asks .timerfd 1 .ascending start :=
    (by decide : (Timer.answers true).Succeeds .timerfd (some .second) none)
  have hfresh : timer.Fresh .timerfd start :=
    (by decide : Timer.Fresh .timerfd start.kern (Timer.answers true))
  exact (refused_reported_iff hask hfresh).mpr rfl

/-- A handler whose registration is refused: nothing is thrown. -/
theorem refused_not_reported :
    ¬ ∀ (b : Timer.Build) (m : ℕ) (mc : Memcpy) (s : State) (op : Op), op.Asks b m mc s → op.Fresh b s →
      (op.call b m mc s true).2.isSome ∧ Untouched s (op.call b m mc s true).1 := by
  intro hall
  obtain ⟨hthrown, -⟩ := hall .timerfd 1 .ascending start (.addHandler 3 7 ⟨0, 0⟩) le_rfl trivial
  simp [Op.call, addHandlerImpl] at hthrown

end Mpio.Wavy.Registration
